import TapeMachine.Token.Lexer

/-!
# TapeMachine.Proofs.Token.Spelling

Lexemes as they are written, and the fact that lexing undoes writing them.

* `Spelling` — a lexeme with its text; `Spelling.token` is the token it should give at an offset.
* `Layout` — a row of spellings, each with the gap in front of it.
* `Token.ofTextAt_layout` — the tokens of the text of a layout are those of its spellings.
* `Token.ofTextAt_wellSpelled` — whatever the text, the tokens have values that their kinds allow.

Two words that touch would be read as one, so `Layout.Readable` asks for a gap between them. No
other pair of neighbours needs one: what a word is followed by cannot extend it, and every other
spelling carries its own end.
-/

namespace TapeMachine

/-- A word of the language: a letter or underscore, then letters, digits and underscores. -/
def Text.isWord : Text → Bool
  | [] => false
  | c :: rest => isIdentStart c && rest.all isIdentChar

/-- A lexeme as it is written. -/
inductive Spelling where
  /-- A comment with the given body. -/
  | comment (body : Text)
  /-- A character literal. -/
  | character (c : Char)
  /-- A string literal with the given body. -/
  | string (body : Text)
  /-- A keyword or an identifier. -/
  | word (name : Text)
  /-- An opening brace. -/
  | leftBrace
  /-- A closing brace. -/
  | rightBrace
  /-- A slash. -/
  | slash
  /-- A comma. -/
  | comma
  /-- An arrow. -/
  | arrow
deriving Repr, DecidableEq

namespace Spelling

/-- The text of a spelling. -/
def text : Spelling → Text
  | .comment body => '#' :: (body ++ ['#'])
  | .character c => ['\'', c, '\'']
  | .string body => '"' :: (body ++ ['"'])
  | .word name => name
  | .leftBrace => ['{']
  | .rightBrace => ['}']
  | .slash => ['/']
  | .comma => [',']
  | .arrow => ['-', '>']

/-- The kind of the token. A word that is no keyword is an identifier. -/
def kind : Spelling → Token.Kind
  | .comment _ => .comment
  | .character _ => .character
  | .string _ => .string
  | .word name => (Token.keyword? (String.ofList name)).getD .identifier
  | .leftBrace => .leftBrace
  | .rightBrace => .rightBrace
  | .slash => .slash
  | .comma => .comma
  | .arrow => .arrow

/-- The value of the token: the text of a literal, the name of an identifier, otherwise nothing. -/
def value : Spelling → String
  | .character c => String.ofList [c]
  | .string body => String.ofList body
  | .word name =>
    if (Token.keyword? (String.ofList name)).isNone then String.ofList name else ""
  | _ => ""

/-- The number of delimiters on either side that the span of the token leaves out. -/
def border : Spelling → Nat
  | .comment _ | .character _ | .string _ => 1
  | _ => 0

/-- The token of a spelling that starts at the given offset. -/
def token (spelling : Spelling) (start : Nat) : Token :=
  { kind := spelling.kind
    value := spelling.value
    span :=
      { position := (start + spelling.border : Nat)
        length := (spelling.text.length - 2 * spelling.border : Nat) }
    fault := none }

/-- Whether a spelling is a word. -/
def isWord : Spelling → Bool
  | .word _ => true
  | _ => false

/-- Whether the text of a spelling is one lexeme: bodies do not hold their own delimiter, and
words are words. Any character may stand in a character literal. -/
def isLexeme : Spelling → Bool
  | .comment body => !body.contains '#'
  | .string body => !body.contains '"'
  | .word name => Text.isWord name
  | _ => true

end Spelling

/-! ### One lexeme -/

/-- Taking stops exactly where a stretch of accepted characters is followed by a refused one, or by
nothing. -/
theorem Text.takeWhile_stretch {p : Char → Bool} {stretch rest : Text}
    (hstretch : ∀ c ∈ stretch, p c = true) (hrest : ∀ c ∈ rest.head?, p c = false) :
    (stretch ++ rest).takeWhile p = stretch := by
  rw [List.takeWhile_append_of_pos hstretch]
  cases rest with
  | nil => simp
  | cons c rest => simp [hrest c rfl]

theorem Text.isIdentChar_of_isWord {name : Text} (h : isWord name = true) :
    ∀ c ∈ name, isIdentChar c = true := by
  cases name with
  | nil => simp [isWord] at h
  | cons first rest =>
    simp only [isWord, Bool.and_eq_true, List.all_eq_true] at h
    intro c hc
    rcases List.mem_cons.mp hc with rfl | hc
    · exact isIdentChar_of_isIdentStart h.1
    · exact h.2 c hc

/-- The character that starts a word starts nothing else. -/
theorem Text.ne_of_isIdentStart {c d : Char} (h : isIdentStart c = true)
    (hd : isIdentStart d = false) : c ≠ d := by
  rintro rfl
  rw [hd] at h
  exact Bool.false_ne_true h

theorem Text.isSpace_of_isIdentStart {c : Char} (h : isIdentStart c = true) :
    isSpace c = false := by
  have hne : ∀ d, isIdentStart d = false → (c == d) = false := fun d hd => by
    simpa using ne_of_isIdentStart h hd
  simp only [isSpace, hne ' ' (by decide), hne '\t' (by decide), hne '\n' (by decide),
    hne '\x0b' (by decide), hne '\x0c' (by decide), hne '\r' (by decide), Bool.or_self]

theorem Text.isIdentChar_of_isSpace {c : Char} (h : isSpace c = true) :
    isIdentChar c = false := by
  simp only [isSpace, Bool.or_eq_true, beq_iff_eq] at h
  rcases h with ((((rfl | rfl) | rfl) | rfl) | rfl) | rfl <;> decide

namespace Lexeme

theorem scan_word {c : Char} (h : Text.isIdentStart c = true) (rest : Text) :
    scan c rest = word (c :: rest) := by
  have hne : ∀ d, Text.isIdentStart d = false → (c == d) = false := fun d hd => by
    simpa using Text.ne_of_isIdentStart h hd
  simp [scan, hne '#' (by decide), hne '\'' (by decide), hne '"' (by decide), h]

/-- A body is taken whole up to its closing delimiter. -/
theorem takeWhile_body {delimiter : Char} {body : Text} (h : body.contains delimiter = false)
    (rest : Text) : (body ++ delimiter :: rest).takeWhile (· != delimiter) = body := by
  apply Text.takeWhile_stretch
  · intro c hc
    simp only [bne_iff_ne, ne_eq]
    rintro rfl
    simp [hc] at h
  · simp

theorem comment_body {body : Text} (h : body.contains '#' = false) (rest : Text) :
    comment (body ++ '#' :: rest) = enclosed .comment "" body.length := by
  simp only [comment, takeWhile_body h]
  simp

theorem string_body {body : Text} (h : body.contains '"' = false) (rest : Text) :
    string (body ++ '"' :: rest) = enclosed .string (String.ofList body) body.length := by
  simp only [string, takeWhile_body h]
  simp

end Lexeme

namespace Spelling

/-- What follows a word must not extend it; anything else may be followed by anything. -/
def Bounded (spelling : Spelling) (rest : Text) : Prop :=
  spelling.isWord = true → ∀ c ∈ rest.head?, Text.isIdentChar c = false

/-- The lexeme of a spelling. -/
def lexeme (spelling : Spelling) : Lexeme :=
  { kind := spelling.kind
    value := spelling.value
    offset := spelling.border
    length := spelling.text.length - 2 * spelling.border
    fault := none
    width := spelling.text.length }

theorem word_lexeme {name rest : Text} (h : Text.isWord name = true)
    (hrest : (word name).Bounded rest) : Lexeme.word (name ++ rest) = (word name).lexeme := by
  have htake := Text.takeWhile_stretch (Text.isIdentChar_of_isWord h) (hrest rfl)
  simp only [Lexeme.word, htake, lexeme, kind, value, text, border]
  cases Token.keyword? (String.ofList name) <;> simp [Lexeme.plain]

/-- A spelling starts with a character that is no space, and what stands there is its lexeme. -/
theorem scan_text {spelling : Spelling} {rest : Text} (h : spelling.isLexeme = true)
    (hrest : spelling.Bounded rest) :
    ∃ c more, spelling.text = c :: more ∧ Text.isSpace c = false ∧
      Lexeme.scan c (more ++ rest) = spelling.lexeme := by
  cases spelling with
  | comment body =>
    have hbody : body.contains '#' = false := by simpa [isLexeme] using h
    refine ⟨'#', body ++ ['#'], rfl, by decide, ?_⟩
    rw [List.append_assoc]
    simp [Lexeme.scan, Lexeme.comment_body hbody, lexeme, Lexeme.enclosed, text, border, kind,
      value]
  | string body =>
    have hbody : body.contains '"' = false := by simpa [isLexeme] using h
    refine ⟨'"', body ++ ['"'], rfl, by decide, ?_⟩
    rw [List.append_assoc]
    simp [Lexeme.scan, Lexeme.string_body hbody, lexeme, Lexeme.enclosed, text, border, kind,
      value]
  | character c => exact ⟨'\'', [c, '\''], rfl, by decide, rfl⟩
  | word name =>
    cases name with
    | nil => simp [isLexeme, Text.isWord] at h
    | cons c more =>
      have hstart : Text.isIdentStart c = true := by
        simp only [isLexeme, Text.isWord, Bool.and_eq_true] at h
        exact h.1
      refine ⟨c, more, rfl, Text.isSpace_of_isIdentStart hstart, ?_⟩
      rw [Lexeme.scan_word hstart, ← List.cons_append]
      have hword : Text.isWord (c :: more) = true := h
      exact word_lexeme hword hrest
  | leftBrace => exact ⟨'{', [], rfl, by decide, rfl⟩
  | rightBrace => exact ⟨'}', [], rfl, by decide, rfl⟩
  | slash => exact ⟨'/', [], rfl, by decide, rfl⟩
  | comma => exact ⟨',', [], rfl, by decide, rfl⟩
  | arrow => exact ⟨'-', ['>'], rfl, by decide, rfl⟩

/-- A spelling that is no word starts with a character that cannot extend one. -/
theorem head_of_not_isWord {spelling : Spelling} (h : spelling.isWord = false) (rest : Text) :
    ∀ c ∈ (spelling.text ++ rest).head?, Text.isIdentChar c = false := by
  cases spelling with
  | word name => simp [isWord] at h
  | _ =>
    intro c hc
    cases hc
    decide

end Spelling

namespace Token

/-- A spelling gives its token, and reading goes on behind it. -/
theorem ofTextAt_spelling {spelling : Spelling} {rest : Text} (h : spelling.isLexeme = true)
    (hrest : spelling.Bounded rest) (start : Nat) :
    ofTextAt start (spelling.text ++ rest) =
      spelling.token start :: ofTextAt (start + spelling.text.length) rest := by
  obtain ⟨c, more, htext, hspace, hscan⟩ := spelling.scan_text h hrest
  have hwidth : spelling.lexeme.width = (c :: more).length := by rw [← htext]; rfl
  rw [htext, List.cons_append, ofTextAt_lexeme hspace, hscan, hwidth, ← List.cons_append,
    List.drop_left]
  rfl

/-- A gap leaves no token. -/
theorem ofTextAt_gap {gap : Text} (h : gap.all Text.isSpace = true) (start : Nat) (rest : Text) :
    ofTextAt start (gap ++ rest) = ofTextAt (start + gap.length) rest := by
  induction gap generalizing start with
  | nil => rfl
  | cons c gap ih =>
    simp only [List.all_cons, Bool.and_eq_true] at h
    rw [List.cons_append, ofTextAt_space h.1, ih h.2, List.length_cons, Nat.add_assoc,
      Nat.add_comm 1]

end Token

/-! ### Rows of lexemes -/

/-- A row of spellings, each with the gap in front of it. -/
abbrev Layout := List (Text × Spelling)

namespace Layout

/-- The text of a row. -/
def text (layout : Layout) : Text :=
  layout.flatMap fun item => item.1 ++ item.2.text

/-- The tokens of a row that starts at the given offset. -/
def tokens (start : Nat) : Layout → List Token
  | [] => []
  | (gap, spelling) :: rest =>
    spelling.token (start + gap.length) ::
      tokens (start + gap.length + spelling.text.length) rest

/-- Whether a row can be read back: its gaps are gaps, its spellings are lexemes and a word does
not touch a word. The flag says whether the row stands right behind a word. -/
def Readable : Bool → Layout → Prop
  | _, [] => True
  | behind, (gap, spelling) :: rest =>
    gap.all Text.isSpace = true ∧ (behind = true → spelling.isWord = true → gap ≠ []) ∧
      spelling.isLexeme = true ∧ Readable spelling.isWord rest

@[simp] theorem text_nil : text [] = [] := rfl

@[simp] theorem text_cons (gap : Text) (spelling : Spelling) (rest : Layout) :
    text ((gap, spelling) :: rest) = gap ++ (spelling.text ++ text rest) := by
  simp [text]

@[simp] theorem text_append (left right : Layout) :
    text (left ++ right) = text left ++ text right := by
  simp [text]

theorem text_flatMap {α : Type} (xs : List α) (f : α → Layout) :
    text (xs.flatMap f) = xs.flatMap fun x => text (f x) := by
  simp [text, List.flatMap_assoc]

/-- The tokens of two rows, one behind the other. -/
theorem tokens_append (start : Nat) (left right : Layout) :
    tokens start (left ++ right) =
      tokens start left ++ tokens (start + (text left).length) right := by
  induction left generalizing start with
  | nil => rfl
  | cons item left ih =>
    obtain ⟨gap, spelling⟩ := item
    simp only [List.cons_append, tokens, ih, text_cons, List.length_append, Nat.add_assoc]

/-- A row that can stand right behind a word can stand anywhere. -/
theorem Readable.of_true {layout : Layout} (h : layout.Readable true) (behind : Bool) :
    layout.Readable behind := by
  cases layout with
  | nil => trivial
  | cons item rest =>
    obtain ⟨hgap, hapart, hrest⟩ := h
    exact ⟨hgap, fun _ => hapart rfl, hrest⟩

theorem Readable.append {left right : Layout} {behind : Bool} (hleft : left.Readable behind)
    (hright : right.Readable true) : Readable behind (left ++ right) := by
  induction left generalizing behind with
  | nil => exact hright.of_true behind
  | cons item rest ih =>
    obtain ⟨hgap, hapart, hlexeme, hrest⟩ := hleft
    exact ⟨hgap, hapart, hlexeme, ih hrest⟩

theorem Readable.flatMap {α : Type} {xs : List α} {f : α → Layout}
    (h : ∀ x ∈ xs, (f x).Readable true) : Readable true (xs.flatMap f) := by
  induction xs with
  | nil => trivial
  | cons x xs ih =>
    rw [List.flatMap_cons]
    exact (h x (by simp)).append (ih fun y hy => h y (by simp [hy]))

/-- A character of a gap cannot extend a word. -/
theorem head_gap {gap : Text} (h : gap.all Text.isSpace = true) :
    ∀ c ∈ gap.head?, Text.isIdentChar c = false := by
  intro c hc
  rw [List.all_eq_true] at h
  exact Text.isIdentChar_of_isSpace (h c (List.mem_of_mem_head? hc))

/-- What stands behind a word does not extend it. -/
theorem Readable.head {layout : Layout} (h : layout.Readable true) {tail : Text}
    (htail : tail.all Text.isSpace = true) :
    ∀ c ∈ (layout.text ++ tail).head?, Text.isIdentChar c = false := by
  cases layout with
  | nil => simpa using head_gap htail
  | cons item rest =>
    obtain ⟨gap, spelling⟩ := item
    obtain ⟨hgap, hapart, -, -⟩ := h
    rw [text_cons]
    cases gap with
    | cons c gap => simpa using head_gap hgap
    | nil =>
      -- the gap is empty, so the spelling behind the word is no word
      have hword : spelling.isWord = false :=
        Bool.eq_false_iff.mpr fun hword => hapart rfl hword rfl
      simpa using Spelling.head_of_not_isWord hword (text rest ++ tail)

end Layout

/-- Reading the text of a row gives the tokens of its spellings. -/
theorem Token.ofTextAt_layout {layout : Layout} {behind : Bool} (h : layout.Readable behind)
    {tail : Text} (htail : tail.all Text.isSpace = true) (start : Nat) :
    ofTextAt start (layout.text ++ tail) =
      layout.tokens start ++ [ending (start + (layout.text ++ tail).length)] := by
  induction layout generalizing start behind with
  | nil =>
    have hgap := ofTextAt_gap htail start []
    simpa [Layout.tokens] using hgap
  | cons item rest ih =>
    obtain ⟨gap, spelling⟩ := item
    obtain ⟨hgap, -, hlexeme, hrest⟩ := h
    have hbounded : spelling.Bounded (Layout.text rest ++ tail) := by
      intro hword
      rw [hword] at hrest
      exact hrest.head htail
    simp only [Layout.text_cons, List.append_assoc]
    rw [ofTextAt_gap hgap, ofTextAt_spelling hlexeme hbounded, ih hrest]
    simp only [Layout.tokens, List.cons_append, List.length_append, Nat.add_assoc]

/-! ### The values of tokens -/

/-- A name of the language: a word that is no keyword. -/
def IsName (name : String) : Prop :=
  Text.isWord name.toList = true ∧ Token.keyword? name = none

theorem IsName.ne_empty {name : String} (h : IsName name) : name ≠ "" := by
  rintro rfl
  exact absurd h.1 (by decide)

/-- A token has a value that its kind allows. -/
structure Token.WellSpelled (token : Token) : Prop where
  /-- The value of an identifier is a name. -/
  identifier : token.kind = .identifier → IsName token.value
  /-- The value of a character literal is one character. -/
  character : token.kind = .character → token.value.length = 1

theorem Token.WellSpelled.of_ne {token : Token} (hidentifier : token.kind ≠ .identifier)
    (hcharacter : token.kind ≠ .character) : token.WellSpelled :=
  ⟨fun hkind => absurd hkind hidentifier, fun hkind => absurd hkind hcharacter⟩

/-- Whether a lexeme can start with a character. -/
def Text.startsLexeme (c : Char) : Bool :=
  isIdentStart c || ['#', '\'', '"', '{', '}', '/', ',', '-'].contains c

/-- The scanner that reads the head of a text. -/
theorem Lexeme.scan_cases (c : Char) (rest : Text) :
    (c = '#' ∧ scan c rest = comment rest) ∨ (c = '\'' ∧ scan c rest = character rest) ∨
    (c = '"' ∧ scan c rest = string rest) ∨
    (Text.isIdentStart c = true ∧ scan c rest = word (c :: rest)) ∨
    (∃ kind, punctuation? c = some kind ∧ scan c rest = plain kind 1) ∨
    (c = '-' ∧ scan c rest = arrow rest) ∨
    (Text.startsLexeme c = false ∧ scan c rest = illegal) := by
  by_cases hcomment : c = '#'
  · exact .inl ⟨hcomment, by simp [scan, hcomment]⟩
  by_cases hcharacter : c = '\''
  · exact .inr (.inl ⟨hcharacter, by simp [scan, hcharacter]⟩)
  by_cases hstring : c = '"'
  · exact .inr (.inr (.inl ⟨hstring, by simp [scan, hstring]⟩))
  by_cases hword : Text.isIdentStart c = true
  · exact .inr (.inr (.inr (.inl ⟨hword, scan_word hword rest⟩)))
  cases hpunctuation : punctuation? c with
  | some kind =>
    refine .inr (.inr (.inr (.inr (.inl ⟨kind, rfl, ?_⟩))))
    simp [scan, hcomment, hcharacter, hstring, hword, hpunctuation]
  | none =>
    by_cases harrow : c = '-'
    · subst harrow
      exact .inr (.inr (.inr (.inr (.inr (.inl ⟨rfl, rfl⟩)))))
    · refine .inr (.inr (.inr (.inr (.inr (.inr ⟨?_, ?_⟩)))))
      · have hmark : c ≠ '{' ∧ c ≠ '}' ∧ c ≠ '/' ∧ c ≠ ',' := by
          refine ⟨?_, ?_, ?_, ?_⟩ <;> rintro rfl <;> cases hpunctuation
        simp [Text.startsLexeme, hword, hcomment, hcharacter, hstring, hmark, harrow]
      · simp [scan, hcomment, hcharacter, hstring, hword, hpunctuation, harrow]

theorem Token.kind_of_keyword? {word : String} {kind : Kind} (h : keyword? word = some kind) :
    kind ≠ .identifier ∧ kind ≠ .character := by
  obtain ⟨_, _, hkeywords, -⟩ := List.lookup_eq_some_iff.mp h
  have hmem : (word, kind) ∈ keywords := by rw [hkeywords]; simp
  simp only [keywords, List.mem_cons, Prod.mk.injEq, List.not_mem_nil, or_false] at hmem
  rcases hmem with ⟨-, rfl⟩ | ⟨-, rfl⟩ | ⟨-, rfl⟩ | ⟨-, rfl⟩ | ⟨-, rfl⟩ | ⟨-, rfl⟩ <;> simp

/-- What is read from the start of a word on is a word. -/
theorem Text.isWord_takeWhile {c : Char} (h : isIdentStart c = true) (rest : Text) :
    isWord ((c :: rest).takeWhile isIdentChar) = true := by
  rw [List.takeWhile_cons_of_pos (isIdentChar_of_isIdentStart h), isWord, h, Bool.true_and,
    List.all_eq_true]
  exact fun d hd => (List.all_eq_true.mp List.all_takeWhile) d hd

theorem Lexeme.word_wellSpelled {c : Char} (h : Text.isIdentStart c = true) (rest : Text)
    (start : Nat) : ((word (c :: rest)).toToken start).WellSpelled := by
  have hword := Text.isWord_takeWhile h rest
  simp only [word]
  split
  · next kind hkeyword =>
    obtain ⟨hidentifier, hcharacter⟩ := Token.kind_of_keyword? hkeyword
    exact .of_ne hidentifier hcharacter
  · next hkeyword =>
    refine ⟨fun _ => ⟨?_, hkeyword⟩, Token.Kind.noConfusion⟩
    show Text.isWord (String.ofList _).toList = true
    rwa [String.toList_ofList]

theorem Lexeme.character_wellSpelled (rest : Text) (start : Nat) :
    ((character rest).toToken start).WellSpelled := by
  unfold character
  split
  · exact .of_ne Token.Kind.noConfusion Token.Kind.noConfusion
  · next c _ =>
    refine ⟨Token.Kind.noConfusion, fun _ => ?_⟩
    exact congrArg List.length (String.toList_ofList (l := [c]))
  · exact .of_ne Token.Kind.noConfusion Token.Kind.noConfusion

/-- Only words are identifiers and only what stands between apostrophes is a character, so every
lexeme is well spelled. -/
theorem Lexeme.scan_wellSpelled (c : Char) (rest : Text) (start : Nat) :
    ((scan c rest).toToken start).WellSpelled := by
  obtain ⟨-, hscan⟩ | ⟨-, hscan⟩ | ⟨-, hscan⟩ | ⟨hstart, hscan⟩ | ⟨kind, hkind, hscan⟩ |
    ⟨-, hscan⟩ | ⟨-, hscan⟩ := scan_cases c rest <;> rw [hscan]
  · simp only [comment]
    split <;> exact .of_ne Token.Kind.noConfusion Token.Kind.noConfusion
  · exact character_wellSpelled rest start
  · simp only [string]
    split <;> exact .of_ne Token.Kind.noConfusion Token.Kind.noConfusion
  · exact word_wellSpelled hstart rest start
  · unfold punctuation? at hkind
    split at hkind <;> cases hkind <;> exact .of_ne Token.Kind.noConfusion Token.Kind.noConfusion
  · unfold arrow
    split <;> exact .of_ne Token.Kind.noConfusion Token.Kind.noConfusion
  · exact .of_ne Token.Kind.noConfusion Token.Kind.noConfusion

/-- The tokens of a text are well spelled. -/
theorem Token.ofTextAt_wellSpelled (start : Nat) (text : Text) :
    ∀ token ∈ ofTextAt start text, token.WellSpelled := by
  fun_induction ofTextAt start text with
  | case1 start =>
    intro token hmem
    rw [List.mem_singleton.mp hmem]
    exact .of_ne Token.Kind.noConfusion Token.Kind.noConfusion
  | case2 start c rest _ ih => exact ih
  | case3 start c rest _ lexeme ih =>
    intro token h
    rcases h with _ | ⟨_, htoken⟩
    · exact Lexeme.scan_wellSpelled c rest start
    · exact ih token htoken

/-- The identifiers of a text have names. -/
theorem Token.ofTextAt_named (start : Nat) (text : Text) :
    ∀ token ∈ ofTextAt start text, token.kind = .identifier → token.value ≠ "" :=
  fun token hmem hkind => ((ofTextAt_wellSpelled start text token hmem).identifier hkind).ne_empty

end TapeMachine
