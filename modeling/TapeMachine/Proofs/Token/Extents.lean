import TapeMachine.Proofs.Token.Spelling

/-!
# TapeMachine.Proofs.Token.Extents

Where a token stands in the text it was read from.

The span of a token is made for messages: that of a literal is its body, that of most errors lies
behind what could not be read. The *extent* of a token is the stretch of text it was read from. It
can be told from kind, span and fault alone.

* `Token.extent` — the extent of a token.
* `Token.Faithful`, `LexFault.Stands` — what must stand there, for a token and for an error.
* `Lexeme.heads_scan` — what is scanned at the head of a text does stand there.
* `Token.readAt_scan` — so a token is read from its extent, and starts where scanning did.
-/

namespace TapeMachine

/-! ### Stretches of a text -/

namespace Span

/-- The offset just behind a span. -/
def stop (span : Span) : Int :=
  span.position + span.length

/-- The stretch of a text that a span selects. -/
def cut (span : Span) (text : Text) : Text :=
  (text.drop span.position.toNat).take span.length.toNat

/-- A span with one more character on either side. -/
def widened (span : Span) : Span :=
  { position := span.position - 1, length := span.length + 2 }

/-- As many characters as given, up to where a span starts. -/
def upTo (span : Span) (count : Int) : Span :=
  { position := span.position - count, length := count }

/-- Whether the character at an offset belongs to a span. -/
def Covers (span : Span) (offset : Nat) : Prop :=
  span.position ≤ offset ∧ offset < span.stop

theorem cut_middle (before part more : Text) {start length : Nat} (hstart : before.length = start)
    (hlength : part.length = length) :
    cut { position := start, length := length } (before ++ (part ++ more)) = part := by
  subst hstart hlength
  simp [cut]

end Span

namespace Token

/-- The stretch of text that a token was read from. -/
def extent (token : Token) : Span :=
  match token.kind, token.fault with
  | .comment, _ | .character, _ | .string, _ => token.span.widened
  | .error, some .missingCharacter | .error, some .loneHyphen => token.span.upTo 1
  | .error, some .unclosedCharacter => token.span.upTo 2
  | .error, some .unclosedComment => token.span.upTo (token.span.length + 1)
  | .error, some .unclosedString => token.span.upTo token.span.length
  | _, _ => token.span

/-- Whether tokens of a kind are words. -/
def Kind.isWord : Kind → Bool
  | .identifier | .initial | .state | .left | .right | .self | .define => true
  | _ => false

/-- The text that all tokens of a kind have, where they all have the same. -/
def Kind.spelling? : Kind → Option String
  | .initial => some "initial"
  | .state => some "state"
  | .left => some "L"
  | .right => some "R"
  | .self => some "self"
  | .define => some "define"
  | .leftBrace => some "\x7b"
  | .rightBrace => some "\x7d"
  | .slash => some "/"
  | .comma => some ","
  | .arrow => some "->"
  | _ => none

/-- A token that is no error says what stands in the text. -/
structure Faithful (source : Text) (token : Token) : Prop where
  /-- The value of an identifier or a literal is the text of its span. -/
  value : token.kind = .identifier ∨ token.kind = .character ∨ token.kind = .string →
    token.span.cut source = token.value.toList
  /-- The span of a keyword or a punctuation mark holds its spelling. -/
  spelling : ∀ word, token.kind.spelling? = some word → token.span.cut source = word.toList
  /-- The extent of an identifier or a keyword is a word. -/
  word : token.kind.isWord = true → Text.isWord (token.extent.cut source) = true
  /-- It goes on as far as it can. -/
  maximal : token.kind.isWord = true →
    ∀ c ∈ source[token.extent.stop.toNat]?, Text.isIdentChar c = false
  /-- A comment starts and ends with a number sign and has no other. -/
  comment : token.kind = .comment →
    ∃ body, token.extent.cut source = '#' :: (body ++ ['#']) ∧ '#' ∉ body
  /-- A string literal starts and ends with a quotation mark and has no other. -/
  string : token.kind = .string →
    ∃ body, token.extent.cut source = '"' :: (body ++ ['"']) ∧ '"' ∉ body
  /-- A character literal is one character between apostrophes. -/
  character : token.kind = .character → ∃ c, token.extent.cut source = ['\'', c, '\'']

end Token

/-- What is wrong where `part` stands in front of `rest` and a fault is reported for it. -/
def LexFault.Stands : LexFault → Text → Text → Prop
  | .illegalCharacter, part, _ =>
    ∃ c, part = [c] ∧ Text.isSpace c = false ∧ Text.startsLexeme c = false
  | .unclosedComment, part, rest => ∃ body, part = '#' :: body ∧ '#' ∉ body ∧ rest = []
  | .unclosedString, part, rest => ∃ body, part = '"' :: body ∧ '"' ∉ body ∧ rest = []
  | .missingCharacter, part, rest => part = ['\''] ∧ rest = []
  | .unclosedCharacter, part, rest => ∃ c, part = ['\'', c] ∧ rest.head? ≠ some '\''
  | .loneHyphen, part, rest => part = ['-'] ∧ rest.head? ≠ some '>'

/-! ### What is read at one place -/

namespace LexFault

/-- The lexeme of a stretch of text with a fault. -/
def lexeme (fault : LexFault) (part : Text) : Lexeme :=
  match fault with
  | .illegalCharacter => Lexeme.illegal
  | .unclosedComment => Lexeme.broken fault (part.length - 1) part.length
  | .unclosedString => Lexeme.broken fault part.length part.length
  | _ => Lexeme.broken fault 0 part.length

end LexFault

/-- A lexeme that stands at the head of a text: one that is written there and that nothing extends,
or a stretch with a fault. -/
inductive Lexeme.Heads (lexeme : Lexeme) (text : Text) : Prop where
  | spelled (spelling : Spelling) (more : Text) : text = spelling.text ++ more →
      spelling.isLexeme = true → spelling.Bounded more → lexeme = spelling.lexeme →
        Heads lexeme text
  | faulty (fault : LexFault) (part more : Text) : text = part ++ more →
      fault.Stands part more → lexeme = fault.lexeme part → Heads lexeme text

theorem Spelling.Bounded.of_not_isWord {spelling : Spelling} {rest : Text}
    (h : spelling.isWord = false) : spelling.Bounded rest := by
  intro hword
  rw [h] at hword
  cases hword

namespace Lexeme

/-- A text has a delimiter, or none at all. -/
theorem body_cases (delimiter : Char) (rest : Text) :
    delimiter ∉ rest ∨
      ∃ body more, rest = body ++ delimiter :: more ∧ body.contains delimiter = false := by
  by_cases h : delimiter ∈ rest
  · obtain ⟨body, more, rfl, hbody⟩ := List.eq_append_cons_of_mem h
    exact .inr ⟨body, more, rfl, by simpa using hbody⟩
  · exact .inl h

theorem takeWhile_open {delimiter : Char} {rest : Text} (h : delimiter ∉ rest) :
    rest.takeWhile (· != delimiter) = rest := by
  have hall : ∀ c ∈ rest, (c != delimiter) = true := by
    intro c hc
    rw [bne_iff_ne]
    rintro rfl
    exact h hc
  simpa using @Text.takeWhile_stretch (· != delimiter) rest [] hall (by simp)

theorem heads_comment (rest : Text) : (comment rest).Heads ('#' :: rest) := by
  rcases body_cases '#' rest with hopen | ⟨body, more, rfl, hbody⟩
  · refine .faulty .unclosedComment ('#' :: rest) [] (by simp) ⟨rest, rfl, hopen, rfl⟩ ?_
    simp [comment, takeWhile_open hopen, LexFault.lexeme]
  · refine .spelled (.comment body) more (by simp [Spelling.text]) ?_ (.of_not_isWord rfl) ?_
    · simpa [Spelling.isLexeme] using hbody
    · rw [comment_body hbody]
      simp [Spelling.lexeme, enclosed, Spelling.kind, Spelling.value, Spelling.border,
        Spelling.text]

theorem heads_string (rest : Text) : (string rest).Heads ('"' :: rest) := by
  rcases body_cases '"' rest with hopen | ⟨body, more, rfl, hbody⟩
  · refine .faulty .unclosedString ('"' :: rest) [] (by simp) ⟨rest, rfl, hopen, rfl⟩ ?_
    simp [string, takeWhile_open hopen, LexFault.lexeme]
  · refine .spelled (.string body) more (by simp [Spelling.text]) ?_ (.of_not_isWord rfl) ?_
    · simpa [Spelling.isLexeme] using hbody
    · rw [string_body hbody]
      simp [Spelling.lexeme, enclosed, Spelling.kind, Spelling.value, Spelling.border,
        Spelling.text]

theorem heads_character (rest : Text) : (character rest).Heads ('\'' :: rest) := by
  unfold character
  split
  · exact .faulty .missingCharacter ['\''] [] rfl ⟨rfl, rfl⟩ rfl
  · next c more => exact .spelled (.character c) more rfl rfl (.of_not_isWord rfl) rfl
  · next c more hopen =>
    refine .faulty .unclosedCharacter ['\'', c] more rfl ⟨c, rfl, ?_⟩ rfl
    intro hhead
    obtain ⟨later, rfl⟩ := List.head?_eq_some_iff.mp hhead
    exact hopen later rfl

theorem heads_word {c : Char} (h : Text.isIdentStart c = true) (rest : Text) :
    (word (c :: rest)).Heads (c :: rest) := by
  have hword := Text.isWord_takeWhile h rest
  have hsplit : (c :: rest).takeWhile Text.isIdentChar ++ (c :: rest).dropWhile Text.isIdentChar =
      c :: rest := List.takeWhile_append_dropWhile
  have hbounded : (Spelling.word ((c :: rest).takeWhile Text.isIdentChar)).Bounded
      ((c :: rest).dropWhile Text.isIdentChar) := by
    intro _ d hd
    simpa [Option.mem_def.mp hd] using List.head?_dropWhile_not Text.isIdentChar (c :: rest)
  have hlexeme := Spelling.word_lexeme hword hbounded
  rw [hsplit] at hlexeme
  exact .spelled (.word ((c :: rest).takeWhile Text.isIdentChar))
    ((c :: rest).dropWhile Text.isIdentChar) hsplit.symm hword hbounded hlexeme

theorem heads_punctuation {c : Char} {kind : Token.Kind} (h : punctuation? c = some kind)
    (rest : Text) : (plain kind 1).Heads (c :: rest) := by
  unfold punctuation? at h
  split at h <;> cases h
  · exact .spelled .leftBrace rest rfl rfl (.of_not_isWord rfl) rfl
  · exact .spelled .rightBrace rest rfl rfl (.of_not_isWord rfl) rfl
  · exact .spelled .slash rest rfl rfl (.of_not_isWord rfl) rfl
  · exact .spelled .comma rest rfl rfl (.of_not_isWord rfl) rfl

theorem heads_arrow (rest : Text) : (arrow rest).Heads ('-' :: rest) := by
  unfold arrow
  split
  · next more => exact .spelled .arrow more rfl rfl (.of_not_isWord rfl) rfl
  · next hlone =>
    refine .faulty .loneHyphen ['-'] rest rfl ⟨rfl, ?_⟩ rfl
    intro hhead
    obtain ⟨later, rfl⟩ := List.head?_eq_some_iff.mp hhead
    exact hlone later rfl

/-- Scanning reads what stands at the head of the text. -/
theorem heads_scan {c : Char} (h : Text.isSpace c = false) (rest : Text) :
    (scan c rest).Heads (c :: rest) := by
  obtain ⟨rfl, hscan⟩ | ⟨rfl, hscan⟩ | ⟨rfl, hscan⟩ | ⟨hstart, hscan⟩ | ⟨kind, hkind, hscan⟩ |
    ⟨rfl, hscan⟩ | ⟨hnothing, hscan⟩ := scan_cases c rest <;> rw [hscan]
  · exact heads_comment rest
  · exact heads_character rest
  · exact heads_string rest
  · exact heads_word hstart rest
  · exact heads_punctuation hkind rest
  · exact heads_arrow rest
  · exact .faulty .illegalCharacter [c] rest rfl ⟨c, rfl, h, hnothing⟩ rfl

end Lexeme

/-! ### Where one token stands -/

namespace Token

/-- A keyword is a word, and its kind tells which. -/
theorem kind_of_mem_keywords {word : String} {kind : Kind} (h : keyword? word = some kind) :
    kind.isWord = true ∧ kind.spelling? = some word := by
  obtain ⟨_, _, hkeywords, -⟩ := List.lookup_eq_some_iff.mp h
  have hmem : (word, kind) ∈ keywords := by rw [hkeywords]; simp
  simp only [keywords, List.mem_cons, Prod.mk.injEq, List.not_mem_nil, or_false] at hmem
  rcases hmem with ⟨rfl, rfl⟩ | ⟨rfl, rfl⟩ | ⟨rfl, rfl⟩ | ⟨rfl, rfl⟩ | ⟨rfl, rfl⟩ | ⟨rfl, rfl⟩ <;>
    exact ⟨rfl, rfl⟩

theorem extent_of_isWord {token : Token} (h : token.kind.isWord = true) :
    token.extent = token.span := by
  unfold extent
  cases hkind : token.kind <;> first | rfl | (rw [hkind] at h; cases h)

end Token

namespace Spelling

/-- The text of a spelling without its delimiters. -/
def body : Spelling → Text
  | .comment body => body
  | .character c => [c]
  | .string body => body
  | spelling => spelling.text

theorem isWord_kind_word (name : Text) : (word name).kind.isWord = true := by
  cases hkeyword : Token.keyword? (String.ofList name) with
  | none => simp [kind, hkeyword, Token.Kind.isWord]
  | some kind => simpa [Spelling.kind, hkeyword] using (Token.kind_of_mem_keywords hkeyword).1

theorem kind_word_ne (name : Text) {other : Token.Kind} (h : other.isWord = false) :
    (word name).kind ≠ other := by
  rintro rfl
  rw [isWord_kind_word] at h
  cases h

theorem isWord_of_kind {spelling : Spelling} (h : spelling.kind.isWord = true) :
    spelling.isWord = true := by
  cases spelling <;> first | rfl | cases h

theorem extent_token (spelling : Spelling) (start : Nat) :
    (spelling.token start).extent = { position := start, length := spelling.text.length } := by
  cases spelling with
  | word name =>
    have hword : ((word name).token start).kind.isWord = true := isWord_kind_word name
    rw [Token.extent_of_isWord hword]
    rfl
  | comment body => simp [Token.extent, token, kind, Span.widened, border, text]; omega
  | string body => simp [Token.extent, token, kind, Span.widened, border, text]; omega
  | character c => simp [Token.extent, token, kind, Span.widened, border, text]
  | _ => rfl

/-- The span of a token selects the body of its spelling. -/
theorem cut_span_token (spelling : Spelling) (before more : Text) :
    (spelling.token before.length).span.cut (before ++ (spelling.text ++ more)) =
      spelling.body := by
  cases spelling <;> simp [token, Span.cut, border, text, body]

theorem toList_value {spelling : Spelling}
    (h : spelling.kind = .identifier ∨ spelling.kind = .character ∨ spelling.kind = .string) :
    spelling.body = spelling.value.toList := by
  cases spelling with
  | word name =>
    cases hkeyword : Token.keyword? (String.ofList name) with
    | none => simp [body, text, value, hkeyword]
    | some kind =>
      -- a keyword is neither an identifier nor a literal
      have hword := (Token.kind_of_mem_keywords hkeyword).1
      have hidentifier := (Token.kind_of_keyword? hkeyword).1
      simp only [Spelling.kind, hkeyword, Option.getD_some] at h
      rcases h with rfl | rfl | rfl
      · exact absurd rfl hidentifier
      · cases hword
      · cases hword
  | character c => exact (String.toList_ofList (l := [c])).symm
  | string body => exact (String.toList_ofList).symm
  | _ => simp [kind] at h

theorem body_of_spelling? {spelling : Spelling} {word : String}
    (h : spelling.kind.spelling? = some word) : spelling.body = word.toList := by
  cases spelling with
  | word name =>
    cases hkeyword : Token.keyword? (String.ofList name) with
    | none => simp [kind, hkeyword, Token.Kind.spelling?] at h
    | some kind =>
      simp only [Spelling.kind, hkeyword, Option.getD_some] at h
      rw [(Token.kind_of_mem_keywords hkeyword).2] at h
      obtain rfl := Option.some.inj h
      simp [body, text]
  | comment _ => cases h
  | character _ => cases h
  | string _ => cases h
  | _ =>
    obtain rfl := Option.some.inj h
    rfl

theorem kind_ne_error (spelling : Spelling) : spelling.kind ≠ .error := by
  cases spelling with
  | word name => exact kind_word_ne name rfl
  | _ =>
    intro hkind
    cases hkind

/-- A spelling is told faithfully by its token. -/
theorem faithful_token {spelling : Spelling} {more : Text} (h : spelling.isLexeme = true)
    (hmore : spelling.Bounded more) (before : Text) :
    (spelling.token before.length).Faithful (before ++ (spelling.text ++ more)) := by
  have hextent : (spelling.token before.length).extent.cut (before ++ (spelling.text ++ more)) =
      spelling.text := by
    rw [extent_token, Span.cut_middle before spelling.text more rfl rfl]
  refine ⟨fun hkind => ?_, fun word hword => ?_, fun hkind => ?_, fun hkind c hc => ?_,
    fun hkind => ?_, fun hkind => ?_, fun hkind => ?_⟩
  · rw [cut_span_token]
    exact toList_value hkind
  · rw [cut_span_token]
    exact body_of_spelling? hword
  · rw [hextent]
    cases spelling with
    | word name => exact h
    | _ => cases hkind
  · -- what stands behind the extent is the head of the rest
    have hstop : (spelling.token before.length).extent.stop.toNat =
        before.length + spelling.text.length := by
      rw [extent_token]
      show ((before.length : Int) + (spelling.text.length : Int)).toNat = _
      omega
    rw [hstop, ← List.append_assoc, ← List.length_append, List.getElem?_append_right (by simp),
      Nat.sub_self, ← List.head?_eq_getElem?] at hc
    exact hmore (isWord_of_kind hkind) c hc
  · rw [hextent]
    cases spelling with
    | comment body => exact ⟨body, rfl, by simpa [isLexeme] using h⟩
    | word name => exact absurd hkind (kind_word_ne name rfl)
    | _ => cases hkind
  · rw [hextent]
    cases spelling with
    | string body => exact ⟨body, rfl, by simpa [isLexeme] using h⟩
    | word name => exact absurd hkind (kind_word_ne name rfl)
    | _ => cases hkind
  · rw [hextent]
    cases spelling with
    | character c => exact ⟨c, rfl⟩
    | word name => exact absurd hkind (kind_word_ne name rfl)
    | _ => cases hkind

end Spelling

namespace Token

/-- A token that was read from the characters between two offsets of a text. -/
structure ReadAt (source : Text) (start stop : Nat) (token : Token) : Prop where
  lt : start < stop
  le : stop ≤ source.length
  extent : token.extent = { position := start, length := (stop - start : Nat) }
  le_position : start ≤ token.span.position
  position_le : token.span.position ≤ stop
  going : token.kind ≠ .endOfText
  faithful : token.kind ≠ .error → token.Faithful source
  closed : token.kind ≠ .error → token.kind.isWord = false →
    ∀ c ∈ source[stop - 1]?, Text.isIdentChar c = false
  faulty : token.kind = .error → ∃ fault, token.fault = some fault ∧
    fault.Stands (token.extent.cut source) (source.drop stop)

end Token

theorem Spelling.text_ne_nil {spelling : Spelling} (h : spelling.isLexeme = true) :
    spelling.text ≠ [] := by
  cases spelling with
  | word name =>
    rintro rfl
    cases h
  | _ => exact List.cons_ne_nil _ _

/-- Only words end with a character that can go on a word. -/
theorem Spelling.isIdentChar_getLast {spelling : Spelling} (h : spelling.isWord = false) :
    ∀ c ∈ spelling.text.getLast?, Text.isIdentChar c = false := by
  cases spelling with
  | word name => cases h
  | _ =>
    intro c hc
    obtain rfl : _ = c := by simpa [text, List.getLast?_cons] using hc
    decide

theorem Spelling.readAt_token {spelling : Spelling} {more : Text} (h : spelling.isLexeme = true)
    (hmore : spelling.Bounded more) (before : Text) :
    (spelling.token before.length).ReadAt (before ++ (spelling.text ++ more)) before.length
      (before.length + spelling.text.length) := by
  have hpos : 0 < spelling.text.length := List.length_pos_iff.mpr (text_ne_nil h)
  have hborder : spelling.border ≤ spelling.text.length := by
    cases spelling <;> simp [border, text]
  refine ⟨by omega, by simp only [List.length_append]; omega, ?_, ?_, ?_, ?_,
    fun _ => faithful_token h hmore before, fun _ hkind c hc => ?_, ?_⟩
  · rw [extent_token, Nat.add_sub_cancel_left]
  · simp only [token]
    omega
  · simp only [token]
    omega
  · cases spelling with
    | word name => exact fun hkind => absurd hkind (kind_word_ne name rfl)
    | _ =>
      intro hkind
      cases hkind
  · have hlast : c ∈ spelling.text.getLast? := by
      rw [List.getLast?_eq_getElem?]
      rwa [List.getElem?_append_right (by omega), List.getElem?_append_left (by omega),
        show before.length + spelling.text.length - 1 - before.length =
          spelling.text.length - 1 by omega] at hc
    refine isIdentChar_getLast ?_ c hlast
    cases spelling with
    | word name => exact absurd rfl (kind_word_ne name hkind)
    | _ => rfl
  · exact fun hkind => absurd hkind spelling.kind_ne_error

namespace LexFault

variable {fault : LexFault} {part more : Text}

theorem Stands.length_pos (h : fault.Stands part more) : 0 < part.length := by
  cases fault with
  | illegalCharacter => obtain ⟨c, rfl, -⟩ := h; exact Nat.one_pos
  | unclosedComment => obtain ⟨body, rfl, -⟩ := h; exact Nat.succ_pos _
  | unclosedCharacter => obtain ⟨c, rfl, -⟩ := h; exact Nat.succ_pos _
  | missingCharacter => obtain ⟨rfl, -⟩ := h; exact Nat.one_pos
  | loneHyphen => obtain ⟨rfl, -⟩ := h; exact Nat.one_pos
  | unclosedString => obtain ⟨body, rfl, -⟩ := h; exact Nat.succ_pos _

theorem Stands.width_lexeme (h : fault.Stands part more) :
    (fault.lexeme part).width = part.length := by
  cases fault with
  | illegalCharacter => obtain ⟨c, rfl, -⟩ := h; rfl
  | _ => rfl

/-- Each fault is reported in its own way, and still its extent can be told from that. -/
theorem Stands.extent_token (h : fault.Stands part more) (start : Nat) :
    ((fault.lexeme part).toToken start).extent = { position := start, length := part.length } := by
  cases fault with
  | illegalCharacter =>
    obtain ⟨c, rfl, -⟩ := h
    rfl
  | unclosedComment =>
    obtain ⟨body, rfl, -⟩ := h
    simp [Token.extent, lexeme, Lexeme.broken, Lexeme.toToken, Span.upTo]
  | unclosedCharacter =>
    obtain ⟨c, rfl, -⟩ := h
    simp [Token.extent, lexeme, Lexeme.broken, Lexeme.toToken, Span.upTo]
  | missingCharacter =>
    obtain ⟨rfl, -⟩ := h
    simp [Token.extent, lexeme, Lexeme.broken, Lexeme.toToken, Span.upTo]
  | loneHyphen =>
    obtain ⟨rfl, -⟩ := h
    simp [Token.extent, lexeme, Lexeme.broken, Lexeme.toToken, Span.upTo]
  | unclosedString => simp [Token.extent, lexeme, Lexeme.broken, Lexeme.toToken, Span.upTo]

theorem Stands.readAt_token (h : fault.Stands part more) (before : Text) :
    ((fault.lexeme part).toToken before.length).ReadAt (before ++ (part ++ more)) before.length
      (before.length + part.length) := by
  have hpos := h.length_pos
  have hkind : (fault.lexeme part).kind = .error := by cases fault <;> rfl
  have hfault : (fault.lexeme part).fault = some fault := by cases fault <;> rfl
  have hoffset : (fault.lexeme part).offset ≤ part.length := by
    cases fault <;> simp [lexeme, Lexeme.illegal, Lexeme.broken]
  have hextent := h.extent_token before.length
  refine ⟨by omega, by simp only [List.length_append]; omega, ?_, ?_, ?_, ?_,
    fun hne => absurd hkind hne, fun hne => absurd hkind hne, fun _ => ⟨fault, hfault, ?_⟩⟩
  · rw [hextent, Nat.add_sub_cancel_left]
  · simp only [Lexeme.toToken]
    omega
  · simp only [Lexeme.toToken]
    omega
  · simp [Lexeme.toToken, hkind]
  · rw [hextent, Span.cut_middle before part more rfl rfl, ← List.append_assoc,
      ← List.length_append, List.drop_left]
    exact h

end LexFault

namespace Token

/-- What is scanned at an offset is read from there. -/
theorem readAt_scan {source : Text} {start : Nat} {c : Char} {rest : Text}
    (h : source.drop start = c :: rest) (hspace : Text.isSpace c = false) :
    ((Lexeme.scan c rest).toToken start).ReadAt source start
      (start + (Lexeme.scan c rest).width) := by
  have hstart : (source.take start).length = start := by
    have hlength := congrArg List.length h
    rw [List.length_drop, List.length_cons] at hlength
    rw [List.length_take]
    omega
  have hsource : source = source.take start ++ (c :: rest) := by
    rw [← h, List.take_append_drop]
  cases Lexeme.heads_scan hspace rest with
  | spelled spelling more htext hlexeme hmore hscan =>
    have hread := Spelling.readAt_token hlexeme hmore (source.take start)
    rw [← htext, ← hsource, hstart] at hread
    rw [hscan]
    exact hread
  | faulty fault part more htext hstands hscan =>
    have hread := hstands.readAt_token (source.take start)
    rw [← htext, ← hsource, hstart] at hread
    rw [hscan, hstands.width_lexeme]
    exact hread

namespace ReadAt

variable {source : Text} {start stop : Nat} {token : Token}

theorem stop_extent (h : token.ReadAt source start stop) : token.extent.stop = stop := by
  have hlt := h.lt
  rw [h.extent]
  show (start : Int) + ((stop - start : Nat) : Int) = stop
  omega

/-- A word starts with a character that could go on another one. -/
theorem exists_head (h : token.ReadAt source start stop) (hword : token.kind.isWord = true) :
    ∃ c, source[start]? = some c ∧ Text.isIdentChar c = true := by
  have hne : token.kind ≠ .error := by
    intro hkind
    rw [hkind] at hword
    cases hword
  have hcut := (h.faithful hne).word hword
  rw [h.extent] at hcut
  change Text.isWord ((source.drop start).take (stop - start)) = true at hcut
  cases hdrop : source.drop start with
  | nil =>
    rw [hdrop, List.take_nil] at hcut
    cases hcut
  | cons c rest =>
    refine ⟨c, by rw [← List.head?_drop, hdrop]; rfl, ?_⟩
    refine Text.isIdentChar_of_isWord hcut c ?_
    obtain ⟨count, hcount⟩ : ∃ count, stop - start = count + 1 :=
      Nat.exists_eq_add_one_of_ne_zero (Nat.sub_ne_zero_of_lt h.lt)
    rw [hdrop, hcount]
    exact .head _

end ReadAt

end Token

end TapeMachine
