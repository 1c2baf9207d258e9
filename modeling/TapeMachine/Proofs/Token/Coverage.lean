import Mathlib.Data.List.Chain
import TapeMachine.Proofs.Token.Extents

/-!
# TapeMachine.Proofs.Token.Coverage

A text and its tokens, in both directions.

* `Token.Tiles` — a text as a row of spaces and extents. Reading gives such a row
  (`Token.tiles_ofTextAt`), and everything about the order of tokens follows by induction over it.
* `Token.ofText_accounts` — nothing of a text is lost: whatever it is, the extents of its tokens lie
  in it one behind the other, and only spaces lie between them.
* `Token.ofText_spelled` — nothing is invented: lexemes that are written one behind the other are
  read back, each where it was written.
-/

namespace TapeMachine

namespace Token

/-! ### Rows of tokens -/

/-- From an offset on, a text is a row of spaces and of the stretches that some tokens were read
from. -/
inductive Tiles (source : Text) : Nat → List Token → Prop where
  | done : Tiles source source.length []
  | space {start : Nat} {c : Char} {tokens : List Token} : source[start]? = some c →
      Text.isSpace c = true → Tiles source (start + 1) tokens → Tiles source start tokens
  | token {start stop : Nat} {token : Token} {tokens : List Token} :
      token.ReadAt source start stop → Tiles source stop tokens →
        Tiles source start (token :: tokens)

/-- Reading a text gives such a row, and then the token that ends it. -/
theorem tiles_ofTextAt {source : Text} (start : Nat) (text : Text) (h : source.drop start = text)
    (hstart : start ≤ source.length) :
    ∃ tokens, ofTextAt start text = tokens ++ [ending source.length] ∧
      Tiles source start tokens := by
  fun_induction ofTextAt start text with
  | case1 start =>
    obtain rfl : start = source.length := by
      rw [List.drop_eq_nil_iff] at h
      omega
    exact ⟨[], rfl, .done⟩
  | case2 start c rest hspace ih =>
    have hrest : source.drop (start + 1) = rest := by
      rw [← List.drop_drop, h]
      rfl
    have hhead : source[start]? = some c := by
      rw [← List.head?_drop, h]
      rfl
    have hlt := (List.getElem?_eq_some_iff.mp hhead).1
    obtain ⟨tokens, htokens, htiles⟩ := ih hrest (by omega)
    exact ⟨tokens, htokens, .space hhead hspace htiles⟩
  | case3 start c rest hspace lexeme ih =>
    have hread := readAt_scan h (by simpa using hspace)
    have hrest : source.drop (start + lexeme.width) = (c :: rest).drop lexeme.width := by
      rw [← List.drop_drop, h]
    obtain ⟨tokens, htokens, htiles⟩ := ih hrest hread.le
    exact ⟨_ :: tokens, by rw [htokens]; rfl, .token hread htiles⟩

namespace Tiles

variable {source : Text} {start : Nat} {tokens : List Token}

theorem readAt (h : Tiles source start tokens) :
    ∀ token ∈ tokens, ∃ first stop, start ≤ first ∧ token.ReadAt source first stop := by
  induction h with
  | done => simp
  | space _ _ _ ih =>
    intro token htoken
    obtain ⟨first, stop, hle, hread⟩ := ih token htoken
    exact ⟨first, stop, by omega, hread⟩
  | @token start stop head tokens hread _ ih =>
    intro token htoken
    rcases List.mem_cons.mp htoken with rfl | htoken
    · exact ⟨start, stop, Nat.le_refl _, hread⟩
    · obtain ⟨first, last, hle, hlater⟩ := ih token htoken
      exact ⟨first, last, Nat.le_trans (Nat.le_of_lt hread.lt) hle, hlater⟩

theorem ordered (h : Tiles source start tokens) :
    tokens.Pairwise fun left right => left.extent.stop ≤ right.extent.position := by
  induction h with
  | done => exact .nil
  | space _ _ _ ih => exact ih
  | @token start stop head tokens hread hrest ih =>
    refine .cons ?_ ih
    intro token htoken
    obtain ⟨first, last, hle, hlater⟩ := hrest.readAt token htoken
    rw [hread.stop_extent, hlater.extent]
    exact Int.ofNat_le.mpr hle

theorem positions (h : Tiles source start tokens) :
    (tokens ++ [ending source.length]).Pairwise fun left right =>
      left.span.position ≤ right.span.position := by
  induction h with
  | done => simp
  | space _ _ _ ih => exact ih
  | @token start stop head tokens hread hrest ih =>
    rw [List.cons_append]
    refine .cons ?_ ih
    intro token htoken
    have hle := hread.position_le
    rcases List.mem_append.mp htoken with htoken | htoken
    · obtain ⟨first, last, hfirst, hlater⟩ := hrest.readAt token htoken
      have := hlater.le_position
      omega
    · obtain rfl := List.mem_singleton.mp htoken
      have := hread.le
      show head.span.position ≤ (source.length : Int)
      omega

/-- Every character from the offset on is a space or belongs to a token. -/
theorem covers (h : Tiles source start tokens) {offset : Nat} (hstart : start ≤ offset) {c : Char}
    (hc : source[offset]? = some c) :
    Text.isSpace c = true ∨ ∃ token ∈ tokens, token.extent.Covers offset := by
  induction h with
  | done =>
    have := (List.getElem?_eq_some_iff.mp hc).1
    omega
  | @space start d tokens hhead hspace _ ih =>
    by_cases heq : offset = start
    · subst heq
      rw [hhead] at hc
      rw [← Option.some.inj hc]
      exact .inl hspace
    · exact ih (by omega)
  | @token start stop head tokens hread hrest ih =>
    by_cases hlt : offset < stop
    · refine .inr ⟨head, .head _, ?_⟩
      rw [hread.extent]
      show (start : Int) ≤ offset ∧ (offset : Int) < start + ((stop - start : Nat) : Int)
      omega
    · rcases ih (by omega) with hspace | ⟨token, htoken, hcovers⟩
      · exact .inl hspace
      · exact .inr ⟨token, .tail _ htoken, hcovers⟩

/-- The extents of two tokens do not overlap. -/
theorem apart (h : Tiles source start tokens) {left right : Token} (hleft : left ∈ tokens)
    (hright : right ∈ tokens) : left = right ∨ left.extent.stop ≤ right.extent.position ∨
      right.extent.stop ≤ left.extent.position := by
  have hordered := h.ordered
  clear h
  induction hordered with
  | nil => cases hleft
  | cons hfirst _ ih =>
    rcases List.mem_cons.mp hleft with rfl | hleft'
    · rcases List.mem_cons.mp hright with rfl | hright'
      · exact .inl rfl
      · exact .inr (.inl (hfirst right hright'))
    · rcases List.mem_cons.mp hright with rfl | hright'
      · exact .inr (.inr (hfirst left hleft'))
      · exact ih hleft' hright'

/-- A word that could be extended to the left touches an error. -/
theorem unmerged (h : Tiles source 0 tokens) {token : Token} (htoken : token ∈ tokens)
    (hword : token.kind.isWord = true) {offset : Nat} {c : Char}
    (hoffset : (offset : Int) + 1 = token.extent.position) (hc : source[offset]? = some c)
    (hident : Text.isIdentChar c = true) :
    ∃ other ∈ tokens, other.kind = .error ∧ other.extent.stop = token.extent.position := by
  obtain ⟨first, stop, -, hread⟩ := h.readAt token htoken
  have hfirst : offset + 1 = first := by
    rw [hread.extent] at hoffset
    exact Int.ofNat_inj.mp hoffset
  -- the character is no space, so it belongs to a token, and that ends where the word starts
  obtain ⟨other, hother, hcovers⟩ := (h.covers (Nat.zero_le _) hc).resolve_left fun hspace => by
    rw [Text.isIdentChar_of_isSpace hspace] at hident
    cases hident
  obtain ⟨start, last, -, hreadOther⟩ := h.readAt other hother
  have hlast : last = first := by
    have hapart := h.apart hother htoken
    simp only [Span.Covers, Span.stop, hread.extent, hreadOther.extent] at hapart hcovers
    have hlt := hread.lt
    rcases hapart with rfl | hbefore | hbehind
    · have hsame := hread.extent.symm.trans hreadOther.extent
      simp only [Span.mk.injEq] at hsame
      omega
    · omega
    · omega
  subst hlast
  refine ⟨other, hother, ?_, by rw [hreadOther.stop_extent, hread.extent]⟩
  by_cases herror : other.kind = .error
  · exact herror
  exfalso
  by_cases hotherWord : other.kind.isWord = true
  · -- two words that touch would have been read as one
    obtain ⟨d, hd, hidentHead⟩ := hread.exists_head hword
    have hmaximal := (hreadOther.faithful herror).maximal hotherWord d
    rw [hreadOther.stop_extent, Int.toNat_natCast] at hmaximal
    rw [hmaximal hd] at hidentHead
    cases hidentHead
  · have hclosed := hreadOther.closed herror (by simpa using hotherWord) c
    rw [← hfirst, Nat.add_sub_cancel] at hclosed
    rw [hclosed hc] at hident
    cases hident

end Tiles

/-- How the tokens of a text, but for the last, account for its characters. -/
structure Accounts (source : Text) (tokens : List Token) : Prop where
  /-- None of them ends the text. -/
  going : ∀ token ∈ tokens, token.kind ≠ .endOfText
  /-- Their extents hold some of its characters. -/
  inside : ∀ token ∈ tokens, 0 ≤ token.extent.position ∧ 0 < token.extent.length ∧
    token.extent.stop ≤ source.length
  /-- The extents lie one behind the other. -/
  ordered : tokens.Pairwise fun left right => left.extent.stop ≤ right.extent.position
  /-- Whatever lies outside of them is a space. -/
  covers : ∀ (offset : Nat) (c : Char), source[offset]? = some c →
    Text.isSpace c = true ∨ ∃ token ∈ tokens, token.extent.Covers offset
  /-- The tokens are reported in order. -/
  positions : (tokens ++ [ending source.length]).Pairwise fun left right =>
    left.span.position ≤ right.span.position
  /-- A token that is no error says what stands in the text. -/
  faithful : ∀ token ∈ tokens, token.kind ≠ .error → token.Faithful source
  /-- Nor can a word be extended to the left, unless by what could not be read. -/
  unmerged : ∀ token ∈ tokens, token.kind.isWord = true → ∀ (offset : Nat) (c : Char),
    (offset : Int) + 1 = token.extent.position → source[offset]? = some c →
      Text.isIdentChar c = true →
        ∃ other ∈ tokens, other.kind = .error ∧ other.extent.stop = token.extent.position
  /-- An error has a fault, and the text has it where the error stands. -/
  faulty : ∀ token ∈ tokens, token.kind = .error → ∃ fault, token.fault = some fault ∧
    fault.Stands (token.extent.cut source) (source.drop token.extent.stop.toNat)

/-- Reading accounts for every character of a text, whatever it is: the tokens end with one that
ends the text and is the only such one, the extents of the others lie in the text in order, and
everything else in it is a space. -/
theorem ofText_accounts (source : Text) :
    ∃ tokens, ofText source = tokens ++ [ending source.length] ∧ Accounts source tokens := by
  obtain ⟨tokens, htokens, htiles⟩ := tiles_ofTextAt 0 source rfl (Nat.zero_le _)
  refine ⟨tokens, htokens, ?_, ?_, htiles.ordered, ?_, htiles.positions, ?_, ?_, ?_⟩
  · intro token htoken
    obtain ⟨start, stop, -, hread⟩ := htiles.readAt token htoken
    exact hread.going
  · intro token htoken
    obtain ⟨start, stop, -, hread⟩ := htiles.readAt token htoken
    have hlt := hread.lt
    rw [hread.stop_extent, hread.extent]
    refine ⟨Int.natCast_nonneg start, ?_, Int.ofNat_le.mpr hread.le⟩
    show (0 : Int) < ((stop - start : Nat) : Int)
    omega
  · intro offset c hc
    exact htiles.covers (Nat.zero_le _) hc
  · intro token htoken
    obtain ⟨start, stop, -, hread⟩ := htiles.readAt token htoken
    exact hread.faithful
  · intro token htoken hword offset c hoffset hc hident
    exact htiles.unmerged htoken hword hoffset hc hident
  · intro token htoken hkind
    obtain ⟨start, stop, -, hread⟩ := htiles.readAt token htoken
    rw [hread.stop_extent]
    exact hread.faulty hkind

-- an unclosed character, a word that touches it, a lone hyphen and an unclosed comment
example : (ofText "'ab -#x".toList).map extent =
    [{ position := 0, length := 2 }, { position := 2, length := 1 },
      { position := 4, length := 1 }, { position := 5, length := 2 },
      { position := 7, length := 0 }] := by
  decide +kernel

end Token

/-! ### Reading back what was written -/

/-- The kind and the value that a spelling stands for. -/
inductive Spelling.Means : Spelling → Token.Kind → String → Prop where
  | comment (body : Text) : Means (.comment body) .comment ""
  | character (c : Char) : Means (.character c) .character (String.ofList [c])
  | string (body : Text) : Means (.string body) .string (String.ofList body)
  | fixed {spelling : Spelling} {kind : Token.Kind} {word : String} :
      kind.spelling? = some word → spelling.text = word.toList → Means spelling kind ""
  | identifier {name : Text} : (∀ kind : Token.Kind, kind.spelling? ≠ some (String.ofList name)) →
      Means (.word name) .identifier (String.ofList name)

/-- A word that is no keyword is not the text of any kind. -/
theorem Token.spelling?_ne_of_keyword? {name : Text} (hname : Text.isWord name = true)
    (h : keyword? (String.ofList name) = none) (kind : Kind) :
    kind.spelling? ≠ some (String.ofList name) := by
  intro hkind
  have hword : ∀ word, some word = some (String.ofList name) →
      keyword? word = none ∧ Text.isWord word.toList = true := by
    intro word hword
    obtain rfl := Option.some.inj hword
    exact ⟨h, by rwa [String.toList_ofList]⟩
  cases kind <;> first | cases hkind | exact absurd (hword _ hkind) (by decide)

theorem Spelling.means {spelling : Spelling} (h : spelling.isLexeme = true) :
    spelling.Means spelling.kind spelling.value := by
  cases spelling with
  | comment body => exact .comment body
  | character c => exact .character c
  | string body => exact .string body
  | word name =>
    cases hkeyword : Token.keyword? (String.ofList name) with
    | some kind =>
      simp only [Spelling.kind, value, hkeyword, Option.getD_some, Option.isNone_some]
      exact .fixed (Token.kind_of_mem_keywords hkeyword).2 (by simp [text])
    | none =>
      simp only [Spelling.kind, value, hkeyword, Option.getD_none, Option.isNone_none, if_true]
      exact .identifier (Token.spelling?_ne_of_keyword? h hkeyword)
  | _ => exact .fixed rfl rfl

namespace Layout

/-- A row as it may be written: gaps are made of spaces, every spelling is a lexeme, and there is a
gap between two words. -/
structure Separated (layout : Layout) : Prop where
  gaps : ∀ item ∈ layout, item.1.all Text.isSpace = true
  lexemes : ∀ item ∈ layout, item.2.isLexeme = true
  apart : layout.IsChain fun left right =>
    left.2.isWord = true → right.2.isWord = true → right.1 ≠ []

theorem Separated.readable_of {layout : Layout} (h : layout.Separated) {behind : Bool}
    (hbehind : ∀ item ∈ layout.head?, behind = true → item.2.isWord = true → item.1 ≠ []) :
    layout.Readable behind := by
  induction layout generalizing behind with
  | nil => trivial
  | cons item rest ih =>
    obtain ⟨hgaps, hlexemes, hapart⟩ := h
    refine ⟨hgaps item (.head _), hbehind item rfl, hlexemes item (.head _), ?_⟩
    refine ih ⟨fun other hother => hgaps other (.tail _ hother),
      fun other hother => hlexemes other (.tail _ hother), hapart.tail⟩ ?_
    intro next hnext
    obtain ⟨later, rfl⟩ := List.head?_eq_some_iff.mp hnext
    exact (List.isChain_cons_cons.mp hapart).1

/-- Where the spelling at an index was written. -/
theorem tokens_getElem? (start : Nat) (layout : Layout) (i : Nat) :
    (layout.tokens start)[i]? = layout[i]?.map fun item =>
      item.2.token (start + (text (layout.take i)).length + item.1.length) := by
  induction layout generalizing start i with
  | nil => rfl
  | cons item rest ih =>
    obtain ⟨gap, spelling⟩ := item
    cases i with
    | zero => simp [tokens]
    | succ i =>
      rw [tokens, List.getElem?_cons_succ, ih, List.getElem?_cons_succ, List.take_succ_cons,
        text_cons]
      simp only [List.length_append, Nat.add_assoc]

theorem length_tokens (layout : Layout) (start : Nat) :
    (layout.tokens start).length = layout.length := by
  induction layout generalizing start with
  | nil => rfl
  | cons item rest ih => rw [tokens, List.length_cons, List.length_cons, ih]

/-- What was written before and behind the spelling at an index. -/
theorem text_eq_of_getElem? {layout : Layout} {i : Nat} {gap : Text} {spelling : Spelling}
    (h : layout[i]? = some (gap, spelling)) :
    layout.text = text (layout.take i) ++ gap ++ (spelling.text ++ text (layout.drop (i + 1))) := by
  obtain ⟨hlt, hitem⟩ := List.getElem?_eq_some_iff.mp h
  have hsplit := List.take_append_drop i layout
  rw [List.drop_eq_getElem_cons hlt, hitem] at hsplit
  rw [← congrArg text hsplit, text_append, text_cons, List.append_assoc]

end Layout

theorem Spelling.length_body (spelling : Spelling) :
    spelling.text.length - 2 * spelling.border = spelling.body.length := by
  cases spelling <;> simp [text, border, body]

/-- Reading undoes writing: a row of lexemes, with gaps between them wherever two words would touch,
is read as one token per lexeme, of its kind and with its value, that stands where the body of the
lexeme was written. -/
theorem Token.ofText_spelled {layout : Layout} {tail : Text} (h : layout.Separated)
    (htail : tail.all Text.isSpace = true) :
    ∃ tokens, ofText (layout.text ++ tail) = tokens ++ [ending (layout.text ++ tail).length] ∧
      tokens.length = layout.length ∧ (∀ token ∈ tokens, token.kind ≠ .error) ∧
      ∀ (i : Nat) (gap : Text) (spelling : Spelling), layout[i]? = some (gap, spelling) →
        ∃ token, tokens[i]? = some token ∧ spelling.Means token.kind token.value ∧
          token.fault = none ∧
          token.span =
            { position := ((Layout.text (layout.take i) ++ gap).length + spelling.border : Nat)
              length := spelling.body.length } ∧
          token.span.cut (layout.text ++ tail) = spelling.body := by
  have hreadable : layout.Readable false :=
    h.readable_of fun _ _ hbehind => absurd hbehind Bool.false_ne_true
  have htokens : ∀ (i : Nat) (gap : Text) (spelling : Spelling), layout[i]? = some (gap, spelling) →
      (layout.tokens 0)[i]? =
        some (spelling.token (Layout.text (layout.take i) ++ gap).length) := by
    intro i gap spelling hitem
    rw [Layout.tokens_getElem?, hitem, Option.map_some, Nat.zero_add, List.length_append]
  refine ⟨layout.tokens 0, ?_, layout.length_tokens 0, ?_, ?_⟩
  · rw [ofText, ofTextAt_layout hreadable htail, Nat.zero_add]
  · intro token htoken
    obtain ⟨i, hi⟩ := List.mem_iff_getElem?.mp htoken
    rw [Layout.tokens_getElem?, Option.map_eq_some_iff] at hi
    obtain ⟨item, -, rfl⟩ := hi
    exact item.2.kind_ne_error
  · intro i gap spelling hitem
    have hlexeme := h.lexemes _ (List.mem_of_getElem? hitem)
    refine ⟨_, htokens i gap spelling hitem, Spelling.means hlexeme, rfl, ?_, ?_⟩
    · rw [← spelling.length_body]
      rfl
    · rw [Layout.text_eq_of_getElem? hitem, List.append_assoc, List.append_assoc spelling.text]
      exact spelling.cut_span_token _ _

/-- A row with no more gaps than it needs, in which literals and comments hold each other's
delimiters. -/
def crowded : Layout :=
  [([], .word "state".toList), ([' '], .word "s".toList), ([], .leftBrace),
    ([], .character '\''), ([], .slash), ([], .character '#'), ([], .comma),
    (['\n', '\t'], .word "R".toList), ([], .arrow), ([], .word "self".toList),
    ([], .comment "\"'".toList), ([], .string "#'".toList), ([], .rightBrace)]

theorem Token.ofText_spelled_crowded :
    crowded.Separated ∧ List.all [' '] Text.isSpace = true ∧
    ∃ tokens, ofText (crowded.text ++ [' ']) = tokens ++ [ending 35] ∧ tokens.length = 13 ∧
      (∀ token ∈ tokens, token.kind ≠ .error) ∧
      ∃ token, tokens[3]? = some token ∧
        (Spelling.character '\'').Means token.kind token.value ∧
        token.span = { position := 9, length := 1 } := by
  have hseparated : crowded.Separated := ⟨by decide, by decide, by decide⟩
  obtain ⟨tokens, htokens, hlength, herror, hplaces⟩ :=
    ofText_spelled hseparated (show List.all [' '] Text.isSpace = true by decide)
  obtain ⟨token, htoken, hmeans, -, hspan, -⟩ := hplaces 3 [] (.character '\'') rfl
  exact ⟨hseparated, by decide, tokens, htokens, hlength, herror, token, htoken, hmeans, hspan⟩

end TapeMachine
