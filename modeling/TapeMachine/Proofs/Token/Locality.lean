import TapeMachine.Proofs.Token.Extents

/-!
# TapeMachine.Proofs.Token.Locality

Reading a text is local.

A lexeme does not know where it stands, so a text that is moved has the same tokens, further on
(`Token.ofTextAt_shifted`). And a lexeme that is no error does not look behind its own end, but for
a word, which must not be followed by more letters. So a text without errors is read the same way
whatever stands behind it (`Token.ofTextAt_append`), and behind a gap another text is read as if it
stood alone.

* `Token.shifted` — the same token, further on.
* `Token.ofText_append_gap` — the tokens of two texts with a gap between them.
-/

namespace TapeMachine

/-! ### Texts that are moved -/

/-- The same token, further on in the text. -/
def Token.shifted (count : Nat) (token : Token) : Token :=
  { token with span := { token.span with position := token.span.position + count } }

theorem Lexeme.toToken_add (lexeme : Lexeme) (start count : Nat) :
    lexeme.toToken (start + count) = (lexeme.toToken start).shifted count := by
  simp only [toToken, Token.shifted, Token.mk.injEq, Span.mk.injEq, true_and, and_true]
  omega

/-- Where a text stands makes no difference to what its tokens are. -/
theorem Token.ofTextAt_shifted (start count : Nat) (text : Text) :
    ofTextAt (start + count) text = (ofTextAt start text).map (shifted count) := by
  fun_induction ofTextAt start text with
  | case1 start => simp [ending, shifted]
  | case2 start c rest hspace ih =>
    rw [ofTextAt_space hspace, Nat.add_right_comm, ih]
  | case3 start c rest hspace lexeme ih =>
    rw [ofTextAt_lexeme (by simpa using hspace), Nat.add_right_comm, ih, List.map_cons,
      Lexeme.toToken_add]

/-! ### Texts that are followed by others -/

theorem LexFault.kind_lexeme (fault : LexFault) (part : Text) :
    (fault.lexeme part).kind = .error := by
  cases fault <;> rfl

/-- What does not extend the last word of a text does not extend a word before it. -/
theorem Spelling.Bounded.append {spelling : Spelling} {more rest : Text}
    (h : spelling.Bounded more) (hrest : ∀ c ∈ rest.head?, Text.isIdentChar c = false) :
    spelling.Bounded (more ++ rest) := by
  intro hword
  cases more with
  | nil => exact hrest
  | cons c more => exact h hword

namespace Token

/-- A text without errors is read the same way if something follows that does not extend its last
word, and reading goes on there. -/
theorem ofTextAt_append {rest : Text} (hrest : ∀ c ∈ rest.head?, Text.isIdentChar c = false)
    (start : Nat) (text : Text) (hclean : ∀ token ∈ ofTextAt start text, token.kind ≠ .error) :
    ∃ tokens, ofTextAt start text = tokens ++ [ending (start + text.length)] ∧
      ofTextAt start (text ++ rest) = tokens ++ ofTextAt (start + text.length) rest := by
  fun_induction ofTextAt start text with
  | case1 start => exact ⟨[], rfl, rfl⟩
  | case2 start c more hspace ih =>
    obtain ⟨tokens, halone, hfollowed⟩ := ih hclean
    rw [List.length_cons, Nat.add_comm more.length, ← Nat.add_assoc]
    refine ⟨tokens, halone, ?_⟩
    rw [List.cons_append, ofTextAt_space hspace, hfollowed]
  | case3 start c more hspace lexeme ih =>
    obtain ⟨hfirst, hlater⟩ := List.forall_mem_cons.mp hclean
    cases Lexeme.heads_scan (by simpa using hspace) more with
    | faulty fault part behind htext hstands hscan =>
      -- a stretch with a fault gives an error token
      have hkind : lexeme.kind = .error :=
        (congrArg Lexeme.kind hscan).trans (fault.kind_lexeme part)
      exact absurd hkind hfirst
    | spelled spelling behind htext hlexeme hbounded hscan =>
      have hwidth : lexeme.width = spelling.text.length := congrArg Lexeme.width hscan
      have htoken : lexeme.toToken start = spelling.token start :=
        congrArg (Lexeme.toToken · start) hscan
      rw [hwidth, htext, List.drop_left] at ih hlater
      obtain ⟨tokens, halone, hfollowed⟩ := ih hlater
      rw [htext, List.length_append, ← Nat.add_assoc]
      refine ⟨spelling.token start :: tokens, ?_, ?_⟩
      · rw [hwidth, htoken, List.drop_left, halone]
        rfl
      · rw [List.append_assoc, ofTextAt_spelling hlexeme (hbounded.append hrest), hfollowed]
        rfl

/-- Two texts with a gap between them give the tokens of the first one, which must be without
errors, and then those of the second one, moved behind the gap. The second one may have errors. -/
theorem ofText_append_gap {before gap : Text}
    (hclean : ∀ token ∈ ofText before, token.kind ≠ .error) (hgap : gap ≠ [])
    (hspace : gap.all Text.isSpace = true) (after : Text) :
    ∃ tokens, ofText before = tokens ++ [ending before.length] ∧
      ofText (before ++ gap ++ after) =
        tokens ++ (ofText after).map (shifted (before.length + gap.length)) := by
  have hhead : ∀ c ∈ (gap ++ after).head?, Text.isIdentChar c = false := by
    obtain ⟨first, more, rfl⟩ := List.exists_cons_of_ne_nil hgap
    rintro c ⟨⟩
    exact Text.isIdentChar_of_isSpace (List.all_eq_true.mp hspace _ List.mem_cons_self)
  obtain ⟨tokens, halone, hfollowed⟩ := ofTextAt_append hhead 0 before hclean
  rw [Nat.zero_add] at halone hfollowed
  refine ⟨tokens, halone, ?_⟩
  rw [List.append_assoc, ofText, hfollowed, ofTextAt_gap hspace, ofText, ← ofTextAt_shifted,
    Nat.zero_add]

/-- Behind a text that ends in a word, an apostrophe at the end is an error where it stands. -/
theorem ofText_append_gap_quoted :
    (∀ token ∈ ofText "#'# s".toList, token.kind ≠ .error) ∧ ['\n', ' '] ≠ [] ∧
    List.all ['\n', ' '] Text.isSpace = true ∧
    ∃ tokens, ofText "#'# s".toList = tokens ++ [ending 5] ∧
      ofText ("#'# s".toList ++ ['\n', ' '] ++ "s'".toList) =
        tokens ++ (ofText "s'".toList).map (shifted 7) ∧
      ofText "s'".toList = [⟨.identifier, "s", ⟨0, 1⟩, none⟩,
        ⟨.error, "", ⟨2, 0⟩, some .missingCharacter⟩, ending 2] := by
  have hclean : ∀ token ∈ ofText "#'# s".toList, token.kind ≠ .error := by decide +kernel
  have hgap : ['\n', ' '] ≠ [] := by decide
  have hspace : List.all ['\n', ' '] Text.isSpace = true := by decide
  obtain ⟨tokens, hbefore, hboth⟩ := ofText_append_gap hclean hgap hspace "s'".toList
  exact ⟨hclean, hgap, hspace, tokens, hbefore, hboth, by decide +kernel⟩

end Token

end TapeMachine
