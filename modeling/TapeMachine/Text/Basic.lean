/-!
# TapeMachine.Text.Basic

Texts and the character classes of the language.

A text is its list of code points, so every position, length and column of the library counts code
points and the usual list functions (`take`, `drop`, `takeWhile`) cut it.

* `isSpace`, `isIdentStart`, `isIdentChar` — the classes the lexer asks about. Letters and digits
  are those of ASCII, which is what `Char.isAlpha` and `Char.isDigit` mean.
* `dropEndWhile`, `trim` — cutting a text from its end, or from both ends.
-/

namespace TapeMachine

/-- A text, as the sequence of its code points. -/
abbrev Text := List Char

namespace Text

/-! ### Character classes -/

/-- The characters that separate tokens: blank, tab, line feed, vertical tab, form feed and
carriage return. -/
def isSpace (c : Char) : Bool :=
  c == ' ' || c == '\t' || c == '\n' || c == '\x0b' || c == '\x0c' || c == '\r'

/-- A word starts with a letter or an underscore. -/
def isIdentStart (c : Char) : Bool :=
  c == '_' || c.isAlpha

/-- A word goes on with letters, digits and underscores. -/
def isIdentChar (c : Char) : Bool :=
  c == '_' || c.isAlphanum

theorem isIdentChar_of_isIdentStart {c : Char} (h : isIdentStart c = true) :
    isIdentChar c = true := by
  simp only [isIdentStart, isIdentChar, Char.isAlphanum, Bool.or_eq_true] at h ⊢
  rcases h with h | h
  · exact Or.inl h
  · exact Or.inr (Or.inl h)

/-! ### Cutting at the end -/

/-- Drops the longest end of a list all of whose members satisfy `p`. -/
def dropEndWhile {α : Type} (p : α → Bool) (xs : List α) : List α :=
  (xs.reverse.dropWhile p).reverse

@[simp] theorem dropEndWhile_nil {α : Type} (p : α → Bool) : dropEndWhile p [] = [] := rfl

@[simp] theorem dropEndWhile_concat {α : Type} (p : α → Bool) (xs : List α) (x : α) :
    dropEndWhile p (xs ++ [x]) = if p x then dropEndWhile p xs else xs ++ [x] := by
  cases h : p x <;> simp [dropEndWhile, h]

/-- Drops from both ends all members that satisfy `p`. -/
def trim {α : Type} (p : α → Bool) (xs : List α) : List α :=
  dropEndWhile p (xs.dropWhile p)

/-- What `dropEndWhile` drops is an end that satisfies `p` throughout. -/
theorem exists_eq_dropEndWhile_append {α : Type} (p : α → Bool) (xs : List α) :
    ∃ dropped, xs = dropEndWhile p xs ++ dropped ∧ ∀ x ∈ dropped, p x = true := by
  refine ⟨(xs.reverse.takeWhile p).reverse, ?_, ?_⟩
  · rw [dropEndWhile, ← List.reverse_append, List.takeWhile_append_dropWhile, List.reverse_reverse]
  · intro x hx
    exact List.all_eq_true.mp List.all_takeWhile x (List.mem_reverse.mp hx)

theorem not_of_getLast?_dropEndWhile {α : Type} {p : α → Bool} {xs : List α} {x : α}
    (h : (dropEndWhile p xs).getLast? = some x) : p x = false := by
  rw [dropEndWhile, List.getLast?_reverse] at h
  simpa [h] using List.head?_dropWhile_not p xs.reverse

/-- What `trim` drops are a start and an end that satisfy `p` throughout. -/
theorem exists_eq_append_trim_append {α : Type} (p : α → Bool) (xs : List α) :
    ∃ before after, xs = before ++ trim p xs ++ after ∧
      (∀ x ∈ before, p x = true) ∧ (∀ x ∈ after, p x = true) := by
  obtain ⟨after, hafter, hp⟩ := exists_eq_dropEndWhile_append p (xs.dropWhile p)
  refine ⟨xs.takeWhile p, after, ?_, List.all_eq_true.mp List.all_takeWhile, hp⟩
  rw [trim, List.append_assoc, ← hafter, List.takeWhile_append_dropWhile]

/-- What `trim` leaves does not end with a member that satisfies `p`. -/
theorem not_of_getLast?_trim {α : Type} {p : α → Bool} {xs : List α} {x : α}
    (h : (trim p xs).getLast? = some x) : p x = false :=
  not_of_getLast?_dropEndWhile h

/-- What `trim` leaves does not start with a member that satisfies `p`. -/
theorem not_of_head?_trim {α : Type} {p : α → Bool} {xs : List α} {x : α}
    (h : (trim p xs).head? = some x) : p x = false := by
  obtain ⟨dropped, hdropped, -⟩ := exists_eq_dropEndWhile_append p (xs.dropWhile p)
  have hhead : (xs.dropWhile p).head? = some x := by
    rw [hdropped, List.head?_append]
    simp only [trim] at h
    rw [h]
    rfl
  simpa [hhead] using List.head?_dropWhile_not p xs

theorem dropEndWhile_append_of_forall {α : Type} {p : α → Bool} {dropped : List α}
    (h : ∀ x ∈ dropped, p x = true) (xs : List α) :
    dropEndWhile p (xs ++ dropped) = dropEndWhile p xs := by
  rw [dropEndWhile, List.reverse_append, List.dropWhile_append_of_pos]
  · rfl
  · intro x hx
    exact h x (List.mem_reverse.mp hx)

/-- More of what `trim` drops, at either end, makes no difference. -/
theorem trim_append_of_forall {α : Type} {p : α → Bool} {before after : List α}
    (hbefore : ∀ x ∈ before, p x = true) (hafter : ∀ x ∈ after, p x = true) (xs : List α) :
    trim p (before ++ xs ++ after) = trim p xs := by
  rw [trim, List.append_assoc, List.dropWhile_append_of_pos hbefore, List.dropWhile_append]
  split
  · next hempty =>
    -- nothing but what is dropped stands before `after`
    rw [trim, List.isEmpty_iff.mp hempty, ← List.append_nil after,
      List.dropWhile_append_of_pos hafter]
    rfl
  · exact dropEndWhile_append_of_forall hafter _

end Text

end TapeMachine
