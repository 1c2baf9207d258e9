import TapeMachine.Text.Basic

/-!
# TapeMachine.Text.Template

Message templates with one hole.

A template is a text in which the word `value` between braces marks the place where a value goes.
Every other brace is a mistake in the template, and `fill` reports the first one; the value itself
is inserted as it is, braces and all.
-/

namespace TapeMachine.Template

/-- What can be wrong with a template. -/
inductive Error where
  /-- An opening brace that does not open a hole. -/
  | unclosedBrace
  /-- A closing brace that closes nothing. -/
  | strayBrace
deriving Repr, DecidableEq

/-- The text of an error. -/
def Error.message : Error → String
  | .unclosedBrace => "expected '\x7d' before end of string"
  | .strayBrace => "Single '\x7d' encountered in format string"

/-- Puts a value into the holes of a template. -/
def fill (value : Text) : Text → Except Error Text
  | [] => .ok []
  | '{' :: 'v' :: 'a' :: 'l' :: 'u' :: 'e' :: '}' :: rest => (value ++ ·) <$> fill value rest
  | '{' :: _ => .error .unclosedBrace
  | '}' :: _ => .error .strayBrace
  | c :: rest => (c :: ·) <$> fill value rest

theorem fill_cons (value : Text) {c : Char} (hopen : c ≠ '{') (hclose : c ≠ '}') (rest : Text) :
    fill value (c :: rest) = (c :: ·) <$> fill value rest := by
  rw [fill]
  · intro _ hc
    exact absurd hc hopen
  · exact hopen
  · exact hclose

/-- A stretch without braces is kept. -/
theorem fill_append (value : Text) {before : Text} (h : ∀ c ∈ before, c ≠ '{' ∧ c ≠ '}')
    (rest : Text) : fill value (before ++ rest) = (before ++ ·) <$> fill value rest := by
  induction before with
  | nil => exact (id_map (fill value rest)).symm
  | cons c before ih =>
    obtain ⟨hopen, hclose⟩ := h c List.mem_cons_self
    rw [List.cons_append, fill_cons value hopen hclose, ih fun d hd => h d (.tail _ hd)]
    cases fill value rest <;> rfl

/-- A template without braces is filled with itself. -/
theorem fill_plain (value : Text) {template : Text}
    (h : ∀ c ∈ template, c ≠ '{' ∧ c ≠ '}') : fill value template = .ok template := by
  have hfill := fill_append value h []
  rw [List.append_nil] at hfill
  rw [hfill]
  show Except.ok (template ++ []) = .ok template
  rw [List.append_nil]

end TapeMachine.Template
