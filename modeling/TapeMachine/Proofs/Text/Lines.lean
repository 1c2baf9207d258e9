import Mathlib.Data.List.DropRight
import Mathlib.Data.List.TakeDrop
import TapeMachine.Text.Lines

/-!
# TapeMachine.Proofs.Text.Lines

Offsets, lines and columns are three ways to name a place in a text.

A place cuts a text in two, `before ++ after`. Its line is the number of line feeds in `before`, its
column the length of what stands in `before` behind the last of them, both counted from one
(`Position.behind`). The table of line starts gives just that (`LineIndex.position_ofText`).

* `Text.lastLine`, `Text.firstLine` — the two parts of the line that is cut.
* `Text.exists_splitOn_append` — where this line stands among the lines of the text, and that
  the lines before it make up the rest of `before`.
* `LineIndex.lineText_append` — the line as it is cut out by means of the table.
-/

namespace TapeMachine

/-! ### A text cut in two -/

namespace Text

/-- What stands behind the last line feed of a text. -/
def lastLine (text : Text) : Text :=
  text.rtakeWhile (· != '\n')

/-- What stands before its first line feed. -/
def firstLine (text : Text) : Text :=
  text.takeWhile (· != '\n')

/-- Some lines, each with the line feed that ends it. -/
def joined (lines : List Text) : Text :=
  lines.flatMap fun line => line ++ ['\n']

variable {text : Text}

theorem not_mem_lastLine (text : Text) : '\n' ∉ lastLine text :=
  fun hmem => absurd (List.mem_rtakeWhile_imp hmem) (by decide)

theorem not_mem_firstLine (text : Text) : '\n' ∉ firstLine text :=
  fun hmem => absurd (List.all_eq_true.mp List.all_takeWhile _ hmem) (by decide)

/-- A line has no line feed. -/
theorem not_mem_line (before after : Text) : '\n' ∉ lastLine before ++ firstLine after := by
  rw [List.mem_append]
  exact fun hmem => hmem.elim (not_mem_lastLine before) (not_mem_firstLine after)

theorem forall_ne_of_not_mem (h : '\n' ∉ text) : ∀ c ∈ text, (c != '\n') = true := by
  intro c hc
  simpa using fun heq : c = '\n' => h (heq ▸ hc)

theorem lastLine_of_not_mem (h : '\n' ∉ text) : lastLine text = text :=
  List.rtakeWhile_eq_self_iff.mpr (forall_ne_of_not_mem h)

theorem firstLine_of_not_mem (h : '\n' ∉ text) : firstLine text = text :=
  List.takeWhile_eq_self_iff.mpr (forall_ne_of_not_mem h)

theorem lastLine_append_of_not_mem (before : Text) {after : Text} (h : '\n' ∉ after) :
    lastLine (before ++ after) = lastLine before ++ after := by
  have hfree : ∀ c ∈ after.reverse, (c != '\n') = true :=
    forall_ne_of_not_mem (by rwa [List.mem_reverse])
  rw [lastLine, List.rtakeWhile, List.reverse_append, List.takeWhile_append_of_pos hfree,
    List.reverse_append, List.reverse_reverse]
  rfl

theorem lastLine_append_of_mem (before : Text) {after : Text} (h : '\n' ∈ after) :
    lastLine (before ++ after) = lastLine after := by
  have hshort : (after.reverse.takeWhile (· != '\n')).length ≠ after.reverse.length := by
    intro hlength
    have hwhole := (List.takeWhile_prefix (· != '\n')).eq_of_length hlength
    have hall := List.takeWhile_eq_self_iff.mp hwhole '\n' (List.mem_reverse.mpr h)
    exact absurd hall (by decide)
  rw [lastLine, List.rtakeWhile, List.reverse_append, List.takeWhile_append, if_neg hshort]
  rfl

/-- Behind a line feed a new line starts. -/
theorem lastLine_append_feed (before after : Text) :
    lastLine (before ++ '\n' :: after) = lastLine after := by
  by_cases h : '\n' ∈ after
  · rw [List.append_cons, lastLine_append_of_mem _ h]
  · rw [List.append_cons, lastLine_append_of_not_mem _ h, lastLine_of_not_mem h]
    simp [lastLine]

theorem length_lastLine_le (text : Text) : (lastLine text).length ≤ text.length :=
  (List.rtakeWhile_suffix _ text).length_le

/-- The last line of a text together with what follows it. -/
theorem drop_take_lastLine (before after : Text) (count : Nat) :
    ((before ++ after).drop (before.length - (lastLine before).length)).take
        ((lastLine before).length + count) =
      lastLine before ++ after.take count := by
  obtain ⟨front, hfront⟩ : lastLine before <:+ before := List.rtakeWhile_suffix _ before
  have hstart : before.length - (lastLine before).length = front.length := by
    rw [← congrArg List.length hfront, List.length_append, Nat.add_sub_cancel]
  have htext : before ++ after = front ++ (lastLine before ++ after) := by
    rw [← List.append_assoc, hfront]
  rw [hstart, htext, List.drop_left, List.take_length_add_append]

theorem take_length_firstLine (text : Text) :
    text.take (firstLine text).length = firstLine text :=
  (List.prefix_iff_eq_take.mp (List.takeWhile_prefix _)).symm

theorem take_firstLine_of_mem (h : '\n' ∈ text) :
    text.take ((firstLine text).length + 1) = firstLine text ++ ['\n'] := by
  obtain ⟨first, rest, rfl, hfirst⟩ := List.eq_append_cons_of_mem h
  have hline : firstLine (first ++ '\n' :: rest) = first := by
    rw [firstLine, List.takeWhile_append_of_pos (forall_ne_of_not_mem hfirst)]
    simp
  rw [hline, List.take_length_add_append]
  rfl

theorem dropEndWhile_of_not_mem {c : Char} (h : c ∉ text) : dropEndWhile (· == c) text = text := by
  induction text using List.reverseRecOn with
  | nil => rfl
  | append_singleton text last _ =>
    have hlast : last ≠ c := fun heq => h (by simp [heq])
    simp [hlast]

theorem exists_splitOn_eq_firstLine_cons (text : Text) :
    ∃ later, text.splitOn '\n' = firstLine text :: later := by
  induction text with
  | nil => exact ⟨[], rfl⟩
  | cons c rest ih =>
    obtain ⟨later, hrest⟩ := ih
    rw [List.splitOn_cons_eq_if_modifyHead, hrest]
    by_cases hfeed : c = '\n'
    · exact ⟨firstLine rest :: later, by simp [firstLine, hfeed]⟩
    · exact ⟨later, by simp [firstLine, hfeed]⟩

/-- The lines of a text that is cut in two: those before the cut, the one that is cut, and those
behind. -/
theorem exists_splitOn_append (before after : Text) :
    ∃ earlier later,
      (before ++ after).splitOn '\n' =
        earlier ++ (lastLine before ++ firstLine after) :: later ∧
      earlier.length = before.count '\n' ∧ before = joined earlier ++ lastLine before := by
  induction before with
  | nil =>
    obtain ⟨later, hlater⟩ := exists_splitOn_eq_firstLine_cons after
    exact ⟨[], later, hlater, rfl, rfl⟩
  | cons c before ih =>
    obtain ⟨earlier, later, hlines, hlength, hjoined⟩ := ih
    rw [List.cons_append, List.splitOn_cons_eq_if_modifyHead, hlines]
    by_cases hfeed : c = '\n'
    · subst hfeed
      have hlast : lastLine ('\n' :: before) = lastLine before := lastLine_append_feed [] before
      refine ⟨[] :: earlier, later, ?_, ?_, ?_⟩
      · simp [hlast]
      · simp [hlength]
      · rw [hlast]
        exact congrArg ('\n' :: ·) hjoined
    · cases earlier with
      | nil =>
        -- the first line is the one that is cut
        have hfree : '\n' ∉ before := List.count_eq_zero.mp hlength.symm
        have hcut : lastLine (c :: before) = c :: lastLine before := by
          rw [lastLine_of_not_mem hfree]
          exact lastLine_of_not_mem (by simp [hfree, Ne.symm hfeed])
        refine ⟨[], later, ?_, ?_, ?_⟩
        · simp [hcut, hfeed]
        · simpa [hfeed] using hlength
        · rw [hcut]
          exact congrArg (c :: ·) hjoined
      | cons line earlier =>
        have hmem : '\n' ∈ before := by
          rw [← List.count_pos_iff, ← hlength]
          exact Nat.succ_pos _
        have hcut : lastLine (c :: before) = lastLine before := lastLine_append_of_mem [c] hmem
        refine ⟨(c :: line) :: earlier, later, ?_, ?_, ?_⟩
        · simp [hcut, hfeed]
        · simpa [hfeed] using hlength
        · rw [hcut]
          exact congrArg (c :: ·) hjoined

theorem splitOn_getElem?_count (before after : Text) :
    ((before ++ after).splitOn '\n')[before.count '\n']? =
      some (lastLine before ++ firstLine after) := by
  obtain ⟨earlier, later, hlines, hlength, -⟩ := exists_splitOn_append before after
  rw [hlines, ← hlength]
  simp

/-- The line at an offset. -/
theorem splitOn_getElem?_take (text : Text) (offset : Nat) :
    (text.splitOn '\n')[(text.take offset).count '\n']? =
      some (lastLine (text.take offset) ++ firstLine (text.drop offset)) := by
  have hline := splitOn_getElem?_count (text.take offset) (text.drop offset)
  rwa [List.take_append_drop] at hline

end Text

/-- The place behind a text. -/
def Position.behind (before : Text) : Position :=
  { line := before.count '\n' + 1
    column := (Text.lastLine before).length + 1
    offset := before.length }

/-! ### The table of line starts -/

namespace LineIndex

theorem startsFrom_append (offset : Nat) (before after : Text) :
    startsFrom offset (before ++ after) =
      startsFrom offset before ++ startsFrom (offset + before.length) after := by
  induction before generalizing offset with
  | nil => rfl
  | cons c before ih =>
    have hnext : offset + 1 + before.length = offset + (c :: before).length := by
      rw [List.length_cons]
      omega
    rw [List.cons_append, startsFrom, startsFrom, ih, hnext]
    split <;> rfl

/-- A line starts behind the line feed that ends the one before. -/
theorem bounds_of_mem_startsFrom {offset start : Nat} {text : Text}
    (h : start ∈ startsFrom offset text) : offset < start ∧ start ≤ offset + text.length := by
  induction text generalizing offset with
  | nil => cases h
  | cons c rest ih =>
    have hrest : start ∈ startsFrom (offset + 1) rest →
        offset < start ∧ start ≤ offset + (rest.length + 1) := by
      intro hmem
      have hbounds := ih hmem
      omega
    rw [startsFrom] at h
    split at h
    · rcases List.mem_cons.mp h with rfl | hmem
      · rw [List.length_cons]
        omega
      · exact hrest hmem
    · exact hrest h

theorem length_startsFrom (offset : Nat) (text : Text) :
    (startsFrom offset text).length = text.count '\n' := by
  induction text generalizing offset with
  | nil => rfl
  | cons c rest ih =>
    rw [startsFrom, List.count_cons]
    split
    · rw [List.length_cons, ih]
    · rw [ih, Nat.add_zero]

/-- The last line starts behind all that stands before it. -/
theorem getLast?_startsFrom (offset : Nat) (text : Text) :
    (offset :: startsFrom offset text).getLast? =
      some (offset + (text.length - (Text.lastLine text).length)) := by
  induction text using List.reverseRecOn with
  | nil => rfl
  | append_singleton text c ih =>
    by_cases hfeed : c = '\n'
    · subst hfeed
      have hlast : Text.lastLine (text ++ ['\n']) = [] := Text.lastLine_append_feed text []
      rw [startsFrom_append, hlast, ← List.cons_append, List.getLast?_append]
      simp [startsFrom, Nat.add_assoc]
    · have hlast : Text.lastLine (text ++ [c]) = Text.lastLine text ++ [c] :=
        Text.lastLine_append_of_not_mem text (by simpa using Ne.symm hfeed)
      have hsame : startsFrom offset (text ++ [c]) = startsFrom offset text := by
        rw [startsFrom_append]
        simp [startsFrom, hfeed]
      rw [hsame, ih, hlast]
      simp

/-- The second line starts behind the line feed that ends the first, if there is one. -/
theorem head?_startsFrom (offset : Nat) (text : Text) :
    (startsFrom offset text).head? =
      if '\n' ∈ text then some (offset + (Text.firstLine text).length + 1) else none := by
  induction text generalizing offset with
  | nil => rfl
  | cons c rest ih =>
    by_cases hfeed : c = '\n'
    · simp [startsFrom, Text.firstLine, hfeed]
    · have hfirst : Text.firstLine (c :: rest) = c :: Text.firstLine rest := by
        simp [Text.firstLine, hfeed]
      have hmem : '\n' ∈ c :: rest ↔ '\n' ∈ rest := by simp [Ne.symm hfeed]
      rw [startsFrom, if_neg (by simpa using hfeed), ih, hfirst, List.length_cons]
      simp only [hmem]
      congr 2
      omega

/-- Up to a cut, the table is that of the text before it. -/
theorem takeWhile_starts (before after : Text) :
    (ofText (before ++ after)).starts.takeWhile (· ≤ before.length) =
      0 :: startsFrom 0 before := by
  have hbefore : ∀ start ∈ 0 :: startsFrom 0 before, decide (start ≤ before.length) = true := by
    intro start hmem
    rcases List.mem_cons.mp hmem with rfl | hmem
    · simp
    · have hbounds := bounds_of_mem_startsFrom hmem
      simp only [decide_eq_true_eq]
      omega
  have hafter : (startsFrom (0 + before.length) after).takeWhile (· ≤ before.length) = [] := by
    cases hrest : startsFrom (0 + before.length) after with
    | nil => rfl
    | cons start rest =>
      have hbounds := bounds_of_mem_startsFrom (hrest ▸ List.mem_cons_self)
      rw [List.takeWhile_cons_of_neg]
      simp only [decide_eq_true_eq]
      omega
  show ((0 :: startsFrom 0 (before ++ after)).takeWhile _) = _
  rw [startsFrom_append, ← List.cons_append, List.takeWhile_append_of_pos hbefore, hafter,
    List.append_nil]

/-- The place of an offset is the one behind the text that it cuts off. -/
theorem position_ofText (text : Text) (offset : Int) :
    (ofText text).position offset = .behind (text.take offset.toNat) := by
  have htaken : min offset.toNat text.length = (text.take offset.toNat).length :=
    (List.length_take ..).symm
  have hstarts := takeWhile_starts (text.take offset.toNat) (text.drop offset.toNat)
  rw [List.take_append_drop] at hstarts
  have hlast := getLast?_startsFrom 0 (text.take offset.toNat)
  have hle := Text.length_lastLine_le (text.take offset.toNat)
  simp only [position, ofText_size, htaken, hstarts, hlast, Option.getD_some, Position.behind,
    List.length_cons, length_startsFrom, Position.mk.injEq, true_and, and_true]
  omega

/-- From the line that is cut on, the table has the start of this line and those of the lines
behind the cut. -/
theorem drop_starts (before after : Text) :
    (ofText (before ++ after)).starts.drop (before.count '\n') =
      (before.length - (Text.lastLine before).length) :: startsFrom before.length after := by
  have hlength : (0 :: startsFrom 0 before).length - 1 = before.count '\n' := by
    rw [List.length_cons, length_startsFrom, Nat.add_sub_cancel]
  have hlast := getLast?_startsFrom 0 before
  rw [List.getLast?_eq_some_getLast (List.cons_ne_nil _ _), Option.some.injEq, Nat.zero_add]
    at hlast
  show (0 :: startsFrom 0 (before ++ after)).drop (before.count '\n') = _
  rw [startsFrom_append, Nat.zero_add, ← List.cons_append, ← hlength,
    List.drop_append_of_le_length (Nat.sub_le _ _),
    List.drop_length_sub_one (List.cons_ne_nil _ _), hlast]
  rfl

/-- The line at a cut, as the table gives it: whole, but for the carriage returns at its end. -/
theorem lineText_append (before after : Text) :
    (ofText (before ++ after)).lineText ((before.count '\n' + 1 : Nat) : Int) =
      Text.dropEndWhile (· == '\r') (Text.lastLine before ++ Text.firstLine after) := by
  have hnumber : ((before.count '\n' + 1 : Nat) : Int).toNat - 1 = before.count '\n' := by omega
  have hle := Text.length_lastLine_le before
  have hfree := Text.not_mem_line before after
  rw [lineText, if_neg (by omega), hnumber, drop_starts]
  simp only [head?_startsFrom, ofText_text, ofText_size]
  by_cases hfeed : '\n' ∈ after
  · have hwhole : ((before ++ after).drop (before.length - (Text.lastLine before).length)).take
        (before.length + (Text.firstLine after).length + 1 -
          (before.length - (Text.lastLine before).length)) =
        Text.lastLine before ++ Text.firstLine after ++ ['\n'] := by
      rw [show before.length + (Text.firstLine after).length + 1 -
          (before.length - (Text.lastLine before).length) =
            (Text.lastLine before).length + ((Text.firstLine after).length + 1) by omega,
        Text.drop_take_lastLine, Text.take_firstLine_of_mem hfeed, List.append_assoc]
    rw [if_pos hfeed, Option.getD_some, hwhole, Text.dropEndWhile_append_of_forall (by simp),
      Text.dropEndWhile_of_not_mem hfree]
  · have hwhole : ((before ++ after).drop (before.length - (Text.lastLine before).length)).take
        ((before ++ after).length - (before.length - (Text.lastLine before).length)) =
        Text.lastLine before ++ Text.firstLine after := by
      rw [show (before ++ after).length - (before.length - (Text.lastLine before).length) =
          (Text.lastLine before).length + after.length by rw [List.length_append]; omega,
        Text.drop_take_lastLine, List.take_length, Text.firstLine_of_not_mem hfeed]
    rw [if_neg hfeed, Option.getD_none, hwhole, Text.dropEndWhile_of_not_mem hfree]

end LineIndex

end TapeMachine
