import TapeMachine.Proofs.Text.Lines

/-!
# TapeMachine.Proofs.Text.Coordinates

The offsets of a text and its lines and columns name the same places.

Every offset has a line and a column, and every column of every line has an offset. The one way goes
through the table of line starts, the other one adds up the lines before (`Text.offset?`), and each
undoes the other.

* `Text.exists_cut_of_line` — the text cut where a given line starts. The line is then the one that
  is cut, so what is known of cuts holds of every line.
* `Position.precedes_behind` — more text before a place moves it on.
* `LineIndex.ofText_charts` — the facts together: what the table of a text gives for every offset
  and every line, whether they exist or not.
-/

namespace TapeMachine

/-! ### Lines of a text -/

namespace Text

variable {text content : Text} {line : Nat}

/-- The offset of a column of a line, both counted from one: the lines before it, each with its line
feed, and the characters before it. There is none for a column behind the end of the line. -/
def offset? (text : Text) : Nat → Nat → Option Nat
  | line + 1, column + 1 => do
    let content ← (text.splitOn '\n')[line]?
    if column ≤ content.length then
      some ((joined ((text.splitOn '\n').take line)).length + column)
    else none
  | _, _ => none

/-- An offset that may be anywhere, moved to the nearest one of the text. -/
def clamp (text : Text) (offset : Int) : Nat :=
  (max 0 (min offset text.length)).toNat

theorem length_splitOn (text : Text) : (text.splitOn '\n').length = text.count '\n' + 1 := by
  induction text with
  | nil => rfl
  | cons c rest ih =>
    rw [List.splitOn_cons_eq_if_modifyHead, List.count_cons]
    split
    · rw [List.length_cons, ih]
    · rw [List.length_modifyHead, ih, Nat.add_zero]

/-- A text can be cut behind each of its line feeds. -/
theorem exists_cut_of_le_count (h : line ≤ text.count '\n') :
    ∃ before after, text = before ++ after ∧ before.count '\n' = line ∧ lastLine before = [] := by
  induction line with
  | zero => exact ⟨[], text, rfl, rfl, rfl⟩
  | succ line ih =>
    obtain ⟨before, after, rfl, hcount, -⟩ := ih (Nat.le_of_succ_le h)
    have hfeed : '\n' ∈ after := by
      rw [List.count_append, hcount] at h
      exact List.count_pos_iff.mp (by omega)
    obtain ⟨first, rest, rfl, hfirst⟩ := List.eq_append_cons_of_mem hfeed
    refine ⟨before ++ first ++ ['\n'], rest, by simp, ?_, lastLine_append_feed _ []⟩
    simp [hcount, List.count_eq_zero.mpr hfirst]

/-- Where a line starts, the text is cut in the lines before it and what starts with it. -/
theorem exists_cut_of_line (h : (text.splitOn '\n')[line]? = some content) :
    ∃ before after, text = before ++ after ∧ before.count '\n' = line ∧ lastLine before = [] ∧
      firstLine after = content ∧ before = joined ((text.splitOn '\n').take line) := by
  have hlt := (List.getElem?_eq_some_iff.mp h).1
  rw [length_splitOn] at hlt
  obtain ⟨before, after, rfl, hcount, hlast⟩ := exists_cut_of_le_count (Nat.le_of_lt_succ hlt)
  obtain ⟨earlier, later, hlines, hlength, hjoined⟩ := exists_splitOn_append before after
  rw [hlast, List.nil_append] at hlines
  rw [hlast, List.append_nil] at hjoined
  have hearlier : earlier.length = line := hlength.trans hcount
  refine ⟨before, after, rfl, hcount, hlast, ?_, ?_⟩
  · rw [hlines, ← hearlier] at h
    simpa using h
  · rw [hlines, List.take_left' hearlier, ← hjoined]

theorem take_toNat_eq_take_clamp (text : Text) (offset : Int) :
    text.take offset.toNat = text.take (text.clamp offset) := by
  rw [List.take_eq_take_iff, clamp]
  omega

theorem length_take_clamp (text : Text) (offset : Int) :
    (text.take (text.clamp offset)).length = text.clamp offset := by
  rw [List.length_take, clamp]
  omega

end Text

/-! ### Places of a text -/

namespace Position

/-- A place stands before another one: on an earlier line, or on the same line in an earlier
column. -/
def Precedes (place other : Position) : Prop :=
  place.line < other.line ∨ place.line = other.line ∧ place.column < other.column

theorem precedes_behind (before : Text) {stretch : Text} (h : stretch ≠ []) :
    (behind before).Precedes (behind (before ++ stretch)) := by
  have hline : (behind (before ++ stretch)).line =
      (behind before).line + stretch.count '\n' := by
    simp only [behind, List.count_append]
    omega
  by_cases hfeed : '\n' ∈ stretch
  · have hpos := List.count_pos_iff.mpr hfeed
    exact .inl (by omega)
  · have hcolumn : (behind (before ++ stretch)).column =
        (behind before).column + stretch.length := by
      simp only [behind, Text.lastLine_append_of_not_mem before hfeed, List.length_append]
      omega
    have hpos := List.length_pos_iff.mpr h
    have hcount := List.count_eq_zero.mpr hfeed
    exact .inr ⟨by omega, by omega⟩

/-- The place behind a text is on its line and in its column, whatever follows. -/
theorem offset?_behind (before after : Text) :
    (before ++ after).offset? (behind before).line (behind before).column =
      some before.length := by
  obtain ⟨earlier, later, hlines, hlength, hjoined⟩ := Text.exists_splitOn_append before after
  have hline := Text.splitOn_getElem?_count before after
  have hfits : (Text.lastLine before).length ≤
      (Text.lastLine before ++ Text.firstLine after).length := by simp
  simp only [behind, Text.offset?, hline, Option.bind_eq_bind, Option.bind_some, if_pos hfits]
  rw [hlines, List.take_left' hlength, ← List.length_append, ← hjoined]

/-- A column of a line is the one of the place behind all that stands before it. -/
theorem behind_of_offset? {text : Text} {line column offset : Nat}
    (h : text.offset? line column = some offset) :
    offset ≤ text.length ∧ behind (text.take offset) = { line, column, offset } := by
  unfold Text.offset? at h
  split at h
  · next line column =>
    obtain ⟨content, hcontent, hoffset⟩ := Option.bind_eq_some_iff.mp h
    obtain ⟨before, after, htext, hcount, hlast, hfirst, hjoined⟩ :=
      Text.exists_cut_of_line hcontent
    rw [Option.ite_none_right_eq_some, ← hjoined, Option.some.injEq] at hoffset
    obtain ⟨hfits, rfl⟩ := hoffset
    obtain ⟨rest, hrest⟩ : content <+: after := hfirst ▸ List.takeWhile_prefix _
    have htake : text.take (before.length + column) = before ++ content.take column := by
      rw [htext, ← hrest, List.take_length_add_append, List.take_append_of_le_length hfits]
    -- what stands before the column on its line holds no line feed
    have hfree : '\n' ∉ content.take column := by
      rw [← hfirst]
      exact fun hmem => Text.not_mem_firstLine after (List.mem_of_mem_take hmem)
    refine ⟨?_, ?_⟩
    · rw [htext, ← hrest, List.length_append, List.length_append]
      omega
    · rw [htake]
      simp [behind, Text.lastLine_append_of_not_mem before hfree, hlast, hcount,
        List.count_eq_zero.mpr hfree, hfits]
  · cases h

end Position

/-! ### The table of a text -/

namespace LineIndex

variable {text content : Text}

theorem pairwise_startsFrom (offset : Nat) (text : Text) :
    (startsFrom offset text).Pairwise (· < ·) := by
  induction text generalizing offset with
  | nil => exact .nil
  | cons c rest ih =>
    rw [startsFrom]
    split
    · refine List.pairwise_cons.mpr ⟨?_, ih (offset + 1)⟩
      intro start hmem
      exact (bounds_of_mem_startsFrom hmem).1
    · exact ih (offset + 1)

theorem pairwise_starts (text : Text) : (ofText text).starts.Pairwise (· < ·) := by
  refine List.pairwise_cons.mpr ⟨?_, pairwise_startsFrom 0 text⟩
  intro start hmem
  exact (bounds_of_mem_startsFrom hmem).1

/-- A cut divides the table: the lines up to the one that is cut start before the cut or at it, the
others behind it. -/
theorem starts_divided (before after : Text) :
    (∀ start ∈ (ofText (before ++ after)).starts.take (Position.behind before).line,
        start ≤ before.length) ∧
      ∀ start ∈ (ofText (before ++ after)).starts.drop (Position.behind before).line,
        before.length < start := by
  have hstarts : (ofText (before ++ after)).starts =
      (0 :: startsFrom 0 before) ++ startsFrom before.length after := by
    show 0 :: startsFrom 0 (before ++ after) = _
    rw [startsFrom_append, Nat.zero_add, List.cons_append]
  have hreached : (0 :: startsFrom 0 before).length = (Position.behind before).line := by
    rw [List.length_cons, length_startsFrom]
    rfl
  rw [hstarts, List.take_left' hreached, List.drop_left' hreached]
  constructor
  · intro start hmem
    rcases List.mem_cons.mp hmem with rfl | hmem
    · exact Nat.zero_le _
    · have hbounds := bounds_of_mem_startsFrom hmem
      omega
  · intro start hmem
    exact (bounds_of_mem_startsFrom hmem).1

theorem lineText_of_getElem? {line : Nat} (h : (text.splitOn '\n')[line]? = some content) :
    (ofText text).lineText ((line + 1 : Nat) : Int) = Text.dropEndWhile (· == '\r') content := by
  obtain ⟨before, after, rfl, rfl, hlast, rfl, -⟩ := Text.exists_cut_of_line h
  rw [lineText_append, hlast, List.nil_append]

theorem lineText_of_not_exists {line : Int}
    (h : line < 1 ∨ ((text.splitOn '\n').length : Int) < line) :
    (ofText text).lineText line = [] := by
  rw [lineText]
  split
  · rfl
  · have hlength : (ofText text).starts.length = (text.splitOn '\n').length := by
      show (startsFrom 0 text).length + 1 = _
      rw [length_startsFrom, Text.length_splitOn]
    rw [List.drop_of_length_le (by omega)]

/-- What the index of a text gives for offsets and for lines. -/
structure Charts (text : Text) (index : LineIndex) : Prop where
  /-- The place of an offset is that of the nearest one in the text. Its line is told by the line
  feeds before it, its column by what stands behind the last of them. -/
  place : ∀ offset, index.position offset =
    { line := 1 + (text.take (text.clamp offset)).count '\n'
      column := 1 + ((text.take (text.clamp offset)).rtakeWhile (· != '\n')).length
      offset := text.clamp offset }
  /-- The line exists, and the column is one of it or just behind it. -/
  inside : ∀ offset, ∃ content,
    (text.splitOn '\n')[(index.position offset).line - 1]? = some content ∧
      (index.position offset).column - 1 ≤ content.length
  /-- A line and a column are those of an offset exactly if this is their offset. -/
  recovered : ∀ line column offset, text.offset? line column = some offset ↔
    offset ≤ text.length ∧ index.position offset = { line, column, offset }
  /-- Places follow each other as their offsets do. -/
  increasing : ∀ first second : Nat, first < second → second ≤ text.length →
    (index.position first).Precedes (index.position second)
  /-- The table is sorted, and no line starts twice. -/
  sorted : index.starts.Pairwise (· < ·)
  /-- The line of an offset is how many lines start before it or at it. -/
  searched : ∀ offset, (∀ start ∈ index.starts.take (index.position offset).line,
      start ≤ text.clamp offset) ∧
    ∀ start ∈ index.starts.drop (index.position offset).line, text.clamp offset < start
  /-- The text of a line is the line without the carriage returns at its end. -/
  line : ∀ (line : Nat) content, (text.splitOn '\n')[line]? = some content →
    index.lineText ((line + 1 : Nat) : Int) = Text.dropEndWhile (· == '\r') content
  /-- A line that does not exist has no text. -/
  noLine : ∀ line : Int, line < 1 ∨ ((text.splitOn '\n').length : Int) < line →
    index.lineText line = []

/-- The index of a text charts it: offsets, lines and columns are in bijection, in the same order,
and each line is found under its number. -/
theorem ofText_charts (text : Text) : Charts text (ofText text) := by
  have hplace : ∀ offset,
      (ofText text).position offset = .behind (text.take (text.clamp offset)) := by
    intro offset
    rw [position_ofText, Text.take_toNat_eq_take_clamp]
  have hnat : ∀ offset : Nat, (ofText text).position offset = .behind (text.take offset) :=
    fun offset => position_ofText text offset
  constructor
  case place =>
    intro offset
    rw [hplace, Position.behind, Text.length_take_clamp, Nat.add_comm, Nat.add_comm _ 1]
    rfl
  case inside =>
    intro offset
    rw [hplace]
    refine ⟨_, Text.splitOn_getElem?_take text _, ?_⟩
    simp [Position.behind]
  case recovered =>
    intro line column offset
    rw [hnat]
    refine ⟨Position.behind_of_offset?, ?_⟩
    rintro ⟨hle, hbehind⟩
    have hoffset := Position.offset?_behind (text.take offset) (text.drop offset)
    rwa [List.take_append_drop, List.length_take_of_le hle, hbehind] at hoffset
  case increasing =>
    intro first second hlt hle
    have hsplit : text.take second =
        text.take first ++ (text.drop first).take (second - first) := by
      rw [← List.take_add, Nat.add_sub_cancel' hlt.le]
    rw [hnat, hnat, hsplit]
    apply Position.precedes_behind
    rw [← List.length_pos_iff, List.length_take, List.length_drop]
    omega
  case sorted => exact pairwise_starts text
  case searched =>
    intro offset
    have hdivided := starts_divided (text.take (text.clamp offset)) (text.drop (text.clamp offset))
    rwa [List.take_append_drop, Text.length_take_clamp, ← hplace] at hdivided
  case line => exact fun line content => lineText_of_getElem?
  case noLine => exact fun line => lineText_of_not_exists

end LineIndex

end TapeMachine
