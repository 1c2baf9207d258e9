import Mathlib.Data.List.GetD
import TapeMachine.Tape.Snapshot

/-!
# TapeMachine.Proofs.Tape.Ideal

The tape without ends, and the row of cells that stands for it.

An ideal tape has a symbol at every integer. A `Tape` holds a finite stretch of one around its
head and grows as the head goes; that it stands for the ideal tape is the relation `Tape.Shows`,
which every operation keeps.

* `IdealTape` — a symbol at every integer, and the place of the head.
* `Tape.symbolAt` — the symbol at a distance from the head, blank beyond the row.
* `Tape.Shows` — the row agrees with an ideal tape, and the ideal tape is blank beyond the row.
* `IdealTape.Spells` — a text is what stands between the outermost symbols that are not blank.

Seen from the head, a move shifts all symbols by one and padding shows nothing new
(`symbolAt_move`), so that the margin, and with it the place of the head in the row, plays no part
in the proofs: it comes back only where `shows_iff` ties `symbolAt` to the row itself.
-/

namespace TapeMachine

/-- A tape without ends, with a head on one of its cells. -/
structure IdealTape where
  /-- The symbol of each cell. -/
  cells : Int → String
  /-- The cell under the head. -/
  head : Int

namespace IdealTape

/-- The tape with a text from cell zero on, one character a cell, and the head at its start. -/
def ofText (content : Text) : IdealTape :=
  { cells := fun place =>
      if place < 0 then Tape.blank
      else (content[place.toNat]?.map fun c => String.ofList [c]).getD Tape.blank
    head := 0 }

/-- The symbol under the head. -/
def current (ideal : IdealTape) : String :=
  ideal.cells ideal.head

/-- Writes a symbol under the head. -/
def write (ideal : IdealTape) (symbol : String) : IdealTape :=
  { ideal with cells := fun place => if place = ideal.head then symbol else ideal.cells place }

/-- Moves the head one cell. -/
def move (ideal : IdealTape) : Direction → IdealTape
  | .left => { ideal with head := ideal.head - 1 }
  | .right => { ideal with head := ideal.head + 1 }

/-- Every cell holds one character. -/
def Lettered (ideal : IdealTape) : Prop :=
  ∀ place, (ideal.cells place).length = 1

/-- A text is what stands from the first symbol that is not blank to the last one; where there is
none, it is empty. -/
def Spells (ideal : IdealTape) (text : Text) : Prop :=
  (text = [] ∧ ∀ place, ideal.cells place = Tape.blank) ∨
    ∃ first last : Int, first ≤ last ∧
      ideal.cells first ≠ Tape.blank ∧ ideal.cells last ≠ Tape.blank ∧
      (∀ place, place < first ∨ last < place → ideal.cells place = Tape.blank) ∧
      text = (List.range (last - first + 1).toNat).flatMap fun offset : Nat =>
        (ideal.cells (first + offset)).toList

end IdealTape

namespace Tape

/-! ### The symbols around the head -/

/-- The symbol at a distance from the head. Beyond the row everything is blank. -/
def symbolAt (tape : Tape) : Int → String
  | .ofNat 0 => tape.head
  | .ofNat (n + 1) => tape.right.getD n blank
  | .negSucc n => tape.left.getD n blank

/-- Blank cells at the end of a side show nothing new. -/
theorem getD_append_blanks (side : List String) (count n : Nat) :
    (side ++ blanks count).getD n blank = side.getD n blank := by
  by_cases hn : n < side.length
  · exact List.getD_append _ _ _ _ hn
  · rw [List.getD_append_right _ _ _ _ (Nat.le_of_not_lt hn),
      List.getD_eq_default _ _ (Nat.le_of_not_lt hn), blanks, List.getD_eq_getElem?_getD,
      List.getElem?_getD_replicate_default_eq]

theorem getD_pad (count : Nat) (side : List String) (n : Nat) :
    (pad count side).getD n blank = side.getD n blank := by
  unfold pad
  split
  · exact getD_append_blanks side 1 n
  · rfl

theorem symbolAt_write (tape : Tape) (symbol : String) (offset : Int) :
    (tape.write symbol).symbolAt offset = if offset = 0 then symbol else tape.symbolAt offset := by
  match offset with
  | .ofNat 0 => rfl
  | .ofNat (n + 1) =>
    rw [if_neg (by simp only [Int.ofNat_eq_natCast]; omega)]
    rfl
  | .negSucc n =>
    rw [if_neg (by omega)]
    rfl

theorem symbolAt_moveLeft (tape : Tape) (offset : Int) :
    tape.moveLeft.symbolAt offset = tape.symbolAt (offset - 1) := by
  match offset with
  | .ofNat 0 =>
    show tape.left.head?.getD blank = tape.left.getD 0 blank
    cases tape.left <;> rfl
  | .ofNat 1 => rfl
  | .ofNat (n + 2) =>
    have hplace : Int.ofNat (n + 2) - 1 = Int.ofNat (n + 1) := by
      simp only [Int.ofNat_eq_natCast]
      omega
    rw [hplace]
    rfl
  | .negSucc n =>
    show (pad tape.margin.width tape.left.tail).getD n blank = tape.left.getD (n + 1) blank
    rw [getD_pad]
    cases tape.left <;> rfl

theorem symbolAt_moveRight (tape : Tape) (offset : Int) :
    tape.moveRight.symbolAt offset = tape.symbolAt (offset + 1) := by
  match offset with
  | .ofNat 0 =>
    show tape.right.head?.getD blank = tape.right.getD 0 blank
    cases tape.right <;> rfl
  | .ofNat (n + 1) =>
    show (pad tape.margin.width tape.right.tail).getD n blank = tape.right.getD (n + 1) blank
    rw [getD_pad]
    cases tape.right <;> rfl
  | .negSucc 0 => rfl
  | .negSucc (n + 1) =>
    have hplace : Int.negSucc (n + 1) + 1 = Int.negSucc n := by omega
    rw [hplace]
    rfl

/-- The place in the row of a cell to the right of the head. -/
theorem cells_getElem?_right (tape : Tape) (n : Nat) :
    tape.cells[tape.pointer + (n + 1)]? = tape.right[n]? := by
  rw [cells, pointer, List.getElem?_append_right (by rw [List.length_reverse]; omega),
    List.length_reverse, Nat.add_sub_cancel_left, List.getElem?_cons_succ]

/-- The place in the row of a cell to the left of the head. -/
theorem cells_getElem?_left (tape : Tape) {n : Nat} (h : n < tape.pointer) :
    tape.cells[tape.pointer - (n + 1)]? = tape.left[n]? := by
  rw [pointer] at h
  have hplace : tape.left.length - (n + 1) < tape.left.reverse.length := by
    rw [List.length_reverse]
    omega
  rw [cells, pointer, List.getElem?_append_left hplace, List.getElem?_reverse (by omega)]
  congr 1
  omega

/-- The symbol at a distance from the head, by its place in the row. -/
theorem symbolAt_of_index (tape : Tape) (index : Nat) :
    tape.symbolAt (index - tape.pointer) = tape.cells.getD index blank := by
  rw [List.getD_eq_getElem?_getD]
  rcases Nat.lt_trichotomy index tape.pointer with hlt | heq | hgt
  · obtain ⟨n, hn⟩ : ∃ n, tape.pointer = index + (n + 1) := ⟨tape.pointer - index - 1, by omega⟩
    have hoffset : (index : Int) - tape.pointer = .negSucc n := by omega
    have hindex : index = tape.pointer - (n + 1) := by omega
    rw [hoffset, hindex, cells_getElem?_left tape (by omega)]
    exact List.getD_eq_getElem?_getD
  · have hoffset : (index : Int) - tape.pointer = 0 := by omega
    rw [hoffset, heq, cells_getElem?_pointer]
    rfl
  · obtain ⟨n, rfl⟩ : ∃ n, index = tape.pointer + (n + 1) := ⟨index - tape.pointer - 1, by omega⟩
    have hoffset : ((tape.pointer + (n + 1) : Nat) : Int) - tape.pointer = .ofNat (n + 1) := by
      simp only [Int.ofNat_eq_natCast]
      omega
    rw [hoffset, cells_getElem?_right]
    exact List.getD_eq_getElem?_getD

theorem symbolAt_of_lt (tape : Tape) {offset : Int} (h : offset < -tape.pointer) :
    tape.symbolAt offset = blank := by
  obtain ⟨n, rfl⟩ : ∃ n, offset = .negSucc n := ⟨(-offset - 1).toNat, by omega⟩
  exact List.getD_eq_default _ _ (by rw [pointer] at h; omega)

/-! ### What the row stands for -/

/-- The row agrees with an ideal tape, cell by cell from the head on, and beyond the row the ideal
tape is blank. -/
structure Shows (tape : Tape) (ideal : IdealTape) : Prop where
  /-- The cell at a place of the row is the one as far from the ideal head. -/
  inside : ∀ (index : Nat) (cell : String), tape.cells[index]? = some cell →
    ideal.cells (ideal.head + (index - tape.pointer)) = cell
  /-- The cells before and after the row are blank. -/
  outside : ∀ offset : Int, offset < -tape.pointer ∨ tape.cells.length - tape.pointer ≤ offset →
    ideal.cells (ideal.head + offset) = blank

variable {tape : Tape} {ideal : IdealTape}

/-- Seen from the head, a row shows an ideal tape if they have the same symbol at every
distance. -/
theorem shows_iff :
    tape.Shows ideal ↔ ∀ offset, ideal.cells (ideal.head + offset) = tape.symbolAt offset := by
  constructor
  · intro h offset
    -- a distance that does not lead before the row leads to one of its places or behind it
    by_cases hbefore : offset < -tape.pointer
    · rw [h.outside offset (Or.inl hbefore), symbolAt_of_lt tape hbefore]
    · obtain ⟨index, rfl⟩ : ∃ index : Nat, offset = index - tape.pointer :=
        ⟨(offset + tape.pointer).toNat, by omega⟩
      rw [symbolAt_of_index, List.getD_eq_getElem?_getD]
      cases hcell : tape.cells[index]? with
      | none =>
        have hbeyond := List.getElem?_eq_none_iff.mp hcell
        exact h.outside _ (Or.inr (by omega))
      | some cell => exact h.inside index cell hcell
  · intro h
    refine ⟨fun index cell hcell => ?_, fun offset hoffset => ?_⟩
    · rw [h, symbolAt_of_index, List.getD_eq_getElem?_getD, hcell]
      rfl
    · rw [h]
      rcases hoffset with hbefore | hafter
      · exact symbolAt_of_lt tape hbefore
      · have hpointer : tape.pointer ≤ tape.cells.length := by
          rw [cells_length, pointer]
          omega
        obtain ⟨index, rfl⟩ : ∃ index : Nat, offset = index - tape.pointer :=
          ⟨(offset + tape.pointer).toNat, by omega⟩
        rw [symbolAt_of_index, List.getD_eq_default _ _ (by omega)]

/-- A new tape shows the ideal one of the same content. -/
theorem shows_ofText (margin : Margin) (content : Text) :
    (ofText margin content).Shows (IdealTape.ofText content) := by
  rw [shows_iff]
  intro offset
  rw [show (IdealTape.ofText content).head + offset = offset from Int.zero_add offset]
  match offset with
  | .ofNat 0 => cases content <;> rfl
  | .ofNat (n + 1) =>
    show (content[n + 1]?.map fun c => String.ofList [c]).getD blank =
      ((content.map fun c => String.ofList [c]).tail ++ blanks margin.width).getD n blank
    rw [getD_append_blanks, List.getD_eq_getElem?_getD, List.getElem?_tail, List.getElem?_map]
  | .negSucc n =>
    show (if Int.negSucc n < 0 then blank else _) = (blanks margin.width).getD n blank
    rw [if_pos (Int.negSucc_lt_zero n)]
    exact (getD_append_blanks [] margin.width n).symm

namespace Shows

theorem current (h : tape.Shows ideal) : ideal.current = tape.head := by
  have hhead := shows_iff.mp h 0
  rwa [Int.add_zero] at hhead

theorem write (h : tape.Shows ideal) (symbol : String) :
    (tape.write symbol).Shows (ideal.write symbol) := by
  rw [shows_iff] at h ⊢
  intro offset
  rw [symbolAt_write]
  show (if ideal.head + offset = ideal.head then symbol else ideal.cells (ideal.head + offset)) = _
  by_cases hoffset : offset = 0
  · rw [if_pos (by omega), if_pos hoffset]
  · rw [if_neg (by omega), if_neg hoffset, h]

theorem move (h : tape.Shows ideal) (direction : Direction) :
    (tape.move direction).Shows (ideal.move direction) := by
  rw [shows_iff] at h ⊢
  intro offset
  cases direction with
  | left =>
    show ideal.cells (ideal.head - 1 + offset) = tape.moveLeft.symbolAt offset
    rw [symbolAt_moveLeft, ← h]
    congr 1
    omega
  | right =>
    show ideal.cells (ideal.head + 1 + offset) = tape.moveRight.symbolAt offset
    rw [symbolAt_moveRight, ← h]
    congr 1
    omega

end Shows

end Tape

/-! ### The text on a tape -/

/-- A text is put together from its characters, one for each of its places. -/
theorem Text.flatMap_range_eq {g : Nat → Text} {text : Text}
    (h : ∀ n c, text[n]? = some c → g n = [c]) : (List.range text.length).flatMap g = text := by
  induction text generalizing g with
  | nil => rfl
  | cons c rest ih =>
    have hrest := ih fun n d hd => h (n + 1) d hd
    rw [List.length_cons, List.range_succ_eq_map, List.flatMap_cons, List.flatMap_map, h 0 c rfl,
      hrest]
    rfl

/-- Cells of one character each are the cells of a text. -/
theorem Text.exists_map_eq_of_length_one {cells : List String}
    (h : ∀ cell ∈ cells, cell.length = 1) :
    ∃ letters : Text, cells = letters.map fun c => String.ofList [c] := by
  induction cells with
  | nil => exact ⟨[], rfl⟩
  | cons cell rest ih =>
    obtain ⟨letters, hletters⟩ := ih fun other hother => h other (List.mem_cons_of_mem _ hother)
    obtain ⟨c, hc⟩ := List.length_eq_one_iff.mp (h cell List.mem_cons_self)
    refine ⟨c :: letters, ?_⟩
    rw [List.map_cons, ← hletters, ← hc, String.ofList_toList]

namespace IdealTape

variable {ideal : IdealTape}

theorem lettered_ofText (content : Text) : (ofText content).Lettered := by
  intro place
  show (if place < 0 then Tape.blank
    else (content[place.toNat]?.map fun c => String.ofList [c]).getD Tape.blank).length = 1
  split
  · rfl
  · cases content[place.toNat]? with
    | none => rfl
    | some c => exact congrArg List.length (String.toList_ofList (l := [c]))

theorem Lettered.write (h : ideal.Lettered) {symbol : String} (hsymbol : symbol.length = 1) :
    (ideal.write symbol).Lettered := by
  intro place
  show (if place = ideal.head then symbol else ideal.cells place).length = 1
  split
  · exact hsymbol
  · exact h place

theorem Lettered.move (h : ideal.Lettered) (direction : Direction) :
    (ideal.move direction).Lettered := by
  cases direction with
  | left => exact h
  | right => exact h

theorem within_of_outside {first last place : Int}
    (h : ∀ place, place < first ∨ last < place → ideal.cells place = Tape.blank)
    (hplace : ideal.cells place ≠ Tape.blank) : first ≤ place ∧ place ≤ last := by
  constructor
  · rcases Int.lt_or_le place first with hlt | hle
    · exact absurd (h place (Or.inl hlt)) hplace
    · exact hle
  · rcases Int.lt_or_le last place with hlt | hle
    · exact absurd (h place (Or.inr hlt)) hplace
    · exact hle

/-- A tape spells one text only. -/
theorem Spells.unique {text other : Text} (h : ideal.Spells text) (hother : ideal.Spells other) :
    text = other := by
  rcases h with ⟨rfl, hblank⟩ | ⟨first, last, hle, hfirst, hlast, houtside, rfl⟩
  · rcases hother with ⟨rfl, -⟩ | ⟨first, _, -, hfirst, -, -, -⟩
    · rfl
    · exact absurd (hblank first) hfirst
  · rcases hother with ⟨-, hblank⟩ | ⟨first', last', hle', hfirst', hlast', houtside', rfl⟩
    · exact absurd (hblank first) hfirst
    · -- an outermost symbol of one stretch cannot lie beyond the other
      obtain rfl : first = first' := by
        have hfirst := (within_of_outside houtside' hfirst).1
        have hfirst' := (within_of_outside houtside hfirst').1
        omega
      obtain rfl : last = last' := by
        have hlast := (within_of_outside houtside' hlast).2
        have hlast' := (within_of_outside houtside hlast').2
        omega
      rfl

/-- A text stands on a tape from a place on, and everything else is blank. -/
structure Holds (ideal : IdealTape) (origin : Int) (text : Text) : Prop where
  inside : ∀ (n : Nat) (c : Char), text[n]? = some c →
    ideal.cells (origin + n) = String.ofList [c]
  outside : ∀ place, place < origin ∨ origin + text.length ≤ place →
    ideal.cells place = Tape.blank

namespace Holds

variable {origin : Int} {text : Text}

/-- Blanks at the ends of a text that stands on a tape can as well be counted to the rest of the
tape. -/
theorem drop_blanks {before after : Text} (h : ideal.Holds origin (before ++ text ++ after))
    (hbefore : ∀ c ∈ before, c = ' ') (hafter : ∀ c ∈ after, c = ' ') :
    ideal.Holds (origin + before.length) text := by
  refine ⟨fun n c hc => ?_, fun place hplace => ?_⟩
  · have hn := (List.getElem?_eq_some_iff.mp hc).1
    rw [Int.add_assoc]
    refine h.inside (before.length + n) c ?_
    rw [List.append_assoc, List.getElem?_append_right (by omega), Nat.add_sub_cancel_left,
      List.getElem?_append_left hn, hc]
  · by_cases hrow : place < origin ∨ origin + (before ++ text ++ after).length ≤ place
    · exact h.outside place hrow
    · simp only [List.length_append] at hrow
      -- the place is in the whole text, but in one of its blank ends
      obtain ⟨n, rfl⟩ : ∃ n : Nat, place = origin + n := ⟨(place - origin).toNat, by omega⟩
      refine h.inside n ' ' ?_
      rcases hplace with hplace | hplace
      · have hn : n < before.length := by omega
        rw [List.append_assoc, List.getElem?_append_left hn, List.getElem?_eq_getElem hn,
          hbefore _ (List.getElem_mem hn)]
      · have hn : n - (before ++ text).length < after.length := by
          rw [List.length_append]
          omega
        rw [List.getElem?_append_right (by rw [List.length_append]; omega),
          List.getElem?_eq_getElem hn, hafter _ (List.getElem_mem hn)]

theorem ne_blank (h : ideal.Holds origin text) {n : Nat} {c : Char} (hc : text[n]? = some c)
    (hne : c ≠ ' ') : ideal.cells (origin + n) ≠ Tape.blank := by
  intro hcell
  rw [h.inside n c hc] at hcell
  exact hne (List.singleton_inj.mp (String.ofList_injective hcell))

/-- A text without blanks at its ends is what the tape spells. -/
theorem spells (h : ideal.Holds origin text) (hhead : ∀ c, text.head? = some c → c ≠ ' ')
    (hlast : ∀ c, text.getLast? = some c → c ≠ ' ') : ideal.Spells text := by
  by_cases hempty : text = []
  · subst hempty
    refine Or.inl ⟨rfl, fun place => h.outside place ?_⟩
    rw [List.length_nil]
    omega
  · have hpos : 0 < text.length := List.length_pos_iff.mpr hempty
    refine Or.inr ⟨origin, origin + (text.length - 1 : Nat), by omega, ?_, ?_, ?_, ?_⟩
    · have hc : text[0]? = some (text.head hempty) := by
        rw [← List.head?_eq_getElem?, List.head?_eq_some_head]
      have hne := h.ne_blank hc (hhead _ (List.head?_eq_some_head hempty))
      rwa [Int.natCast_zero, Int.add_zero] at hne
    · have hc : text[text.length - 1]? = some (text.getLast hempty) := by
        rw [← List.getLast?_eq_getElem?, List.getLast?_eq_some_getLast]
      exact h.ne_blank hc (hlast _ (List.getLast?_eq_some_getLast hempty))
    · intro place hplace
      exact h.outside place (by omega)
    · have hwidth : (origin + (text.length - 1 : Nat) - origin + 1).toNat = text.length := by
        omega
      rw [hwidth, Text.flatMap_range_eq]
      intro n c hc
      rw [h.inside n c hc, String.toList_ofList]

/-- A tape spells the text that stands on it, without the blanks at its ends. -/
theorem spells_trim (h : ideal.Holds origin text) :
    ideal.Spells (Text.trim (· == ' ') text) := by
  obtain ⟨before, after, hsplit, hbefore, hafter⟩ :=
    Text.exists_eq_append_trim_append (· == ' ') text
  rw [hsplit] at h
  have hrest := h.drop_blanks (fun c hc => eq_of_beq (hbefore c hc))
    (fun c hc => eq_of_beq (hafter c hc))
  refine hrest.spells (fun c hc => ?_) (fun c hc => ?_)
  · have hne := Text.not_of_head?_trim hc
    exact ne_of_beq_false hne
  · have hne := Text.not_of_getLast?_trim hc
    exact ne_of_beq_false hne

end Holds

end IdealTape

namespace Tape

/-- Every cell of the row holds one character. -/
def Lettered (tape : Tape) : Prop :=
  ∀ cell ∈ tape.cells, cell.length = 1

/-- Where every cell holds one character, a snapshot has the characters of the row, cell by
cell. -/
theorem Lettered.cells_eq {tape : Tape} (h : tape.Lettered) :
    tape.cells = tape.snapshot.cells.map fun c => String.ofList [c] := by
  obtain ⟨letters, hcells⟩ := Text.exists_map_eq_of_length_one h
  have htext : tape.snapshot.cells = letters := by
    show tape.cells.flatMap String.toList = letters
    rw [hcells, List.flatMap_map]
    simp
  rw [htext, hcells]

theorem Shows.lettered {tape : Tape} {ideal : IdealTape} (h : tape.Shows ideal)
    (hletters : ideal.Lettered) : tape.Lettered := by
  intro cell hcell
  obtain ⟨index, hindex⟩ := List.mem_iff_getElem?.mp hcell
  rw [← h.inside index cell hindex]
  exact hletters _

/-- If every cell holds one character, then the content of a row is what the tape it shows
spells. -/
theorem Shows.spells_content {tape : Tape} {ideal : IdealTape} (h : tape.Shows ideal)
    (hletters : ideal.Lettered) : ideal.Spells tape.snapshot.content := by
  have hcells := (h.lettered hletters).cells_eq
  have hlength : tape.cells.length = tape.snapshot.cells.length := by
    rw [hcells, List.length_map]
  have hholds : ideal.Holds (ideal.head - tape.pointer) tape.snapshot.cells := by
    refine ⟨fun n c hn => ?_, fun place hplace => ?_⟩
    · have hcell : tape.cells[n]? = some (String.ofList [c]) := by
        rw [hcells, List.getElem?_map, hn]
        rfl
      rw [← h.inside n _ hcell]
      congr 1
      omega
    · rw [← h.outside (place - ideal.head) (by omega)]
      congr 1
      omega
  exact hholds.spells_trim

end Tape

end TapeMachine
