import TapeMachine.Diagnostic.Report
import TapeMachine.Proofs.Text.Lines

/-!
# TapeMachine.Proofs.Diagnostic.Carets

The carets of an excerpt stand under the characters that a diagnostic is about.

An excerpt ends with two lines that start alike: the source line behind its number, and the carets
behind as many blanks. So carets are counted in columns of the source line. They mark the characters
of the span that this line shows. Where it shows none of them, because the span is empty, goes on
from the end of the line, or starts among the carriage returns that are not shown, there is one
caret all the same.

* `Diagnostic.numberedGutter`, `Diagnostic.blankGutter` — what the two lines start with.
* `Diagnostic.excerpt_eq` — the whole excerpt, its first two lines spelled out.
* `Diagnostic.Underlines` — the carets mark what a span selects of a line.
-/

namespace TapeMachine.Diagnostic

/-- What stands before the source line: its number and a bar. -/
def numberedGutter (line : Nat) : Text :=
  (toString line).toList ++ " | ".toList

/-- What stands before the carets: the same, with blanks for the digits. -/
def blankGutter (line : Nat) : Text :=
  List.replicate (toString line).length ' ' ++ " | ".toList

/-- What stands before the name of the file: an arrow, with blanks for the digits. -/
def arrow (line : Nat) : String :=
  String.ofList (List.replicate (toString line).length ' ') ++ " --> "

/-- Some carets, the first of them in the given column. -/
def caretRow (column count : Nat) : Text :=
  List.replicate (column - 1) ' ' ++ List.replicate count '^'

/-- Some carets mark what a span selects of the line at its place, as far as that is shown. -/
structure Underlines (source : Text) (span : Span) (place : Position) (shown : Text) (count : Nat) :
    Prop where
  /-- The line is shown as it stands in the source, without the carriage returns at its end. -/
  line : ∃ line, (source.splitOn '\n')[place.line - 1]? = some line ∧
    shown = Text.dropEndWhile (· == '\r') line
  /-- There is always a caret. -/
  positive : 1 ≤ count
  /-- If the span starts with a character that is shown, then the carets are under the characters
  that are shown and belong to it. The line starts at some offset, from which its columns count. -/
  marks : place.column - 1 < shown.length → 1 ≤ span.length →
    ∃ start, start + (place.column - 1) = place.offset ∧
      (∀ column < shown.length, shown[column]? = source[start + column]?) ∧
      ∀ column, (caretRow place.column count)[column]? = some '^' ↔
        column < shown.length ∧ place.offset ≤ start + column ∧
          ((start + column : Nat) : Int) < place.offset + span.length
  /-- Otherwise there is only one. -/
  lone : ¬ (place.column - 1 < shown.length ∧ 1 ≤ span.length) → count = 1
  /-- Several carets never go past what is shown. -/
  within : place.column - 1 + count ≤ shown.length ∨ count = 1

theorem length_numberedGutter (line : Nat) :
    (numberedGutter line).length = (blankGutter line).length := by
  rw [numberedGutter, blankGutter, List.length_append, List.length_append, List.length_replicate,
    String.length_toList]

/-! ### The lines of an excerpt -/

theorem toList_copies (count : Nat) (c : Char) :
    (copies count c).toList = List.replicate count c :=
  String.toList_ofList

theorem toList_sourceLine (line : Nat) (text : Text) :
    (sourceLine line text).toList = numberedGutter line ++ text := by
  simp [sourceLine, numberedGutter]

theorem toList_gutter (line : Nat) :
    (gutter line).toList = List.replicate (toString line).length ' ' ++ [' '] := by
  rw [gutter, toList_copies, List.replicate_succ']

theorem toList_caretLine (place : Position) (width : Nat) (length : Int) :
    (caretLine place width length).toList =
      blankGutter place.line ++ caretRow place.column (caretCount length width place.column) := by
  simp only [caretLine, String.toList_append, toList_gutter, toList_copies, blankGutter, caretRow,
    List.append_assoc]
  rfl

/-- Two lines at the end of a text are its last two. -/
theorem splitOn_two_lines (above : Text) {first second : Text} (hfirst : '\n' ∉ first)
    (hsecond : '\n' ∉ second) :
    (above ++ '\n' :: (first ++ '\n' :: second)).splitOn '\n' =
      above.splitOn '\n' ++ [first, second] := by
  rw [List.splitOn_append_cons_self, List.splitOn_append_cons_self,
    List.splitOn_eq_singleton hfirst, List.splitOn_eq_singleton hsecond]
  rfl

theorem feed_not_mem_numberedGutter (line : Nat) : '\n' ∉ numberedGutter line := by
  intro hmem
  rcases List.mem_append.mp hmem with hmem | hmem
  · have hdigit := Nat.isDigit_of_mem_toDigits (by decide) (by decide) (Nat.toList_repr ▸ hmem)
    exact absurd hdigit (by decide)
  · exact absurd hmem (by decide)

theorem feed_not_mem_caretLine (line column count : Nat) :
    '\n' ∉ blankGutter line ++ caretRow column count := by
  simp [blankGutter, caretRow]

theorem feed_not_mem_dropEndWhile {text : Text} (h : '\n' ∉ text) (p : Char → Bool) :
    '\n' ∉ Text.dropEndWhile p text := by
  obtain ⟨dropped, htext, -⟩ := Text.exists_eq_dropEndWhile_append p text
  intro hmem
  exact h (htext ▸ List.mem_append_left _ hmem)

theorem placeLine_eq (filename : String) (place : Position) :
    placeLine filename place =
      arrow place.line ++ filename ++ ":" ++ toString place.line ++ ":" ++
        toString place.column := by
  have harrow : gutter place.line ++ "--> " = arrow place.line := by
    apply String.toList_inj.mp
    simp [toList_gutter, arrow]
  rw [placeLine, harrow]

/-- The parts of an excerpt: what is wrong, where, and the picture. -/
theorem excerpt_eq (index : LineIndex) (filename : String) {diagnostic : Diagnostic} {span : Span}
    {message : String} (hplace : diagnostic.place = some span)
    (hmessage : diagnostic.message = .ok message) :
    let place := index.position span.position
    let shown := index.lineText place.line
    diagnostic.excerpt index filename =
      .ok ("error: " ++ message ++ "\n" ++ arrow place.line ++ filename ++ ":" ++
        toString place.line ++ ":" ++ toString place.column ++ "\n" ++
        (gutter place.line ++ "|" ++
          ("\n" ++ (sourceLine place.line shown ++
            ("\n" ++ caretLine place shown.length span.length))))) := by
  have hbar : "|\n" = "|" ++ "\n" := by decide
  rw [excerpt, hmessage, hplace]
  simp only [hbar, placeLine_eq, String.append_assoc]
  rfl

/-- The last two lines of an excerpt are the line at its place and the carets. -/
theorem exists_excerpt_lines (source : Text) (filename : String) {diagnostic : Diagnostic}
    {span : Span} {message : String} (hplace : diagnostic.place = some span)
    (hmessage : diagnostic.message = .ok message) {place : Position} {shown : Text}
    (hposition : (LineIndex.ofText source).position span.position = place)
    (hshown : (LineIndex.ofText source).lineText place.line = shown) (hfree : '\n' ∉ shown) :
    ∃ text above, diagnostic.excerpt (LineIndex.ofText source) filename = .ok text ∧
      text.toList.splitOn '\n' = above ++
        [numberedGutter place.line ++ shown,
          blankGutter place.line ++
            caretRow place.column (caretCount span.length shown.length place.column)] := by
  have hline : '\n' ∉ numberedGutter place.line ++ shown := by
    rw [List.mem_append]
    exact fun hmem => hmem.elim (feed_not_mem_numberedGutter _) hfree
  have hcarets := feed_not_mem_caretLine place.line place.column
    (caretCount span.length shown.length place.column)
  obtain ⟨head, hexcerpt⟩ : ∃ head, diagnostic.excerpt (LineIndex.ofText source) filename =
      .ok (head ++ ("\n" ++ (sourceLine place.line shown ++
        ("\n" ++ caretLine place shown.length span.length)))) := by
    rw [excerpt_eq (LineIndex.ofText source) filename hplace hmessage]
    simp only [hposition, hshown]
    exact ⟨_, congrArg Except.ok String.append_assoc.symm⟩
  refine ⟨_, head.toList.splitOn '\n', hexcerpt, ?_⟩
  have hfeed : "\n".toList = ['\n'] := by decide
  simp only [String.toList_append, toList_sourceLine, toList_caretLine, hfeed,
    List.singleton_append]
  exact splitOn_two_lines _ hline hcarets

/-! ### The carets -/

theorem getElem?_caretRow (column count index : Nat) :
    (caretRow column count)[index]? = some '^' ↔
      column - 1 ≤ index ∧ index < column - 1 + count := by
  rw [caretRow, List.getElem?_append, List.length_replicate]
  split
  · next hlt =>
    rw [List.getElem?_replicate, if_pos hlt]
    simp
    omega
  · next hge =>
    rw [List.getElem?_replicate]
    split
    · simp
      omega
    · simp
      omega

/-- From a column that is shown on, there is a caret for each character of the stretch that is. -/
theorem caretCount_of_inside {length : Int} {width column : Nat} (hcolumn : 1 ≤ column)
    (hinside : column - 1 < width) (hlength : 1 ≤ length) :
    (caretCount length width column : Int) = min length (width - (column - 1 : Nat)) := by
  unfold caretCount
  omega

theorem caretCount_of_outside {length : Int} {width column : Nat}
    (h : ¬ (column - 1 < width ∧ 1 ≤ length)) : caretCount length width column = 1 := by
  unfold caretCount
  omega

/-- The columns of the line at a cut count from the offset at which the line starts. -/
theorem getElem?_shown (before after : Text) {column : Nat}
    (h : column < (Text.dropEndWhile (· == '\r')
      (Text.lastLine before ++ Text.firstLine after)).length) :
    (Text.dropEndWhile (· == '\r') (Text.lastLine before ++ Text.firstLine after))[column]? =
      (before ++ after)[before.length - (Text.lastLine before).length + column]? := by
  obtain ⟨dropped, hline, -⟩ := Text.exists_eq_dropEndWhile_append (· == '\r')
    (Text.lastLine before ++ Text.firstLine after)
  have hcut := Text.drop_take_lastLine before after (Text.firstLine after).length
  rw [Text.take_length_firstLine] at hcut
  have hlength := congrArg List.length hline
  rw [List.length_append, List.length_append] at hlength
  have hprefix := (List.getElem?_append_left h : (_ ++ dropped)[column]? = _)
  rw [← hprefix, ← hline, ← hcut, List.getElem?_take_of_lt (by omega), List.getElem?_drop]

/-- At any cut of a source, an excerpt has the carets that it should have. -/
theorem underlines_append (before after : Text) (span : Span) :
    let place := Position.behind before
    let shown := Text.dropEndWhile (· == '\r') (Text.lastLine before ++ Text.firstLine after)
    Underlines (before ++ after) span place shown
      (caretCount span.length shown.length place.column) := by
  intro place shown
  have hle := Text.length_lastLine_le before
  have hcolumn : place.column = (Text.lastLine before).length + 1 := rfl
  have hoffset : place.offset = before.length := rfl
  refine ⟨⟨_, Text.splitOn_getElem?_count before after, rfl⟩, caretCount_pos .., ?_,
    caretCount_of_outside, ?_⟩
  · intro hinside hlength
    have hcount := caretCount_of_inside (hcolumn ▸ Nat.succ_pos _) hinside hlength
    refine ⟨before.length - (Text.lastLine before).length, by omega, ?_, ?_⟩
    · intro column hshown
      exact getElem?_shown before after hshown
    · intro column
      rw [getElem?_caretRow]
      omega
  · by_cases hmarks : place.column - 1 < shown.length ∧ 1 ≤ span.length
    · have hcount := caretCount_of_inside (hcolumn ▸ Nat.succ_pos _) hmarks.1 hmarks.2
      omega
    · exact .inr (caretCount_of_outside hmarks)

/-- The carets of an excerpt stand under the characters that the diagnostic is about. -/
theorem excerpt_underlines_stretch (source : Text) (filename : String) {diagnostic : Diagnostic}
    {span : Span} {message : String} (hplace : diagnostic.place = some span)
    (hmessage : diagnostic.message = .ok message) :
    let place := Position.behind (source.take (min span.position.toNat source.length))
    (numberedGutter place.line).length = (blankGutter place.line).length ∧
    ∃ text above shown count,
      diagnostic.excerpt (LineIndex.ofText source) filename = .ok text ∧
      text.toList.splitOn '\n' = above ++
        [numberedGutter place.line ++ shown,
          blankGutter place.line ++ caretRow place.column count] ∧
      Underlines source span place shown count := by
  have hposition := LineIndex.position_ofText source span.position
  have hshown := LineIndex.lineText_append (source.take span.position.toNat)
    (source.drop span.position.toNat)
  have hmarks := underlines_append (source.take span.position.toNat)
    (source.drop span.position.toNat) span
  rw [List.take_append_drop] at hshown hmarks
  have hclamped : source.take (min span.position.toNat source.length) =
      source.take span.position.toNat := by
    rw [← List.take_take, List.take_length]
  rw [hclamped]
  intro place
  refine ⟨length_numberedGutter _, ?_⟩
  obtain ⟨text, above, hexcerpt, hlines⟩ := exists_excerpt_lines source filename hplace hmessage
    hposition hshown (feed_not_mem_dropEndWhile (Text.not_mem_line _ _) _)
  exact ⟨text, above, _, _, hexcerpt, hlines, hmarks⟩

/-- Is said to go on past the end of its source. -/
def overlong : Diagnostic :=
  { kind := .lexical .illegalCharacter, place := some ⟨3, 9⟩, value := "" }

/-- Three lines, the second with a carriage return at its end. -/
def stanza : Text :=
  ['a', '\n', '#', 'b', 'c', '\r', '\n', 'd']

/-- The carets stop with the second line, before its carriage return. -/
theorem excerpt_underlines_stretch_overlong :
    overlong.place = some ⟨3, 9⟩ ∧ overlong.message = .ok "illegal character" ∧
      overlong.excerpt (LineIndex.ofText stanza) "x.tm" =
        .ok "error: illegal character\n  --> x.tm:2:2\n  |\n2 | #bc\n  |  ^^" ∧
      ∃ text above shown count,
        overlong.excerpt (LineIndex.ofText stanza) "x.tm" = .ok text ∧
        text.toList.splitOn '\n' =
          above ++ [numberedGutter 2 ++ shown, blankGutter 2 ++ caretRow 2 count] ∧
        Underlines stanza ⟨3, 9⟩ ⟨2, 2, 3⟩ shown count := by
  have hmessage : overlong.message = .ok "illegal character" := by decide +kernel
  have hmarks := (excerpt_underlines_stretch stanza "x.tm" (rfl : overlong.place = _) hmessage).2
  rw [show Position.behind (stanza.take (min (3 : Int).toNat stanza.length)) = ⟨2, 2, 3⟩ by
    decide] at hmarks
  exact ⟨rfl, hmessage, by decide +kernel, hmarks⟩

end TapeMachine.Diagnostic
