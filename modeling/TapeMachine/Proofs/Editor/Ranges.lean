import TapeMachine.Proofs.Diagnostic.Carets
import TapeMachine.Proofs.Diagnostic.Reporting
import TapeMachine.Proofs.Diagnostic.ScanOrder

/-!
# TapeMachine.Proofs.Editor.Ranges

The ranges of an editor select what diagnostics are about.

An editor names a place by its line and by the code units before it in that line. Such a mark is
read back by counting characters until their units add up, which fails inside a character
(`Encoding.chars?`), and by adding up the lines before (`Mark.offset?`). The marks of a notice are
read back as the offsets at which the stretch of its diagnostic starts and ends.

* `Mark.Stands` — a mark is one of a document, and reading it back gives an offset.
* `Codec.Counts` — all that is assumed of the codec of an editor. That of an encoding is one of this
  sort (`Encoding.counts_codec`).
* `Notice.Selects` — the range of a notice is the stretch of a diagnostic.

Both marks are made from the table of line starts, so they are those of texts that are cut off
(`Codec.Counts.toUnits_position`). That a stretch starts within the document is a fact about the
lexer and the parser (`Compilation.position_inside`).
-/

namespace TapeMachine

/-! ### Reading marks back -/

namespace Encoding

/-- The number of characters at the head of a text that have the given number of units together;
`none` where that is inside a character or behind the text. -/
def chars? (encoding : Encoding) : Text → Nat → Option Nat
  | [], units => if units = 0 then some 0 else none
  | c :: rest, units =>
    if units = 0 then some 0
    else if encoding.charUnits c ≤ units then
      (chars? encoding rest (units - encoding.charUnits c)).map (· + 1)
    else none

theorem chars?_append (encoding : Encoding) (before after : Text) :
    encoding.chars? (before ++ after) (encoding.units before) = some before.length := by
  induction before with
  | nil => cases after <;> simp [chars?]
  | cons c before ih =>
    have hpos := encoding.charUnits_pos c
    rw [List.cons_append, chars?, units_cons, if_neg (by omega), if_pos (by omega),
      Nat.add_sub_cancel_left, ih]
    rfl

theorem units_pos (encoding : Encoding) {text : Text} (h : text ≠ []) :
    0 < encoding.units text := by
  cases text with
  | nil => exact absurd rfl h
  | cons c rest =>
    have hpos := encoding.charUnits_pos c
    rw [units_cons]
    omega

end Encoding

namespace Mark

/-- The offset of a mark in a document with the given lines, if it stands between characters of one
of them: the lines before it, each with its line feed, and the characters before it. -/
def offset? (encoding : Encoding) (lines : List Text) (mark : Mark) : Option Nat := do
  let line ← lines[mark.line]?
  let count ← encoding.chars? line mark.character
  return (Text.joined (lines.take mark.line)).length + count

/-- A mark of a document, which is read back as an offset. -/
structure Stands (encoding : Encoding) (source : Text) (mark : Mark) (offset : Nat) : Prop where
  /-- It is on a line, with some characters of that line before it. -/
  inside : ∃ line count, (source.splitOn '\n')[mark.line]? = some line ∧ count ≤ line.length ∧
    mark.character = encoding.units (line.take count)
  /-- It is read back as that offset. -/
  offset : mark.offset? encoding (source.splitOn '\n') = some offset

/-- A mark stands before another one, or both are the same. -/
def Precedes (mark other : Mark) : Prop :=
  mark.line < other.line ∨ mark.line = other.line ∧ mark.character ≤ other.character

/-- The mark behind a text. -/
def behind (encoding : Encoding) (before : Text) : Mark :=
  { line := before.count '\n', character := encoding.units (Text.lastLine before) }

theorem stands_behind (encoding : Encoding) (before after : Text) :
    Stands encoding (before ++ after) (behind encoding before) before.length := by
  obtain ⟨earlier, later, hlines, hcount, hjoined⟩ := Text.exists_splitOn_append before after
  have hline := Text.splitOn_getElem?_count before after
  refine ⟨⟨_, (Text.lastLine before).length, hline, ?_, ?_⟩, ?_⟩
  · rw [List.length_append]
    exact Nat.le_add_right ..
  · rw [List.take_left]
    rfl
  · simp only [offset?, behind, hline, Option.bind_eq_bind, Option.bind_some,
      encoding.chars?_append]
    rw [hlines, List.take_left' hcount, ← List.length_append, ← hjoined]
    rfl

/-- Behind more text the mark is further on, unless there is none. -/
theorem precedes_behind (encoding : Encoding) (before stretch : Text) :
    (behind encoding before).Precedes (behind encoding (before ++ stretch)) ∧
      (behind encoding before = behind encoding (before ++ stretch) → stretch = []) := by
  have hline : (behind encoding (before ++ stretch)).line =
      (behind encoding before).line + stretch.count '\n' := List.count_append
  by_cases hfeed : '\n' ∈ stretch
  · have hpos := List.count_pos_iff.mpr hfeed
    refine ⟨.inl (by omega), fun heq => ?_⟩
    rw [← heq] at hline
    omega
  · have hcharacter : (behind encoding (before ++ stretch)).character =
        (behind encoding before).character + encoding.units stretch := by
      show encoding.units (Text.lastLine (before ++ stretch)) = _
      rw [Text.lastLine_append_of_not_mem before hfeed, Encoding.units_append]
      rfl
    have hcount := List.count_eq_zero.mpr hfeed
    refine ⟨.inr ⟨by omega, by omega⟩, fun heq => ?_⟩
    by_contra hne
    have hunits := encoding.units_pos hne
    rw [← heq] at hcharacter
    omega

end Mark

/-! ### Codecs -/

/-- A codec counts in the units of an encoding: it keeps the line of a mark, and counts the units of
the characters before it. -/
def Codec.Counts (codec : Codec) (encoding : Encoding) : Prop :=
  ∀ (lines : List Text) (mark : Mark) (line : Text), lines[mark.line]? = some line →
    mark.character ≤ line.length → codec.toUnits lines mark =
      { line := mark.line, character := encoding.units (line.take mark.character) }

theorem Encoding.counts_codec (encoding : Encoding) : encoding.codec.Counts encoding := by
  intro lines mark line hline _
  simp only [codec, hline, Option.getD_some]

/-- The mark of an offset is the one behind the text that it cuts off. -/
theorem Codec.Counts.toUnits_position {codec : Codec} {encoding : Encoding}
    (h : codec.Counts encoding) (source : Text) (offset : Int) :
    codec.toUnits (source.splitOn '\n')
        (.ofPosition ((LineIndex.ofText source).position offset)) =
      .behind encoding (source.take offset.toNat) := by
  have hline := Text.splitOn_getElem?_take source offset.toNat
  rw [LineIndex.position_ofText, h _ _ _ hline]
  · simp only [Mark.ofPosition, Position.behind, Nat.add_sub_cancel, List.take_left, Mark.behind]
  · simp [Mark.ofPosition, Position.behind]

/-! ### Stretches start in the document -/

/-- A token that a text is read into was read from some of its characters, or it is the end. -/
theorem Token.readAt_or_ending_of_mem {source : Text} {token : Token}
    (h : token ∈ Token.ofText source) :
    (∃ start stop, token.ReadAt source start stop) ∨ token = Token.ending source.length := by
  obtain ⟨tokens, htokens, htiles⟩ := Token.tiles_ofTextAt 0 source rfl (Nat.zero_le _)
  have hsource : Token.ofText source = tokens ++ [Token.ending source.length] := htokens
  rw [hsource, List.mem_append, List.mem_singleton] at h
  rcases h with hmem | hending
  · obtain ⟨start, stop, -, hread⟩ := htiles.readAt token hmem
    exact .inl ⟨start, stop, hread⟩
  · exact .inr hending

namespace Compilation

theorem span_inside_of_mem {source : Text} {token : Token} (h : token ∈ Token.ofText source) :
    0 ≤ token.span.position ∧ token.span.position ≤ source.length := by
  rcases Token.readAt_or_ending_of_mem h with ⟨start, stop, hread⟩ | rfl
  · have hfirst := hread.le_position
    have hlast := hread.position_le
    have hle := hread.le
    omega
  · exact ⟨Int.natCast_nonneg _, Int.le_refl _⟩

/-- An error token of a text carries its fault, so it is reported. -/
theorem kind_ne_error_of_lexicalProblems {source : Text}
    (h : lexicalProblems (Token.ofText source) = []) :
    ∀ token ∈ Token.ofText source, token.kind ≠ .error := by
  intro token htoken hkind
  have hnone := List.filterMap_eq_nil_iff.mp h token
    (List.mem_filter.mpr ⟨htoken, by simp [hkind]⟩)
  rcases Token.readAt_or_ending_of_mem htoken with ⟨start, stop, hread⟩ | rfl
  · obtain ⟨fault, hfault, -⟩ := hread.faulty hkind
    rw [Diagnostic.ofToken?, hfault] at hnone
    cases hnone
  · cases hkind

/-- What a diagnostic is about starts in the text or at its end. -/
theorem position_inside {source : Text} {diagnostic : Diagnostic}
    (h : diagnostic ∈ (ofText source).diagnostics) {span : Span}
    (hplace : diagnostic.place = some span) :
    0 ≤ span.position ∧ span.position ≤ source.length := by
  cases hproblems : lexicalProblems (Token.ofText source) with
  | cons problem more =>
    have hmem : diagnostic ∈ lexicalProblems (Token.ofText source) := by
      simpa [ofText, hproblems] using h
    obtain ⟨token, htoken, hdiagnostic⟩ := List.mem_filterMap.mp hmem
    obtain ⟨fault, -, rfl⟩ := Option.map_eq_some_iff.mp hdiagnostic
    obtain rfl := Option.some.inj hplace
    exact span_inside_of_mem (List.mem_of_mem_filter htoken)
  | nil =>
    have hclean := kind_ne_error_of_lexicalProblems hproblems
    have hbody := Body.inText_ofText hclean
    rw [(ofText_of_no_error hclean).1] at h
    have hlocated : ∀ initial place, diagnostic.Located source initial place →
        0 ≤ span.position ∧ span.position ≤ source.length := by
      intro initial place hlocated
      obtain rfl := Option.some.inj (hplace.symm.trans hlocated.place)
      have hinside := hlocated.inside
      omega
    rcases List.mem_append.mp h with hmem | hmem
    · rcases List.mem_append.mp hmem with hmem | hmem
      · obtain ⟨place, hplaced⟩ := hbody.located_repeated "" hmem
        exact hlocated _ _ hplaced
      · obtain ⟨here, hhere, hpoints⟩ := (Definition.trail_readAll _ _ _ _).exists_pointsAt hmem
        exact hlocated _ _ (hbody.located hhere hpoints)
    · rcases Program.initialProblems_cases _ with hnone | hwhole
      · rw [hnone] at hmem
        cases hmem
      · rw [hwhole, List.mem_singleton] at hmem
        subst hmem
        cases hplace

end Compilation

/-! ### Notices -/

namespace Notice

/-- The range of a notice is the stretch that a diagnostic is about, at least one character of it as
far as the document reaches, and starts where the report says. -/
structure Selects (encoding : Encoding) (source : Text) (diagnostic : Diagnostic) (span : Span)
    (notice : Notice) : Prop where
  /-- It starts where the stretch does. -/
  start : ∃ offset : Nat, (offset : Int) = span.position ∧
    notice.start.Stands encoding source offset
  /-- It ends where the stretch does. -/
  stop : ∃ offset : Nat,
    (offset : Int) = min (source.length : Int) (span.position + max 1 span.length) ∧
    notice.stop.Stands encoding source offset
  /-- Its start does not stand behind its end. -/
  ordered : notice.start.Precedes notice.stop
  /-- The two are the same only at the end of the document. -/
  empty : notice.start = notice.stop → span.position = source.length
  /-- The report on the diagnostic names the place at which it starts, by line and column. -/
  printed : ∀ filename, ∃ line column rest,
    diagnostic.excerpt (LineIndex.ofText source) filename =
        .ok ("error: " ++ notice.message ++ "\n" ++ Diagnostic.arrow line ++ filename ++ ":" ++
          toString line ++ ":" ++ toString column ++ "\n" ++ rest) ∧
      line = notice.start.line + 1 ∧ 1 ≤ column ∧
      ∃ content, (source.splitOn '\n')[notice.start.line]? = some content ∧
        column - 1 ≤ content.length ∧
        notice.start.character = encoding.units (content.take (column - 1))

theorem ofDiagnostic_eq_ok {codec : Codec} {index : LineIndex} {lines : List Text}
    {diagnostic : Diagnostic} {notice : Notice}
    (h : ofDiagnostic codec index lines diagnostic = .ok notice) :
    diagnostic.message = .ok notice.message ∧
      range codec index lines diagnostic.place = (notice.start, notice.stop) := by
  unfold ofDiagnostic at h
  cases hmessage : diagnostic.message with
  | error cause =>
    rw [hmessage] at h
    cases h
  | ok message =>
    rw [hmessage] at h
    obtain rfl := Except.ok.inj h
    exact ⟨rfl, rfl⟩

/-- A notice selects the stretch of its diagnostic, if that starts in the document. -/
theorem selects_of_inside {codec : Codec} {encoding : Encoding} (hcodec : codec.Counts encoding)
    {source : Text} {diagnostic : Diagnostic} {span : Span} {notice : Notice}
    (hplace : diagnostic.place = some span)
    (hinside : 0 ≤ span.position ∧ span.position ≤ source.length)
    (h : ofDiagnostic codec (LineIndex.ofText source) (source.splitOn '\n') diagnostic =
      .ok notice) : Selects encoding source diagnostic span notice := by
  obtain ⟨hmessage, hrange⟩ := ofDiagnostic_eq_ok h
  rw [hplace, range, hcodec.toUnits_position, hcodec.toUnits_position, Prod.mk.injEq] at hrange
  obtain ⟨hstart, hstop⟩ := hrange
  have hstands : ∀ count, Mark.Stands encoding source (.behind encoding (source.take count))
      (source.take count).length := by
    intro count
    have hcut := Mark.stands_behind encoding (source.take count) (source.drop count)
    rwa [List.take_append_drop] at hcut
  have hfirst : ((source.take span.position.toNat).length : Int) = span.position := by
    rw [List.length_take]
    omega
  have hlast : ((source.take (span.position + max 1 span.length).toNat).length : Int) =
      min (source.length : Int) (span.position + max 1 span.length) := by
    rw [List.length_take]
    omega
  -- the text before the end is the one before the start and the stretch
  have hstretch := Mark.precedes_behind encoding (source.take span.position.toNat)
    ((source.drop span.position.toNat).take
      ((span.position + max 1 span.length).toNat - span.position.toNat))
  rw [← List.take_add, Nat.add_sub_cancel' (by omega), hstart, hstop] at hstretch
  refine ⟨⟨_, hfirst, hstart ▸ hstands _⟩, ⟨_, hlast, hstop ▸ hstands _⟩, hstretch.1,
    fun hempty => ?_, fun filename => ?_⟩
  · have hnone := congrArg List.length (hstretch.2 hempty)
    rw [List.length_take, List.length_drop, List.length_nil] at hnone
    omega
  · refine ⟨_, _, _, Diagnostic.excerpt_eq _ filename hplace hmessage, ?_⟩
    rw [LineIndex.position_ofText, ← hstart]
    refine ⟨rfl, Nat.succ_pos _, _, Text.splitOn_getElem?_take source _, ?_, ?_⟩
    · rw [List.length_append]
      exact Nat.le_add_right ..
    · simp only [Position.behind, Nat.add_sub_cancel, List.take_left]
      rfl

/-- With a codec that counts in the units of an encoding, the ranges of the notices on a document
select what its diagnostics are about. -/
theorem ofText_selects {codec : Codec} {encoding : Encoding} (hcodec : codec.Counts encoding)
    {source : Text} {notices : List Notice} (h : ofText codec source = .ok notices) :
    List.Forall₂ (fun diagnostic notice =>
        ∀ span, diagnostic.place = some span → Selects encoding source diagnostic span notice)
      (Compilation.ofText source).diagnostics notices := by
  have hinside : ∀ diagnostic ∈ (Compilation.ofText source).diagnostics, ∀ span,
      diagnostic.place = some span → 0 ≤ span.position ∧ span.position ≤ source.length :=
    fun _ hmem _ hplace => Compilation.position_inside hmem hplace
  have hpaired := (List.forall₂_and_left _ _).mpr ⟨hinside, forall₂_of_mapM_eq_ok h⟩
  refine hpaired.imp ?_
  intro diagnostic notice hnotice span hplace
  exact selects_of_inside hcodec hplace (hnotice.1 span hplace) hnotice.2

/-- A character of two units, and a hyphen before the end of its line. -/
def smiley : Text :=
  ['😀', '-', '\n']

/-- Where an arrow should go on, the range is the line feed, and so ends on the next line. -/
theorem ofText_selects_smiley :
    Encoding.utf16.codec.Counts .utf16 ∧
      ofText Encoding.utf16.codec smiley =
        .ok [⟨⟨0, 0⟩, ⟨0, 2⟩, "illegal character"⟩, ⟨⟨0, 3⟩, ⟨1, 0⟩, "expected '>' after '-'"⟩] ∧
      (Compilation.ofText smiley).diagnostics.map Diagnostic.place = [some ⟨0, 1⟩, some ⟨2, 0⟩] ∧
      List.Forall₂ (fun diagnostic notice =>
          ∀ span, diagnostic.place = some span → Selects .utf16 smiley diagnostic span notice)
        (Compilation.ofText smiley).diagnostics
        [⟨⟨0, 0⟩, ⟨0, 2⟩, "illegal character"⟩, ⟨⟨0, 3⟩, ⟨1, 0⟩, "expected '>' after '-'"⟩] := by
  have hcodec := Encoding.counts_codec .utf16
  have hnotices : ofText Encoding.utf16.codec smiley =
      .ok [⟨⟨0, 0⟩, ⟨0, 2⟩, "illegal character"⟩, ⟨⟨0, 3⟩, ⟨1, 0⟩, "expected '>' after '-'"⟩] := by
    decide +kernel
  exact ⟨hcodec, hnotices, by decide +kernel, ofText_selects hcodec hnotices⟩

end Notice

end TapeMachine
