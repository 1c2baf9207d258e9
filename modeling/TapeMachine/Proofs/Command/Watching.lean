import TapeMachine.Command.Watch

/-!
# TapeMachine.Proofs.Command.Watching

A watch runs the program when it has changed.

A look at the program is *due* if it finds the program and the last look before it that found it did
so with another time of change, or if none before it did. Whether there was one is more than the
watch remembers: it starts with a time, and goes by whether the time it finds is *news* to it. The
two rules differ at one look at most, the first that finds the program, and only if it finds the
time that the watch starts with.

* `Watch.looks` — what each look of a row shows. A session prints just that, as long as nothing
  fails (`Watch.polls_of_unfailed`).
* `Watch.Reruns` — a session that runs the program at the looks that a rule picks and at no others.
* `Watch.getElem?_looks` — a watch goes by what is news, look by look.
* `Watch.reruns_on_news_and_change` — so it runs the program on change exactly if the first time it
  finds is not the one it starts with.
-/

namespace TapeMachine

/-- Whether a use of the command ended in a failure. -/
def Transcript.failed (transcript : Transcript) : Bool :=
  match transcript.ending with
  | .failed _ => true
  | _ => false

namespace Watch

variable {options : Options} {remembered : Time} {files : Files} {views earlier : List Files}

/-! ### Rules for running the program -/

/-- The time of change with which a look finds the program, if it does. -/
def found? (options : Options) (files : Files) : Option Time :=
  (files.modified options.input).toOption

/-- The time with which it was last found by some looks. -/
def lastFound? (options : Options) (views : List Files) : Option Time :=
  (views.filterMap (found? options)).getLast?

/-- The time with which it was first found by some looks. -/
def firstFound? (options : Options) (views : List Files) : Option Time :=
  (views.filterMap (found? options)).head?

/-- Whether the program has changed since the looks before, or was not found by them. -/
def isDue (options : Options) (earlier : List Files) (files : Files) : Bool :=
  (found? options files).any fun time => lastFound? options earlier ≠ some time

/-- Whether it is found with another time than the last one, or than the one to start with. -/
def isNews (options : Options) (earlier : List Files) (files : Files) : Bool :=
  (found? options files).any fun time => (lastFound? options earlier).getD start ≠ time

theorem lastFound?_concat (options : Options) (earlier : List Files) (files : Files) :
    lastFound? options (earlier ++ [files]) =
      (found? options files).or (lastFound? options earlier) := by
  rw [lastFound?, List.filterMap_append, List.getLast?_append, lastFound?]
  cases hfound : found? options files with
  | none => rw [List.filterMap_cons_none hfound]; rfl
  | some time => rw [List.filterMap_cons_some hfound]; rfl

/-- What is due is news and the other way round, but for a program that is first found with the time
to start with. -/
theorem isNews_eq_isDue
    (h : lastFound? options earlier = none → found? options files ≠ some start) :
    isNews options earlier files = isDue options earlier files := by
  rw [isNews, isDue]
  cases hfound : found? options files with
  | none => rfl
  | some time =>
    cases hlast : lastFound? options earlier with
    | none =>
      have hne : start ≠ time := fun heq => h hlast (heq ▸ hfound)
      simp [hne]
    | some last => simp

/-! ### Looks -/

/-- What the looks of a row show, one by one: what a run of the program prints, or nothing if it is
not run. -/
def looks (options : Options) (remembered : Time) : List Files → List (Option Transcript)
  | [] => []
  | files :: later =>
    (poll options files remembered).2 :: looks options (poll options files remembered).1 later

/-- None of some looks fails. -/
def Unfailed (shown : List (Option Transcript)) : Prop :=
  ∀ look ∈ shown, ∀ transcript ∈ look, transcript.failed = false

theorem length_looks (options : Options) (remembered : Time) (views : List Files) :
    (looks options remembered views).length = views.length := by
  induction views generalizing remembered with
  | nil => rfl
  | cons files later ih => rw [looks, List.length_cons, ih, List.length_cons]

/-- A look remembers the time it finds. -/
theorem poll_fst (options : Options) (files : Files) (remembered : Time) :
    (poll options files remembered).1 = (found? options files).getD remembered := by
  rw [poll, found?]
  cases hmodified : files.modified options.input with
  | ok time =>
    by_cases hsame : time = remembered
    · simp [hsame, Except.toOption]
    · simp [hsame, Except.toOption]
  | error error => cases error <;> rfl

/-- A look that does not fail runs the program if the time it finds is not the remembered one. -/
theorem poll_snd (h : ∀ transcript ∈ (poll options files remembered).2, transcript.failed = false) :
    (poll options files remembered).2 =
      if (found? options files).any (remembered ≠ ·) then some (execute files options)
      else none := by
  rw [poll] at h ⊢
  rw [found?]
  cases hmodified : files.modified options.input with
  | ok time =>
    by_cases hsame : time = remembered
    · simp [hsame, Except.toOption]
    · simp [hsame, Ne.symm hsame, Except.toOption]
  | error error =>
    cases error with
    | nullCharacter =>
      rw [hmodified] at h
      cases h _ rfl
    | _ => rfl

/-- Each look runs the program exactly if what it finds is news after the looks before it. -/
theorem getElem?_looks (earlier : List Files)
    (hstart : remembered = (lastFound? options earlier).getD start)
    (hclean : Unfailed (looks options remembered views)) {i : Nat} (hi : views[i]? = some files) :
    (looks options remembered views)[i]? =
      some (if isNews options (earlier ++ views.take i) files then some (execute files options)
        else none) := by
  induction views generalizing remembered earlier i with
  | nil => cases hi
  | cons first later ih =>
    rw [looks] at hclean ⊢
    obtain ⟨hfirst, hlater⟩ := List.forall_mem_cons.mp hclean
    cases i with
    | zero =>
      obtain rfl := Option.some.inj hi
      rw [List.getElem?_cons_zero, poll_snd hfirst, List.take_zero, List.append_nil, isNews,
        ← hstart]
    | succ i =>
      -- the time that is remembered now is the last one found, this look included
      have hnext : (poll options first remembered).1 =
          (lastFound? options (earlier ++ [first])).getD start := by
        rw [poll_fst, lastFound?_concat, hstart]
        cases found? options first <;> rfl
      rw [List.getElem?_cons_succ, ih _ hnext hlater hi, List.take_succ_cons, List.append_assoc,
        List.singleton_append]

/-! ### Sessions -/

/-- As long as nothing fails, all looks are taken, and nothing is printed but what they show. -/
theorem polls_of_unfailed (h : Unfailed (looks options remembered views)) :
    polls options remembered views =
      (looks options remembered views).map (·.getD silence) ++ [silence] := by
  induction views generalizing remembered with
  | nil => rfl
  | cons files later ih =>
    rw [looks] at h ⊢
    obtain ⟨hfirst, hlater⟩ := List.forall_mem_cons.mp h
    have hshown : ((poll options files remembered).2.getD silence).failed = false := by
      cases hpoll : (poll options files remembered).2 with
      | none => rfl
      | some transcript => exact hfirst transcript hpoll
    simp only [polls, List.map_cons, List.cons_append, ← ih hlater]
    split
    · next failure hending =>
      rw [Transcript.failed, hending] at hshown
      cases hshown
    · rfl

theorem endOf_of_unfailed {transcripts : List Transcript}
    (h : ∀ transcript ∈ transcripts, transcript.failed = false) :
    Command.endOf transcripts = .code 0 := by
  unfold Command.endOf
  split
  · next stdout stderr failure hlast =>
    exact absurd (h _ (List.mem_of_getLast? hlast)) (by simp [Transcript.failed])
  · rfl

/-- A session runs the program at just those looks that a rule picks, given the looks before. -/
structure Reruns (rule : List Files → Files → Bool) (options : Options) (views : List Files) :
    Prop where
  /-- A look that the rule picks runs the program as it finds it, once; any other does nothing. -/
  runs : ∀ i files, views[i]? = some files → (looks options start views)[i]? =
    some (if rule (views.take i) files then some (execute files options) else none)
  /-- A session prints its greeting and what the looks show, up to the last of them. -/
  printed : ∃ first later, (looks options start views).map (·.getD silence) ++ [silence] =
      first :: later ∧ session options views = first.after (greeting options) :: later
  /-- It goes on until there is nothing more to look at, and then ends well. -/
  ended : (session options views).length = views.length + 1 ∧
    Command.endOf (session options views) = .code 0

/-- A session whose looks follow a rule and do not fail prints what they show, and ends well. -/
theorem reruns_of_runs {rule : List Files → Files → Bool}
    (hclean : Unfailed (looks options start views))
    (hruns : ∀ i files, views[i]? = some files → (looks options start views)[i]? =
      some (if rule (views.take i) files then some (execute files options) else none)) :
    Reruns rule options views := by
  obtain ⟨first, later, hshown⟩ := List.exists_cons_of_ne_nil
    (show (looks options start views).map (·.getD silence) ++ [silence] ≠ [] by simp)
  have hsession : session options views = first.after (greeting options) :: later := by
    rw [session, polls_of_unfailed hclean, hshown]
  have hunfailed : ∀ transcript ∈ first :: later, transcript.failed = false := by
    intro transcript hmem
    rw [← hshown, List.mem_append, List.mem_singleton] at hmem
    rcases hmem with hmem | rfl
    · obtain ⟨look, hlook, rfl⟩ := List.mem_map.mp hmem
      cases look with
      | none => rfl
      | some transcript => exact hclean _ hlook transcript rfl
    · rfl
  obtain ⟨hfirst, hlater⟩ := List.forall_mem_cons.mp hunfailed
  refine ⟨hruns, ⟨first, later, hshown, hsession⟩, ?_, ?_⟩
  · have hlength := congrArg List.length hshown
    rw [List.length_append, List.length_map, length_looks] at hlength
    rw [hsession]
    exact hlength.symm
  · rw [hsession]
    exact endOf_of_unfailed (List.forall_mem_cons.mpr ⟨hfirst, hlater⟩)

/-- A look that finds the program where none before it did is the first that does. -/
theorem firstFound?_of_lastFound? {i : Nat} {time : Time} (hi : views[i]? = some files)
    (hnone : lastFound? options (views.take i) = none) (hfound : found? options files = some time) :
    firstFound? options views = some time := by
  obtain ⟨hlt, rfl⟩ := List.getElem?_eq_some_iff.mp hi
  have hbefore : (views.take i).filterMap (found? options) = [] :=
    List.getLast?_eq_none_iff.mp hnone
  have hsplit : views = views.take i ++ views[i] :: views.drop (i + 1) := by
    rw [List.getElem_cons_drop, List.take_append_drop]
  rw [firstFound?, hsplit, List.filterMap_append, hbefore, List.nil_append,
    List.filterMap_cons_some hfound]
  rfl

/-- As long as nothing fails, a session runs the program at the looks whose times are news to it.
It so runs it at the first look that finds it, and later at those that find it changed, exactly if
the first time is not the one that the watch starts with. -/
theorem reruns_on_news_and_change (hclean : Unfailed (looks options start views)) :
    Reruns (isNews options) options views ∧
      (Reruns (isDue options) options views ↔ firstFound? options views ≠ some start) := by
  have hnews : ∀ i files, views[i]? = some files → (looks options start views)[i]? =
      some (if isNews options (views.take i) files then some (execute files options)
        else none) := by
    intro i files hi
    exact getElem?_looks [] rfl hclean hi
  refine ⟨reruns_of_runs hclean hnews, ?_, ?_⟩
  · intro hdue hfirst
    -- the first look that finds the program is due and is not taken for news
    obtain ⟨rest, hrest⟩ := List.head?_eq_some_iff.mp hfirst
    obtain ⟨before, files, after, rfl, hbefore, hfound, -⟩ := List.filterMap_eq_cons_iff.mp hrest
    have hi : (before ++ files :: after)[before.length]? = some files := by simp
    have hnone : lastFound? options before = none := by
      rw [lastFound?, List.filterMap_eq_nil_iff.mpr hbefore]
      rfl
    have hboth := (hdue.runs _ _ hi).symm.trans (hnews _ _ hi)
    rw [List.take_left] at hboth
    simp [isDue, isNews, hfound, hnone] at hboth
  · intro hfirst
    refine reruns_of_runs hclean fun i files hi => ?_
    rw [hnews i files hi, isNews_eq_isDue]
    exact fun hnone hfound => hfirst (firstFound?_of_lastFound? hi hnone hfound)

/-- A program that halts at once, with a time of change. -/
def idler (time : Time) : Files :=
  Files.ofNodes fun _ => .ok (.file "initial state s \x7b \x7d".toUTF8 time)

/-- No program at all. -/
def nowhere : Files :=
  Files.ofNodes fun _ => .error .notFound

/-- The settings to watch it with. -/
def idlerOptions : Options :=
  { input := Path.ofString "idler.tm"
    tape := .value ""
    margin := .number 2
    maxSteps := .number 10000
    trace := false
    check := false
    watch := true
    debug := false }

/-- A program that comes and goes, comes back unchanged and is then set back to the time that the
watch starts with, which by then is like any other. -/
def visits : List Files :=
  [nowhere, idler (1 / 2), idler (1 / 2), nowhere, idler (1 / 2), idler 0]

theorem reruns_on_news_and_change_visits :
    Unfailed (looks idlerOptions start visits) ∧
      Reruns (isNews idlerOptions) idlerOptions visits ∧
      Reruns (isDue idlerOptions) idlerOptions visits ∧
      (looks idlerOptions start visits).map Option.isSome =
        [false, true, false, false, false, true] := by
  have hclean : Unfailed (looks idlerOptions start visits) := by
    unfold Unfailed
    decide +kernel
  obtain ⟨hnews, hdue⟩ := reruns_on_news_and_change hclean
  exact ⟨hclean, hnews, hdue.mpr (by decide +kernel), by decide +kernel⟩

/-- A program that is first found with the time that the watch starts with is not run, though it is
due. So a session that does not fail need not run the program on change. -/
theorem not_reruns_when_due :
    ¬ ∀ (options : Options) (views : List Files), Unfailed (looks options start views) →
      Reruns (isDue options) options views := by
  intro hclaim
  have hlooks : looks idlerOptions start [idler 0] = [none] := by decide +kernel
  have hclean : Unfailed (looks idlerOptions start [idler 0]) := by
    rw [hlooks]
    simp [Unfailed]
  have hdue : isDue idlerOptions [] (idler 0) = true := by decide +kernel
  have hruns := (hclaim idlerOptions [idler 0] hclean).runs 0 (idler 0) rfl
  rw [hlooks, List.take_zero, if_pos hdue] at hruns
  cases hruns

end Watch

end TapeMachine
