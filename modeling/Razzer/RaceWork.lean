import Razzer.Cluster
import Razzer.LoadDB
import Razzer.RaceQueue

/-!
Race candidates on their way from the manager's queue through the schedulers.

A scheduler is given candidates when it connects and with the replies to its polls. It puts
them into its work queue, with flags that later decide whether a program is minimised, and
executes them. An execution with new signal is triaged, under the flags of the candidate. A
scheduler may stop at any time, and a process that panics stops.
-/

namespace Razzer.RaceWork

open Feedback SyzManager ManagerDB RaceQueue Runs List Function

/-! ### The work queue of a scheduler -/

abbrev ProgTypes := ℕ

def progNormal : ProgTypes := 0
def progCandidate : ProgTypes := 1
def progMinimized : ProgTypes := 2

/-- A candidate to execute. The last field only records whether the candidate came from a
database. -/
structure WorkCandidate where
  p : String
  raceInfo : RaceInfo
  flags : ProgTypes
  fromDB : Bool

/-- A program to triage, with the signal of one of its calls. -/
structure WorkTriage where
  p : String
  call : ℕ
  signal : Signal
  raceInfo : RaceInfo
  flags : ProgTypes
  fromDB : Bool

/-- A scheduler: the flag, its work queue, and what its threads have taken out of it. -/
structure Sched where
  raceCorpusDBDone : Bool
  candidate : List WorkCandidate
  triage : List WorkTriage
  executing : List WorkCandidate
  triaging : List WorkTriage

def workFor (flags : ProgTypes) (raceProg : RaceProgCand) : List WorkCandidate :=
  raceProg.raceInfos.map fun raceinfo => ⟨raceProg.prog, raceinfo, flags, raceProg.fromDB⟩

def connectFlags (raceProg : RaceProgCand) : ProgTypes :=
  if raceProg.fromDB then progMinimized else progCandidate

def pushToWorkQueue (x : Sched) (raceProg : RaceProgCand) : Sched :=
  { x with candidate := x.candidate ++ workFor progNormal raceProg }

structure PollRes where
  raceProgs : List RaceProgCand
  raceCorpusDBDone : Bool

def AssertFails (x : Sched) (r : PollRes) : Prop :=
  x.raceCorpusDBDone = true ∧ r.raceCorpusDBDone = false

instance (x : Sched) (r : PollRes) : Decidable (AssertFails x r) :=
  inferInstanceAs (Decidable (_ ∧ _))

section Scheduler

variable (deserializes : String → Bool)

/-- `schedulerInit`; it panics if a program does not deserialise. -/
def schedulerInit (raceProgCands : List RaceProgCand) : Option Sched :=
  if raceProgCands.all fun raceProg => deserializes raceProg.prog then
    some ⟨false, raceProgCands.flatMap fun raceProg => workFor (connectFlags raceProg) raceProg,
      [], [], []⟩
  else none

def finishPoll (x : Sched) (r : PollRes) : Option Sched :=
  if r.raceProgs.all fun raceProg => deserializes raceProg.prog then
    let x := r.raceProgs.foldl pushToWorkQueue x
    if AssertFails x r then none else some { x with raceCorpusDBDone := r.raceCorpusDBDone }
  else none

end Scheduler

/-- `dequeue`: the last program to triage, or else the last candidate. -/
def dequeue (x : Sched) : Sched :=
  match x.triage.getLast? with
  | some item => { x with triage := x.triage.dropLast, triaging := item :: x.triaging }
  | none =>
    match x.candidate.getLast? with
    | some item => { x with candidate := x.candidate.dropLast, executing := item :: x.executing }
    | none => x

def triageFor (item : WorkCandidate) (news : List (ℕ × Signal)) : List WorkTriage :=
  news.map fun x => ⟨item.p, x.1, x.2, item.raceInfo, item.flags, item.fromDB⟩

/-- The end of `executeCandidate`, for the `i`-th candidate in execution. -/
def executed (i : ℕ) (news : List (ℕ × Signal)) (x : Sched) : Sched :=
  match x.executing[i]? with
  | none => x
  | some item =>
    { x with executing := x.executing.eraseIdx i, triage := x.triage ++ triageFor item news }

/-- The other executions, of mutated programs and of attempts to minimise one. -/
def executedOther (p : String) (raceInfo : RaceInfo) (news : List (ℕ × Signal)) (x : Sched) :
    Sched :=
  { x with triage := x.triage ++ triageFor ⟨p, raceInfo, progNormal, false⟩ news }

/-! ### Triage -/

def intersection (s s1 : Signal) : Signal :=
  ⟨s.entries.filter fun x => covers s1 x.1 x.2, s.nodupKeys.sublist filter_sublist⟩

def signalRuns : ℕ := 3

/-- What `triageInput` looks at: the signal of the race corpus, before the runs and after one of
them, whether the race corpus has no input for the pair, and the signals of the runs. A run
without a race, or whose call fails, has none. -/
structure Seen where
  raceCorpusSignal : Signal
  raceCorpusSignal' : Signal
  noInput : Bool
  runs : Fin signalRuns → Option Signal

/-- The loop over the runs. The result is the signal that is not flaky, or that the program is
given up. -/
def triageRuns (item : WorkTriage) (seen : Seen) :
    List (Option Signal) → Signal → ℕ → Option Signal
  | [], newSignal, _ => some newSignal
  | none :: runs, newSignal, notexecuted =>
    if notexecuted + 1 > signalRuns / 2 + 1 then none
    else triageRuns item seen runs newSignal (notexecuted + 1)
  | some thisSignal :: runs, newSignal, notexecuted =>
    let newSignal := intersection newSignal thisSignal
    if empty newSignal ∧ item.flags &&& progMinimized = 0 then
      if seen.noInput then some (diff seen.raceCorpusSignal' item.signal) else none
    else triageRuns item seen runs newSignal notexecuted

/-- `triageInput`: nothing if the program is given up, and otherwise whether it is minimised before
it is sent to the manager. -/
def triageInput (item : WorkTriage) (seen : Seen) : Option Bool :=
  let newSignal := diff seen.raceCorpusSignal item.signal
  if empty newSignal then none
  else
    (triageRuns item seen (ofFn seen.runs) newSignal 0).map fun _ =>
      decide (item.flags &&& progMinimized = 0)

def triaged (i : ℕ) (x : Sched) : Sched := { x with triaging := x.triaging.eraseIdx i }

/-! ### The system -/

abbrev SchedLink := Cluster.Link (List RaceProgCand) Sched ℕ PollRes

def proc : SchedLink → Option Sched
  | .running x | .asking x _ | .answered x _ => some x
  | _ => none

structure State where
  queue : Queue
  scheds : Name → SchedLink

def State.setSched (s : State) (n : Name) (l : SchedLink) : State :=
  { s with scheds := update s.scheds n l }

inductive Ev
  | addRaceProgCand (prog : String) (raceInfos : List RaceInfo)
  | updateSuppPairs (supp : Finset MempairHash)
  | softCleanup
  | hardCleanup
  | connect (n : Name) (rnd : ℕ)
  | init (n : Name)
  | initPoll (n : Name)
  | poll (n : Name) (rnd : ℕ)
  | finishPoll (n : Name)
  | dequeue (n : Name)
  | executed (n : Name) (i : ℕ) (news : List (ℕ × Signal))
  | executedOther (n : Name) (p : String) (raceInfo : RaceInfo) (news : List (ℕ × Signal))
  | triaged (n : Name) (i : ℕ) (seen : Seen)
  | stop (n : Name)

section System

variable (c : Config) (deserializes : String → Bool)

def schedulerPoll (q : Queue) (raceCandQueueLen rnd : ℕ) : Queue × PollRes :=
  let (q, raceProgs) :=
    if raceCandQueueLen < 1000 then
      popFromRaceQueue c q (if q.raceCorpusDBDone then 10 else c.procs) rnd
    else (q, [])
  (q, ⟨raceProgs, q.raceCorpusDBDone⟩)

def stepQueue (q : Queue) : Ev → Option Queue
  | .addRaceProgCand prog raceInfos => some (addRaceProgCand c q prog raceInfos)
  | .updateSuppPairs supp => some { q with suppressedPairs := supp }
  | .softCleanup => some (softCleanupRaceQueue q)
  | .hardCleanup => some (hardCleanupRaceQueue q)
  | _ => none

def workOf : Ev → Option (Name × (Sched → Sched))
  | .dequeue n => some (n, dequeue)
  | .executed n i news => some (n, executed i news)
  | .executedOther n p raceInfo news => some (n, executedOther p raceInfo news)
  | .triaged n i _ => some (n, triaged i)
  | _ => none

def upOrDown : Option Sched → SchedLink
  | some x => .running x
  | none => .down

def stepSched (s : State) : Ev → Option State
  | .connect n rnd =>
    let (q, cands) := popFromRaceQueue c s.queue 1 rnd
    some { s.setSched n (.welcomed cands) with queue := q }
  | .init n =>
    match s.scheds n with
    | .welcomed cands => some (s.setSched n (upOrDown (schedulerInit deserializes cands)))
    | _ => none
  | .initPoll n =>
    match s.scheds n with
    | .running x => some (s.setSched n (.asking x x.candidate.length))
    | _ => none
  | .poll n rnd =>
    match s.scheds n with
    | .asking x a =>
      let (q, r) := schedulerPoll c s.queue a rnd
      some { s.setSched n (.answered x r) with queue := q }
    | _ => none
  | .finishPoll n =>
    match s.scheds n with
    | .answered x r => some (s.setSched n (upOrDown (finishPoll deserializes x r)))
    | _ => none
  | .stop n => some (s.setSched n .down)
  | e => (workOf e).bind fun (n, f) => ((s.scheds n).work f).map (s.setSched n)

def step (s : State) (e : Ev) : Option State :=
  match stepQueue c s.queue e with
  | some q => some { s with queue := q }
  | none => stepSched c deserializes s e

end System

def start (r : Init) : State := ⟨Queue.start r, fun _ => .down⟩

/-! ### Case analysis of steps -/

inductive Steps (c : Config) (deserializes : String → Bool) (s : State) : Ev → State → Prop
  | queue (e : Ev) (q : Queue) (h : stepQueue c s.queue e = some q) :
      Steps c deserializes s e { s with queue := q }
  | connect (n : Name) (rnd : ℕ) : Steps c deserializes s (.connect n rnd)
      { s.setSched n (.welcomed (popFromRaceQueue c s.queue 1 rnd).2) with
        queue := (popFromRaceQueue c s.queue 1 rnd).1 }
  | init (n : Name) (cands : List RaceProgCand) (hl : s.scheds n = .welcomed cands) :
      Steps c deserializes s (.init n)
        (s.setSched n (upOrDown (schedulerInit deserializes cands)))
  | initPoll (n : Name) (x : Sched) (hl : s.scheds n = .running x) :
      Steps c deserializes s (.initPoll n) (s.setSched n (.asking x x.candidate.length))
  | poll (n : Name) (rnd : ℕ) (x : Sched) (a : ℕ) (hl : s.scheds n = .asking x a) :
      Steps c deserializes s (.poll n rnd)
        { s.setSched n (.answered x (schedulerPoll c s.queue a rnd).2) with
          queue := (schedulerPoll c s.queue a rnd).1 }
  | finishPoll (n : Name) (x : Sched) (r : PollRes) (hl : s.scheds n = .answered x r) :
      Steps c deserializes s (.finishPoll n)
        (s.setSched n (upOrDown (finishPoll deserializes x r)))
  | stop (n : Name) : Steps c deserializes s (.stop n) (s.setSched n .down)
  | work (e : Ev) (n : Name) (f : Sched → Sched) (l : SchedLink) (hf : workOf e = some (n, f))
      (hl : (s.scheds n).work f = some l) : Steps c deserializes s e (s.setSched n l)

variable {e : Ev} {s t : State} {l : SchedLink} {L : Loader} {files : Files} {r : Init}
  {des : String → Bool}

variable {c : Config} {q q' : Queue} {es : List Ev}

lemma steps_of_stepSched (h : stepSched c des s e = some t) :
    Steps c des s e t := by
  unfold stepSched at h
  split at h
  case h_1 n rnd =>
    cases h
    exact .connect n rnd
  case h_2 n =>
    split at h <;> cases h
    exact .init n _ ‹_›
  case h_3 n =>
    split at h <;> cases h
    exact .initPoll n _ ‹_›
  case h_4 n rnd =>
    split at h <;> cases h
    exact .poll n rnd _ _ ‹_›
  case h_5 n =>
    split at h <;> cases h
    exact .finishPoll n _ _ ‹_›
  case h_6 n =>
    cases h
    exact .stop n
  case h_7 =>
    obtain ⟨⟨n, f⟩, hf, h⟩ := Option.bind_eq_some_iff.1 h
    obtain ⟨l, hl, rfl⟩ := Option.map_eq_some_iff.1 h
    exact .work e n f l hf hl

/-- **What a step is.** -/
lemma steps_of (h : step c des s e = some t) : Steps c des s e t := by
  unfold step at h
  split at h
  case h_1 q hq =>
    cases h
    exact .queue e q hq
  case h_2 => exact steps_of_stepSched h

lemma forall_setSched {P : SchedLink → Prop} {n : Name} (hs : ∀ k, P (s.scheds k)) (hl : P l)
    (k : Name) : P ((s.setSched n l).scheds k) := by
  by_cases hk : k = n
  · subst hk
    simpa only [State.setSched, update_self] using hl
  · simpa only [State.setSched, update_of_ne hk] using hs k

/-! ### The flag -/

/-- The flag of a scheduler, and that of a reply, is not ahead of the manager's. -/
def Agrees (done : Bool) : SchedLink → Prop
  | .running x | .asking x _ => x.raceCorpusDBDone = true → done = true
  | .answered x r => (x.raceCorpusDBDone = true → r.raceCorpusDBDone = true) ∧
      (r.raceCorpusDBDone = true → done = true)
  | _ => True

lemma Agrees.mono {done done' : Bool} (h : Agrees done l) (hmn : done → done') :
    Agrees done' l := by
  cases l with
  | running x | asking x a => exact hmn ∘ h
  | answered x r => exact ⟨h.1, hmn ∘ h.2⟩
  | _ => trivial

lemma done_workOf {n : Name} {f : Sched → Sched} (h : workOf e = some (n, f)) (x : Sched) :
    (f x).raceCorpusDBDone = x.raceCorpusDBDone := by
  cases e with
  | dequeue k =>
    cases h
    unfold dequeue
    split
    · rfl
    · split <;> rfl
  | executed k i news =>
    cases h
    unfold executed
    split <;> rfl
  | executedOther k p raceInfo news | triaged k i seen => cases h; rfl
  | _ => cases h

lemma Agrees.work {done : Bool} {l' : SchedLink} {f : Sched → Sched} (h : Agrees done l)
    (hf : ∀ x, (f x).raceCorpusDBDone = x.raceCorpusDBDone) (hl : l.work f = some l') :
    Agrees done l' := by
  cases l with
  | running x | asking x a | answered x r =>
    cases hl
    simpa only [Agrees, hf] using h
  | _ => cases hl

lemma done_finishPoll {x x' : Sched} {r : PollRes}
    (h : finishPoll des x r = some x') : x'.raceCorpusDBDone = r.raceCorpusDBDone := by
  unfold finishPoll at h
  split at h
  · simp only at h
    split at h <;> cases h
    rfl
  · cases h

structure Inv (s : State) : Prop where
  queue : Sound s.queue
  scheds : ∀ n, Agrees s.queue.raceCorpusDBDone (s.scheds n)

lemma moves_stepQueue (h : Sound q) (hq : stepQueue c q e = some q') : Moves q q' := by
  cases e with
  | addRaceProgCand prog raceInfos => cases hq; exact h.add c prog raceInfos
  | updateSuppPairs supp => cases hq; exact h.drops (Sublist.refl _) rfl
  | softCleanup => cases hq; exact h.softCleanup
  | hardCleanup => cases hq; exact h.hardCleanup
  | _ => cases hq

lemma moves_schedulerPoll (h : Sound q) (a rnd : ℕ) : Moves q (schedulerPoll c q a rnd).1 := by
  unfold schedulerPoll
  by_cases ha : a < 1000
  · rw [if_pos ha]
    exact h.pop c _ rnd
  · rw [if_neg ha]
    exact .refl h

variable {c : Config} {des : String → Bool}

lemma Inv.moves (h : Inv s) (hst : Steps c des s e t) : Moves s.queue t.queue := by
  cases hst with
  | queue e q hq => exact moves_stepQueue h.queue hq
  | connect n rnd => exact h.queue.pop c 1 rnd
  | poll n rnd x a hl => exact moves_schedulerPoll h.queue a rnd
  | _ => exact .refl h.queue

lemma Inv.step (h : Inv s) (hst : Steps c des s e t) : Inv t := by
  have hm := h.moves hst
  refine ⟨hm.sound, ?_⟩
  have hsc : ∀ n, Agrees t.queue.raceCorpusDBDone (s.scheds n) :=
    fun n => (h.scheds n).mono hm.mono
  cases hst with
  | queue e q hq => exact hsc
  | connect n rnd | stop n => exact forall_setSched hsc trivial
  | init n cands hl =>
    refine forall_setSched hsc ?_
    unfold schedulerInit
    split
    · exact fun hfl => by cases hfl
    · trivial
  | initPoll n x hl =>
    have hx := hsc n
    rw [hl] at hx
    exact forall_setSched hsc hx
  | poll n rnd x a hl =>
    -- the reply has the flag of the queue after the pop
    have hx := hsc n
    rw [hl] at hx
    exact forall_setSched hsc ⟨hx, id⟩
  | finishPoll n x r hl =>
    have hx := hsc n
    rw [hl] at hx
    refine forall_setSched hsc ?_
    cases hp : finishPoll des x r with
    | none => trivial
    | some x' => exact fun hd => hx.2 (done_finishPoll hp ▸ hd)
  | work e n f l hf hl =>
    exact forall_setSched hsc ((hsc n).work (done_workOf hf) hl)

lemma queue_of_initDBs (h : initDBs L files = .ok r) :
    (∀ x ∈ r.raceQueue, x.fromDB ∧ x.raceInfos ≠ []) ∧ (r.raceCorpusDBDone → r.raceQueue = []) := by
  obtain ⟨corpus, race, likely, -, -, -, rfl⟩ := LoadDB.initDBs_eq_ok.1 h
  constructor
  · intro x hx
    have hps : ∃ data, x = pushToRaceQueue data := by
      rcases List.mem_append.1 hx with hx | hx <;>
        obtain ⟨data, -, rfl⟩ := List.mem_map.1 hx <;> exact ⟨data, rfl⟩
    obtain ⟨data, rfl⟩ := hps
    exact ⟨rfl, cons_ne_nil _ _⟩
  · intro hd
    obtain ⟨hrc, hlk⟩ := Bool.and_eq_true_iff.1 hd
    simp only [setUp, List.isEmpty_iff.1 hrc, List.isEmpty_iff.1 hlk, map_nil, append_nil]

lemma inv_start (h : initDBs L files = .ok r) : Inv (start r) := by
  obtain ⟨hall, hdn⟩ := queue_of_initDBs h
  refine ⟨⟨Front.of_all fun x hx => (hall x hx).1, fun hd x hx => ?_⟩, fun n => trivial⟩
  have hx : x ∈ r.raceQueue := hx
  rw [hdn hd] at hx
  cases hx

lemma inv_run (h : initDBs L files = .ok r) (hrun : run (step c des) (start r) es = some t) :
    Inv t :=
  run_inv_hist (I := fun _ s => Inv s) (inv_start h)
    (fun _ _ _ _ _ hi hst => hi.step (steps_of hst)) hrun

variable {deserializes : String → Bool}

/-- **The race queue.** In every run from the databases: the candidates from the databases are a
prefix of the queue, the flag stays set once it is, no candidate from the databases is left
while it is set, and the assertion of the schedulers holds for every reply to a poll. -/
theorem db_candidates_first {L : Loader} {files : Files} {r : Init}
    (h : initDBs L files = .ok r) (u v : List Ev) {m t : State}
    (hm : run (step c deserializes) (start r) u = some m)
    (ht : run (step c deserializes) m v = some t) :
    Front RaceProgCand.fromDB t.queue.raceQueue ∧
      (m.queue.raceCorpusDBDone = true → t.queue.raceCorpusDBDone = true) ∧
      (t.queue.raceCorpusDBDone = true → ∀ x ∈ t.queue.raceQueue, x.fromDB = false) ∧
      ∀ n x res, t.scheds n = .answered x res → ¬ AssertFails x res := by
  have hsy : ∀ {s : State}, run (step c deserializes) m v = some s →
      Inv s ∧ (m.queue.raceCorpusDBDone → s.queue.raceCorpusDBDone) := fun hs =>
    run_inv_hist (I := fun _ s =>
        Inv s ∧ (m.queue.raceCorpusDBDone → s.queue.raceCorpusDBDone))
      ⟨inv_run h hm, id⟩
      (fun _ _ _ _ _ hi hst => ⟨hi.1.step (steps_of hst), fun hd =>
        (hi.1.moves (steps_of hst)).mono (hi.2 hd)⟩) hs
  obtain ⟨hi, hmn⟩ := hsy ht
  refine ⟨hi.queue.first, hmn, hi.queue.done, fun n x res hl hfl => ?_⟩
  have hag := hi.scheds n
  rw [hl] at hag
  have htr := hag.1 hfl.1
  rw [hfl.2] at htr
  cases htr

def twoPrograms : Files :=
  ⟨LoadDB.noRecords, LoadDB.oneRecord "a", LoadDB.oneRecord "info", LoadDB.oneRecord "b",
    LoadDB.oneRecord "info"⟩

def oneProc : Config := ⟨false, true, 1, fun _ _ => [⟨1, "W"⟩]⟩

def connectAndPoll : List Ev :=
  [.connect 0 0, .init 0, .initPoll 0, .poll 0 0, .finishPoll 0]

lemma ok_of_toOption {α : Type} {x : Except Abort α} {a : α} (h : x.toOption = some a) :
    x = .ok a := by
  cases x with
  | error e => cases h
  | ok b => cases h; rfl

/-- A candidate comes in, the second program is handed out and the scheduler polls again. -/
theorem db_candidates_first_two : ∃ r m t, initDBs LoadDB.demoLoader twoPrograms = .ok r ∧
    run (step oneProc fun _ => true) (start r) [.addRaceProgCand "c" [noRaceInfo]] = some m ∧
    run (step oneProc fun _ => true) m (connectAndPoll ++ [.initPoll 0, .poll 0 0]) = some t ∧
    m.queue.raceCorpusDBDone = false ∧ t.queue.raceCorpusDBDone = true ∧
    ∀ x ∈ t.queue.raceQueue, x.fromDB = false := by
  have hvw : ((initDBs LoadDB.demoLoader twoPrograms).toOption.map fun r =>
      (run (step oneProc fun _ => true) (start r) [.addRaceProgCand "c" [noRaceInfo]]).map
        fun m => (m.queue.raceCorpusDBDone,
          (run (step oneProc fun _ => true) m (connectAndPoll ++ [.initPoll 0, .poll 0 0])).map
            fun t => t.queue.raceCorpusDBDone)) = some (some (false, some true)) := by
    decide +kernel
  obtain ⟨r, hr, hvw⟩ := Option.map_eq_some_iff.1 hvw
  obtain ⟨m, hm, hvw⟩ := Option.map_eq_some_iff.1 hvw
  obtain ⟨hfl, hvw⟩ := Prod.mk.inj hvw
  obtain ⟨t, ht, htr⟩ := Option.map_eq_some_iff.1 hvw
  have hr := ok_of_toOption hr
  exact ⟨r, m, t, hr, hm, ht, hfl, htr, (db_candidates_first hr _ _ hm ht).2.2.1 htr⟩

end Razzer.RaceWork
