import Razzer.ExecCounts

/-!
What the execution counters add up to.

A scheduler has any number of procs. Each execution of a candidate or of a program of one of the
corpora is counted in a region of its own. The thread that polls takes all counters away and
sends them, and the manager adds them to its own. At the end of `triageInput` a proc that gives a
program up reads the counters of the pair and writes them back with one more failure. It holds no
lock, so what it writes back may be out of date by then.
-/

namespace Razzer.ExecTotals

open Feedback SyzManager Runs Function Finset Option
open ExecCounts (execCount foundCount oneExec execInfoOf_insert execInfoOf_addExecInfo
  execCount_addExecs forall_reportRaces)

structure Verdict where
  hash : MempairHash
  kind : RaceRunKind
  isRace : Bool

/-- The counters of a scheduler, the copies that its procs have yet to write back, and the poll
that is under way. -/
structure Sched where
  infos : ExecInfos
  failing : List (MempairHash × RaceExecInfo)
  asking : Option SchedulerPollArgs

/-- The field `verdicts` only records the executions so far. -/
structure State where
  mgr : Manager
  scheds : Name → Sched
  verdicts : List Verdict

/-- The signal and the races that a poll carries are not modelled here: they can be any. -/
inductive Ev
  | connect (n : Name) (kept : List (Sig × RPCRaceInput))
  | executeCandidate (n : Name) (h : MempairHash) (isRace : Bool)
  | updateExecInfo (n : Name) (h : MempairHash) (isLikelyCorpus isRace : Bool)
  | failRead (n : Name) (h : MempairHash)
  | failWrite (n : Name) (i : ℕ)
  | grabExecInfo (n : Name) (maxSignal : Signal) (finfos : List FoundRaceInfo)
  | schedulerPoll (n : Name)

def countExec (v : Verdict) (x : Sched) : Sched :=
  { x with
    infos := x.infos.insert v.hash
      (addExecs (execInfoOf x.infos v.hash) (oneExec v.kind v.isRace)) }

def failWrite (i : ℕ) (x : Sched) : Option Sched :=
  x.failing[i]?.map fun (h, info) =>
    { x with
      infos := x.infos.insert h { info with triageFailed := info.triageFailed + 1 }
      failing := x.failing.eraseIdx i }

def grabExecInfo (maxSignal : Signal) (finfos : List FoundRaceInfo) (x : Sched) : Option Sched :=
  match x.asking with
  | none => some { x with infos := ∅, asking := some ⟨maxSignal, finfos, x.infos⟩ }
  | some _ => none

def Sched.answered (x : Sched) : Sched := { x with asking := none }

def regionOf : Ev → Option (Name × List Verdict × (Sched → Option Sched))
  | .executeCandidate n h isRace =>
    some (n, [⟨h, .triage, isRace⟩], fun x => some (countExec ⟨h, .triage, isRace⟩ x))
  | .updateExecInfo n h isLikelyCorpus isRace =>
    let v : Verdict := ⟨h, if isLikelyCorpus then .likely else .corpus, isRace⟩
    some (n, [v], fun x => some (countExec v x))
  | .failRead n h =>
    some (n, [], fun x => some { x with failing := x.failing ++ [(h, execInfoOf x.infos h)] })
  | .failWrite n i => some (n, [], failWrite i)
  | .grabExecInfo n maxSignal finfos => some (n, [], grabExecInfo maxSignal finfos)
  | _ => none

def newSched : Sched := ⟨∅, [], none⟩

def State.put (s : State) (n : Name) (x : Sched) (l : List Verdict) : State :=
  { s with scheds := update s.scheds n x, verdicts := s.verdicts ++ l }

variable (names : Finset Name)

/-- A step of a system with schedulers of these names. One that connects is a new process, also
under a name that was in use. -/
def step (s : State) : Ev → Option State
  | .connect n kept =>
    if n ∈ names then
      some { s.put n newSched [] with mgr := queueLikely (schedulerRegister s.mgr n kept) n }
    else none
  | .schedulerPoll n =>
    match (s.scheds n).asking with
    | some a =>
      if n ∈ names then
        (schedulerPoll s.mgr n a).map fun (mgr, _) =>
          { s.put n (s.scheds n).answered [] with mgr := mgr }
      else none
    | none => none
  | e => (regionOf e).bind fun (n, l, f) =>
    if n ∈ names then (f (s.scheds n)).map fun x => s.put n x l else none

def start : State := ⟨SyzManager.init, fun _ => newSched, []⟩

def trueCount : RaceRunKind → RaceExecInfo → ℕ
  | .none, _ => 0
  | .triage, info => info.triageTrues
  | .corpus, info => info.corpusTrues
  | .likely, info => info.likelyTrues

def counter (trues : Bool) (k : RaceRunKind) (info : RaceExecInfo) : ℕ :=
  if trues then trueCount k info else execCount k info

def made (trues : Bool) (k : RaceRunKind) (h : MempairHash) (l : List Verdict) : ℕ :=
  l.countP fun v => decide (v.hash = h ∧ v.kind = k) && (!trues || v.isRace)

/-- What a scheduler has not sent, or what is on its way. -/
def Sched.unsent (x : Sched) (trues : Bool) (k : RaceRunKind) (h : MempairHash) : ℕ :=
  counter trues k (execInfoOf x.infos h) +
    (x.asking.map fun a => counter trues k (execInfoOf a.mempairExecInfo h)).getD 0

/-- The counters of the manager and those not sent yet are the executions and the true verdicts
so far. -/
def Balanced (s : State) : Prop :=
  ∀ trues k h, counter trues k (execInfoOf s.mgr.mempairExecInfo h) +
    ∑ n ∈ names, (s.scheds n).unsent trues k h = made trues k h s.verdicts

/-- Neither the true verdicts nor the executions until the race was found are more than the
executions. -/
def Bounded (info : RaceExecInfo) : Prop :=
  ∀ k, trueCount k info ≤ execCount k info ∧ foundCount k info ≤ execCount k info

structure Sched.Bounded (x : Sched) : Prop where
  infos : ∀ h, ExecTotals.Bounded (execInfoOf x.infos h)
  failing : ∀ p ∈ x.failing, ExecTotals.Bounded p.2
  asking : ∀ a ∈ x.asking, ∀ h, ExecTotals.Bounded (execInfoOf a.mempairExecInfo h)

structure Bounds (s : State) : Prop where
  mgr : ∀ h, Bounded (execInfoOf s.mgr.mempairExecInfo h)
  scheds : ∀ n, (s.scheds n).Bounded

/-- A scheduler that is replaced has sent its counters, and the counters that are written back are
still those that are there. -/
def Orderly (s : State) : Ev → Prop
  | .connect n _ => n ∈ names → ∀ trues k h, (s.scheds n).unsent trues k h = 0
  | .failWrite n i => n ∈ names → ∀ p, (s.scheds n).failing[i]? = some p →
      ∀ trues k, counter trues k p.2 = counter trues k (execInfoOf (s.scheds n).infos p.1)
  | _ => True

variable {names} {trues : Bool} {k : RaceRunKind} {h : MempairHash} {s t : State}
  {x x' : Sched} {e : Ev}
  {n : Name} {info y : RaceExecInfo} {l : List Verdict} {v : Verdict}

/-! ### Counters -/

lemma counter_addExecs : counter trues k (addExecs info y) = counter trues k info +
    counter trues k y := by
  cases trues <;> cases k <;> rfl

lemma counter_empty : counter trues k (execInfoOf ∅ h) = 0 := by
  cases trues <;> cases k <;> rfl

lemma counter_oneExec (hv : v.kind ≠ .none) :
    counter trues k (oneExec v.kind v.isRace) = made trues k v.hash [v] := by
  obtain ⟨a, kind, isRace⟩ := v
  cases kind with
  | none => exact absurd rfl hv
  | _ => cases k <;> cases trues <;> cases isRace <;> simp [counter, made, oneExec, execCount,
      trueCount, noExecs]

lemma Bounded.addExecs (hx : Bounded info) (hy : Bounded y) : Bounded (addExecs info y) := by
  intro k
  have hx := hx k
  have hy := hy k
  have hfn : foundCount k (SyzManager.addExecs info y) = foundCount k info := by cases k <;> rfl
  have htr : trueCount k (SyzManager.addExecs info y) = trueCount k info + trueCount k y :=
    show counter true k _ = _ from counter_addExecs
  rw [hfn, htr, execCount_addExecs]
  omega

lemma bounded_empty (h : MempairHash) : Bounded (execInfoOf ∅ h) := by
  intro k
  cases k <;> exact ⟨le_refl 0, le_refl 0⟩

lemma bounded_newSched : newSched.Bounded := ⟨bounded_empty, by simp [newSched], by simp [newSched]⟩

lemma bounded_oneExec (kind : RaceRunKind) (isRace : Bool) : Bounded (oneExec kind isRace) := by
  intro k
  cases kind <;> cases isRace <;> cases k <;> decide

variable {m : ExecInfos} {i : ℕ} {sign : Signal} {a : SchedulerPollArgs} {m' mgr : Manager}
  {r : SchedulerPollRes} {f : Sched → Option Sched}

lemma bounded_insert (hm : ∀ h, Bounded (execInfoOf m h)) (hy : Bounded y) (a h : MempairHash) :
    Bounded (execInfoOf (m.insert a y) h) := by
  rw [execInfoOf_insert]
  split
  · exact hy
  · exact hm h

/-! ### The sum -/

lemma sum_put (s : State) (hn : n ∈ names) (g : Sched → ℕ) (x : Sched) (l : List Verdict) :
    ∑ m ∈ names, g ((s.put n x l).scheds m) + g (s.scheds n) =
      ∑ m ∈ names, g (s.scheds m) + g x := by
  have hrs : ∑ m ∈ names.erase n, g ((s.put n x l).scheds m) =
      ∑ m ∈ names.erase n, g (s.scheds m) :=
    sum_congr rfl fun m hm => congrArg g (update_of_ne (ne_of_mem_erase hm) ..)
  have hx : (s.put n x l).scheds n = x := update_self ..
  rw [← add_sum_erase _ _ hn, ← add_sum_erase _ (fun m => g (s.scheds m)) hn, hx, hrs]
  omega

@[simp] lemma made_put : made trues k h (s.put n x l).verdicts =
    made trues k h s.verdicts + made trues k h l := List.countP_append

lemma balanced_put (hb : Balanced names s) (hn : n ∈ names) :
    Balanced names (s.put n x l) ↔ ∀ trues k h,
      x.unsent trues k h = (s.scheds n).unsent trues k h + made trues k h l := by
  refine forall₃_congr fun trues k h => ?_
  have hsum := sum_put s hn (fun x => x.unsent trues k h) x l
  have hs := hb trues k h
  rw [made_put]
  change counter trues k (execInfoOf s.mgr.mempairExecInfo h) + _ = _ ↔ _
  omega

lemma unsent_newSched : newSched.unsent trues k h = 0 := counter_empty

lemma unsent_countExec (hv : v.kind ≠ .none) (trues : Bool) (k : RaceRunKind) (h : MempairHash) :
    (countExec v x).unsent trues k h = x.unsent trues k h + made trues k h [v] := by
  simp only [Sched.unsent, countExec, execInfoOf_insert]
  by_cases hh : h = v.hash
  · rw [if_pos hh, counter_addExecs, counter_oneExec hv, hh]
    omega
  · have hnn : made trues k h [v] = 0 := by simp [made, Ne.symm hh]
    rw [if_neg hh, hnn, Nat.add_zero]

lemma unsent_failWrite (hx : failWrite i x = some x') :
    (∀ trues k h, x'.unsent trues k h = x.unsent trues k h) ↔
      ∀ p, x.failing[i]? = some p →
        ∀ trues k, counter trues k p.2 = counter trues k (execInfoOf x.infos p.1) := by
  obtain ⟨⟨a, info⟩, hp, rfl⟩ := Option.map_eq_some_iff.1 hx
  have hfl : ∀ trues k, counter trues k { info with triageFailed := info.triageFailed + 1 } =
      counter trues k info := fun trues k => by cases trues <;> cases k <;> rfl
  simp only [hp, some.injEq, forall_eq', Sched.unsent, execInfoOf_insert]
  constructor
  · intro hu trues k
    have := hu trues k a
    rw [if_pos rfl, hfl] at this
    omega
  · intro hc trues k h
    split
    case isTrue hh => rw [hfl, hc, hh]
    case isFalse => rfl

lemma unsent_grabExecInfo {fis : List FoundRaceInfo} (hx : grabExecInfo sign fis x = some x')
    (trues : Bool) (k : RaceRunKind) (h : MempairHash) :
    x'.unsent trues k h = x.unsent trues k h := by
  unfold grabExecInfo at hx
  split at hx
  case h_2 => cases hx
  case h_1 hil =>
    cases hx
    simp [Sched.unsent, hil, counter_empty]

lemma counter_schedulerPoll {m : Manager} (hp : schedulerPoll m n a = some (m', r)) (trues : Bool)
    (k : RaceRunKind) (h : MempairHash) :
    counter trues k (execInfoOf m'.mempairExecInfo h) =
      counter trues k (execInfoOf m.mempairExecInfo h) +
        counter trues k (execInfoOf a.mempairExecInfo h) := by
  rw [(schedulerPoll_infos hp).1, ← counter_addExecs, ← execInfoOf_addExecInfo]
  refine forall_reportRaces (P := fun h info => counter trues k info =
    counter trues k (execInfoOf (addExecInfo m a.mempairExecInfo).mempairExecInfo h))
    (fun h info kind hc => hc ▸ ?_) (fun _ => rfl) [] a.foundRaceInfos h
  cases trues <;> cases k <;> rfl

/-! ### Steps -/

lemma step_cases (h : step names s e = some t) :
    (∃ n kept, e = .connect n kept ∧ n ∈ names ∧ t = { s.put n newSched [] with
      mgr := queueLikely (schedulerRegister s.mgr n kept) n }) ∨
    (∃ n a mgr r, e = .schedulerPoll n ∧ (s.scheds n).asking = some a ∧ n ∈ names ∧
      schedulerPoll s.mgr n a = some (mgr, r) ∧
      t = { s.put n (s.scheds n).answered [] with mgr := mgr }) ∨
    ∃ n l f x, regionOf e = some (n, l, f) ∧ n ∈ names ∧ f (s.scheds n) = some x ∧
      t = s.put n x l := by
  unfold step at h
  split at h
  case h_1 n kept =>
    obtain ⟨hn, h⟩ := Option.ite_none_right_eq_some.1 h
    cases h
    exact .inl ⟨n, kept, rfl, hn, rfl⟩
  case h_2 n =>
    split at h
    case h_2 => cases h
    case h_1 a ha =>
    obtain ⟨hn, h⟩ := Option.ite_none_right_eq_some.1 h
    obtain ⟨⟨mgr, r⟩, hp, rfl⟩ := Option.map_eq_some_iff.1 h
    exact .inr (.inl ⟨n, a, mgr, r, rfl, ha, hn, hp, rfl⟩)
  case h_3 =>
    obtain ⟨⟨n, l, f⟩, he, h⟩ := Option.bind_eq_some_iff.1 h
    obtain ⟨hn, h⟩ := Option.ite_none_right_eq_some.1 h
    obtain ⟨x, hx, rfl⟩ := Option.map_eq_some_iff.1 h
    exact .inr (.inr ⟨n, l, f, x, he, hn, hx, rfl⟩)

lemma balanced_schedulerPoll (hb : Balanced names s) (ha : (s.scheds n).asking = some a)
    (hn : n ∈ names) (hp : schedulerPoll s.mgr n a = some (mgr, r)) :
    Balanced names { s.put n (s.scheds n).answered [] with mgr := mgr } := by
  intro trues k h
  have hsum := sum_put s hn (fun x => x.unsent trues k h) (s.scheds n).answered []
  have hs := hb trues k h
  have hold : (s.scheds n).unsent trues k h = (s.scheds n).answered.unsent trues k h +
      counter trues k (execInfoOf a.mempairExecInfo h) := by
    simp [Sched.unsent, Sched.answered, ha]
  have hnil : made trues k h [] = 0 := rfl
  simp only [counter_schedulerPoll hp, made_put, hnil]
  omega

lemma balanced_of_region (hb : Balanced names s) (he : regionOf e = some (n, l, f))
    (hf : ∀ x', f (s.scheds n) = some x' → ∀ trues k h,
      x'.unsent trues k h = (s.scheds n).unsent trues k h + made trues k h l)
    (h : step names s e = some t) : Balanced names t := by
  obtain ⟨_, _, rfl, -⟩ | ⟨_, _, _, _, rfl, -⟩ | ⟨n', l', f', x, he', hn, hx, rfl⟩ := step_cases h
  · cases he
  · cases he
  · cases he.symm.trans he'
    exact (balanced_put hb hn).2 (hf x hx)

/-- **One step keeps the sum if and only if it is orderly.** -/
lemma balanced_step (e : Ev) (hb : Balanced names s) :
    (∀ t, step names s e = some t → Balanced names t) ↔ Orderly names s e := by
  cases e with
  | connect n kept =>
    simp only [step, ite_none_right_eq_some, Orderly, some.injEq]
    have hiff := balanced_put (n := n) (x := newSched) (l := []) hb
    simp only [unsent_newSched] at hiff
    constructor
    · intro h hn trues k a
      have hb' := h _ ⟨hn, rfl⟩
      have := (hiff hn).1 hb' trues k a
      omega
    · rintro h t ⟨hn, rfl⟩
      exact (hiff hn).2 fun trues k a => by rw [h hn]; rfl
  | failWrite n i =>
    simp only [step, regionOf, bind_some, ite_none_right_eq_some, Orderly]
    constructor
    · intro h hn p hp
      have hx : failWrite i (s.scheds n) = some _ := congrArg (Option.map _) hp
      refine (unsent_failWrite hx).1 ?_ p hp
      exact (balanced_put hb hn).1 (h _ ⟨hn, by rw [hx]; rfl⟩)
    · rintro h t ⟨hn, ht⟩
      obtain ⟨x, hx, rfl⟩ := Option.map_eq_some_iff.1 ht
      exact (balanced_put hb hn).2 ((unsent_failWrite hx).2 (h hn))
  | schedulerPoll n =>
    refine iff_of_true (fun t ht => ?_) trivial
    obtain ⟨_, _, he, -⟩ | ⟨_, a, mgr, r, -, ha, hn, hp, rfl⟩ | ⟨_, _, _, _, he, -⟩ :=
      step_cases ht
    · cases he
    · exact balanced_schedulerPoll hb ha hn hp
    · cases he
  | executeCandidate n h isRace =>
    refine iff_of_true (fun t => balanced_of_region hb rfl fun x hx => ?_) trivial
    cases hx
    exact unsent_countExec (by simp)
  | updateExecInfo n h isLikelyCorpus isRace =>
    refine iff_of_true (fun t => balanced_of_region hb rfl fun x hx => ?_) trivial
    cases hx
    exact unsent_countExec (by cases isLikelyCorpus <;> simp)
  | failRead n h =>
    refine iff_of_true (fun t => balanced_of_region hb rfl fun x hx => ?_) trivial
    cases hx
    exact fun _ _ _ => rfl
  | grabExecInfo n sign finfos =>
    refine iff_of_true (fun t => balanced_of_region hb rfl fun x hx => ?_) trivial
    exact unsent_grabExecInfo hx

lemma Bounds.put (hs : Bounds s) (hx : x.Bounded) (n : Name) (l : List Verdict) :
    ∀ m, ((s.put n x l).scheds m).Bounded :=
  (forall_update_iff s.scheds fun _ => Sched.Bounded).2 ⟨hx, fun m _ => hs.scheds m⟩

lemma Sched.Bounded.region (hb : x.Bounded)
    (he : regionOf e = some (n, l, f)) (hx : f x = some x') : x'.Bounded := by
  unfold regionOf at he
  split at he <;> cases he
  case h_1 =>
    cases hx
    exact { hb with
      infos := bounded_insert hb.infos ((hb.infos _).addExecs (bounded_oneExec _ _)) _ }
  case h_2 =>
    cases hx
    exact { hb with
      infos := bounded_insert hb.infos ((hb.infos _).addExecs (bounded_oneExec _ _)) _ }
  case h_3 h =>
    cases hx
    exact { hb with failing := List.forall_mem_append.2 ⟨hb.failing, by simpa using hb.infos h⟩ }
  case h_4 i =>
    obtain ⟨⟨a, info⟩, hp, rfl⟩ := Option.map_eq_some_iff.1 hx
    refine ⟨bounded_insert hb.infos (fun k => ?_) a, fun p hp => ?_, hb.asking⟩
    · have hk := hb.failing _ (List.mem_of_getElem? hp) k
      cases k <;> exact hk
    · exact hb.failing p (List.mem_of_mem_eraseIdx hp)
  case h_5 sign finfos =>
    unfold grabExecInfo at hx
    split at hx <;> cases hx
    refine ⟨bounded_empty, hb.failing, fun a ha => ?_⟩
    cases ha
    exact hb.infos

lemma Bounds.step (hs : Bounds s) (h : step names s e = some t) : Bounds t := by
  obtain ⟨n, kept, -, -, rfl⟩ | ⟨n, a, mgr, r, -, ha, hn, hp, rfl⟩ |
      ⟨n, l, f, x, he, hn, hx, rfl⟩ :=
    step_cases h
  · exact ⟨hs.mgr, hs.put bounded_newSched n []⟩
  · refine ⟨?_, hs.put (x := (s.scheds n).answered) ?_ n []⟩
    case refine_2 => exact ⟨(hs.scheds n).infos, (hs.scheds n).failing, by simp [Sched.answered]⟩
    rw [(schedulerPoll_infos hp).1]
    refine forall_reportRaces (P := fun _ => Bounded) (fun h info kind hc k => ?_) (fun h => ?_) _ _
    · have hk := (hc k).1
      cases k <;> exact ⟨hk, le_refl _⟩
    · rw [execInfoOf_addExecInfo]
      exact (hs.mgr h).addExecs ((hs.scheds n).asking a ha h)
  · exact ⟨hs.mgr, hs.put ((hs.scheds n).region he hx) n l⟩

/-! ### Runs -/

/-- **When the counters add up.** In a run from the start, every step leaves the counters of the
manager and those that were not sent equal to the executions and true verdicts so far if and only
if every step is orderly. True verdicts and executions until a race was found are never more than
executions. -/
theorem counters_balanced_iff (es : List Ev) :
    (Meets (step names) (fun s e => ∀ t, step names s e = some t → Balanced names t) start es ↔
      Meets (step names) (Orderly names) start es) ∧
    ∀ t, run (step names) start es = some t → Bounds t := by
  have hst : Balanced names start := by
    intro trues k h
    rw [start, sum_eq_zero fun _ _ => unsent_newSched]
    exact counter_empty
  refine ⟨?_, fun t ht => ?_⟩
  · exact meets_iff_of_inv (I := Balanced names) (fun s e => balanced_step e)
      (fun s e t hb ho => (balanced_step e hb).2 ho t) hst es
  · refine run_inv_hist (I := fun _ => Bounds) ?_ (fun _ _ _ _ _ hs h => hs.step h) ht
    exact ⟨bounded_empty, fun _ => bounded_newSched⟩

/-- One candidate is executed. A proc that gives the pair up reads the counters before they are
taken by the poll, and writes them back afterwards. -/
def writtenBack : List Ev :=
  [.connect 0 [], .executeCandidate 0 7 false, .failRead 0 7, .grabExecInfo 0 ∅ [], .failWrite 0 0]

/-- The one execution is counted twice. -/
theorem writtenBack_counted_twice : ∃ t, run (step {0}) start writtenBack = some t ∧
    made false .triage 7 t.verdicts = 1 ∧ (t.scheds 0).unsent false .triage 7 = 2 ∧
    ¬ Balanced {0} t := by
  have hrun : (run (step {0}) start writtenBack).map (fun t => (made false .triage 7 t.verdicts,
      counter false .triage (execInfoOf t.mgr.mempairExecInfo 7),
      (t.scheds 0).unsent false .triage 7)) = some (1, 0, 2) := by
    decide +kernel
  obtain ⟨t, ht, hvw⟩ := Option.map_eq_some_iff.1 hrun
  simp only [Prod.mk.injEq] at hvw
  obtain ⟨hmd, hmgr, hun⟩ := hvw
  refine ⟨t, ht, hmd, hun, fun hb => ?_⟩
  have hsum := hb false .triage 7
  rw [sum_singleton, hmgr, hun, hmd] at hsum
  cases hsum

end Razzer.ExecTotals
