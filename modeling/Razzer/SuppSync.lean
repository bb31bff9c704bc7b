import Razzer.Cluster
import Razzer.DeltaSync

/-!
The replicas of the suppressed pairs.

The lists of pairs to add and to delete that the manager keeps for a client are a delta in
the sense of `DeltaSync`, which leads from the set the client has, or will have once it has
applied the reply that is under way, to the manager's set.
-/

namespace Razzer.SuppSync

open SyzManager Cluster DeltaSync Runs Function Option

def fuzzerDelta (f : SyzManager.Fuzzer) : Delta MempairHash :=
  ⟨f.suppPairsToAdd.toFinset, f.suppPairsToDel.toFinset⟩

def schedDelta (s : SyzManager.Scheduler) : Delta MempairHash :=
  ⟨s.suppPairsToAdd.toFinset, s.suppPairsToDel.toFinset⟩

def pollDelta (r : PollRes) : Delta MempairHash :=
  ⟨r.suppPairsToAdd.toFinset, r.suppPairsToDel.toFinset⟩

def schedPollDelta (r : SchedulerPollRes) : Delta MempairHash :=
  ⟨r.suppPairsToAdd.toFinset, r.suppPairsToDel.toFinset⟩

lemma fuzzer_finishPoll_supp (x : FuzzerProc) (r : PollRes) :
    (x.finishPoll r).suppressedPairs = (pollDelta r).apply x.suppressedPairs := rfl

lemma sched_finishPoll_supp (x : SchedulerProc) (r : SchedulerPollRes) :
    (x.finishPoll r).suppressedPairs = (schedPollDelta r).apply x.suppressedPairs :=
  x.finishPoll_supp r

/-! ### One client -/

section Link

variable {κ σ α ρ : Type} (suppOf : σ → Finset MempairHash) (deltaOf : ρ → Delta MempairHash)

/-- What the manager, whose set is `S`, keeps for a client to which it spoke last when its
set was `seen`. -/
def Follows (S seen : Finset MempairHash) (d : Option (Delta MempairHash)) :
    Link κ σ α ρ → Prop
  | .down => True
  | .registered => ∃ q, d = some q ∧ Settled S q
  | .welcomed _ => ∃ q, d = some q ∧ Tracks S seen q
  | .running x => ∃ q, d = some q ∧ Tracks S (suppOf x) q
  | .asking x _ => ∃ q, d = some q ∧ Tracks S (suppOf x) q
  | .answered x r => ∃ q, d = some q ∧ Tracks S seen q ∧ Tracks seen (suppOf x) (deltaOf r)

variable {suppOf deltaOf} {S seen : Finset MempairHash} {d : Option (Delta MempairHash)}
  {l l' : Link κ σ α ρ}

lemma Follows.change (h : Follows suppOf deltaOf S seen d l) (T : Finset MempairHash) :
    Follows suppOf deltaOf T seen (d.map fun q => q.change S T) l := by
  cases l with
  | down => trivial
  | registered | welcomed r | running x | asking x a =>
    obtain ⟨q, rfl, hq⟩ := h
    exact ⟨_, rfl, hq.change T⟩
  | answered x r =>
    obtain ⟨q, rfl, hq, hr⟩ := h
    exact ⟨_, rfl, hq.change T, hr⟩

lemma Follows.work {f : σ → σ} (h : Follows suppOf deltaOf S seen d l)
    (hf : ∀ x, suppOf (f x) = suppOf x) (hl : l.work f = some l') :
    Follows suppOf deltaOf S seen d l' := by
  cases l with
  | down | registered | welcomed r => simp [Link.work] at hl
  | running x | asking x a | answered x r =>
    cases hl
    simpa [Follows, hf] using h

end Link

/-! ### The invariant -/

def FollowsFuzzer (s : State) (n : Name) : Prop :=
  Follows FuzzerProc.suppressedPairs pollDelta s.mgr.suppressedPairs
    (s.fuzzerSeen n).suppressedPairs ((s.mgr.fuzzers n).map fuzzerDelta) (s.fuzzers n)

def FollowsSched (s : State) (n : Name) : Prop :=
  Follows SchedulerProc.suppressedPairs schedPollDelta s.mgr.suppressedPairs
    (s.schedSeen n).suppressedPairs ((s.mgr.schedulers n).map schedDelta) (s.scheds n)

structure Inv (s : State) : Prop where
  fuzzers : ∀ n, FollowsFuzzer s n
  scheds : ∀ n, FollowsSched s n

variable {n : Name} {s t : State} {mgr : Manager} {e : Ev}

lemma Inv.fuzzer (hi : Inv s) (hsp : t.mgr.suppressedPairs = s.mgr.suppressedPairs)
    (hrec : ∀ k ≠ n, (t.mgr.fuzzers k).map fuzzerDelta = (s.mgr.fuzzers k).map fuzzerDelta)
    (hsn : ∀ k ≠ n, t.fuzzerSeen k = s.fuzzerSeen k) (hln : ∀ k ≠ n, t.fuzzers k = s.fuzzers k)
    (hsc : t.mgr.schedulers = s.mgr.schedulers ∧ t.schedSeen = s.schedSeen ∧ t.scheds = s.scheds)
    (hn : FollowsFuzzer t n) : Inv t := by
  refine ⟨fun k => ?_, fun k => ?_⟩
  · by_cases hk : k = n
    · exact hk ▸ hn
    · have := hi.fuzzers k
      rwa [FollowsFuzzer, ← hsp, ← hrec k hk, ← hsn k hk, ← hln k hk] at this
  · have := hi.scheds k
    rwa [FollowsSched, ← hsp, ← hsc.1, ← hsc.2.1, ← hsc.2.2] at this

lemma Inv.sched (hi : Inv s) (hsp : t.mgr.suppressedPairs = s.mgr.suppressedPairs)
    (hrec : ∀ k ≠ n, (t.mgr.schedulers k).map schedDelta = (s.mgr.schedulers k).map schedDelta)
    (hsn : ∀ k ≠ n, t.schedSeen k = s.schedSeen k) (hln : ∀ k ≠ n, t.scheds k = s.scheds k)
    (hfz : t.mgr.fuzzers = s.mgr.fuzzers ∧ t.fuzzerSeen = s.fuzzerSeen ∧ t.fuzzers = s.fuzzers)
    (hn : FollowsSched t n) : Inv t := by
  refine ⟨fun k => ?_, fun k => ?_⟩
  · have := hi.fuzzers k
    rwa [FollowsFuzzer, ← hsp, ← hfz.1, ← hfz.2.1, ← hfz.2.2] at this
  · by_cases hk : k = n
    · exact hk ▸ hn
    · have := hi.scheds k
      rwa [FollowsSched, ← hsp, ← hrec k hk, ← hsn k hk, ← hln k hk] at this

/-! ### Replies -/

/-- A connect reply was built when no pair was suppressed, and a poll reply does not delete
a pair that was suppressed when it was built. -/
def Fresh (s : State) : Ev → Prop
  | .fuzzerInit n => ∀ r, s.fuzzers n = .welcomed r → (s.fuzzerSeen n).suppressedPairs = ∅
  | .fuzzerFinishPoll n => ∀ x r, s.fuzzers n = .answered x r →
      Disjoint (pollDelta r).dels (s.fuzzerSeen n).suppressedPairs
  | .schedInit n => ∀ r, s.scheds n = .welcomed r → (s.schedSeen n).suppressedPairs = ∅
  | .schedFinishPoll n => ∀ x r, s.scheds n = .answered x r →
      Disjoint (schedPollDelta r).dels (s.schedSeen n).suppressedPairs
  | _ => True

/-- A client that has just applied a reply has the set the manager had when it built the
reply. -/
def InSync (s : State) (e : Ev) : Prop :=
  ∀ t, step s e = some t →
    match e with
    | .fuzzerInit n | .fuzzerFinishPoll n =>
      ∀ x, t.fuzzers n = .running x → x.suppressedPairs = (t.fuzzerSeen n).suppressedPairs
    | .schedInit n | .schedFinishPoll n =>
      ∀ x, t.scheds n = .running x → x.suppressedPairs = (t.schedSeen n).suppressedPairs
    | _ => True

lemma inSync_fuzzerInit : InSync s (.fuzzerInit n) ↔ Fresh s (.fuzzerInit n) := by
  simp only [InSync, Fresh, step_fuzzerInit]
  constructor
  · intro h r hl
    exact (h _ ⟨r, hl, rfl⟩ _ (update_self ..)).symm
  · rintro h t ⟨r, hl, rfl⟩ x hx
    cases hx.symm.trans (update_self ..)
    exact (h r hl).symm

lemma inSync_schedInit : InSync s (.schedInit n) ↔ Fresh s (.schedInit n) := by
  have hsp : ∀ r, (schedulerInit r).suppressedPairs = ∅ := fun r => by
    obtain ⟨c, m, h⟩ := schedulerInit_eq r
    rw [h]
  simp only [InSync, Fresh, step_schedInit]
  constructor
  · intro h r hl
    exact (h _ ⟨r, hl, rfl⟩ _ (update_self ..)).symm.trans (hsp r)
  · rintro h t ⟨r, hl, rfl⟩ x hx
    cases hx.symm.trans (update_self ..)
    exact (hsp r).trans (h r hl).symm

lemma inSync_fuzzerFinishPoll (hi : Inv s) :
    InSync s (.fuzzerFinishPoll n) ↔ Fresh s (.fuzzerFinishPoll n) := by
  have hn := hi.fuzzers n
  unfold FollowsFuzzer at hn
  simp only [InSync, Fresh, step_fuzzerFinishPoll]
  constructor
  · intro h x r hl
    rw [hl] at hn
    obtain ⟨q, -, -, htr⟩ := hn
    exact htr.apply_eq_iff.1 (h _ ⟨x, r, hl, rfl⟩ _ (update_self ..))
  · rintro h t ⟨x, r, hl, rfl⟩ y hy
    cases hy.symm.trans (update_self ..)
    rw [hl] at hn
    obtain ⟨q, -, -, htr⟩ := hn
    exact htr.apply_eq_iff.2 (h x r hl)

lemma inSync_schedFinishPoll (hi : Inv s) :
    InSync s (.schedFinishPoll n) ↔ Fresh s (.schedFinishPoll n) := by
  have hn := hi.scheds n
  unfold FollowsSched at hn
  simp only [InSync, Fresh, step_schedFinishPoll]
  constructor
  · intro h x r hl
    rw [hl] at hn
    obtain ⟨q, -, -, htr⟩ := hn
    rw [← htr.apply_eq_iff, ← sched_finishPoll_supp]
    exact h _ ⟨x, r, hl, rfl⟩ _ (update_self ..)
  · rintro h t ⟨x, r, hl, rfl⟩ y hy
    cases hy.symm.trans (update_self ..)
    rw [hl] at hn
    obtain ⟨q, -, -, htr⟩ := hn
    rw [sched_finishPoll_supp]
    exact htr.apply_eq_iff.2 (h x r hl)

lemma inSync_iff (e : Ev) (hi : Inv s) : InSync s e ↔ Fresh s e := by
  cases e with
  | fuzzerInit n => exact inSync_fuzzerInit
  | fuzzerFinishPoll n => exact inSync_fuzzerFinishPoll hi
  | schedInit n => exact inSync_schedInit
  | schedFinishPoll n => exact inSync_schedFinishPoll hi
  | _ => simp [InSync, Fresh]

/-! ### Steps -/

lemma inv_init : Inv Cluster.init := ⟨fun _ => trivial, fun _ => trivial⟩

lemma inv_updateSuppPairs {drops dels adds : List MempairHash} (hi : Inv s)
    (h : updateSuppPairs s.mgr drops dels adds = some mgr) : Inv { s with mgr := mgr } := by
  unfold updateSuppPairs at h
  simp only at h
  split at h
  case isFalse => simp at h
  case isTrue hg =>
    obtain ⟨-, -, -, -, hdl, -, had⟩ := hg
    rw [some.injEq] at h
    subst h
    refine ⟨fun n => ?_, fun n => ?_⟩
    · have := (hi.fuzzers n).change ((overThreshold s.mgr).toFinset \ drops.toFinset)
      rw [map_map] at this
      unfold FollowsFuzzer
      rw [map_map]
      convert this using 2
      funext f
      simp [fuzzerDelta, Fuzzer.addSupp, Delta.change, hdl, had]
    · have := (hi.scheds n).change ((overThreshold s.mgr).toFinset \ drops.toFinset)
      rw [map_map] at this
      unfold FollowsSched
      rw [map_map]
      convert this using 2
      funext f
      simp [schedDelta, Scheduler.addSupp, Delta.change, hdl, had]

lemma Inv.records (hi : Inv s) (hsp : mgr.suppressedPairs = s.mgr.suppressedPairs)
    (hf : ∀ k, (mgr.fuzzers k).map fuzzerDelta = (s.mgr.fuzzers k).map fuzzerDelta)
    (hs : ∀ k, (mgr.schedulers k).map schedDelta = (s.mgr.schedulers k).map schedDelta) :
    Inv { s with mgr := mgr } := by
  refine ⟨fun k => ?_, fun k => ?_⟩
  · have := hi.fuzzers k
    rwa [FollowsFuzzer, ← hsp, ← hf] at this
  · have := hi.scheds k
    rwa [FollowsSched, ← hsp, ← hs] at this

lemma Inv.setFuzzer {l : FuzzerLink} (hi : Inv s)
    (hl : Follows FuzzerProc.suppressedPairs pollDelta s.mgr.suppressedPairs (s.fuzzerSeen
      n).suppressedPairs ((s.mgr.fuzzers n).map fuzzerDelta) l) : Inv (s.setFuzzer n l) := by
  refine hi.fuzzer (n := n) rfl (fun _ _ => rfl) (fun _ _ => rfl) (fun k hk => ?_)
    ⟨rfl, rfl, rfl⟩ ?_
  · exact update_of_ne hk _ _
  · simpa [FollowsFuzzer, State.setFuzzer] using hl

lemma Inv.setSched {l : SchedLink} (hi : Inv s)
    (hl : Follows SchedulerProc.suppressedPairs schedPollDelta s.mgr.suppressedPairs (s.schedSeen
      n).suppressedPairs ((s.mgr.schedulers n).map schedDelta) l) : Inv (s.setSched n l) := by
  refine hi.sched (n := n) rfl (fun _ _ => rfl) (fun _ _ => rfl) (fun k hk => ?_)
    ⟨rfl, rfl, rfl⟩ ?_
  · exact update_of_ne hk _ _
  · simpa [FollowsSched, State.setSched] using hl

variable {x : FuzzerProc} {a : PollArgs} {r : PollRes} {f : FuzzerProc → FuzzerProc}

lemma inv_fuzzerPoll (hi : Inv s) (hl : s.fuzzers n = .asking x a)
    (h : fuzzerPoll s.mgr n a = some (mgr, r)) :
    Inv { s.setFuzzer n (.answered x r) with
      mgr := mgr
      fuzzerSeen := update s.fuzzerSeen n mgr } := by
  obtain ⟨f, hf, rfl, rfl⟩ := fuzzerPoll_eq h
  have hn := hi.fuzzers n
  rw [FollowsFuzzer, hl, hf] at hn
  obtain ⟨q, hq, htr⟩ := hn
  cases hq
  refine hi.fuzzer (n := n) rfl (fun k hk => ?_) (fun k hk => ?_) (fun k hk => ?_)
    ⟨rfl, rfl, rfl⟩ ?_
  · simp only [polled, update_of_ne hk, others, hk, if_false, map_map]
    rfl
  · exact update_of_ne hk _ _
  · exact update_of_ne hk _ _
  · simp only [FollowsFuzzer, State.setFuzzer, polled, update_self]
    exact ⟨_, rfl, tracks_empty, htr⟩

lemma inv_schedPoll {x : SchedulerProc} {a : SchedulerPollArgs} {r : SchedulerPollRes} (hi : Inv s)
    (hl : s.scheds n = .asking x a) (h : schedulerPoll s.mgr n a = some (mgr, r))
    (owed due reported : Name → List MempairHash) :
    Inv { s.setSched n (.answered x r) with
      mgr := mgr
      schedSeen := update s.schedSeen n mgr
      owed := owed
      due := due
      reported := reported } := by
  obtain ⟨f, infos, new, hf, -, rfl, rfl⟩ := schedulerPoll_eq h
  have hn := hi.scheds n
  rw [FollowsSched, hl, hf] at hn
  obtain ⟨q, hq, htr⟩ := hn
  cases hq
  refine hi.sched (n := n) rfl (fun k hk => ?_) (fun k hk => ?_) (fun k hk => ?_)
    ⟨rfl, rfl, rfl⟩ ?_
  · simp only [update_of_ne hk, others, hk, if_false, map_map]
    rfl
  · exact update_of_ne hk _ _
  · exact update_of_ne hk _ _
  · simp only [FollowsSched, State.setSched, update_self]
    exact ⟨_, rfl, tracks_empty, htr⟩

lemma fuzzerWorkOf_supp (hf : fuzzerWorkOf e = some (n, f)) (x : FuzzerProc) :
    (f x).suppressedPairs = x.suppressedPairs := by
  unfold fuzzerWorkOf at hf
  split at hf <;> cases hf
  case h_1 raw p =>
    rw [FuzzerProc.checkNewSignal_eq]
    rfl
  case h_2 => rfl
  case h_3 sign =>
    unfold FuzzerProc.addInput
    split <;> rfl

lemma inv_fuzzerStep (hi : Inv s) (hfr : Fresh s e) (h : FuzzerStep s e t) : Inv t := by
  cases h with
  | register n =>
    refine hi.fuzzer (n := n) rfl (fun k hk => ?_) (fun _ _ => rfl) (fun k hk => ?_)
      ⟨rfl, rfl, rfl⟩ ?_
    · simp only [register, update_of_ne hk]
    · exact update_of_ne hk _ _
    · simp only [FollowsFuzzer, State.setFuzzer, register, update_self]
      exact ⟨_, rfl, settled_empty⟩
  | reply n hl =>
    have hn := hi.fuzzers n
    rw [FollowsFuzzer, hl] at hn
    obtain ⟨q, hq, hset⟩ := hn
    refine hi.fuzzer (n := n) rfl (fun _ _ => rfl) (fun k hk => ?_) (fun k hk => ?_)
      ⟨rfl, rfl, rfl⟩ ?_
    · exact update_of_ne hk _ _
    · exact update_of_ne hk _ _
    · simp only [FollowsFuzzer, State.setFuzzer, update_self]
      exact ⟨q, hq, hset.tracks⟩
  | init n r hl =>
    have hn := hi.fuzzers n
    rw [FollowsFuzzer, hl, hfr _ hl] at hn
    exact hi.setFuzzer hn
  | initPoll n x hl =>
    have hn := hi.fuzzers n
    rw [FollowsFuzzer, hl] at hn
    exact hi.setFuzzer hn
  | poll n x a f r hl hp => exact inv_fuzzerPoll hi hl hp
  | finishPoll n x r hl =>
    have hn := hi.fuzzers n
    rw [FollowsFuzzer, hl] at hn
    obtain ⟨q, hq, htr, happ⟩ := hn
    refine hi.setFuzzer ⟨q, hq, ?_⟩
    rwa [fuzzer_finishPoll_supp, happ.apply_eq_iff.2 (hfr _ _ hl)]
  | work e n f l hf hl =>
    exact hi.setFuzzer ((hi.fuzzers n).work (fuzzerWorkOf_supp hf) hl)

lemma schedWorkOf_supp {f : SchedulerProc → SchedulerProc} (hf : schedWorkOf e = some (n, f))
    (x : SchedulerProc) :
    (f x).suppressedPairs = x.suppressedPairs := by
  unfold schedWorkOf at hf
  split at hf <;> cases hf
  case h_1 raw p =>
    rw [x.checkNewRaceSignal_eq]
    rfl
  case h_2 => rfl
  case h_3 hsh kind =>
    obtain ⟨l, m, f, h⟩ := x.updateTrueRaceInfo_eq hsh kind
    rw [h]
  case h_4 => rfl
  case h_5 sign =>
    obtain ⟨c, m, h⟩ := x.addRaceInput_eq sign
    simp only [h]
  case h_6 rinp =>
    obtain ⟨c, l, h⟩ := x.finishLikely_eq rinp
    rw [h]

lemma inv_schedStep (hi : Inv s) (hfr : Fresh s e) (h : SchedStep s e t) : Inv t := by
  cases h with
  | register n kept =>
    refine hi.sched (n := n) rfl (fun k hk => ?_) (fun _ _ => rfl) (fun k hk => ?_)
      ⟨rfl, rfl, rfl⟩ ?_
    · simp only [schedulerRegister, minimizeRaceCorpus, update_of_ne hk]
    · exact update_of_ne hk _ _
    · simp only [FollowsSched, State.setSched, schedulerRegister, update_self]
      exact ⟨_, rfl, settled_empty⟩
  | reply n hl =>
    have hn := hi.scheds n
    rw [FollowsSched, hl] at hn
    obtain ⟨q, hq, hset⟩ := hn
    refine hi.sched (n := n) rfl (fun k hk => ?_) (fun k hk => ?_) (fun k hk => ?_)
      ⟨rfl, rfl, rfl⟩ ?_
    · simp only [queueLikely, update_of_ne hk]
    · exact update_of_ne hk _ _
    · exact update_of_ne hk _ _
    · simp only [FollowsSched, State.setSched, update_self, queueLikely]
      exact ⟨q, by rw [map_map]; exact hq, hset.tracks⟩
  | init n r hl =>
    have hn := hi.scheds n
    rw [FollowsSched, hl, hfr _ hl] at hn
    obtain ⟨q, hq, htr⟩ := hn
    obtain ⟨c, m, hint⟩ := schedulerInit_eq r
    refine hi.setSched ⟨q, hq, ?_⟩
    rwa [hint]
  | initPoll n x hl =>
    have hn := hi.scheds n
    rw [FollowsSched, hl] at hn
    exact hi.setSched hn
  | poll n x a mgr r hl hp => exact inv_schedPoll hi hl hp _ _ _
  | finishPoll n x r hl =>
    have hn := hi.scheds n
    rw [FollowsSched, hl] at hn
    obtain ⟨q, hq, htr, happ⟩ := hn
    refine hi.setSched ⟨q, hq, ?_⟩
    rwa [sched_finishPoll_supp, happ.apply_eq_iff.2 (hfr _ _ hl)]
  | work e n f l hf hl =>
    exact hi.setSched ((hi.scheds n).work (schedWorkOf_supp hf) hl)

lemma inv_managerStep (hi : Inv s) (h : ManagerStep s e t) : Inv t := by
  cases h with
  | updateSuppPairs drops dels adds new hm => exact inv_updateSuppPairs hi hm
  | newRaceInput n sig rinp corpus signal rinputs hm =>
    exact hi.records rfl (fun _ => rfl) fun k => map_others (by exact fun _ => rfl) n _ k
  | newInput n sig inp corpus signal inputs =>
    exact hi.records rfl (fun k => map_others (by exact fun _ => rfl) n _ k) fun _ => rfl
  | newLikelyRaceInput n rinp coin l mgr hl hm =>
    have hset := hi.setSched ((hi.scheds n).work (by exact fun _ => rfl) hl)
    rcases newLikelyRaceInput_eq hm with ⟨-, rfl⟩ | ⟨-, rfl⟩
    · exact hset
    · exact hset.records rfl (fun _ => rfl) fun k => map_others (by exact fun _ => rfl) n _ k
  | minimizeRaceCorpus kept | minimizeCorpus kept | reorderLikely corpus hp =>
    exact hi.records rfl (fun _ => rfl) fun _ => rfl

lemma inv_step (s : State) (e : Ev) (t : State) (hi : Inv s) (hfr : Fresh s e)
    (h : step s e = some t) : Inv t := by
  rcases step_cases h with h | h | h
  · exact inv_fuzzerStep hi hfr h
  · exact inv_schedStep hi hfr h
  · exact inv_managerStep hi h

/-- **When the replicas follow the manager.** In a run from the empty system, every client
that applies a reply then has the suppressed pairs the manager had when it built the reply,
if and only if every connect reply that is used was built while no pair was suppressed, and
no poll reply that is used deletes a pair that was suppressed when it was built. -/
theorem replicas_in_sync_iff (es : List Ev) :
    Meets step InSync Cluster.init es ↔ Meets step Fresh Cluster.init es :=
  meets_iff_of_inv (I := Inv) (fun _ e hi => inSync_iff e hi) inv_step inv_init es

def manyExecs : RaceExecInfo := { noExecs with triageExecs := 501 }

def lateFuzzer : List Ev :=
  [.schedRegister 0 [], .schedReply 0, .schedInit 0, .schedExecs 0 7 manyExecs,
    .schedExecs 0 8 noExecs, .schedInitPoll 0, .schedPoll 0, .schedFinishPoll 0,
    .updateSuppPairs [] [] [7], .fuzzerRegister 1, .fuzzerReply 1]

def replicaOf : FuzzerLink → Option (Finset MempairHash)
  | .running x => some x.suppressedPairs
  | _ => none

lemma lateFuzzer_state :
    (run step Cluster.init (lateFuzzer ++ [.fuzzerInit 1])).map (fun t =>
      (replicaOf (t.fuzzers 1), (t.fuzzerSeen 1).suppressedPairs)) = some (some ∅, {7}) := by
  decide +kernel

/-- A fuzzer that connects late does not learn of the pairs suppressed before. -/
theorem late_fuzzer_out_of_sync :
    ¬ Meets step InSync Cluster.init (lateFuzzer ++ [.fuzzerInit 1]) := by
  obtain ⟨t, ht, hvw⟩ := Option.map_eq_some_iff.1 lateFuzzer_state
  obtain ⟨m, hm, hst⟩ := run_snoc ht
  rw [meets_snoc hm]
  rintro ⟨-, hsy⟩
  simp only [Prod.mk.injEq] at hvw
  obtain ⟨hrep, hsn⟩ := hvw
  unfold replicaOf at hrep
  split at hrep
  case h_2 => cases hrep
  case h_1 x hl =>
    have heq := hsy t hst x hl
    rw [hsn, some.inj hrep] at heq
    exact absurd heq (by decide)

end Razzer.SuppSync
