import Razzer.RaceWork

/-!
The work queue of a scheduler.

The threads of a scheduler take work out of a queue under its lock, and the poll loop adds
candidates to it and cleans it up. Each critical section is one step here, so that the steps of
different threads can come in any order. A soft clean-up has two critical sections: one to find
the candidates that are not suppressed, and one to put them into the queue. Nothing is lost or
executed twice if the queue of candidates does not change between the two.
-/

namespace Razzer.CandQueue

open SyzManager Runs List Function
open RaceWork (WorkCandidate WorkTriage)

deriving instance DecidableEq for RaceWork.WorkCandidate

/-! ### What the queue reaches through its scheduler -/

inductive Stat
  | rcSoftCleanup | rcHardCleanup | rcDrop | rcDropSurv
  deriving DecidableEq

structure Scheduler where
  suppressedPairs : Finset MempairHash
  stats : Stat → UInt64

def Scheduler.addStat (x : Scheduler) (stat : Stat) (n : UInt64) : Scheduler :=
  { x with stats := update x.stats stat (x.stats stat + n) }

def Scheduler.increaseStat (x : Scheduler) (stat : Stat) : Scheduler := x.addStat stat 1

def Scheduler.isSuppressedPairs (x : Scheduler) (hsh : MempairHash) : Bool :=
  decide (hsh ∈ x.suppressedPairs)

def Scheduler.updateSuppressedPairs (x : Scheduler) (addList delList : List MempairHash) :
    Scheduler :=
  { x with suppressedPairs := (x.suppressedPairs ∪ addList.toFinset) \ delList.toFinset }

/-! ### The queue -/

/-- A reference to a candidate. -/
structure Cand where
  addr : ℕ
  work : WorkCandidate
  deriving DecidableEq

structure WorkSmash where
  p : String
  call : ℕ

inductive Item (α : Type)
  | triage (item : WorkTriage)
  | candidate (item : α)
  | smash (item : WorkSmash)

/-- The channel `needCandidates` has room for one element. -/
structure WorkQueue where
  candidate : List Cand
  triage : List WorkTriage
  smash : List WorkSmash
  procs : ℕ
  needCandidates : Bool

def newWorkQueue (procs : ℕ) (needCandidates : Bool) : WorkQueue :=
  ⟨[], [], [], procs, needCandidates⟩

def enqueue (wq : WorkQueue) : Item Cand → WorkQueue
  | .triage item => { wq with triage := wq.triage ++ [item] }
  | .candidate item => { wq with candidate := wq.candidate ++ [item] }
  | .smash item => { wq with smash := wq.smash ++ [item] }

def hasWork (wq : WorkQueue) : Bool :=
  decide (wq.candidate.length + wq.triage.length + wq.smash.length ≠ 0)

def wantCandidates (wq : WorkQueue) : Bool := decide (wq.candidate.length < wq.procs)

/-- The second critical section of `dequeue`. The queue may be empty again. -/
def dequeue (wq : WorkQueue) : Option (Item Cand) × WorkQueue :=
  match wq.triage.getLast? with
  | some item => (some (.triage item), { wq with triage := wq.triage.dropLast })
  | none =>
    match wq.candidate.getLast? with
    | some item =>
      let wq := { wq with candidate := wq.candidate.dropLast }
      (some (.candidate item),
        { wq with needCandidates := wq.needCandidates || wantCandidates wq })
    | none =>
      match wq.smash.getLast? with
      | some item => (some (.smash item), { wq with smash := wq.smash.dropLast })
      | none => (none, wq)

def shouldCleanup (wq : WorkQueue) (thold : ℕ) : Bool := decide (thold < wq.candidate.length)

def shouldSoftCleanupRaceCands (wq : WorkQueue) : Bool := shouldCleanup wq 10000

def shouldHardCleanupRaceCands (wq : WorkQueue) : Bool := shouldCleanup wq 50000

def unsuppressed : List Cand → Scheduler → List Cand × Scheduler
  | [], x => ([], x)
  | rc :: rcs, x =>
    if x.isSuppressedPairs rc.work.raceInfo.hash then unsuppressed rcs (x.increaseStat .rcDrop)
    else
      let (updatedRaceCands, x) := unsuppressed rcs (x.increaseStat .rcDropSurv)
      (rc :: updatedRaceCands, x)

lemma unsuppressed_eq (rcs : List Cand) (x : Scheduler) :
    (unsuppressed rcs x).1 = rcs.filter fun rc => !x.isSuppressedPairs rc.work.raceInfo.hash := by
  induction rcs generalizing x with
  | nil => rfl
  | cons rc rcs ih =>
    rw [unsuppressed, filter_cons]
    cases h : x.isSuppressedPairs rc.work.raceInfo.hash with
    | true =>
      rw [if_pos rfl, ih]
      rfl
    | false =>
      rw [if_neg (by simp)]
      exact congrArg (rc :: ·) (ih _)

lemma unsuppressed_sublist (rcs : List Cand) (x : Scheduler) :
    (unsuppressed rcs x).1.Sublist rcs := by
  rw [unsuppressed_eq]
  exact filter_sublist

lemma dequeue_cases (wq : WorkQueue) :
    (∃ rc, (dequeue wq).1 = some (.candidate rc) ∧
      wq.candidate = (dequeue wq).2.candidate ++ [rc]) ∨
    ((∀ rc, (dequeue wq).1 ≠ some (.candidate rc)) ∧
      (dequeue wq).2.candidate = wq.candidate) := by
  unfold dequeue
  split
  · exact .inr ⟨by simp, rfl⟩
  · split
    · next item hls => exact .inl ⟨item, rfl, (dropLast_append_getLast? item hls).symm⟩
    · split
      · exact .inr ⟨by simp, rfl⟩
      · exact .inr ⟨by simp, rfl⟩

/-! ### Interleavings -/

/-- A soft clean-up between its critical sections. The queue that it has gone through is only
recorded. -/
structure Cleanup where
  seen : List Cand
  updatedRaceCands : List Cand

/-- The queue, the next free address, and the threads that are between the critical sections of
`dequeue`. What has been enqueued and dequeued is only recorded. -/
structure State where
  wq : WorkQueue
  scheduler : Scheduler
  next : ℕ
  taking : ℕ → Bool
  cleanup : Option Cleanup
  enqueued : List Cand
  dequeued : List Cand

inductive Ev
  | enqueue (item : Item WorkCandidate)
  | look (i : ℕ)
  | take (i : ℕ)
  | scan
  | install
  | suppress (addList delList : List MempairHash)

def State.enqueue (s : State) : Item WorkCandidate → State
  | .triage item => { s with wq := CandQueue.enqueue s.wq (.triage item) }
  | .smash item => { s with wq := CandQueue.enqueue s.wq (.smash item) }
  | .candidate item =>
    let rc : Cand := ⟨s.next, item⟩
    { s with
      wq := CandQueue.enqueue s.wq (.candidate rc)
      next := s.next + 1
      enqueued := rc :: s.enqueued }

def State.take (s : State) (i : ℕ) : State :=
  { s with
    wq := (dequeue s.wq).2
    taking := update s.taking i false
    dequeued :=
      match (dequeue s.wq).1 with
      | some (.candidate rc) => rc :: s.dequeued
      | _ => s.dequeued }

def State.scan (s : State) : State :=
  let (updatedRaceCands, x) :=
    unsuppressed s.wq.candidate (s.scheduler.increaseStat .rcSoftCleanup)
  { s with scheduler := x, cleanup := some ⟨s.wq.candidate, updatedRaceCands⟩ }

/-- One critical section. Each thread has its own sections in order. -/
def step (s : State) : Ev → Option State
  | .enqueue item => some (s.enqueue item)
  | .look i =>
    if s.taking i then none
    else some { s with taking := update s.taking i (hasWork s.wq) }
  | .take i => if s.taking i then some (s.take i) else none
  | .scan => if s.cleanup.isSome then none else some s.scan
  | .install =>
    s.cleanup.map fun c =>
      { s with wq := { s.wq with candidate := c.updatedRaceCands }, cleanup := none }
  | .suppress addList delList =>
    some { s with scheduler := s.scheduler.updateSuppressedPairs addList delList }

def start (procs : ℕ) (x : Scheduler) : State :=
  ⟨newWorkQueue procs false, x, 0, fun _ => false, none, [], []⟩

/-- The candidates are those that the clean-up has gone through. -/
def Undisturbed (s : State) (e : Ev) : Prop :=
  match e, s.cleanup with
  | .install, some c => s.wq.candidate = c.seen
  | _, _ => True

instance (s : State) (e : Ev) : Decidable (Undisturbed s e) := by
  unfold Undisturbed
  split <;> infer_instance

def FindsSuppressed (rc : Cand) (s : State) (e : Ev) : Prop :=
  e = .scan ∧ rc ∈ s.wq.candidate ∧ rc.work.raceInfo.hash ∈ s.scheduler.suppressedPairs

/-! ### What a step does to candidates -/

inductive Steps (s : State) : Ev → State → Prop
  | other (e : Ev) (t : State) (hcand : t.wq.candidate = s.wq.candidate) (hnext : t.next = s.next)
      (hcleanup : t.cleanup = s.cleanup) (henq : t.enqueued = s.enqueued)
      (hdeq : t.dequeued = s.dequeued) : Steps s e t
  | enqueue (item : WorkCandidate) : Steps s (.enqueue (.candidate item))
      (s.enqueue (.candidate item))
  | take (i : ℕ) (rc : Cand) (t : State) (hcand : s.wq.candidate = t.wq.candidate ++ [rc])
      (hnext : t.next = s.next) (hcleanup : t.cleanup = s.cleanup)
      (henq : t.enqueued = s.enqueued) (hdeq : t.dequeued = rc :: s.dequeued) :
      Steps s (.take i) t
  | scan : Steps s .scan s.scan
  | install (c : Cleanup) (hc : s.cleanup = some c) : Steps s .install
      { s with wq := { s.wq with candidate := c.updatedRaceCands }, cleanup := none }

lemma steps_take (s : State) (i : ℕ) : Steps s (.take i) (s.take i) := by
  rcases dequeue_cases s.wq with ⟨rc, him, hcn⟩ | ⟨him, hcn⟩
  · exact .take i rc _ hcn rfl rfl rfl (by simp only [State.take, him])
  · refine .other _ _ hcn rfl rfl rfl ?_
    rw [State.take]
    split
    · next rc hrc => exact absurd hrc (him rc)
    · rfl

variable {s t : State} {Supp : Cand → Prop}

variable {e : Ev} {c : Cleanup} {x : Scheduler} {es : List Ev}

lemma steps_of (h : step s e = some t) : Steps s e t := by
  cases e with
  | enqueue item =>
    cases h
    cases item with
    | triage item | smash item => exact .other _ _ rfl rfl rfl rfl rfl
    | candidate item => exact .enqueue item
  | look i =>
    rw [step] at h
    split_ifs at h
    cases h
    exact .other _ _ rfl rfl rfl rfl rfl
  | take i =>
    rw [step] at h
    split_ifs at h
    cases h
    exact steps_take s i
  | scan =>
    rw [step] at h
    split_ifs at h
    cases h
    exact .scan
  | install =>
    obtain ⟨c, hc, rfl⟩ := Option.map_eq_some_iff.1 h
    exact .install c hc
  | suppress addList delList =>
    cases h
    exact .other _ _ rfl rfl rfl rfl rfl

/-! ### Candidates are neither lost nor executed twice -/

/-- `Supp` has the candidates that a clean-up has found suppressed. -/
structure Inv (Supp : Cand → Prop) (s : State) : Prop where
  nodup : (s.dequeued ++ s.wq.candidate).Nodup
  allocated : ∀ rc ∈ s.dequeued ++ s.wq.candidate, rc.addr < s.next
  kept : ∀ rc ∈ s.enqueued, rc ∈ s.wq.candidate ∨ rc ∈ s.dequeued ∨ Supp rc
  cleanup : ∀ c, s.cleanup = some c → c.updatedRaceCands.Sublist c.seen ∧
    ∀ rc ∈ c.seen, rc ∈ c.updatedRaceCands ∨ Supp rc

lemma inv_start (procs : ℕ) (x : Scheduler) (Supp : Cand → Prop) : Inv Supp (start procs x) where
  nodup := nodup_nil
  allocated := by simp [start, newWorkQueue]
  kept := by simp [start]
  cleanup := fun c hc => by cases hc

lemma Inv.mono {Supp' : Cand → Prop} (h : Inv Supp s) (hsp : ∀ rc, Supp rc → Supp' rc) :
    Inv Supp' s where
  nodup := h.nodup
  allocated := h.allocated
  kept rc hrc := (h.kept rc hrc).imp_right (Or.imp_right (hsp rc))
  cleanup c hc :=
    ⟨(h.cleanup c hc).1, fun rc hrc => ((h.cleanup c hc).2 rc hrc).imp_right (hsp rc)⟩

lemma Inv.enqueue (h : Inv Supp s) (item : WorkCandidate) :
    Inv Supp (s.enqueue (.candidate item)) where
  nodup := by
    have hnew : (⟨s.next, item⟩ : Cand) ∉ s.dequeued ++ s.wq.candidate := fun hmem =>
      absurd (h.allocated _ hmem) (lt_irrefl _)
    show (s.dequeued ++ (s.wq.candidate ++ [(⟨s.next, item⟩ : Cand)])).Nodup
    rw [← append_assoc]
    exact h.nodup.append (nodup_singleton _) (disjoint_singleton.2 hnew)
  allocated := by
    intro rc hrc
    have hrc : rc ∈ (s.dequeued ++ s.wq.candidate) ++ [(⟨s.next, item⟩ : Cand)] := by
      rw [append_assoc]
      exact hrc
    rcases mem_append.1 hrc with hrc | hrc
    · exact Nat.lt_succ_of_lt (h.allocated rc hrc)
    · rw [mem_singleton.1 hrc]
      exact Nat.lt_succ_self _
  kept := by
    intro rc hrc
    rcases mem_cons.1 hrc with rfl | hrc
    · exact .inl (mem_append_right _ mem_cons_self)
    · exact (h.kept rc hrc).imp_left (mem_append_left _)
  cleanup := h.cleanup

lemma Inv.take (h : Inv Supp s) {rc : Cand} (hcn : s.wq.candidate = t.wq.candidate ++ [rc])
    (hnx : t.next = s.next) (hcl : t.cleanup = s.cleanup) (henq : t.enqueued = s.enqueued)
    (hdeq : t.dequeued = rc :: s.dequeued) : Inv Supp t := by
  have hpr : (t.dequeued ++ t.wq.candidate).Perm (s.dequeued ++ s.wq.candidate) := by
    rw [hdeq, hcn, ← append_assoc]
    exact (perm_append_singleton rc _).symm
  refine ⟨hpr.nodup_iff.2 h.nodup, fun x hx => ?_, fun x hx => ?_, fun c hc => ?_⟩
  · rw [hnx]
    exact h.allocated x (hpr.mem_iff.1 hx)
  · rw [henq] at hx
    rcases h.kept x hx with hx | hx | hx
    · rw [hcn, mem_append, mem_singleton] at hx
      rcases hx with hx | rfl
      · exact .inl hx
      · exact .inr (.inl (hdeq ▸ mem_cons_self))
    · exact .inr (.inl (hdeq ▸ mem_cons_of_mem _ hx))
    · exact .inr (.inr hx)
  · rw [hcl] at hc
    exact h.cleanup c hc

lemma Inv.scan (h : Inv Supp s)
    (hsp : ∀ rc ∈ s.wq.candidate, rc.work.raceInfo.hash ∈ s.scheduler.suppressedPairs → Supp rc) :
    Inv Supp s.scan where
  nodup := h.nodup
  allocated := h.allocated
  kept := h.kept
  cleanup := by
    rintro c hc
    obtain rfl := Option.some.inj hc
    refine ⟨unsuppressed_sublist _ _, fun rc hrc => ?_⟩
    by_cases hmem : rc.work.raceInfo.hash ∈ s.scheduler.suppressedPairs
    · exact .inr (hsp rc hrc hmem)
    · left
      show rc ∈ (unsuppressed s.wq.candidate _).1
      rw [unsuppressed_eq]
      refine mem_filter.2 ⟨hrc, ?_⟩
      simp [Scheduler.isSuppressedPairs, Scheduler.increaseStat, Scheduler.addStat, hmem]

/-- What is not put back has been found suppressed, and nothing is put back that has been taken
out. -/
lemma Inv.install (h : Inv Supp s) (hc : s.cleanup = some c) (hsn : s.wq.candidate = c.seen) :
    Inv Supp { s with wq := { s.wq with candidate := c.updatedRaceCands }, cleanup := none } := by
  obtain ⟨hsub, hsp⟩ := h.cleanup c hc
  rw [← hsn] at hsub hsp
  have hsub' := hsub.append_left s.dequeued
  refine ⟨h.nodup.sublist hsub', fun rc hrc => h.allocated rc (hsub'.subset hrc), fun rc hrc => ?_,
    fun c hc => by cases hc⟩
  rcases h.kept rc hrc with hrc | hrc
  · exact (hsp rc hrc).imp_right .inr
  · exact .inr hrc

lemma Inv.step (h : Inv Supp s) (hqt : Undisturbed s e)
    (hsp : ∀ rc, FindsSuppressed rc s e → Supp rc) (hst : Steps s e t) : Inv Supp t := by
  cases hst with
  | other e t hcn hnx hcl henq hdeq =>
    refine ⟨?_, ?_, ?_, ?_⟩
    · rw [hdeq, hcn]
      exact h.nodup
    · rw [hdeq, hcn, hnx]
      exact h.allocated
    · rw [henq, hcn, hdeq]
      exact h.kept
    · rw [hcl]
      exact h.cleanup
  | enqueue item => exact h.enqueue item
  | take i rc t hcn hnx hcl henq hdeq => exact h.take hcn hnx hcl henq hdeq
  | scan => exact h.scan fun rc hrc hmem => hsp rc ⟨rfl, hrc, hmem⟩
  | install c hc =>
    simp only [Undisturbed, hc] at hqt
    exact h.install hc hqt

lemma inv_run {procs : ℕ} (hrun : run step (start procs x) es = some s)
    (hqt : Meets step Undisturbed (start procs x) es) :
    Inv (fun rc => Took step (FindsSuppressed rc) (start procs x) es) s := by
  refine run_inv_hist (s := start procs x)
    (I := fun es s => Meets step Undisturbed (start procs x) es →
      Inv (fun rc => Took step (FindsSuppressed rc) (start procs x) es) s)
    (fun _ => inv_start procs x _) (fun u m e t hm hinv he hqt => ?_) hrun hqt
  obtain ⟨hu, hls⟩ := (meets_snoc hm).1 hqt
  refine ((hinv hu).mono fun rc hrc => hrc.mono [e]).step hls (fun rc hrc => ?_) (steps_of he)
  exact took_last hm hrc

/-- **Conservation of candidates.** If the candidates do not change between the two critical
sections of a soft clean-up, no candidate is dequeued twice or dequeued and still queued, and each
one is queued or has been dequeued unless a clean-up has found its mempair suppressed. -/
theorem candidates_conserved {procs : ℕ} {x : Scheduler} {es : List Ev} {s : State}
    (hrun : run step (start procs x) es = some s)
    (hquiet : Meets step Undisturbed (start procs x) es) :
    (s.dequeued ++ s.wq.candidate).Nodup ∧
      ∀ rc ∈ s.enqueued, ¬ Took step (FindsSuppressed rc) (start procs x) es →
        rc ∈ s.wq.candidate ∨ rc ∈ s.dequeued := by
  have h := inv_run hrun hquiet
  refine ⟨h.nodup, fun rc hrc hsp => ?_⟩
  rcases h.kept rc hrc with hrc | hrc | hrc
  · exact .inl hrc
  · exact .inr hrc
  · exact absurd hrc hsp

def candidateFor (hash : MempairHash) : WorkCandidate :=
  ⟨"sync()\n", ⟨(0, 0), (0, 0), (0, 1), 0, hash, ("a.c:1", "a.c:2")⟩, RaceWork.progNormal, false⟩

def noStats : Scheduler := ⟨∅, fun _ => 0⟩

/-- Two candidates, of which one is dropped and the other one executed. The lock is free between
the critical sections, and a thread looks at the queue there. -/
theorem candidates_conserved_one_dropped : ∃ s,
    run step (start 1 noStats) [.enqueue (.candidate (candidateFor 1)),
      .enqueue (.candidate (candidateFor 2)), .suppress [2] [], .scan, .look 0, .install,
      .take 0] = some s ∧ s.dequeued = [⟨0, candidateFor 1⟩] ∧ s.wq.candidate = [] ∧
    (s.dequeued ++ s.wq.candidate).Nodup := by
  have hrun : (run step (start 1 noStats) [.enqueue (.candidate (candidateFor 1)),
      .enqueue (.candidate (candidateFor 2)), .suppress [2] [], .scan, .look 0, .install,
      .take 0]).any (fun s => decide (s.dequeued = [⟨0, candidateFor 1⟩] ∧
        s.wq.candidate = [])) = true := by decide +kernel
  obtain ⟨s, hs, hres⟩ := (Option.any_eq_true _ _).1 hrun
  obtain ⟨hdeq, hcn⟩ := of_decide_eq_true hres
  exact ⟨s, hs, hdeq, hcn, (candidates_conserved hs (by decide +kernel)).1⟩

/-- **A clean-up can undo what happens during it.** A candidate that is dequeued between the
critical sections is put back and dequeued again, and one that is enqueued there is lost, while no
mempair is ever suppressed. -/
theorem cleanup_repeats_and_loses :
    (run step (start 1 noStats) [.enqueue (.candidate (candidateFor 1)), .scan, .look 0, .take 0,
      .install, .look 0, .take 0]).map (fun s => (s.dequeued, s.scheduler.suppressedPairs)) =
        some ([⟨0, candidateFor 1⟩, ⟨0, candidateFor 1⟩], ∅) ∧
    (run step (start 1 noStats) [.scan, .enqueue (.candidate (candidateFor 1)),
      .install]).map (fun s => (s.enqueued, s.wq.candidate, s.dequeued,
        s.scheduler.suppressedPairs)) = some ([⟨0, candidateFor 1⟩], [], [], ∅) := by
  constructor <;> decide +kernel

end Razzer.CandQueue
