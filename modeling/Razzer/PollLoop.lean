import Razzer.CandQueue

/-!
The poll loop of a scheduler.

The loop polls the manager and adds the candidates of the replies to the work queue. Before every
sixth poll it looks at the length of the queue, and cleans it up if it is long. The clean-ups count
what they do in the scheduler, which they reach through a reference in the work queue. While the
loop cleans up, the threads go on taking work out of the queue.
-/

namespace Razzer.PollLoop

open Runs CandQueue Nat List
open SyzManager (MempairHash)
open ManagerDB (RaceProgCand)
open RaceWork (WorkCandidate WorkTriage progNormal connectFlags workFor)
open RaceQueue (float32)

/-! ### The hard clean-up -/

/-- `int(float32(n) * 0.9)`, where the factor is the `float32` next to it. -/
def numToDrop (n : ℕ) : ℕ := float32 (15099494 * float32 n) / 2 ^ 24

lemma float32_le (n : ℕ) : 2 ^ 24 * float32 n ≤ (2 ^ 24 + 1) * n := by
  rw [float32]
  rcases Nat.eq_zero_or_pos (n.log2 - 23) with hk | hk
  · simp only [hk, pow_zero, mod_one]
    simp only [mul_zero, not_lt_zero, one_ne_zero, false_and, or_self, if_false]
    omega
  · obtain ⟨k, hlog⟩ : ∃ k, n.log2 = k + 24 := ⟨n.log2 - 24, by omega⟩
    have hn : n ≠ 0 := by
      rintro rfl
      simp at hk
    have hexp : n.log2 - 23 = k + 1 := by omega
    simp only [hexp]
    have hdiv := div_add_mod n (2 ^ (k + 1))
    have hhl : 2 ^ (k + 1) = 2 * 2 ^ k := by rw [pow_succ, mul_comm]
    -- the number has all its bits from the unit in the last place on
    have hlr : 2 ^ 24 * 2 ^ k ≤ n := by
      rw [← pow_add, add_comm, ← hlog]
      exact log2_self_le hn
    generalize hq : n / 2 ^ (k + 1) = q at hdiv ⊢
    generalize hr : n % 2 ^ (k + 1) = r at hdiv ⊢
    generalize 2 ^ (k + 1) = u at hdiv hhl ⊢
    generalize 2 ^ k = v at hhl hlr
    split_ifs with hrn
    · have hv : v ≤ r := by omega
      have hle : (q + 1) * u ≤ n + v := by
        rw [add_mul, mul_comm q u]
        omega
      calc 2 ^ 24 * ((q + 1) * u) ≤ 2 ^ 24 * (n + v) := mul_le_mul_left _ hle
        _ ≤ (2 ^ 24 + 1) * n := by omega
    · have hle : q * u ≤ n := by
        rw [mul_comm]
        omega
      calc 2 ^ 24 * (q * u) ≤ 2 ^ 24 * n := mul_le_mul_left _ hle
        _ ≤ (2 ^ 24 + 1) * n := by omega

lemma numToDrop_le (n : ℕ) : numToDrop n ≤ n := by
  have h := float32_le n
  have h' := float32_le (15099494 * float32 n)
  rw [numToDrop]
  refine Nat.div_le_of_le_mul ?_
  omega

/-! ### The loop -/

inductive Failure
  | nilDereference
  | outOfRange
  | deserialize
  | assertion
  | rpc
  deriving DecidableEq

/-- Where the loop is. It knows whether it needs candidates, and in a clean-up the queue that made
it clean up is recorded. -/
inductive Pc
  | select
  | polling (needCandidates : Bool)
  | long (needCandidates : Bool)
  | hard (needCandidates : Bool) (queue : List Cand)
  | soft (needCandidates : Bool) (queue : List Cand)
  | scanning (needCandidates : Bool) (queue : List Cand)
  | installing (needCandidates : Bool) (queue updatedRaceCands : List Cand)
  | asking (needCandidates : Bool)
  | failed (why : Failure)

/-- A scheduler. `linked`: the reference from its work queue to it is set. -/
structure State where
  wq : WorkQueue
  linked : Bool
  scheduler : Scheduler
  raceCorpusDBDone : Bool
  count : ℕ
  next : ℕ
  taking : ℕ → Bool
  pc : Pc

structure PollRes where
  suppPairsToAdd : List MempairHash
  suppPairsToDel : List MempairHash
  raceProgs : List RaceProgCand
  raceCorpusDBDone : Bool

inductive Ev
  | tick (late : Bool)
  | needPoll
  | next
  | reply (r : Option PollRes)
  | enqueueTriage (item : WorkTriage)
  | enqueueSmash (item : WorkSmash)
  | wakePoll
  | look (i : ℕ)
  | take (i : ℕ)

def State.push (s : State) (item : WorkCandidate) : State :=
  { s with wq := enqueue s.wq (.candidate ⟨s.next, item⟩), next := s.next + 1 }

def placed (next : ℕ) : List WorkCandidate → List Cand
  | [] => []
  | item :: items => ⟨next, item⟩ :: placed (next + 1) items

lemma length_placed (next : ℕ) (items : List WorkCandidate) :
    (placed next items).length = items.length := by
  induction items generalizing next with
  | nil => rfl
  | cons item items ih => rw [placed, length_cons, length_cons, ih]

lemma foldl_push (s : State) (items : List WorkCandidate) :
    items.foldl State.push s =
      { s with
        wq := { s.wq with candidate := s.wq.candidate ++ placed s.next items }
        next := s.next + items.length } := by
  induction items generalizing s with
  | nil => simp [placed]
  | cons item items ih =>
    rw [foldl_cons, ih]
    simp [State.push, enqueue, placed, add_assoc, add_comm 1]

/-- `hardCleanupRaceCands`: most of the queue is dropped, and then the counters are reached through
the reference. A slice must not begin behind the end. -/
def State.hardCleanup (s : State) (need : Bool) : State :=
  let dropped := numToDrop s.wq.candidate.length
  if dropped ≤ s.wq.candidate.length then
    let s := { s with wq := { s.wq with candidate := s.wq.candidate.drop dropped } }
    if s.linked then
      { s with
        scheduler :=
          (s.scheduler.increaseStat .rcHardCleanup).addStat .rcDrop (UInt64.ofNat dropped)
        pc := .asking need }
    else { s with pc := .failed .nilDereference }
  else { s with pc := .failed .outOfRange }

lemma State.hardCleanup_cases (s : State) (need : Bool) :
    (s.hardCleanup need).linked = s.linked ∧
      (s.hardCleanup need).wq.candidate.Sublist s.wq.candidate ∧
      (s.hardCleanup need).pc = if s.linked then .asking need else .failed .nilDereference := by
  rw [State.hardCleanup, if_pos (numToDrop_le _)]
  dsimp only
  split_ifs
  · exact ⟨rfl, drop_sublist _ _, rfl⟩
  · exact ⟨rfl, drop_sublist _ _, rfl⟩

section Loop

variable (deserializes : String → Bool)

/-- A new scheduler. Its work queue is made by `newWorkQueue`, which does not know the scheduler. -/
def newScheduler (procs : ℕ) : State where
  wq := newWorkQueue procs true
  linked := false
  scheduler := ⟨∅, fun _ => 0⟩
  raceCorpusDBDone := false
  count := 0
  next := 0
  taking := fun _ => false
  pc := .select

/-- `schedulerInit`; it panics if a program does not deserialise. -/
def schedulerInit (procs : ℕ) (raceProgCands : List RaceProgCand) : Option State :=
  if raceProgCands.all fun raceProg => deserializes raceProg.prog then
    some ((raceProgCands.flatMap fun raceProg =>
      workFor (connectFlags raceProg) raceProg).foldl State.push (newScheduler procs))
  else none

def finishPoll (s : State) (r : PollRes) : State :=
  if r.raceProgs.all fun raceProg => deserializes raceProg.prog then
    let s := { s with
      scheduler := s.scheduler.updateSuppressedPairs r.suppPairsToAdd r.suppPairsToDel }
    let s := (r.raceProgs.flatMap (workFor progNormal)).foldl State.push s
    if s.raceCorpusDBDone && !r.raceCorpusDBDone then { s with pc := .failed .assertion }
    else
      { s with raceCorpusDBDone := r.raceCorpusDBDone, count := s.count + 1, pc := .select }
  else { s with pc := .failed .deserialize }

/-- The next critical section of the loop, from the decision on a clean-up to its end. -/
def stepLoop (s : State) : Option State :=
  match s.pc with
  | .polling need =>
    if s.count % 6 = 1 ∧ shouldSoftCleanupRaceCands s.wq then some { s with pc := .long need }
    else some { s with pc := .asking need }
  | .long need =>
    if shouldHardCleanupRaceCands s.wq then some { s with pc := .hard need s.wq.candidate }
    else some { s with pc := .soft need s.wq.candidate }
  | .hard need _ => some (s.hardCleanup need)
  | .soft need queue =>
    if s.linked then
      some { s with
        scheduler := s.scheduler.increaseStat .rcSoftCleanup
        pc := .scanning need queue }
    else some { s with pc := .failed .nilDereference }
  | .scanning need queue =>
    let (updatedRaceCands, x) := unsuppressed s.wq.candidate s.scheduler
    some { s with scheduler := x, pc := .installing need queue updatedRaceCands }
  | .installing need _ updatedRaceCands =>
    some { s with wq := { s.wq with candidate := updatedRaceCands }, pc := .asking need }
  | _ => none

def stepUp (s : State) : Ev → Option State
  | .tick late =>
    match s.pc with
    | .select => some (if late then { s with pc := .polling (wantCandidates s.wq) } else s)
    | _ => none
  | .needPoll =>
    match s.pc, s.wq.needCandidates with
    | .select, true =>
      let s := { s with wq := { s.wq with needCandidates := false } }
      -- if no candidates are needed, the loop goes on without a poll
      some (if wantCandidates s.wq then { s with pc := .polling true } else s)
    | _, _ => none
  | .next => stepLoop s
  | .reply r =>
    match s.pc, r with
    | .asking _, some r => some (finishPoll deserializes s r)
    | .asking _, none => some { s with pc := .failed .rpc }
    | _, _ => none
  | .enqueueTriage item => some { s with wq := enqueue s.wq (.triage item) }
  | .enqueueSmash item => some { s with wq := enqueue s.wq (.smash item) }
  | .wakePoll => some { s with wq := { s.wq with needCandidates := true } }
  | .look i =>
    if s.taking i then none
    else some { s with taking := Function.update s.taking i (hasWork s.wq) }
  | .take i =>
    if s.taking i then
      some { s with wq := (dequeue s.wq).2, taking := Function.update s.taking i false }
    else none

def step (s : State) (e : Ev) : Option State :=
  match s.pc with
  | .failed _ => none
  | _ => stepUp deserializes s e

end Loop

/-! ### Clean-ups -/

/-- The steps of the loop up to the end of the clean-up. -/
def Pc.remaining : Pc → ℕ
  | .soft _ _ => 3
  | .scanning _ _ => 2
  | .installing _ _ _ => 1
  | .hard _ _ => 1
  | _ => 0

def Ev.isNext : Ev → Bool
  | .next => true
  | _ => false

/-- The loop is in a clean-up that leaves some of the queue. -/
structure Cleaning (queue : List Cand) (s : State) : Prop where
  linked : s.linked = true
  sublist : s.wq.candidate.Sublist queue
  updated : ∀ need q u, s.pc = .installing need q u → u.Sublist queue

section Cleanups

variable {des : String → Bool}

lemma dequeue_sublist (wq : WorkQueue) : (dequeue wq).2.candidate.Sublist wq.candidate := by
  rcases dequeue_cases wq with ⟨rc, -, h⟩ | ⟨-, h⟩
  · rw [h]
    exact sublist_append_left _ _
  · rw [h]

variable {s t : State} {linked : Bool}

variable {e : Ev} {es : List Ev}

lemma stepUp_of_step (h : step des s e = some t) : stepUp des s e = some t := by
  rw [step] at h
  split at h
  · cases h
  · exact h

lemma step_other (he : e.isNext = false) (hs : 0 < s.pc.remaining)
    (h : step des s e = some t) :
    t.linked = s.linked ∧ t.pc = s.pc ∧ t.wq.candidate.Sublist s.wq.candidate := by
  have hup := stepUp_of_step h
  cases e with
  | tick late =>
    rw [stepUp] at hup
    split at hup
    · next hpc => simp [hpc, Pc.remaining] at hs
    · cases hup
  | needPoll =>
    rw [stepUp] at hup
    split at hup
    · next hpc _ => simp [hpc, Pc.remaining] at hs
    · cases hup
  | next => cases he
  | reply r =>
    unfold stepUp at hup
    dsimp only at hup
    split at hup
    · next hpc => simp [hpc, Pc.remaining] at hs
    · next hpc => simp [hpc, Pc.remaining] at hs
    · cases hup
  | enqueueTriage item | enqueueSmash item | wakePoll =>
    cases hup
    exact ⟨rfl, rfl, .refl _⟩
  | look i =>
    rw [stepUp] at hup
    split_ifs at hup
    cases hup
    exact ⟨rfl, rfl, .refl _⟩
  | take i =>
    rw [stepUp] at hup
    split_ifs at hup
    cases hup
    exact ⟨rfl, rfl, dequeue_sublist _⟩

lemma Cleaning.next (des : String → Bool) {queue : List Cand} (h : Cleaning queue s)
    (hs : 0 < s.pc.remaining) :
    ∃ t, step des s .next = some t ∧ t.pc ≠ .failed .nilDereference ∧
      (s.pc.remaining = 1 → (∃ need, t.pc = .asking need) ∧ t.wq.candidate.Sublist queue) ∧
      (1 < s.pc.remaining → Cleaning queue t ∧ t.pc.remaining + 1 = s.pc.remaining) := by
  obtain ⟨hln, hsub, hup⟩ := h
  cases hpc : s.pc with
  | hard need q =>
    obtain ⟨-, hcn, hdn⟩ := s.hardCleanup_cases need
    rw [hln, if_pos rfl] at hdn
    simp only [step, stepUp, stepLoop, hpc]
    exact ⟨_, rfl, by simp [hdn], fun _ => ⟨⟨need, hdn⟩, hcn.trans hsub⟩, by simp [Pc.remaining]⟩
  | soft need q =>
    simp only [step, stepUp, stepLoop, hpc, hln, if_true]
    refine ⟨_, rfl, by simp, by simp [Pc.remaining],
      fun _ => ⟨⟨rfl, hsub, fun _ _ _ hpc => ?_⟩, rfl⟩⟩
    cases hpc
  | scanning need q =>
    simp only [step, stepUp, stepLoop, hpc]
    refine ⟨_, rfl, by simp, by simp [Pc.remaining],
      fun _ => ⟨⟨hln, hsub, fun _ _ _ hpc => ?_⟩, rfl⟩⟩
    cases hpc
    exact (unsuppressed_sublist _ _).trans hsub
  | installing need q u =>
    simp only [step, stepUp, stepLoop, hpc]
    exact ⟨_, rfl, by simp, fun _ => ⟨⟨need, rfl⟩, hup need q u hpc⟩, by simp [Pc.remaining]⟩
  | _ => simp [hpc, Pc.remaining] at hs

lemma Cleaning.run {queue : List Cand} (h : Cleaning queue s)
    (hrun : run (step des) s es = some t) (hes : es.countP Ev.isNext < s.pc.remaining) :
    Cleaning queue t ∧ t.pc.remaining + es.countP Ev.isNext = s.pc.remaining := by
  refine run_inv_hist (s := s)
    (I := fun es t => es.countP Ev.isNext < s.pc.remaining →
      Cleaning queue t ∧ t.pc.remaining + es.countP Ev.isNext = s.pc.remaining)
    (fun _ => ⟨h, rfl⟩) (fun u m e t _ hinv he hes => ?_) hrun hes
  rw [countP_append] at hes ⊢
  obtain ⟨hm, hcn⟩ := hinv (by omega)
  have hpos : 0 < m.pc.remaining := by omega
  cases hnx : e.isNext with
  | false =>
    obtain ⟨hln, hpc, hsub⟩ := step_other hnx hpos he
    simp only [countP_singleton, hnx, hpc]
    exact ⟨⟨hln.trans hm.linked, hsub.trans hm.sublist,
      fun need q u hu => hm.updated need q u (hpc ▸ hu)⟩, by simpa using hcn⟩
  | true =>
    obtain rfl : e = .next := by
      cases e <;> first | rfl | cases hnx
    obtain ⟨t', ht', -, -, hcl⟩ := hm.next des hpos
    obtain rfl : t' = t := Option.some.inj (ht'.symm.trans he)
    simp only [countP_singleton, hnx, if_true] at hes ⊢
    obtain ⟨hcl, hrem⟩ := hcl (by omega)
    exact ⟨hcl, by omega⟩

lemma finishPoll_cases (des : String → Bool) (s : State) (r : PollRes) :
    (finishPoll des s r).linked = s.linked ∧
      ((finishPoll des s r).pc = .select ∨
        ∃ why, (finishPoll des s r).pc = .failed why) := by
  rw [finishPoll]
  split_ifs
  · simp only [foldl_push]
    split_ifs
    · exact ⟨rfl, .inr ⟨_, rfl⟩⟩
    · exact ⟨rfl, .inl rfl⟩
  · exact ⟨rfl, .inr ⟨_, rfl⟩⟩

def Pc.Decided (pc : Pc) (queue : List Cand) : Prop :=
  ∃ need, pc = .soft need queue ∨ pc = .hard need queue

/-- While a decision stands, candidates are only taken out of the queue. -/
structure Inv (linked : Bool) (s : State) : Prop where
  linked : s.linked = linked
  decided : ∀ queue, s.pc.Decided queue → s.wq.candidate.Sublist queue

lemma Inv.of_not_decided (hln : s.linked = linked) (h : ∀ queue, ¬ s.pc.Decided queue) :
    Inv linked s :=
  ⟨hln, fun queue hq => absurd hq (h queue)⟩

lemma Inv.stepLoop (h : Inv linked s) (hst : stepLoop s = some t) : Inv linked t := by
  unfold PollLoop.stepLoop at hst
  split at hst
  case h_1 need hpc =>
    split_ifs at hst
    all_goals
      cases hst
      exact .of_not_decided h.linked (by simp [Pc.Decided])
  case h_2 need hpc =>
    split_ifs at hst
    all_goals
      cases hst
      refine ⟨h.linked, ?_⟩
      rintro queue ⟨need', hq | hq⟩ <;> cases hq
      exact .refl _
  case h_3 need q hpc =>
    cases hst
    obtain ⟨hln, -, hdn⟩ := s.hardCleanup_cases need
    refine .of_not_decided (hln.trans h.linked) ?_
    rw [hdn]
    split_ifs <;> simp [Pc.Decided]
  case h_4 need q hpc =>
    split_ifs at hst
    all_goals
      cases hst
      exact .of_not_decided h.linked (by simp [Pc.Decided])
  case h_5 need q hpc =>
    cases hst
    exact .of_not_decided h.linked (by simp [Pc.Decided])
  case h_6 need q u hpc =>
    cases hst
    exact .of_not_decided h.linked (by simp [Pc.Decided])
  case h_7 => cases hst

lemma Inv.step (h : Inv linked s) (hst : step des s e = some t) : Inv linked t := by
  have hup := stepUp_of_step hst
  cases e with
  | tick late =>
    rw [stepUp] at hup
    split at hup
    · next hpc =>
      cases hup
      split_ifs
      · exact .of_not_decided h.linked (by simp [Pc.Decided])
      · exact h
    · cases hup
  | needPoll =>
    rw [stepUp] at hup
    split at hup
    · next hpc _ =>
      cases hup
      dsimp only
      split_ifs
      · exact .of_not_decided h.linked (by simp [Pc.Decided])
      · exact .of_not_decided h.linked (by simp [Pc.Decided, hpc])
    · cases hup
  | next => exact h.stepLoop hup
  | reply r =>
    unfold stepUp at hup
    dsimp only at hup
    split at hup
    · next r hpc =>
      cases hup
      obtain ⟨hln, hpc | ⟨why, hpc⟩⟩ := finishPoll_cases des s r
      all_goals exact .of_not_decided (hln.trans h.linked) (by simp [Pc.Decided, hpc])
    · cases hup
      exact .of_not_decided h.linked (by simp [Pc.Decided])
    · cases hup
  | enqueueTriage item | enqueueSmash item | wakePoll =>
    cases hup
    exact ⟨h.linked, h.decided⟩
  | look i =>
    rw [stepUp] at hup
    split_ifs at hup
    cases hup
    exact ⟨h.linked, h.decided⟩
  | take i =>
    rw [stepUp] at hup
    split_ifs at hup
    cases hup
    exact ⟨h.linked, fun queue hq => (dequeue_sublist _).trans (h.decided queue hq)⟩

lemma inv_run (h : Inv linked s) (hrun : run (step des) s es = some t) : Inv linked t :=
  run_inv_hist (I := fun _ t => Inv linked t) h
    (fun _ _ _ _ _ hm he => hm.step he) hrun

end Cleanups

/-! ### Clean-ups need the reference -/

/-- From here on the clean-up comes to its end, whatever the threads do: up to then its next step is
possible and dereferences nothing that is not set, and after the last step the loop goes on with a
sub-sequence of the queue. -/
def CleanupCompletes (deserializes : String → Bool) (s : State) (queue : List Cand) : Prop :=
  ∀ es t, run (step deserializes) s es = some t → es.countP Ev.isNext < s.pc.remaining →
    ∃ t', step deserializes t .next = some t' ∧ t'.pc ≠ .failed .nilDereference ∧
      (es.countP Ev.isNext + 1 = s.pc.remaining →
        (∃ need, t'.pc = .asking need) ∧ t'.wq.candidate.Sublist queue)

variable {s : State}

lemma Cleaning.completes {des : String → Bool} {queue : List Cand} (h : Cleaning queue s) :
    CleanupCompletes des s queue := by
  intro es t hrun hes
  obtain ⟨hcl, hcn⟩ := h.run hrun hes
  obtain ⟨t', hst, hfl, hls, -⟩ := hcl.next des (by omega)
  exact ⟨t', hst, hfl, fun hes => hls (by omega)⟩

lemma next_of_not_linked (des : String → Bool) {queue : List Cand}
    (hln : s.linked = false) (hpc : s.pc.Decided queue) :
    ∃ t, step des s .next = some t ∧ t.pc = .failed .nilDereference := by
  obtain ⟨need, hpc | hpc⟩ := hpc
  · simp only [step, stepUp, stepLoop, hpc, hln, Bool.false_eq_true, if_false]
    exact ⟨_, rfl, rfl⟩
  · obtain ⟨-, -, hdn⟩ := s.hardCleanup_cases need
    simp only [hln, Bool.false_eq_true, if_false] at hdn
    simp only [step, stepUp, stepLoop, hpc]
    exact ⟨_, rfl, hdn⟩

lemma schedulerInit_inv {des : String → Bool} {procs : ℕ}
    {raceProgCands : List RaceProgCand}
    (h : schedulerInit des procs raceProgCands = some s) (linked : Bool) :
    s.linked = false ∧ Inv linked { s with linked := linked } := by
  rw [schedulerInit] at h
  split_ifs at h
  rw [foldl_push] at h
  cases h
  exact ⟨rfl, .of_not_decided rfl (by simp [Pc.Decided, newScheduler])⟩

/-- **Clean-ups complete if and only if the reference is set.** In every run of a scheduler that
decides on a clean-up, the clean-up completes and leaves a sub-sequence of the queue if the work
queue refers to the scheduler, and it fails if it does not, as `schedulerInit` leaves it. -/
theorem cleanup_completes_iff {deserializes : String → Bool} {procs : ℕ}
    {raceProgCands : List RaceProgCand} {s₀ s : State} {es : List Ev} {queue : List Cand}
    (hinit : schedulerInit deserializes procs raceProgCands = some s₀) (linked : Bool)
    (hrun : run (step deserializes) { s₀ with linked := linked } es = some s)
    (hpc : s.pc.Decided queue) :
    s₀.linked = false ∧ (CleanupCompletes deserializes s queue ↔ linked = true) := by
  obtain ⟨hun, hinv⟩ := schedulerInit_inv hinit linked
  have hs := inv_run hinv hrun
  have hrm : 0 < s.pc.remaining := by
    obtain ⟨need, hpc | hpc⟩ := hpc <;> simp [hpc, Pc.remaining]
  refine ⟨hun, fun hcm => ?_, fun hln => ?_⟩
  · by_contra hln
    obtain ⟨t, hst, hfl⟩ := next_of_not_linked deserializes
      (hs.linked.trans (Bool.eq_false_of_not_eq_true hln)) hpc
    obtain ⟨t', hst', hfl', -⟩ := hcm [] s rfl hrm
    cases hst.symm.trans hst'
    exact hfl' hfl
  · refine Cleaning.completes ⟨hs.linked.trans hln, hs.decided queue hpc, ?_⟩
    intro need q u hu
    obtain ⟨need', hpc | hpc⟩ := hpc <;> cases hpc.symm.trans hu

/-! ### A long queue -/

/-- Before the second poll of a scheduler, and every sixth one from then on, the loop decides on a
clean-up if the queue is long. -/
lemma decides (des : String → Bool) (hpc : s.pc = .select) (hcn : s.count % 6 = 1)
    (hln : 10000 < s.wq.candidate.length) :
    ∃ t, run (step des) s [.tick true, .next, .next] = some t ∧ t.pc.Decided s.wq.candidate := by
  have hsf : shouldSoftCleanupRaceCands s.wq := decide_eq_true hln
  simp only [run_cons, run_nil, step, stepUp, stepLoop, hpc, if_true, Option.bind_some, hcn,
    hsf, and_self]
  cases shouldHardCleanupRaceCands s.wq with
  | true => exact ⟨_, rfl, _, .inr rfl⟩
  | false => exact ⟨_, rfl, _, .inl rfl⟩

variable {r : PollRes} {n : ℕ}

lemma first_poll (des : String → Bool)
    (hall : (r.raceProgs.all fun raceProg => des raceProg.prog) = true) (linked : Bool) :
    ∃ s, run (step des) { newScheduler 1 with linked := linked }
        [.needPoll, .next, .reply (some r)] = some s ∧ s.pc = .select ∧ s.count = 1 ∧
      s.wq.candidate = placed 0 (r.raceProgs.flatMap (workFor progNormal)) := by
  refine ⟨_, rfl, ?_⟩
  simp [finishPoll, hall, foldl_push, newScheduler, newWorkQueue, wantCandidates]

def longReply (n : ℕ) : PollRes :=
  ⟨[], [], [⟨"sync()\n", replicate n ⟨(0, 0), (0, 0), (0, 1), 0, 0, ("a.c:1", "a.c:2")⟩,
    false⟩], true⟩

def longRun (n : ℕ) : List Ev :=
  [.needPoll, .next, .reply (some (longReply n))] ++ [.tick true, .next, .next]

lemma schedulerInit_nil : schedulerInit (fun _ => true) 1 [] = some (newScheduler 1) := rfl

lemma longRun_decides (hn : 10000 < n) (linked : Bool) :
    ∃ s queue, run (step fun _ => true) { newScheduler 1 with linked := linked } (longRun n) =
      some s ∧ s.pc.Decided queue ∧ queue.length = n := by
  obtain ⟨m, hm, hpc, hcn, hcd⟩ := first_poll (fun _ => true) (r := longReply n)
    (by simp) linked
  have hlen : m.wq.candidate.length = n := by
    rw [hcd, length_placed]
    simp [longReply, workFor]
  obtain ⟨s, hs, hdc⟩ := decides (fun _ => true) hpc (by rw [hcn]) (by omega)
  refine ⟨s, _, ?_, hdc, hlen⟩
  rw [longRun, run_append, hm, Option.bind_some, hs]

/-- Ten thousand and one candidates are cleaned up if the reference is set. -/
theorem cleanup_completes_iff_long : ∃ s₀ s queue,
    schedulerInit (fun _ => true) 1 [] = some s₀ ∧
      run (step fun _ => true) { s₀ with linked := true } (longRun 10001) = some s ∧
      s.pc.Decided queue ∧ queue.length = 10001 ∧
      CleanupCompletes (fun _ => true) s queue := by
  obtain ⟨s, queue, hrun, hpc, hlen⟩ := longRun_decides (n := 10001) (by decide) true
  exact ⟨newScheduler 1, s, queue, rfl, hrun, hpc, hlen,
    (cleanup_completes_iff schedulerInit_nil true hrun hpc).2.2 rfl⟩

/-- **The clean-up of a long queue fails.** A scheduler is started without candidates and polls. The
reply has a program with ten thousand and one race infos, and before the next poll the loop
decides on a soft clean-up, which dereferences the reference that has never been set. -/
theorem long_queue_fails : ∃ s₀ s,
    schedulerInit (fun _ => true) 1 [] = some s₀ ∧
      run (step fun _ => true) s₀ (longRun 10001 ++ [.next]) = some s ∧
      s.pc = .failed .nilDereference := by
  obtain ⟨m, queue, hm, hpc, -⟩ := longRun_decides (n := 10001) (by decide) false
  have hln : m.linked = false :=
    (inv_run (schedulerInit_inv schedulerInit_nil false).2 hm).linked
  obtain ⟨s, hs, hfl⟩ := next_of_not_linked (fun _ => true) hln hpc
  refine ⟨newScheduler 1, s, rfl, ?_, hfl⟩
  have hm' : run (step fun _ => true) (newScheduler 1) (longRun 10001) = some m := hm
  rw [run_append, hm', Option.bind_some, run_cons, hs, Option.bind_some, run_nil]

end Razzer.PollLoop
