import Razzer.ManagerDB

/-!
The queue of race candidates of the manager.

Candidates from the databases are put into the queue when the manager starts, and candidates
from fuzzers are appended to it. Candidates are taken out of it as a block, at the front, at
the end or at random, and clean-ups drop some of them. All of this leaves a sublist of the
queue, so the candidates from the databases stay in front of the others, and the head of the
queue tells whether one of them is left.
-/

namespace Razzer.RaceQueue

open SyzManager ManagerDB List Nat UInt64

/-! ### Lists with some elements in front -/

section Front

variable {α : Type*} {p : α → Bool} {l : List α}

def Front (p : α → Bool) (l : List α) : Prop :=
  ∃ front rest, l = front ++ rest ∧ (∀ x ∈ front, p x = true) ∧ ∀ x ∈ rest, p x = false

lemma front_iff_pairwise : Front p l ↔ l.Pairwise fun x y => p y = true → p x := by
  constructor
  · rintro ⟨front, rest, rfl, hfr, hrs⟩
    refine pairwise_append.2 ⟨?_, ?_, fun x hx y _ _ => hfr x hx⟩
    · exact pairwise_of_forall_mem_list fun x hx y _ _ => hfr x hx
    · refine pairwise_of_forall_mem_list fun x _ y hy h => ?_
      rw [hrs y hy] at h
      cases h
  · intro h
    refine ⟨l.takeWhile p, l.dropWhile p, takeWhile_append_dropWhile.symm,
      fun x hx => mem_takeWhile_imp hx, fun x hx => ?_⟩
    -- the head of the rest is without `p`, so no later element has it
    cases hrs : l.dropWhile p with
    | nil => simp [hrs] at hx
    | cons y rest =>
      have hy : p y = false := by simpa [hrs] using head?_dropWhile_not p l
      rw [hrs] at hx
      rcases mem_cons.1 hx with rfl | hx
      · exact hy
      · have hsub : (y :: rest).Sublist l := hrs ▸ dropWhile_sublist p
        have hpr := (pairwise_cons.1 (h.sublist hsub)).1 x hx
        cases hpx : p x with
        | false => rfl
        | true => rw [hpr hpx] at hy; cases hy

variable {l' : List α}

lemma Front.sublist (h : Front p l) (hsub : l'.Sublist l) : Front p l' :=
  front_iff_pairwise.2 ((front_iff_pairwise.1 h).sublist hsub)

lemma Front.snoc (h : Front p l) {x : α} (hx : p x = false) : Front p (l ++ [x]) := by
  obtain ⟨front, rest, rfl, hfr, hrs⟩ := h
  refine ⟨front, rest ++ [x], append_assoc .., hfr, fun y hy => ?_⟩
  rcases mem_append.1 hy with hy | hy
  · exact hrs y hy
  · rwa [mem_singleton.1 hy]

lemma Front.of_all (h : ∀ x ∈ l, p x) : Front p l :=
  ⟨l, [], by simp, h, by simp⟩

lemma Front.none_of_head (h : Front p l) (hhd : (l.head?.all fun x => !p x) = true) :
    ∀ x ∈ l, p x = false := by
  obtain ⟨front, rest, rfl, hfr, hrs⟩ := h
  cases front with
  | nil => simpa using hrs
  | cons y front =>
    have hy := hfr y mem_cons_self
    simp [hy] at hhd

end Front

/-! ### The queue -/

/-- An address, and whether it is read or written. -/
structure ItemTy where
  item : UInt32
  tag : String

/-- The flags `-rootcause` and `-supp` of the manager, its configuration, and the addresses of a
location in a basic block. -/
structure Config where
  rootCause : Bool
  suppFreq : Bool
  procs : ℕ
  getAddr : String → UInt32 → List ItemTy

structure Queue where
  raceQueue : List RaceProgCand
  raceCorpusDBDone : Bool
  suppressedPairs : Finset MempairHash
  popTurn : ℕ

/-- The race infos that are made of one of a fuzzer: one for each pair of addresses, unless both
are read. -/
def raceInfosAt (c : Config) (q : Queue) (raceinfo : RaceInfo) : List RaceInfo :=
  if q.raceCorpusDBDone ∧ c.suppFreq ∧ raceinfo.hash ∈ q.suppressedPairs then []
  else
    (c.getAddr raceinfo.mempair.1 raceinfo.cov.1).flatMap fun addr0 =>
      (c.getAddr raceinfo.mempair.2 raceinfo.cov.2).filterMap fun addr1 =>
        if addr0.tag = "R" ∧ addr1.tag = "R" then none
        else some { raceinfo with addr := (addr0.item, addr1.item), sched := 0 }

def addRaceProgCand (c : Config) (q : Queue) (prog : String) (raceInfos : List RaceInfo) : Queue :=
  let candidate : RaceProgCand := ⟨prog, raceInfos.flatMap (raceInfosAt c q), false⟩
  if candidate.raceInfos.isEmpty then q
  else { q with raceQueue := q.raceQueue ++ [candidate] }

/-- `float32` of a number: it has 24 bits, and a tie is rounded to even. -/
def float32 (n : ℕ) : ℕ :=
  let k := n.log2 - 23
  let q := n / 2 ^ k
  let r := n % 2 ^ k
  (if 2 ^ k < 2 * r ∨ 2 ^ k = 2 * r ∧ q % 2 = 1 then q + 1 else q) * 2 ^ k

def hardCleanupRaceQueue (q : Queue) : Queue :=
  { q with raceQueue := q.raceQueue.drop (float32 q.raceQueue.length / 2) }

def isSuppressedRaceCand (q : Queue) (rc : RaceProgCand) : Bool :=
  rc.raceInfos.all fun raceinfo => decide (raceinfo.hash ∈ q.suppressedPairs)

def softCleanupRaceQueue (q : Queue) : Queue :=
  { q with raceQueue := q.raceQueue.filter fun rc => !isSuppressedRaceCand q rc }

def nextTurn (c : Config) (q : Queue) : ℕ :=
  if c.rootCause || q.raceCorpusDBDone then (q.popTurn + 1) % 3 else 0

/-- Where the block starts: at the front, such that it is at the end, or at random. -/
def popIndex (turn len numToPop rnd : ℕ) : ℕ :=
  if turn = 0 then 0
  else if turn = 1 then len - numToPop
  else if len - numToPop = 0 then 0
  else rnd % (len - numToPop)

/-- `PopFromRaceQueue`. Whether a candidate of the databases is left is read off the head. -/
def popFromRaceQueue (c : Config) (q : Queue) (numToPop rnd : ℕ) : Queue × List RaceProgCand :=
  let numToPop := min numToPop q.raceQueue.length
  if numToPop = 0 then (q, [])
  else
    let turn := nextTurn c q
    let idx := popIndex turn q.raceQueue.length numToPop rnd
    let rest := q.raceQueue.take idx ++ q.raceQueue.drop (idx + numToPop)
    ({ q with
        raceQueue := rest
        raceCorpusDBDone := q.raceCorpusDBDone || rest.head?.all fun x => !x.fromDB
        popTurn := turn },
      (q.raceQueue.drop idx).take numToPop)

def Queue.start (r : Init) : Queue := ⟨r.raceQueue, r.raceCorpusDBDone, ∅, 0⟩

/-! ### What holds of the queue -/

/-- The candidates of the databases are in front, and none is left once the flag is set. -/
structure Sound (q : Queue) : Prop where
  first : Front RaceProgCand.fromDB q.raceQueue
  done : q.raceCorpusDBDone = true → ∀ x ∈ q.raceQueue, x.fromDB = false

/-- What a step may do to a sound queue: it stays sound, and the flag stays set. -/
structure Moves (q q' : Queue) : Prop where
  sound : Sound q'
  mono : q.raceCorpusDBDone = true → q'.raceCorpusDBDone = true

variable {q : Queue}

lemma Moves.refl (h : Sound q) : Moves q q := ⟨h, id⟩

variable {q' : Queue} {n : ℕ}

lemma Sound.drops (h : Sound q) (hsub : q'.raceQueue.Sublist q.raceQueue)
    (hdn : q'.raceCorpusDBDone = q.raceCorpusDBDone) : Moves q q' := by
  refine ⟨⟨h.first.sublist hsub, fun hd x hx => ?_⟩, fun hd => hdn.trans hd⟩
  exact h.done (hdn.symm.trans hd) x (hsub.subset hx)

lemma Sound.hardCleanup (h : Sound q) : Moves q (hardCleanupRaceQueue q) :=
  h.drops (drop_sublist ..) rfl

lemma Sound.softCleanup (h : Sound q) : Moves q (softCleanupRaceQueue q) :=
  h.drops filter_sublist rfl

lemma Sound.add (h : Sound q) (c : Config) (prog : String)
    (ris : List RaceInfo) : Moves q (addRaceProgCand c q prog ris) := by
  unfold addRaceProgCand
  simp only
  split
  · exact .refl h
  · refine ⟨⟨h.first.snoc rfl, fun hd x hx => ?_⟩, id⟩
    rcases mem_append.1 hx with hx | hx
    · exact h.done hd x hx
    · rw [mem_singleton.1 hx]

lemma block_sublist {α : Type*} (l : List α) (i n : ℕ) :
    (l.take i ++ l.drop (i + n)).Sublist l := by
  have hdr : (l.drop (i + n)).Sublist (l.drop i) := by
    rw [← drop_drop]
    exact drop_sublist n _
  calc (l.take i ++ l.drop (i + n)).Sublist (l.take i ++ l.drop i) := hdr.append_left _
    _ = l := take_append_drop i l

/-- **Popping.** Whatever block is taken out, the head of the rest tells whether a candidate of the
databases is left. -/
lemma Sound.pop (h : Sound q) (c : Config) (num rnd : ℕ) :
    Moves q (popFromRaceQueue c q num rnd).1 := by
  unfold popFromRaceQueue
  simp only
  split
  · exact .refl h
  · have hsub := block_sublist q.raceQueue
      (popIndex (nextTurn c q) q.raceQueue.length (min num q.raceQueue.length) rnd)
      (min num q.raceQueue.length)
    refine ⟨⟨h.first.sublist hsub, fun hd x hx => ?_⟩, fun hd => by simp [hd]⟩
    rcases Bool.or_eq_true_iff.1 hd with hd | hhd
    · exact h.done hd x (hsub.subset hx)
    · exact (h.first.sublist hsub).none_of_head hhd x hx

lemma mem_popped {c : Config} {num rnd : ℕ} {x : RaceProgCand}
    (h : x ∈ (popFromRaceQueue c q num rnd).2) : x ∈ q.raceQueue := by
  unfold popFromRaceQueue at h
  simp only at h
  split at h
  · cases h
  · exact mem_of_mem_drop (mem_of_mem_take h)

/-! ### Counters -/

def Queue.pushToRaceQueue (q : Queue) (cand : RaceProgCand) : Queue :=
  { q with raceQueue := q.raceQueue ++ [cand] }

/-- The queue with the counters `manager rc push`, `manager rc pop` and `manager rc drop`. -/
structure Counted where
  queue : Queue
  push : UInt64
  pop : UInt64
  drop : UInt64

/-- What is done to the queue. The flag and the suppressed pairs are also set elsewhere. -/
inductive QueueOp
  | push (cand : RaceProgCand)
  | pop (numToPop rnd : ℕ)
  | hardCleanup
  | softCleanup
  | set (raceCorpusDBDone : Bool) (suppressedPairs : Finset MempairHash)

def Counted.step (c : Config) (s : Counted) : QueueOp → Counted
  | .push cand => { s with queue := s.queue.pushToRaceQueue cand, push := s.push + 1 }
  | .pop numToPop rnd =>
    { s with
      queue := (popFromRaceQueue c s.queue numToPop rnd).1
      pop := s.pop + .ofNat (min numToPop s.queue.raceQueue.length) }
  | .hardCleanup =>
    { s with
      queue := hardCleanupRaceQueue s.queue
      drop := s.drop + .ofNat (float32 s.queue.raceQueue.length / 2) }
  | .softCleanup =>
    { s with
      queue := softCleanupRaceQueue s.queue
      drop := s.drop + .ofNat (s.queue.raceQueue.countP (isSuppressedRaceCand s.queue)) }
  | .set raceCorpusDBDone suppressedPairs =>
    { s with
      queue := { s.queue with
        raceCorpusDBDone := raceCorpusDBDone, suppressedPairs := suppressedPairs } }

def Counted.start (raceCorpusDBDone : Bool) (popTurn : ℕ) : Counted :=
  ⟨⟨[], raceCorpusDBDone, ∅, popTurn⟩, 0, 0, 0⟩

def pushes (ops : List QueueOp) : ℕ :=
  ops.countP fun | .push _ => true | _ => false

/-- The counters stand for the numbers `n`, `popped` and `dropped`, which account for the queue. -/
def Counts (s : Counted) (n : ℕ) : Prop :=
  ∃ popped dropped, s.push = .ofNat n ∧ s.pop = .ofNat popped ∧ s.drop = .ofNat dropped ∧
    n = popped + dropped + s.queue.raceQueue.length

lemma float32_le (n : ℕ) : float32 n ≤ 2 * n := by
  rcases Nat.eq_zero_or_pos n with rfl | hn
  · decide
  · have hdiv := div_mul_le_self n (2 ^ (n.log2 - 23))
    have hpow : 2 ^ (n.log2 - 23) ≤ n :=
      (Nat.pow_le_pow_right (by omega) (sub_le _ _)).trans (log2_self_le hn.ne')
    simp only [float32]
    split_ifs
    · rw [succ_mul]
      omega
    · omega

lemma popIndex_le (turn rnd : ℕ) {len num : ℕ} (h : num ≤ len) :
    popIndex turn len num rnd + num ≤ len := by
  unfold popIndex
  split_ifs with hff hlf hzr
  · omega
  · omega
  · omega
  · have hlt := mod_lt rnd (pos_of_ne_zero hzr)
    omega

/-- **A block is popped**, and the queue is what was before and behind it. -/
lemma popFromRaceQueue_eq (c : Config) (q : Queue) (num rnd : ℕ) :
    ∃ before after,
      q.raceQueue = before ++ (popFromRaceQueue c q num rnd).2 ++ after ∧
      (popFromRaceQueue c q num rnd).1.raceQueue = before ++ after ∧
      (popFromRaceQueue c q num rnd).2.length = min num q.raceQueue.length := by
  unfold popFromRaceQueue
  simp only
  split_ifs with hzr
  · exact ⟨[], q.raceQueue, rfl, rfl, hzr.symm⟩
  · have hle := popIndex_le (nextTurn c q) rnd (min_le_right num q.raceQueue.length)
    refine ⟨_, _, ?_, rfl, by rw [length_take, length_drop]; omega⟩
    rw [append_assoc, ← drop_drop, take_append_drop, take_append_drop]

lemma Counts.step {s : Counted} (h : Counts s n) (c : Config) (op : QueueOp) :
    Counts (s.step c op) (n + pushes [op]) := by
  obtain ⟨popped, dropped, hps, hpop, hdr, hn⟩ := h
  cases op with
  | push cand =>
    refine ⟨popped, dropped, ?_, hpop, hdr, ?_⟩
    · simp [Counted.step, pushes, hps]
    · simp [Counted.step, Queue.pushToRaceQueue, pushes]
      omega
  | pop num rnd =>
    obtain ⟨before, after, hold, hnew, hlen⟩ := popFromRaceQueue_eq c s.queue num rnd
    have hln := congrArg length hold
    refine ⟨popped + min num s.queue.raceQueue.length, dropped, hps, ?_, hdr, ?_⟩
    · rw [Counted.step, hpop, ofNat_add]
    · change n = _
      simp only [length_append, hlen] at hln
      simp only [Counted.step, hnew, length_append]
      omega
  | hardCleanup =>
    have hle := float32_le s.queue.raceQueue.length
    refine ⟨popped, dropped + float32 s.queue.raceQueue.length / 2, hps, hpop, ?_, ?_⟩
    · rw [Counted.step, hdr, ofNat_add]
    · change n = _
      simp only [Counted.step, hardCleanupRaceQueue, length_drop]
      omega
  | softCleanup =>
    have hcn := length_eq_length_filter_add (isSuppressedRaceCand s.queue)
      (l := s.queue.raceQueue)
    rw [← countP_eq_length_filter] at hcn
    refine ⟨popped, dropped + s.queue.raceQueue.countP (isSuppressedRaceCand s.queue), hps,
      hpop, ?_, ?_⟩
    · rw [Counted.step, hdr, ofNat_add]
    · change n = _
      simp only [Counted.step, softCleanupRaceQueue]
      omega
  | set raceCorpusDBDone suppressedPairs => exact ⟨popped, dropped, hps, hpop, hdr, hn⟩

variable {s : Counted}

lemma counts_foldl (h : Counts s n) (c : Config) (ops : List QueueOp) :
    Counts (ops.foldl (Counted.step c) s) (n + pushes ops) := by
  induction ops generalizing s n with
  | nil => exact h
  | cons op ops ih =>
    have hsum : pushes ([op] ++ ops) = pushes [op] + pushes ops := countP_append
    rw [← singleton_append, hsum, ← add_assoc]
    exact ih (h.step c op)

/-- **Every candidate is accounted for.** After any operations the counters add up to the queue,
as machine numbers, and as numbers as long as no counter has overflowed. What is popped next is a
block of the queue that is not longer than what was asked for, and the queue keeps the rest of it
in order. -/
theorem raceQueue_accounted (c : Config) (raceCorpusDBDone : Bool) (popTurn : ℕ)
    (ops : List QueueOp) (numToPop rnd : ℕ) :
    let s := ops.foldl (Counted.step c) (.start raceCorpusDBDone popTurn)
    let popped := popFromRaceQueue c s.queue numToPop rnd
    s.push = s.pop + s.drop + .ofNat s.queue.raceQueue.length ∧
      (pushes ops < 2 ^ 64 → s.push.toNat = s.pop.toNat + s.drop.toNat + s.queue.raceQueue.length) ∧
      popped.2.length ≤ numToPop ∧
      ∃ before after, s.queue.raceQueue = before ++ popped.2 ++ after ∧
        popped.1.raceQueue = before ++ after := by
  intro s popped
  obtain ⟨a, b, hps, hpop, hdr, hn⟩ :=
    counts_foldl (n := 0) (s := .start raceCorpusDBDone popTurn) ⟨0, 0, rfl, rfl, rfl, rfl⟩ c ops
  obtain ⟨before, after, hold, hnew, hlen⟩ := popFromRaceQueue_eq c s.queue numToPop rnd
  refine ⟨?_, fun hlt => ?_, hlen.trans_le (min_le_left _ _), before, after, hold, hnew⟩
  · rw [hps, hpop, hdr, hn, ofNat_add, ofNat_add]
  · rw [zero_add] at hps hn
    rw [hps, hpop, hdr, toNat_ofNat', toNat_ofNat', toNat_ofNat',
      mod_eq_of_lt hlt, mod_eq_of_lt (by omega), mod_eq_of_lt (by omega)]
    exact hn

end Razzer.RaceQueue
