import Razzer.Search

/-!
The race candidates of one executed program.

A call whose coverage touches no basic block of the race-candidate table gets no raw cover.
The pairs of calls are then walked in order, and for each pair the blocks of the first cover
are looked up in the table and the partner blocks searched in the second cover. The walk is
a fold here, with what the closure of the source does as the function that is folded.
-/

namespace Razzer.RaceCand

open Search List

abbrev RawCover := List UInt32

structure EntryTy where
  cover : UInt32
  hash : UInt64
  mempair : String × String
  deriving DecidableEq

structure RaceInfo where
  cov : UInt32 × UInt32
  idx : ℕ × ℕ
  hash : UInt64
  mempair : String × String
  deriving DecidableEq

structure RaceProgCand where
  prog : String
  raceInfos : List RaceInfo
  deriving DecidableEq

/-- What a fuzzer process reads and the queue it fills. A key the table does not have is one
with no entries. -/
structure Fuzzer where
  sparseRaceCandPairs : UInt32 → List EntryTy
  suppressedPairs : List UInt64
  doSuppFreq : Bool
  flagRootCause : Bool
  newRaceProgCandQueue : List RaceProgCand

def rawCoverContains (cov : RawCover) (c : UInt32) : Bool :=
  let i := search cov.length fun i => decide (c ≤ cov.getD i 0)
  decide (i < cov.length) && cov.getD i 0 == c

def shuffle (cov : RawCover) (perm : Equiv.Perm (Fin cov.length)) : RawCover :=
  ofFn fun i => cov.get (perm i)

variable {σ : Type*}

/-- A walk goes on with `k` unless it was stopped, which its second component says. -/
def keepGoing (r : σ × Bool) (k : σ → σ × Bool) : σ × Bool := if r.2 then k r.1 else r

def foreachEntry (cov2 : RawCover) (f : σ → EntryTy → σ × Bool) : σ → List EntryTy → σ × Bool
  | s, [] => (s, true)
  | s, entry :: entries =>
    if rawCoverContains cov2 entry.cover then
      keepGoing (f s entry) fun s => foreachEntry cov2 f s entries
    else foreachEntry cov2 f s entries

def foreachRacyBasicBlock (table : UInt32 → List EntryTy) (cov2 : RawCover)
    (f : σ → UInt32 → EntryTy → σ × Bool) : σ → RawCover → σ × Bool
  | s, [] => (s, true)
  | s, c1 :: cov1 =>
    keepGoing (foreachEntry cov2 (fun s entry => f s c1 entry) s (table c1)) fun s =>
      foreachRacyBasicBlock table cov2 f s cov1

def foreachSecond (f : σ → ℕ → σ) : σ → ℕ → List (Option RawCover) → σ
  | s, j, some _ :: covers => foreachSecond f (f s j) (j + 1) covers
  | s, _, _ => s

def foreachRawCover (f : σ → ℕ → ℕ → σ) : σ → ℕ → List (Option RawCover) → σ
  | s, i, some _ :: covers =>
    foreachRawCover f (foreachSecond (fun s j => f s i j) s (i + 1) covers) (i + 1) covers
  | s, _, _ => s

def isSupp (fz : Fuzzer) (entry : EntryTy) : Bool :=
  fz.doSuppFreq && decide (entry.hash ∈ fz.suppressedPairs)

/-- `appendRaceInfo`: at the threshold the walk is stopped. -/
def appendRaceInfo (fz : Fuzzer) (i j : ℕ) (infos : List RaceInfo) (bb1 : UInt32)
    (entry : EntryTy) : List RaceInfo × Bool :=
  if isSupp fz entry then (infos, true)
  else
    let infos := infos ++ [⟨(bb1, entry.cover), (i, j), entry.hash, entry.mempair⟩]
    (infos, decide (infos.length ≤ if fz.flagRootCause then 100000 else 100))

/-- `mayRace`, on the first cover as it was shuffled. -/
def mayRace (fz : Fuzzer) (i j : ℕ) (shuffled cov2 : RawCover) : List RaceInfo :=
  (foreachRacyBasicBlock fz.sparseRaceCandPairs cov2 (appendRaceInfo fz i j) [] shuffled).1

def checkRaceRelatedCov (fz : Fuzzer) (cov : RawCover) : Bool :=
  cov.any fun c => !(fz.sparseRaceCandPairs c).isEmpty

def isFullNewRaceProgCand (fz : Fuzzer) : Bool := decide (fz.newRaceProgCandQueue.length > 10000)

def rawCovers (fz : Fuzzer) (info : List RawCover) : List (Option RawCover) :=
  info.map fun cov => if checkRaceRelatedCov fz cov then some cov else none

abbrev Draws := ℕ → ℕ → (cov : RawCover) → Equiv.Perm (Fin cov.length)

def pushCand (fz : Fuzzer) (rnd : Draws) (prog : String) (covers : List (Option RawCover))
    (queue : List RaceProgCand) (i j : ℕ) : List RaceProgCand :=
  let cov1 := (covers.getD i none).getD []
  let cov2 := (covers.getD j none).getD []
  let ri := mayRace fz i j (shuffle cov1 (rnd i j cov1)) cov2
  if ri.isEmpty then queue else queue ++ [⟨prog, ri⟩]

def updateRaceProgCand (fz : Fuzzer) (rnd : Draws) (prog : String) (info : List RawCover) :
    List RaceProgCand :=
  if isFullNewRaceProgCand fz then fz.newRaceProgCandQueue
  else
    foreachRawCover (pushCand fz rnd prog (rawCovers fz info)) fz.newRaceProgCandQueue 0
      (rawCovers fz info)

/-! ### Covers -/

variable {cov cov1 cov2 : RawCover} {infos : List RaceInfo} {r : List RaceInfo × Bool}

variable {a n : ℕ} {hit hit' : Prop} {k : List RaceInfo → List RaceInfo × Bool} {p : ℕ × ℕ}
  {info : List RawCover} {hits hits' : List RaceInfo} {cov1' : List UInt32} {b : UInt32}
  {e : EntryTy} {ri : RaceInfo}

lemma getD_le_getD {b : ℕ} (h : cov.Pairwise (· < ·)) (hab : a ≤ b) (hb : b < cov.length) :
    cov.getD a 0 ≤ cov.getD b 0 := by
  rcases Nat.eq_or_lt_of_le hab with rfl | hlt
  · exact UInt32.le_refl _
  · rw [getD_eq_getElem _ _ hb, getD_eq_getElem _ _ (hlt.trans hb)]
    exact UInt32.le_of_lt (pairwise_iff_getElem.1 h a b _ hb hlt)

lemma rawCoverContains_iff (h : cov.Pairwise (· < ·)) (c : UInt32) :
    rawCoverContains cov c ↔ c ∈ cov := by
  have hs := search_splits (n := cov.length) (f := fun i => decide (c ≤ cov.getD i 0))
    (fun a b hab hb ha => by
      rw [decide_eq_true_eq] at ha ⊢
      exact UInt32.le_trans ha (getD_le_getD h hab hb))
  set k := search cov.length fun i => decide (c ≤ cov.getD i 0) with hk
  have hdef : rawCoverContains cov c = (decide (k < cov.length) && cov.getD k 0 == c) := rfl
  rw [hdef, Bool.and_eq_true, decide_eq_true_eq, beq_iff_eq]
  constructor
  · rintro ⟨hlt, hkc⟩
    rw [getD_eq_getElem _ _ hlt] at hkc
    exact hkc ▸ getElem_mem hlt
  · intro hc
    obtain ⟨m, hm, hcm⟩ := getElem_of_mem hc
    rw [← getD_eq_getElem _ 0 hm] at hcm
    -- the boundary is at most `m`, and what stands there is at least and at most the value
    have hkm : k ≤ m := by
      by_contra hlt
      have := hs.below m (not_le.1 hlt)
      simp [← hcm] at this
    have hkl : k < cov.length := hkm.trans_lt hm
    have hav := hs.above k le_rfl hkl
    rw [decide_eq_true_eq] at hav
    exact ⟨hkl, UInt32.le_antisymm (hcm ▸ getD_le_getD h hkm hm) hav⟩

lemma mem_shuffle (perm : Equiv.Perm (Fin cov.length)) (c : UInt32) :
    c ∈ shuffle cov perm ↔ c ∈ cov := by
  rw [shuffle, mem_ofFn, mem_iff_get]
  constructor
  · rintro ⟨i, rfl⟩
    exact ⟨perm i, rfl⟩
  · rintro ⟨i, rfl⟩
    exact ⟨perm.symm i, by simp⟩

/-! ### One pair of calls -/

/-- What a walk that began with `infos` has made of it: race infos of the pair `(i, j)` were
added, some if there was a `hit`, and it was stopped only with something in hand. -/
structure Walked (i j : ℕ) (infos : List RaceInfo) (hit : Prop) (r : List RaceInfo × Bool) :
    Prop where
  idx : ∀ ri ∈ r.1, ri ∈ infos ∨ ri.idx = (i, j)
  some : r.1 ≠ [] ↔ infos ≠ [] ∨ hit
  stopped : r.2 = false → r.1 ≠ []

variable {fz : Fuzzer} {i j : ℕ}

lemma Walked.keepGoing (h : Walked i j infos hit r) (h' : Walked i j r.1 hit' (k r.1)) :
    Walked i j infos (hit ∨ hit') (keepGoing r k) := by
  rw [RaceCand.keepGoing]
  cases hr : r.2 with
  | true =>
    rw [if_pos rfl]
    refine ⟨fun ri hri => ?_, ?_, h'.stopped⟩
    · rcases h'.idx ri hri with hri | hri
      · exact h.idx ri hri
      · exact .inr hri
    · rw [h'.some, h.some, or_assoc]
  | false =>
    have hne := h.stopped hr
    refine ⟨h.idx, ⟨fun _ => ?_, fun _ => hne⟩, h.stopped⟩
    rw [← or_assoc]
    exact .inl (h.some.1 hne)

lemma appendRaceInfo_walked (is : List RaceInfo) (bb1 : UInt32) (entry : EntryTy) :
    Walked i j is (isSupp fz entry = false) (appendRaceInfo fz i j is bb1 entry) := by
  unfold appendRaceInfo
  cases hs : isSupp fz entry with
  | true => exact ⟨fun ri hri => .inl hri, by simp, by simp⟩
  | false =>
    refine ⟨fun ri hri => ?_, by simp, by simp⟩
    simp only [Bool.false_eq_true, if_false, mem_append, mem_singleton] at hri
    rcases hri with hri | rfl
    · exact .inl hri
    · exact .inr rfl

lemma Walked.refl (is : List RaceInfo) : Walked i j is False (is, true) :=
  ⟨fun ri hri => .inl hri, by simp, by simp⟩

lemma Walked.congr (h : Walked i j infos hit r) (hh : hit ↔ hit') :
    Walked i j infos hit' r := by
  rwa [propext hh] at h

lemma foreachEntry_walked (cov2 : RawCover) (c1 : UInt32) (is : List RaceInfo)
    (es : List EntryTy) :
    Walked i j is
      (∃ e ∈ es, rawCoverContains cov2 e.cover ∧ isSupp fz e = false)
      (foreachEntry cov2 (fun s e => appendRaceInfo fz i j s c1 e) is es) := by
  induction es generalizing is with
  | nil => exact (Walked.refl is).congr (by simp)
  | cons entry es ih =>
    rw [foreachEntry]
    cases hc : rawCoverContains cov2 entry.cover with
    | false => exact (ih is).congr (by simp [hc])
    | true =>
      rw [if_pos rfl]
      exact Walked.congr (Walked.keepGoing (appendRaceInfo_walked is c1 entry) (ih _))
        (by simp [hc])

lemma foreachRacyBasicBlock_walked (fz : Fuzzer) (i j : ℕ) (cov2 : RawCover)
    (is : List RaceInfo) (cov1 : RawCover) :
    Walked i j is
      (∃ c ∈ cov1, ∃ e ∈ fz.sparseRaceCandPairs c,
        rawCoverContains cov2 e.cover ∧ isSupp fz e = false)
      (foreachRacyBasicBlock fz.sparseRaceCandPairs cov2 (appendRaceInfo fz i j) is cov1) := by
  induction cov1 generalizing is with
  | nil => exact (Walked.refl is).congr (by simp)
  | cons c1 cov1 ih =>
    exact Walked.congr (Walked.keepGoing (foreachEntry_walked cov2 c1 is _) (ih _)) (by simp)

/-- The calls `i` and `j` cover the two blocks of a table entry that is not suppressed. -/
def MayRace (fz : Fuzzer) (info : List RawCover) (i j : ℕ) : Prop :=
  ∃ b₀ ∈ info.getD i [], ∃ e ∈ fz.sparseRaceCandPairs b₀,
    e.cover ∈ info.getD j [] ∧ isSupp fz e = false

lemma mayRace_walked (fz : Fuzzer) (i j : ℕ) (cov1 cov2 : RawCover)
    (perm : Equiv.Perm (Fin cov1.length)) (h2 : cov2.Pairwise (· < ·)) :
    Walked i j [] (∃ b₀ ∈ cov1, ∃ e ∈ fz.sparseRaceCandPairs b₀,
      e.cover ∈ cov2 ∧ isSupp fz e = false)
      (mayRace fz i j (shuffle cov1 perm) cov2, true) := by
  have h := foreachRacyBasicBlock_walked fz i j cov2 [] (shuffle cov1 perm)
  simp only [mem_shuffle, rawCoverContains_iff h2] at h
  exact ⟨h.idx, h.some, by simp⟩

/-! ### The walk over the pairs of calls -/

/-- The number of calls before the first one without a raw cover. -/
def lead (covers : List (Option RawCover)) : ℕ := (covers.takeWhile Option.isSome).length

lemma foreachSecond_eq (f : σ → ℕ → σ) (s : σ) (j : ℕ) (cs : List (Option RawCover)) :
    foreachSecond f s j cs = (range' j (lead cs)).foldl f s := by
  induction cs generalizing s j with
  | nil => rfl
  | cons c cs ih =>
    cases c with
    | none => rfl
    | some c => simp [foreachSecond, lead, ih, range'_succ]

def visited : ℕ → List (Option RawCover) → List (ℕ × ℕ)
  | i, some _ :: covers =>
    (range' (i + 1) (lead covers)).map (fun j => (i, j)) ++ visited (i + 1) covers
  | _, _ => []

lemma foreachRawCover_eq (f : σ → ℕ → ℕ → σ) (s : σ) (i : ℕ) (cs : List (Option RawCover)) :
    foreachRawCover f s i cs = (visited i cs).foldl (fun s p => f s p.1 p.2) s := by
  induction cs generalizing s i with
  | nil => rfl
  | cons c cs ih =>
    cases c with
    | none => rfl
    | some c =>
      rw [foreachRawCover, ih, foreachSecond_eq, visited, foldl_append, foldl_map]

lemma mem_visited {covers : List (Option RawCover)} :
    p ∈ visited i covers ↔ i ≤ p.1 ∧ p.1 < p.2 ∧ p.2 < i + lead covers := by
  obtain ⟨a, b⟩ := p
  induction covers generalizing i with
  | nil => simp [visited, lead]; omega
  | cons c covers ih =>
    cases c with
    | none => simp [visited, lead]; omega
    | some c =>
      simp only [visited, mem_append, mem_map, mem_range'_1, Prod.mk.injEq, ih,
        lead, takeWhile_cons, Option.isSome_some, if_true, length_cons]
      constructor
      · rintro (⟨j, hj, rfl, rfl⟩ | h) <;> omega
      · intro h
        by_cases ha : a = i
        · exact .inl ⟨b, by omega, ha.symm, rfl⟩
        · exact .inr (by omega)

lemma lt_lead_iff {k : ℕ} {cs : List (Option RawCover)} :
    k < lead cs ↔ ∀ m ≤ k, (cs.getD m none).isSome := by
  induction cs generalizing k with
  | nil => simpa [lead] using ⟨0, Nat.zero_le k⟩
  | cons c cs ih =>
    cases c with
    | none => simpa [lead] using ⟨0, Nat.zero_le k, rfl⟩
    | some c =>
      have hld : lead (some c :: cs) = lead cs + 1 := by simp [lead]
      rw [hld]
      cases k with
      | zero => simp
      | succ k =>
        rw [Nat.add_lt_add_iff_right, ih]
        constructor
        · intro h m hm
          cases m with
          | zero => rfl
          | succ m => simpa using h m (by omega)
        · intro h m hm
          simpa using h (m + 1) (by omega)

lemma getD_rawCovers (fz : Fuzzer) (info : List RawCover) (k : ℕ) :
    (rawCovers fz info).getD k none =
      if checkRaceRelatedCov fz (info.getD k []) then some (info.getD k []) else none := by
  by_cases hk : k < info.length
  · simp [rawCovers, getD_eq_getElem?_getD, hk]
  · simp [rawCovers, getD_eq_getElem?_getD, hk, checkRaceRelatedCov]

lemma lt_lead_rawCovers {k : ℕ} :
    k < lead (rawCovers fz info) ↔ ∀ m ≤ k, checkRaceRelatedCov fz (info.getD m []) := by
  rw [lt_lead_iff]
  refine forall₂_congr fun m _ => ?_
  rw [getD_rawCovers]
  split <;> simp_all

/-! ### The queue -/

def candsOf (fz : Fuzzer) (rnd : Draws) (prog : String) (covers : List (Option RawCover))
    (p : ℕ × ℕ) : List RaceProgCand :=
  pushCand fz rnd prog covers [] p.1 p.2

lemma pushCand_eq (fz : Fuzzer) (rnd : Draws) (prog : String) (cs : List (Option RawCover))
    (queue : List RaceProgCand) (p : ℕ × ℕ) :
    pushCand fz rnd prog cs queue p.1 p.2 = queue ++ candsOf fz rnd prog cs p := by
  simp only [candsOf, pushCand]
  split <;> simp

lemma foldl_pushCand (fz : Fuzzer) (rnd : Draws) (prog : String)
    (cs : List (Option RawCover)) (queue : List RaceProgCand) (ps : List (ℕ × ℕ)) :
    ps.foldl (fun q p => pushCand fz rnd prog cs q p.1 p.2) queue =
      queue ++ ps.flatMap (candsOf fz rnd prog cs) := by
  induction ps generalizing queue with
  | nil => simp
  | cons p ps ih => rw [foldl_cons, ih, pushCand_eq, flatMap_cons, append_assoc]

lemma updateRaceProgCand_eq (hq : fz.newRaceProgCandQueue.length ≤ 10000) (rnd : Draws)
    (prog : String) (info : List RawCover) :
    updateRaceProgCand fz rnd prog info = fz.newRaceProgCandQueue ++
      (visited 0 (rawCovers fz info)).flatMap (candsOf fz rnd prog (rawCovers fz info)) := by
  have hfl : isFullNewRaceProgCand fz = false := by simpa [isFullNewRaceProgCand] using hq
  rw [updateRaceProgCand, hfl, if_neg (by simp), foreachRawCover_eq, foldl_pushCand]

def IsFor (prog : String) (i j : ℕ) (cand : RaceProgCand) : Prop :=
  cand.prog = prog ∧ cand.raceInfos ≠ [] ∧ ∀ ri ∈ cand.raceInfos, ri.idx = (i, j)

lemma IsFor.unique {prog : String} {b : ℕ} {cand : RaceProgCand}
    (h : IsFor prog i j cand) (h' : IsFor prog a b cand) : (i, j) = (a, b) := by
  obtain ⟨ri, hri⟩ := exists_mem_of_ne_nil _ h.2.1
  rw [← h.2.2 ri hri, h'.2.2 ri hri]

lemma candsOf_spec (hs : ∀ cov ∈ info, cov.Pairwise (· < ·)) (rnd : Draws) (prog : String)
    (hi : checkRaceRelatedCov fz (info.getD i [])) (hj : checkRaceRelatedCov fz (info.getD j [])) :
    (MayRace fz info i j → ∃ cand ∈ candsOf fz rnd prog (rawCovers fz info) (i, j),
      IsFor prog i j cand) ∧
    (∀ cand ∈ candsOf fz rnd prog (rawCovers fz info) (i, j),
      MayRace fz info i j ∧ IsFor prog i j cand) := by
  have hcov : (info.getD j []).Pairwise (· < ·) := by
    by_cases hlt : j < info.length
    · rw [getD_eq_getElem _ _ hlt]
      exact hs _ (getElem_mem hlt)
    · simp [getD_eq_getElem?_getD, hlt]
  have hci : ((rawCovers fz info).getD i none).getD [] = info.getD i [] := by
    rw [getD_rawCovers, hi, if_pos rfl, Option.getD_some]
  have hcj : ((rawCovers fz info).getD j none).getD [] = info.getD j [] := by
    rw [getD_rawCovers, hj, if_pos rfl, Option.getD_some]
  simp only [candsOf, pushCand]
  have hw := mayRace_walked fz i j
    (((rawCovers fz info).getD i none).getD []) (((rawCovers fz info).getD j none).getD [])
    (rnd i j (((rawCovers fz info).getD i none).getD [])) (hcj ▸ hcov)
  -- the permutation drawn depends on the cover, so the race infos are abstracted first
  generalize mayRace fz i j _ _ = ri at hw ⊢
  rw [hci, hcj] at hw
  have hidx : ∀ r ∈ ri, r.idx = (i, j) := fun r hr => (hw.idx r hr).resolve_left (by simp)
  have hsm : ri ≠ [] ↔ MayRace fz info i j := by
    rw [MayRace]
    exact hw.some.trans (by simp)
  by_cases hnil : ri = []
  · refine ⟨fun h => absurd hnil (hsm.2 h), ?_⟩
    simp [hnil]
  · rw [if_neg (by simpa using hnil)]
    have hfor : IsFor prog i j ⟨prog, ri⟩ := ⟨rfl, hnil, hidx⟩
    refine ⟨fun _ => ⟨_, by simp, hfor⟩, fun cand hc => ?_⟩
    rw [nil_append, mem_singleton] at hc
    subst hc
    exact ⟨hsm.1 hnil, hfor⟩

/-- The candidates queued are those of the pairs that may race. -/
def QueuesExactly (fz : Fuzzer) (rnd : Draws) (prog : String) (info : List RawCover) : Prop :=
  ∃ new, updateRaceProgCand fz rnd prog info = fz.newRaceProgCandQueue ++ new ∧
    (∀ i j, i < j → MayRace fz info i j → ∃ cand ∈ new, IsFor prog i j cand) ∧
    (∀ cand ∈ new, ∃ i j, i < j ∧ MayRace fz info i j ∧ IsFor prog i j cand)

/-- **The queued candidates.** They are exactly those of the pairs of calls that may race, if
and only if no call up to the second one of such a pair is without a raw cover. -/
theorem queuesExactly_iff (fz : Fuzzer) (rnd : Draws) (prog : String) (info : List RawCover)
    (hs : ∀ cov ∈ info, cov.Pairwise (· < ·)) (hq : fz.newRaceProgCandQueue.length ≤ 10000) :
    QueuesExactly fz rnd prog info ↔
      ∀ i j, i < j → MayRace fz info i j →
        ∀ k ≤ j, checkRaceRelatedCov fz (info.getD k []) = true := by
  have hvis : ∀ {p : ℕ × ℕ}, p ∈ visited 0 (rawCovers fz info) ↔
      p.1 < p.2 ∧ ∀ k ≤ p.2, checkRaceRelatedCov fz (info.getD k []) := by
    intro p
    rw [mem_visited, Nat.zero_add, lt_lead_rawCovers]
    simp
  rw [QueuesExactly, updateRaceProgCand_eq hq]
  constructor
  · rintro ⟨new, hnew, hall, -⟩ i j hij hrc
    obtain rfl := append_cancel_left hnew
    obtain ⟨cand, hmem, hfor⟩ := hall i j hij hrc
    obtain ⟨⟨a, b⟩, hp, hc⟩ := mem_flatMap.1 hmem
    obtain ⟨hab, htc⟩ := hvis.1 hp
    have hfor' := ((candsOf_spec hs rnd prog (htc a hab.le) (htc b le_rfl)).2 cand hc).2
    obtain ⟨rfl, rfl⟩ := Prod.mk.inj (hfor.unique hfor')
    exact htc
  · intro hcn
    refine ⟨_, rfl, fun i j hij hrc => ?_, fun cand hc => ?_⟩
    · have htc := hcn i j hij hrc
      obtain ⟨cand, hc, hfor⟩ :=
        (candsOf_spec hs rnd prog (htc i hij.le) (htc j le_rfl)).1 hrc
      exact ⟨cand, mem_flatMap.2 ⟨(i, j), hvis.2 ⟨hij, htc⟩, hc⟩, hfor⟩
    · obtain ⟨⟨a, b⟩, hp, hc⟩ := mem_flatMap.1 hc
      obtain ⟨hab, htc⟩ := hvis.1 hp
      exact ⟨a, b, hab, (candsOf_spec hs rnd prog (htc a hab.le) (htc b le_rfl)).2 cand hc⟩

def onePair : Fuzzer where
  sparseRaceCandPairs c :=
    if c = 1 then [⟨2, 7, ("a", "b")⟩] else if c = 2 then [⟨1, 7, ("b", "a")⟩] else []
  suppressedPairs := []
  doSuppFreq := true
  flagRootCause := false
  newRaceProgCandQueue := []

theorem queuesExactly_two_calls : QueuesExactly onePair (fun _ _ _ => 1) "p" [[1], [2]] := by
  refine (queuesExactly_iff onePair (fun _ _ _ => 1) "p" [[1], [2]] (by decide) (by decide)).2 ?_
  rintro i j hij ⟨b, hb, e, he, hcov, -⟩ k hk
  have hj : j < 2 := by
    by_contra hj
    have hnn : ([[1], [2]] : List RawCover)[j]? = none := getElem?_eq_none (not_lt.1 hj)
    simp [getD_eq_getElem?_getD, hnn] at hcov
  have hk : k = 0 ∨ k = 1 := by omega
  rcases hk with rfl | rfl <;> decide

/-- A call between the two that covers no block of the table hides the pair. -/
theorem not_queuesExactly_gap : ¬ QueuesExactly onePair (fun _ _ _ => 1) "p" [[1], [9], [2]] := by
  rintro ⟨new, hnew, hall, -⟩
  have hq : updateRaceProgCand onePair (fun _ _ _ => 1) "p" [[1], [9], [2]] = [] := by
    decide
  have hrc : MayRace onePair [[1], [9], [2]] 0 2 :=
    ⟨1, by decide, ⟨2, 7, ("a", "b")⟩, by decide, by decide, by decide⟩
  obtain ⟨cand, hc, -⟩ := hall 0 2 (by decide) hrc
  rw [hq, eq_comm, append_eq_nil_iff] at hnew
  simp [hnew.2] at hc

/-! ### All race infos of a pair of calls -/

def thold (fz : Fuzzer) : ℕ := if fz.flagRootCause then 100000 else 100

def infoOf (i j : ℕ) (b : UInt32) (e : EntryTy) : RaceInfo :=
  ⟨(b, e.cover), (i, j), e.hash, e.mempair⟩

/-- The entries of `b` for the second cover that are not suppressed. -/
def hitsAt (fz : Fuzzer) (cov2 : RawCover) (b : UInt32) : List EntryTy :=
  (fz.sparseRaceCandPairs b).filter fun e => rawCoverContains cov2 e.cover && !isSupp fz e

def allInfos (fz : Fuzzer) (i j : ℕ) (cov1 cov2 : RawCover) : List RaceInfo :=
  cov1.flatMap fun b => (hitsAt fz cov2 b).map (infoOf i j b)

/-- A walk that began with `infos` and met `hits` has kept them up to the first one above the
threshold, where it stopped. -/
def CutAt (n : ℕ) (infos hits : List RaceInfo) (r : List RaceInfo × Bool) : Prop :=
  infos.length ≤ n → r = ((infos ++ hits).take (n + 1), decide ((infos ++ hits).length ≤ n))

lemma CutAt.refl (n : ℕ) (is : List RaceInfo) : CutAt n is [] (is, true) := by
  intro h
  rw [append_nil, take_of_length_le (h.trans n.le_succ), decide_eq_true h]

lemma CutAt.keepGoing (h : CutAt n infos hits r) (h' : CutAt n r.1 hits' (k r.1)) :
    CutAt n infos (hits ++ hits') (keepGoing r k) := by
  intro hn
  obtain rfl := h hn
  rw [RaceCand.keepGoing]
  by_cases hle : (infos ++ hits).length ≤ n
  · have htk : (infos ++ hits).take (n + 1) = infos ++ hits :=
      take_of_length_le (hle.trans n.le_succ)
    simp only [htk, decide_eq_true hle, if_true] at h' ⊢
    rw [h' hle, append_assoc]
  · -- what comes later is beyond the threshold
    have hlen : n + 1 ≤ (infos ++ hits).length := not_le.1 hle
    have hmr : ¬ (infos ++ (hits ++ hits')).length ≤ n := by
      rw [← append_assoc, length_append]
      omega
    simp only [decide_eq_false hle, decide_eq_false hmr, Bool.false_eq_true, if_false]
    rw [← append_assoc, take_append_of_le_length hlen]

lemma appendRaceInfo_cutAt (is : List RaceInfo) (b : UInt32) (e : EntryTy) :
    CutAt (thold fz) is (if isSupp fz e then [] else [infoOf i j b e])
      (appendRaceInfo fz i j is b e) := by
  unfold appendRaceInfo
  cases isSupp fz e with
  | true => exact .refl _ is
  | false =>
    intro hn
    have hlen : (is ++ [infoOf i j b e]).length ≤ thold fz + 1 := by simpa using hn
    simp only [Bool.false_eq_true, if_false]
    rw [take_of_length_le hlen]
    rfl

lemma foreachEntry_cutAt (cov2 : RawCover) (b : UInt32) (is : List RaceInfo)
    (es : List EntryTy) :
    CutAt (thold fz) is
      ((es.filter fun e => rawCoverContains cov2 e.cover && !isSupp fz e).map (infoOf i j b))
      (foreachEntry cov2 (fun s e => appendRaceInfo fz i j s b e) is es) := by
  induction es generalizing is with
  | nil => exact .refl _ is
  | cons e es ih =>
    rw [foreachEntry]
    cases hc : rawCoverContains cov2 e.cover with
    | false => simpa [filter_cons, hc] using ih is
    | true =>
      have hht : ((e :: es).filter fun e =>
          rawCoverContains cov2 e.cover && !isSupp fz e).map (infoOf i j b) =
            (if isSupp fz e then [] else [infoOf i j b e]) ++
              (es.filter fun e => rawCoverContains cov2 e.cover && !isSupp fz e).map
                (infoOf i j b) := by
        cases hs : isSupp fz e <;> simp [hc, hs]
      rw [hht, if_pos rfl]
      exact CutAt.keepGoing (appendRaceInfo_cutAt is b e) (ih _)

lemma foreachRacyBasicBlock_cutAt (fz : Fuzzer) (i j : ℕ) (cov2 : RawCover)
    (is : List RaceInfo) (cov1 : RawCover) :
    CutAt (thold fz) is (allInfos fz i j cov1 cov2)
      (foreachRacyBasicBlock fz.sparseRaceCandPairs cov2 (appendRaceInfo fz i j) is cov1) := by
  induction cov1 generalizing is with
  | nil => exact .refl _ is
  | cons b cov1 ih => exact CutAt.keepGoing (foreachEntry_cutAt cov2 b is _) (ih _)

lemma mayRace_eq_take (fz : Fuzzer) (i j : ℕ) (cov1 cov2 : RawCover) :
    mayRace fz i j cov1 cov2 = (allInfos fz i j cov1 cov2).take (thold fz + 1) := by
  rw [mayRace, foreachRacyBasicBlock_cutAt fz i j cov2 [] cov1 (Nat.zero_le _), nil_append]

/-! ### The race infos do not depend on the shuffle -/

lemma shuffle_perm (perm : Equiv.Perm (Fin cov.length)) : (shuffle cov perm).Perm cov := by
  have h := Equiv.Perm.ofFn_comp_perm perm cov.get
  rw [ofFn_get] at h
  exact h

lemma allInfos_perm (h : cov1.Perm cov1') (cov2 : RawCover) :
    (allInfos fz i j cov1 cov2).Perm (allInfos fz i j cov1' cov2) :=
  h.flatMap_right _

lemma mem_hitsAt (h2 : cov2.Pairwise (· < ·)) :
    e ∈ hitsAt fz cov2 b ↔ e ∈ fz.sparseRaceCandPairs b ∧ e.cover ∈ cov2 ∧ isSupp fz e = false := by
  simp [hitsAt, rawCoverContains_iff h2]

lemma mem_allInfos (h2 : cov2.Pairwise (· < ·)) :
    ri ∈ allInfos fz i j cov1 cov2 ↔
      ∃ b ∈ cov1, ∃ e ∈ fz.sparseRaceCandPairs b,
        e.cover ∈ cov2 ∧ isSupp fz e = false ∧ ri = infoOf i j b e := by
  simp only [allInfos, mem_flatMap, mem_map, mem_hitsAt h2]
  constructor
  · rintro ⟨b, hb, e, ⟨he, hcov, hs⟩, rfl⟩
    exact ⟨b, hb, e, he, hcov, hs, rfl⟩
  · rintro ⟨b, hb, e, he, hcov, hs, rfl⟩
    exact ⟨b, hb, e, ⟨he, hcov, hs⟩, rfl⟩

lemma infoOf_injective (i j : ℕ) (b : UInt32) : Function.Injective (infoOf i j b) := by
  rintro ⟨c, h, m⟩ ⟨c', h', m'⟩ heq
  simpa [infoOf] using heq

lemma count_allInfos (h1 : cov1.Nodup) (h2 : cov2.Pairwise (· < ·)) (hb : b ∈ cov1)
    (he : e.cover ∈ cov2) (hs : isSupp fz e = false) :
    (allInfos fz i j cov1 cov2).count (infoOf i j b e) = (fz.sparseRaceCandPairs b).count e := by
  have hbl : ((hitsAt fz cov2 b).map (infoOf i j b)).count (infoOf i j b e) =
      (fz.sparseRaceCandPairs b).count e := by
    rw [count_map_of_injective _ _ (infoOf_injective i j b), hitsAt, count_filter]
    simp [(rawCoverContains_iff h2 _).2 he, hs]
  have hot : ∀ c ≠ b, c ∈ cov1 →
      ((hitsAt fz cov2 c).map (infoOf i j c)).count (infoOf i j b e) = 0 := by
    refine fun c hc _ => count_eq_zero.2 fun hmem => ?_
    obtain ⟨e', -, heq⟩ := mem_map.1 hmem
    exact hc (congrArg (fun ri => ri.cov.1) heq)
  have hone : cov1.count b = 1 := count_eq_one_of_mem h1 hb
  rw [allInfos, count_flatMap]
  refine (sum_map_eq_nsmul_single b _ hot).trans ?_
  rw [hone, one_smul]
  exact hbl

/-- What `mayRace` returns for two covers, and how it depends on the shuffle: race infos of table
entries that are not suppressed, with the blocks in the covers, not more than one above the
threshold; and up to the threshold each entry as often as it is in the table, for every shuffle. -/
structure Exact (fz : Fuzzer) (i j : ℕ) (cov1 cov2 : RawCover) (infos : List RaceInfo) : Prop where
  sound : ∀ ri ∈ infos, ∃ b ∈ cov1, ∃ e ∈ fz.sparseRaceCandPairs b,
    e.cover ∈ cov2 ∧ isSupp fz e = false ∧ ri = infoOf i j b e
  length_le : infos.length ≤ thold fz + 1
  complete : infos.length ≤ thold fz → ∀ b ∈ cov1, ∀ e, e.cover ∈ cov2 → isSupp fz e = false →
    infos.count (infoOf i j b e) = (fz.sparseRaceCandPairs b).count e
  same : infos.length ≤ thold fz → ∀ perm : Equiv.Perm (Fin cov1.length),
    (mayRace fz i j (shuffle cov1 perm) cov2).Perm infos

/-- **The race infos of a pair of calls.** -/
theorem mayRace_exact (fz : Fuzzer) (i j : ℕ) {cov1 cov2 : RawCover}
    (h1 : cov1.Pairwise (· < ·)) (h2 : cov2.Pairwise (· < ·))
    (perm : Equiv.Perm (Fin cov1.length)) :
    Exact fz i j cov1 cov2 (mayRace fz i j (shuffle cov1 perm) cov2) := by
  have hnd : cov1.Nodup := h1.imp fun h => UInt32.ne_of_lt h
  have hpr : ∀ perm : Equiv.Perm (Fin cov1.length),
      (allInfos fz i j (shuffle cov1 perm) cov2).Perm (allInfos fz i j cov1 cov2) :=
    fun perm => allInfos_perm (shuffle_perm perm) cov2
  -- at most the threshold is returned only if there are no more race infos
  have hall : ∀ {perm}, (allInfos fz i j cov1 cov2).length ≤ thold fz →
      mayRace fz i j (shuffle cov1 perm) cov2 = allInfos fz i j (shuffle cov1 perm) cov2 := by
    intro perm hle
    rw [mayRace_eq_take, take_of_length_le]
    rw [(hpr perm).length_eq]
    exact hle.trans (Nat.le_succ _)
  have hfew : (mayRace fz i j (shuffle cov1 perm) cov2).length ≤ thold fz →
      (allInfos fz i j cov1 cov2).length ≤ thold fz := by
    intro hle
    rw [mayRace_eq_take, length_take, (hpr perm).length_eq] at hle
    omega
  refine ⟨fun ri hri => ?_, ?_, fun hle b hb e he hs => ?_, fun hle perm' => ?_⟩
  · rw [mayRace_eq_take] at hri
    exact (mem_allInfos h2).1 ((hpr perm).mem_iff.1 (mem_of_mem_take hri))
  · rw [mayRace_eq_take]
    exact length_take_le ..
  · rw [hall (hfew hle), (hpr perm).count_eq, count_allInfos hnd h2 hb he hs]
  · rw [hall (hfew hle), hall (hfew hle)]
    exact (hpr perm').trans (hpr perm).symm

/-- A block with the same entry twice. -/
theorem mayRace_exact_twice :
    Exact { onePair with sparseRaceCandPairs := fun _ => [⟨2, 7, ("a", "b")⟩, ⟨2, 7, ("a", "b")⟩] }
      0 1 [1] [2, 3]
      (mayRace
        { onePair with sparseRaceCandPairs := fun _ => [⟨2, 7, ("a", "b")⟩, ⟨2, 7, ("a", "b")⟩] }
        0 1 (shuffle [1] 1) [2, 3]) :=
  mayRace_exact _ 0 1 (by decide) (by decide) 1

end Razzer.RaceCand
