import Razzer.RaceTables

/-!
What the results of the static analysis become when the manager loads them.

The addresses under a location and a block are those that were recorded there, so the race infos
of a candidate are the pairs of such addresses. A pair file without tags is one of writes, but an
entry of the mapping without a tag records nothing. A line with one location, or with one tag,
makes a later function read behind the end of a list.
-/

namespace Razzer.StaticAnalysis

open SyzManager ManagerDB Buckets Loops Mempairs RaceQueue RaceTables List Nat Except
open RaceCand (EntryTy)
open Option (some)

/-! ### The addresses of a location in a block -/

def recorded (pcs : List UInt64) (mapping : List Mapping) (loc : String) (bb : UInt32) :
    List ItemTy :=
  ((allRecords pcs mapping).filter fun r => decide (r.loc = loc ∧ r.bb = bb)).map Record.access

variable {n : ℕ} {xs ys : List ItemTy} {p : UInt32 × UInt32} {line : List Char}
  {file : Except String String} {d : Mempair}

lemma length_hexText (hlow : 2 ^ 28 ≤ n) (hhg : n < 2 ^ 32) : (hexText n).toList.length = 8 := by
  have hle : (toDigits 16 n).length ≤ 8 :=
    (length_toDigits_le_iff (by omega) (by omega)).2 (by omega)
  have hlt : ¬ (toDigits 16 n).length ≤ 7 := fun h => by
    have := (length_toDigits_le_iff (by omega) (by omega)).1 h
    omega
  rw [hexText, String.toList_ofList]
  omega

lemma hexText_injective : Function.Injective hexText := by
  intro n n' h
  have hdg : toDigits 16 n = toDigits 16 n' := String.ofList_injective h
  have hrd := Decoding.readDigits_toDigits (b := 16) (by omega) (by omega) n
  rw [hdg, Decoding.readDigits_toDigits (by omega) (by omega)] at hrd
  exact (some.inj hrd).symm

variable {H : Hash} {bb : UInt32} {mapping : List Mapping} {pcs : List UInt64} {c : Config}
  {q : Queue}
  {ri : RaceInfo} {m : Mempair} {mempair : List Mempair} {loc loc' prog text : String}

lemma addrKey_inj {bb' : UInt32} (hb : 2 ^ 28 ≤ bb.toNat)
    (hb' : 2 ^ 28 ≤ bb'.toNat) : addrKey H loc bb = addrKey H loc' bb' ↔ loc = loc' ∧ bb = bb' := by
  constructor
  · intro h
    have hls : loc.toList ++ (hexText bb.toNat).toList =
        loc'.toList ++ (hexText bb'.toNat).toList := by
      have := congrArg String.toList (H.injective h)
      simpa using this
    have hlen : (hexText bb.toNat).toList.length = (hexText bb'.toNat).toList.length := by
      rw [length_hexText hb bb.toNat_lt, length_hexText hb' bb'.toNat_lt]
    obtain ⟨hloc, hhex⟩ := append_inj' hls hlen
    exact ⟨String.toList_injective hloc,
      UInt32.toNat_inj.1 (hexText_injective (String.toList_injective hhex))⟩
  · rintro ⟨rfl, rfl⟩
    rfl

def EightDigits (pcs : List UInt64) (mapping : List Mapping) : Prop :=
  ∀ m ∈ mapping, ∀ item ∈ m.item, ∀ bb, blockOf pcs item = .ok bb → 2 ^ 28 ≤ bb.toNat

lemma EightDigits.bb_le (h : EightDigits pcs mapping) {r : Record}
    (hr : r ∈ allRecords pcs mapping) : 2 ^ 28 ≤ r.bb.toNat := by
  simp only [allRecords, recordsOf, mem_flatMap] at hr
  obtain ⟨m, hm, tag, -, item, him, hr⟩ := hr
  rw [recordOf] at hr
  split at hr
  · next bb hbb =>
    rw [mem_singleton.1 hr]
    exact h m hm item him bb hbb
  · cases hr

lemma getAddr_eq {c : Cover} (h : initMapping H pcs mapping = .ok c) (h8 : EightDigits pcs mapping)
    (loc : String) (hbb : 2 ^ 28 ≤ bb.toNat) :
    getAddr H c loc bb = recorded pcs mapping loc bb := by
  rw [getAddr, (initMapping_shows h).addr, addAll_apply, nil_append, recorded, filter_map, map_map]
  refine congrArg (map Record.access) (filter_congr fun r hr => ?_)
  exact decide_eq_decide.2 (addrKey_inj (h8.bb_le hr) hbb)

/-! ### The race infos of a candidate -/

def IsWrite (x : ItemTy) : Prop := x.tag ≠ "R"

/-- The pairs of addresses that were queued for a pair of locations in two blocks, between two
states of the queue. -/
def queuedFor (q q' : Queue) (mempair : String × String) (cov : UInt32 × UInt32) :
    List (UInt32 × UInt32) :=
  (((q'.raceQueue.drop q.raceQueue.length).flatMap fun cand => cand.raceInfos).filter fun ri =>
    decide (ri.mempair = mempair ∧ ri.cov = cov)).map fun ri => ri.addr

lemma queued_addRaceProgCand (c : Config) (q : Queue) (prog : String) (ris : List RaceInfo) :
    (((addRaceProgCand c q prog ris).raceQueue.drop q.raceQueue.length).flatMap
      fun cand => cand.raceInfos) = ris.flatMap (raceInfosAt c q) := by
  rw [addRaceProgCand]
  simp only
  split
  · next hem =>
    rw [drop_length, flatMap_nil]
    exact (isEmpty_iff.1 hem).symm
  · simp

lemma mem_raceInfosAt {ri' : RaceInfo} (h : ri' ∈ raceInfosAt c q ri) :
    ri'.mempair = ri.mempair ∧ ri'.cov = ri.cov := by
  rw [raceInfosAt] at h
  split at h
  · cases h
  · simp only [mem_flatMap, mem_filterMap] at h
    obtain ⟨x, -, y, -, h⟩ := h
    split at h
    · cases h
    · obtain rfl := some.inj h
      exact ⟨rfl, rfl⟩

def addrPairs (xs ys : List ItemTy) : List (UInt32 × UInt32) :=
  xs.flatMap fun x => ys.filterMap fun y =>
    if x.tag = "R" ∧ y.tag = "R" then none else some (x.item, y.item)

lemma mem_addrPairs :
    p ∈ addrPairs xs ys ↔ ∃ x ∈ xs, ∃ y ∈ ys, (IsWrite x ∨ IsWrite y) ∧ p = (x.item, y.item) := by
  simp only [addrPairs, mem_flatMap, mem_filterMap, IsWrite]
  refine exists_congr fun x => and_congr_right fun _ => exists_congr fun y =>
    and_congr_right fun _ => ?_
  split_ifs with h
  · simp [h]
  · rw [some.injEq, eq_comm]
    constructor
    · exact fun heq => ⟨not_and_or.1 h, heq⟩
    · exact fun heq => heq.2

/-- How often an address was recorded, and how often as read. -/
def accesses (xs : List ItemTy) (a : UInt32) : ℕ := xs.countP fun x => x.item = a

def reads (xs : List ItemTy) (a : UInt32) : ℕ := xs.countP fun x => x.item = a ∧ x.tag = "R"

/-- The pairs of accesses to two addresses, without those of two reads. -/
def accessPairs (xs ys : List ItemTy) (a b : UInt32) : ℕ :=
  accesses xs a * accesses ys b - reads xs a * reads ys b

lemma count_row (x : ItemTy) (ys : List ItemTy) (a b : UInt32) :
    (ys.filterMap fun y => if x.tag = "R" ∧ y.tag = "R" then none
        else some (x.item, y.item)).count (a, b) +
        (if x.item = a ∧ x.tag = "R" then 1 else 0) * reads ys b =
      (if x.item = a then 1 else 0) * accesses ys b := by
  induction ys with
  | nil => simp [reads, accesses]
  | cons y ys ih =>
    by_cases hx : x.item = a <;> by_cases hR : x.tag = "R" <;> by_cases hy : y.item = b <;>
      by_cases hS : y.tag = "R" <;>
      simp [reads, accesses, hx, hR, hy, hS] at ih ⊢ <;> omega

lemma count_addrPairs (xs ys : List ItemTy) (a b : UInt32) :
    (addrPairs xs ys).count (a, b) = accessPairs xs ys a b := by
  suffices h : (addrPairs xs ys).count (a, b) + reads xs a * reads ys b =
      accesses xs a * accesses ys b from Nat.eq_sub_of_add_eq h
  induction xs with
  | nil => simp [addrPairs, reads, accesses]
  | cons x xs ih =>
    have hrow := count_row x ys a b
    have hrd : reads (x :: xs) a = reads xs a + if x.item = a ∧ x.tag = "R" then 1 else 0 := by
      simp [reads, countP_cons]
    have hac : accesses (x :: xs) a = accesses xs a + if x.item = a then 1 else 0 := by
      simp [accesses, countP_cons]
    rw [addrPairs, flatMap_cons, count_append, ← addrPairs, hrd, hac, Nat.add_mul, Nat.add_mul]
    omega

lemma map_addr_raceInfosAt
    (hsp : ¬ (q.raceCorpusDBDone ∧ c.suppFreq ∧ ri.hash ∈ q.suppressedPairs)) :
    (raceInfosAt c q ri).map (fun ri => ri.addr) =
      addrPairs (c.getAddr ri.mempair.1 ri.cov.1) (c.getAddr ri.mempair.2 ri.cov.2) := by
  rw [raceInfosAt, if_neg hsp, addrPairs, map_flatMap]
  refine congrArg (fun f => flatMap f _) (funext fun x => ?_)
  rw [map_filterMap]
  refine congrArg (fun f => filterMap f _) (funext fun y => ?_)
  split_ifs <;> rfl

/-- The candidate asks for the pair in these blocks, and the pair is not suppressed. -/
def asks (c : Config) (q : Queue) (mempair : String × String) (cov : UInt32 × UInt32)
    (ri : RaceInfo) : Bool :=
  decide ((ri.mempair = mempair ∧ ri.cov = cov) ∧
    ¬ (q.raceCorpusDBDone ∧ c.suppFreq ∧ ri.hash ∈ q.suppressedPairs))

lemma queuedFor_eq (ris : List RaceInfo) (mempair : String × String) (cov : UInt32 × UInt32) :
    queuedFor q (addRaceProgCand c q prog ris) mempair cov =
      (ris.filter (asks c q mempair cov)).flatMap fun _ =>
        addrPairs (c.getAddr mempair.1 cov.1) (c.getAddr mempair.2 cov.2) := by
  rw [queuedFor, queued_addRaceProgCand]
  induction ris with
  | nil => rfl
  | cons ri ris ih =>
    rw [flatMap_cons, filter_append, map_append, ih, filter_cons]
    by_cases hkey : ri.mempair = mempair ∧ ri.cov = cov
    · have hall : (raceInfosAt c q ri).filter
          (fun ri => decide (ri.mempair = mempair ∧ ri.cov = cov)) = raceInfosAt c q ri := by
        refine filter_eq_self.2 fun r hr => decide_eq_true ?_
        rw [(mem_raceInfosAt hr).1, (mem_raceInfosAt hr).2]
        exact hkey
      rw [hall]
      by_cases hsp : q.raceCorpusDBDone ∧ c.suppFreq ∧ ri.hash ∈ q.suppressedPairs
      · simp [asks, hsp, raceInfosAt]
      · have hask : asks c q mempair cov ri = true := decide_eq_true ⟨hkey, hsp⟩
        rw [map_addr_raceInfosAt hsp, if_pos hask, flatMap_cons, hkey.1, hkey.2]
    · have hno : (raceInfosAt c q ri).filter
          (fun ri => decide (ri.mempair = mempair ∧ ri.cov = cov)) = [] := by
        refine filter_eq_nil_iff.2 fun r hr h => hkey ?_
        rw [← (mem_raceInfosAt hr).1, ← (mem_raceInfosAt hr).2]
        exact of_decide_eq_true h
      rw [hno, if_neg (by simp [asks, hkey])]
      rfl

def withMapping (H : Hash) (c : Config) (cover : Cover) : Config :=
  { c with getAddr := getAddr H cover }

section Queued

variable {pcs : List UInt64} {mapping : List Mapping} {cover : Cover}

lemma queuedFor_recorded (c : Config) (q : Queue) (prog : String) (raceInfos : List RaceInfo)
    (mempair : String × String) (cov : UInt32 × UInt32)
    (hcv : initMapping H pcs mapping = .ok cover) (h8 : EightDigits pcs mapping)
    (hcov : 2 ^ 28 ≤ cov.1.toNat ∧ 2 ^ 28 ≤ cov.2.toNat) :
    queuedFor q (addRaceProgCand (withMapping H c cover) q prog raceInfos) mempair cov =
      (raceInfos.filter (asks c q mempair cov)).flatMap fun _ =>
        addrPairs (recorded pcs mapping mempair.1 cov.1)
          (recorded pcs mapping mempair.2 cov.2) := by
  rw [queuedFor_eq, ← getAddr_eq hcv h8 _ hcov.1, ← getAddr_eq hcv h8 _ hcov.2]
  rfl

/-- What a pair of locations in two blocks is to be given: the pairs of addresses that were recorded
there, with a write among the two accesses, each pair once. -/
structure PairsOf (xs ys : List ItemTy) (pairs : List (UInt32 × UInt32)) : Prop where
  mem_iff : ∀ p, p ∈ pairs ↔ ∃ x ∈ xs, ∃ y ∈ ys, (IsWrite x ∨ IsWrite y) ∧ p = (x.item, y.item)
  nodup : pairs.Nodup

lemma pairsOf_iff_count {pairs : List (UInt32 × UInt32)} :
    PairsOf xs ys pairs ↔ ∀ a b, pairs.count (a, b) = min 1 (accessPairs xs ys a b) := by
  simp only [← count_addrPairs]
  constructor
  · intro h a b
    have hmem : (a, b) ∈ pairs ↔ (a, b) ∈ addrPairs xs ys := (h.mem_iff _).trans mem_addrPairs.symm
    rw [← count_pos_iff, ← count_pos_iff] at hmem
    have hle := nodup_iff_count_le_one.1 h.nodup (a, b)
    omega
  · intro h
    refine ⟨fun p => ?_, nodup_iff_count_le_one.2 fun p => ?_⟩
    · rw [← mem_addrPairs, ← count_pos_iff, ← count_pos_iff, h p.1 p.2]
      exact ⟨fun hp => lt_of_lt_of_le hp (min_le_right _ _), fun hp => lt_min one_pos hp⟩
    · rw [h p.1 p.2]
      exact min_le_left _ _

/-- **The race infos of a candidate.** The pairs of addresses that are queued for a pair of
locations in two blocks are those of the recorded accesses, each once, if and only if for any two
addresses there is no pair of recorded accesses with a write, or just one, and the candidate asks
for the pair in these blocks once and it is not suppressed. -/
theorem queued_pairs_iff (c : Config) (q : Queue) (prog : String) (raceInfos : List RaceInfo)
    (mempair : String × String) (cov : UInt32 × UInt32)
    (hcover : initMapping H pcs mapping = .ok cover) (h8 : EightDigits pcs mapping)
    (hcov : 2 ^ 28 ≤ cov.1.toNat ∧ 2 ^ 28 ≤ cov.2.toNat) :
    PairsOf (recorded pcs mapping mempair.1 cov.1) (recorded pcs mapping mempair.2 cov.2)
        (queuedFor q (addRaceProgCand (withMapping H c cover) q prog raceInfos) mempair cov) ↔
      ∀ a b, accessPairs (recorded pcs mapping mempair.1 cov.1)
          (recorded pcs mapping mempair.2 cov.2) a b = 0 ∨
        raceInfos.countP (asks c q mempair cov) = 1 ∧
          accessPairs (recorded pcs mapping mempair.1 cov.1)
            (recorded pcs mapping mempair.2 cov.2) a b = 1 := by
  rw [pairsOf_iff_count, queuedFor_recorded c q prog raceInfos mempair cov hcover h8 hcov]
  refine forall₂_congr fun a b => ?_
  rw [count_flatMap, countP_eq_length_filter]
  simp only [Function.comp_def, count_addrPairs, map_const', sum_replicate, smul_eq_mul]
  set n := (raceInfos.filter (asks c q mempair cov)).length
  set k := accessPairs (recorded pcs mapping mempair.1 cov.1)
    (recorded pcs mapping mempair.2 cov.2) a b
  constructor
  · intro h
    rcases Nat.eq_zero_or_pos k with hk | hk
    · exact .inl hk
    · rw [min_eq_left hk] at h
      exact .inr (mul_eq_one.1 h)
  · rintro (hk | ⟨hn, hk⟩)
    · rw [hk, mul_zero]
      rfl
    · rw [hn, hk]
      rfl

end Queued

/-! A kernel with two basic blocks, and a candidate for a location in each of them. -/

def twoPCs : List UInt64 := [0x81000000, 0x81000150]

def twoLocs (tag tag' : String) : List Mapping :=
  [⟨"a", tag, [0x81000100]⟩, ⟨"b", tag', [0x81000200]⟩]

def noAddrs : Config := ⟨false, true, 1, fun _ _ => []⟩

def emptyQueue : Queue := ⟨[], false, ∅, 0⟩

def twoBlocks : RaceInfo where
  cov := (0x81000005, 0x81000155)
  addr := (0, 0)
  idx := (0, 1)
  sched := 0
  hash := 7
  mempair := ("a", "b")

lemma initMapping_isOk (pcs : List UInt64) (ms : List Mapping)
    (h : (initMapping H pcs ms).toBool) :
    ∃ cover, initMapping H pcs ms = .ok cover := by
  cases hc : initMapping H pcs ms with
  | error e =>
    rw [hc] at h
    cases h
  | ok cover => exact ⟨cover, rfl⟩

lemma eightDigits_twoLocs (tag tag' : String) : EightDigits twoPCs (twoLocs tag tag') := by
  have hfr : blockOf twoPCs 0x81000100 = .ok 0x81000005 := by decide +kernel
  have hsc : blockOf twoPCs 0x81000200 = .ok 0x81000155 := by decide +kernel
  intro m hm item him bb hbb
  simp only [twoLocs, mem_cons, not_mem_nil, or_false] at hm
  rcases hm with rfl | rfl
  · rw [mem_singleton.1 him, hfr] at hbb
    rw [← ok.inj hbb]
    decide
  · rw [mem_singleton.1 him, hsc] at hbb
    rw [← ok.inj hbb]
    decide

/-- The address of `a` is read and written, but with a read of `b` only its write makes a pair. -/
theorem queued_pairs_read_write :
    ∃ cover, initMapping plainHash twoPCs (twoLocs "RW" "R") = .ok cover ∧
      PairsOf [⟨0x81000100, "R"⟩, ⟨0x81000100, "W"⟩] [⟨0x81000200, "R"⟩]
        (queuedFor emptyQueue
          (addRaceProgCand (withMapping plainHash noAddrs cover) emptyQueue "p" [twoBlocks])
          ("a", "b") (0x81000005, 0x81000155)) := by
  obtain ⟨cover, hcv⟩ :=
    initMapping_isOk (H := plainHash) twoPCs (twoLocs "RW" "R") (by decide +kernel)
  have hfr : recorded twoPCs (twoLocs "RW" "R") "a" 0x81000005 =
    [⟨0x81000100, "R"⟩, ⟨0x81000100, "W"⟩] := by rfl
  have hsc : recorded twoPCs (twoLocs "RW" "R") "b" 0x81000155 = [⟨0x81000200, "R"⟩] := by
    rfl
  have hiff := queued_pairs_iff noAddrs emptyQueue "p" [twoBlocks] ("a", "b")
    (0x81000005, 0x81000155) hcv (eightDigits_twoLocs "RW" "R") (by decide)
  rw [hfr, hsc] at hiff
  refine ⟨cover, hcv, hiff.2 fun a b => ?_⟩
  by_cases ha : 0x81000100 = a <;> by_cases hb : 0x81000200 = b
  all_goals simp [accessPairs, accesses, reads, ha, hb]
  decide

/-- An address that is read and written is recorded twice, so its pair is queued twice. -/
theorem read_write_address_queued_twice :
    ∃ cover, initMapping plainHash twoPCs (twoLocs "RW" "W") = .ok cover ∧
      queuedFor emptyQueue
          (addRaceProgCand (withMapping plainHash noAddrs cover) emptyQueue "p" [twoBlocks])
          ("a", "b") (0x81000005, 0x81000155) =
        [(0x81000100, 0x81000200), (0x81000100, 0x81000200)] ∧
      ∀ xs ys, ¬ PairsOf xs ys
        (queuedFor emptyQueue
          (addRaceProgCand (withMapping plainHash noAddrs cover) emptyQueue "p" [twoBlocks])
          ("a", "b") (0x81000005, 0x81000155)) := by
  obtain ⟨cover, hcv⟩ :=
    initMapping_isOk (H := plainHash) twoPCs (twoLocs "RW" "W") (by decide +kernel)
  have htw : queuedFor emptyQueue
      (addRaceProgCand (withMapping plainHash noAddrs cover) emptyQueue "p" [twoBlocks])
      ("a", "b") (0x81000005, 0x81000155) = [(0x81000100, 0x81000200), (0x81000100, 0x81000200)] :=
    (queuedFor_recorded noAddrs emptyQueue "p" [twoBlocks] ("a", "b") (0x81000005, 0x81000155) hcv
      (eightDigits_twoLocs "RW" "W") (by decide)).trans (by decide +kernel)
  refine ⟨cover, hcv, htw, fun xs ys h => ?_⟩
  have hnd := h.nodup
  rw [htw] at hnd
  exact absurd hnd (by decide)

/-! ### Files without tags -/

/-- No line of a pair file has tags: there are two locations on it. -/
def Untagged (text : String) : Prop :=
  ∀ line ∈ Lines.scanLines [] text.toList, skipped line = true ∨
    ∃ l0 l1, tokens line = [l0, l1] ∧ l1 ≠ "R" ∧ l1 ≠ "W"

lemma writes_of_untagged (h : Untagged text)
    (hld : loadMempair (.ok text) = .ok mempair) (hm : m ∈ mempair) :
    ∃ l0 l1, m = ⟨[l0, l1], ["W", "W"]⟩ := by
  have hln : mempair = (Lines.scanLines [] text.toList).filterMap mempairOfLine := by
    simp only [loadMempair, Except.bind, scanFile] at hld
    split at hld
    · cases hld
    · exact (ok.inj hld).symm
  rw [hln, mem_filterMap] at hm
  obtain ⟨line, hli, hm⟩ := hm
  rw [mempairOfLine] at hm
  rcases h line hli with hsk | ⟨l0, l1, htk, hR, hW⟩
  · rw [hsk] at hm
    cases hm
  · split at hm
    · cases hm
    · obtain rfl := some.inj hm
      refine ⟨l0, l1, ?_⟩
      have hpr : mempairOfTokens (tokens line) = ⟨[l0, l1], []⟩ := by
        simp [mempairOfTokens, htk, hR, hW]
      rw [hpr]
      have hup : ["w", "w"].map String.toUpper = ["W", "W"] := by decide +kernel
      simp [defaultTags, upperTags, hup]

lemma loadMapping_eq (mapping : List Mapping) : loadMapping mapping = mapping := by
  have hkp : ∀ (l : List Mapping) (s : List Mapping × Mapping),
      (l.foldl (fun (s : List Mapping × Mapping) mapp =>
        (s.1, if mapp.tag = "" then { mapp with tag := "w" } else mapp)) s).1 = s.1 := by
    intro l
    induction l with
    | nil => exact fun s => rfl
    | cons mapp l ih => exact fun s => ih _
  exact hkp mapping _

def AddrIn (pcs : List UInt64) (mapping : List Mapping) (loc : String) (bb : UInt32) : Prop :=
  ∃ m ∈ mapping, m.loc = loc ∧ ∃ item ∈ m.item, blockOf pcs item = .ok bb

def WrittenIn (pcs : List UInt64) (mapping : List Mapping) (loc : String) (bb : UInt32) : Prop :=
  ∃ m ∈ mapping, m.loc = loc ∧ "W" ∈ tagsOf m.tag ∧ ∃ item ∈ m.item, blockOf pcs item = .ok bb

lemma mem_locToBB_iff {c : Cover} (h : initMapping H pcs mapping = .ok c) :
    bb ∈ c.locToBB ⟨loc, "W"⟩ ↔ WrittenIn pcs mapping loc bb := by
  rw [(initMapping_shows h).block]
  simp only [allRecords, recordsOf, mem_flatMap, WrittenIn]
  constructor
  · rintro ⟨r, ⟨m, hm, tag, htag, item, him, hr⟩, hkey, rfl⟩
    rw [recordOf] at hr
    split at hr
    · next bb hbb =>
      obtain rfl := mem_singleton.1 hr
      obtain ⟨rfl, rfl⟩ := LocTy.mk.inj hkey
      exact ⟨m, hm, rfl, htag, item, him, hbb⟩
    · cases hr
  · rintro ⟨m, hm, rfl, htag, item, him, hbb⟩
    refine ⟨⟨m.loc, "W", item, bb⟩, ⟨m, hm, "W", htag, item, him, ?_⟩, rfl, rfl⟩
    simp [recordOf, hbb]

/-- The functions that make the table of the two files, one after the other. -/
def tableOf (H : Hash) (text : String) (pcs : List UInt64) (mapping : List Mapping) :
    Except Fault RaceTable := do
  let mempair ← (loadMempair (.ok text)).mapError Fault.error
  let cover ← initMapping H pcs (loadMapping mapping)
  initSparseRaceCandPairs mempair cover.locToBB

/-- Every access is taken for a write: the table has an entry for each two blocks with addresses of
the two locations of a pair. -/
def AllWrites (pcs : List UInt64) (mempair : List Mempair) (mapping : List Mapping)
    (table : RaceTable) : Prop :=
  ∀ m ∈ mempair, ∀ l0 l1, m.locs = [l0, l1] → ∀ b0 b1, AddrIn pcs mapping l0 b0 →
    AddrIn pcs mapping l1 b1 → ∃ e ∈ table b0, e.cover = b1 ∧ e.mempair = (l0, l1)

lemma mem_tableOf (htx : Untagged text) {table : RaceTable}
    (hld : loadMempair (.ok text) = .ok mempair) (htb : tableOf H text pcs mapping = .ok table)
    {b : UInt32} {e : EntryTy} :
    e ∈ table b ↔ ∃ m ∈ mempair, ∃ l l', (m.locs = [l, l'] ∨ m.locs = [l', l]) ∧
      WrittenIn pcs mapping l b ∧ WrittenIn pcs mapping l' e.cover ∧ e.mempair = (l, l') ∧
        e.hash = hashAt [l, l'] := by
  have hwr : ∀ m ∈ mempair, ∃ l0 l1, m = ⟨[l0, l1], ["W", "W"]⟩ :=
    fun m hm => writes_of_untagged htx hld hm
  rw [tableOf, hld, loadMapping_eq] at htb
  obtain ⟨cover, hcv, htb⟩ : ∃ cover, initMapping H pcs mapping = .ok cover ∧
      initSparseRaceCandPairs mempair cover.locToBB = .ok table := by
    cases hc : initMapping H pcs mapping with
    | error e =>
      rw [hc] at htb
      cases htb
    | ok cover =>
      rw [hc] at htb
      exact ⟨cover, rfl, htb⟩
  have htab : addAll (fun _ => []) (mempair.flatMap (pairEntries cover.locToBB)) = table := by
    rw [initSparseRaceCandPairs_eq fun m hm => ?_] at htb
    · exact ok.inj htb
    · obtain ⟨l, l', rfl⟩ := hwr m hm
      exact ⟨_, _, rfl⟩
  have hjn : ∀ m ∈ mempair, ∀ k k', Joins m k k' ↔
      (m.locs = [k.sourceLoc, k'.sourceLoc] ∨ m.locs = [k'.sourceLoc, k.sourceLoc]) ∧
        k.tag = "W" ∧ k'.tag = "W" := by
    rintro m hm ⟨l, t⟩ ⟨l', t'⟩
    obtain ⟨l0, l1, rfl⟩ := hwr m hm
    simp only [Joins, ends, some.injEq, Prod.mk.injEq, LocTy.mk.injEq, cons.injEq, and_true]
    constructor
    · rintro (⟨⟨rfl, rfl⟩, rfl, rfl⟩ | ⟨⟨rfl, rfl⟩, rfl, rfl⟩)
      · exact ⟨.inl ⟨rfl, rfl⟩, rfl, rfl⟩
      · exact ⟨.inr ⟨rfl, rfl⟩, rfl, rfl⟩
    · rintro ⟨⟨rfl, rfl⟩ | ⟨rfl, rfl⟩, rfl, rfl⟩
      · exact .inl ⟨⟨rfl, rfl⟩, rfl, rfl⟩
      · exact .inr ⟨⟨rfl, rfl⟩, rfl, rfl⟩
  rw [← htab, mem_table]
  refine exists_congr fun m => and_congr_right fun hm => ?_
  constructor
  · rintro ⟨⟨l, t⟩, ⟨l', t'⟩, hj, hb, hcov, hmp, hhs⟩
    obtain ⟨hlc, rfl, rfl⟩ := (hjn m hm _ _).1 hj
    exact ⟨l, l', hlc, (mem_locToBB_iff hcv).1 hb, (mem_locToBB_iff hcv).1 hcov, hmp, hhs⟩
  · rintro ⟨l, l', hlc, hb, hcov, hmp, hhs⟩
    exact ⟨⟨l, "W"⟩, ⟨l', "W"⟩, (hjn m hm _ _).2 ⟨hlc, rfl, rfl⟩,
      (mem_locToBB_iff hcv).2 hb, (mem_locToBB_iff hcv).2 hcov, hmp, hhs⟩

/-- **Pair files without tags.** Every access is taken for a write, if and only if the mapping has
a written address of the location in each block that has an address of it, for the pairs both of
whose locations have addresses. An entry of the mapping without a tag has no written addresses. -/
theorem allWrites_iff {text : String} (htext : Untagged text) {pcs : List UInt64}
    {mapping : List Mapping} {mempair : List Mempair} {table : RaceTable}
    (hload : loadMempair (.ok text) = .ok mempair)
    (htable : tableOf H text pcs mapping = .ok table) :
    AllWrites pcs mempair mapping table ↔
      ∀ m ∈ mempair, ∀ l0 l1, m.locs = [l0, l1] → ∀ b0 b1, AddrIn pcs mapping l0 b0 →
        AddrIn pcs mapping l1 b1 → WrittenIn pcs mapping l0 b0 ∧ WrittenIn pcs mapping l1 b1 := by
  constructor
  · intro hall m hm l0 l1 hlc b0 b1 h0 h1
    obtain ⟨e, he, rfl, hmp⟩ := hall m hm l0 l1 hlc b0 b1 h0 h1
    obtain ⟨-, -, l, l', -, hb, hcov, hmp', -⟩ := (mem_tableOf htext hload htable).1 he
    obtain ⟨rfl, rfl⟩ : l0 = l ∧ l1 = l' := Prod.mk.inj (hmp.symm.trans hmp')
    exact ⟨hb, hcov⟩
  · intro hall m hm l0 l1 hlc b0 b1 h0 h1
    obtain ⟨hw0, hw1⟩ := hall m hm l0 l1 hlc b0 b1 h0 h1
    refine ⟨⟨b1, hashAt [l0, l1], (l0, l1)⟩, ?_, rfl, rfl⟩
    exact (mem_tableOf htext hload htable).2 ⟨m, hm, l0, l1, .inl hlc, hw0, hw1, rfl, rfl⟩

/-! A file with one pair. -/

lemma untagged_onePair : Untagged "a b\n" := by
  intro line hli
  have hln : Lines.scanLines [] "a b\n".toList = [['a', ' ', 'b']] := by decide +kernel
  rw [hln, mem_singleton] at hli
  subst hli
  exact .inr ⟨"a", "b", by decide +kernel, by decide, by decide⟩

lemma loadMempair_onePair : loadMempair (.ok "a b\n") = .ok [⟨["a", "b"], ["W", "W"]⟩] := by
  decide +kernel

lemma exists_tableOf (tag tag' : String)
    (h : (tableOf plainHash "a b\n" twoPCs (twoLocs tag tag')).toBool) :
    ∃ table, tableOf plainHash "a b\n" twoPCs (twoLocs tag tag') = .ok table := by
  cases ht : tableOf plainHash "a b\n" twoPCs (twoLocs tag tag') with
  | error e =>
    rw [ht] at h
    cases h
  | ok table => exact ⟨table, rfl⟩

/-- With tags in the mapping, the two writes race. -/
theorem allWrites_iff_tagged_mapping :
    ∃ table, tableOf plainHash "a b\n" twoPCs (twoLocs "W" "W") = .ok table ∧
      AllWrites twoPCs [⟨["a", "b"], ["W", "W"]⟩] (twoLocs "W" "W") table := by
  obtain ⟨table, htb⟩ := exists_tableOf "W" "W" (by decide +kernel)
  refine ⟨table, htb, (allWrites_iff untagged_onePair loadMempair_onePair htb).2 ?_⟩
  have hwr : ∀ loc bb, AddrIn twoPCs (twoLocs "W" "W") loc bb →
      WrittenIn twoPCs (twoLocs "W" "W") loc bb := by
    rintro loc bb ⟨m, hm, hloc, him⟩
    refine ⟨m, hm, hloc, ?_, him⟩
    simp only [twoLocs, mem_cons, not_mem_nil, or_false] at hm
    rcases hm with rfl | rfl <;> decide +kernel
  exact fun m _ l0 l1 _ b0 b1 h0 h1 => ⟨hwr l0 b0 h0, hwr l1 b1 h1⟩

lemma not_writtenIn (h : ∀ m ∈ mapping, m.tag = "") (loc : String) (bb : UInt32) :
    ¬ WrittenIn pcs mapping loc bb := by
  rintro ⟨m, hm, -, htag, -⟩
  rw [h m hm] at htag
  exact absurd htag (by decide +kernel)

/-- Without tags in both files, the table is empty. -/
theorem untagged_mapping_empty_table :
    ∃ table, tableOf plainHash "a b\n" twoPCs (twoLocs "" "") = .ok table ∧ (∀ b, table b = []) ∧
      ¬ AllWrites twoPCs [⟨["a", "b"], ["W", "W"]⟩] (twoLocs "" "") table := by
  obtain ⟨table, htb⟩ := exists_tableOf "" "" (by decide +kernel)
  have hno : ∀ m ∈ twoLocs "" "", m.tag = "" := by simp [twoLocs]
  have hem : ∀ b, table b = [] := by
    refine fun b => eq_nil_iff_forall_not_mem.2 fun e he => ?_
    obtain ⟨-, -, l, -, -, hb, -⟩ := (mem_tableOf untagged_onePair loadMempair_onePair htb).1 he
    exact not_writtenIn hno l b hb
  refine ⟨table, htb, hem, fun hall => ?_⟩
  obtain ⟨e, he, -⟩ := hall _ (mem_singleton_self _) "a" "b" rfl 0x81000005 0x81000155
    ⟨⟨"a", "", [0x81000100]⟩, by simp [twoLocs], rfl, 0x81000100, by simp, by decide +kernel⟩
    ⟨⟨"b", "", [0x81000200]⟩, by simp [twoLocs], rfl, 0x81000200, by simp, by decide +kernel⟩
  rw [hem] at he
  cases he

/-! ### Lines that are too short -/

def initMempair (mempair : List Mempair) : Except Fault (List (MempairHash × String)) :=
  mempair.mapM fun pair => do
    let hsh ← getMempairHashFromLocs pair.locs
    let text ← sortedConcate pair.locs
    return (hsh, text)

/-- From the two files of pairs to the table, with the blocks of the mapping. -/
def initRaceTable (mempairFile disabledFile : Except String String)
    (locToBB : Table LocTy UInt32) : Except Fault RaceTable := do
  let allMempair ← (loadMempair mempairFile).mapError Fault.error
  let disabledMempair ← (loadDisabled disabledFile).mapError Fault.error
  let mempair ← removeDisabledMempair allMempair disabledMempair
  let _ ← initMempair mempair
  initSparseRaceCandPairs mempair locToBB

lemma initMempair_ok (h : ∀ m ∈ mempair, 2 ≤ m.locs.length) :
    ∃ hashes, initMempair mempair = .ok hashes := by
  induction mempair with
  | nil => exact ⟨[], rfl⟩
  | cons m mempair ih =>
    obtain ⟨hm, hrs⟩ := forall_mem_cons.1 h
    obtain ⟨hashes, hhs⟩ := ih hrs
    have htx : sortedConcate m.locs = .ok (SuppFile.sortedConcate m.locs) := if_neg (by omega)
    refine ⟨(hashAt m.locs, SuppFile.sortedConcate m.locs) :: hashes, ?_⟩
    rw [initMempair, mapM_cons, getMempairHashFromLocs_of_le hm, htx]
    rw [initMempair] at hhs
    rw [hhs]
    rfl

lemma locs_of_mempairOfLine (h : mempairOfLine line = some m) :
    m.locs.length = 1 ∨ m.locs.length = 2 := by
  rw [mempairOfLine] at h
  split at h
  · cases h
  · obtain rfl := some.inj h
    have hlc : (upperTags (defaultTags (mempairOfTokens (tokens line)))).locs =
        (mempairOfTokens (tokens line)).locs := by
      simp only [upperTags, defaultTags]
      split_ifs <;> rfl
    have hpos : 0 < (tokens line).length := by
      simp [tokens, length_pos_iff]
    rw [hlc, mempairOfTokens]
    split_ifs <;> simp only [length_take] <;> omega

lemma locs_of_loadMempair (h : loadMempair file = .ok mempair) (hm : m ∈ mempair) :
    m.locs.length = 1 ∨ m.locs.length = 2 := by
  cases file with
  | error e => cases h
  | ok text =>
    simp only [loadMempair, Except.bind, scanFile] at h
    split at h
    · cases h
    · obtain rfl := ok.inj h
      obtain ⟨line, -, hln⟩ := mem_filterMap.1 hm
      exact locs_of_mempairOfLine hln

lemma locs_of_loadDisabled {dis : List Mempair} (h : loadDisabled file = .ok dis)
    (hd : d ∈ dis) : d.locs.length = 1 ∨ d.locs.length = 2 := by
  rw [loadDisabled] at h
  split at h
  · next mempair hld =>
    obtain rfl := ok.inj h
    exact locs_of_loadMempair hld hd
  · split_ifs at h
    obtain rfl := ok.inj h
    cases hd

lemma index_cases {α : Type*} (l : List α) (i : ℕ) :
    index l i = .error .outOfRange ∨ ∃ a, index l i = .ok a := by
  rw [index]
  cases l[i]? with
  | none => exact .inl rfl
  | some a => exact .inr ⟨a, rfl⟩

lemma addMempair_outOfRange {locToBB : Table LocTy UInt32} (hlc : m.locs.length = 2)
    (htg : m.tags.length < 2) (table : RaceTable) :
    addMempair locToBB m table = .error .outOfRange := by
  obtain ⟨l0, l1, hl⟩ := length_eq_two.1 hlc
  have h0 : index m.locs 0 = .ok l0 := by simp [index, hl]
  have h1 : index m.locs 1 = .ok l1 := by simp [index, hl]
  have htag : index m.tags 1 = .error .outOfRange := by
    simp [index, getElem?_eq_none (show m.tags.length ≤ 1 by omega)]
  have hpr : ∀ bb t, addPartners locToBB m 0 t bb = .error .outOfRange := by
    intro bb t
    rw [addPartners]
    simp only [Nat.sub_zero, h1, htag]
    rfl
  have hot : addEntries locToBB m 1 table = .error .outOfRange := by
    rw [addEntries, h1, htag]
    rfl
  -- the second tag is read for the first block, for the comparison or for the second location
  have hfr : addEntries locToBB m 0 table = .error .outOfRange ∨
      addEntries locToBB m 0 table = .ok table := by
    rw [addEntries, h0]
    rcases index_cases m.tags 0 with ht | ⟨t0, ht⟩
    · rw [ht]
      exact .inl rfl
    · rw [ht]
      show (locToBB ⟨l0, t0⟩).foldlM (addPartners locToBB m 0) table = _ ∨
        (locToBB ⟨l0, t0⟩).foldlM (addPartners locToBB m 0) table = _
      cases locToBB ⟨l0, t0⟩ with
      | nil => exact .inr rfl
      | cons bb bbs =>
        rw [foldlM_cons, hpr]
        exact .inl rfl
  have hsl : isSelfPair m = .error .outOfRange ∨ isSelfPair m = .ok false := by
    rw [isSelfPair, h0, h1]
    show (if l0 = l1 then sameTags m else .ok false) = _ ∨
      (if l0 = l1 then sameTags m else .ok false) = _
    split_ifs
    · left
      rcases index_cases m.tags 0 with ht | ⟨t0, ht⟩ <;> rw [sameTags, ht, htag] <;> rfl
    · exact .inr rfl
  rw [addMempair, if_neg (by simpa using hlc)]
  rcases hfr with hfr | hfr
  · rw [hfr]
    rfl
  · rw [hfr]
    rcases hsl with hsl | hsl
    · rw [hsl]
      rfl
    · rw [hsl]
      exact hot

lemma initSparseRaceCandPairs_outOfRange_iff {bbs : Table LocTy UInt32}
    (h : ∀ m ∈ mempair, m.locs.length = 2) :
    initSparseRaceCandPairs mempair bbs = .error .outOfRange ↔
      ∃ m ∈ mempair, ¬ 2 ≤ m.tags.length := by
  refine foldlM_error_iff (fun m hm htg table => ?_) (fun m hm htg table => ?_) _
  · obtain ⟨k, k', hen⟩ := ends_isSome (h m hm) htg
    exact ⟨_, addMempair_eq hen table⟩
  · exact addMempair_outOfRange (h m hm) (not_le.1 htg) table

lemma initRaceTable_of_loaded {mempairFile disabledFile : Except String String}
    {all dis : List Mempair} (hall : loadMempair mempairFile = .ok all)
    (hdis : loadDisabled disabledFile = .ok dis) (locToBB : Table LocTy UInt32) :
    initRaceTable mempairFile disabledFile locToBB ≠ .error .outOfRange ↔
      (∀ m ∈ all, m.locs.length = 2) ∧
        ∀ mempair, removeDisabledMempair all dis = .ok mempair →
          ∀ m ∈ mempair, 2 ≤ m.tags.length := by
  have hrun : initRaceTable mempairFile disabledFile locToBB =
      (removeDisabledMempair all dis).bind fun mempair =>
        (initMempair mempair).bind fun _ => initSparseRaceCandPairs mempair locToBB := by
    rw [initRaceTable, hall, hdis]
    rfl
  have hne : ∀ d ∈ dis, d.locs ≠ [] := by
    intro d hd heq
    rcases locs_of_loadDisabled hdis hd with h | h <;> simp [heq] at h
  obtain ⟨s, hs, -⟩ := foldlM_addDisabled hne
  have hrm : removeDisabledMempair all dis = enabled s all := by
    rw [removeDisabledMempair, hs]
    rfl
  rw [hrun, hrm]
  by_cases hlc : ∀ m ∈ all, m.locs.length = 2
  · rw [enabled_of_le fun m hm => (hlc m hm).ge]
    set kept := all.filter fun m => decide (Keeps s m)
    have hkp : ∀ m ∈ kept, m.locs.length = 2 :=
      fun m hm => hlc m (mem_of_mem_filter hm)
    obtain ⟨hashes, hhs⟩ := initMempair_ok fun m hm => (hkp m hm).ge
    show (initMempair kept).bind (fun _ => initSparseRaceCandPairs kept locToBB) ≠ _ ↔ _
    rw [hhs]
    show initSparseRaceCandPairs kept locToBB ≠ _ ↔ _
    rw [Ne, initSparseRaceCandPairs_outOfRange_iff hkp]
    push Not
    constructor
    · intro htg
      refine ⟨hlc, fun mempair heq => ?_⟩
      obtain rfl := ok.inj heq
      exact htg
    · exact fun h => h.2 kept rfl
  · have hsh : enabled s all = .error .outOfRange := by
      push Not at hlc
      obtain ⟨m, hm, hlen⟩ := hlc
      refine enabled_of_lt ⟨m, hm, ?_⟩
      rcases locs_of_loadMempair hall hm with h | h <;> omega
    rw [hsh]
    exact ⟨fun h => absurd rfl h, fun h => absurd h.1 hlc⟩

/-- **Texts that are safe.** No list of locations or tags is read behind its end, if and only if
every line of the pair file has two locations and every pair that is not disabled has two tags. -/
theorem initRaceTable_inRange_iff (mempairFile disabledFile : Except String String)
    (locToBB : Table LocTy UInt32) :
    initRaceTable mempairFile disabledFile locToBB ≠ .error .outOfRange ↔
      ∀ allMempair disabledMempair, loadMempair mempairFile = .ok allMempair →
        loadDisabled disabledFile = .ok disabledMempair →
          (∀ m ∈ allMempair, m.locs.length = 2) ∧
            ∀ mempair, removeDisabledMempair allMempair disabledMempair = .ok mempair →
              ∀ m ∈ mempair, 2 ≤ m.tags.length := by
  cases hall : loadMempair mempairFile with
  | error e =>
    -- the file is rejected
    rw [initRaceTable, hall]
    exact ⟨fun _ all disabled h => (by cases h), fun _ h => (by cases h)⟩
  | ok all =>
    cases hdis : loadDisabled disabledFile with
    | error e =>
      rw [initRaceTable, hall, hdis]
      exact ⟨fun _ all disabled _ h => (by cases h), fun _ h => (by cases h)⟩
    | ok disabled =>
      rw [initRaceTable_of_loaded hall hdis]
      constructor
      · rintro h all' disabled' hall' hdis'
        obtain rfl := ok.inj hall'
        obtain rfl := ok.inj hdis'
        exact h
      · exact fun h => h all disabled rfl rfl

/-- A line with one location, and a line with one tag. -/
theorem short_lines_out_of_range :
    initRaceTable (.ok "a.c:1:0\n") (.ok "") (fun _ => []) = .error .outOfRange ∧
      initRaceTable (.ok "a.c:1:0 b.c:2:0 R\n") (.ok "") (fun _ => []) = .error .outOfRange := by
  constructor <;> decide +kernel

end Razzer.StaticAnalysis
