import Razzer.ExecOutput

/-!
What the executor writes is what the fuzzer reads.

A record is written with its numbers at 0, which are filled in later; from the outside it is
written at once. The reader takes exactly one record from the front of what is left, so the
records come out as they went in. Comparisons do not: operands of less than 64 bits are extended
to 64 bits with their sign, but only the lower half of the extension is written.
-/

namespace Razzer.ExecOutput

open Regions List Nat
open UInt32 (ofNat)
open BitVec (ofInt)
open Option (bind_some)

/-! ### Comparisons -/

namespace Comparison

def width (c : Comparison) : ℕ :=
  let size := c.type &&& KCOV_CMP_SIZE_MASK
  if size = KCOV_CMP_SIZE1 then 8
  else if size = KCOV_CMP_SIZE2 then 16
  else if size = KCOV_CMP_SIZE4 then 32
  else 64

def signed (c : Comparison) (arg : UInt64) : ℤ := (arg.toBitVec.setWidth c.width).toInt

def extension (c : Comparison) (arg : UInt64) : UInt64 := ⟨BitVec.ofInt 64 (c.signed arg)⟩

def operand (c : Comparison) (arg : UInt64) : UInt64 :=
  if c.width = 64 then arg else (c.extension arg).toUInt32.toUInt64

def decoded (c : Comparison) : UInt32 × UInt64 × UInt64 :=
  (c.type.toUInt32, c.operand c.arg1, c.operand c.arg2)

lemma extend_eq (c : Comparison) (arg : UInt64) : c.extend arg = c.extension arg := by
  have hfl : signExtend 64 arg = arg := by
    rw [signExtend, BitVec.setWidth_eq, BitVec.signExtend_eq]
  show c.extend arg = signExtend c.width arg
  simp only [extend, width, apply_ite (signExtend · arg), hfl]

lemma type_cases {c : Comparison} (h : c.type ≤ 7) :
    ¬ c.type.toUInt32 > compConstMask ||| compSizeMask ∧
      (c.type.toUInt32 &&& compSizeMask = compSize8 ↔
        c.type &&& KCOV_CMP_SIZE_MASK = KCOV_CMP_SIZE8) ∧
      (c.width = 64 ↔ c.type &&& KCOV_CMP_SIZE_MASK = KCOV_CMP_SIZE8) ∧
      (c.width ≠ 64 → c.width ≤ 32) := by
  have hcs : c.type = 0 ∨ c.type = 1 ∨ c.type = 2 ∨ c.type = 3 ∨ c.type = 4 ∨ c.type = 5 ∨
      c.type = 6 ∨ c.type = 7 := by
    have hle : c.type.toNat ≤ 7 := h
    simp only [← UInt64.toNat_inj, UInt64.reduceToNat]
    omega
  unfold width
  rcases hcs with h | h | h | h | h | h | h | h
  all_goals
    rw [h]
    decide

end Comparison

lemma wide_halves (a : UInt64) : wide (a &&& 0xffffffff).toUInt32 (a >>> 32).toUInt32 = a := by
  have hlt := a.toNat_lt
  have hand := and_two_pow_sub_one_eq_mod (a.toNat % 2 ^ 32) 32
  unfold wide
  rw [← UInt64.toNat_inj]
  simp only [UInt64.toNat_add, UInt64.toNat_shiftLeft, shiftLeft_eq]
  simp at hand ⊢
  omega

variable {c : Comparison} {w : ℕ} {rest out : List UInt32}

lemma readComparison_append (hty : c.type ≤ 7) (ci j : ℕ) (rest : List UInt32) :
    readComparison ci j (c.words ++ rest) = .ok (c.decoded, rest) := by
  obtain ⟨hsm, hsz, hwd, -⟩ := Comparison.type_cases hty
  unfold Comparison.words Comparison.decoded Comparison.operand
  simp only [Comparison.extend_eq, hwd]
  by_cases h : c.type &&& KCOV_CMP_SIZE_MASK = KCOV_CMP_SIZE8
  · have hext : ∀ arg, c.extension arg = arg := by
      intro arg
      rw [Comparison.extension, Comparison.signed, hwd.2 h, BitVec.setWidth_eq, BitVec.ofInt_toInt]
    rw [if_neg (not_not.2 h), if_pos h, if_pos h]
    simp only [cons_append, nil_append, readComparison]
    rw [if_neg hsm, if_pos (hsz.2 h), hext, hext, wide_halves, wide_halves]
  · rw [if_pos h, if_neg h, if_neg h]
    simp only [cons_append, nil_append, readComparison]
    rw [if_neg hsm, if_neg (mt hsz.1 h)]

/-! ### Narrow operands -/

lemma toInt_bounds (hw : w ≤ 32) (x : BitVec w) : -2 ^ 31 ≤ x.toInt ∧ x.toInt < 2 ^ 31 := by
  have hpow : (2 : ℤ) ^ (w - 1) ≤ 2 ^ 31 := pow_le_pow_right₀ (by norm_num) (by omega)
  have hlo := BitVec.le_toInt x
  have hhi := BitVec.toInt_lt (x := x)
  constructor
  · linarith
  · linarith

/-- An extension that is the lower half of one, extended with zeros, has no sign. -/
lemma nonneg_of_lower_half (hw : w ≤ 32) (x y : BitVec w)
    (h : ((ofInt 64 y.toInt).setWidth 32).setWidth 64 = ofInt 64 x.toInt) : 0 ≤ x.toInt := by
  obtain ⟨hlo, hhi⟩ := toInt_bounds hw x
  rw [← BitVec.toNat_inj] at h
  simp only [BitVec.toNat_setWidth, BitVec.toNat_ofInt] at h
  omega

lemma lower_half_of_nonneg (hw : w ≤ 32) (x : BitVec w) (h : 0 ≤ x.toInt) :
    ((ofInt 64 x.toInt).setWidth 32).setWidth 64 = ofInt 64 x.toInt := by
  obtain ⟨-, hhi⟩ := toInt_bounds hw x
  rw [← BitVec.toNat_inj]
  simp only [BitVec.toNat_setWidth, BitVec.toNat_ofInt]
  omega

lemma lower_half_inj (hw : w ≤ 32) (x y : BitVec w) :
    ((ofInt 64 x.toInt).setWidth 32).setWidth 64 =
        ((ofInt 64 y.toInt).setWidth 32).setWidth 64 ↔
      ofInt 64 x.toInt = ofInt 64 y.toInt := by
  obtain ⟨hlo, hhi⟩ := toInt_bounds hw x
  obtain ⟨hlo', hhi'⟩ := toInt_bounds hw y
  rw [← BitVec.toNat_inj, ← BitVec.toNat_inj]
  simp only [BitVec.toNat_setWidth, BitVec.toNat_ofInt]
  omega

namespace Comparison

lemma operand_of_wide (h : c.width = 64) (arg : UInt64) : c.operand arg = c.extension arg := by
  rw [operand, if_pos h, extension, signed, h, BitVec.setWidth_eq, BitVec.ofInt_toInt]

lemma nonneg_of_operand (h : c.width ≤ 32) {arg arg' : UInt64}
    (heq : c.operand arg' = c.extension arg) : 0 ≤ c.signed arg := by
  rw [operand, if_neg (by omega), ← UInt64.toBitVec_inj] at heq
  exact nonneg_of_lower_half h _ _ heq

lemma operand_of_nonneg (h : c.width ≤ 32) {arg : UInt64} (hs : 0 ≤ c.signed arg) :
    c.operand arg = c.extension arg := by
  rw [operand, if_neg (by omega), ← UInt64.toBitVec_inj]
  exact lower_half_of_nonneg h _ hs

lemma operand_inj (h : c.width ≤ 32) (arg arg' : UInt64) :
    c.operand arg = c.operand arg' ↔ c.extension arg = c.extension arg' := by
  rw [operand, operand, if_neg (by omega), if_neg (by omega), ← UInt64.toBitVec_inj,
    ← UInt64.toBitVec_inj]
  exact lower_half_inj h _ _

end Comparison

lemma mem_addComparison {m : CompMap} {c : UInt32 × UInt64 × UInt64} {p : UInt64 × UInt64} :
    p ∈ addComparison m c ↔ p ∈ m ∨ c.2.1 ≠ c.2.2 ∧
      (p = (c.2.2, c.2.1) ∨ c.1 &&& compConstMask = 0 ∧ p = (c.2.1, c.2.2)) := by
  unfold addComparison
  split_ifs with heq hcn
  · simp [heq]
  · simp only [Finset.mem_insert]
    tauto
  · simp only [Finset.mem_insert]
    tauto

lemma addComparison_empty (c : UInt32 × UInt64 × UInt64) :
    addComparison ∅ c = ∅ ↔ c.2.1 = c.2.2 := by
  constructor
  · intro h
    by_contra hne
    have hmem : (c.2.2, c.2.1) ∈ addComparison ∅ c :=
      mem_addComparison.2 (Or.inr ⟨hne, Or.inl rfl⟩)
    rw [h] at hmem
    exact absurd hmem (Finset.notMem_empty _)
  · intro h
    rw [addComparison, if_pos h]

namespace Comparison

lemma operand_eq_iff (htype : c.type ≤ 7) :
    c.operand c.arg1 = c.operand c.arg2 ↔ c.extension c.arg1 = c.extension c.arg2 := by
  obtain ⟨-, -, -, hnr⟩ := type_cases htype
  by_cases hwd : c.width = 64
  · rw [operand_of_wide hwd, operand_of_wide hwd]
  · exact operand_inj (hnr hwd) _ _

/-- What the map is to get from a comparison: the extensions of its operands. -/
def extended (c : Comparison) : CompMap :=
  addComparison ∅ (c.type.toUInt32, c.extension c.arg1, c.extension c.arg2)

lemma decoded_eq_extended_iff (htype : c.type ≤ 7) :
    addComparison ∅ c.decoded = c.extended ↔ c.extension c.arg1 = c.extension c.arg2 ∨
      c.width = 64 ∨ 0 ≤ c.signed c.arg1 ∧ 0 ≤ c.signed c.arg2 := by
  obtain ⟨-, -, -, hnr⟩ := type_cases htype
  constructor
  · intro h
    by_contra! hno
    obtain ⟨hne, hwd, hsg⟩ := hno
    have hmem : (c.extension c.arg2, c.extension c.arg1) ∈ addComparison ∅ c.decoded := by
      rw [h]
      exact mem_addComparison.2 (.inr ⟨hne, .inl rfl⟩)
    -- whichever way round they are read, the operands are lower halves
    rcases (mem_addComparison.1 hmem).resolve_left (Finset.notMem_empty _) with
      ⟨-, hp | ⟨-, hp⟩⟩
    all_goals
      obtain ⟨h2, h1⟩ := Prod.mk.inj hp
      exact absurd (nonneg_of_operand (hnr hwd) h2.symm)
        (hsg (nonneg_of_operand (hnr hwd) h1.symm)).not_ge
  · rintro (heq | hwd | ⟨h1, h2⟩)
    · rw [(addComparison_empty _).2 ((operand_eq_iff htype).2 heq), extended,
        (addComparison_empty _).2 heq]
    · rw [decoded, operand_of_wide hwd, operand_of_wide hwd, extended]
    · by_cases hwd : c.width = 64
      · rw [decoded, operand_of_wide hwd, operand_of_wide hwd, extended]
      · rw [decoded, operand_of_nonneg (hnr hwd) h1, operand_of_nonneg (hnr hwd) h2, extended]

end Comparison

lemma compsOf_singleton (c : Comparison) : compsOf [c] = if c.ignore then [] else [c] := by
  cases h : c.ignore <;> simp [compsOf, h]

/-- **Operands in the comparison map.** What is read back of a traced comparison are the extensions
of its operands, with a comparison dropped for equal extensions only, if and only if the extensions
are equal, or the executor does not ignore the comparison and its operands have 64 bits or no
sign. -/
theorem operands_sign_extended_iff (c : Comparison) (htype : c.type ≤ 7) (callIndex j : ℕ)
    (rest : List UInt32) :
    ∃ m, readComparisons callIndex (compsOf [c]).length j
        ((compsOf [c]).flatMap Comparison.words ++ rest) ∅ = .ok (m, rest) ∧
      (m = ∅ ↔ c.ignore = true ∨ c.extension c.arg1 = c.extension c.arg2) ∧
      (m = c.extended ↔ c.extension c.arg1 = c.extension c.arg2 ∨
        c.ignore = false ∧ (c.width = 64 ∨ 0 ≤ c.signed c.arg1 ∧ 0 ≤ c.signed c.arg2)) := by
  rw [compsOf_singleton]
  cases hig : c.ignore with
  | true =>
    refine ⟨∅, rfl, by simp, ?_⟩
    rw [eq_comm, Comparison.extended, addComparison_empty]
    simp
  | false =>
    refine ⟨addComparison ∅ c.decoded, ?_, ?_, ?_⟩
    · simp [readComparisons, readComparison_append htype]
    · rw [addComparison_empty]
      simp [Comparison.decoded, Comparison.operand_eq_iff htype]
    · rw [Comparison.decoded_eq_extended_iff htype]
      simp

/-- The comparison of two bytes without sign. -/
theorem operands_of_bytes :
    ∃ m, readComparisons 0 (compsOf [⟨0, 5, 7⟩]).length 0
        ((compsOf [⟨0, 5, 7⟩]).flatMap Comparison.words ++ []) ∅ = .ok (m, []) ∧
      m = Comparison.extended ⟨0, 5, 7⟩ := by
  obtain ⟨m, hm, -, hiff⟩ := operands_sign_extended_iff ⟨0, 5, 7⟩ (by decide) 0 0 []
  exact ⟨m, hm, hiff.2 (.inr (by decide))⟩

/-- **The sign of a byte is lost.** -2 is compared with 1, and the map has the 32-bit number. -/
theorem negative_byte_not_extended :
    (⟨0, 0xfe, 1⟩ : Comparison).signed 0xfe = -2 ∧
      (⟨0, 0xfe, 1⟩ : Comparison).extension 0xfe = 0xfffffffffffffffe ∧
      readComparison 0 0 (⟨0, 0xfe, 1⟩ : Comparison).words = .ok ((0, 0xfffffffe, 1), []) ∧
      addComparison ∅ (0, 0xfffffffe, 1) = {(1, 0xfffffffe), (0xfffffffe, 1)} := by
  decide +kernel

/-! ### Records -/

def signals : List UInt64 → UInt32 → Table → List UInt32 × Table
  | [], _, table => ([], table)
  | pc :: pcs, prev, table =>
    let sig := pc.toUInt32 ^^^ prev
    let d := dedup table sig
    let r := signals pcs (hash pc.toUInt32) d.2
    (if d.1 then r.1 else sig :: r.1, r.2)

structure Record where
  th : Thread
  signal : List UInt32
  cover : List UInt32
  comps : List Comparison

def Record.words (r : Record) : List UInt32 :=
  [r.th.callIndex, r.th.callNum, r.th.errno, if r.th.faultInjected then 1 else 0,
    UInt32.ofNat r.signal.length, UInt32.ofNat r.cover.length, UInt32.ofNat r.comps.length] ++
    (r.signal ++ (r.cover ++ r.comps.flatMap Comparison.words))

/-- The record of a call, and the table after it. -/
def recordOf (flags : Flags) (table : Table) (th : Thread) : Record × Table :=
  if flags.collectComps then (⟨th, [], [], compsOf th.comps⟩, table)
  else
    let s := signals th.cover 0 table
    (⟨th, s.1, if flags.collectCover then coverOf flags th.cover else [], []⟩, s.2)

/-- The records of the calls that complete before the colliding pass. -/
def recordsOf (flags : Flags) : List (Bool × Thread) → Table → List Record
  | [], _ => []
  | (collide, th) :: ths, table =>
    if collide || th.colliding then recordsOf flags ths table
    else (recordOf flags table th).1 :: recordsOf flags ths (recordOf flags table th).2

def completedThreads (ths : List (Bool × Thread)) : List Thread :=
  (ths.filter fun x => !(x.1 || x.2.colliding)).map Prod.snd

lemma completedThreads_cons (collide : Bool) (th : Thread) (ths : List (Bool × Thread)) :
    completedThreads ((collide, th) :: ths) =
      if collide || th.colliding then completedThreads ths else th :: completedThreads ths := by
  unfold completedThreads
  by_cases h : (collide || th.colliding)
  · rw [if_pos h, filter_cons_of_neg (by simp [h])]
  · rw [if_neg h, filter_cons_of_pos (by simp [h]), map_cons]

/-! ### Writing -/

variable {ths : List (Bool × Thread)} {th : Thread} {old : List UInt32} {r : Record}

section Writing

variable {flags : Flags} {o : Out} {size : ℕ} {table : Table} {ws vs : List UInt32} {v : UInt32}

/-- What has been written, the number of completed calls, and the table. -/
def Holds (size : ℕ) (completed : UInt32) (table : Table) (ws : List UInt32) (o : Out) : Prop :=
  o.region.Has size ws ∧ o.completed = completed ∧ o.table = table

variable {n m a b c d prev : UInt32}

lemma write_eq (h : Holds size n table ws o) (hrm : ws.length < size) (v : UInt32) :
    ∃ o', o.write v = some (ws.length, o') ∧ Holds size n table (ws ++ [v]) o' := by
  obtain ⟨r, hr, hhas⟩ := h.1.put hrm v
  exact ⟨{ o with region := r }, by rw [Out.write, hr]; rfl, hhas, h.2⟩

lemma writeAll_eq (h : Holds size n table ws o) (hrm : (ws ++ vs).length ≤ size) :
    ∃ o', o.writeAll vs = some o' ∧ Holds size n table (ws ++ vs) o' := by
  obtain ⟨r, hr, hhas⟩ := h.1.putAll hrm
  exact ⟨{ o with region := r }, by rw [Out.writeAll, hr]; rfl, hhas, h.2⟩

lemma Holds.fill {head data : List UInt32} (h : Holds size n table (ws ++ (head ++ data)) o)
    {k : ℕ} (hk : k < head.length) :
    Holds size n table (ws ++ (head.set k v ++ data)) (o.fill (ws.length + k) v) := by
  have hpl : ws.length + k < (ws ++ (head ++ data)).length := by
    simp only [length_append]
    omega
  have hfl := h.1.fill (v := v) hpl
  rw [set_append_right _ _ (by omega), Nat.add_sub_cancel_left, set_append_left _ _ hk] at hfl
  exact ⟨hfl, h.2⟩

lemma writeSignals_eq {pcs : List UInt64} (h : Holds size m table ws o)
    (hrm : (ws ++ (signals pcs prev table).1).length ≤ size) :
    ∃ o', writeSignals pcs prev n o = some (n + ofNat (signals pcs prev table).1.length, o') ∧
      Holds size m (signals pcs prev table).2 (ws ++ (signals pcs prev table).1) o' := by
  induction pcs generalizing prev n table o ws with
  | nil => exact ⟨o, by simp [writeSignals, signals], by rwa [signals, append_nil]⟩
  | cons pc pcs ih =>
    obtain ⟨hhas, hcm, rfl⟩ := h
    have h0 : Holds size m (dedup o.table (pc.toUInt32 ^^^ prev)).2 ws
        { o with table := (dedup o.table (pc.toUInt32 ^^^ prev)).2 } := ⟨hhas, hcm, rfl⟩
    rw [writeSignals]
    rw [signals] at hrm ⊢
    by_cases hdup : (dedup o.table (pc.toUInt32 ^^^ prev)).1
    · rw [if_pos hdup]
      simp only [if_pos hdup] at hrm ⊢
      exact ih h0 hrm
    · rw [if_neg hdup]
      simp only [if_neg hdup] at hrm ⊢
      rw [← singleton_append, ← append_assoc] at hrm ⊢
      have hlt : ws.length < size := by
        simp only [length_append, length_singleton] at hrm
        omega
      obtain ⟨o1, hw, h1⟩ := write_eq h0 hlt (pc.toUInt32 ^^^ prev)
      obtain ⟨o', hrs, h'⟩ := ih (n := n + 1) h1 hrm
      refine ⟨o', ?_, h'⟩
      rw [hw, bind_some, hrs, length_append, UInt32.ofNat_add, UInt32.add_assoc]
      rfl

lemma writeHead_eq (h : Holds size n table ws o) (hrm : ws.length + 7 ≤ size) (th : Thread) :
    ∃ o', o.writeHead th = some ((ws.length + 4, ws.length + 5, ws.length + 6), o') ∧
      Holds size n table (ws ++ [th.callIndex, th.callNum, th.errno,
        if th.faultInjected then 1 else 0, 0, 0, 0]) o' := by
  obtain ⟨o1, hw1, h1⟩ := write_eq h (by omega) th.callIndex
  obtain ⟨o2, hw2, h2⟩ := write_eq h1 (by simp; omega) th.callNum
  obtain ⟨o3, hw3, h3⟩ := write_eq h2 (by simp; omega) th.errno
  obtain ⟨o4, hw4, h4⟩ := write_eq h3 (by simp; omega) (if th.faultInjected then 1 else 0)
  obtain ⟨o5, hw5, h5⟩ := write_eq h4 (by simp; omega) 0
  obtain ⟨o6, hw6, h6⟩ := write_eq h5 (by simp; omega) 0
  obtain ⟨o7, hw7, h7⟩ := write_eq h6 (by simp; omega) 0
  simp only [append_assoc, cons_append, nil_append] at h7
  simp only [length_append, length_singleton, Nat.add_assoc, reduceAdd] at hw5 hw6 hw7
  refine ⟨o7, ?_, h7⟩
  simp only [Out.writeHead, Bind.bind, hw1, hw2, hw3, hw4, hw5, hw6, hw7, bind_some]
  rfl

lemma writeCoverageSignal_eq {cover : List UInt64} {sigs pcs : List UInt32}
    (hsg : sigs = (signals cover 0 table).1)
    (hpcs : pcs = if flags.collectCover then coverOf flags cover else [])
    (h : Holds size n table (ws ++ [a, b, c, d, 0, 0, 0]) o)
    (hrm : (ws ++ ([a, b, c, d, 0, 0, 0] ++ (sigs ++ pcs))).length ≤ size) :
    ∃ o', writeCoverageSignal flags cover (ws.length + 4) (ws.length + 5) o = some o' ∧
      Holds size n (signals cover 0 table).2
        (ws ++ ([a, b, c, d, ofNat sigs.length, ofNat pcs.length, 0] ++ (sigs ++ pcs))) o' := by
  have hrm1 : (ws ++ [a, b, c, d, 0, 0, 0] ++ sigs).length ≤ size := by
    simp only [length_append] at hrm ⊢
    omega
  rw [hsg] at hrm1
  obtain ⟨o1, hrun1, h1⟩ := writeSignals_eq (n := 0) h hrm1
  rw [← hsg, UInt32.zero_add] at hrun1
  rw [← hsg, append_assoc] at h1
  have hfl := h1.fill (v := ofNat sigs.length) (k := 4) (by simp)
  simp only [writeCoverageSignal, Bind.bind, hrun1, bind_some]
  by_cases hcv : flags.collectCover
  · rw [if_pos hcv] at hpcs
    rw [if_neg (by simp [hcv]), ← hpcs]
    have hrm2 : (ws ++ ([a, b, c, d, 0, 0, 0].set 4 (ofNat sigs.length) ++ sigs) ++
        pcs).length ≤ size := by
      simp only [length_append, length_set] at hrm ⊢
      omega
    obtain ⟨o2, hrun2, h2⟩ := writeAll_eq hfl hrm2
    rw [append_assoc, append_assoc] at h2
    rw [hrun2]
    exact ⟨_, rfl, h2.fill (k := 5) (by simp)⟩
  · rw [if_neg hcv] at hpcs
    rw [if_pos (by simp [hcv]), hpcs, append_nil]
    exact ⟨_, rfl, hfl⟩

lemma writeComparisons_eq {cs : List Comparison} (hcap : 8 + 32 * cs.length ≤ coverEnd flags)
    (h : Holds size n table (ws ++ [a, b, c, d, 0, 0, 0]) o)
    (hrm : (ws ++ ([a, b, c, d, 0, 0, 0] ++
      (compsOf cs).flatMap Comparison.words)).length ≤ size) :
    ∃ o', writeComparisons flags cs (ws.length + 6) o = some o' ∧
      Holds size n table (ws ++ ([a, b, c, d, 0, 0, ofNat (compsOf cs).length] ++
        (compsOf cs).flatMap Comparison.words)) o' := by
  rw [← append_assoc] at hrm
  obtain ⟨o1, hrun1, h1⟩ := writeAll_eq h hrm
  rw [append_assoc] at h1
  simp only [writeComparisons, if_neg (not_lt.2 hcap), Bind.bind, hrun1, bind_some]
  exact ⟨_, rfl, h1.fill (k := 6) (by simp)⟩

/-- The buffer of the kernel has room for the comparisons. -/
def CompsFit (flags : Flags) (th : Thread) : Prop :=
  flags.collectComps = true → 8 + 32 * th.comps.length ≤ coverEnd flags

/-- **A completion writes a record** and counts it. -/
lemma handleCompletion_eq (h : Holds size m table (n :: ws) o) (hth : th.colliding = false)
    (hcs : CompsFit flags th)
    (hrm : (n :: (ws ++ (recordOf flags table th).1.words)).length ≤ size) :
    ∃ o', handleCompletion flags o false th = some o' ∧
      Holds size (m + 1) (recordOf flags table th).2
        ((m + 1) :: (ws ++ (recordOf flags table th).1.words)) o' := by
  have hhd : (n :: ws).length + 7 ≤ size := by
    simp only [Record.words, length_cons, length_append, length_nil] at hrm ⊢
    omega
  obtain ⟨o1, hrun1, h1⟩ := writeHead_eq h hhd th
  have hdt : ∃ o2, o1.writeData flags th
      ((n :: ws).length + 4, (n :: ws).length + 5, (n :: ws).length + 6) = some o2 ∧
      Holds size m (recordOf flags table th).2
        (n :: (ws ++ (recordOf flags table th).1.words)) o2 := by
    unfold recordOf at hrm ⊢
    simp only [Out.writeData]
    by_cases hc : flags.collectComps
    · simp only [if_pos hc] at hrm ⊢
      exact writeComparisons_eq (hcs hc) h1 (by simpa [Record.words] using hrm)
    · simp only [if_neg hc, Record.words, flatMap_nil, append_nil] at hrm ⊢
      exact writeCoverageSignal_eq rfl rfl h1 (by simpa using hrm)
  obtain ⟨o2, hrun2, hhas, rfl, htb⟩ := hdt
  have hfl := hhas.fill (v := o2.completed + 1) (zero_lt_succ _)
  rw [set_cons_zero] at hfl
  refine ⟨Out.fill { o2 with completed := o2.completed + 1 } 0 (o2.completed + 1), ?_, hfl, rfl,
    htb⟩
  rw [handleCompletion, hth, if_neg (by simp)]
  simp only [Bind.bind, hrun1, hrun2, bind_some]
  rfl

/-- **The records are in the region**, and their number is. -/
lemma handleAll_eq (h : Holds size n table (n :: ws) o)
    (hcm : ∀ th ∈ completedThreads ths, CompsFit flags th)
    (hrm : (n :: (ws ++ (recordsOf flags ths table).flatMap Record.words)).length ≤ size) :
    ∃ o', handleAll flags ths o = some o' ∧
      o'.region.Has size ((n + ofNat (recordsOf flags ths table).length) ::
        (ws ++ (recordsOf flags ths table).flatMap Record.words)) := by
  induction ths generalizing n ws table o with
  | nil => exact ⟨o, rfl, by simpa [recordsOf] using h.1⟩
  | cons x ths ih =>
    obtain ⟨collide, th⟩ := x
    rw [completedThreads_cons] at hcm
    rw [recordsOf] at hrm ⊢
    rw [handleAll]
    by_cases hcl : (collide || th.colliding)
    · rw [if_pos hcl] at hrm hcm ⊢
      rw [handleCompletion, if_pos hcl]
      exact ih h hcm hrm
    · obtain ⟨rfl, hcg⟩ : collide = false ∧ th.colliding = false := by
        simpa using hcl
      rw [if_neg hcl] at hcm
      obtain ⟨hcm1, hcm'⟩ := forall_mem_cons.1 hcm
      rw [if_neg hcl, flatMap_cons, ← append_assoc] at hrm ⊢
      have hrm1 : (n :: (ws ++ (recordOf flags table th).1.words)).length ≤ size := by
        simp only [length_cons, length_append] at hrm ⊢
        omega
      obtain ⟨o1, hrun1, h1⟩ := handleCompletion_eq h hcg hcm1 hrm1
      obtain ⟨o', hrun, h'⟩ := ih h1 hcm' hrm
      refine ⟨o', by rw [hrun1]; exact hrun, ?_⟩
      rwa [length_cons, Nat.add_comm, UInt32.ofNat_add, ← UInt32.add_assoc]

end Writing

lemma execute_eq {flags : Flags} {table : Table}
    (hcm : ∀ th ∈ completedThreads ths, CompsFit flags th)
    (hrm : 1 + ((recordsOf flags ths table).flatMap Record.words).length ≤ old.length) :
    ∃ o, execute flags table old ths = some o ∧
      o.region.Has old.length (ofNat (recordsOf flags ths table).length ::
        (recordsOf flags ths table).flatMap Record.words) := by
  have h0 : Holds old.length 0 table [] ⟨⟨old, 0⟩, 0, table⟩ := ⟨Region.has_nil old, rfl, rfl⟩
  obtain ⟨o1, hrun1, h1⟩ := write_eq h0 (by simp; omega) 0
  have hrm1 : ((0 : UInt32) :: ([] ++ (recordsOf flags ths table).flatMap Record.words)).length
      ≤ old.length := by
    rwa [nil_append, length_cons, Nat.add_comm]
  obtain ⟨o, hrun, h⟩ := handleAll_eq h1 hcm hrm1
  rw [UInt32.zero_add, nil_append] at h
  refine ⟨o, ?_, h⟩
  simp only [execute, Bind.bind, hrun1, bind_some]
  exact hrun

/-! ### Reading -/

def Record.info (r : Record) : CallInfo where
  signal := some r.signal
  cover := r.cover
  comps := r.comps.foldl (fun m c => addComparison m c.decoded) ∅
  errno := r.th.errno.toNat
  faultInjected := r.th.faultInjected

lemma readComparisons_append {cs : List Comparison} (hty : ∀ c ∈ cs, c.type ≤ 7)
    (ci j : ℕ) (rest : List UInt32) (m : CompMap) :
    readComparisons ci cs.length j (cs.flatMap Comparison.words ++ rest) m =
      .ok (cs.foldl (fun m c => addComparison m c.decoded) m, rest) := by
  induction cs generalizing j m with
  | nil => rfl
  | cons c cs ih =>
    obtain ⟨hc, hcm⟩ := forall_mem_cons.1 hty
    rw [length_cons, flatMap_cons, append_assoc, readComparisons, readComparison_append hc]
    exact ih hcm (j + 1) _

lemma cut_append (xs rest : List UInt32) : cut (xs ++ rest) xs.length = .ok (xs, rest) := by
  rw [cut, if_pos (by simp), take_left' rfl, drop_left' rfl]

variable {out' region xs : List UInt32}

lemma toNat_ofNat_length (h : (xs ++ rest).length < 2 ^ 32) :
    (ofNat xs.length).toNat = xs.length ∧ ¬ ofNat xs.length > len32 (xs ++ rest) := by
  have hlen : xs.length ≤ (xs ++ rest).length := by simp
  have hxs : (ofNat xs.length).toNat = xs.length :=
    UInt32.toNat_ofNat_of_lt (hlen.trans_lt h)
  have hall : (len32 (xs ++ rest)).toNat = (xs ++ rest).length := UInt32.toNat_ofNat_of_lt h
  refine ⟨hxs, ?_⟩
  rw [gt_iff_lt, UInt32.lt_iff_toNat_lt, hxs, hall]
  omega

def Record.Of (calls : List ℕ) (r : Record) : Prop :=
  ∃ num, calls[r.th.callIndex.toNat]? = some num ∧ UInt32.ofNat num = r.th.callNum

lemma length_le_flatMap {α : Type} {f : α → List UInt32} (hf : ∀ x, f x ≠ []) (l : List α) :
    l.length ≤ (l.flatMap f).length := by
  induction l with
  | nil => simp
  | cons x l ih =>
    have hpos := length_pos_of_ne_nil (hf x)
    rw [flatMap_cons, length_append, length_cons]
    omega

variable {info : List CallInfo} {cs : List ℕ}

/-- **A record is read back**, whatever follows it. -/
lemma readRecord_append
    (hif : info.length = cs.length) (hof : r.Of cs)
    (hnn : info[r.th.callIndex.toNat]? = some notExecuted) (hty : ∀ c ∈ r.comps, c.type ≤ 7)
    (hsz : (r.words ++ rest).length < 2 ^ 32) (ncmd i : ℕ) :
    readRecord cs ncmd i (r.words ++ rest) info =
      .ok (rest, info.set r.th.callIndex.toNat r.info) := by
  obtain ⟨num, hnum, hcl⟩ := hof
  have hidx : ¬ r.th.callIndex.toNat ≥ info.length := by
    have hlt := (List.getElem?_eq_some_iff.1 hnn).1
    omega
  have hsg : (r.signal ++ (r.cover ++ (r.comps.flatMap Comparison.words ++ rest))).length <
      2 ^ 32 := by
    simp only [Record.words, length_append] at hsz ⊢
    omega
  have hcv : (r.cover ++ (r.comps.flatMap Comparison.words ++ rest)).length < 2 ^ 32 := by
    simp only [length_append] at hsg ⊢
    omega
  have hcm : (ofNat r.comps.length).toNat = r.comps.length := by
    have hle := length_le_flatMap (f := Comparison.words) (by simp [Comparison.words]) r.comps
    have hlt : r.comps.length < 2 ^ 32 := by
      simp only [length_append] at hcv
      omega
    exact UInt32.toNat_ofNat_of_lt hlt
  obtain ⟨hsg1, hsg2⟩ := toNat_ofNat_length hsg
  obtain ⟨hcv1, hcv2⟩ := toNat_ofNat_length hcv
  have hfl : decide ((if r.th.faultInjected then (1 : UInt32) else 0) ≠ 0) =
      r.th.faultInjected := by
    cases r.th.faultInjected <;> rfl
  simp only [Record.words, cons_append, nil_append, append_assoc, readRecord]
  rw [if_neg hidx, index, hnum]
  simp only [Bind.bind, Except.bind]
  rw [if_neg (not_not.2 hcl), index, hnn]
  simp only
  rw [if_neg (by simp [notExecuted]), if_neg hsg2, hsg1, cut_append]
  simp only
  rw [if_neg hcv2, hcv1, cut_append]
  simp only
  rw [hcm, readComparisons_append hty]
  simp only [Record.info, hfl]

def Record.idx (r : Record) : ℕ := r.th.callIndex.toNat

/-- What is returned for the records: one entry for each of them, and for no other call. -/
def Reported (rs : List Record) (before after : List CallInfo) : Prop :=
  after.length = before.length ∧ (∀ r ∈ rs, after[r.idx]? = some r.info) ∧
    ∀ j, (∀ r ∈ rs, r.idx ≠ j) → after[j]? = before[j]?

/-- **All records are read back.** -/
lemma readRecords_append {rs : List Record}
    (hif : info.length = cs.length) (hof : ∀ r ∈ rs, r.Of cs)
    (hnd : (rs.map Record.idx).Nodup) (hnn : ∀ r ∈ rs, info[r.idx]? = some notExecuted)
    (hty : ∀ r ∈ rs, ∀ c ∈ r.comps, c.type ≤ 7)
    (hsz : (rs.flatMap Record.words ++ rest).length < 2 ^ 32) (ncmd i : ℕ) :
    ∃ after, readRecords cs ncmd rs.length i (rs.flatMap Record.words ++ rest) info = .ok after ∧
      Reported rs info after := by
  induction rs generalizing info i with
  | nil => exact ⟨info, rfl, rfl, by simp, by simp⟩
  | cons r rs ih =>
    obtain ⟨hof1, hof⟩ := forall_mem_cons.1 hof
    obtain ⟨hnn1, hnn⟩ := forall_mem_cons.1 hnn
    obtain ⟨hty1, hty⟩ := forall_mem_cons.1 hty
    rw [map_cons, nodup_cons] at hnd
    rw [flatMap_cons, append_assoc] at hsz
    have hidx : r.idx < info.length := (List.getElem?_eq_some_iff.1 hnn1).1
    have hne : ∀ r' ∈ rs, r.idx ≠ r'.idx := by
      intro r' hr' heq
      exact hnd.1 (heq ▸ mem_map_of_mem hr')
    have hrs : (rs.flatMap Record.words ++ rest).length < 2 ^ 32 := by
      rw [length_append] at hsz
      omega
    have hrd := readRecord_append hif hof1 hnn1 hty1 hsz ncmd i
    have hset : (info.set r.idx r.info).length = cs.length := by rw [length_set, hif]
    obtain ⟨after, haf, hlen, hin, hout⟩ := ih hset hof hnd.2
      (fun r' hr' => by rw [getElem?_set_ne (hne r' hr'), hnn r' hr']) hty hrs (i + 1)
    refine ⟨after, ?_, by rw [hlen, length_set], ?_, ?_⟩
    · rw [length_cons, flatMap_cons, append_assoc, readRecords, hrd]
      exact haf
    · intro r' hr'
      rcases mem_cons.1 hr' with rfl | hr'
      · rw [hout r'.idx fun r hr => (hne r hr).symm]
        exact getElem?_set_self hidx
      · exact hin r' hr'
    · intro j hj
      obtain ⟨hj1, hj⟩ := forall_mem_cons.1 hj
      rw [hout j hj, getElem?_set_ne hj1]

/-! ### Any region -/

/-- What is reported for a call is in the region. -/
def Within (region : List UInt32) (ci : CallInfo) : Prop :=
  (∀ signal, ci.signal = some signal → signal <:+: region) ∧ ci.cover <:+: region ∧
    -1 ≤ ci.errno ∧ ci.errno < 2 ^ 32

/-- Reading has not run out of the region, and what is reported is in it. -/
def Fine (calls : List ℕ) (region : List UInt32) :
    Except Stop (List UInt32 × List CallInfo) → Prop
  | .error .panic => False
  | .error (.returned info _) => ∀ ci ∈ info, Within region ci
  | .ok (out, info) =>
    out <:+ region ∧ info.length = calls.length ∧ ∀ ci ∈ info, Within region ci

lemma forall_mem_set {α : Type} {p : α → Prop} {l : List α} {x : α} (h : ∀ y ∈ l, p y) (hx : p x)
    (k : ℕ) : ∀ y ∈ l.set k x, p y := by
  intro y hy
  rcases mem_or_eq_of_mem_set hy with hy | rfl
  · exact h y hy
  · exact hx

lemma suffix_of_readComparison {ci j : ℕ} {c : UInt32 × UInt64 × UInt64}
    (h : readComparison ci j out = .ok (c, out')) : out' <:+ out := by
  unfold readComparison at h
  split at h
  · cases h
  · split_ifs at h
    · split at h
      · cases h
        exact ⟨[_, _, _, _, _], rfl⟩
      · cases h
      · cases h
    · split at h
      · cases h
        exact ⟨[_, _, _], rfl⟩
      · cases h
      · cases h

lemma suffix_of_readComparisons {ci n j : ℕ} {m m' : CompMap}
    (h : readComparisons ci n j out m = .ok (m', out')) : out' <:+ out := by
  induction n generalizing j out m with
  | zero =>
    cases h
    exact suffix_rfl
  | succ n ih =>
    rw [readComparisons] at h
    split at h
    · cases h
    case h_2 hrd => exact (ih h).trans (suffix_of_readComparison hrd)

lemma le_of_not_gt_len32 {n : UInt32} (h : ¬ n > len32 out) : n.toNat ≤ out.length := by
  rw [gt_iff_lt, UInt32.lt_iff_toNat_lt, not_lt] at h
  have hmod : (len32 out).toNat = out.length % 2 ^ 32 := UInt32.toNat_ofNat
  have hle := mod_le out.length (2 ^ 32)
  omega

lemma fine_readRecord
    (hout : out <:+ region) (hif : info.length = cs.length)
    (hwt : ∀ ci ∈ info, Within region ci) (ncmd i : ℕ) :
    Fine cs region (readRecord cs ncmd i out info) := by
  unfold readRecord
  split
  case h_2 => exact hwt
  case h_1 callIndex callNum errno faultInjected signalSize coverSize compsSize rest =>
    have hrs : rest <:+ region :=
      (suffix_append [callIndex, callNum, errno, faultInjected, signalSize, coverSize,
        compsSize] rest).trans hout
    simp only
    by_cases hidx : callIndex.toNat ≥ info.length
    · rw [if_pos hidx]
      exact hwt
    rw [if_neg hidx]
    rw [ge_iff_le, not_le] at hidx
    have hnum : cs[callIndex.toNat]? = some cs[callIndex.toNat] :=
      getElem?_eq_getElem (hif ▸ hidx)
    have hci : info[callIndex.toNat]? = some info[callIndex.toNat] := getElem?_eq_getElem hidx
    rw [index, hnum]
    simp only [Bind.bind, Except.bind]
    by_cases hcl : ofNat cs[callIndex.toNat] ≠ callNum
    · rw [if_pos hcl]
      exact hwt
    rw [if_neg hcl, index, hci]
    simp only
    have hold := hwt _ (getElem_mem hidx)
    have her : (-1 : ℤ) ≤ errno.toNat ∧ (errno.toNat : ℤ) < 2 ^ 32 := by
      have hlt := errno.toNat_lt
      omega
    by_cases hnil : info[callIndex.toNat].signal ≠ none
    · rw [if_pos hnil]
      exact hwt
    rw [if_neg hnil]
    by_cases hsg : signalSize > len32 rest
    · rw [if_pos hsg]
      refine forall_mem_set hwt ?_ _
      exact ⟨hold.1, hold.2.1, her⟩
    rw [if_neg hsg, cut, if_pos (le_of_not_gt_len32 hsg)]
    have hdr : rest.drop signalSize.toNat <:+ region := (drop_suffix _ _).trans hrs
    have hsig : ∀ signal, some (rest.take signalSize.toNat) = some signal → signal <:+: region := by
      rintro signal ⟨⟩
      exact take_prefix _ _ |>.isInfix.trans hrs.isInfix
    simp only
    by_cases hcv : coverSize > len32 (rest.drop signalSize.toNat)
    · rw [if_pos hcv]
      refine forall_mem_set hwt ?_ _
      exact ⟨hsig, hold.2.1, her⟩
    rw [if_neg hcv, cut, if_pos (le_of_not_gt_len32 hcv)]
    have hcov : (rest.drop signalSize.toNat).take coverSize.toNat <:+: region :=
      take_prefix _ _ |>.isInfix.trans hdr.isInfix
    simp only
    split
    · refine forall_mem_set hwt ?_ _
      exact ⟨hsig, hcov, her⟩
    case h_2 comps out' hcm =>
      refine ⟨?_, by rw [length_set, hif], forall_mem_set hwt ?_ _⟩
      · exact (suffix_of_readComparisons hcm).trans ((drop_suffix _ _).trans hdr)
      · exact ⟨hsig, hcov, her⟩

/-- Reading ends with an error or with what the region has in it. -/
def Safe (calls : List ℕ) (region : List UInt32) : Except Stop (List CallInfo) → Prop
  | .error .panic => False
  | .error (.returned info _) => ∀ ci ∈ info, Within region ci
  | .ok info => info.length = calls.length ∧ ∀ ci ∈ info, Within region ci

lemma safe_readRecords (hout : out <:+ region)
    (hif : info.length = cs.length) (hwt : ∀ ci ∈ info, Within region ci) (ncmd n i : ℕ) :
    Safe cs region (readRecords cs ncmd n i out info) := by
  induction n generalizing i out info with
  | zero => exact ⟨hif, hwt⟩
  | succ n ih =>
    have hfn := fine_readRecord hout hif hwt ncmd i
    rw [readRecords]
    cases hrd : readRecord cs ncmd i out info with
    | error stop =>
      rw [hrd] at hfn
      cases stop with
      | panic | returned info err => exact hfn
    | ok r =>
      rw [hrd] at hfn
      exact ih hfn.1 hfn.2.1 hfn.2.2 (i + 1)

lemma safe_readOutCoverage (cs : List ℕ) (region : List UInt32) :
    Safe cs region (readOutCoverage cs region) := by
  unfold readOutCoverage
  cases region with
  | nil => exact fun ci hci => by cases hci
  | cons ncmd out =>
    refine safe_readRecords (suffix_cons ncmd out) length_replicate ?_ _ _ 0
    intro ci hci
    rw [eq_of_mem_replicate hci]
    exact ⟨by simp [notExecuted], nil_infix, by decide, by decide⟩

/-! ### The whole way -/

lemma map_th_recordsOf (flags : Flags) (ths : List (Bool × Thread)) (tab : Table) :
    (recordsOf flags ths tab).map Record.th = completedThreads ths := by
  induction ths generalizing tab with
  | nil => rfl
  | cons x ths ih =>
    obtain ⟨collide, th⟩ := x
    rw [recordsOf, completedThreads_cons]
    by_cases h : (collide || th.colliding)
    · rw [if_pos h, if_pos h, ih]
    · have hth : (recordOf flags tab th).1.th = th := by
        unfold recordOf
        split_ifs <;> rfl
      rw [if_neg h, if_neg h, map_cons, ih, hth]

lemma mem_of_mem_compsOf {comps : List Comparison} (h : c ∈ compsOf comps) : c ∈ comps :=
  mem_mergeSort.1 ((destutter_sublist _ _).mem (mem_of_mem_filter h))

lemma comps_of_mem_recordsOf {flags : Flags} {tab : Table} (hr : r ∈ recordsOf flags ths tab)
    (hc : c ∈ r.comps) : flags.collectComps ∧ c ∈ r.th.comps := by
  induction ths generalizing tab with
  | nil => cases hr
  | cons x ths ih =>
    obtain ⟨collide, th⟩ := x
    rw [recordsOf] at hr
    split_ifs at hr with h
    · exact ih hr
    · rcases mem_cons.1 hr with rfl | hr
      · unfold recordOf at hc ⊢
        by_cases hcm : flags.collectComps
        · rw [if_pos hcm] at hc ⊢
          exact ⟨hcm, mem_of_mem_compsOf hc⟩
        · rw [if_neg hcm] at hc
          cases hc
      · exact ih hr

/-- **What the executor writes is read back.** There is one entry for every call that completed,
with its errno, fault flag, signal and cover, and the other calls are not executed. Whatever else
is in the region, reading it ends with an error or with entries that are in the region. -/
theorem output_read_back :
    (∀ (flags : Flags) (table : Table) (calls : List ℕ) (ths : List (Bool × Thread))
      (old : List UInt32), old.length = kMaxOutput / 4 →
      (∀ th ∈ completedThreads ths, ∃ num, calls[th.callIndex.toNat]? = some num ∧
        UInt32.ofNat num = th.callNum) →
      ((completedThreads ths).map fun th => th.callIndex.toNat).Nodup →
      (∀ th ∈ completedThreads ths, CompsFit flags th) →
      (flags.collectComps = true → ∀ th ∈ completedThreads ths, ∀ c ∈ th.comps, c.type ≤ 7) →
      1 + ((recordsOf flags ths table).flatMap Record.words).length ≤ old.length →
      ∃ o info, execute flags table old ths = some o ∧
        readOutCoverage calls o.region.cells = .ok info ∧ info.length = calls.length ∧
        (recordsOf flags ths table).map Record.th = completedThreads ths ∧
        (∀ r ∈ recordsOf flags ths table, info[r.th.callIndex.toNat]? = some r.info) ∧
        ∀ j < calls.length, (∀ th ∈ completedThreads ths, th.callIndex.toNat ≠ j) →
          info[j]? = some notExecuted) ∧
    ∀ (calls : List ℕ) (region : List UInt32),
      Safe calls region (readOutCoverage calls region) := by
  refine ⟨?_, safe_readOutCoverage⟩
  intro flags table calls ths old hold hcs hon hcm hty hrm
  set rs := recordsOf flags ths table with hrs
  have hths : rs.map Record.th = completedThreads ths := map_th_recordsOf flags ths table
  have hmem : ∀ r ∈ rs, r.th ∈ completedThreads ths := by
    intro r hr
    rw [← hths]
    exact mem_map_of_mem hr
  obtain ⟨o, hrun, rest, hcl, -, hsz⟩ := execute_eq hcm hrm
  rw [← hrs] at hcl
  have hidx : (rs.map Record.idx).Nodup := by
    rw [← hths, map_map] at hon
    exact hon
  have hnn : ∀ r ∈ rs, (replicate calls.length notExecuted)[r.idx]? = some notExecuted := by
    intro r hr
    obtain ⟨num, hnum, -⟩ := hcs r.th (hmem r hr)
    exact getElem?_replicate_of_lt (List.getElem?_eq_some_iff.1 hnum).1
  have hty' : ∀ r ∈ rs, ∀ c ∈ r.comps, c.type ≤ 7 := by
    intro r hr c hc
    obtain ⟨hct, hc⟩ := comps_of_mem_recordsOf hr hc
    exact hty hct r.th (hmem r hr) c hc
  have hwr : kMaxOutput / 4 < 2 ^ 32 := by decide
  have hlen : (rs.flatMap Record.words ++ rest).length < 2 ^ 32 := by
    rw [hcl] at hsz
    simp only [cons_append, length_cons] at hsz
    omega
  have hcn : (UInt32.ofNat rs.length).toNat = rs.length := by
    have hle := length_le_flatMap (f := Record.words) (by simp [Record.words]) rs
    have hlt : rs.length < 2 ^ 32 := by
      rw [length_append] at hlen
      omega
    exact UInt32.toNat_ofNat_of_lt hlt
  obtain ⟨info, hrd, hif, hin, hout⟩ := readRecords_append length_replicate
    (fun r hr => hcs r.th (hmem r hr)) hidx hnn hty' hlen rs.length 0
  refine ⟨o, info, hrun, ?_, ?_, hths, hin, ?_⟩
  · rw [hcl, cons_append, readOutCoverage, hcn]
    exact hrd
  · rw [hif, length_replicate]
  · intro j hj hnot
    rw [hout j fun r hr => hnot r.th (hmem r hr)]
    exact getElem?_replicate_of_lt hj

def failedCall : Thread where
  colliding := false
  callIndex := 0
  callNum := 7
  res := -1
  reserrno := 22
  faultInjected := false
  cover := [0x81000000, 0x81000010]
  comps := []

def openedCall : Thread :=
  { failedCall with callIndex := 2, callNum := 9, res := 3, cover := [0x81000020] }

/-- The last of three calls completes first, and the second one does not. -/
theorem output_read_back_two_calls :
    ∃ o info, execute ⟨true, false, false, true⟩ (fun _ => 0)
        (replicate (kMaxOutput / 4) 0) [(false, openedCall), (false, failedCall)] = some o ∧
      readOutCoverage [7, 8, 9] o.region.cells = .ok info ∧ info.length = 3 ∧
      info[0]?.map CallInfo.errno = some 22 ∧ info[1]? = some notExecuted ∧
      info[2]?.map CallInfo.cover = some [0x81000020] := by
  have hths : completedThreads [(false, openedCall), (false, failedCall)] =
    [openedCall, failedCall] := rfl
  obtain ⟨o, info, hrun, hrd, hlen, -, hin, hout⟩ := output_read_back.1
    ⟨true, false, false, true⟩ (fun _ => 0) [7, 8, 9] [(false, openedCall), (false, failedCall)]
    (replicate (kMaxOutput / 4) 0) length_replicate
    (by
      rw [hths, forall_mem_cons, forall_mem_singleton]
      exact ⟨⟨9, rfl, rfl⟩, 7, rfl, rfl⟩)
    (by decide) (by simp [CompsFit]) (by simp)
    (by rw [length_replicate]; decide +kernel)
  refine ⟨o, info, hrun, hrd, hlen, ?_, ?_, ?_⟩
  · exact congrArg (Option.map CallInfo.errno) (hin _ (mem_cons_of_mem _ mem_cons_self))
  · refine hout 1 (by decide) ?_
    rw [hths, forall_mem_cons, forall_mem_singleton]
    decide
  · exact congrArg (Option.map CallInfo.cover) (hin _ mem_cons_self)

end Razzer.ExecOutput
