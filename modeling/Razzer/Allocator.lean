import Razzer.Runs

/-!
The allocator of program memory, of `alloc.go`.

A bit of a two-level bitmap stands for 64 bytes. `noteAlloc` rounds a range outwards and sets its
bits, `alloc` takes the first run of clear bits, and when there is none it clears the bitmap and
starts again. No operation on `uint64` wraps around for the arguments the results are about.
-/

namespace Razzer.Allocator

open Runs Function List

def memAllocGranule : ℕ := 64
def memAllocMaxMem : ℕ := 16 <<< 20
def memAllocL0Size : ℕ := 64
def bitsPerUint64 : ℕ := 8 * 8
def memAllocL0Mem : ℕ := memAllocL0Size * memAllocGranule * bitsPerUint64
def memAllocL1Size : ℕ := memAllocMaxMem / memAllocL0Mem

/-- The last two fields only record: the ranges noted since the last bankruptcy, and how many
bankruptcies there were. -/
structure MemAlloc where
  size : ℕ
  mem : ℕ → Option (ℕ → ℕ)
  ranges : List (ℕ × ℕ)
  resets : ℕ

/-- `none` stands for a panic. -/
def newMemAlloc (totalMemSize : ℕ) : Option MemAlloc :=
  if totalMemSize > memAllocMaxMem then none
  else if totalMemSize % memAllocL0Mem ≠ 0 then none
  else some ⟨totalMemSize / memAllocGranule, update (fun _ => none) 0 (some fun _ => 0), [], 0⟩

def pos (idx : ℕ) : ℕ × ℕ × ℕ :=
  let r1 := idx % (memAllocL0Size * bitsPerUint64)
  (idx / (memAllocL0Size * bitsPerUint64), r1 / bitsPerUint64, 1 <<< (r1 % bitsPerUint64))

namespace MemAlloc

variable (ma : MemAlloc)

def set (idx : ℕ) : Option MemAlloc :=
  let (i1, i0, bit) := pos idx
  if i1 < memAllocL1Size then
    let l0 := (ma.mem i1).getD fun _ => 0
    some { ma with mem := update ma.mem i1 (some (update l0 i0 (l0 i0 ||| bit))) }
  else none

def get (idx : ℕ) : Option Bool :=
  let (i1, i0, bit) := pos idx
  if i1 < memAllocL1Size then
    match ma.mem i1 with
    | none => some false
    | some l0 => some (l0 i0 &&& bit != 0)
  else none

def bankruptcy : MemAlloc :=
  { ma with
    mem := fun i1 =>
      if i1 < ma.size / (memAllocL0Size * bitsPerUint64) then (ma.mem i1).map fun _ _ => 0
      else ma.mem i1
    ranges := []
    resets := ma.resets + 1 }

def noteAlloc (addr0 size0 : ℕ) : Option MemAlloc :=
  let addr := addr0 / memAllocGranule
  let size := (addr0 + size0 + memAllocGranule - 1) / memAllocGranule - addr
  (range size).foldlM (fun ma i => ma.set (addr + i))
    { ma with ranges := (addr0, size0) :: ma.ranges }

def empty (size start : ℕ) : Option Bool :=
  (range size).allM fun i => (ma.get (start + i)).map (!·)

end MemAlloc

open MemAlloc

/-- The first argument bounds the depth of the recursion. -/
def alloc : ℕ → MemAlloc → ℕ → Option (ℕ × MemAlloc)
  | 0, _, _ => none
  | fuel + 1, ma, size0 => do
    let size0 := if size0 = 0 then 1 else size0
    let size := (size0 + memAllocGranule - 1) / memAllocGranule
    match ← (range (ma.size - size)).findM? (ma.empty size) with
    | some start =>
      let start0 := start * memAllocGranule
      let ma ← ma.noteAlloc start0 size0
      return (start0, ma)
    | none => alloc fuel ma.bankruptcy size0

inductive Op
  | noteAlloc (addr0 size0 : ℕ)
  | alloc (size0 : ℕ)

def step (fuel : ℕ) (ma : MemAlloc) : Op → Option MemAlloc
  | .noteAlloc addr0 size0 => ma.noteAlloc addr0 size0
  | .alloc size0 => (alloc fuel ma size0).map Prod.snd

def Op.Fits (totalMemSize : ℕ) : Op → Prop
  | .noteAlloc addr0 size0 => addr0 + size0 ≤ totalMemSize
  | .alloc size0 => size0 + memAllocGranule ≤ totalMemSize

/-! ### The bitmap as a set of granules -/

variable {ma ma' : MemAlloc} {total size0 : ℕ}

/-- The granule is in use: a range noted since the last bankruptcy, rounded outwards, has it. -/
def Used (ma : MemAlloc) (g : ℕ) : Prop :=
  ∃ r ∈ ma.ranges, r.1 / 64 ≤ g ∧ g < (r.1 + r.2 + 63) / 64

instance : DecidablePred (Used ma) := fun _ => inferInstanceAs (Decidable (∃ r ∈ _, _))

def bit (ma : MemAlloc) (g : ℕ) : Bool :=
  ((ma.mem (g / 4096)).getD (fun _ => 0) (g % 4096 / 64)).testBit (g % 4096 % 64)

structure Inv (total : ℕ) (ma : MemAlloc) : Prop where
  size : ma.size * 64 = total
  le : ma.size ≤ 262144
  whole : ma.size % 4096 = 0
  bit_iff : ∀ g < ma.size, bit ma g ↔ Used ma g

lemma pos_eq (idx : ℕ) : pos idx = (idx / 4096, idx % 4096 / 64, 2 ^ (idx % 4096 % 64)) := by
  rw [pos, Nat.one_shiftLeft]
  rfl

lemma memAllocL1Size_eq : memAllocL1Size = 64 := rfl

variable {addr0 g start : ℕ}

lemma get_eq (hg : g < 262144) : ma.get g = some (bit ma g) := by
  have hlt : g / 4096 < 64 := by omega
  cases h : ma.mem (g / 4096) with
  | none => simp [MemAlloc.get, pos_eq, memAllocL1Size_eq, hlt, h, bit]
  | some l0 =>
    simp only [MemAlloc.get, pos_eq, memAllocL1Size_eq, hlt, h, bit, Nat.and_two_pow, if_true,
      Option.getD_some]
    generalize (l0 (g % 4096 / 64)).testBit (g % 4096 % 64) = b
    cases b <;> simp

/-- The bits of `ma'` are those of `ma` and the ones from `a` to `b`. -/
structure Marks (a b : ℕ) (ma ma' : MemAlloc) : Prop where
  size : ma'.size = ma.size
  ranges : ma'.ranges = ma.ranges
  resets : ma'.resets = ma.resets
  bit_iff : ∀ g, bit ma' g ↔ (a ≤ g ∧ g < b) ∨ bit ma g

variable {addr idx n : ℕ}

lemma set_spec (ma : MemAlloc) (h : idx < 262144) :
    ∃ ma', ma.set idx = some ma' ∧ Marks idx (idx + 1) ma ma' := by
  have hlt : idx / 4096 < 64 := by omega
  simp only [MemAlloc.set, pos_eq, memAllocL1Size_eq, if_pos hlt, Option.some.injEq,
    exists_eq_left']
  refine ⟨rfl, rfl, rfl, fun g => ?_⟩
  simp only [Nat.lt_succ_iff, ← le_antisymm_iff, bit]
  by_cases h1 : g / 4096 = idx / 4096
  case neg =>
    rw [update_of_ne h1, or_iff_right]
    rintro rfl
    exact h1 rfl
  rw [h1, update_self, Option.getD_some]
  by_cases h0 : g % 4096 / 64 = idx % 4096 / 64
  case neg =>
    rw [update_of_ne h0, or_iff_right]
    rintro rfl
    exact h0 rfl
  rw [h0, update_self, Nat.testBit_or, Nat.testBit_two_pow, Bool.or_eq_true, decide_eq_true_eq,
    or_comm]
  exact or_congr_left (by omega)

lemma foldlM_set (ma : MemAlloc) (h : addr + n ≤ 262144) :
    ∃ ma', (range n).foldlM (fun ma i => ma.set (addr + i)) ma = some ma' ∧
      Marks addr (addr + n) ma ma' := by
  induction n with
  | zero => exact ⟨ma, rfl, rfl, rfl, rfl, fun g => by simp⟩
  | succ n ih =>
    obtain ⟨m, hm, hmr⟩ := ih (by omega)
    obtain ⟨ma', hset, hset'⟩ := set_spec m (show addr + n < 262144 by omega)
    refine ⟨ma', ?_, hset'.size.trans hmr.size, hset'.ranges.trans hmr.ranges,
      hset'.resets.trans hmr.resets, fun g => ?_⟩
    · rw [range_succ, foldlM_append, hm]
      simpa using hset
    · rw [hset'.bit_iff, hmr.bit_iff, ← or_assoc]
      exact or_congr_left (by omega)

namespace Inv

lemma noteAlloc (hi : Inv total ma) (h : addr0 + size0 ≤ total) :
    ∃ ma', ma.noteAlloc addr0 size0 = some ma' ∧ Inv total ma' ∧
      ma'.ranges = (addr0, size0) :: ma.ranges ∧ ma'.resets = ma.resets := by
  have hsz := hi.size
  have hle := hi.le
  obtain ⟨ma', hma', hmr⟩ := foldlM_set { ma with ranges := (addr0, size0) :: ma.ranges }
    (show addr0 / 64 + ((addr0 + size0 + 63) / 64 - addr0 / 64) ≤ 262144 by omega)
  rw [Nat.add_sub_cancel' (by omega)] at hmr
  refine ⟨ma', hma', ⟨hmr.size ▸ hsz, hmr.size ▸ hle, hmr.size ▸ hi.whole,
    fun g hg => ?_⟩, hmr.ranges, hmr.resets⟩
  rw [hmr.bit_iff, Used, hmr.ranges, exists_mem_cons_iff]
  exact or_congr_right (hi.bit_iff g (hmr.size ▸ hg))

lemma of_new (h : newMemAlloc total = some ma) : Inv total ma := by
  simp only [newMemAlloc, Option.ite_none_left_eq_some, not_not, Option.some.injEq] at h
  obtain ⟨hle, hmod, rfl⟩ := h
  change ¬ total > 16777216 at hle
  change total % 262144 = 0 at hmod
  refine ⟨?_, ?_, ?_, fun g _ => ?_⟩
  · change total / 64 * 64 = total
    omega
  · change total / 64 ≤ 262144
    omega
  · change total / 64 % 4096 = 0
    omega
  · by_cases hg : g / 4096 = 0 <;> simp [bit, Used, hg]

lemma bankruptcy (hi : Inv total ma) : Inv total ma.bankruptcy := by
  refine ⟨hi.size, hi.le, hi.whole, fun g hg => ?_⟩
  have hlt : g / 4096 < ma.size / 4096 := by
    have := hi.whole
    change g < ma.size at hg
    omega
  have hmem : ma.bankruptcy.mem (g / 4096) = (ma.mem (g / 4096)).map fun _ _ => 0 := if_pos hlt
  rw [bit, hmem]
  cases ma.mem (g / 4096) <;> simp [Used, MemAlloc.bankruptcy]

lemma get_eq (hi : Inv total ma) (hg : g < ma.size) :
    ma.get g = some (decide (Used ma g)) := by
  rw [Allocator.get_eq (hg.trans_le hi.le), Option.some_inj, Bool.eq_iff_iff, hi.bit_iff g hg,
    decide_eq_true_iff]

end Inv

/-! ### What `alloc` finds -/

lemma allM_eq {α : Type} {p : α → Option Bool} {q : α → Bool} {l : List α}
    (h : ∀ x ∈ l, p x = some (q x)) : l.allM p = some (l.all q) := by
  induction l with
  | nil => rfl
  | cons a l ih =>
    obtain ⟨ha, hl⟩ := List.forall_mem_cons.1 h
    rw [allM, ha, all_cons]
    cases q a
    · rfl
    · exact ih hl

lemma findM?_eq {α : Type} {p : α → Option Bool} {q : α → Bool} {l : List α}
    (h : ∀ x ∈ l, p x = some (q x)) : l.findM? p = some (l.find? q) := by
  induction l with
  | nil => rfl
  | cons a l ih =>
    obtain ⟨ha, hl⟩ := List.forall_mem_cons.1 h
    rw [findM?, ha, find?_cons]
    cases q a
    · exact ih hl
    · rfl

def granules (size0 : ℕ) : ℕ := (max size0 1 + 63) / 64

def free (size0 : ℕ) (ma : MemAlloc) (start : ℕ) : Bool :=
  (range (granules size0)).all fun i => !decide (Used ma (start + i))

/-- A place, other than the topmost one, where all granules are free. -/
def Room (size0 : ℕ) (ma : MemAlloc) (start : ℕ) : Prop :=
  start + granules size0 < ma.size ∧ free size0 ma start

structure Allocated (total size0 : ℕ) (ma : MemAlloc) (p : ℕ × MemAlloc) : Prop where
  inv : Inv total p.2
  ranges : p.2.ranges = (p.1, max size0 1) :: ma.ranges
  resets : p.2.resets = ma.resets
  aligned : 64 ∣ p.1
  inside : p.1 + max size0 1 ≤ total
  disjoint : ∀ r ∈ ma.ranges, Disjoint (Set.Ico p.1 (p.1 + max size0 1)) (Set.Ico r.1 (r.1 + r.2))

lemma alloc_max (fuel : ℕ) : alloc fuel ma (max size0 1) = alloc fuel ma size0 := by
  cases size0 with
  | zero => cases fuel <;> rfl
  | succ n => rw [max_eq_left (by omega)]

lemma alloc_succ (hi : Inv total ma) (fuel : ℕ) : alloc (fuel + 1) ma size0 =
    match (range (ma.size - granules size0)).find? (free size0 ma) with
    | some start => (ma.noteAlloc (start * 64) (max size0 1)).map (Prod.mk (start * 64))
    | none => alloc fuel ma.bankruptcy size0 := by
  have hsize0 : (if size0 = 0 then 1 else size0) = max size0 1 := by
    split <;> omega
  have hfn : (range (ma.size - granules size0)).findM? (ma.empty (granules size0)) =
      some ((range (ma.size - granules size0)).find? (free size0 ma)) := by
    refine findM?_eq fun start hst => allM_eq fun i hlt => ?_
    rw [mem_range] at hst hlt
    rw [hi.get_eq (by omega), Option.map_some]
  rw [alloc, hsize0]
  change ((range (ma.size - granules size0)).findM? (ma.empty (granules size0))).bind _ = _
  rw [hfn, Option.bind_some]
  split
  case h_1 => rw [Option.map_eq_bind]; rfl
  case h_2 => exact alloc_max fuel

lemma Allocated.of_room (hi : Inv total ma) (h : Room size0 ma start) (fuel : ℕ) :
    ∃ p, alloc (fuel + 1) ma size0 = some p ∧ Allocated total size0 ma p := by
  rw [alloc_succ hi]
  have hmem : start ∈ range (ma.size - granules size0) :=
    List.mem_range.2 (Nat.lt_sub_of_add_lt h.1)
  obtain ⟨s, hs⟩ := Option.isSome_iff_exists.1 (List.find?_isSome.2 ⟨start, hmem, h.2⟩)
  have hfr : ∀ i < granules size0, ¬ Used ma (s + i) := by
    simpa [free] using find?_some hs
  have hlt := List.mem_range.1 (mem_of_find?_eq_some hs)
  rw [hs]
  have hsz := hi.size
  have hins : s * 64 + max size0 1 ≤ total := by
    unfold granules at hlt
    omega
  obtain ⟨ma', hma', hinv, hrn, hrs⟩ := hi.noteAlloc hins
  refine ⟨(s * 64, ma'), congrArg (Option.map _) hma', hinv, hrn, hrs,
    Nat.dvd_mul_left 64 s, hins, fun r hr => ?_⟩
  rw [Set.disjoint_left]
  rintro x ⟨hle, hlt'⟩ ⟨hle', hlt''⟩
  refine hfr (x / 64 - s) ?_ ⟨r, hr, ?_⟩
  · unfold granules
    omega
  · omega

lemma alloc_of_no_room (hi : Inv total ma) (h : ∀ start, ¬ Room size0 ma start) (fuel : ℕ) :
    alloc (fuel + 1) ma size0 = alloc fuel ma.bankruptcy size0 := by
  rw [alloc_succ hi, List.find?_eq_none.2]
  intro start hst hall
  exact h start ⟨Nat.add_lt_of_lt_sub (List.mem_range.1 hst), hall⟩

lemma alloc_spec (hi : Inv total ma) (hft : size0 + 64 ≤ total) (fuel : ℕ) :
    ∃ p old, alloc (fuel + 2) ma size0 = some p ∧ Allocated total size0 old p ∧
      (old = ma ∨ old = ma.bankruptcy ∧ ∀ start, ¬ Room size0 ma start) := by
  by_cases h : ∃ start, Room size0 ma start
  · obtain ⟨start, h⟩ := h
    obtain ⟨p, hp, hall⟩ := Allocated.of_room hi h (fuel + 1)
    exact ⟨p, ma, hp, hall, .inl rfl⟩
  · push Not at h
    have hrm : Room size0 ma.bankruptcy 0 := by
      refine ⟨?_, by simp [free, Used, MemAlloc.bankruptcy]⟩
      have := hi.size
      have := hi.whole
      change 0 + granules size0 < ma.size
      unfold granules
      omega
    obtain ⟨p, hp, hall⟩ := Allocated.of_room hi.bankruptcy hrm fuel
    exact ⟨p, _, (alloc_of_no_room hi h _).trans hp, hall, .inr ⟨rfl, h⟩⟩

lemma Inv.run {ops : List Op} (hi : Inv total ma) (hops : ∀ op ∈ ops, op.Fits total) (fuel : ℕ) :
    ∃ ma', run (step (fuel + 2)) ma ops = some ma' ∧ Inv total ma' := by
  induction ops generalizing ma with
  | nil => exact ⟨ma, rfl, hi⟩
  | cons op ops ih =>
    obtain ⟨hop, hops⟩ := List.forall_mem_cons.1 hops
    obtain ⟨m, hm, hi⟩ : ∃ m, step (fuel + 2) ma op = some m ∧ Inv total m := by
      cases op with
      | noteAlloc addr0 size0 =>
        obtain ⟨m, hm, hi, -⟩ := hi.noteAlloc hop
        exact ⟨m, hm, hi⟩
      | alloc size0 =>
        obtain ⟨p, old, hp, hall, -⟩ := alloc_spec hi hop fuel
        exact ⟨p.2, by rw [step, hp, Option.map_some], hall.inv⟩
    obtain ⟨ma', hma', hi'⟩ := ih hi hops
    exact ⟨ma', by rw [run_cons, hm, Option.bind_some, hma'], hi'⟩

/-- **Allocations do not overlap.** After any operations on ranges inside memory and sizes that
leave a granule, `alloc` returns: within two levels of recursion, an aligned range inside memory
that is disjoint from every range since the last bankruptcy. It went bankrupt only if there was no
room except possibly at the topmost place. -/
theorem alloc_disjoint {ma₀ : MemAlloc} (hnew : newMemAlloc total = some ma₀) {fuel : ℕ}
    (hfuel : 2 ≤ fuel) {ops : List Op} (hops : ∀ op ∈ ops, op.Fits total) :
    ∃ ma, run (step fuel) ma₀ ops = some ma ∧
    ∀ size0, (Op.alloc size0).Fits total → ∃ start0 ma', alloc fuel ma size0 = some (start0, ma') ∧
      64 ∣ start0 ∧ start0 + max size0 1 ≤ total ∧
      ∃ since, ma'.ranges = (start0, max size0 1) :: since ∧
        (∀ r ∈ since, Disjoint (Set.Ico start0 (start0 + max size0 1)) (Set.Ico r.1 (r.1 + r.2))) ∧
        ((ma'.resets = ma.resets ∧ since = ma.ranges) ∨
          (ma'.resets = ma.resets + 1 ∧ since = [] ∧ ∀ start, ¬ Room size0 ma start)) := by
  obtain ⟨fuel, rfl⟩ := Nat.exists_eq_add_of_le' hfuel
  obtain ⟨ma, hma, hi⟩ := Inv.run (Inv.of_new hnew) hops fuel
  refine ⟨ma, hma, fun size0 hft => ?_⟩
  obtain ⟨⟨start0, ma'⟩, old, hp, hall, hold⟩ := alloc_spec hi hft fuel
  refine ⟨start0, ma', hp, hall.aligned, hall.inside, old.ranges, hall.ranges, hall.disjoint, ?_⟩
  rcases hold with rfl | ⟨rfl, hrm⟩
  · exact .inl ⟨hall.resets, rfl⟩
  · exact .inr ⟨hall.resets, rfl, hrm⟩

/-- Two allocations and a noted range that is not aligned. -/
theorem alloc_disjoint_first : ∃ ma₀ ma, newMemAlloc 262144 = some ma₀ ∧
    run (step 2) ma₀ [.alloc 100, .noteAlloc 200 8] = some ma ∧
    ∃ start0 ma', alloc 2 ma 0 = some (start0, ma') ∧ 64 ∣ start0 := by
  have hops : ∀ op ∈ [Op.alloc 100, .noteAlloc 200 8], op.Fits 262144 := by
    simp [Op.Fits, memAllocGranule]
  obtain ⟨ma, hma, h⟩ := alloc_disjoint rfl le_rfl hops
  obtain ⟨start0, ma', hal, hdvd, -⟩ := h 0 (by simp [Op.Fits, memAllocGranule])
  exact ⟨_, ma, rfl, hma, start0, ma', hal, hdvd⟩

end Razzer.Allocator
