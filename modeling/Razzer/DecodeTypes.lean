import Razzer.Decoding
import Razzer.GoodProgs

/-!
Types of a target, and the arguments of a type.

The tables of a target are generated, and `Target.wf` checks what the parser relies on: default
values end, padding is only inside of structs, and names are identifiers. `Typed` says what every
argument that comes out of the parser is like.
-/

namespace Razzer.Decoding

open Args Progs Encoding TextParser Lines Minimize List UInt64 Bool

deriving instance DecidableEq for TypeCommon
deriving instance DecidableEq for PtrType

/-! ### Tables -/

def isIdentifier (name : List Char) : Bool := !name.isEmpty && name.all isIdent

def TypeDesc.wf (T : Target) (id : TypeId) (d : TypeDesc) : Bool :=
  d.defaultParts.all (fun part => decide (part < id)) &&
    match d with
    | .buffer t => decide (t.size < 2 ^ 63)
    | .array _ elem => !(T.desc elem).isPad
    | .struct _ fields => fields.head?.all fun f => !(T.desc f).isPad
    | .union t fields =>
      (fields.head?.any fun f => (T.desc f).common.fieldName == t.firstField) &&
        fields.all fun f =>
          !(T.desc f).isPad && isIdentifier (T.desc f).common.fieldName.toList
    | .ptr t elem =>
      !(T.desc elem).isPad &&
        (!t.isAny || decide (elem = T.anyArray ∧ T.makeAnyPtrType t.size t.fieldName = some t))
    | _ => true

def SyscallDesc.wf (T : Target) (m : SyscallDesc) : Bool :=
  isIdentifier m.syscall.name.toList && m.args.all fun id => !(T.desc id).isPad

/-- A page size is a power of two, and addresses do not overflow when they are printed. -/
def Target.memoryWf (T : Target) : Bool :=
  decide (T.pageSize.toNat ∣ 2 ^ 64 ∧ 0 < T.numPages.toNat ∧
    (T.numPages.toNat + 1) * T.pageSize.toNat + encodingAddrBase.toNat < 2 ^ 64)

/-- What the parser relies on. -/
def Target.wf (T : Target) : Bool :=
  (range T.types.length).all (fun id => (T.desc id).wf T id) &&
    T.syscalls.all (SyscallDesc.wf T) &&
    [T.anyPtrPtr, T.anyPtr64].all (fun t => t.optional && t.isAny) &&
    !(T.desc T.anyArray).isPad && T.memoryWf

variable {T : Target}

variable {name : List Char} {m : SyscallDesc} {p : UInt64} {a : Arg} {fuel : TypeId}

section Wf

variable (hT : T.wf = true)
include hT

lemma wf_desc (id : TypeId) : (T.desc id).wf T id := by
  simp only [Target.wf, and_eq_true, all_eq_true, mem_range] at hT
  by_cases hid : id < T.types.length
  · exact hT.1.1.1.1 id hid
  · have hds : T.desc id = _ := getD_eq_default T.types _ (Nat.le_of_not_lt hid)
    rw [hds]
    rfl

variable {id elem f part : TypeId}

lemma part_lt (h : part ∈ (T.desc id).defaultParts) : part < id := by
  have hwf := wf_desc hT id
  simp only [TypeDesc.wf, and_eq_true, all_eq_true, decide_eq_true_eq] at hwf
  exact hwf.1 part h

lemma wf_memory : T.memoryWf := by
  simp only [Target.wf, and_eq_true] at hT
  exact hT.2

lemma isPad_anyArray : (T.desc T.anyArray).isPad = false := by
  simp only [Target.wf, and_eq_true, not_eq_true'] at hT
  exact hT.1.2

lemma makeAnyPtrType_eq_some {size : ℕ} {field : String} {t : PtrType}
    (h : T.makeAnyPtrType size field = some t) : t.optional ∧ t.isAny := by
  simp only [Target.wf, and_eq_true, all_cons, all_nil] at hT
  unfold Target.makeAnyPtrType at h
  obtain ⟨typ, htyp, rfl⟩ := Option.map_eq_some_iff.1 h
  split_ifs at htyp <;> cases htyp
  · exact hT.1.1.2.1
  · exact hT.1.1.2.2.1

lemma wf_syscall (h : T.syscallMap name = some m) : m.wf T := by
  simp only [Target.wf, and_eq_true, all_eq_true] at hT
  exact hT.1.1.1.2 m (mem_of_find?_eq_some h)

lemma wf_array {t : ArrayType} (h : T.desc id = .array t elem) :
    (T.desc elem).isPad = false := by
  simpa [h, TypeDesc.wf] using (and_eq_true_iff.1 (wf_desc hT id)).2

lemma wf_struct {t : StructType} {fs : List TypeId}
    (h : T.desc id = .struct t fs) (hf : fs.head? = some f) : (T.desc f).isPad = false := by
  simpa [h, TypeDesc.wf, hf] using (and_eq_true_iff.1 (wf_desc hT id)).2

lemma wf_buffer {t : BufferType} (h : T.desc id = .buffer t) : t.size < 2 ^ 63 := by
  simpa [h, TypeDesc.wf] using (and_eq_true_iff.1 (wf_desc hT id)).2

lemma wf_union {t : UnionType} {fs : List TypeId} (h : T.desc id = .union t fs) :
    (∃ f, fs.head? = some f ∧ (T.desc f).common.fieldName = t.firstField) ∧
      ∀ f ∈ fs, (T.desc f).isPad = false ∧
        isIdentifier (T.desc f).common.fieldName.toList := by
  simpa [h, TypeDesc.wf, Option.any_eq_true] using (and_eq_true_iff.1 (wf_desc hT id)).2

lemma wf_ptr {t : PtrType} (h : T.desc id = .ptr t elem) :
    (T.desc elem).isPad = false ∧ (t.isAny →
      elem = T.anyArray ∧ T.makeAnyPtrType t.size t.fieldName = some t) := by
  have hwf := (and_eq_true_iff.1 (wf_desc hT id)).2
  simp only [h, and_eq_true, not_eq_true', or_eq_true, decide_eq_true_eq] at hwf
  refine ⟨hwf.1, fun hany => hwf.2.resolve_left (by simp [hany])⟩

end Wf

variable {α β : Type} {xs : List α} {R : α → β → Prop} {ys : List β}

lemma name_of_syscallMap (h : T.syscallMap name = some m) :
    m.syscall.name.toList = name := by
  simpa using find?_some (show find? _ _ = some m from h)

lemma name_of_findField {fs : List TypeId} {f : TypeId} (h : findField T fs name = some f) :
    (T.desc f).common.fieldName.toList = name := by
  simpa using find?_some (show find? _ _ = some f from h)

/-! ### Regions -/

lemma toNat_and_mask (hp : p.toNat ∣ 2 ^ 64) (x : UInt64) :
    (x &&& ~~~(p - 1)).toNat = x.toNat / p.toNat * p.toNat := by
  obtain ⟨k, -, hpow⟩ := (Nat.dvd_prime_pow Nat.prime_two).1 hp
  have hsub : (p - 1).toNat = 2 ^ k - 1 := by
    have hone : 1 ≤ p := by
      rw [le_iff_toNat_le, hpow]
      exact Nat.one_le_two_pow
    rw [UInt64.toNat_sub_of_le _ _ hone, hpow]
    rfl
  have hms : ∀ i, (~~~(p - 1)).toNat.testBit i = (decide (i < 64) && !decide (i < k)) := by
    intro i
    have hlt : 2 ^ k - 1 < 2 ^ 64 := hsub ▸ (p - 1).toNat_lt
    have hbit := Nat.testBit_two_pow_sub_succ hlt i
    rw [Nat.testBit_two_pow_sub_one] at hbit
    rwa [toNat_not, hsub, size, Nat.sub_sub, Nat.add_comm 1]
  apply Nat.eq_of_testBit_eq
  intro i
  rw [UInt64.toNat_and, Nat.testBit_and, hms, hpow, Nat.testBit_mul_two_pow,
    Nat.testBit_div_two_pow]
  by_cases hki : k ≤ i
  · by_cases hi : i < 64
    · simp [hki, hi]
    · have hlt : x.toNat < 2 ^ i :=
        x.toNat_lt.trans_le (Nat.pow_le_pow_right (by norm_num) (by omega))
      simp [hki, Nat.testBit_lt_two_pow hlt]
  · simp [hki, Nat.lt_of_not_le hki]

/-- A region of whole pages inside of the memory. -/
structure Paged (T : Target) (address vmaSize : UInt64) : Prop where
  start : T.pageSize.toNat ∣ address.toNat
  size : T.pageSize.toNat ∣ vmaSize.toNat
  pos : 0 < vmaSize.toNat
  fits : address.toNat + vmaSize.toNat ≤ T.maxMem.toNat

section Regions

variable (hT : T.wf = true)
include hT

lemma pageSize_pos : 0 < T.pageSize.toNat := by
  have hwf := wf_memory hT
  simp only [Target.memoryWf, decide_eq_true_eq] at hwf
  exact Nat.pos_of_dvd_of_pos hwf.1 (by norm_num)

lemma toNat_maxMem : T.maxMem.toNat = T.numPages.toNat * T.pageSize.toNat := by
  have hwf := wf_memory hT
  simp only [Target.memoryWf, decide_eq_true_eq, Nat.add_mul] at hwf
  rw [Target.maxMem, UInt64.toNat_mul]
  exact Nat.mod_eq_of_lt (by omega)

lemma maxMem_lt : T.maxMem.toNat + T.pageSize.toNat + encodingAddrBase.toNat < 2 ^ 64 := by
  have hwf := wf_memory hT
  simp only [Target.memoryWf, decide_eq_true_eq, Nat.add_mul] at hwf
  rw [toNat_maxMem hT]
  omega

lemma pageSize_le : T.pageSize.toNat ≤ T.maxMem.toNat := by
  have hwf := wf_memory hT
  simp only [Target.memoryWf, decide_eq_true_eq] at hwf
  rw [toNat_maxMem hT]
  exact Nat.le_mul_of_pos_left _ hwf.2.1

lemma paged_alignVma (addr size : UInt64) :
    Paged T (alignVma T addr size).1 (alignVma T addr size).2 := by
  have hpg : T.pageSize.toNat ∣ 2 ^ 64 := (of_decide_eq_true (wf_memory hT)).1
  have hmem : T.pageSize.toNat ∣ T.maxMem.toNat := toNat_maxMem hT ▸ Nat.dvd_mul_left _ _
  have hpos := pageSize_pos hT
  have hle := pageSize_le hT
  have had : T.pageSize.toNat ∣ (addr &&& ~~~(T.pageSize - 1)).toNat :=
    toNat_and_mask hpg addr ▸ Nat.dvd_mul_left _ _
  have hsz : T.pageSize.toNat ∣ ((size + T.pageSize - 1) &&& ~~~(T.pageSize - 1)).toNat :=
    toNat_and_mask hpg _ ▸ Nat.dvd_mul_left _ _
  have hV : T.pageSize.toNat ∣ (alignVma T addr size).2.toNat ∧
      0 < (alignVma T addr size).2.toNat ∧ (alignVma T addr size).2 ≤ T.maxMem := by
    simp only [alignVma]
    generalize (size + T.pageSize - 1) &&& ~~~(T.pageSize - 1) = v at hsz ⊢
    have hv : T.pageSize.toNat ∣ (if v = 0 then T.pageSize else v).toNat ∧
        0 < (if v = 0 then T.pageSize else v).toNat := by
      split_ifs with h0
      · exact ⟨dvd_rfl, hpos⟩
      · exact ⟨hsz, Nat.pos_of_ne_zero fun h => h0 (UInt64.toNat_inj.1 h)⟩
    generalize (if v = 0 then T.pageSize else v) = w at hv ⊢
    split_ifs with hlt
    · exact ⟨hmem, by omega, UInt64.le_refl _⟩
    · exact ⟨hv.1, hv.2, UInt64.not_lt.1 hlt⟩
  have hsub := UInt64.toNat_sub_of_le _ _ hV.2.2
  have hA : T.pageSize.toNat ∣ (alignVma T addr size).1.toNat ∧
      (alignVma T addr size).1 ≤ T.maxMem - (alignVma T addr size).2 := by
    generalize hv : (alignVma T addr size).2 = v at hV hsub
    simp only [alignVma] at hv ⊢
    rw [hv]
    split_ifs with hlt
    · refine ⟨?_, UInt64.le_refl _⟩
      rw [hsub]
      exact Nat.dvd_sub hmem hV.1
    · exact ⟨had, UInt64.not_lt.1 hlt⟩
  have hle' := le_iff_toNat_le.1 hA.2
  have hle'' := le_iff_toNat_le.1 hV.2.2
  exact ⟨hA.1, hV.1, hV.2.1, by omega⟩

lemma alignVma_of_paged {address vmaSize : UInt64} (h : Paged T address vmaSize) :
    alignVma T address vmaSize = (address, vmaSize) := by
  have hpg : T.pageSize.toNat ∣ 2 ^ 64 := (of_decide_eq_true (wf_memory hT)).1
  have hpos := pageSize_pos hT
  have hlt := maxMem_lt hT
  have hft := h.fits
  have had : address &&& ~~~(T.pageSize - 1) = address := by
    rw [← UInt64.toNat_inj, toNat_and_mask hpg, Nat.div_mul_cancel h.start]
  have hrn : (vmaSize + T.pageSize - 1).toNat = vmaSize.toNat + (T.pageSize.toNat - 1) := by
    have hadd : (vmaSize + T.pageSize).toNat = vmaSize.toNat + T.pageSize.toNat := by
      rw [UInt64.toNat_add]
      exact Nat.mod_eq_of_lt (by omega)
    have hone : 1 ≤ vmaSize + T.pageSize := by
      rw [le_iff_toNat_le, hadd]
      show 1 ≤ _
      omega
    rw [UInt64.toNat_sub_of_le _ _ hone, hadd]
    show vmaSize.toNat + T.pageSize.toNat - 1 = _
    omega
  have hsz : (vmaSize + T.pageSize - 1) &&& ~~~(T.pageSize - 1) = vmaSize := by
    obtain ⟨k, hk⟩ := h.size
    rw [← UInt64.toNat_inj, toNat_and_mask hpg, hrn, hk, Nat.mul_add_div hpos,
      Nat.div_eq_of_lt (by omega : T.pageSize.toNat - 1 < T.pageSize.toNat), Nat.add_zero,
      Nat.mul_comm]
  have hne : vmaSize ≠ 0 := fun h0 => absurd h.pos (by simp [h0])
  have hmax : ¬ T.maxMem < vmaSize := by
    rw [lt_iff_toNat_lt]
    omega
  have hrm : ¬ T.maxMem - vmaSize < address := by
    rw [UInt64.lt_iff_toNat_lt, UInt64.toNat_sub_of_le _ _ (UInt64.not_lt.1 hmax)]
    omega
  simp only [alignVma, had, hsz, hne, if_false, hmax, hrm]

end Regions

/-! ### Arguments of a type -/

/-- The type of a pointer to squashed arguments in the place of a pointer or a region. -/
def anyTypeOf (T : Target) : TypeDesc → Option PtrType
  | .ptr t _ => T.makeAnyPtrType t.size t.fieldName
  | .vma t => T.makeAnyPtrType t.size t.fieldName
  | _ => none

lemma anyTypeOf_cases {d : TypeDesc} {t : PtrType} (h : anyTypeOf T d = some t) :
    T.makeAnyPtrType d.common.size d.common.fieldName = some t ∧
      ((∃ t0 elem, d = .ptr t0 elem) ∨ ∃ t0, d = .vma t0) := by
  cases d with
  | ptr t0 elem => exact ⟨h, .inl ⟨t0, elem, rfl⟩⟩
  | vma t0 => exact ⟨h, .inr ⟨t0, rfl⟩⟩
  | _ => cases h

def DataOf (t : BufferType) (bytes : List UInt8) (outSize : ℕ) : Prop :=
  if t.dir = .dirOut then
    bytes = [] ∧ outSize < 2 ^ 64 - 1 ∧ (t.varlen = false → outSize = t.size)
  else outSize = 0 ∧ bytes.length < 2 ^ 63 ∧ (t.varlen = false → bytes.length = t.size)

/-- An argument of a type of the table, as the parser makes it. -/
inductive Typed (T : Target) : TypeId → Arg → Prop
  | const {id : TypeId} {t : ConstType} {val : UInt64} (hdesc : T.desc id = .const t)
      (hpad : t.isPad = true → val = 0) : Typed T id (.const t val)
  | ptr {id elem : TypeId} {t : PtrType} {address : UInt64} {res : Arg}
      (hdesc : T.desc id = .ptr t elem) (hres : Typed T elem res) : Typed T id (.ptr t address res)
  | any {id : TypeId} {t : PtrType} {address : UInt64} {res : Arg}
      (hany : anyTypeOf T (T.desc id) = some t) (hres : Typed T T.anyArray res) :
      Typed T id (.ptr t address res)
  | null {id elem : TypeId} {t : PtrType} {h : t.optional = true}
      (hdesc : T.desc id = .ptr t elem) : Typed T id (.null t h)
  | vma {id : TypeId} {t : VmaType} {address vmaSize : UInt64} (hdesc : T.desc id = .vma t)
      (haligned : address % 1024 = 0) (hregion : vmaSize = 0 ∨ Paged T address vmaSize) :
      Typed T id (.vma t address vmaSize)
  | data {id : TypeId} {t : BufferType} {bytes : List UInt8} {outSize : ℕ}
      (hdesc : T.desc id = .buffer t) (hdata : DataOf t bytes outSize) :
      Typed T id (.data t bytes outSize)
  | struct {id : TypeId} {fields : List TypeId} {t : StructType} {inner : List Arg}
      (hdesc : T.desc id = .struct t fields) (hinner : Forall₂ (Typed T) fields inner) :
      Typed T id (.struct t inner)
  | array {id elem : TypeId} {t : ArrayType} {inner : List Arg} (hdesc : T.desc id = .array t elem)
      (hlen : fixedInnerSize t = true → inner.length = t.rangeBegin)
      (hinner : ∀ a ∈ inner, Typed T elem a) : Typed T id (.array t inner)
  | union {id f : TypeId} {fields : List TypeId} {t : UnionType} {option : Arg}
      (hdesc : T.desc id = .union t fields)
      (hfind : findField T fields option.fieldName.toList = some f)
      (hname : (fields.any fun f => (T.desc f).common.name == option.type.name) = true)
      (hoption : Typed T f option) : Typed T id (.union t option)
  | result {id : TypeId} {t : ResourceType} {n : ResultNode} (hdesc : T.desc id = .resource t)
      (hval : n.res.isSome = true → n.val = 0)
      (hop : n.res = none → n.opDiv = 0 ∧ n.opAdd = 0) : Typed T id (.result t n)

lemma Typed.fieldName_eq {id : TypeId} (h : Typed T id a)
    (hnm : (T.desc id).common.fieldName ≠ "") : a.fieldName = (T.desc id).common.fieldName := by
  cases h with
  | any hany =>
    obtain ⟨typ, -, rfl⟩ := Option.map_eq_some_iff.1 (anyTypeOf_cases hany).1
    exact if_pos hnm
  | _ =>
    rw [‹T.desc id = _›]
    rfl

/-! ### Default arguments -/

variable {f : α → Ref → β × Ref}

lemma forall₂_thread (h : ∀ x ∈ xs, ∀ n, R x (f x n).1) (n : Ref) :
    Forall₂ R xs (thread f xs n).1 := by
  induction xs generalizing n with
  | nil => exact .nil
  | cons x xs ih =>
    obtain ⟨hx, hxs⟩ := forall_mem_cons.1 h
    exact .cons (hx n) (ih hxs _)

lemma forall₂_imp_of_mem {S : α → β → Prop} (h : Forall₂ R xs ys)
    (himp : ∀ x ∈ xs, ∀ y ∈ ys, R x y → S x y) : Forall₂ S xs ys := by
  induction h with
  | nil => exact .nil
  | cons hxy _ ih =>
    refine .cons (himp _ mem_cons_self _ mem_cons_self hxy) (ih fun x hx y hy => ?_)
    exact himp x (mem_cons_of_mem _ hx) y (mem_cons_of_mem _ hy)

lemma forall₂_replicate {x : α} (h : ∀ y ∈ ys, R x y) : Forall₂ R (replicate ys.length x) ys := by
  induction ys with
  | nil => exact .nil
  | cons y ys ih =>
    obtain ⟨hy, hys⟩ := forall_mem_cons.1 h
    exact .cons hy (ih hys)

lemma getElem?_of_forall₂ (h : Forall₂ R xs ys) {j : ℕ} {y : β} (hy : ys[j]? = some y) :
    ∃ x, xs[j]? = some x ∧ R x y := by
  induction h generalizing j with
  | nil => cases hy
  | cons hxy _ ih =>
    cases j with
    | zero =>
      cases hy
      exact ⟨_, rfl, hxy⟩
    | succ j => exact ih hy

lemma exists_mem_of_forall₂ (h : Forall₂ R xs ys) {y : β} (hy : y ∈ ys) : ∃ x ∈ xs, R x y := by
  obtain ⟨j, hj⟩ := mem_iff_getElem?.1 hy
  obtain ⟨x, hx, hR⟩ := getElem?_of_forall₂ h hj
  exact ⟨x, mem_of_getElem? hx, hR⟩

lemma type_defaultOf (T : Target) (fuel : ℕ) (id : TypeId) (n : Ref) :
    (defaultOf T (fuel + 1) id n).1.type = (T.desc id).common := by
  unfold defaultOf
  cases T.desc id with
  | buffer t | vma t | ptr t elem =>
    dsimp only
    split <;> rfl
  | _ => rfl

/-- **Default arguments are of their types.** -/
theorem typed_defaultOf (hT : T.wf) {id : TypeId} (hid : id < fuel) (n : Ref) :
    Typed T id (defaultOf T fuel id n).1 := by
  induction fuel generalizing id n with
  | zero => exact absurd hid (Nat.not_lt_zero id)
  | succ fuel ih =>
    have hpr : ∀ part ∈ (T.desc id).defaultParts, ∀ n, Typed T part (defaultOf T fuel part n).1 :=
      fun part hmem n => ih ((part_lt hT hmem).trans_le (Nat.le_of_lt_succ hid)) n
    unfold defaultOf
    split
    case h_1 t hds =>
      refine .const hds fun hpad => ?_
      unfold ConstType.isPad at hpad
      unfold ConstType.default
      split at hpad <;> simp_all
    case h_2 t hds => exact .result hds (by simp) (by simp)
    case h_3 t hds =>
      have hsz := wf_buffer hT hds
      split_ifs with hdir hvr hvr
      · exact .data hds (by simp [DataOf, hdir, hvr])
      · refine .data hds ?_
        rw [DataOf, if_pos hdir]
        exact ⟨rfl, by omega, fun _ => rfl⟩
      · exact .data hds (by simp [DataOf, hdir, hvr])
      · refine .data hds ?_
        rw [DataOf, if_neg hdir, length_replicate]
        exact ⟨rfl, hsz, fun _ => rfl⟩
    case h_4 t elem hds =>
      rw [hds] at hpr
      have hall := forall₂_thread hpr n
      simp only [TypeDesc.defaultParts] at hall hpr ⊢
      refine .array hds (fun hfx => ?_) fun a ha => ?_
      · rw [← hall.length_eq, if_pos hfx, length_replicate]
      · obtain ⟨part, hmem, hty⟩ := exists_mem_of_forall₂ hall ha
        split_ifs at hmem
        · rwa [eq_of_mem_replicate hmem] at hty
        · cases hmem
    case h_5 t fields hds =>
      rw [hds] at hpr
      exact .struct hds (forall₂_thread hpr n)
    case h_6 t fields hds =>
      rw [hds] at hpr
      obtain ⟨⟨f, hf, -⟩, hnm⟩ := wf_union hT hds
      obtain ⟨fields, rfl⟩ : ∃ fields', fields = f :: fields' := head?_eq_some_iff.1 hf
      have hop := hpr f (by simp [TypeDesc.defaultParts]) n
      have hlt : f < id := part_lt hT (by simp [hds, TypeDesc.defaultParts])
      obtain ⟨fuel, rfl⟩ : ∃ fuel', fuel = fuel' + 1 :=
        Nat.exists_eq_add_one.2 (Nat.zero_lt_of_lt (hlt.trans_le (Nat.le_of_lt_succ hid)))
      have htp := type_defaultOf T fuel f n
      refine .union hds (f := f) ?_ ?_ hop
      · simp [findField, Arg.fieldName, htp]
      · simp [htp]
    case h_7 t hds =>
      split
      · exact .vma hds (by simp) (.inl rfl)
      · refine .vma hds (by simp) (.inr ⟨?_, dvd_rfl, pageSize_pos hT, ?_⟩)
        · simp
        · simpa using pageSize_le hT
    case h_8 t elem hds =>
      rw [hds] at hpr
      split_ifs with hopt
      · exact .null hds
      · exact .ptr hds (hpr elem (by simp [TypeDesc.defaultParts, hopt]) n)

def freshNodes (n : Ref) (k : ℕ) : List (Ref × Option Ref) :=
  (range' n k).map fun y => (y, none)

lemma argNodes_struct (t : StructType) (as : List Arg) :
    argNodes (.struct t as) = as.flatMap argNodes := by
  simp only [argNodes, Arg.results, allResults_eq, map_flatMap]
  rfl

lemma argNodes_array (t : ArrayType) (as : List Arg) :
    argNodes (.array t as) = as.flatMap argNodes := by
  simp only [argNodes, Arg.results, allResults_eq, map_flatMap]
  rfl

lemma nodes_call (c : Call) : c.nodes = (c.ret, none) :: c.args.flatMap argNodes := by
  simp only [Call.nodes, allResults_eq, map_flatMap]
  rfl

lemma nodes_thread {f : α → Ref → Arg × Ref}
    (h : ∀ x n, ∃ k, (f x n).2 = n + k ∧ argNodes (f x n).1 = freshNodes n k)
    (xs : List α) (n : Ref) :
    ∃ k, (thread f xs n).2 = n + k ∧ (thread f xs n).1.flatMap argNodes = freshNodes n k := by
  induction xs generalizing n with
  | nil => exact ⟨0, rfl, rfl⟩
  | cons x xs ih =>
    obtain ⟨k, hn, hnd⟩ := h x n
    obtain ⟨k', hn', hnd'⟩ := ih (f x n).2
    refine ⟨k + k', ?_, ?_⟩
    · rw [thread, hn', hn, Nat.add_assoc]
    · rw [thread, flatMap_cons, hnd, hnd', hn, freshNodes, freshNodes, freshNodes,
        ← map_append, range'_append_1]

/-- **Default arguments are numbered from `n` on and use nothing.** -/
theorem nodes_defaultOf (T : Target) (fuel : ℕ) (id : TypeId) (n : Ref) :
    ∃ k, (defaultOf T fuel id n).2 = n + k ∧
      argNodes (defaultOf T fuel id n).1 = freshNodes n k := by
  induction fuel generalizing id n with
  | zero => exact ⟨0, rfl, rfl⟩
  | succ fuel ih =>
    unfold defaultOf
    split
    case h_1 => exact ⟨0, rfl, rfl⟩
    case h_2 => exact ⟨1, rfl, rfl⟩
    case h_3 => split <;> exact ⟨0, rfl, rfl⟩
    case h_4 t elem hds =>
      simp only [argNodes_array]
      exact nodes_thread ih _ n
    case h_5 t fields hds =>
      simp only [argNodes_struct]
      exact nodes_thread ih _ n
    case h_6 t fields hds => exact ih _ n
    case h_7 => dsimp only; split <;> exact ⟨0, rfl, rfl⟩
    case h_8 t elem hds =>
      split
      · exact ⟨0, rfl, rfl⟩
      · exact ih _ n

end Razzer.Decoding
