import Razzer.PrintedText
import Razzer.Renaming

/-!
Printed arguments are parsed again.

The references of what is parsed are new ones: they are the numbers of the arguments in the order
of the text. A result is found by the name it was printed with, and an argument that was not
printed is made again from its type.
-/

namespace Razzer.Decoding

open Args Progs Encoding TextParser Minimize List Prod
open Bool (and_eq_true)

/-! ### Default arguments -/

def NumberedFrom (ρ : Ref → Ref) (n : Ref) (nodes : List (Ref × Option Ref)) : Prop :=
  nodes.map (fun x => ρ x.1) = range' n nodes.length

variable {n : Ref} {ρ : Ref → Ref} {e : Encoder}

lemma numberedFrom_append {ns nodes' : List (Ref × Option Ref)} :
    NumberedFrom ρ n (ns ++ nodes') ↔
      NumberedFrom ρ n ns ∧ NumberedFrom ρ (n + ns.length) nodes' := by
  unfold NumberedFrom
  rw [map_append, length_append, ← range'_append_1]
  exact ⟨fun h => append_inj h (by simp), fun h => by rw [h.1, h.2]⟩

lemma nodes_of_isDefaultArg {a : Arg} (h : isDefaultArg e a) :
    ∀ n ∈ argNodes a, n.2 = none ∧ e.isUsed n.1 = false := by
  induction a with
  | ptr t address res ih | union t option ih =>
    simp only [isDefaultArg, and_eq_true] at h
    exact ih h.2
  | struct t inner ih =>
    simp only [isDefaultArg, areDefaultArgs_eq, all_eq_true] at h
    intro n hn
    rw [argNodes_struct] at hn
    obtain ⟨a, ha, hn⟩ := mem_flatMap.1 hn
    exact ih a ha (h a ha) n hn
  | array t inner ih =>
    simp only [isDefaultArg, areDefaultArgs_eq, all_eq_true, and_eq_true] at h
    intro n hn
    rw [argNodes_array] at hn
    obtain ⟨a, ha, hn⟩ := mem_flatMap.1 hn
    exact ih a ha (h.2 a ha) n hn
  | result t n =>
    simp only [isDefaultArg, and_eq_true, Option.isNone_iff_eq_none, Bool.not_eq_true'] at h
    intro m hm
    obtain rfl : m = (n.id, n.res) := by simpa [argNodes, Arg.results] using hm
    exact ⟨h.1.1.1.1, h.1.2⟩
  | _ => simp [argNodes, Arg.results]

lemma thread_eq {f : TypeId → Ref → Arg × Ref} {ids : List TypeId} {as : List Arg}
    (h : Forall₂ (fun id a => ∀ n, NumberedFrom ρ n (argNodes a) → f id n = (rename ρ a, n +
      (argNodes a).length)) ids as) (hn : NumberedFrom ρ n (as.flatMap argNodes)) :
    thread f ids n = (as.map (rename ρ), n + (as.flatMap argNodes).length) := by
  induction h generalizing n with
  | nil => rfl
  | cons ha _ ih =>
    rw [flatMap_cons, numberedFrom_append] at hn
    rw [thread, ha n hn.1, ih hn.2, flatMap_cons, length_append, Nat.add_assoc]
    rfl

lemma default_of_isPad {t : ConstType} (h : t.isPad) : t.default = 0 := by
  unfold ConstType.isPad at h
  unfold ConstType.default
  split at h <;> simp_all

lemma DataOf.eq_default {t : BufferType} {bs : List UInt8} {outSize : ℕ}
    (h : DataOf t bs outSize) (hdf : isDefaultArg e (.data t bs outSize)) :
    Arg.data t bs outSize =
      if t.dir = .dirOut then .data t [] (if t.varlen then 0 else t.size)
      else .data t (if t.varlen then [] else replicate t.size 0) 0 := by
  unfold DataOf at h
  rw [isDefaultArg] at hdf
  split_ifs at h ⊢ with hdir hvr hvr
  all_goals obtain ⟨rfl, -, hsz⟩ := h
  · simpa [dataSize, hvr, hdir] using hdf
  · rw [hsz (by simpa using hvr)]
  · simpa [dataSize, hvr] using hdf
  · have hlen := hsz (by simpa using hvr)
    have hzr : ∀ b ∈ bs, b = 0 := by
      cases bs with
      | nil => simp
      | cons b bs => simpa [dataSize, hvr, hdir] using hdf
    rw [← hlen, ← eq_replicate_of_mem hzr]

/-- A part of a type comes before it in the table, so there is fuel left for it. -/
lemma fuel_of_part {T : Target} (hT : T.wf) {fuel : ℕ} {id part : TypeId} (hid : id ≤ fuel)
    (h : part ∈ (T.desc id).defaultParts) : ∃ fuel', fuel = fuel' + 1 ∧ part ≤ fuel' := by
  have hlt := (part_lt hT h).trans_le hid
  obtain ⟨fuel', rfl⟩ := Nat.exists_eq_add_one.2 (Nat.zero_lt_of_lt hlt)
  exact ⟨fuel', rfl, Nat.le_of_lt_succ hlt⟩

/-- **An argument with default values is the default of its type.** -/
theorem defaultOf_eq {T : Target} (hT : T.wf) (hpg : e.pageSize = T.pageSize) {fuel : ℕ}
    {id : TypeId} (hid : id ≤ fuel) {a : Arg} (hty : Typed T id a)
    (hdf : isDefaultArg e a) (hn : NumberedFrom ρ n (argNodes a)) :
    defaultOf T (fuel + 1) id n = (rename ρ a, n + (argNodes a).length) := by
  induction a generalizing fuel id n with
  | const t val =>
    cases hty with
    | const hds hpad =>
      have hval : val = t.default := by
        rw [isDefaultArg, Bool.or_eq_true, beq_iff_eq] at hdf
        rcases hdf with hp | hval
        · rw [hpad hp, default_of_isPad hp]
        · exact hval
      rw [defaultOf, hds, hval]
      rfl
  | ptr t address res ih =>
    simp only [isDefaultArg, and_eq_true, Bool.not_eq_true', beq_iff_eq] at hdf
    obtain ⟨⟨hopt, rfl⟩, hres⟩ := hdf
    cases hty with
    | ptr hds hty =>
      obtain ⟨fuel, rfl, hle⟩ := fuel_of_part hT hid (by
        rw [hds, TypeDesc.defaultParts, if_neg (by simp [hopt])]
        exact mem_singleton_self _)
      rw [defaultOf, hds]
      simp only [hopt, Bool.false_eq_true, dite_false]
      rw [ih hle hty hres hn]
      rfl
    | any hany =>
      -- The types of squashed pointers are optional.
      have hopt' := (makeAnyPtrType_eq_some hT (anyTypeOf_cases hany).1).1
      exact absurd (hopt.symm.trans hopt') (by simp)
  | null t h =>
    cases hty with
    | null hds =>
      rw [defaultOf, hds]
      simp only [h, dite_true]
      rfl
  | vma t address vmaSize =>
    cases hty with
    | vma hds =>
      rw [defaultOf, hds]
      rw [isDefaultArg] at hdf
      split_ifs at hdf ⊢ with hopt
      all_goals
        simp only [vmaIsNull, and_eq_true, beq_iff_eq] at hdf
        simp only [hopt, hdf.1, hdf.2, hpg]
        rfl
  | data t bytes outSize =>
    cases hty with
    | data hds hdt =>
      have hnd : argNodes (.data t bytes outSize) = [] := rfl
      rw [defaultOf, hds, rename_data, hnd, hdt.eq_default hdf]
      dsimp only
      split_ifs <;> rfl
  | struct t inner ih =>
    cases hty with
    | struct hds hir =>
      simp only [isDefaultArg, areDefaultArgs_eq, all_eq_true] at hdf
      rw [argNodes_struct] at hn ⊢
      rw [defaultOf, hds, rename_struct]
      dsimp only
      rw [thread_eq (forall₂_imp_of_mem hir fun f hf a ha hty n hn => ?_) hn]
      obtain ⟨fuel, rfl, hle⟩ := fuel_of_part hT hid (by rw [hds]; exact hf)
      exact ih a ha hle hty (hdf a ha) hn
  | array t inner ih =>
    cases hty with
    | @array _ elem _ _ hds hlen hir =>
      simp only [isDefaultArg, areDefaultArgs_eq, all_eq_true, and_eq_true,
        Bool.or_eq_true, List.isEmpty_iff] at hdf
      rw [argNodes_array] at hn ⊢
      have hpr : Forall₂ (Typed T) (TypeDesc.array t elem).defaultParts inner := by
        rw [TypeDesc.defaultParts]
        split_ifs with hfx
        · exact hlen hfx ▸ forall₂_replicate hir
        · rw [hdf.1.resolve_left hfx]
          exact .nil
      rw [defaultOf, hds, rename_array]
      dsimp only
      rw [thread_eq (forall₂_imp_of_mem hpr fun f hf a ha hty n hn => ?_) hn]
      obtain ⟨fuel, rfl, hle⟩ := fuel_of_part hT hid (hds ▸ hf)
      exact ih a ha hle hty (hdf.2 a ha) hn
  | union t option ih =>
    simp only [isDefaultArg, and_eq_true, beq_iff_eq] at hdf
    cases hty with
    | union hds hfn hnm hon =>
      obtain ⟨⟨f, hf, hfr⟩, -⟩ := wf_union hT hds
      obtain ⟨fields, rfl⟩ := head?_eq_some_iff.1 hf
      obtain ⟨fuel, rfl, hle⟩ := fuel_of_part hT hid
        (show f ∈ (T.desc id).defaultParts by simp [hds, TypeDesc.defaultParts])
      -- The first field is the one that its name finds.
      rw [hdf.1, ← hfr, findField, find?_cons_of_pos (by simp)] at hfn
      cases hfn
      rw [defaultOf, hds]
      dsimp only [headD_cons]
      rw [ih hle hon hdf.2 hn]
      rfl
  | result t m =>
    cases hty with
    | result hds hval hop =>
      simp only [isDefaultArg, and_eq_true, Option.isNone_iff_eq_none, beq_iff_eq] at hdf
      obtain ⟨⟨⟨⟨hres, hdiv⟩, hadd⟩, -⟩, hval⟩ := hdf
      have hid : ρ m.id = n := by simpa [NumberedFrom, argNodes, Arg.results] using hn
      rw [defaultOf, hds, rename_result, renameNode, hres, hdiv, hadd, hval, hid]
      rfl

/-! ### Names -/

def varName (k : ℕ) : List Char := 'r' :: Nat.toDigits 10 k

lemma varName_injective : Function.Injective varName := by
  intro k k' h
  have hrd := readDigits_toDigits (b := 10) (by omega) (by omega) k
  rw [(cons.inj h).2, readDigits_toDigits (by omega) (by omega)] at hrd
  exact (Option.some.inj hrd).symm

lemma isIdent_varName (k : ℕ) : ∀ c ∈ varName k, isIdent c := by
  intro c hc
  rcases mem_cons.1 hc with rfl | hc
  · decide
  · exact isIdent_toDigits (by omega) (by omega) k c hc

/-! ### The two states

The printer and the parser go over the text side by side. -/

def newUses (ρ : Ref → Ref) (nodes : List (Ref × Option Ref)) : List (Ref × Ref) :=
  nodes.filterMap fun n => n.2.map fun x => (ρ x, ρ n.1)

section States

variable (ρ : Ref → Ref) (e : Encoder) (k₀ : Option ℕ)

/-- The results that have been seen are known to the printer and to the parser by the same names.
`k₀` is the number of a call whose result cannot be used yet. -/
structure Ctx (seen : List Ref) (st : Printer) (s : St) : Prop where
  reserved : ∀ k, k₀ = some k → k < st.varSeq
  bound : ∀ x ∈ seen, e.isUsed x = true → ∃ k, st.vars.lookup x = some k ∧ k < st.varSeq ∧
    k₀ ≠ some k ∧ s.vars.lookup (varName k) = some (some (ρ x))

/-- The nodes that come next in the text. -/
structure Ready (seen : List Ref) (nodes : List (Ref × Option Ref)) (st : Printer) (s : St) :
    Prop where
  ctx : Ctx ρ e k₀ seen st s
  order : cloneable seen nodes = true
  used : ∀ y x, (y, some x) ∈ nodes → e.isUsed x = true
  nodup : (nodes.map fst).Nodup
  new : ∀ n ∈ nodes, n.1 ∉ seen
  numbered : NumberedFrom ρ s.next nodes

structure After (seen : List Ref) (nodes : List (Ref × Option Ref)) (st st' : Printer)
    (s s' : St) : Prop where
  ctx : Ctx ρ e k₀ ((nodes.map fst).reverse ++ seen) st' s'
  next : s'.next = s.next + nodes.length
  uses : s'.uses = s.uses ++ newUses ρ nodes
  frame : ∀ x, x ∉ nodes.map fst → st'.vars.lookup x = st.vars.lookup x

end States

section Steps

variable {k₀ : Option ℕ} {seen : List Ref} {nodes nodes' : List (Ref × Option Ref)}
  {st st' st'' : Printer} {s s' s'' : St}

lemma Ready.print (h : Ready ρ e k₀ seen nodes st s) (t : String) :
    Ready ρ e k₀ seen nodes (st.print t) s :=
  ⟨⟨h.ctx.reserved, h.ctx.bound⟩, h.order, h.used, h.nodup, h.new, h.numbered⟩

lemma After.print (h : After ρ e k₀ seen nodes st st' s s') (t : String) :
    After ρ e k₀ seen nodes st (st'.print t) s s' :=
  ⟨⟨h.ctx.reserved, h.ctx.bound⟩, h.next, h.uses, h.frame⟩

lemma After.of_print {t : String} (h : After ρ e k₀ seen nodes (st.print t) st' s s') :
    After ρ e k₀ seen nodes st st' s s' :=
  ⟨h.ctx, h.next, h.uses, h.frame⟩

lemma Ready.nil (h : Ready ρ e k₀ seen [] st s) : After ρ e k₀ seen [] st st s s :=
  ⟨h.ctx, rfl, (append_nil _).symm, fun _ _ => rfl⟩

lemma Ready.left (h : Ready ρ e k₀ seen (nodes ++ nodes') st s) : Ready ρ e k₀ seen nodes st s := by
  have hor := h.order
  have hnd := h.nodup
  rw [cloneable_append, and_eq_true] at hor
  rw [map_append, nodup_append] at hnd
  exact ⟨h.ctx, hor.1, fun y x hx => h.used y x (mem_append_left _ hx), hnd.1,
    fun n hn => h.new n (mem_append_left _ hn), (numberedFrom_append.1 h.numbered).1⟩

lemma Ready.right (h : Ready ρ e k₀ seen (nodes ++ nodes') st s)
    (h' : After ρ e k₀ seen nodes st st' s s') :
    Ready ρ e k₀ ((nodes.map fst).reverse ++ seen) nodes' st' s' := by
  have hor := h.order
  have hnd := h.nodup
  rw [cloneable_append, and_eq_true] at hor
  rw [map_append, nodup_append] at hnd
  refine ⟨h'.ctx, hor.2, fun y x hx => h.used y x (mem_append_right _ hx), hnd.2.1,
    fun n hn hmem => ?_, ?_⟩
  · rcases mem_append.1 hmem with hmem | hmem
    · exact hnd.2.2 _ (mem_reverse.1 hmem) _ (mem_map_of_mem hn) rfl
    · exact h.new n (mem_append_right _ hn) hmem
  · rw [h'.next]
    exact (numberedFrom_append.1 h.numbered).2

lemma After.append (h : After ρ e k₀ seen nodes st st' s s')
    (h' : After ρ e k₀ ((nodes.map fst).reverse ++ seen) nodes' st' st'' s' s'') :
    After ρ e k₀ seen (nodes ++ nodes') st st'' s s'' := by
  refine ⟨?_, ?_, ?_, fun x hx => ?_⟩
  · rw [map_append, reverse_append, append_assoc]
    exact h'.ctx
  · rw [h'.next, h.next, length_append, Nat.add_assoc]
  · rw [h'.uses, h.uses, newUses, newUses, newUses, filterMap_append, append_assoc]
  · rw [map_append, mem_append, not_or] at hx
    rw [h'.frame x hx.2, h.frame x hx.1]

lemma Ready.skip (h : Ready ρ e k₀ seen nodes st s)
    (hnd : ∀ n ∈ nodes, n.2 = none ∧ e.isUsed n.1 = false) :
    After ρ e k₀ seen nodes st st s { s with next := s.next + nodes.length } := by
  refine ⟨⟨h.ctx.reserved, fun x hx hus => ?_⟩, rfl, ?_, fun _ _ => rfl⟩
  · rcases mem_append.1 hx with hx | hx
    · obtain ⟨n, hn, rfl⟩ := mem_map.1 (mem_reverse.1 hx)
      exact absurd ((hnd n hn).2.symm.trans hus) (by simp)
    · exact h.ctx.bound x hx hus
  · have hnn : newUses ρ nodes = [] :=
      filterMap_eq_nil_iff.2 fun n hn => by rw [(hnd n hn).1]; rfl
    rw [hnn, append_nil]

end Steps

end Razzer.Decoding
