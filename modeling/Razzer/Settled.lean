import Razzer.GoodProgs

/-!
Length fields and edits in place.

The minimisation sets all length fields of a call after it has made a buffer shorter, and again
after it has put the buffer back. What is left of this is a call whose length fields have been
set once; if they were right before, nothing is left.
-/

namespace Razzer.Minimize

open Args Progs Sizes Trim List Function
open Option (bind_eq_some_iff)
open Arg (modifyAt)

/-! ### Edits that length fields do not interfere with -/

/-- The edit and the setting of length fields do not see each other. -/
def Blind (f : Arg → Arg) : Prop :=
  ∀ fields ps a, f (assignSizes fields ps a) = assignSizes fields ps (f a)

lemma blind_setData (bs : List UInt8) : Blind (setData bs) := by
  intro fields ps a
  cases a <;> simp only [assignSizes, setData]

/-- A relation that passes from inner arguments to the argument around them. -/
structure Congruence (R : Arg → Arg → Prop) : Prop where
  ptr : ∀ t address a b, R a b → R (.ptr t address a) (.ptr t address b)
  union : ∀ t a b, R a b → R (.union t a) (.union t b)
  struct : ∀ t xs ys, Forall₂ R xs ys → R (.struct t xs) (.struct t ys)
  array : ∀ t xs ys, Forall₂ R xs ys → R (.array t xs) (.array t ys)

lemma congruence_sameSize : Congruence SameSize :=
  ⟨fun t address _ _ h => h.ptr t address, fun t _ _ h => h.union t,
    fun t _ _ h => sameSize_struct h t, fun t _ _ h => sameSize_array h t⟩

/-- Trimmed, with all inner arguments kept. -/
def Keeps (a b : Arg) : Prop := Trims a b ∧ a.count ≤ b.count

variable {P P' P'' args xs ys : List Arg} {R : Arg → Arg → Prop} {F F' F'' : Option (List Arg)}

lemma countAll_mono (h : Forall₂ Keeps xs ys) : countAll xs ≤ countAll ys := by
  induction h with
  | nil => exact le_rfl
  | cons hab _ ih => exact Nat.add_le_add hab.2 ih

lemma congruence_keeps : Congruence Keeps where
  ptr t address _ _ h := ⟨.ptr t address h.1, Nat.succ_le_succ h.2⟩
  union t _ _ h := ⟨.union t h.1, Nat.succ_le_succ h.2⟩
  struct t _ _ h := ⟨.struct t (h.imp fun _ _ h => h.1), Nat.succ_le_succ (countAll_mono h)⟩
  array t _ _ h := ⟨.array t (Sublist.refl _) (fun _ => rfl) (h.imp fun _ _ h => h.1),
    Nat.succ_le_succ (countAll_mono h)⟩

lemma keeps_assignSizes (fs : Option (List Arg)) (ps : List Arg) (a : Arg) :
    Keeps a (assignSizes fs ps a) :=
  ⟨trims_assignSizes fs ps a, (count_assignSizes fs ps a).ge⟩

variable {A g f : Arg → Arg} {l : List Arg} {k i : ℕ} {pos : List ℕ} {a b : Arg} {p q : Prog}
  {c : Call}

lemma forall₂_modify_map (hA : ∀ x, R x (A x)) (hg : ∀ x, R (g x) (g (A x))) (k : ℕ) :
    Forall₂ R (l.modify k g) ((l.map A).modify k g) := by
  induction l generalizing k with
  | nil => simp
  | cons a l ih =>
    cases k with
    | zero =>
      exact .cons (hg a) (forall₂_map_right_iff.2 (forall₂_same.2 fun x _ => hA x))
    | succ k => exact .cons (hA a) (ih k)

lemma rel_modifyAt (hR : Congruence R) (han : ∀ fs ps a, R a (assignSizes fs ps a))
    (hf : Blind f) (pos : List ℕ) (fs : Option (List Arg)) (ps : List Arg) (a : Arg) :
    R (a.modifyAt f pos) ((assignSizes fs ps a).modifyAt f pos) := by
  induction pos generalizing fs ps a with
  | nil =>
    rw [modifyAt, modifyAt, hf]
    exact han fs ps (f a)
  | cons k pos ih =>
    cases a with
    | ptr t address res => exact hR.ptr t address _ _ (ih fs ps res)
    | union t option => exact hR.union t _ _ (ih none [] option)
    | struct t inner =>
      rw [assignSizes, assignSizesArgs_eq]
      exact hR.struct t _ _ (forall₂_modify_map (han _ _) (ih _ _) k)
    | array t inner =>
      rw [assignSizes, assignSizesArgs_eq]
      exact hR.array t _ _ (forall₂_modify_map (han _ _) (ih _ _) k)
    | const t val | null t h | vma t address vmaSize | data t bytes outSize | result t n =>
      exact han fs ps _

lemma map_modify_absorb {B C : Arg → Arg} (hmem : ∀ x ∈ l.modify k g, B (A x) = C x)
    (hat : ∀ x, l[k]? = some x → B (g (A x)) = C (g x)) :
    ((l.map A).modify k g).map B = (l.modify k g).map C := by
  induction l generalizing k with
  | nil => simp
  | cons a l ih =>
    cases k with
    | zero =>
      have hl : ∀ x ∈ l, B (A x) = C x := fun x hx => hmem x (mem_cons_of_mem _ hx)
      have hhd : B (g (A a)) = C (g a) := hat a rfl
      simp only [map_cons, modify_zero_cons, map_map, hhd, cons.injEq, true_and]
      exact map_congr_left hl
    | succ k =>
      simp only [modify_succ_cons, map_cons, forall_mem_cons] at hmem ⊢
      rw [hmem.1, ih hmem.2 fun x hx => hat x (by simpa using hx)]

lemma map_assignSizes_modify (hf : Blind f) {as L : List Arg}
    (hL : L = (as.map (assignSizes (some as) P)).modify k (modifyAt f pos))
    (hP : Forall₂ SameSize P' P'')
    (hr : ∀ x ∈ as.modify k (modifyAt f pos), resolves (some (as.modify k (modifyAt f
      pos))) P' x)
    (hat : ∀ x, as[k]? = some x → Forall₂ SameSize (as.modify k (modifyAt f pos)) L →
      resolves (some (as.modify k (modifyAt f pos))) P' (x.modifyAt f pos) →
      assignSizes (some L) P'' ((assignSizes (some as) P x).modifyAt f pos) = assignSizes (some
      (as.modify k (modifyAt f pos))) P' (x.modifyAt f pos)) :
    L.map (assignSizes (some L) P'') = (as.modify k (modifyAt f pos)).map
      (assignSizes (some (as.modify k (modifyAt f pos))) P') := by
  have hir : Forall₂ SameSize (as.modify k (modifyAt f pos)) L := by
    rw [hL]
    exact forall₂_modify_map (sameSize_assignSizes _ _)
      (rel_modifyAt congruence_sameSize sameSize_assignSizes hf pos _ _) k
  refine (congrArg (map (assignSizes (some L) P'')) hL).trans
    (map_modify_absorb (fun x hx => ?_) fun x hx => ?_)
  · rw [assignSizes_congr (.some hir) hP]
    exact assignSizes_absorb (by simp) (hr x hx)
  · refine hat x hx hir (hr _ (mem_of_getElem? (i := k) ?_))
    simp [hx]

/-- **Only the last setting of length fields counts**, also when there is an edit between. -/
theorem assignSizes_modifyAt (hf : Blind f) (hF : Option.Rel (Forall₂ SameSize) F' F'')
    (hP : Forall₂ SameSize P' P'') (hnn : F' = none → F = none)
    (hr : resolves F' P' (a.modifyAt f pos)) :
    assignSizes F'' P'' ((assignSizes F P a).modifyAt f pos) =
      assignSizes F' P' (a.modifyAt f pos) := by
  induction pos generalizing F F' F'' P P' P'' a with
  | nil =>
    rw [modifyAt, modifyAt, hf, assignSizes_congr hF hP]
    exact assignSizes_absorb hnn hr
  | cons k pos ih =>
    cases a with
    | ptr t address res =>
      simp only [assignSizes, modifyAt, Arg.ptr.injEq, true_and]
      exact ih hF hP hnn hr
    | union t option =>
      simp only [assignSizes, modifyAt, Arg.union.injEq, true_and]
      exact ih .none .nil (fun _ => rfl) hr
    | struct t inner =>
      simp only [modifyAt, resolves, resolvesAll_eq, all_eq_true] at hr
      simp only [assignSizes, modifyAt, assignSizesArgs_eq, Arg.struct.injEq, true_and]
      have hst := rel_modifyAt congruence_sameSize sameSize_assignSizes hf (k :: pos) F P
        (.struct t inner)
      simp only [assignSizes, modifyAt, assignSizesArgs_eq] at hst
      have hpr : Forall₂ SameSize
          (parentsOf (.struct t (inner.modify k (modifyAt f pos))) F' P')
          (parentsOf (.struct t ((inner.map
            (assignSizes (some inner) (parentsOf (.struct t inner) F P))).modify k
              (modifyAt f pos))) F'' P'') := by
        refine .cons hst ?_
        cases hF with
        | none => exact .nil
        | some => exact hP
      exact map_assignSizes_modify hf rfl hpr hr fun x _ hir hx =>
        ih (.some hir) hpr (by simp) hx
    | array t inner =>
      simp only [modifyAt, resolves, resolvesAll_eq, all_eq_true] at hr
      simp only [assignSizes, modifyAt, assignSizesArgs_eq, Arg.array.injEq, true_and]
      refine map_modify_absorb (fun x hx => assignSizes_absorb (fun _ => rfl) (hr x hx)) ?_
      refine fun x hx => ih .none .nil (fun _ => rfl) (hr _ ?_)
      refine mem_of_getElem? (i := k) ?_
      simp [hx]
    | _ =>
      refine Eq.trans (assignSizes_congr hF hP _) ?_
      exact assignSizes_absorb hnn hr

/-! ### The arguments of a call -/

def settle (args : List Arg) : List Arg := assignSizesArgs (some args) [] args

lemma settle_eq (args : List Arg) : settle args = args.map (assignSizes (some args) []) :=
  assignSizesArgs_eq ..

lemma settle_modifyArgs (hf : Blind f) {args : List Arg}
    (hr : resolvesAll (some (modifyArgs f pos args)) [] (modifyArgs f pos args)) :
    settle (modifyArgs f pos (settle args)) = settle (modifyArgs f pos args) := by
  simp only [resolvesAll_eq, all_eq_true] at hr
  simp only [settle_eq]
  cases pos with
  | nil =>
    simp only [modifyArgs, map_map] at hr ⊢
    refine map_congr_left fun a ha => ?_
    rw [comp_apply, assignSizes_congr (.some (forall₂_assignSizes _ _ args)) .nil]
    exact assignSizes_absorb (by simp) (hr a ha)
  | cons j pos =>
    exact map_assignSizes_modify hf rfl .nil hr fun x _ hir hx =>
      assignSizes_modifyAt hf (.some hir) .nil (by simp) hx

lemma keeps_modifyArgs (hf : Blind f) (pos : List ℕ) (args : List Arg) :
    Forall₂ Keeps (modifyArgs f pos args) (modifyArgs f pos (settle args)) := by
  rw [settle_eq]
  cases pos with
  | nil =>
    exact forall₂_map_right_iff.2 (forall₂_same.2 fun a _ => keeps_assignSizes _ _ a)
  | cons j pos =>
    exact forall₂_modify_map (keeps_assignSizes _ _)
      (rel_modifyAt congruence_keeps keeps_assignSizes hf pos _ _) j

lemma modifyAt_modifyAt (f g : Arg → Arg) (pos : List ℕ) (a : Arg) :
    (a.modifyAt f pos).modifyAt g pos = a.modifyAt (g ∘ f) pos := by
  have hls {k : ℕ} {l : List Arg} {pos : List ℕ}
      (h : ∀ x : Arg, (x.modifyAt f pos).modifyAt g pos = x.modifyAt (g ∘ f) pos) :
      (l.modify k (modifyAt f pos)).modify k (modifyAt g pos) =
        l.modify k (modifyAt (g ∘ f) pos) := by
    rw [modify_modify_eq]
    exact congrArg (l.modify k) (funext h)
  induction pos generalizing a with
  | nil => rfl
  | cons k pos ih =>
    cases a with
    | ptr t address res | union t option => simp only [modifyAt, ih]
    | struct t inner | array t inner => simp only [modifyAt, hls ih]
    | _ => rfl

lemma modifyArgs_modifyArgs (f g : Arg → Arg) (pos : List ℕ) (args : List Arg) :
    modifyArgs g pos (modifyArgs f pos args) = modifyArgs (g ∘ f) pos args := by
  cases pos with
  | nil => rfl
  | cons j pos =>
    rw [modifyArgs, modifyArgs, modify_modify_eq]
    exact congrArg (args.modify j) (funext (modifyAt_modifyAt f g pos))

lemma modifyProg_modifyProg (f g : Arg → Arg) (i : ℕ) (pos : List ℕ) (p : Prog) :
    modifyProg g i pos (modifyProg f i pos p) = modifyProg (g ∘ f) i pos p := by
  simp only [modifyProg, modify_modify_eq, comp_def, modifyArgs_modifyArgs]

/-! ### One call of a program -/

def withArgs (p : Prog) (i : ℕ) (c : Call) (args : List Arg) : Prog :=
  { p with calls := p.calls.set i { c with args := args } }

section WithArgs

variable (hc : p.calls[i]? = some c)
include hc

lemma withArgs_self : withArgs p i c c.args = p := by
  obtain ⟨hi, hget⟩ := List.getElem?_eq_some_iff.1 hc
  subst hget
  exact congrArg (fun calls => Prog.mk calls p.uses) (set_getElem_self hi)

lemma getElem?_withArgs (args : List Arg) :
    (withArgs p i c args).calls[i]? = some { c with args := args } := by
  obtain ⟨hi, -⟩ := List.getElem?_eq_some_iff.1 hc
  simp only [withArgs, getElem?_set_self hi]

lemma modifyProg_withArgs (f : Arg → Arg) (pos : List ℕ) (args : List Arg) :
    modifyProg f i pos (withArgs p i c args) = withArgs p i c (modifyArgs f pos args) := by
  obtain ⟨hi, -⟩ := List.getElem?_eq_some_iff.1 hc
  simp only [modifyProg, withArgs, Prog.mk.injEq, and_true]
  refine ext_getElem? fun j => ?_
  by_cases hj : i = j
  · subst hj
    simp [hi]
  · simp [hj]

lemma assignSizesAt_withArgs (args : List Arg) :
    assignSizesAt i (withArgs p i c args) =
      if allFit args && resolvesAll (some args) [] args then some (withArgs p i c (settle args))
      else none := by
  simp only [assignSizesAt, getElem?_withArgs hc, Option.bind_some, assignSizesCall]
  split
  · simp only [Option.map_some, withArgs, set_set, settle]
  · rfl

lemma argAt_withArgs :
    argAt (withArgs p i c args) i pos = some b ↔
      ∃ j rest a, pos = j :: rest ∧ args[j]? = some a ∧ a.getAt rest = some b := by
  rw [argAt_eq_some]
  simp only [getElem?_withArgs hc, Option.some.injEq]
  constructor
  · rintro ⟨j, rest, _, a, rfl, rfl, ha, hb⟩
    exact ⟨j, rest, a, rfl, ha, hb⟩
  · rintro ⟨j, rest, a, rfl, ha, hb⟩
    exact ⟨j, rest, _, a, rfl, rfl, ha, hb⟩

end WithArgs

lemma modify_self {α : Type*} {f : α → α} {l : List α} (h : ∀ x, l[k]? = some x → f x = x) :
    l.modify k f = l := by
  refine ext_getElem? fun j => ?_
  by_cases hj : k = j
  · subst hj
    cases hx : l[k]? with
    | none => simp [hx]
    | some x => simp [hx, h x hx]
  · simp [hj]

lemma modifyAt_self (h : ∀ b, a.getAt pos = some b → f b = b) : a.modifyAt f pos = a := by
  induction pos generalizing a with
  | nil => exact h a rfl
  | cons k pos ih =>
    cases a with
    | ptr t address res | union t option => rw [modifyAt, ih h]
    | struct t inner | array t inner =>
      rw [modifyAt, modify_self]
      exact fun x hx => ih fun b hb => h b (bind_eq_some_iff.2 ⟨x, hx, hb⟩)
    | _ => rfl

lemma modifyArgs_self {j : ℕ} {rest : List ℕ} (ha : args[j]? = some a)
    (hb : a.getAt rest = some b) (h : f b = b) : modifyArgs f (j :: rest) args = args := by
  refine modify_self fun a' ha' => ?_
  cases ha.symm.trans ha'
  refine modifyAt_self fun b' hb' => ?_
  cases hb.symm.trans hb'
  exact h

lemma modifyProg_undo (hat : argAt p i pos = some b) (h : g (f b) = b) :
    modifyProg g i pos (modifyProg f i pos p) = p := by
  obtain ⟨j, rest, c, a, rfl, hc, ha, hb⟩ := argAt_eq_some.1 hat
  rw [modifyProg_modifyProg]
  refine congrArg (fun calls => Prog.mk calls p.uses) (modify_self fun c' hc' => ?_)
  cases hc.symm.trans hc'
  exact congrArg (fun args => { c with args := args }) (modifyArgs_self (f := g ∘ f) ha hb h)

lemma getAt_modifyAt (h : a.getAt pos = some b) : (a.modifyAt f pos).getAt pos = some (f b) := by
  induction pos generalizing a with
  | nil =>
    cases h
    rfl
  | cons k pos ih =>
    cases a with
    | ptr t address res | union t option => exact ih h
    | struct t inner | array t inner =>
      obtain ⟨x, hx, hb⟩ := bind_eq_some_iff.1 h
      refine bind_eq_some_iff.2 ⟨x.modifyAt f pos, ?_, ih hb⟩
      simp [hx]
    | _ => cases h

lemma argAt_modifyProg (hat : argAt p i pos = some b) :
    argAt (modifyProg f i pos p) i pos = some (f b) := by
  obtain ⟨j, rest, c, a, rfl, hc, ha, hb⟩ := argAt_eq_some.1 hat
  conv_lhs => rw [← withArgs_self hc]
  rw [modifyProg_withArgs hc, argAt_withArgs hc]
  exact ⟨j, rest, a.modifyAt f rest, rfl, by simp [modifyArgs, ha], getAt_modifyAt hb⟩

lemma getAt_assignSizes (h : a.getAt pos = some b) (fs : Option (List Arg)) (ps : List Arg) :
    ∃ fields' ps', (assignSizes fs ps a).getAt pos = some (assignSizes fields' ps' b) := by
  induction pos generalizing a fs ps with
  | nil =>
    cases h
    exact ⟨fs, ps, rfl⟩
  | cons k pos ih =>
    cases a with
    | ptr t address res => exact ih h fs ps
    | union t option => exact ih h none []
    | struct t inner =>
      obtain ⟨x, hx, hb⟩ := bind_eq_some_iff.1 h
      obtain ⟨fields', ps', h'⟩ := ih hb (some inner) (parentsOf (.struct t inner) fs ps)
      refine ⟨fields', ps', ?_⟩
      simp only [assignSizes, assignSizesArgs_eq, Arg.getAt, getElem?_map, hx,
        Option.map_some, Option.bind_some, h']
    | array t inner =>
      obtain ⟨x, hx, hb⟩ := bind_eq_some_iff.1 h
      obtain ⟨fields', ps', h'⟩ := ih hb none []
      refine ⟨fields', ps', ?_⟩
      simp only [assignSizes, assignSizesArgs_eq, Arg.getAt, getElem?_map, hx,
        Option.map_some, Option.bind_some, h']
    | _ => cases h

lemma assignSizesAt_eq_some (hc : p.calls[i]? = some c) (h : assignSizesAt i p = some q) :
    q = withArgs p i c (settle c.args) := by
  rw [← withArgs_self hc, assignSizesAt_withArgs hc] at h
  split at h <;> cases h
  rfl

lemma argAt_assignSizesAt {t : BufferType} {bs : List UInt8} {outSize : ℕ}
    (hat : argAt p i pos = some (.data t bs outSize)) (h : assignSizesAt i p = some q) :
    argAt q i pos = some (.data t bs outSize) := by
  obtain ⟨j, rest, c, a, rfl, hc, ha, hb⟩ := argAt_eq_some.1 hat
  obtain rfl := assignSizesAt_eq_some hc h
  obtain ⟨fields, ps, hget⟩ := getAt_assignSizes hb (some c.args) []
  rw [argAt_withArgs hc, settle_eq]
  exact ⟨j, rest, assignSizes (some c.args) [] a, rfl, by simp [ha], hget⟩

lemma Good.assignSizesAt_idem (h : Good p) (hq : Minimize.assignSizesAt i p = some q) :
    Minimize.assignSizesAt i q = some q := by
  obtain ⟨c, hc, -⟩ := bind_eq_some_iff.1 hq
  have hgd := h.keeps (callKeeps_assignSizesAt hq)
  obtain rfl := assignSizesAt_eq_some hc hq
  have hmem := mem_of_getElem? (getElem?_withArgs hc (settle c.args))
  have hgr := Bool.and_eq_true_iff.2
    ⟨allFit_of_sound (hgd.sound _ hmem), hgd.resolves _ hmem⟩
  have him := @settle_modifyArgs _ [] (blind_setData []) c.args
    (h.resolves c (mem_of_getElem? hc))
  rw [assignSizesAt_withArgs hc, if_pos hgr]
  exact congrArg (fun args => some (withArgs p i c args)) him

/-- **Putting a buffer back** leaves the program with its length fields set. -/
theorem Good.restoreData (h : Good p) {t : BufferType} {bs bs' : List UInt8} {outSize : ℕ}
    (hat : argAt p i pos = some (.data t bs outSize))
    (hq : Minimize.assignSizesAt i (modifyProg (setData bs') i pos p) = some q) :
    Minimize.assignSizesAt i (modifyProg (setData bs) i pos q) = Minimize.assignSizesAt i p := by
  obtain ⟨j, rest, c, a, rfl, hc, ha, hb⟩ := argAt_eq_some.1 hat
  have hun : modifyArgs (setData bs) (j :: rest)
      (modifyArgs (setData bs') (j :: rest) c.args) = c.args := by
    rw [modifyArgs_modifyArgs, modifyArgs_self ha hb rfl]
  have hmem := mem_of_getElem? hc
  have hgr : allFit c.args && resolvesAll (some c.args) [] c.args := by
    rw [allFit_of_sound (h.sound c hmem), h.resolves c hmem]
    rfl
  rw [← withArgs_self hc] at hq
  rw [modifyProg_withArgs hc, assignSizesAt_withArgs hc] at hq
  split at hq <;> cases hq
  -- the call after both edits has its sizes right, as it keeps all inner arguments
  have hkp := keeps_modifyArgs (blind_setData bs) (j :: rest)
    (modifyArgs (setData bs') (j :: rest) c.args)
  rw [hun] at hkp
  have hcl : CallKeeps c (Call.mk c.syscall (modifyArgs (setData bs) (j :: rest)
      (settle (modifyArgs (setData bs') (j :: rest) c.args))) c.ret) :=
    ⟨⟨rfl, rfl, hkp.imp fun _ _ h => h.1⟩, countAll_mono hkp⟩
  have hgr' := Bool.and_eq_true_iff.2
    ⟨allFit_of_sound (hcl.sound (h.sound c hmem)), hcl.resolves (h.resolves c hmem)⟩
  conv_rhs => rw [← withArgs_self hc, assignSizesAt_withArgs hc, if_pos hgr]
  rw [modifyProg_withArgs hc, assignSizesAt_withArgs hc, if_pos hgr',
    settle_modifyArgs (blind_setData bs), hun]
  rw [hun]
  exact h.resolves c hmem

/-! ### Calls whose length fields are right -/

def Calms (p p' : Prog) : Prop :=
  Forall₂ (fun c c' => settle c.args = c.args → settle c'.args = c'.args) p.calls p'.calls

lemma Calms.refl (p : Prog) : Calms p p := forall₂_same.2 fun _ _ h => h

lemma Calms.trans {r : Prog} (h : Calms p q) (h' : Calms q r) : Calms p r :=
  forall₂_trans_mem (fun _ _ _ _ h h' hc => h' (h hc)) h h'

lemma calms_withArgs (hc : p.calls[i]? = some c) (h : settle c.args = c.args → settle args = args) :
    Calms p (withArgs p i c args) :=
  forall₂_set (fun _ h => h) hc h

lemma Good.settle_settle (h : Good p) (hc : p.calls[i]? = some c) :
    settle (settle c.args) = settle c.args :=
  @settle_modifyArgs _ [] (blind_setData []) c.args (h.resolves c (mem_of_getElem? hc))

lemma calms_edit (hgd : Good (modifyProg f i pos p))
    (h : assignSizesAt i (modifyProg f i pos p) = some q) : Calms p q := by
  obtain ⟨d, hd, -⟩ := bind_eq_some_iff.1 h
  obtain ⟨c, hc, rfl⟩ : ∃ c, p.calls[i]? = some c ∧
      { c with args := modifyArgs f pos c.args } = d := by
    simpa [modifyProg] using hd
  rw [assignSizesAt_eq_some hd h]
  have hst := hgd.settle_settle hd
  have hset : withArgs (modifyProg f i pos p) i { c with args := modifyArgs f pos c.args }
      (settle (modifyArgs f pos c.args)) = withArgs p i c (settle (modifyArgs f pos c.args)) := by
    conv_lhs => rw [← withArgs_self hc, modifyProg_withArgs hc]
    simp only [withArgs, set_set]
  rw [hset]
  exact calms_withArgs hc fun _ => hst

lemma calms_assignSizesAt (hgd : Good p) (h : assignSizesAt i p = some q) : Calms p q := by
  obtain ⟨c, hc, -⟩ := bind_eq_some_iff.1 h
  rw [assignSizesAt_eq_some hc h]
  exact calms_withArgs hc fun _ => hgd.settle_settle hc

lemma sameSize_mapResults (f : ResourceType → ResultNode → ResultNode) (a : Arg) :
    SameSize a (a.mapResults f) := by
  induction a with
  | ptr t address res ih => exact ih.ptr t address
  | struct t inner ih =>
    rw [Arg.mapResults, mapAllResults_eq]
    exact sameSize_struct (forall₂_map_right_iff.2 (forall₂_same.2 ih)) t
  | array t inner ih =>
    rw [Arg.mapResults, mapAllResults_eq]
    exact sameSize_array (forall₂_map_right_iff.2 (forall₂_same.2 ih)) t
  | union t option ih => exact ih.union t
  | result t n => exact sameSize_result ..
  | _ => exact .refl _

lemma forall₂_sameSize_mapResults (f : ResourceType → ResultNode → ResultNode) (l : List Arg) :
    Forall₂ SameSize l (l.map (Arg.mapResults f)) :=
  forall₂_map_right_iff.2 (forall₂_same.2 fun a _ => sameSize_mapResults f a)

lemma assignSizes_mapResults (f : ResourceType → ResultNode → ResultNode)
    (fs : Option (List Arg)) (ps : List Arg) (a : Arg) :
    assignSizes fs ps (a.mapResults f) = (assignSizes fs ps a).mapResults f := by
  induction a generalizing fs ps with
  | ptr t address res ih | union t option ih =>
    rw [Arg.mapResults, assignSizes, assignSizes, Arg.mapResults, ih]
  | struct t inner ih =>
    simp only [Arg.mapResults, mapAllResults_eq, assignSizes, assignSizesArgs_eq, map_map,
      Arg.struct.injEq, true_and]
    refine map_congr_left fun a ha => ?_
    rw [comp_apply, comp_apply, ← ih a ha]
    refine assignSizes_congr (.some (forall₂_sameSize_mapResults f inner)) (.cons ?_ ?_) _
    · exact sameSize_struct (forall₂_sameSize_mapResults f inner) t
    · exact forall₂_sameSize_refl _
  | array t inner ih =>
    simp only [Arg.mapResults, mapAllResults_eq, assignSizes, assignSizesArgs_eq, map_map,
      Arg.array.injEq, true_and]
    exact map_congr_left fun a ha => ih a ha none []
  | _ => rfl

lemma calms_mapResults (f : ResourceType → ResultNode → ResultNode)
    (hq : q.calls = p.calls.map (Call.mapResults f)) : Calms p q := by
  unfold Calms
  rw [hq]
  refine forall₂_map_right_iff.2 (forall₂_same.2 fun c _ h => ?_)
  simp only [Call.mapResults, mapAllResults_eq, settle_eq, map_map] at h ⊢
  conv_rhs => rw [← h]
  rw [map_map]
  refine map_congr_left fun a _ => ?_
  rw [comp_apply, comp_apply, ← assignSizes_mapResults,
    assignSizes_congr (.some (forall₂_sameSize_mapResults f c.args)) .nil]

/-- The edit changes no size and no length field. -/
structure Harmless (f : Arg → Arg) (b : Arg) : Prop where
  sameSize : SameSize b (f b)
  assign : ∀ fields ps, assignSizes fields ps (f b) = f (assignSizes fields ps b)

lemma map_modify_comm {B : Arg → Arg} (hAB : ∀ x, B x = A x)
    (h : ∀ x, l[k]? = some x → A (g x) = g (A x)) :
    (l.modify k g).map B = (l.map A).modify k g := by
  obtain rfl : B = A := funext hAB
  refine ext_getElem? fun j => ?_
  by_cases hj : k = j
  · subst hj
    cases hx : l[k]? with
    | none => simp [hx]
    | some x => simp [hx, h x hx]
  · simp [hj]

lemma assignSizes_harmless (h : ∀ b, a.getAt pos = some b → Harmless f b) :
    SameSize a (a.modifyAt f pos) ∧
      ∀ fields ps, assignSizes fields ps (a.modifyAt f pos) =
        (assignSizes fields ps a).modifyAt f pos := by
  induction pos generalizing a with
  | nil => exact ⟨(h a rfl).sameSize, (h a rfl).assign⟩
  | cons k pos ih =>
    cases a with
    | ptr t address res =>
      obtain ⟨hsz, han⟩ := ih h
      refine ⟨hsz.ptr t address, fun fields ps => ?_⟩
      simp only [modifyAt, assignSizes, han]
    | union t option =>
      obtain ⟨hsz, han⟩ := ih h
      refine ⟨hsz.union t, fun fields ps => ?_⟩
      simp only [modifyAt, assignSizes, han]
    | struct t inner =>
      have hx := fun x (hx : inner[k]? = some x) =>
        ih fun b hb => h b (bind_eq_some_iff.2 ⟨x, hx, hb⟩)
      have hir := forall₂_modify SameSize.refl fun x h => (hx x h).1
      refine ⟨sameSize_struct hir t, fun fields ps => ?_⟩
      simp only [modifyAt, assignSizes, assignSizesArgs_eq, Arg.struct.injEq, true_and]
      refine map_modify_comm (fun x => ?_) fun x h => (hx x h).2 _ _
      exact assignSizes_congr (.some hir)
        (.cons (sameSize_struct hir t) (forall₂_sameSize_refl _)) x
    | array t inner =>
      have hx := fun x (hx : inner[k]? = some x) =>
        ih fun b hb => h b (bind_eq_some_iff.2 ⟨x, hx, hb⟩)
      refine ⟨sameSize_array (forall₂_modify SameSize.refl fun x h => (hx x h).1) t,
        fun fields ps => ?_⟩
      simp only [modifyAt, assignSizes, assignSizesArgs_eq, Arg.array.injEq, true_and]
      exact map_modify_comm (fun _ => rfl) fun x h => (hx x h).2 _ _
    | _ => exact ⟨.refl _, fun _ _ => rfl⟩

lemma calms_harmless (hat : argAt p i pos = some b) (h : Harmless f b) :
    Calms p (modifyProg f i pos p) := by
  obtain ⟨j, rest, c, a, rfl, hc, ha, hb⟩ := argAt_eq_some.1 hat
  have hmd :
      modifyProg f i (j :: rest) p = withArgs p i c (modifyArgs f (j :: rest) c.args) := by
    conv_lhs => rw [← withArgs_self hc]
    exact modifyProg_withArgs hc ..
  rw [hmd]
  refine calms_withArgs hc fun hst => ?_
  have hx : ∀ x, c.args[j]? = some x → SameSize x (x.modifyAt f rest) ∧ ∀ fields ps,
      assignSizes fields ps (x.modifyAt f rest) = (assignSizes fields ps x).modifyAt f rest := by
    intro x hx
    cases ha.symm.trans hx
    refine assignSizes_harmless fun b' hb' => ?_
    cases hb.symm.trans hb'
    exact h
  have har := forall₂_modify SameSize.refl fun x h => (hx x h).1
  rw [settle_eq] at hst ⊢
  conv_rhs => rw [← hst]
  exact map_modify_comm (fun x => assignSizes_congr (.some har) .nil x) fun x h => (hx x h).2 _ _

end Razzer.Minimize
