import Razzer.Sizes

/-!
Trimming arguments.

Minimisation gives an argument other values, less data, fewer array elements and fewer links
to results. What it relies on survives all of this: groups of a fixed size keep their size,
and every length field keeps the field it names.
-/

namespace Razzer.Trim

open Args Progs Sizes List Bool Nat

/-- A result argument as it was, or without the argument it uses. -/
def Frees (n n' : ResultNode) : Prop := n' = n ∨ n'.id = n.id ∧ n'.res = none

/-- `Trims a b`: trimming the argument `a` can give `b`. Data of a fixed size keeps its length
and an array of a fixed size keeps its elements. -/
inductive Trims : Arg → Arg → Prop
  | const (t : ConstType) (v v' : UInt64) : Trims (.const t v) (.const t v')
  | ptr (t : PtrType) (address : UInt64) {a b : Arg} : Trims a b →
      Trims (.ptr t address a) (.ptr t address b)
  | null (t : PtrType) (h : t.optional = true) : Trims (.null t h) (.null t h)
  | vma (t : VmaType) (address vmaSize : UInt64) :
      Trims (.vma t address vmaSize) (.vma t address vmaSize)
  | data (t : BufferType) {bytes bytes' : List UInt8} (outSize : ℕ) :
      bytes'.length ≤ bytes.length → (t.varlen = false → bytes'.length = bytes.length) →
      Trims (.data t bytes outSize) (.data t bytes' outSize)
  | struct (t : StructType) {xs ys : List Arg} : Forall₂ Trims xs ys →
      Trims (.struct t xs) (.struct t ys)
  | array (t : ArrayType) {xs zs ys : List Arg} : zs.Sublist xs →
      (t.varlen = false → zs = xs) → Forall₂ Trims zs ys →
      Trims (.array t xs) (.array t ys)
  | union (t : UnionType) {a b : Arg} : Trims a b → Trims (.union t a) (.union t b)
  | result (t : ResourceType) {n n' : ResultNode} : Frees n n' →
      Trims (.result t n) (.result t n')

variable {α β : Type*} {R : α → β → Prop} {a b : Arg} {l xs ys zs : List Arg}

lemma forall₂_of_mem {S : α → β → Prop} {xs : List α} {ys : List β}
    (hmem : ∀ a ∈ xs, ∀ b, R a b → S a b) (h : Forall₂ R xs ys) : Forall₂ S xs ys :=
  ((forall₂_and_left xs ys).2 ⟨hmem, h⟩).imp fun _ b h => h.1 b h.2

lemma exists_of_forall₂ {xs : List α} {ys : List β} (h : Forall₂ R xs ys) {b : β}
    (hb : b ∈ ys) : ∃ a ∈ xs, R a b := by
  induction h with
  | nil => simp at hb
  | @cons x y xs ys hxy _ ih =>
    rcases mem_cons.1 hb with rfl | hb
    · exact ⟨x, mem_cons_self .., hxy⟩
    · obtain ⟨a, ha, hab⟩ := ih hb
      exact ⟨a, mem_cons_of_mem _ ha, hab⟩

lemma Trims.refl (a : Arg) : Trims a a := by
  induction a with
  | const t v => exact .const t v v
  | ptr t address res ih => exact .ptr t address ih
  | null t h => exact .null t h
  | vma t address vmaSize => exact .vma t address vmaSize
  | data t bytes outSize => exact .data t outSize le_rfl fun _ => rfl
  | struct t inner ih => exact .struct t (forall₂_same.2 ih)
  | array t inner ih =>
    exact .array t (Sublist.refl _) (fun _ => rfl) (forall₂_same.2 ih)
  | union t option ih => exact .union t ih
  | result t n => exact .result t (.inl rfl)

lemma Frees.trans {n n' n'' : ResultNode} (h : Frees n n') (h' : Frees n' n'') : Frees n n'' := by
  rcases h' with rfl | ⟨hid, hres⟩
  · exact h
  · rcases h with rfl | ⟨hid', -⟩
    · exact .inr ⟨hid, hres⟩
    · exact .inr ⟨hid.trans hid', hres⟩

lemma forall₂_trans_mem {R : α → α → Prop} {xs ys zs : List α}
    (hmem : ∀ x ∈ xs, ∀ y z, R x y → R y z → R x z) (h : Forall₂ R xs ys)
    (h' : Forall₂ R ys zs) : Forall₂ R xs zs := by
  induction h generalizing zs with
  | nil => exact h'
  | cons hxy _ ih =>
    rw [forall_mem_cons] at hmem
    cases h' with
    | cons hyz h' => exact .cons (hmem.1 _ _ hxy hyz) (ih hmem.2 h')

lemma exists_sublist_of_forall₂ {xs : List α} {ys ys' : List β} (h : Forall₂ R xs ys)
    (hsub : ys'.Sublist ys) : ∃ xs', xs'.Sublist xs ∧ Forall₂ R xs' ys' := by
  induction h generalizing ys' with
  | nil =>
    obtain rfl := sublist_nil.1 hsub
    exact ⟨[], .slnil, .nil⟩
  | @cons x y xs ys hxy _ ih =>
    cases hsub with
    | cons _ hsub =>
      obtain ⟨xs', hxs', h⟩ := ih hsub
      exact ⟨xs', hxs'.cons x, h⟩
    | cons_cons _ hsub =>
      obtain ⟨xs', hxs', h⟩ := ih hsub
      exact ⟨x :: xs', hxs'.cons_cons x, .cons hxy h⟩

lemma Trims.trans {c : Arg} (h : Trims a b) (h' : Trims b c) : Trims a c := by
  induction a generalizing b c with
  | const t v =>
    cases h
    cases h'
    exact .const ..
  | ptr t address res ih =>
    cases h with
    | ptr _ _ h =>
      cases h' with
      | ptr _ _ h' => exact .ptr t address (ih h h')
  | null t hopt | vma t address vmaSize =>
    cases h
    exact h'
  | data t bytes outSize =>
    cases h with
    | data _ _ hle heq =>
      cases h' with
      | data _ _ hle' heq' =>
        exact .data t outSize (hle'.trans hle) fun hv => (heq' hv).trans (heq hv)
  | struct t inner ih =>
    cases h with
    | struct _ hxs =>
      cases h' with
      | struct _ hys => exact .struct t (forall₂_trans_mem (fun x hx _ _ => ih x hx) hxs hys)
  | array t inner ih =>
    cases h with
    | @array _ _ zs ys hsub hfix hzs =>
      cases h' with
      | @array _ _ zs' ws hsub' hfix' hzs' =>
        obtain ⟨us, hus, hrel⟩ := exists_sublist_of_forall₂ hzs hsub'
        refine .array t (hus.trans hsub) (fun hv => ?_)
          (forall₂_trans_mem (fun x hx _ _ => ih x ((hus.trans hsub).subset hx)) hrel hzs')
        obtain rfl := hfix hv
        obtain rfl := hfix' hv
        exact hus.eq_of_length (hrel.length_eq.trans hzs.length_eq.symm)
  | union t option ih =>
    cases h with
    | union _ h =>
      cases h' with
      | union _ h' => exact .union t (ih h h')
  | result t n =>
    cases h with
    | result _ h =>
      cases h' with
      | result _ h' => exact .result t (h.trans h')

/-- The part of an argument that trimming cannot change. -/
structure SameType (a b : Arg) : Prop where
  type_eq : b.type = a.type
  isPad_eq : b.isPad = a.isPad
  middle_eq : b.bitfieldMiddle = a.bitfieldMiddle

lemma Trims.sameType (h : Trims a b) : SameType a b := by
  cases h <;> exact ⟨rfl, rfl, rfl⟩

/-! ### Length fields -/

variable {args args' ps ps' : List Arg} {f g : Arg → Arg} {k : ℕ} {x : Arg} {pos : List ℕ}

lemma argsMap_isSome (h : Forall₂ SameType args args') (name : String) :
    (argsMap args' name).isSome = (argsMap args name).isSome := by
  unfold argsMap
  have h := forall₂_reverse_iff.2 h
  generalize args.reverse = l at h ⊢
  generalize args'.reverse = l' at h ⊢
  induction h with
  | nil => rfl
  | cons hab _ ih =>
    simp only [find?_cons, hab.isPad_eq, Arg.fieldName, hab.type_eq]
    split
    · rfl
    · exact ih

lemma lenValue_isSome (ha : Forall₂ SameType args args') (hp : Forall₂ SameType ps ps')
    (bitSize : UInt64) (buf : String) :
    (lenValue args' ps' bitSize buf).isSome = (lenValue args ps bitSize buf).isSome := by
  have hhd : ps'.head?.isSome = ps.head?.isSome := by
    cases hp <;> rfl
  have hfn : (ps'.find? fun s => baseName s.type.name == buf).isSome =
      (ps.find? fun s => baseName s.type.name == buf).isSome := by
    clear hhd
    induction hp with
    | nil => rfl
    | cons hab _ ih =>
      simp only [find?_cons, hab.type_eq]
      split
      · rfl
      · exact ih
  have har := argsMap_isSome ha buf
  unfold lenValue
  cases h : argsMap args buf with
  | some a =>
    obtain ⟨b, hb⟩ := Option.isSome_iff_exists.1 (har.trans (by rw [h]; rfl))
    simp only [hb, Option.isSome_some]
  | none =>
    have hb : argsMap args' buf = none := by simpa [h] using har
    simp only [hb]
    split
    · simpa using hhd
    · simpa using hfn

/-- **Trimming keeps what length fields name.** -/
theorem Trims.resolves (h : Trims a b) {fs fields' : Option (List Arg)}
    (hf : Option.Rel (Forall₂ SameType) fs fields') (hp : Forall₂ SameType ps ps')
    (ha : resolves fs ps a) : Sizes.resolves fields' ps' b := by
  induction a generalizing b fs fields' ps ps' with
  | const t v =>
    cases h
    unfold Sizes.resolves at ha ⊢
    cases hf with
    | none => cases t.kind <;> rfl
    | some har => cases hk : t.kind <;> simp_all [lenValue_isSome har hp]
  | ptr t address res ih =>
    cases h with
    | ptr _ _ h => exact ih h hf hp ha
  | null t h' | vma t address vmaSize | data t bytes outSize | result t n =>
    cases h
    rfl
  | struct t inner ih =>
    cases h with
    | @struct _ _ ys hxs =>
      simp only [Sizes.resolves, resolvesAll_eq, all_eq_true] at ha ⊢
      intro y hy
      obtain ⟨x, hx, hxy⟩ := exists_of_forall₂ hxs hy
      refine ih x hx hxy (.some (hxs.imp fun _ _ => Trims.sameType)) ?_ (ha x hx)
      refine .cons ⟨rfl, rfl, rfl⟩ ?_
      cases hf with
      | none => exact .nil
      | some => exact hp
  | array t inner ih =>
    cases h with
    | @array _ _ zs ys hsub _ hzs =>
      simp only [Sizes.resolves, resolvesAll_eq, all_eq_true] at ha ⊢
      intro y hy
      obtain ⟨x, hx, hxy⟩ := exists_of_forall₂ hzs hy
      exact ih x (hsub.subset hx) hxy .none .nil (ha x (hsub.subset hx))
  | union t option ih =>
    cases h with
    | union _ h => exact ih h .none .nil ha

/-! ### Sizes -/

/-- The size of the argument does not change when it is trimmed. -/
def rigid : Arg → Bool
  | .data t _ _ => !t.varlen
  | .struct t _ => !t.varlen
  | .array t _ => !t.varlen
  | .union t _ => !t.varlen
  | _ => true

lemma Trims.rigid (h : Trims a b) (ha : rigid a) : Trim.rigid b ∧ b.size = a.size := by
  cases h with
  | data t outSize hle heq =>
    have hlen := heq (by simpa [Trim.rigid] using ha)
    exact ⟨ha, by simp only [Arg.size, dataSize, hlen]⟩
  | struct t hxs | array t hsub hfix hzs | union t h =>
    have hv : t.varlen = false := by simpa [Trim.rigid] using ha
    exact ⟨ha, by simp only [Arg.size, hv, false_eq_true, if_false]⟩
  | _ => exact ⟨rfl, rfl⟩

def blob (t : BufferType) : Bool :=
  (t.kind == .blobRand || t.kind == .blobRange) && t.dir != .dirOut

mutual
/-- What programs promise about sizes and values: a group of a fixed size consists of
arguments that trimming leaves alone, data and arrays of a fixed size are at their lower
bound, and a result argument that uses another one has no value of its own. -/
def sound : Arg → Bool
  | .ptr _ _ res => sound res
  | .data t bytes _ => t.varlen || !blob t || decide (bytes.length ≤ t.rangeBegin)
  | .struct t inner =>
    (t.varlen || decide (fieldsSize inner = t.size) && inner.all rigid) && soundAll inner
  | .array t inner =>
    (t.varlen || decide (fieldsSize inner = t.size) && inner.all rigid &&
      decide (t.kind = .rangeLen ∧ inner.length ≤ t.rangeBegin)) && soundAll inner
  | .union _ option => sound option
  | .result _ n => n.res.isNone || n.val == 0
  | _ => true

def soundAll : List Arg → Bool
  | [] => true
  | a :: as => sound a && soundAll as
end

lemma soundAll_eq (l : List Arg) : soundAll l = l.all sound := by
  induction l with
  | nil => rfl
  | cons a l ih => rw [soundAll, ih, all_cons]

lemma fits_of_sound (h : sound a) : a.fits := by
  induction a with
  | ptr t address res ih | union t option ih => exact ih h
  | struct t inner ih =>
    simp only [sound, soundAll_eq, and_eq_true, or_eq_true, all_eq_true] at h
    simp only [Arg.fits, allFit_eq, and_eq_true, or_eq_true, all_eq_true]
    exact ⟨h.1.imp_right And.left, fun x hx => ih x hx (h.2 x hx)⟩
  | array t inner ih =>
    simp only [sound, soundAll_eq, and_eq_true, or_eq_true, all_eq_true] at h
    simp only [Arg.fits, allFit_eq, and_eq_true, or_eq_true, all_eq_true]
    exact ⟨h.1.imp_right fun h => h.1.1, fun x hx => ih x hx (h.2 x hx)⟩
  | _ => rfl

lemma allFit_of_sound (h : soundAll l) : allFit l := by
  simp only [soundAll_eq, allFit_eq, all_eq_true] at h ⊢
  exact fun a ha => fits_of_sound (h a ha)

lemma fieldsSize_of_rigid (h : Forall₂ Trims xs ys) (hr : xs.all rigid) :
    fieldsSize ys = fieldsSize xs ∧ ys.all rigid := by
  induction h with
  | nil => exact ⟨rfl, rfl⟩
  | cons hab _ ih =>
    rw [all_cons, and_eq_true] at hr
    obtain ⟨hrig, hsi⟩ := hab.rigid hr.1
    obtain ⟨hsz, hrg⟩ := ih hr.2
    rw [fieldsSize, fieldsSize, hsz, hsi, hab.sameType.middle_eq, all_cons, hrig, hrg]
    exact ⟨rfl, rfl⟩

lemma soundAll_of_trims (hmem : ∀ a ∈ xs, ∀ b, Trims a b → sound a → sound b)
    (h : Forall₂ Trims xs ys) (hx : soundAll xs) : soundAll ys := by
  simp only [soundAll_eq, all_eq_true] at hx ⊢
  intro y hy
  obtain ⟨x, hxm, hxy⟩ := exists_of_forall₂ h hy
  exact hmem x hxm y hxy (hx x hxm)

/-- **Trimming keeps what programs promise about sizes.** -/
theorem Trims.sound (h : Trims a b) (ha : sound a) : Trim.sound b := by
  induction a generalizing b with
  | ptr t address res ih =>
    cases h with
    | ptr _ _ h =>
      rw [Trim.sound] at ha ⊢
      exact ih h ha
  | data t bytes outSize =>
    cases h with
    | data _ _ hle heq =>
      simp only [Trim.sound, or_eq_true, decide_eq_true_eq] at ha ⊢
      exact ha.imp_right hle.trans
  | struct t inner ih =>
    cases h with
    | struct _ hxs =>
      simp only [Trim.sound, and_eq_true, or_eq_true, decide_eq_true_eq] at ha ⊢
      refine ⟨ha.1.imp_right fun hfix => ?_, soundAll_of_trims (fun x hx b => ih x hx) hxs ha.2⟩
      obtain ⟨hsz, hrig⟩ := fieldsSize_of_rigid hxs hfix.2
      exact ⟨hsz.trans hfix.1, hrig⟩
  | array t inner ih =>
    cases h with
    | array _ hsub hfix hzs =>
      simp only [Trim.sound, and_eq_true, or_eq_true, decide_eq_true_eq] at ha ⊢
      have hall := soundAll_of_trims (fun x hx b => ih x (hsub.subset hx)) hzs
      refine ⟨?_, hall ?_⟩
      · rcases ha.1 with hv | hfx
        · exact .inl hv
        · by_cases hv : t.varlen
          · exact .inl hv
          · obtain rfl := hfix (by simpa using hv)
            obtain ⟨hsz, hrig⟩ := fieldsSize_of_rigid hzs hfx.1.2
            exact .inr ⟨⟨hsz.trans hfx.1.1, hrig⟩, hfx.2.1, hzs.length_eq ▸ hfx.2.2⟩
      · have hx := ha.2
        simp only [soundAll_eq, all_eq_true] at hx ⊢
        exact fun x hxm => hx x (hsub.subset hxm)
  | union t option ih =>
    cases h with
    | union _ h =>
      rw [Trim.sound] at ha ⊢
      exact ih h ha
  | result t n =>
    cases h with
    | result _ hfr =>
      rcases hfr with rfl | ⟨-, hres⟩
      · exact ha
      · simp [Trim.sound, hres]
  | _ =>
    cases h
    rfl

/-! ### Counting arguments -/

lemma countAll_le (h : Forall₂ (fun a b => b.count ≤ a.count) xs ys) :
    countAll ys ≤ countAll xs := by
  induction h with
  | nil => exact le_rfl
  | cons hab _ ih => exact Nat.add_le_add hab ih

lemma countAll_sublist (h : zs.Sublist xs) : countAll zs ≤ countAll xs := by
  induction h with
  | slnil => exact le_rfl
  | cons a _ ih => exact ih.trans (Nat.le_add_left ..)
  | cons_cons a _ ih => exact Nat.add_le_add_left ih _

lemma eq_of_countAll (h : zs.Sublist xs) (hc : countAll xs ≤ countAll zs) : zs = xs := by
  induction h with
  | slnil => rfl
  | @cons zs xs a hsub ih =>
    have := countAll_sublist hsub
    have := a.count_pos
    rw [countAll] at hc
    omega
  | cons_cons a _ ih =>
    rw [countAll, countAll] at hc
    rw [ih (by omega)]

lemma Trims.count_le (h : Trims a b) : b.count ≤ a.count := by
  induction a generalizing b with
  | ptr t address res ih =>
    cases h with
    | ptr _ _ h => exact succ_le_succ (ih h)
  | struct t inner ih =>
    cases h with
    | struct _ hxs =>
      exact succ_le_succ (countAll_le (forall₂_of_mem (fun a ha b => ih a ha) hxs))
  | array t inner ih =>
    cases h with
    | array _ hsub _ hzs =>
      refine succ_le_succ (le_trans (countAll_le ?_) (countAll_sublist hsub))
      exact forall₂_of_mem (fun a ha b => ih a (hsub.subset ha)) hzs
  | union t option ih =>
    cases h with
    | union _ h => exact succ_le_succ (ih h)
  | _ =>
    cases h
    exact le_rfl

lemma forall₂_count (h : Forall₂ Trims xs ys) (hc : countAll xs ≤ countAll ys) :
    Forall₂ (fun a b => Trims a b ∧ a.count ≤ b.count) xs ys := by
  induction h with
  | nil => exact .nil
  | @cons a b xs ys hab hxs ih =>
    have hle := hab.count_le
    have hles := countAll_le (hxs.imp fun _ _ h => h.count_le)
    rw [countAll, countAll] at hc
    exact .cons ⟨hab, by omega⟩ (ih (by omega))

lemma forall₂_of_array (hsub : zs.Sublist xs) (hzs : Forall₂ Trims zs ys)
    (hc : countAll xs ≤ countAll ys) :
    Forall₂ (fun a b => Trims a b ∧ a.count ≤ b.count) xs ys := by
  have hle := countAll_le (hzs.imp fun _ _ h => h.count_le)
  obtain rfl := eq_of_countAll hsub (by omega)
  exact forall₂_count hzs hc

/-! ### Results -/

def FreesAll (xs ys : List (ResourceType × ResultNode)) : Prop :=
  Forall₂ (fun x y => y.1 = x.1 ∧ Frees x.2 y.2) xs ys

lemma freesAll_flatMap (h : Forall₂ (fun a b => FreesAll a.results b.results) xs ys) :
    FreesAll (allResults xs) (allResults ys) := by
  induction h with
  | nil => exact .nil
  | cons hab _ ih => exact rel_append hab ih

lemma Trims.results (h : Trims a b) (hc : a.count ≤ b.count) : FreesAll a.results b.results := by
  induction a generalizing b with
  | ptr t address res ih =>
    cases h with
    | ptr _ _ h =>
      rw [Arg.results, Arg.results]
      exact ih h (le_of_succ_le_succ hc)
  | struct t inner ih =>
    cases h with
    | struct _ hxs =>
      have hall := forall₂_count hxs (le_of_succ_le_succ hc)
      exact freesAll_flatMap (forall₂_of_mem (fun a ha b h => ih a ha h.1 h.2) hall)
  | array t inner ih =>
    cases h with
    | array _ hsub _ hzs =>
      have hall := forall₂_of_array hsub hzs (le_of_succ_le_succ hc)
      exact freesAll_flatMap (forall₂_of_mem (fun a ha b h => ih a ha h.1 h.2) hall)
  | union t option ih =>
    cases h with
    | union _ h =>
      rw [Arg.results, Arg.results]
      exact ih h (le_of_succ_le_succ hc)
  | result t n =>
    cases h with
    | result _ hfr => exact .cons ⟨rfl, hfr⟩ .nil
  | _ =>
    cases h
    exact .nil

/-! ### Edits that trim -/

lemma trims_mapResults {f : ResourceType → ResultNode → ResultNode} (hf : Resets f) (a : Arg) :
    Trims a (a.mapResults f) := by
  induction a with
  | ptr t address res ih => exact .ptr t address ih
  | struct t inner ih =>
    rw [Arg.mapResults, mapAllResults_eq]
    exact .struct t (forall₂_map_right_iff.2 (forall₂_same.2 ih))
  | array t inner ih =>
    rw [Arg.mapResults, mapAllResults_eq]
    exact .array t (Sublist.refl _) (fun _ => rfl)
      (forall₂_map_right_iff.2 (forall₂_same.2 ih))
  | union t option ih => exact .union t ih
  | result t n =>
    refine .result t ?_
    rcases hf t n with h | h <;> rw [h]
    · exact .inl rfl
    · exact .inr ⟨rfl, rfl⟩
  | _ => exact .refl _

lemma trims_assignSizes (fs : Option (List Arg)) (ps : List Arg) (a : Arg) :
    Trims a (assignSizes fs ps a) := by
  induction a generalizing fs ps with
  | const t val => exact .const ..
  | ptr t address res ih => exact .ptr t address (ih _ _)
  | struct t inner ih =>
    rw [assignSizes, assignSizesArgs_eq]
    exact .struct t (forall₂_map_right_iff.2 (forall₂_same.2 fun a ha => ih a ha _ _))
  | array t inner ih =>
    rw [assignSizes, assignSizesArgs_eq]
    exact .array t (Sublist.refl _) (fun _ => rfl)
      (forall₂_map_right_iff.2 (forall₂_same.2 fun a ha => ih a ha _ _))
  | union t option ih => exact .union t (ih _ _)
  | _ => exact .refl _

lemma countAll_map (h : ∀ a ∈ l, (g a).count = a.count) : countAll (l.map g) = countAll l := by
  induction l with
  | nil => rfl
  | cons a l ih =>
    rw [forall_mem_cons] at h
    rw [map_cons, countAll, countAll, h.1, ih h.2]

lemma count_assignSizes (fs : Option (List Arg)) (ps : List Arg) (a : Arg) :
    (assignSizes fs ps a).count = a.count := by
  induction a generalizing fs ps with
  | ptr t address res ih | union t option ih => rw [assignSizes, Arg.count, Arg.count, ih]
  | struct t inner ih | array t inner ih =>
    rw [assignSizes, assignSizesArgs_eq, Arg.count, Arg.count, countAll_map fun a ha => ih a ha _ _]
  | _ => rfl

lemma count_mapResults (f : ResourceType → ResultNode → ResultNode) (a : Arg) :
    (a.mapResults f).count = a.count := by
  induction a with
  | ptr t address res ih | union t option ih => rw [Arg.mapResults, Arg.count, Arg.count, ih]
  | struct t inner ih | array t inner ih =>
    rw [Arg.mapResults, mapAllResults_eq, Arg.count, Arg.count, countAll_map ih]
  | _ => rfl

lemma forall₂_modify {R : α → α → Prop} (hrf : ∀ x, R x x) {l : List α} {g : α → α}
    (hk : ∀ x, l[k]? = some x → R x (g x)) : Forall₂ R l (l.modify k g) := by
  induction l generalizing k with
  | nil => simp
  | cons a l ih =>
    cases k with
    | zero => exact .cons (hk a rfl) (forall₂_same.2 fun x _ => hrf x)
    | succ k => exact .cons (hrf a) (ih hk)

lemma trims_modifyAt
    (h : ∀ b, a.getAt pos = some b → Trims b (f b)) : Trims a (a.modifyAt f pos) := by
  induction pos generalizing a with
  | nil => exact h a rfl
  | cons k pos ih =>
    cases a with
    | ptr t address res => exact .ptr t address (ih h)
    | union t option => exact .union t (ih h)
    | struct t inner =>
      refine .struct t (forall₂_modify Trims.refl fun x hx => ih fun b hb => h b ?_)
      rw [Arg.getAt, hx, Option.bind_some, hb]
    | array t inner =>
      refine .array t (Sublist.refl _) (fun _ => rfl)
        (forall₂_modify Trims.refl fun x hx => ih fun b hb => h b ?_)
      rw [Arg.getAt, hx, Option.bind_some, hb]
    | _ => exact .refl _

lemma countAll_modify (hx : l[k]? = some x) (g : Arg → Arg) :
    countAll (l.modify k g) + x.count = countAll l + (g x).count := by
  induction l generalizing k with
  | nil => simp at hx
  | cons a l ih =>
    cases k with
    | zero =>
      obtain rfl : a = x := by simpa using hx
      simp only [modify_zero_cons, countAll]
      omega
    | succ k =>
      have := ih (k := k) (by simpa using hx)
      simp only [modify_succ_cons, countAll]
      omega

lemma count_modifyAt (h : a.getAt pos = some b) :
    (a.modifyAt f pos).count + b.count = a.count + (f b).count := by
  induction pos generalizing a with
  | nil =>
    cases h
    rw [Arg.modifyAt, Nat.add_comm]
  | cons k pos ih =>
    cases a with
    | ptr t address res | union t option =>
      have := ih h
      simp only [Arg.modifyAt, Arg.count]
      omega
    | struct t inner | array t inner =>
      obtain ⟨x, hx, hb⟩ := Option.bind_eq_some_iff.1 h
      have := ih hb
      have := countAll_modify hx (Arg.modifyAt f pos)
      simp only [Arg.modifyAt, Arg.count]
      omega
    | _ => cases h

end Razzer.Trim
