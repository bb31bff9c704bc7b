import Razzer.Progs

/-!
Length fields.

A length field has the size of the field it names: a field next to it, the struct around it
(`parent`), or an enclosing struct by its name. The struct around a field, and so the chain
of enclosing structs, is found through pointers; arrays and unions break the chain. Sizes do
not depend on the values of constants, so all length fields can be set in one pass.
-/

namespace Razzer.Sizes

open Args Progs List UInt64

def innerArg : Arg → Option Arg
  | .ptr _ _ res => innerArg res
  | .null _ _ => none
  | a => some a

def generateSize (a : Option Arg) (bitSize : UInt64) : UInt64 :=
  let bits := if bitSize = 0 then 8 else bitSize
  match a with
  | none => 0
  | some (.vma _ _ vmaSize) => vmaSize * 8 / bits
  | some (.array t inner) =>
    if bitSize ≠ 0 then ofNat (Arg.array t inner).size * 8 / bits
    else ofNat inner.length
  | some a => ofNat a.size * 8 / bits

/-- The field a name stands for; a later field takes the place of an earlier one. -/
def argsMap (args : List Arg) (name : String) : Option Arg :=
  args.reverse.find? fun a => !a.isPad && a.fieldName == name

/-- For template parents, the arguments are stripped. -/
def baseName (name : String) : String := String.ofList (name.toList.takeWhile (· ≠ '['))

def parentSize (bitSize : UInt64) (parent : Arg) : UInt64 :=
  if bitSize ≠ 0 then ofNat parent.size * 8 / bitSize else ofNat parent.size

/-- The value of a length field next to the fields `args`, with the enclosing structs
`parents`, the innermost first. -/
def lenValue (args parents : List Arg) (bitSize : UInt64) (buf : String) : Option UInt64 :=
  match argsMap args buf with
  | some a => some (generateSize (innerArg a) bitSize)
  | none =>
    if buf == "parent" then parents.head?.map (parentSize bitSize)
    else (parents.find? fun s => baseName s.type.name == buf).map (parentSize bitSize)

/-- The enclosing structs of the fields of a struct. Only a struct that is itself a field, or
behind a field, has enclosing structs. -/
def parentsOf (s : Arg) (fields : Option (List Arg)) (parents : List Arg) : List Arg :=
  s :: if fields.isSome then parents else []

def constValue (fields : Option (List Arg)) (parents : List Arg) (t : ConstType)
    (val : UInt64) : UInt64 :=
  match t.kind, fields with
  | .len bitSize buf, some args => (lenValue args parents bitSize buf).getD val
  | _, _ => val

mutual
/-- `assignSizes` for an argument and all structs below it. `fields` are the fields the
argument is one of, if it is one or a pointer leads from one to it. -/
def assignSizes (fields : Option (List Arg)) (parents : List Arg) : Arg → Arg
  | .const t val => .const t (constValue fields parents t val)
  | .ptr t address res => .ptr t address (assignSizes fields parents res)
  | .struct t inner =>
    .struct t (assignSizesArgs (some inner) (parentsOf (.struct t inner) fields parents) inner)
  | .array t inner => .array t (assignSizesArgs none [] inner)
  | .union t option => .union t (assignSizes none [] option)
  | a => a

def assignSizesArgs (fields : Option (List Arg)) (parents : List Arg) : List Arg → List Arg
  | [] => []
  | a :: as => assignSizes fields parents a :: assignSizesArgs fields parents as
end

mutual
/-- Every length field names something; otherwise `assignSizes` is fatal. -/
def resolves (fields : Option (List Arg)) (parents : List Arg) : Arg → Bool
  | .const t _ =>
    match t.kind, fields with
    | .len bitSize buf, some args => (lenValue args parents bitSize buf).isSome
    | _, _ => true
  | .ptr _ _ res => resolves fields parents res
  | .struct t inner =>
    resolvesAll (some inner) (parentsOf (.struct t inner) fields parents) inner
  | .array _ inner => resolvesAll none [] inner
  | .union _ option => resolves none [] option
  | _ => true

def resolvesAll (fields : Option (List Arg)) (parents : List Arg) : List Arg → Bool
  | [] => true
  | a :: as => resolves fields parents a && resolvesAll fields parents as
end

/-- `assignSizesCall`; the walk over the arguments also checks their sizes. -/
def assignSizesCall (c : Call) : Option Call :=
  if allFit c.args && resolvesAll (some c.args) [] c.args then
    some { c with args := assignSizesArgs (some c.args) [] c.args }
  else none

variable {fields : Option (List Arg)} {parents : List Arg}

lemma assignSizesArgs_eq (fs : Option (List Arg)) (parents l : List Arg) :
    assignSizesArgs fs parents l = l.map (assignSizes fs parents) := by
  induction l with
  | nil => rfl
  | cons a l ih => rw [assignSizesArgs, ih, map_cons]

lemma resolvesAll_eq (fs : Option (List Arg)) (parents l : List Arg) :
    resolvesAll fs parents l = l.all (resolves fs parents) := by
  induction l with
  | nil => rfl
  | cons a l ih => rw [resolvesAll, ih, all_cons]

/-! ### What the value of a length field depends on -/

structure SameSize (a b : Arg) : Prop where
  type_eq : b.type = a.type
  isPad_eq : b.isPad = a.isPad
  middle_eq : b.bitfieldMiddle = a.bitfieldMiddle
  size_eq : b.size = a.size
  inner_eq : ∀ bitSize, generateSize (innerArg b) bitSize = generateSize (innerArg a) bitSize

lemma SameSize.refl (a : Arg) : SameSize a a := ⟨rfl, rfl, rfl, rfl, fun _ => rfl⟩

variable {args args' : List Arg} {val : UInt64}

lemma argsMap_congr (h : Forall₂ SameSize args args') (name : String) :
    Option.Rel SameSize (argsMap args name) (argsMap args' name) := by
  unfold argsMap
  have h := forall₂_reverse_iff.2 h
  generalize args.reverse = l at h ⊢
  generalize args'.reverse = l' at h ⊢
  induction h with
  | nil => exact .none
  | @cons a b l l' hab _ ih =>
    simp only [find?_cons, hab.isPad_eq, Arg.fieldName, hab.type_eq]
    split
    · exact .some hab
    · exact ih

variable {ps ps' xs ys : List Arg} {a : Arg} {fields' : Option (List Arg)}

lemma parents_congr (h : Forall₂ SameSize ps ps') (bitSize : UInt64) (buf : String) :
    ps'.head?.map (parentSize bitSize) = ps.head?.map (parentSize bitSize) ∧
    (ps'.find? fun s => baseName s.type.name == buf).map (parentSize bitSize) =
      (ps.find? fun s => baseName s.type.name == buf).map (parentSize bitSize) := by
  induction h with
  | nil => exact ⟨rfl, rfl⟩
  | @cons a b l l' hab _ ih =>
    have hsz : parentSize bitSize b = parentSize bitSize a := by
      unfold parentSize
      rw [hab.size_eq]
    simp only [head?_cons, Option.map_some, hsz, find?_cons, hab.type_eq, true_and]
    split
    · simp only [Option.map_some, hsz]
    · exact ih.2

lemma lenValue_congr (ha : Forall₂ SameSize args args') (hp : Forall₂ SameSize ps ps')
    (bitSize : UInt64) (buf : String) :
    lenValue args' ps' bitSize buf = lenValue args ps bitSize buf := by
  have hrel := argsMap_congr ha buf
  obtain ⟨hhd, hfn⟩ := parents_congr hp bitSize buf
  unfold lenValue
  generalize argsMap args buf = o at hrel ⊢
  generalize argsMap args' buf = o' at hrel ⊢
  cases hrel with
  | some hab => simp only [hab.inner_eq]
  | none => simp only [hhd, hfn]

lemma fieldsSize_congr (h : Forall₂ SameSize xs ys) : fieldsSize ys = fieldsSize xs := by
  induction h with
  | nil => rfl
  | cons hab _ ih => rw [fieldsSize, fieldsSize, ih, hab.size_eq, hab.middle_eq]

lemma elemsSize_congr (h : Forall₂ SameSize xs ys) : elemsSize ys = elemsSize xs := by
  induction h with
  | nil => rfl
  | cons hab _ ih => rw [elemsSize, elemsSize, ih, hab.size_eq]

lemma sameSize_const (t : ConstType) (v v' : UInt64) : SameSize (.const t v) (.const t v') :=
  ⟨rfl, rfl, rfl, rfl, fun _ => rfl⟩

lemma sameSize_result (t : ResourceType) (n n' : ResultNode) :
    SameSize (.result t n) (.result t n') := ⟨rfl, rfl, rfl, rfl, fun _ => rfl⟩

lemma SameSize.ptr {b : Arg} (h : SameSize a b) (t : PtrType) (adr : UInt64) :
    SameSize (.ptr t adr a) (.ptr t adr b) :=
  ⟨rfl, rfl, rfl, rfl, h.inner_eq⟩

lemma SameSize.union {b : Arg} (h : SameSize a b) (t : UnionType) :
    SameSize (.union t a) (.union t b) := by
  have hsz : (Arg.union t b).size = (Arg.union t a).size := by
    simp only [Arg.size, h.size_eq]
  exact ⟨rfl, rfl, rfl, hsz, fun bitSize => by simp only [innerArg, generateSize, hsz]⟩

lemma sameSize_struct (h : Forall₂ SameSize xs ys) (t : StructType) :
    SameSize (.struct t xs) (.struct t ys) := by
  have hsz : (Arg.struct t ys).size = (Arg.struct t xs).size := by
    simp only [Arg.size, fieldsSize_congr h]
  exact ⟨rfl, rfl, rfl, hsz, fun bitSize => by simp only [innerArg, generateSize, hsz]⟩

lemma sameSize_array (h : Forall₂ SameSize xs ys) (t : ArrayType) :
    SameSize (.array t xs) (.array t ys) := by
  have hsz : (Arg.array t ys).size = (Arg.array t xs).size := by
    simp only [Arg.size, elemsSize_congr h]
  exact ⟨rfl, rfl, rfl, hsz, fun bitSize => by
    simp only [innerArg, generateSize, hsz, h.length_eq]⟩

/-- **Setting length fields changes no size.** -/
lemma sameSize_assignSizes (fs : Option (List Arg)) (parents : List Arg) (a : Arg) :
    SameSize a (assignSizes fs parents a) := by
  induction a generalizing fs parents with
  | const t val => exact sameSize_const ..
  | ptr t address res ih => exact (ih fs parents).ptr t address
  | struct t inner ih =>
    rw [assignSizes, assignSizesArgs_eq]
    refine sameSize_struct (forall₂_map_right_iff.2 (forall₂_same.2 fun a ha => ?_)) t
    exact ih a ha _ _
  | array t inner ih =>
    rw [assignSizes, assignSizesArgs_eq]
    refine sameSize_array (forall₂_map_right_iff.2 (forall₂_same.2 fun a ha => ?_)) t
    exact ih a ha _ _
  | union t option ih => exact (ih none []).union t
  | _ => exact .refl _

lemma forall₂_assignSizes (fs : Option (List Arg)) (parents l : List Arg) :
    Forall₂ SameSize l (l.map (assignSizes fs parents)) :=
  forall₂_map_right_iff.2 (forall₂_same.2 fun a _ => sameSize_assignSizes _ _ a)

lemma forall₂_sameSize_refl (l : List Arg) : Forall₂ SameSize l l :=
  forall₂_same.2 fun a _ => .refl a

variable {fs : Option (List Arg)}

lemma constValue_congr
    (hf : Option.Rel (Forall₂ SameSize) fs fields') (hp : Forall₂ SameSize ps ps')
    (t : ConstType) (val : UInt64) : constValue fields' ps' t val = constValue fs ps t val := by
  unfold constValue
  cases hf with
  | none => cases t.kind <;> rfl
  | some ha => cases t.kind <;> simp only [lenValue_congr ha hp]

lemma assignSizes_congr
    (hf : Option.Rel (Forall₂ SameSize) fs fields') (hp : Forall₂ SameSize ps ps')
    (a : Arg) : assignSizes fields' ps' a = assignSizes fs ps a := by
  induction a generalizing fs fields' ps ps' with
  | const t val => rw [assignSizes, assignSizes, constValue_congr hf hp]
  | ptr t address res ih => rw [assignSizes, assignSizes, ih hf hp]
  | struct t inner ih =>
    simp only [assignSizes, assignSizesArgs_eq, Arg.struct.injEq, true_and]
    refine map_congr_left fun a ha => ih a ha (.some (forall₂_sameSize_refl inner)) ?_
    refine .cons (.refl _) ?_
    cases hf with
    | none => exact .nil
    | some => exact hp
  | _ => rfl

lemma constValue_absorb {t : ConstType}
    (hnn : fields' = none → fs = none) (hr : resolves fields' ps' (.const t val)) :
    constValue fields' ps' t (constValue fs ps t val) = constValue fields' ps' t val := by
  unfold constValue
  cases hk : t.kind with
  | len bitSize buf =>
    cases fields' with
    | none => rw [hnn rfl]
    | some args =>
      simp only [resolves, hk] at hr
      obtain ⟨x, hx⟩ := Option.isSome_iff_exists.1 hr
      simp only [hx, Option.getD_some]
  | _ => rfl

/-- **Length fields are set anew.** Setting them twice is setting them the second time. -/
theorem assignSizes_absorb (hnn : fields' = none → fs = none)
    (hr : resolves fields' ps' a) :
    assignSizes fields' ps' (assignSizes fs ps a) = assignSizes fields' ps' a := by
  induction a generalizing fs fields' ps ps' with
  | const t val => rw [assignSizes, assignSizes, constValue_absorb hnn hr, ← assignSizes]
  | ptr t address res ih => rw [assignSizes, assignSizes, assignSizes, ih hnn hr]
  | struct t inner ih =>
    simp only [assignSizes, assignSizesArgs_eq, map_map, Arg.struct.injEq, true_and]
    rw [resolves, resolvesAll_eq, all_eq_true] at hr
    refine map_congr_left fun a ha => ?_
    rw [Function.comp_apply]
    refine Eq.trans (assignSizes_congr (.some (forall₂_assignSizes _ _ inner)) ?_ _)
      (ih a ha (by simp) (hr a ha))
    refine .cons (sameSize_struct (forall₂_assignSizes _ _ inner) t) ?_
    exact forall₂_sameSize_refl _
  | array t inner ih =>
    simp only [assignSizes, assignSizesArgs_eq, map_map, Arg.array.injEq, true_and]
    rw [resolves, resolvesAll_eq, all_eq_true] at hr
    exact map_congr_left fun a ha => ih a ha (fun _ => rfl) (hr a ha)
  | union t option ih => rw [assignSizes, assignSizes, assignSizes, ih (fun _ => rfl) hr]
  | _ => rfl

end Razzer.Sizes
