import Razzer.DecodeTypes

/-!
Programs with other references.

The references of a program are addresses: printing, the checks and the order of a program do not
depend on which they are, as long as different arguments have different ones.
-/

namespace Razzer.Decoding

open Args Progs Encoding Minimize List

def renameNode (ρ : Ref → Ref) (n : ResultNode) : ResultNode :=
  { n with id := ρ n.id, res := n.res.map ρ }

def rename (ρ : Ref → Ref) (a : Arg) : Arg := a.mapResults fun _ n => renameNode ρ n

def renameCall (ρ : Ref → Ref) (c : Call) : Call :=
  ⟨c.syscall, c.args.map (rename ρ), ρ c.ret⟩

def renamePair (ρ : Ref → Ref) (n : Ref × Option Ref) : Ref × Option Ref := (ρ n.1, n.2.map ρ)

section Rename

variable (ρ : Ref → Ref)

@[simp] lemma rename_ptr (t : PtrType) (adr : UInt64) (res : Arg) :
    rename ρ (.ptr t adr res) = .ptr t adr (rename ρ res) := rfl

@[simp] lemma rename_vma (t : VmaType) (adr vmaSize : UInt64) :
    rename ρ (.vma t adr vmaSize) = .vma t adr vmaSize := rfl

@[simp] lemma rename_data (t : BufferType) (bs : List UInt8) (outSize : ℕ) :
    rename ρ (.data t bs outSize) = .data t bs outSize := rfl

@[simp] lemma rename_struct (t : StructType) (as : List Arg) :
    rename ρ (.struct t as) = .struct t (as.map (rename ρ)) := by
  simp only [rename, Arg.mapResults, mapAllResults_eq]
  rfl

@[simp] lemma rename_array (t : ArrayType) (as : List Arg) :
    rename ρ (.array t as) = .array t (as.map (rename ρ)) := by
  simp only [rename, Arg.mapResults, mapAllResults_eq]
  rfl

@[simp] lemma rename_union (t : UnionType) (option : Arg) :
    rename ρ (.union t option) = .union t (rename ρ option) := rfl

@[simp] lemma rename_result (t : ResourceType) (n : ResultNode) :
    rename ρ (.result t n) = .result t (renameNode ρ n) := rfl

@[simp] lemma type_rename (a : Arg) : (rename ρ a).type = a.type := by
  cases a <;> rfl

@[simp] lemma fieldName_rename (a : Arg) : (rename ρ a).fieldName = a.fieldName := by
  rw [Arg.fieldName, type_rename, Arg.fieldName]

@[simp] lemma isPad_rename (a : Arg) : (rename ρ a).isPad = a.isPad := by
  cases a <;> rfl

lemma argNodes_rename (a : Arg) : argNodes (rename ρ a) = (argNodes a).map (renamePair ρ) := by
  rw [argNodes, rename, Arg.results_mapResults, map_map, argNodes, map_map]
  rfl

lemma nodes_renameCall (c : Call) : (renameCall ρ c).nodes = c.nodes.map (renamePair ρ) := by
  simp only [nodes_call, renameCall, map_cons, flatMap_map, map_flatMap, argNodes_rename]
  rfl

/-! ### Checks -/

lemma bitfieldMiddle_rename (a : Arg) : (rename ρ a).bitfieldMiddle = a.bitfieldMiddle := by
  cases a <;> rfl

lemma fieldsSize_map {f : Arg → Arg} {inner : List Arg}
    (hmid : ∀ a, (f a).bitfieldMiddle = a.bitfieldMiddle) (h : ∀ a ∈ inner, (f a).size = a.size) :
    fieldsSize (inner.map f) = fieldsSize inner := by
  induction inner with
  | nil => rfl
  | cons a inner ih =>
    obtain ⟨ha, hir⟩ := forall_mem_cons.1 h
    rw [map_cons, fieldsSize, fieldsSize, hmid, ha, ih hir]

lemma elemsSize_map {f : Arg → Arg} {inner : List Arg} (h : ∀ a ∈ inner, (f a).size = a.size) :
    elemsSize (inner.map f) = elemsSize inner := by
  induction inner with
  | nil => rfl
  | cons a inner ih =>
    obtain ⟨ha, hir⟩ := forall_mem_cons.1 h
    rw [map_cons, elemsSize, elemsSize, ha, ih hir]

lemma size_rename (a : Arg) : (rename ρ a).size = a.size := by
  induction a with
  | struct t inner ih =>
    rw [rename_struct, Arg.size, Arg.size, fieldsSize_map (bitfieldMiddle_rename ρ) ih]
  | array t inner ih => rw [rename_array, Arg.size, Arg.size, elemsSize_map ih]
  | union t option ih => rw [rename_union, Arg.size, Arg.size, ih]
  | _ => rfl

lemma all_congr_of_mem {α : Type} {p q : α → Bool} {l : List α} (h : ∀ x ∈ l, p x = q x) :
    l.all p = l.all q := by
  induction l with
  | nil => rfl
  | cons x l ih =>
    obtain ⟨hx, hl⟩ := forall_mem_cons.1 h
    rw [all_cons, all_cons, hx, ih hl]

lemma checkArgs_eq (T : Target) (as : List Arg) : checkArgs T as = as.all (checkArg T) := by
  induction as with
  | nil => rfl
  | cons a as ih => rw [checkArgs, all_cons, ih]

lemma checkArg_rename (T : Target) (a : Arg) : checkArg T (rename ρ a) = checkArg T a := by
  induction a with
  | ptr t address res ih => rw [rename_ptr, checkArg, checkArg, size_rename, ih]
  | struct t inner ih =>
    rw [rename_struct, checkArg, checkArg, checkArgs_eq, checkArgs_eq, all_map]
    exact all_congr_of_mem ih
  | array t inner ih =>
    rw [rename_array, checkArg, checkArg, checkArgs_eq, checkArgs_eq, all_map, length_map]
    exact congrArg _ (all_congr_of_mem ih)
  | union t option ih => rw [rename_union, checkArg, checkArg, ih]
  | _ => rfl

end Rename

/-! ### Printing -/

def renamePrinter (ρ : Ref → Ref) (st : Printer) : Printer :=
  { st with vars := st.vars.map fun v => (ρ v.1, v.2) }

lemma lookup_rename {ρ : Ref → Ref} (hρ : ρ.Injective) (vars : List (Ref × ℕ)) (x : Ref) :
    (vars.map fun v => (ρ v.1, v.2)).lookup (ρ x) = vars.lookup x := by
  induction vars with
  | nil => rfl
  | cons v vars ih =>
    have hbeq : (ρ x == ρ v.1) = (x == v.1) := by
      rw [Bool.eq_iff_iff, beq_iff_eq, beq_iff_eq, hρ.eq_iff]
    rw [map_cons, lookup_cons, lookup_cons, hbeq, ih]

/-- The encoder of a program with other references. -/
structure SameUse (ρ : Ref → Ref) (e e' : Encoder) (nodes : List (Ref × Option Ref)) : Prop where
  pageSize : e'.pageSize = e.pageSize
  isUsed : ∀ n ∈ nodes, e'.isUsed (ρ n.1) = e.isUsed n.1

section Printing

variable {ρ : Ref → Ref} {e e' : Encoder}

lemma SameUse.inner {as : List Arg} (h : SameUse ρ e e' (as.flatMap argNodes)) {a : Arg}
    (ha : a ∈ as) : SameUse ρ e e' (argNodes a) :=
  ⟨h.pageSize, fun n hn => h.isUsed n (mem_flatMap.2 ⟨a, ha, hn⟩)⟩

lemma areDefaultArgs_eq (e : Encoder) (as : List Arg) :
    areDefaultArgs e as = as.all (isDefaultArg e) := by
  induction as with
  | nil => rfl
  | cons a as ih => rw [areDefaultArgs, all_cons, ih]

lemma isDefaultArg_rename {a : Arg} (h : SameUse ρ e e' (argNodes a)) :
    isDefaultArg e' (rename ρ a) = isDefaultArg e a := by
  induction a with
  | ptr t address res ih => rw [rename_ptr, isDefaultArg, isDefaultArg, ih h]
  | vma t address vmaSize => rw [rename_vma, isDefaultArg, isDefaultArg, h.pageSize]
  | struct t inner ih =>
    rw [argNodes_struct] at h
    rw [rename_struct, isDefaultArg, isDefaultArg, areDefaultArgs_eq, areDefaultArgs_eq, all_map]
    exact all_congr_of_mem fun a ha => ih a ha (h.inner ha)
  | array t inner ih =>
    rw [argNodes_array] at h
    rw [rename_array, isDefaultArg, isDefaultArg, areDefaultArgs_eq, areDefaultArgs_eq,
      all_map, isEmpty_map]
    exact congrArg _ (all_congr_of_mem fun a ha => ih a ha (h.inner ha))
  | union t option ih => rw [rename_union, isDefaultArg, isDefaultArg, fieldName_rename, ih h]
  | result t n =>
    have hus := h.isUsed (n.id, n.res) (by simp [argNodes, Arg.results])
    simp only [rename_result, isDefaultArg, renameNode, hus, Option.isNone_map]
  | _ => rfl

lemma dropWhile_congr_of_mem {α : Type} {p q : α → Bool} {l : List α}
    (h : ∀ x ∈ l, p x = q x) : l.dropWhile p = l.dropWhile q := by
  induction l with
  | nil => rfl
  | cons x l ih =>
    obtain ⟨hx, hl⟩ := forall_mem_cons.1 h
    rw [dropWhile_cons, dropWhile_cons, hx, ih hl]

lemma printedLen_rename {inner : List Arg} (fixed : Bool)
    (h : ∀ a ∈ inner, isDefaultArg e' (rename ρ a) = isDefaultArg e a) :
    printedLen e' fixed (inner.map (rename ρ)) = printedLen e fixed inner := by
  unfold printedLen
  split_ifs
  · rw [← map_reverse, dropWhile_map, length_map]
    exact congrArg length
      (dropWhile_congr_of_mem fun a ha => h a (mem_reverse.1 ha))
  · exact length_map _

lemma print_rename (st : Printer) (s : String) :
    (renamePrinter ρ st).print s = renamePrinter ρ (st.print s) := rfl

lemma bindVar_rename (st : Printer) (before after : String) (id : Ref) :
    (renamePrinter ρ st).bindVar before after (ρ id) =
      renamePrinter ρ (st.bindVar before after id) := rfl

/-- The text does not depend on the references. -/
def SameText (ρ : Ref → Ref) (e e' : Encoder) (a : Arg) : Prop :=
  ∀ st, serializeArg e' (rename ρ a) (renamePrinter ρ st) =
    (serializeArg e a st).map (renamePrinter ρ)

variable {as : List Arg} {a : Arg} {c : Call} {cs : List Call}

lemma serializeInner_rename (h : ∀ a ∈ as, SameText ρ e e' a) (i n : ℕ) (st : Printer) :
    serializeInner e' i n (as.map (rename ρ)) (renamePrinter ρ st) =
      (serializeInner e i n as st).map (renamePrinter ρ) := by
  induction as generalizing i n st with
  | nil => simp [serializeInner]
  | cons a as ih =>
    obtain ⟨ha, has⟩ := forall_mem_cons.1 h
    cases n with
    | zero => simp [serializeInner]
    | succ n =>
      rw [map_cons, serializeInner, serializeInner, isPad_rename]
      split_ifs
      · exact ih has _ _ st
      · rw [print_rename, ha, Option.map_bind, Option.bind_map]
        exact congrArg _ (funext fun st => ih has _ _ st)
      · rw [ha, Option.map_bind, Option.bind_map]
        exact congrArg _ (funext fun st => ih has _ _ st)

lemma serializeResult_rename (hρ : ρ.Injective) (n : ResultNode) (st : Printer) :
    serializeResult (renameNode ρ n) (renamePrinter ρ st) =
      (serializeResult n st).map (renamePrinter ρ) := by
  obtain ⟨id, _ | x, opDiv, opAdd, val⟩ := n
  · rfl
  · simp only [serializeResult, renameNode, Option.map_some]
    rw [renamePrinter, lookup_rename hρ, Option.map_map]
    rfl

lemma sameText (hρ : ρ.Injective) (h : SameUse ρ e e' (argNodes a)) : SameText ρ e e' a := by
  induction a with
  | ptr t address res ih =>
    intro st
    rw [rename_ptr, serializeArg, serializeArg, isDefaultArg_rename (a := res) h]
    simp only [print_rename]
    split_ifs
    all_goals first | exact ih h _ | rfl
  | vma t address vmaSize =>
    intro st
    rw [rename_vma, serializeArg, serializeArg]
    split_ifs <;> rfl
  | data t bytes outSize =>
    intro st
    rw [rename_data, serializeArg, serializeArg]
    split_ifs <;> rfl
  | struct t inner ih =>
    intro st
    rw [argNodes_struct] at h
    have hdf := fun a ha => isDefaultArg_rename (h.inner (a := a) ha)
    have hir := fun a ha => ih a ha (h.inner ha)
    rw [rename_struct, serializeArg, serializeArg, printedLen_rename true hdf, print_rename,
      serializeInner_rename hir, Option.map_map, Option.map_map]
    rfl
  | array t inner ih =>
    intro st
    rw [argNodes_array] at h
    have hdf := fun a ha => isDefaultArg_rename (h.inner (a := a) ha)
    have hir := fun a ha => ih a ha (h.inner ha)
    rw [rename_array, serializeArg, serializeArg, printedLen_rename _ hdf, print_rename,
      serializeInner_rename hir, Option.map_map, Option.map_map]
    rfl
  | union t option ih =>
    intro st
    rw [rename_union, serializeArg, serializeArg, isDefaultArg_rename (a := option) h,
      fieldName_rename]
    simp only [print_rename]
    split_ifs
    all_goals first | exact ih h _ | rfl
  | result t n =>
    intro st
    have hus := h.isUsed (n.id, n.res) (by simp [argNodes, Arg.results])
    rw [rename_result, serializeArg, serializeArg, ← serializeResult_rename hρ, renameNode, hus]
    split_ifs <;> rfl
  | _ => exact fun st => rfl

lemma serializeCall_rename (hρ : ρ.Injective) (h : SameUse ρ e e' c.nodes) (st : Printer) :
    serializeCall e' (renameCall ρ c) (renamePrinter ρ st) =
      (serializeCall e c st).map (renamePrinter ρ) := by
  rw [nodes_call] at h
  have hret : e'.isUsed (ρ c.ret) = e.isUsed c.ret := h.isUsed _ mem_cons_self
  have har : SameUse ρ e e' (c.args.flatMap argNodes) :=
    ⟨h.pageSize, fun n hn => h.isUsed n (mem_cons_of_mem _ hn)⟩
  have htx := fun a ha => sameText hρ (har.inner (a := a) ha)
  simp only [serializeCall, renameCall, hret, length_map]
  split_ifs
  · rw [bindVar_rename, print_rename, serializeInner_rename htx, Option.map_map, Option.map_map]
    rfl
  · rw [print_rename, serializeInner_rename htx, Option.map_map, Option.map_map]
    rfl

lemma serializeCalls_rename (hρ : ρ.Injective) (h : SameUse ρ e e' (cs.flatMap Call.nodes))
    (st : Printer) :
    serializeCalls e' (cs.map (renameCall ρ)) (renamePrinter ρ st) =
      (serializeCalls e cs st).map (renamePrinter ρ) := by
  induction cs generalizing st with
  | nil => rfl
  | cons c cs ih =>
    have hc : SameUse ρ e e' c.nodes := ⟨h.pageSize, fun n hn => h.isUsed n (by simp [hn])⟩
    have hcs : SameUse ρ e e' (cs.flatMap Call.nodes) :=
      ⟨h.pageSize, fun n hn => h.isUsed n (mem_append_right _ hn)⟩
    rw [map_cons, serializeCalls, serializeCalls, serializeCall_rename hρ hc,
      Option.map_bind, Option.bind_map]
    exact congrArg _ (funext fun st => ih hcs st)

end Printing

variable {ρ : Ref → Ref} {p q : Prog}

/-- **The text of a program does not depend on its references.** -/
theorem serialize_rename (hρ : ρ.Injective) (pageSize : UInt64)
    (hcl : q.calls = p.calls.map (renameCall ρ))
    (hus : ∀ n ∈ p.nodes, q.isUsed (ρ n.1) = p.isUsed n.1) :
    serialize pageSize q = serialize pageSize p := by
  have hsm : SameUse ρ ⟨pageSize, p.isUsed⟩ ⟨pageSize, q.isUsed⟩ p.nodes := ⟨rfl, hus⟩
  have hcs := serializeCalls_rename hρ hsm ⟨[], [], 0⟩
  rw [serialize, serialize, hcl]
  refine (congrArg (Option.map Printer.text) hcs).trans ?_
  rw [Option.map_map]
  rfl

/-! ### Order -/

lemma cloneable_rename (hρ : ρ.Injective) (seen : List Ref) (nodes : List (Ref × Option Ref)) :
    cloneable (seen.map ρ) (nodes.map (renamePair ρ)) = cloneable seen nodes := by
  induction nodes generalizing seen with
  | nil => rfl
  | cons n nodes ih =>
    obtain ⟨y, _ | x⟩ := n
    · exact ih (y :: seen)
    · have hmem : decide (ρ x ∈ seen.map ρ) = decide (x ∈ seen) :=
        decide_eq_decide.2 (mem_map_of_injective hρ)
      rw [cloneable, ← ih (y :: seen), ← hmem]
      rfl

end Razzer.Decoding
