import Razzer.DecodePrinted

/-!
What a text says about an argument, and what it does not.

The sanitiser of a target may change the value of a constant, and a null region that is not
optional is read as the default one. All else is the same after printing and parsing.
-/

namespace Razzer.Decoding

open Args Progs Encoding Minimize List Bool

/-! ### Constants -/

mutual
def eraseConsts : Arg → Arg
  | .const t val => .const t (if t.isPad then val else t.default)
  | .ptr t address res => .ptr t address (eraseConsts res)
  | .struct t inner => .struct t (eraseAllConsts inner)
  | .array t inner => .array t (eraseAllConsts inner)
  | .union t option => .union t (eraseConsts option)
  | a => a

def eraseAllConsts : List Arg → List Arg
  | [] => []
  | a :: as => eraseConsts a :: eraseAllConsts as
end

lemma eraseAllConsts_eq (as : List Arg) : eraseAllConsts as = as.map eraseConsts := by
  induction as with
  | nil => rfl
  | cons a as ih => rw [eraseAllConsts, map_cons, ih]

lemma type_eraseConsts (a : Arg) : (eraseConsts a).type = a.type := by
  cases a <;> rfl

lemma bitfieldMiddle_eraseConsts (a : Arg) :
    (eraseConsts a).bitfieldMiddle = a.bitfieldMiddle := by
  cases a <;> rfl

lemma argNodes_eraseConsts (a : Arg) : argNodes (eraseConsts a) = argNodes a := by
  induction a with
  | ptr t address res ih | union t option ih => exact ih
  | struct t inner ih | array t inner ih =>
    simp only [eraseConsts, argNodes_struct, argNodes_array, eraseAllConsts_eq, flatMap_map]
    exact flatMap_congr ih
  | _ => rfl

lemma size_eraseConsts (a : Arg) : (eraseConsts a).size = a.size := by
  induction a with
  | struct t inner ih =>
    rw [eraseConsts, eraseAllConsts_eq, Arg.size, Arg.size,
      fieldsSize_map bitfieldMiddle_eraseConsts ih]
  | array t inner ih => rw [eraseConsts, eraseAllConsts_eq, Arg.size, Arg.size, elemsSize_map ih]
  | union t option ih => rw [eraseConsts, Arg.size, Arg.size, ih]
  | _ => rfl

lemma checkConst_default (t : ConstType) : checkConst t t.default := by
  unfold checkConst ConstType.default
  cases t.kind <;> simp

variable {T : Target} {a : Arg}

/-- What is checked of an argument besides its constants. -/
lemma checkArg_eraseConsts (h : checkArg T a) : checkArg T (eraseConsts a) := by
  induction a with
  | const t val =>
    rw [eraseConsts, checkArg]
    split_ifs
    · exact h
    · exact checkConst_default t
  | ptr t address res ih =>
    rw [checkArg, and_eq_true] at h
    rw [eraseConsts, checkArg, size_eraseConsts, h.1, ih h.2]
    rfl
  | struct t inner ih | array t inner ih =>
    simp only [checkArg, checkArgs_eq, eraseConsts, eraseAllConsts_eq, length_map, and_eq_true,
      all_map, all_eq_true] at h ⊢
    simp +contextual [h, ih]
  | union t option ih => exact ih h
  | _ => exact h

/-! ### Null regions -/

mutual
/-- A region is null only where its type is optional. -/
def nullsOptional : Arg → Bool
  | .ptr _ _ res => nullsOptional res
  | .vma t address vmaSize => t.optional || !vmaIsNull address vmaSize
  | .struct _ inner => allNullsOptional inner
  | .array _ inner => allNullsOptional inner
  | .union _ option => nullsOptional option
  | _ => true

def allNullsOptional : List Arg → Bool
  | [] => true
  | a :: as => nullsOptional a && allNullsOptional as
end

lemma allNullsOptional_eq (as : List Arg) : allNullsOptional as = as.all nullsOptional := by
  induction as with
  | nil => rfl
  | cons a as ih => rw [allNullsOptional, all_cons, ih]

mutual
/-- The argument that is read from the text of an argument. -/
def readBack (T : Target) : Arg → Arg
  | .ptr t address res => .ptr t address (readBack T res)
  | .vma t address vmaSize =>
    if t.optional || !vmaIsNull address vmaSize then .vma t address vmaSize
    else .vma t 0 T.pageSize
  | .struct t inner => .struct t (readAllBack T inner)
  | .array t inner => .array t (readAllBack T inner)
  | .union t option => .union t (readBack T option)
  | a => a

def readAllBack (T : Target) : List Arg → List Arg
  | [] => []
  | a :: as => readBack T a :: readAllBack T as
end

lemma readAllBack_eq (T : Target) (as : List Arg) : readAllBack T as = as.map (readBack T) := by
  induction as with
  | nil => rfl
  | cons a as ih => rw [readAllBack, map_cons, ih]

lemma readBack_vma (T : Target) (t : VmaType) (address vmaSize : UInt64) :
    ∃ address' vmaSize', readBack T (.vma t address vmaSize) = .vma t address' vmaSize' := by
  rw [readBack]
  split_ifs
  · exact ⟨_, _, rfl⟩
  · exact ⟨_, _, rfl⟩

lemma type_readBack (a : Arg) : (readBack T a).type = a.type := by
  cases a with
  | vma t address vmaSize =>
    obtain ⟨address', vmaSize', h⟩ := readBack_vma T t address vmaSize
    rw [h]
    rfl
  | _ => rfl

lemma map_eq_self {α : Type} {f : α → α} {l : List α} (h : ∀ a ∈ l, f a = a) : l.map f = l :=
  (map_congr_left h).trans (map_id _)

lemma readBack_eq (h : nullsOptional a) : readBack T a = a := by
  induction a with
  | ptr t address res ih | union t option ih => rw [readBack, ih h]
  | vma t address vmaSize =>
    rw [nullsOptional] at h
    rw [readBack, if_pos h]
  | struct t inner ih | array t inner ih =>
    simp only [nullsOptional, allNullsOptional_eq, all_eq_true] at h
    rw [readBack, readAllBack_eq, map_eq_self fun a ha => ih a ha (h a ha)]
  | _ => rfl

variable {e : Encoder}

/-- A default argument has no null region that is not optional. -/
lemma nullsOptional_of_isDefaultArg (hpg : e.pageSize ≠ 0) (h : isDefaultArg e a) :
    nullsOptional a := by
  induction a with
  | ptr t address res ih | union t option ih =>
    simp only [isDefaultArg, and_eq_true] at h
    exact ih h.2
  | vma t address vmaSize =>
    rw [isDefaultArg] at h
    rw [nullsOptional]
    split_ifs at h with hopt
    · rw [hopt, Bool.true_or]
    · simp only [and_eq_true, beq_iff_eq] at h
      simp [vmaIsNull, h.2, hpg]
  | struct t inner ih | array t inner ih =>
    simp only [isDefaultArg, areDefaultArgs_eq, and_eq_true, all_eq_true] at h
    rw [nullsOptional, allNullsOptional_eq, all_eq_true]
    exact fun a ha => ih a ha (by simp [h, ha])
  | _ => rfl

/-! ### What is parsed -/

section Reparse

variable (T) (ρ : Ref → Ref)

/-- The argument that is parsed from the text, with the references of the second run. -/
def reparse (a : Arg) : Arg := rename ρ (readBack T a)

def readBackCall (c : Call) : Call := { c with args := c.args.map (readBack T) }

def reparseCall (c : Call) : Call := renameCall ρ (readBackCall T c)

lemma reparse_struct (t : StructType) (inner : List Arg) :
    reparse T ρ (.struct t inner) = .struct t (inner.map (reparse T ρ)) := by
  rw [reparse, readBack, rename_struct, readAllBack_eq, map_map]
  rfl

lemma reparse_array (t : ArrayType) (inner : List Arg) :
    reparse T ρ (.array t inner) = .array t (inner.map (reparse T ρ)) := by
  rw [reparse, readBack, rename_array, readAllBack_eq, map_map]
  rfl

lemma type_reparse (a : Arg) : (reparse T ρ a).type = a.type := by
  rw [reparse, type_rename, type_readBack]

lemma reparseCall_eq (c : Call) :
    reparseCall T ρ c = ⟨c.syscall, c.args.map (reparse T ρ), ρ c.ret⟩ := by
  rw [reparseCall, renameCall, readBackCall, map_map]
  rfl

variable {T ρ}

lemma reparse_of_isPad (h : a.isPad) : reparse T ρ a = a := by
  cases a with
  | const t val => rfl
  | _ => cases h

lemma reparse_of_isDefaultArg (hpg : e.pageSize ≠ 0) (h : isDefaultArg e a) :
    reparse T ρ a = rename ρ a := by
  rw [reparse, readBack_eq (nullsOptional_of_isDefaultArg hpg h)]

lemma readBackCall_eq {c : Call} (h : ∀ a ∈ c.args, nullsOptional a = true) :
    readBackCall T c = c := by
  rw [readBackCall, map_eq_self fun a ha => readBack_eq (h a ha)]

end Reparse

end Razzer.Decoding
