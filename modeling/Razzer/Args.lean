import Mathlib

/-!
Types and arguments of system calls.

An argument is a tree. Its constructors go by the kind of its type, so an argument of a kind
that does not fit its type cannot be written down, and only an optional pointer can be null.
Of a type only what the functions on programs read is kept. Arguments that can be used as a
result carry a reference, which stands for their address: it names the argument in the
program and in all copies of the program.
-/

namespace Razzer.Args

open List

/-! ### Types -/

inductive Dir
  | dirIn | dirOut | dirInOut
  deriving DecidableEq

structure TypeCommon where
  name : String
  fieldName : String
  size : ℕ
  dir : Dir
  optional : Bool
  varlen : Bool

inductive ConstKind
  | const (isPad : Bool)
  | int
  | flags
  | len (bitSize : UInt64) (buf : String)
  | proc
  | csum

/-- How the value of a constant is stored. The last two are of `ProcType`. -/
structure ConstFormat where
  bitfieldOff : UInt64 := 0
  bitfieldLen : UInt64 := 0
  bigEndian : Bool := false
  valuesStart : UInt64 := 0
  valuesPerProc : UInt64 := 0

structure ConstType extends TypeCommon where
  kind : ConstKind
  bitfieldMiddle : Bool
  format : ConstFormat

/-- `Default`; of these types only `ProcType` has a value of its own. -/
def ConstType.default (t : ConstType) : UInt64 :=
  match t.kind with
  | .proc => 0xffffffffffffffff
  | _ => 0

def ConstType.isPad (t : ConstType) : Bool :=
  match t.kind with
  | .const isPad => isPad
  | _ => false

/-- `default` is the first special value of the resource. -/
structure ResourceType extends TypeCommon where
  default : UInt64

inductive BufferKind
  | blobRand | blobRange | string | filename | text
  deriving DecidableEq

structure BufferType extends TypeCommon where
  kind : BufferKind
  rangeBegin : ℕ

inductive ArrayKind
  | randLen | rangeLen
  deriving DecidableEq

structure ArrayType extends TypeCommon where
  kind : ArrayKind
  rangeBegin : ℕ
  rangeEnd : ℕ

/-- `isAny` says that the pointee is the target's array of squashed arguments. -/
structure PtrType extends TypeCommon where
  isAny : Bool

structure VmaType extends TypeCommon

structure StructType extends TypeCommon where
  alignAttr : ℕ

/-- `firstField` is the name of the first option. -/
structure UnionType extends TypeCommon where
  firstField : String

/-! ### Arguments -/

/-- The address of an argument that can be used as a result. -/
abbrev Ref := ℕ

/-- `ResultArg`, without its type and the map of its users. -/
structure ResultNode where
  id : Ref
  res : Option Ref
  opDiv : UInt64
  opAdd : UInt64
  val : UInt64
  deriving DecidableEq

inductive Arg
  | const (t : ConstType) (val : UInt64)
  | ptr (t : PtrType) (address : UInt64) (res : Arg)
  | null (t : PtrType) (h : t.optional = true)
  | vma (t : VmaType) (address vmaSize : UInt64)
  | data (t : BufferType) (bytes : List UInt8) (outSize : ℕ)
  | struct (t : StructType) (inner : List Arg)
  | array (t : ArrayType) (inner : List Arg)
  | union (t : UnionType) (option : Arg)
  | result (t : ResourceType) (n : ResultNode)

/-- Induction on arguments: a property of all inner arguments passes to the outer one. -/
@[elab_as_elim, induction_eliminator]
theorem Arg.induct {P : Arg → Prop} (const : ∀ t val, P (.const t val))
    (ptr : ∀ t address res, P res → P (.ptr t address res)) (null : ∀ t h, P (.null t h))
    (vma : ∀ t address vmaSize, P (.vma t address vmaSize))
    (data : ∀ t bytes outSize, P (.data t bytes outSize))
    (struct : ∀ t inner, (∀ a ∈ inner, P a) → P (.struct t inner))
    (array : ∀ t inner, (∀ a ∈ inner, P a) → P (.array t inner))
    (union : ∀ t option, P option → P (.union t option))
    (result : ∀ t n, P (.result t n)) (a : Arg) : P a :=
  @Arg.rec P (fun l => ∀ a ∈ l, P a) const ptr null vma data struct array union result (by simp)
    (fun _ _ h hs => forall_mem_cons.2 ⟨h, hs⟩) a

namespace Arg

def type : Arg → TypeCommon
  | .const t _ => t.toTypeCommon
  | .ptr t _ _ => t.toTypeCommon
  | .null t _ => t.toTypeCommon
  | .vma t _ _ => t.toTypeCommon
  | .data t _ _ => t.toTypeCommon
  | .struct t _ => t.toTypeCommon
  | .array t _ => t.toTypeCommon
  | .union t _ => t.toTypeCommon
  | .result t _ => t.toTypeCommon

def fieldName (a : Arg) : String := a.type.fieldName

def bitfieldMiddle : Arg → Bool
  | .const t _ => t.bitfieldMiddle
  | _ => false

def isPad : Arg → Bool
  | .const t _ => t.isPad
  | _ => false

end Arg

def dataSize (bytes : List UInt8) (outSize : ℕ) : ℕ :=
  if bytes.length ≠ 0 then bytes.length else outSize

/-- The padding of `GroupArg.Size` for the `align` attribute. -/
def alignUp (alignAttr size : ℕ) : ℕ :=
  if alignAttr ≠ 0 ∧ size % alignAttr ≠ 0 then size + (alignAttr - size % alignAttr) else size

mutual
def Arg.size : Arg → ℕ
  | .const t _ => t.size
  | .ptr t _ _ => t.size
  | .null t _ => t.size
  | .vma t _ _ => t.size
  | .data _ bytes outSize => dataSize bytes outSize
  | .struct t inner => if t.varlen then alignUp t.alignAttr (fieldsSize inner) else t.size
  | .array t inner => if t.varlen then elemsSize inner else t.size
  | .union t option => if t.varlen then option.size else t.size
  | .result t _ => t.size

/-- The fields of a struct; of a group of bitfields only the last one counts. -/
def fieldsSize : List Arg → ℕ
  | [] => 0
  | a :: as => (if a.bitfieldMiddle then 0 else a.size) + fieldsSize as

def elemsSize : List Arg → ℕ
  | [] => 0
  | a :: as => a.size + elemsSize as
end

mutual
/-- The check of `foreachArgImpl`: in a group of a fixed size the inner arguments take up that
size. A group of a variable size always has the room. -/
def Arg.fits : Arg → Bool
  | .ptr _ _ res => res.fits
  | .struct t inner => (t.varlen || decide (fieldsSize inner = t.size)) && allFit inner
  | .array t inner => (t.varlen || decide (fieldsSize inner = t.size)) && allFit inner
  | .union _ option => option.fits
  | _ => true

def allFit : List Arg → Bool
  | [] => true
  | a :: as => a.fits && allFit as
end

mutual
/-- The result arguments below an argument, in the order of `ForeachSubArg`. -/
def Arg.results : Arg → List (ResourceType × ResultNode)
  | .ptr _ _ res => res.results
  | .struct _ inner => allResults inner
  | .array _ inner => allResults inner
  | .union _ option => option.results
  | .result t n => [(t, n)]
  | _ => []

def allResults : List Arg → List (ResourceType × ResultNode)
  | [] => []
  | a :: as => a.results ++ allResults as
end

mutual
def Arg.mapResults (f : ResourceType → ResultNode → ResultNode) : Arg → Arg
  | .ptr t address res => .ptr t address (res.mapResults f)
  | .struct t inner => .struct t (mapAllResults f inner)
  | .array t inner => .array t (mapAllResults f inner)
  | .union t option => .union t (option.mapResults f)
  | .result t n => .result t (f t n)
  | a => a

def mapAllResults (f : ResourceType → ResultNode → ResultNode) : List Arg → List Arg
  | [] => []
  | a :: as => a.mapResults f :: mapAllResults f as
end

mutual
def Arg.count : Arg → ℕ
  | .ptr _ _ res => res.count + 1
  | .struct _ inner => countAll inner + 1
  | .array _ inner => countAll inner + 1
  | .union _ option => option.count + 1
  | _ => 1

def countAll : List Arg → ℕ
  | [] => 0
  | a :: as => a.count + countAll as
end

/-- The argument at a position is changed; a position says which inner argument to go to at
every level. -/
def Arg.modifyAt (f : Arg → Arg) : List ℕ → Arg → Arg
  | [], a => f a
  | _ :: pos, .ptr t address res => .ptr t address (res.modifyAt f pos)
  | _ :: pos, .union t option => .union t (option.modifyAt f pos)
  | k :: pos, .struct t inner => .struct t (inner.modify k (Arg.modifyAt f pos))
  | k :: pos, .array t inner => .array t (inner.modify k (Arg.modifyAt f pos))
  | _ :: _, a => a

def Arg.getAt : List ℕ → Arg → Option Arg
  | [], a => some a
  | _ :: pos, .ptr _ _ res => res.getAt pos
  | _ :: pos, .union _ option => option.getAt pos
  | k :: pos, .struct _ inner => inner[k]?.bind (Arg.getAt pos)
  | k :: pos, .array _ inner => inner[k]?.bind (Arg.getAt pos)
  | _ :: _, _ => none

/-! ### The functions on lists of arguments -/

lemma allFit_eq (l : List Arg) : allFit l = l.all Arg.fits := by
  induction l with
  | nil => rfl
  | cons a l ih => simp [allFit, ih]

lemma allResults_eq (l : List Arg) : allResults l = l.flatMap Arg.results := by
  induction l with
  | nil => rfl
  | cons a l ih => simp [allResults, ih]

lemma mapAllResults_eq (f : ResourceType → ResultNode → ResultNode) (l : List Arg) :
    mapAllResults f l = l.map (Arg.mapResults f) := by
  induction l with
  | nil => rfl
  | cons a l ih => simp [mapAllResults, ih]

lemma Arg.count_pos (a : Arg) : 0 < a.count := by
  cases a <;> simp [Arg.count]

lemma length_le_countAll (as : List Arg) : as.length ≤ countAll as := by
  induction as with
  | nil => exact le_rfl
  | cons a as ih =>
    have := a.count_pos
    rw [length_cons, countAll]
    omega

lemma count_le_countAll {as : List Arg} {a : Arg} (h : a ∈ as) : a.count ≤ countAll as := by
  induction as with
  | nil => cases h
  | cons b as ih =>
    rw [countAll]
    rcases mem_cons.1 h with rfl | h
    · omega
    · have := ih h
      omega

/-! ### Changing results -/

lemma Arg.results_mapResults (f : ResourceType → ResultNode → ResultNode) (a : Arg) :
    (a.mapResults f).results = a.results.map fun x => (x.1, f x.1 x.2) := by
  induction a with
  | struct t inner ih | array t inner ih =>
    simp only [Arg.mapResults, Arg.results, allResults_eq, mapAllResults_eq, flatMap_map,
      map_flatMap]
    exact flatMap_congr ih
  | ptr t address res ih | union t option ih => simpa [Arg.mapResults, Arg.results] using ih
  | _ => simp [Arg.mapResults, Arg.results]

lemma allResults_mapAll (f : ResourceType → ResultNode → ResultNode) (l : List Arg) :
    allResults (mapAllResults f l) = (allResults l).map fun x => (x.1, f x.1 x.2) := by
  simp only [allResults_eq, mapAllResults_eq, flatMap_map, map_flatMap]
  exact flatMap_congr fun a _ => a.results_mapResults f

lemma Arg.mapResults_mapResults (f g : ResourceType → ResultNode → ResultNode) (a : Arg) :
    (a.mapResults f).mapResults g = a.mapResults fun t n => g t (f t n) := by
  induction a with
  | struct t inner ih =>
    simpa only [Arg.mapResults, mapAllResults_eq, map_map, Arg.struct.injEq, true_and,
      map_inj_left, Function.comp_apply] using ih
  | array t inner ih =>
    simpa only [Arg.mapResults, mapAllResults_eq, map_map, Arg.array.injEq, true_and,
      map_inj_left, Function.comp_apply] using ih
  | ptr t address res ih | union t option ih => simpa [Arg.mapResults] using ih
  | _ => rfl

lemma Arg.mapResults_id (a : Arg) : a.mapResults (fun _ n => n) = a := by
  induction a with
  | struct t inner ih =>
    simp only [Arg.mapResults, mapAllResults_eq, Arg.struct.injEq, true_and]
    exact (map_congr_left ih).trans (map_id' inner)
  | array t inner ih =>
    simp only [Arg.mapResults, mapAllResults_eq, Arg.array.injEq, true_and]
    exact (map_congr_left ih).trans (map_id' inner)
  | ptr t address res ih | union t option ih => simpa [Arg.mapResults] using ih
  | _ => rfl

end Razzer.Args
