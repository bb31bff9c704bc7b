import Razzer.Heaps
import Razzer.Renaming

/-!
Programs in memory, and `Clone` on them, of `clone.go`.

What a pointer of the source points to is a cell of the heap: arguments, calls and programs, the
arrays behind slices and the maps of users. Types and descriptions of calls never change and are not
on the heap. `*a1 = *a` copies the pointers of a cell, so the copy shares what it points to until
these pointers are replaced. An array is put on the heap when it is full, and a nil slice is one of
an empty array.
-/

namespace Razzer.CloneHeap

open Args Progs Minimize Decoding Heaps List

abbrev Addr := ℕ

structure Slice where
  array : Addr
  off : ℕ
  len : ℕ

def Slice.view {α : Type} (sl : Slice) (xs : List α) : List α := (xs.drop sl.off).take sl.len

/-- A cell. The field `uses` of an argument points to the map of its users. -/
inductive Obj
  | const (t : ConstType) (val : UInt64)
  | pointer (t : PtrType) (address : UInt64) (res : Option Addr)
  | vma (t : VmaType) (address vmaSize : UInt64)
  | data (t : BufferType) (data : Slice) (size : ℕ)
  | struct (t : StructType) (inner : Slice)
  | array (t : ArrayType) (inner : Slice)
  | union (t : UnionType) (option : Addr)
  | result (t : ResourceType) (res : Option Addr) (opDiv opAdd val : UInt64) (uses : Option Addr)
  | ret (uses : Option Addr)
  | bytes (bs : List UInt8)
  | ptrs (as : List Addr)
  | users (us : Finset Addr)
  | call (syscall : Syscall) (args : Slice) (ret : Addr)
  | prog (calls : Slice)

namespace Obj

def refs : Obj → Finset Addr
  | const .. | vma .. | bytes _ => ∅
  | pointer _ _ res => res.toFinset
  | data _ sl _ => {sl.array}
  | struct _ inner => {inner.array}
  | array _ inner => {inner.array}
  | union _ option => {option}
  | result _ res _ _ _ uses => res.toFinset ∪ uses.toFinset
  | ret uses => uses.toFinset
  | ptrs as => as.toFinset
  | users us => us
  | call _ args r => {args.array, r}
  | prog calls => {calls.array}

def used : Obj → Option (Option Addr)
  | result _ _ _ _ _ uses => some uses
  | ret uses => some uses
  | _ => none

def withUses (uses : Option Addr) : Obj → Obj
  | result t res opDiv opAdd val _ => result t res opDiv opAdd val uses
  | ret _ => ret uses
  | o => o

end Obj

/-! ### Memory -/

inductive Fault
  | panic
  | fuel
  deriving DecidableEq

structure Mem where
  heap : List Obj
  newargs : List (Addr × Addr)

abbrev M := StateT Mem (Except Fault)

def fault {α : Type} (e : Fault) : M α := fun _ => .error e

def load (a : Addr) : M Obj := fun s =>
  match s.heap[a]? with
  | some o => .ok (o, s)
  | none => .error .panic

def alloc (o : Obj) : M Addr := fun s => .ok (s.heap.length, { s with heap := s.heap ++ [o] })

def store (a : Addr) (o : Obj) : M Unit := fun s =>
  .ok ((), { s with heap := s.heap.set a o })

def loadBytes (sl : Slice) : M (List UInt8) := do
  match ← load sl.array with
  | .bytes bs => pure (sl.view bs)
  | _ => fault .panic

def loadPtrs (sl : Slice) : M (List Addr) := do
  match ← load sl.array with
  | .ptrs as => pure (sl.view as)
  | _ => fault .panic

def newBytes (bs : List UInt8) : M Slice := do
  let array ← alloc (.bytes bs)
  pure ⟨array, 0, bs.length⟩

def newPtrs (as : List Addr) : M Slice := do
  let array ← alloc (.ptrs as)
  pure ⟨array, 0, as.length⟩

/-- `newargs[x]`, which is then taken for an argument that can be used. -/
def referent (x : Addr) : M Addr := fun s =>
  match s.newargs.lookup x with
  | some r => .ok (r, s)
  | none => .error .panic

def remember (arg arg1 : Addr) : M Unit := fun s =>
  .ok ((), { s with newargs := (arg, arg1) :: s.newargs })

/-! ### `Clone` -/

def addUser (uses y : Addr) : M Unit := do
  match ← load uses with
  | .users us => store uses (.users (insert y us))
  | _ => fault .panic

/-- The copy `arg1` becomes a user of `r`, whose map is made first if there is none. -/
def register (r arg1 : Addr) : M Unit := do
  let o ← load r
  match o.used with
  | none => fault .panic
  | some none => do
    let uses ← alloc (.users ∅)
    store r (o.withUses (some uses))
    addUser uses arg1
  | some (some uses) => addUser uses arg1

def useReferent (arg1 : Addr) : M Unit := do
  match ← load arg1 with
  | .result t (some x) opDiv opAdd val uses => do
    let r ← referent x
    store arg1 (.result t (some r) opDiv opAdd val uses)
    register r arg1
  | _ => pure ()

/-- The users of a copy are filled in when they are copied. -/
def resetUses (arg arg1 : Addr) : M Unit := do
  let o ← load arg1
  if o.used.isSome then do
    store arg1 (o.withUses none)
    remember arg arg1
  else pure ()

def cloneEach (f : Addr → M Addr) : List Addr → M (List Addr)
  | [] => pure []
  | a :: as => do
    let a1 ← f a
    let as1 ← cloneEach f as
    pure (a1 :: as1)

def cloneFields (f : Addr → M Addr) (arg1 : Addr) : Obj → M Unit
  | .const .. | .vma .. | .pointer _ _ none | .result .. | .ret _ => pure ()
  | .pointer t address (some res) => do
    let res1 ← f res
    store arg1 (.pointer t address (some res1))
  | .data t data size => do
    let bytes ← loadBytes data
    let data1 ← newBytes bytes
    store arg1 (.data t data1 size)
  | .struct t inner => do
    let elems ← loadPtrs inner
    let elems1 ← cloneEach f elems
    let inner1 ← newPtrs elems1
    store arg1 (.struct t inner1)
  | .array t inner => do
    let elems ← loadPtrs inner
    let elems1 ← cloneEach f elems
    let inner1 ← newPtrs elems1
    store arg1 (.array t inner1)
  | .union t option => do
    let option1 ← f option
    store arg1 (.union t option1)
  | .bytes _ | .ptrs _ | .users _ | .call .. | .prog _ => fault .panic

/-- `clone`, with a bound on the depth of the recursion. -/
def clone : ℕ → Addr → M Addr
  | 0, _ => fault .fuel
  | fuel + 1, arg => do
    let o ← load arg
    let arg1 ← alloc o
    cloneFields (clone fuel) arg1 o
    useReferent arg1
    resetUses arg arg1
    pure arg1

def cloneCall (fuel : ℕ) (c : Addr) : M Addr := do
  match ← load c with
  | .call syscall args ret => do
    let ret1 ← clone fuel ret
    let elems ← loadPtrs args
    let elems1 ← cloneEach (clone fuel) elems
    let args1 ← newPtrs elems1
    alloc (.call syscall args1 ret1)
  | _ => fault .panic

def cloneProg (fuel : ℕ) (p : Addr) : M Addr := do
  match ← load p with
  | .prog calls => do
    let elems ← loadPtrs calls
    let elems1 ← cloneEach (cloneCall fuel) elems
    let calls1 ← newPtrs elems1
    alloc (.prog calls1)
  | _ => fault .panic

/-- `Clone` of the program at address `p`: the copy and the heap. -/
def Clone (fuel : ℕ) (heap : List Obj) (p : Addr) : Except Fault (Addr × List Obj) :=
  (cloneProg fuel p ⟨heap, []⟩).map fun x => (x.1, x.2.heap)

/-! ### The program at an address -/

/-- A cell without what says who uses it. -/
def Obj.shape : Obj → Obj
  | .users _ => .users ∅
  | o => o.withUses none

def ShapeAt (heap : List Obj) (a : Addr) (o : Obj) : Prop :=
  ∃ o', heap[a]? = some o' ∧ o'.shape = o

def PtrsAt (heap : List Obj) (lo : ℕ) (sl : Slice) (as : List Addr) : Prop :=
  lo ≤ sl.array ∧ ∃ array, ShapeAt heap sl.array (.ptrs array) ∧ sl.view array = as

def BytesAt (heap : List Obj) (lo : ℕ) (sl : Slice) (bs : List UInt8) : Prop :=
  lo ≤ sl.array ∧ ∃ array, ShapeAt heap sl.array (.bytes array) ∧ sl.view array = bs

mutual
/-- The argument at an address, all of whose cells are at or behind `lo`. The reference of a result
is its address. -/
def ArgAt (heap : List Obj) (lo : ℕ) : Arg → Addr → Prop
  | .const t val, a => lo ≤ a ∧ ShapeAt heap a (.const t val)
  | .ptr t address res, a =>
    lo ≤ a ∧ ∃ r, ShapeAt heap a (.pointer t address (some r)) ∧ ArgAt heap lo res r
  | .null t _, a => lo ≤ a ∧ ShapeAt heap a (.pointer t 0 none)
  | .vma t address vmaSize, a => lo ≤ a ∧ ShapeAt heap a (.vma t address vmaSize)
  | .data t bytes outSize, a =>
    lo ≤ a ∧ ∃ sl, ShapeAt heap a (.data t sl outSize) ∧ BytesAt heap lo sl bytes
  | .struct t inner, a =>
    lo ≤ a ∧ ∃ sl as, ShapeAt heap a (.struct t sl) ∧ PtrsAt heap lo sl as ∧ ArgsAt heap lo inner as
  | .array t inner, a =>
    lo ≤ a ∧ ∃ sl as, ShapeAt heap a (.array t sl) ∧ PtrsAt heap lo sl as ∧ ArgsAt heap lo inner as
  | .union t option, a =>
    lo ≤ a ∧ ∃ r, ShapeAt heap a (.union t r) ∧ ArgAt heap lo option r
  | .result t n, a =>
    lo ≤ a ∧ a = n.id ∧ ShapeAt heap a (.result t n.res n.opDiv n.opAdd n.val none)

def ArgsAt (heap : List Obj) (lo : ℕ) : List Arg → List Addr → Prop
  | [], [] => True
  | x :: xs, a :: as => ArgAt heap lo x a ∧ ArgsAt heap lo xs as
  | _, _ => False
end

structure CallAt (heap : List Obj) (lo : ℕ) (c : Call) (a : Addr) : Prop where
  le : lo ≤ a
  args : ∃ sl as, ShapeAt heap a (.call c.syscall sl c.ret) ∧ PtrsAt heap lo sl as ∧
    ArgsAt heap lo c.args as
  ret : lo ≤ c.ret ∧ ShapeAt heap c.ret (.ret none)

def CallsAt (heap : List Obj) (lo : ℕ) (cs : List Call) (root : Addr) : Prop :=
  lo ≤ root ∧ ∃ sl as, ShapeAt heap root (.prog sl) ∧ PtrsAt heap lo sl as ∧
    Forall₂ (CallAt heap lo) cs as

def UsersAt (heap : List Obj) (a : Addr) (us : Finset Addr) : Prop :=
  ∃ o, heap[a]? = some o ∧ (o.used = some none ∧ us = ∅ ∨
    ∃ uses, o.used = some (some uses) ∧ heap[uses]? = some (.users us))

structure ProgAt (heap : List Obj) (root : Addr) (p : Prog) : Prop where
  calls : CallsAt heap 0 p.calls root
  users : ∀ n ∈ p.nodes, ∃ us, UsersAt heap n.1 us ∧ ∀ y, (n.1, y) ∈ p.uses ↔ y ∈ us
  inside : ∀ u ∈ p.uses, ∃ n ∈ p.nodes, n.1 = u.1

/-! ### There is one program at an address -/

variable {a lo root : ℕ} {as as' : List Addr}

lemma argsAt_iff {heap : List Obj} {xs : List Arg} :
    ArgsAt heap lo xs as ↔ Forall₂ (ArgAt heap lo) xs as := by
  induction xs generalizing as with
  | nil => cases as <;> simp [ArgsAt]
  | cons x xs ih =>
    cases as with
    | nil => simp [ArgsAt]
    | cons a as => rw [ArgsAt, forall₂_cons, ih]

lemma ShapeAt.unique {heap : List Obj} {o o' : Obj} (h : ShapeAt heap a o)
    (h' : ShapeAt heap a o') : o = o' := by
  obtain ⟨c, hc, rfl⟩ := h
  obtain ⟨c', hc', rfl⟩ := h'
  cases hc.symm.trans hc'
  rfl

inductive ArgBy (heap : List Obj) (lo : ℕ) (a : Addr) : Obj → Arg → Prop
  | const (t : ConstType) (val : UInt64) : ArgBy heap lo a (.const t val) (.const t val)
  | ptr (t : PtrType) (address : UInt64) {r : Addr} {res : Arg} (h : ArgAt heap lo res r) :
      ArgBy heap lo a (.pointer t address (some r)) (.ptr t address res)
  | null (t : PtrType) (h : t.optional = true) : ArgBy heap lo a (.pointer t 0 none) (.null t h)
  | vma (t : VmaType) (address vmaSize : UInt64) :
      ArgBy heap lo a (.vma t address vmaSize) (.vma t address vmaSize)
  | data (t : BufferType) (outSize : ℕ) {sl : Slice} {bytes : List UInt8}
      (h : BytesAt heap lo sl bytes) : ArgBy heap lo a (.data t sl outSize) (.data t bytes outSize)
  | struct (t : StructType) {sl : Slice} {as : List Addr} {inner : List Arg}
      (hp : PtrsAt heap lo sl as) (h : Forall₂ (ArgAt heap lo) inner as) :
      ArgBy heap lo a (.struct t sl) (.struct t inner)
  | array (t : ArrayType) {sl : Slice} {as : List Addr} {inner : List Arg}
      (hp : PtrsAt heap lo sl as) (h : Forall₂ (ArgAt heap lo) inner as) :
      ArgBy heap lo a (.array t sl) (.array t inner)
  | union (t : UnionType) {r : Addr} {option : Arg} (h : ArgAt heap lo option r) :
      ArgBy heap lo a (.union t r) (.union t option)
  | result (t : ResourceType) (res : Option Ref) (opDiv opAdd val : UInt64) :
      ArgBy heap lo a (.result t res opDiv opAdd val none) (.result t ⟨a, res, opDiv, opAdd, val⟩)

variable {heap : List Obj} {x : Arg}

lemma ArgAt.by_cell (h : ArgAt heap lo x a) : ∃ o, ShapeAt heap a o ∧ ArgBy heap lo a o x := by
  cases x with
  | const t val => exact ⟨_, h.2, .const t val⟩
  | ptr t address res =>
    obtain ⟨-, r, ho, hr⟩ := h
    exact ⟨_, ho, .ptr t address hr⟩
  | null t ht => exact ⟨_, h.2, .null t ht⟩
  | vma t address vmaSize => exact ⟨_, h.2, .vma t address vmaSize⟩
  | data t bytes outSize =>
    obtain ⟨-, sl, ho, hb⟩ := h
    exact ⟨_, ho, .data t outSize hb⟩
  | struct t inner =>
    obtain ⟨-, sl, as, ho, hp, has⟩ := h
    exact ⟨_, ho, .struct t hp (argsAt_iff.1 has)⟩
  | array t inner =>
    obtain ⟨-, sl, as, ho, hp, has⟩ := h
    exact ⟨_, ho, .array t hp (argsAt_iff.1 has)⟩
  | union t option =>
    obtain ⟨-, r, ho, hr⟩ := h
    exact ⟨_, ho, .union t hr⟩
  | result t n =>
    obtain ⟨-, rfl, ho⟩ := h
    exact ⟨_, ho, .result t n.res n.opDiv n.opAdd n.val⟩

section Unique

variable {heap : List Obj} {lo : ℕ}

lemma PtrsAt.unique {sl : Slice} (h : PtrsAt heap lo sl as)
    (h' : PtrsAt heap lo sl as') : as = as' := by
  obtain ⟨-, array, ho, rfl⟩ := h
  obtain ⟨-, array', ho', rfl⟩ := h'
  cases ho.unique ho'
  rfl

lemma BytesAt.unique {sl : Slice} {bs bs' : List UInt8} (h : BytesAt heap lo sl bs)
    (h' : BytesAt heap lo sl bs') : bs = bs' := by
  obtain ⟨-, array, ho, rfl⟩ := h
  obtain ⟨-, array', ho', rfl⟩ := h'
  cases ho.unique ho'
  rfl

lemma forall₂_unique {X : Type} {R : X → Addr → Prop} {xs ys : List X}
    (hxs : Forall₂ R xs as) (hys : Forall₂ R ys as)
    (h : ∀ x ∈ xs, ∀ y a, R x a → R y a → x = y) : xs = ys := by
  induction hxs generalizing ys with
  | nil =>
    cases hys
    rfl
  | cons hx _ ih =>
    cases hys with
    | cons hy hys =>
      rw [forall_mem_cons] at h
      rw [h.1 _ _ hx hy, ih hys h.2]

lemma ArgAt.both {y : Arg} (hx : ArgAt heap lo x a) (hy : ArgAt heap lo y a) :
    ∃ o, ArgBy heap lo a o x ∧ ArgBy heap lo a o y := by
  obtain ⟨o, ho, hx⟩ := hx.by_cell
  obtain ⟨o', ho', hy⟩ := hy.by_cell
  cases ho.unique ho'
  exact ⟨o, hx, hy⟩

lemma ArgAt.unique : ∀ y a, ArgAt heap lo x a → ArgAt heap lo y a → x = y := by
  induction x with
  | ptr t address res ih =>
    intro y a hx hy
    obtain ⟨o, hx, hy⟩ := hx.both hy
    cases hx with
    | ptr _ _ hr =>
      cases hy with
      | ptr _ _ hr' => rw [ih _ _ hr hr']
  | struct t inner ih =>
    intro y a hx hy
    obtain ⟨o, hx, hy⟩ := hx.both hy
    cases hx with
    | struct _ hp has =>
      cases hy with
      | struct _ hp' has' =>
        cases hp.unique hp'
        rw [forall₂_unique has has' ih]
  | array t inner ih =>
    intro y a hx hy
    obtain ⟨o, hx, hy⟩ := hx.both hy
    cases hx with
    | array _ hp has =>
      cases hy with
      | array _ hp' has' =>
        cases hp.unique hp'
        rw [forall₂_unique has has' ih]
  | union t option ih =>
    intro y a hx hy
    obtain ⟨o, hx, hy⟩ := hx.both hy
    cases hx with
    | union _ hr =>
      cases hy with
      | union _ hr' => rw [ih _ _ hr hr']
  | data t bytes outSize =>
    intro y a hx hy
    obtain ⟨o, hx, hy⟩ := hx.both hy
    cases hx with
    | data _ _ hb =>
      cases hy with
      | data _ _ hb' => rw [hb.unique hb']
  | _ =>
    intro y a hx hy
    obtain ⟨o, hx, hy⟩ := hx.both hy
    cases hx
    cases hy
    rfl

lemma CallAt.unique {c c' : Call} (h : CallAt heap lo c a) (h' : CallAt heap lo c' a) :
    c = c' := by
  obtain ⟨syscall, args, ret⟩ := c
  obtain ⟨syscall', args', ret'⟩ := c'
  obtain ⟨sl, as, ho, hp, has⟩ := h.args
  obtain ⟨sl', as', ho', hp', has'⟩ := h'.args
  cases ho.unique ho'
  cases hp.unique hp'
  obtain rfl : args = args' :=
    forall₂_unique (argsAt_iff.1 has) (argsAt_iff.1 has') fun _ _ => ArgAt.unique
  rfl

lemma CallsAt.unique {cs cs' : List Call} (h : CallsAt heap lo cs root)
    (h' : CallsAt heap lo cs' root) : cs = cs' := by
  obtain ⟨-, sl, as, ho, hp, has⟩ := h
  obtain ⟨-, sl', as', ho', hp', has'⟩ := h'
  cases ho.unique ho'
  cases hp.unique hp'
  exact forall₂_unique has has' fun _ _ _ _ => CallAt.unique

lemma UsersAt.unique {us us' : Finset Addr} (h : UsersAt heap a us)
    (h' : UsersAt heap a us') : us = us' := by
  obtain ⟨o, ho, hcs⟩ := h
  obtain ⟨o', ho', hcs'⟩ := h'
  cases ho.symm.trans ho'
  rcases hcs with ⟨hnn, rfl⟩ | ⟨uses, hsm, hus⟩
  · rcases hcs' with ⟨-, rfl⟩ | ⟨uses', hsm', -⟩
    · rfl
    · cases hnn.symm.trans hsm'
  · rcases hcs' with ⟨hnn', -⟩ | ⟨uses', hsm', hus'⟩
    · cases hsm.symm.trans hnn'
    · cases hsm.symm.trans hsm'
      cases hus.symm.trans hus'
      rfl

/-- **There is one program at an address.** -/
theorem ProgAt.unique {p q : Prog} (hp : ProgAt heap root p) (hq : ProgAt heap root q) :
    p = q := by
  obtain ⟨cs, uses⟩ := p
  obtain ⟨cs', uses'⟩ := q
  obtain rfl : cs = cs' := hp.calls.unique hq.calls
  congr 1
  ext ⟨x, y⟩
  have hiff : ∀ n ∈ (Prog.mk cs uses).nodes, ∀ y, (n.1, y) ∈ uses ↔ (n.1, y) ∈ uses' := by
    intro n hn y
    obtain ⟨us, hus, hmem⟩ := hp.users n hn
    obtain ⟨us', hus', hmem'⟩ := hq.users n hn
    cases hus.unique hus'
    exact (hmem y).trans (hmem' y).symm
  constructor
  · intro hu
    obtain ⟨n, hn, rfl⟩ := hp.inside _ hu
    exact (hiff n hn y).1 hu
  · intro hu
    obtain ⟨n, hn, rfl⟩ := hq.inside _ hu
    exact (hiff n hn y).2 hu

end Unique

end Razzer.CloneHeap
