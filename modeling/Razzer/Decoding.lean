import Razzer.Encoding
import Razzer.Lines
import Razzer.TextParser

/-!
`Deserialize`: programs from text.

The types of a target are a table, as they can be recursive. The parser goes over the text with
the types: what does not fit its type is skipped and becomes a default value, and what is left out
is filled in. A result argument whose type is no resource can be parsed as well; no valid program
has one, so it is not an argument here, and neither is anything around it. Of these only what
validation does with them is kept. The scanner goes on after an error, and the parser may then
still panic.
-/

namespace Razzer.Decoding

open Args Progs Encoding TextParser Lines

/-! ### Types -/

abbrev TypeId := ℕ

inductive TypeDesc
  | const (t : ConstType)
  | resource (t : ResourceType)
  | buffer (t : BufferType)
  | array (t : ArrayType) (elem : TypeId)
  | struct (t : StructType) (fields : List TypeId)
  | union (t : UnionType) (fields : List TypeId)
  | ptr (t : PtrType) (elem : TypeId)
  | vma (t : VmaType)

namespace TypeDesc

def common : TypeDesc → TypeCommon
  | .const t => t.toTypeCommon
  | .resource t => t.toTypeCommon
  | .buffer t => t.toTypeCommon
  | .array t _ => t.toTypeCommon
  | .struct t _ => t.toTypeCommon
  | .union t _ => t.toTypeCommon
  | .ptr t _ => t.toTypeCommon
  | .vma t => t.toTypeCommon

def isPad : TypeDesc → Bool
  | .const t => t.isPad
  | _ => false

def bitfieldMiddle : TypeDesc → Bool
  | .const t => t.bitfieldMiddle
  | _ => false

/-- The types that `defaultArg` goes on with. -/
def defaultParts : TypeDesc → List TypeId
  | .array t elem => if fixedInnerSize t then List.replicate t.rangeBegin elem else []
  | .struct _ fields => fields
  | .union _ fields => fields.take 1
  | .ptr t elem => if t.optional then [] else [elem]
  | _ => []

end TypeDesc

/-- `Syscall`; `hasRet` says whether its return value has a type. -/
structure SyscallDesc where
  syscall : Syscall
  args : List TypeId
  hasRet : Bool

/-- `any` is split up into its array and its two types of pointers. `maxAlloc` is what the runtime
can allocate at once. -/
structure Target where
  types : List TypeDesc
  anyArray : TypeId
  anyPtrPtr : PtrType
  anyPtr64 : PtrType
  ptrSize : ℕ
  pageSize : UInt64
  numPages : UInt64
  maxAlloc : ℕ
  syscalls : List SyscallDesc

namespace Target

variable (T : Target)

def desc (id : TypeId) : TypeDesc :=
  T.types.getD id (.const ⟨⟨"", "", 0, .dirIn, false, false⟩, .int, false, {}⟩)

def maxMem : UInt64 := T.numPages * T.pageSize

def syscallMap (name : List Char) : Option SyscallDesc :=
  T.syscalls.find? fun m => m.syscall.name.toList == name

/-- `makeAnyPtrType`; it panics if there are no pointers of the size. -/
def makeAnyPtrType (size : ℕ) (field : String) : Option PtrType :=
  let typ :=
    if size = T.ptrSize then some T.anyPtrPtr
    else if size = 8 then some T.anyPtr64
    else none
  typ.map fun typ =>
    { typ with size := size, fieldName := if field ≠ "" then field else typ.fieldName }

end Target

/-! ### Default arguments -/

def thread {α β : Type} (f : α → Ref → β × Ref) : List α → Ref → List β × Ref
  | [], n => ([], n)
  | x :: xs, n =>
    let y := f x n
    let ys := thread f xs y.2
    (y.1 :: ys.1, ys.2)

/-- `defaultArg`, with references from `n` on for its results. The types it goes on with come
earlier in the table, so the number of the type bounds the recursion. -/
def defaultOf (T : Target) : ℕ → TypeId → Ref → Arg × Ref
  | 0, _, n => (.struct ⟨⟨"", "", 0, .dirIn, false, false⟩, 0⟩ [], n)
  | fuel + 1, id, n =>
    match T.desc id with
    | .const t => (.const t t.default, n)
    | .resource t => (.result t ⟨n, none, 0, 0, t.default⟩, n + 1)
    | .buffer t =>
      if t.dir = .dirOut then (.data t [] (if t.varlen then 0 else t.size), n)
      else (.data t (if t.varlen then [] else List.replicate t.size 0) 0, n)
    | .array t elem =>
      let inner := thread (defaultOf T fuel) (TypeDesc.array t elem).defaultParts n
      (.array t inner.1, inner.2)
    | .struct t fields =>
      let inner := thread (defaultOf T fuel) fields n
      (.struct t inner.1, inner.2)
    | .union t fields =>
      let option := defaultOf T fuel (fields.headD 0) n
      (.union t option.1, option.2)
    | .vma t => (if t.optional then .vma t 0 0 else .vma t 0 T.pageSize, n)
    | .ptr t elem =>
      if h : t.optional = true then (.null t h, n)
      else
        let res := defaultOf T fuel elem n
        (.ptr t 0 res.1, res.2)

def defaultArg (T : Target) (id : TypeId) (n : Ref) : Arg × Ref := defaultOf T (id + 1) id n

/-! ### Arguments with a wrong result

Validation returns an error when it comes to such a result. Before that it may panic, where the
size of a pointee is not known. -/

/-- What validation checks, in its order. -/
inductive Step
  | arg (a : Arg)
  | ptr (t : PtrType) (address : UInt64) (size : Option ℕ)
  | array (t : ArrayType) (len : ℕ)
  | union (found : Bool)
  | ret (id : Ref)
  | wrong

structure Odd where
  name : String
  bitfieldMiddle : Bool
  size : Option ℕ
  walk : List Step

namespace Odd

def ofArg (a : Arg) : Odd := ⟨a.type.name, a.bitfieldMiddle, some a.size, [.arg a]⟩

def nil : Odd := ⟨"", false, none, [.wrong]⟩

/-- A result in the place of another type, which has no size if its length varies. -/
def result (t : TypeDesc) : Odd :=
  ⟨t.common.name, t.bitfieldMiddle, if t.common.varlen then none else some t.common.size, [.wrong]⟩

def ptr (t : PtrType) (address : UInt64) (res : Odd) : Odd :=
  ⟨t.name, false, some t.size, .ptr t address res.size :: res.walk⟩

def sizes : List Odd → Option ℕ
  | [] => some 0
  | x :: xs => x.size.bind fun n => (sizes xs).map fun m => n + m

def struct (t : StructType) (inner : List Odd) : Odd :=
  ⟨t.name, false,
    if t.varlen then (sizes (inner.filter fun x => !x.bitfieldMiddle)).map (alignUp t.alignAttr)
    else some t.size, inner.flatMap walk⟩

def array (t : ArrayType) (inner : List Odd) : Odd :=
  ⟨t.name, false, if t.varlen then sizes inner else some t.size,
    .array t inner.length :: inner.flatMap walk⟩

def union (t : UnionType) (found : Bool) (option : Odd) : Odd :=
  ⟨t.name, false, if t.varlen then option.size else some t.size, .union found :: option.walk⟩

end Odd

/-! ### The state of the parser -/

/-- The names of the program so far, with the results they are bound to; a name can be bound to
an argument that is no result. `uses` lists the users of the results. -/
structure St where
  vars : List (List Char × Option Ref) := []
  next : Ref := 0
  uses : List (Ref × Ref) := []

/-- What has been parsed: an argument, unless it cannot be part of a valid program, and its
reference, if it can be used as a result. -/
structure Parsed where
  raw : Except Odd Arg
  ref : Option Ref

namespace Parsed

def ofArg (a : Arg) : Parsed :=
  ⟨.ok a, match a with
    | .result _ n => some n.id
    | _ => none⟩

def arg (x : Parsed) : Option Arg := x.raw.toOption

def odd (x : Parsed) : Odd :=
  match x.raw with
  | .ok a => .ofArg a
  | .error odd => odd

lemma odd_eq_ofArg {x : Parsed} {a : Arg} (h : x.arg = some a) : x.odd = .ofArg a := by
  obtain ⟨raw, ref⟩ := x
  cases raw <;> cases h
  rfl

/-- An argument around others. -/
def outer (arg : Option Arg) (odd : Odd) : Parsed :=
  match arg with
  | some a => ⟨.ok a, none⟩
  | none => ⟨.error odd, none⟩

@[simp] lemma arg_outer (arg : Option Arg) (odd : Odd) : (outer arg odd).arg = arg := by
  cases arg <;> rfl

end Parsed

def allArgs : List Parsed → Option (List Arg)
  | [] => some []
  | x :: xs => x.arg.bind fun a => (allArgs xs).map fun as => a :: as

abbrev P := Parser St

def fresh : P Ref := do
  let s ← state
  setState { s with next := s.next + 1 }
  return s.next

def addUse (x y : Ref) : P Unit := do
  let s ← state
  setState { s with uses := s.uses ++ [(x, y)] }

def bindName (r : Option (List Char)) (x : Option Ref) : P Unit :=
  match r with
  | none => return ()
  | some name => do
    let s ← state
    setState { s with vars := (name, x) :: s.vars }

def makeDefaults (T : Target) (ids : List TypeId) : P (List Arg) := do
  let s ← state
  let as := thread (defaultArg T) ids s.next
  setState { s with next := as.2 }
  return as.1

def makeDefault (T : Target) (typ : Option TypeId) : P Parsed :=
  match typ with
  | none => stop (.panic "unknown arg type")
  | some id => do
    let s ← state
    let a := defaultArg T id s.next
    setState { s with next := a.2 }
    return .ofArg a.1

/-! ### Numbers, addresses and data -/

def digitVal (c : Char) : Option ℕ :=
  if c.isDigit then some (c.toNat - 48)
  else if c.isLower then some (c.toNat - 87)
  else if c.isUpper then some (c.toNat - 55)
  else none

def readDigits (base : ℕ) : List Char → ℕ → Option ℕ
  | [], acc => some acc
  | c :: cs, acc =>
    (digitVal c).bind fun d => if d < base then readDigits base cs (acc * base + d) else none

/-- `ParseUint` of 64 bits, where the number says its base. -/
def parseUint (s : List Char) : Option UInt64 :=
  let n :=
    match s with
    | [] => none
    | '0' :: x :: ds =>
      if x = 'x' ∨ x = 'X' then if ds.isEmpty then none else readDigits 16 ds 0
      else readDigits 8 (x :: ds) 0
    | ds => readDigits 10 ds 0
  n.bind fun n => if n < 2 ^ 64 then some (UInt64.ofNat n) else none

def number (message : String) : P UInt64 := do
  let s ← ident
  match parseUint s with
  | none => fail (message ++ ": " ++ String.ofList s)
  | some v => return v

/-- A region is made of whole pages inside of the memory. -/
def alignVma (T : Target) (addr size : UInt64) : UInt64 × UInt64 :=
  let addr := addr &&& ~~~(T.pageSize - 1)
  let vmaSize := (size + T.pageSize - 1) &&& ~~~(T.pageSize - 1)
  let vmaSize := if vmaSize = 0 then T.pageSize else vmaSize
  let vmaSize := if T.maxMem < vmaSize then T.maxMem else vmaSize
  (if T.maxMem - vmaSize < addr then T.maxMem - vmaSize else addr, vmaSize)

/-- Old programs have an offset. -/
def parseOffset (addr : UInt64) : P UInt64 := do
  let c ← char
  if c = '+' ∨ c = '-' then do
    parse c
    let off ← number "failed to parse addr offset"
    return addr + (if c = '-' then 0 - off else off)
  else return addr

def parseSize (T : Target) (addr : UInt64) : P (UInt64 × UInt64) := do
  let c ← char
  if c = '/' then do
    parse '/'
    let size ← number "failed to parse addr size"
    return alignVma T addr size
  else return (addr, 0)

def parseAddr (T : Target) : P (UInt64 × UInt64) := do
  parse '('
  let addr ← number "failed to parse addr"
  if addr < encodingAddrBase then fail "address without base offset"
  else do
    let addr ← parseOffset (addr - encodingAddrBase)
    let r ← parseSize T addr
    parse ')'
    return r

def decodeString : List Char → Option (List UInt8)
  | [] => some []
  | [_] => none
  | a :: b :: cs =>
    (digitVal a).bind fun x => (digitVal b).bind fun y =>
      if x < 16 ∧ y < 16 then
        (decodeString cs).map fun bs => UInt8.ofNat (x * 16 + y) :: bs
      else none

/-- Where the parser is in quoted data: after a backslash, or in the digits of `\x00`. -/
inductive QuoteMode
  | plain | escaped | hi | lo

def unescape (c : Char) : Option UInt8 :=
  match c with
  | 'a' => some 7
  | 'b' => some 8
  | 'f' => some 12
  | 'n' => some 10
  | 'r' => some 13
  | 't' => some 9
  | 'v' => some 11
  | '\'' => some 39
  | '\\' => some 92
  | _ => none

/-- Data up to the closing quote, which is left. In an escape sequence the end of the line is a
character that does not fit. -/
def unquote : QuoteMode → List Char → Except String (List UInt8 × Line)
  | .plain, [] => .ok ([], ⟨[], some "unexpected eof"⟩)
  | _, [] => .error "invalid escape sequence in data arg"
  | .plain, c :: t =>
    if c = '\'' ∨ c = '\x00' then .ok ([], ⟨c :: t, none⟩)
    else if c = '\\' then unquote .escaped t
    else (unquote .plain t).map fun r => (UInt8.ofNat c.toNat :: r.1, r.2)
  | .escaped, c :: t =>
    if c = 'x' then unquote .hi t
    else
      match unescape c with
      | none => .error "invalid escape sequence in data arg"
      | some b => (unquote .plain t).map fun r => (b :: r.1, r.2)
  | .hi, c :: t =>
    if c = '0' then unquote .lo t else .error "invalid \\x escape sequence in data arg"
  | .lo, c :: t =>
    if c = '0' then (unquote .plain t).map fun r => (0 :: r.1, r.2)
    else .error "invalid \\x escape sequence in data arg"

/-- The digits between two double quotes; there may be none. -/
def parseHex : P (List Char) := do
  let c ← char
  if c = '"' then return [] else ident

def parseQuoted : P (List UInt8) := fun s t =>
  if t.err.isSome then .error (.error "data arg does not start with \" nor with '")
  else
    match unquote .plain t.rest.tail with
    | .error e => .error (.error e)
    | .ok (data, t) => .ok (data, s, t)

def deserializeData : P (List UInt8) := do
  let c ← char
  if c = '"' then do
    parse '"'
    let val ← parseHex
    parse '"'
    match decodeString val with
    | none => fail "data arg has bad value"
    | some data => return data
  else do
    let data ← parseQuoted
    parse '\''
    return data

/-! ### Arguments -/

/-- `eatExcessive`. It takes blanks like all other characters, and in quotes everything. -/
def eat (stopAtComma : Bool) : ℕ → ℕ → ℕ → Option Char → List Char → List Char
  | _, _, _, _, [] => []
  | paren, brack, brace, some q, c :: t =>
    eat stopAtComma paren brack brace (if c = q then none else some q) t
  | paren, brack, brace, none, c :: t =>
    if c = '(' then eat stopAtComma (paren + 1) brack brace none t
    else if c = ')' then
      if paren = 0 then c :: t else eat stopAtComma (paren - 1) brack brace none t
    else if c = '[' then eat stopAtComma paren (brack + 1) brace none t
    else if c = ']' then
      if brack = 0 then c :: t else eat stopAtComma paren (brack - 1) brace none t
    else if c = '\x7b' then eat stopAtComma paren brack (brace + 1) none t
    else if c = '\x7d' then
      if brace = 0 then c :: t else eat stopAtComma paren brack (brace - 1) none t
    else if c = ',' ∧ stopAtComma = true ∧ paren = 0 ∧ brack = 0 ∧ brace = 0 then c :: t
    else if c = '\'' ∨ c = '"' then eat stopAtComma paren brack brace (some c) t
    else eat stopAtComma paren brack brace none t

def eatExcessive (stopAtComma : Bool) : P Unit :=
  scan () fun t => .ok ((), eat stopAtComma 0 0 0 none t)

def skipped (T : Target) (typ : Option TypeId) : P Parsed := do
  eatExcessive true
  makeDefault T typ

def parseConst (T : Target) (typ : Option TypeId) : P Parsed := do
  let v ← number "wrong arg value"
  match typ.map T.desc with
  | some (.const t) => return .ofArg (.const t v)
  | some (.resource t) => do
    let id ← fresh
    return .ofArg (.result t ⟨id, none, 0, 0, v⟩)
  | some (.ptr t _) =>
    if h : t.optional = true then return .ofArg (.null t h) else makeDefault T typ
  | some (.vma t) =>
    if t.optional = true then return .ofArg (.vma t 0 0) else makeDefault T typ
  | _ => skipped T typ

def parseOp (op : Char) (message : String) : P UInt64 := do
  let c ← char
  if c = op then do
    parse op
    number message
  else return 0

def parseResult (T : Target) (typ : Option TypeId) : P Parsed := do
  let name ← ident
  let div ← parseOp '/' "wrong result div op"
  let add ← parseOp '+' "wrong result add op"
  let s ← state
  match s.vars.lookup name with
  | some (some x) => do
    let id ← fresh
    addUse x id
    match typ.map T.desc with
    | some (.resource t) => return .ofArg (.result t ⟨id, some x, div, add, 0⟩)
    | some t => return ⟨.error (.result t), some id⟩
    | none => return ⟨.error .nil, some id⟩
  | _ => makeDefault T typ

/-- The pointee, if there is one in the text: the type of the pointer if it is squashed, and the
argument. -/
def parsePointee (T : Target) (parseArg : Option TypeId → P Parsed) (t : TypeCommon)
    (elem : Option TypeId) : P (Option (Option PtrType × Parsed)) := do
  let c ← char
  if c = '=' then do
    parse '='
    let c ← char
    if c = 'A' then do
      parse 'A'
      parse 'N'
      parse 'Y'
      parse '='
      match T.makeAnyPtrType t.size t.fieldName with
      | none => stop (.panic "bad pointer size")
      | some anyPtr => do
        let inner ← parseArg (some T.anyArray)
        return some (some anyPtr, inner)
    else do
      let inner ← parseArg elem
      return some (none, inner)
  else return none

def makePointer (T : Target) (t : PtrType) (elem : TypeId) (addr : UInt64)
    (inner : Option Parsed) : P Parsed :=
  match inner with
  | some inner => return .outer (inner.arg.map fun res => .ptr t addr res) (inner.odd.ptr t addr)
  | none => do
    let inner ← makeDefault T (some elem)
    return .outer (inner.arg.map fun res => .ptr t addr res) (inner.odd.ptr t addr)

def parsePointer (T : Target) (parseArg : Option TypeId → P Parsed) (typ : Option TypeId) :
    P Parsed :=
  match typ.map T.desc with
  | some (.ptr t elem) => do
    parse '&'
    let addr ← parseAddr T
    let pointee ← parsePointee T parseArg t.toTypeCommon (some elem)
    match pointee with
    | some (some anyPtr, inner) => makePointer T anyPtr T.anyArray addr.1 (some inner)
    | some (none, inner) => makePointer T t elem addr.1 (some inner)
    | none => makePointer T t elem addr.1 none
  | some (.vma t) => do
    parse '&'
    let addr ← parseAddr T
    let pointee ← parsePointee T parseArg t.toTypeCommon none
    match pointee with
    | some (some anyPtr, inner) => makePointer T anyPtr T.anyArray addr.1 (some inner)
    | _ =>
      if addr.1 % 1024 ≠ 0 then stop (.panic "unaligned vma address")
      else return .ofArg (.vma t addr.1 addr.2)
  | _ => skipped T typ

def bufferSize (t : BufferType) (data : List UInt8) (size : UInt64) : UInt64 :=
  if t.varlen = false then UInt64.ofNat t.size
  else if size = 0xffffffffffffffff then UInt64.ofNat data.length
  else size

def parseBufferSize : P UInt64 := do
  let c ← char
  if c = '/' then do
    parse '/'
    number "failed to parse buffer size"
  else return 0xffffffffffffffff

def parseBuffer (T : Target) (typ : Option TypeId) : P Parsed :=
  match typ.map T.desc with
  | some (.buffer t) => do
    let data ← deserializeData
    let size ← parseBufferSize
    let size := (bufferSize t data size).toNat
    -- no slice has this length
    if 2 ^ 63 ≤ data.length then fail "slice is too long"
    else if t.dir = .dirOut then return .ofArg (.data t [] size)
    else if 2 ^ 63 ≤ size then stop (.panic "slice bounds out of range")
    -- the size of a type can be allocated
    else if t.varlen ∧ T.maxAlloc < size - data.length then
      stop (.panic "makeslice: len out of range")
    else return .ofArg (.data t ((data ++ List.replicate (size - data.length) 0).take size) 0)
  | _ => skipped T typ

/-- One place of a list in the text; padding is not in the text. -/
inductive Slot
  | text (p : P Parsed)
  | pad (p : P Parsed)

def parseComma (close : Char) : P Unit := do
  let c ← char
  if c = close then return () else parse ','

/-- A list up to a closing bracket, from place `i` on. -/
def parseSeq (close : Char) (slot : ℕ → Option Slot) : ℕ → ℕ → P (List Parsed)
  | 0, _ => fail "the list does not end"
  | fuel + 1, i => do
    let c ← char
    if c = close then return []
    else
      match slot i with
      | none => do
        eatExcessive false
        return []
      | some (.pad p) => do
        let x ← p
        let xs ← parseSeq close slot fuel (i + 1)
        return x :: xs
      | some (.text p) => do
        let x ← p
        parseComma close
        let xs ← parseSeq close slot fuel (i + 1)
        return x :: xs

def fieldSlot (T : Target) (parseArg : Option TypeId → P Parsed) (fields : List TypeId) (i : ℕ) :
    Option Slot :=
  fields[i]?.map fun f =>
    match T.desc f with
    | .const t => if t.isPad then .pad (return .ofArg (.const t 0)) else .text (parseArg (some f))
    | _ => .text (parseArg (some f))

def parseStruct (T : Target) (fuel : ℕ) (parseArg : Option TypeId → P Parsed)
    (typ : Option TypeId) : P Parsed := do
  parse '\x7b'
  match typ.map T.desc with
  | some (.struct t fields) => do
    let inner ← parseSeq '\x7d' (fieldSlot T parseArg fields) fuel 0
    parse '\x7d'
    let rest ← makeDefaults T (fields.drop inner.length)
    return .outer ((allArgs inner).map fun inner => .struct t (inner ++ rest))
      (.struct t (inner.map Parsed.odd ++ rest.map Odd.ofArg))
  | _ => do
    eatExcessive false
    parse '\x7d'
    makeDefault T typ

def parseArray (T : Target) (fuel : ℕ) (parseArg : Option TypeId → P Parsed)
    (typ : Option TypeId) : P Parsed := do
  parse '['
  match typ.map T.desc with
  | some (.array t elem) => do
    let inner ← parseSeq ']' (fun _ => some (.text (parseArg (some elem)))) fuel 0
    parse ']'
    if fixedInnerSize t = true then do
      let rest ← makeDefaults T (List.replicate (t.rangeBegin - inner.length) elem)
      let inner := inner.take t.rangeBegin
      return .outer ((allArgs inner).map fun inner => .array t (inner ++ rest))
        (.array t (inner.map Parsed.odd ++ rest.map Odd.ofArg))
    else
      return .outer ((allArgs inner).map fun inner => .array t inner)
        (.array t (inner.map Parsed.odd))
  | _ => do
    eatExcessive false
    parse ']'
    makeDefault T typ

/-- An option is valid if it has the name of the type of some option. -/
def makeUnion (T : Target) (t : UnionType) (fields : List TypeId) (option : Parsed) : Parsed :=
  let found := fields.any fun f => (T.desc f).common.name == option.odd.name
  .outer (option.arg.bind fun a => if found then some (.union t a) else none)
    (option.odd.union t found)

def findField (T : Target) (fields : List TypeId) (name : List Char) : Option TypeId :=
  fields.find? fun f => (T.desc f).common.fieldName.toList == name

def parseOption (T : Target) (parseArg : Option TypeId → P Parsed) (f : TypeId) : P Parsed := do
  let c ← char
  if c = '=' then do
    parse '='
    parseArg (some f)
  else makeDefault T (some f)

def parseUnion (T : Target) (parseArg : Option TypeId → P Parsed) (typ : Option TypeId) :
    P Parsed :=
  match typ.map T.desc with
  | some (.union t fields) => do
    parse '@'
    let name ← ident
    match findField T fields name with
    | none => skipped T typ
    | some f => do
      let option ← parseOption T parseArg f
      return makeUnion T t fields option
  | _ => skipped T typ

def parseNil (T : Target) (typ : Option TypeId) (r : Option (List Char)) : P Parsed := do
  parse 'n'
  parse 'i'
  parse 'l'
  match typ with
  | some id => makeDefault T (some id)
  | none => if r.isSome then fail "named nil argument" else return ⟨.error .nil, none⟩

def parseName : P (Option (List Char)) := do
  let c ← char
  if c = '<' then do
    parse '<'
    let r ← ident
    parse '='
    parse '>'
    return some r
  else return none

def parseValue (T : Target) (fuel : ℕ) (parseArg : Option TypeId → P Parsed)
    (typ : Option TypeId) (r : Option (List Char)) : P Parsed := do
  let c ← char
  if c = '0' then parseConst T typ
  else if c = 'r' then parseResult T typ
  else if c = '&' then parsePointer T parseArg typ
  else if c = '"' ∨ c = '\'' then parseBuffer T typ
  else if c = '\x7b' then parseStruct T fuel parseArg typ
  else if c = '[' then parseArray T fuel parseArg typ
  else if c = '@' then parseUnion T parseArg typ
  else if c = 'n' then parseNil T typ r
  else fail "failed to parse argument"

/-- `parseArg`, with a bound on the depth and on the length of lists. -/
def parseArg (T : Target) : ℕ → Option TypeId → P Parsed
  | 0, _ => fail "the argument does not end"
  | fuel + 1, typ => do
    let r ← parseName
    let arg ← parseValue T fuel (parseArg T fuel) typ r
    bindName r arg.ref
    return arg

/-! ### Calls -/

/-- A call before it is known to be valid. -/
structure RawCall where
  desc : SyscallDesc
  ret : Ref
  args : Option (List Arg)
  walk : List Step

def argSlot (T : Target) (fuel : ℕ) (types : List TypeId) (i : ℕ) : Option Slot :=
  types[i]?.map fun typ =>
    if (T.desc typ).isPad then .pad (fail "padding in syscall arguments")
    else .text (parseArg T fuel (some typ))

def parseHead : P (Option (List Char) × List Char) := do
  let name ← ident
  let c ← char
  if c = '=' then do
    parse '='
    let call ← ident
    return (some name, call)
  else return (none, name)

def parseCall (T : Target) (fuel : ℕ) : P RawCall := do
  let head ← parseHead
  match T.syscallMap head.2 with
  | none => fail ("unknown syscall " ++ String.ofList head.2)
  | some desc => do
    let ret ← fresh
    parse '('
    let args ← parseSeq ')' (argSlot T fuel desc.args) fuel 0
    parse ')'
    let atEnd ← eof
    if atEnd then do
      let rest ← makeDefaults T (desc.args.drop args.length)
      bindName head.1 (some ret)
      return ⟨desc, ret, (allArgs args).map fun args => args ++ rest,
        args.flatMap (fun x => x.odd.walk) ++ rest.map .arg⟩
    else fail "tailing data"

/-- A line; there may be no call in it. -/
def parseLine (T : Target) (fuel : ℕ) : P (Option RawCall) := do
  let atEnd ← eof
  if atEnd then return none
  else do
    let c ← char
    if c = '#' then return none
    else do
      let call ← parseCall T fuel
      return some call

/-- The scanner has no more lines after an error. -/
def parseLines (T : Target) (fuel : ℕ) : List (List Char) → St → Except Stop (List RawCall × St)
  | [], s => .ok ([], s)
  | line :: lines, s =>
    match parseLine T fuel s ⟨line, none⟩ with
    | .error e => .error e
    | .ok (_, _, ⟨_, some e⟩) => .error (.error e)
    | .ok (call, s, ⟨_, none⟩) =>
      (parseLines T fuel lines s).map fun r => (call.toList ++ r.1, r.2)

/-! ### Validation -/

def inMemory (T : Target) (address size : UInt64) : Bool :=
  decide (address < T.maxMem ∧ address + size ≤ T.maxMem)

def checkConst (t : ConstType) (val : UInt64) : Bool :=
  let output := t.dir == .dirOut && val != 0 && val != t.default
  match t.kind with
  | .len _ _ => true
  | .proc => !output && (decide (val < t.format.valuesPerProc) || val == t.default)
  | .csum => !output && val == 0
  | _ => !output

mutual
/-- `checkArg`; what the kinds of arguments and the parser ensure already is not repeated. -/
def checkArg (T : Target) : Arg → Bool
  | .const t val => checkConst t val
  | .ptr t address res =>
    t.dir != .dirOut && inMemory T address (UInt64.ofNat res.size) && checkArg T res
  | .null t _ => t.dir != .dirOut && inMemory T 0 0
  | .vma t address vmaSize =>
    inMemory T address vmaSize && (vmaSize != 0 || t.dir == .dirOut || t.optional)
  | .data t bytes outSize =>
    (t.dir != .dirOut || bytes.isEmpty) &&
      (t.kind != .string || t.size == 0 || dataSize bytes outSize == t.size) &&
      (t.varlen || dataSize bytes outSize == t.size)
  | .struct _ inner => checkArgs T inner
  | .array t inner =>
    (!fixedInnerSize t || inner.length == t.rangeBegin) && checkArgs T inner
  | .union _ option => checkArg T option
  | .result t n => t.dir != .dirOut || n.val == 0 || n.val == t.default

def checkArgs (T : Target) : List Arg → Bool
  | [] => true
  | a :: as => checkArg T a && checkArgs T as
end

/-- The results of a call in the order of validation. A return value comes last, and only if it
has a type. -/
def visited (T : Target) (c : Call) : List (Ref × Option Ref) :=
  (allResults c.args).map (fun x => (x.2.id, x.2.res)) ++
    if (T.syscallMap c.syscall.name.toList).any SyscallDesc.hasRet then [(c.ret, none)] else []

/-- `validate`: values, references to results before them, and users that are in the program. -/
def validate (T : Target) (p : Prog) : Bool :=
  let nodes := p.calls.flatMap (visited T)
  (p.calls.all fun c => checkArgs T c.args) &&
    decide (nodes.map Prod.fst).Nodup &&
    cloneable [] nodes &&
    (nodes.all fun n => n.2.all fun x => decide ((x, n.1) ∈ p.uses)) &&
    decide (∀ u ∈ p.uses, u.1 ∈ nodes.map Prod.fst → u.2 ∈ nodes.map Prod.fst)

/-- A step of `validate` panics, and none before it returns an error; `seen` are the results
before. -/
def validatePanics (T : Target) : List Ref → List Step → Bool
  | _, [] => false
  | seen, .arg a :: steps =>
    let nodes := a.results.map fun x => (x.2.id, x.2.res)
    checkArg T a && cloneable seen nodes && validatePanics T (nodes.map Prod.fst ++ seen) steps
  | seen, .ptr t address size :: steps =>
    t.dir != .dirOut &&
      match size with
      | none => true
      | some n => inMemory T address (UInt64.ofNat n) && validatePanics T seen steps
  | seen, .array t len :: steps =>
    (!fixedInnerSize t || len == t.rangeBegin) && validatePanics T seen steps
  | seen, .union found :: steps => found && validatePanics T seen steps
  | seen, .ret id :: steps => validatePanics T (id :: seen) steps
  | _, .wrong :: _ => false

/-! ### Programs -/

def maxLineLen : ℕ := 2 ^ 20

def lineFits (line : List Char) : Bool := decide (line.length < maxLineLen)

def linesFit (text : List Char) : Bool := (rawLines [] text).all lineFits

/-- The lines before the first one that is too long. -/
def fittingLines (text : List Char) : List (List Char) :=
  ((rawLines [] text).takeWhile lineFits).map dropCR

lemma fittingLines_eq {text : List Char} (h : linesFit text) :
    fittingLines text = scanLines [] text := by
  rw [fittingLines, scanLines_eq, List.takeWhile_eq_self_iff.2 (List.all_eq_true.1 h)]

def RawCall.steps (c : RawCall) : List Step :=
  c.walk ++ if c.desc.hasRet then [.ret c.ret] else []

def RawCall.call (c : RawCall) : Option Call :=
  c.args.map fun args => ⟨c.desc.syscall, args, c.ret⟩

def allCalls : List RawCall → Option (List Call)
  | [] => some []
  | c :: cs => c.call.bind fun c => (allCalls cs).map fun cs => c :: cs

/-- `Deserialize`; `sanitizeCall` is the target's. -/
def deserialize (T : Target) (sanitizeCall : Call → Call) (fuel : ℕ) (text : List Char) :
    Except Stop Prog :=
  match parseLines T fuel (fittingLines text) {} with
  | .error e => .error e
  | .ok (raw, s) =>
    if linesFit text then
      match allCalls raw with
      | none =>
        if validatePanics T [] (raw.flatMap RawCall.steps) then
          .error (.panic "static type size is not known")
        else .error (.error "bad argument")
      | some calls =>
        let p : Prog := ⟨calls, s.uses.toFinset⟩
        if validate T p then .ok { p with calls := p.calls.map sanitizeCall }
        else .error (.error "the program is not valid")
    else .error (.error "token too long")

end Razzer.Decoding
