import Razzer.Regions

/-!
The output region of the executor.

The executor writes a record for every call that has completed, and counts the records in the
first word of the region. A record says how many signals, PCs and comparisons follow it; these
numbers are filled in when the data has been written. The fuzzer reads the records back with
`readOutCoverage`, which relies on nothing that it finds in the region.
-/

namespace Razzer.ExecOutput

open Regions UInt32

def kMaxOutput : ℕ := 16 * 2 ^ 20

/-! ### Comparisons -/

def KCOV_CMP_CONST : UInt64 := 1
def KCOV_CMP_SIZE1 : UInt64 := 0
def KCOV_CMP_SIZE2 : UInt64 := 2
def KCOV_CMP_SIZE4 : UInt64 := 4
def KCOV_CMP_SIZE8 : UInt64 := 6
def KCOV_CMP_SIZE_MASK : UInt64 := 6

/-- `kcov_comparison_t`, without the PC, which nothing looks at. -/
structure Comparison where
  type : UInt64
  arg1 : UInt64
  arg2 : UInt64
  deriving DecidableEq

def signExtend (bits : ℕ) (v : UInt64) : UInt64 := ⟨(v.toBitVec.setWidth bits).signExtend 64⟩

namespace Comparison

def lt (a b : Comparison) : Bool :=
  if a.type ≠ b.type then decide (a.type < b.type)
  else if a.arg1 ≠ b.arg1 then decide (a.arg1 < b.arg1)
  else decide (a.arg2 < b.arg2)

def outStart : UInt64 := 0x1b2bc20000
def kmemStart : UInt64 := 0xffff880000000000
def kmemEnd : UInt64 := 0xffff890000000000

def ignore (c : Comparison) : Bool :=
  if c.arg1 = 0 ∧ (c.arg2 = 0 ∨ c.type &&& KCOV_CMP_CONST ≠ 0) then true
  else if c.type &&& KCOV_CMP_SIZE_MASK = KCOV_CMP_SIZE8 then
    let outEnd := outStart + UInt64.ofNat kMaxOutput
    let kptr1 := kmemStart ≤ c.arg1 ∧ c.arg1 ≤ kmemEnd
    let kptr2 := kmemStart ≤ c.arg2 ∧ c.arg2 ≤ kmemEnd
    decide (outStart ≤ c.arg1 ∧ c.arg1 ≤ outEnd ∨ outStart ≤ c.arg2 ∧ c.arg2 ≤ outEnd ∨
      kptr1 ∧ kptr2 ∨ kptr1 ∧ c.arg2 = 0 ∨ kptr2 ∧ c.arg1 = 0)
  else false

def extend (c : Comparison) (arg : UInt64) : UInt64 :=
  let size := c.type &&& KCOV_CMP_SIZE_MASK
  if size = KCOV_CMP_SIZE1 then signExtend 8 arg
  else if size = KCOV_CMP_SIZE2 then signExtend 16 arg
  else if size = KCOV_CMP_SIZE4 then signExtend 32 arg
  else arg

def words (c : Comparison) : List UInt32 :=
  let arg1 := c.extend c.arg1
  let arg2 := c.extend c.arg2
  c.type.toUInt32 ::
    if c.type &&& KCOV_CMP_SIZE_MASK ≠ KCOV_CMP_SIZE8 then [arg1.toUInt32, arg2.toUInt32]
    else
      [(arg1 &&& 0xffffffff).toUInt32, (arg1 >>> 32).toUInt32, (arg2 &&& 0xffffffff).toUInt32,
        (arg2 >>> 32).toUInt32]

end Comparison

/-! ### Signals -/

def hash (a : UInt32) : UInt32 :=
  let a := (a ^^^ (61 : UInt32)) ^^^ (a >>> 16)
  let a := a + (a <<< 3)
  let a := a ^^^ (a >>> 4)
  let a := a * 0x27d4eb2d
  a ^^^ (a >>> 15)

def dedupTableSize : UInt32 := 8192

abbrev Table := UInt32 → UInt32

/-- The loop of `dedup`, with the places that are left to look at. -/
def dedupFrom (table : Table) (sig : UInt32) : List UInt32 → Bool × Table
  | [] => (false, Function.update table (sig % dedupTableSize) sig)
  | i :: is =>
    let pos := (sig + i) % dedupTableSize
    if table pos = sig then (true, table)
    else if table pos = 0 then (false, Function.update table pos sig)
    else dedupFrom table sig is

def dedup (table : Table) (sig : UInt32) : Bool × Table := dedupFrom table sig [0, 1, 2, 3]

/-! ### Writing -/

structure Flags where
  collectCover : Bool
  dedupCover : Bool
  collectComps : Bool
  kernel64 : Bool

/-- A thread whose call has completed. The buffer of the kernel has comparisons in it if these are
collected, and PCs otherwise. -/
structure Thread where
  colliding : Bool
  callIndex : UInt32
  callNum : UInt32
  res : Int64
  reserrno : UInt32
  faultInjected : Bool
  cover : List UInt64
  comps : List Comparison

/-- The region, and the variables that outlive a call. -/
structure Out where
  region : Region UInt32
  completed : UInt32
  table : Table

def Out.write (o : Out) (v : UInt32) : Option (ℕ × Out) :=
  (o.region.put v).map fun r => (r.1, { o with region := r.2 })

def Out.fill (o : Out) (place : ℕ) (v : UInt32) : Out := { o with region := o.region.fill place v }

def Out.writeAll (o : Out) (vs : List UInt32) : Option Out :=
  (o.region.putAll vs).map fun r => { o with region := r }

def writeSignals : List UInt64 → UInt32 → UInt32 → Out → Option (UInt32 × Out)
  | [], _, nsig, o => some (nsig, o)
  | pc :: pcs, prev, nsig, o =>
    let pc := pc.toUInt32
    let sig := pc ^^^ prev
    let prev := hash pc
    let d := dedup o.table sig
    let o := { o with table := d.2 }
    if d.1 then writeSignals pcs prev nsig o
    else (o.write sig).bind fun w => writeSignals pcs prev (nsig + 1) w.2

def coverOf (flags : Flags) (cover : List UInt64) : List UInt32 :=
  let cover :=
    if flags.dedupCover then (cover.mergeSort fun a b => decide (a ≤ b)).destutter (· ≠ ·)
    else cover
  cover.map UInt64.toUInt32

def writeCoverageSignal (flags : Flags) (cover : List UInt64) (signalCountPos coverCountPos : ℕ)
    (o : Out) : Option Out := do
  let (nsig, o) ← writeSignals cover 0 0 o
  let o := o.fill signalCountPos nsig
  if !flags.collectCover then return o
  else do
    let o ← o.writeAll (coverOf flags cover)
    return o.fill coverCountPos (ofNat (coverOf flags cover).length)

def kCoverSize : ℕ := 256 * 2 ^ 10

def coverEnd (flags : Flags) : ℕ := kCoverSize * if flags.kernel64 then 8 else 4

/-- The comparisons that are written: in order and without repetitions. -/
def compsOf (comps : List Comparison) : List Comparison :=
  ((comps.mergeSort fun a b => !b.lt a).destutter (· ≠ ·)).filter fun c => !c.ignore

def writeComparisons (flags : Flags) (comps : List Comparison) (compsCountPos : ℕ) (o : Out) :
    Option Out :=
  if 8 + 32 * comps.length > coverEnd flags then none
  else do
    let o ← o.writeAll ((compsOf comps).flatMap Comparison.words)
    return o.fill compsCountPos (ofNat (compsOf comps).length)

def Thread.errno (th : Thread) : UInt32 := if th.res ≠ -1 then 0 else th.reserrno

/-- The head of a record, and the places of the three numbers that are filled in later. -/
def Out.writeHead (o : Out) (th : Thread) : Option ((ℕ × ℕ × ℕ) × Out) := do
  let (_, o) ← o.write th.callIndex
  let (_, o) ← o.write th.callNum
  let (_, o) ← o.write th.errno
  let (_, o) ← o.write (if th.faultInjected then 1 else 0)
  let (signalCountPos, o) ← o.write 0
  let (coverCountPos, o) ← o.write 0
  let (compsCountPos, o) ← o.write 0
  return ((signalCountPos, coverCountPos, compsCountPos), o)

def Out.writeData (flags : Flags) (th : Thread) (places : ℕ × ℕ × ℕ) (o : Out) : Option Out :=
  let (signalCountPos, coverCountPos, compsCountPos) := places
  if flags.collectComps then writeComparisons flags th.comps compsCountPos o
  else writeCoverageSignal flags th.cover signalCountPos coverCountPos o

def handleCompletion (flags : Flags) (o : Out) (collide : Bool) (th : Thread) : Option Out :=
  if collide || th.colliding then some o
  else do
    let (places, o) ← o.writeHead th
    let o ← o.writeData flags th places
    let o := { o with completed := o.completed + 1 }
    return o.fill 0 o.completed

/-- The completions of an execution, with the value of `collide` at each of them. -/
def handleAll (flags : Flags) : List (Bool × Thread) → Out → Option Out
  | [], o => some o
  | (collide, th) :: ths, o =>
    (handleCompletion flags o collide th).bind fun o => handleAll flags ths o

/-- `execute_one`, as far as it writes output; the region may have anything in it before. -/
def execute (flags : Flags) (table : Table) (old : List UInt32) (ths : List (Bool × Thread)) :
    Option Out := do
  let (_, o) ← Out.write ⟨⟨old, 0⟩, 0, table⟩ 0
  handleAll flags ths o

/-! ### Reading -/

def compSizeMask : UInt32 := 6
def compSize8 : UInt32 := 6
def compConstMask : UInt32 := 1

/-- `CompMap`: a value and what it was compared with. -/
abbrev CompMap := Finset (UInt64 × UInt64)

/-- A signal that is nil is `none`. -/
structure CallInfo where
  signal : Option (List UInt32)
  cover : List UInt32
  comps : CompMap
  errno : ℤ
  faultInjected : Bool
  deriving DecidableEq

def notExecuted : CallInfo := ⟨none, [], ∅, -1, false⟩

inductive OutError
  | failedToRead
  | badCall (record callIndex total : ℕ)
  | badNum (record callIndex num callNum ncmd : ℕ)
  | doubleCoverage (callIndex : ℕ)
  | badSignal (record callIndex signalSize coverSize : ℕ)
  | badCover (record callIndex signalSize coverSize : ℕ)
  | noType (callIndex j : ℕ)
  | badType (typ callIndex j : ℕ)
  | noOp1 (j : ℕ)
  | noOp2 (j : ℕ)
  deriving DecidableEq

/-- How reading ends early: with an error, and what was read up to it, or with an index that is
out of range. -/
inductive Stop
  | panic
  | returned (info : List CallInfo) (err : OutError)
  deriving DecidableEq

def index {α : Type} (l : List α) (i : ℕ) : Except Stop α :=
  match l[i]? with
  | none => .error .panic
  | some a => .ok a

def cut (out : List UInt32) (n : ℕ) : Except Stop (List UInt32 × List UInt32) :=
  if n ≤ out.length then .ok (out.take n, out.drop n) else .error .panic

def wide (a b : UInt32) : UInt64 := a.toUInt64 + b.toUInt64 <<< 32

def readComparison (callIndex j : ℕ) :
    List UInt32 → Except OutError ((UInt32 × UInt64 × UInt64) × List UInt32)
  | [] => .error (.noType callIndex j)
  | typ :: out =>
    if typ > compConstMask ||| compSizeMask then .error (.badType typ.toNat callIndex j)
    else if typ &&& compSizeMask = compSize8 then
      match out with
      | a :: b :: c :: d :: out => .ok ((typ, wide a b, wide c d), out)
      | _ :: _ :: _ => .error (.noOp2 j)
      | _ => .error (.noOp1 j)
    else
      match out with
      | tmp1 :: tmp2 :: out => .ok ((typ, tmp1.toUInt64, tmp2.toUInt64), out)
      | _ :: _ => .error (.noOp2 j)
      | _ => .error (.noOp1 j)

/-- A comparison of a value with itself is of no use. -/
def addComparison (m : CompMap) (c : UInt32 × UInt64 × UInt64) : CompMap :=
  if c.2.1 = c.2.2 then m
  else
    let m := insert (c.2.2, c.2.1) m
    if c.1 &&& compConstMask ≠ 0 then m else insert (c.2.1, c.2.2) m

def readComparisons (callIndex : ℕ) :
    ℕ → ℕ → List UInt32 → CompMap → Except OutError (CompMap × List UInt32)
  | 0, _, out, m => .ok (m, out)
  | n + 1, j, out, m =>
    match readComparison callIndex j out with
    | .error e => .error e
    | .ok (c, out) => readComparisons callIndex n (j + 1) out (addComparison m c)

def len32 (out : List UInt32) : UInt32 := ofNat out.length

/-- One record. `calls` has the number of the system call of each call of the program. -/
def readRecord (calls : List ℕ) (ncmd i : ℕ) (out : List UInt32) (info : List CallInfo) :
    Except Stop (List UInt32 × List CallInfo) :=
  match out with
  | callIndex :: callNum :: errno :: faultInjected :: signalSize :: coverSize :: compsSize :: out =>
    let idx := callIndex.toNat
    if idx ≥ info.length then .error (.returned info (.badCall i idx info.length))
    else do
      let num ← index calls idx
      if ofNat num ≠ callNum then
        .error (.returned info (.badNum i idx num callNum.toNat ncmd))
      else do
        let ci ← index info idx
        if ci.signal ≠ none then .error (.returned info (.doubleCoverage idx))
        else do
          let ci := { ci with errno := errno.toNat, faultInjected := decide (faultInjected ≠ 0) }
          let sizes := (signalSize.toNat, coverSize.toNat)
          if signalSize > len32 out then
            .error (.returned (info.set idx ci) (.badSignal i idx sizes.1 sizes.2))
          else do
            let (signal, out) ← cut out signalSize.toNat
            let ci := { ci with signal := some signal }
            if coverSize > len32 out then
              .error (.returned (info.set idx ci) (.badCover i idx sizes.1 sizes.2))
            else do
              let (cover, out) ← cut out coverSize.toNat
              let ci := { ci with cover := cover }
              match readComparisons idx compsSize.toNat 0 out ∅ with
              | .error e => .error (.returned (info.set idx ci) e)
              | .ok (comps, out) => .ok (out, info.set idx { ci with comps := comps })
  | _ => .error (.returned info .failedToRead)

def readRecords (calls : List ℕ) (ncmd : ℕ) :
    ℕ → ℕ → List UInt32 → List CallInfo → Except Stop (List CallInfo)
  | 0, _, _, info => .ok info
  | n + 1, i, out, info => do
    let (out, info) ← readRecord calls ncmd i out info
    readRecords calls ncmd n (i + 1) out info

def readOutCoverage (calls : List ℕ) (region : List UInt32) : Except Stop (List CallInfo) :=
  match region with
  | [] => .error (.returned [] .failedToRead) -- cannot be: the region has 16 MiB
  | ncmd :: out =>
    readRecords calls ncmd.toNat ncmd.toNat 0 out (List.replicate calls.length notExecuted)

end Razzer.ExecOutput
