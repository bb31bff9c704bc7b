import Razzer.Progs

/-!
`Serialize`: programs as text.

Arguments that are used get a number when they are printed, and a result argument prints the
number of what it uses. Arguments with default values are left out where parsing puts them
back. The text is a list of characters; a byte of a buffer is printed as a character only if it
is an ASCII one.
-/

namespace Razzer.Encoding

open Args Progs String

/-- What printing depends on besides the arguments: the page size of the target and the
arguments that are used. -/
structure Encoder where
  pageSize : UInt64
  isUsed : Ref → Bool

def vmaIsNull (address vmaSize : UInt64) : Bool := address == 0 && vmaSize == 0

def fixedInnerSize (t : ArrayType) : Bool :=
  t.kind == .rangeLen && t.rangeBegin == t.rangeEnd

mutual
def isDefaultArg (e : Encoder) : Arg → Bool
  | .const t val => t.isPad || val == t.default
  | .ptr t address res => !t.optional && address == 0 && isDefaultArg e res
  | .null _ _ => true
  | .vma t address vmaSize =>
    if t.optional then vmaIsNull address vmaSize else address == 0 && vmaSize == e.pageSize
  | .data t bs outSize =>
    if dataSize bs outSize = 0 then true
    else if t.varlen then false
    else if t.dir = .dirOut then true
    else bs.all (· == 0)
  | .struct _ inner => areDefaultArgs e inner
  | .array t inner => (fixedInnerSize t || inner.isEmpty) && areDefaultArgs e inner
  | .union t option => option.fieldName == t.firstField && isDefaultArg e option
  | .result t n =>
    n.res.isNone && n.opDiv == 0 && n.opAdd == 0 && !e.isUsed n.id && n.val == t.default

def areDefaultArgs (e : Encoder) : List Arg → Bool
  | [] => true
  | a :: as => isDefaultArg e a && areDefaultArgs e as
end

/-! ### Printing -/

/-- The text so far, and the numbers of the arguments that are used. -/
structure Printer where
  text : List Char
  vars : List (Ref × ℕ)
  varSeq : ℕ

namespace Printer

def print (st : Printer) (s : String) : Printer := { st with text := st.text ++ s.toList }

/-- A variable for an argument, printed between the two strings. -/
def bindVar (st : Printer) (before after : String) (id : Ref) : Printer :=
  { (st.print (before ++ toString st.varSeq ++ after)) with
    vars := (id, st.varSeq) :: st.vars
    varSeq := st.varSeq + 1 }

end Printer

def hex (n : ℕ) : String := "0x" ++ ofList (Nat.toDigits 16 n)

def encodeToString (bytes : List UInt8) : String :=
  ofList (bytes.flatMap fun b => [(b.toNat / 16).digitChar, (b.toNat % 16).digitChar])

def readable (b : UInt8) : Bool :=
  decide (0x20 ≤ b ∧ b < 0x7f) || [0, 7, 8, 12, 10, 13, 9, 11].contains b

def escape (b : UInt8) : String :=
  match b.toNat with
  | 0 => "\\x00"
  | 7 => "\\a"
  | 8 => "\\b"
  | 12 => "\\f"
  | 10 => "\\n"
  | 13 => "\\r"
  | 9 => "\\t"
  | 11 => "\\v"
  | 39 => "\\'"
  | 92 => "\\\\"
  | n => ofList [Char.ofNat n]

def serializeData (bytes : List UInt8) : String :=
  if !bytes.all readable || bytes.isEmpty then "\"" ++ encodeToString bytes ++ "\""
  else "'" ++ join (bytes.map escape) ++ "'"

/-- Of two or more zeros at the end of data of a fixed size, one is printed. -/
def stripZeros : List UInt8 → List UInt8
  | [] => []
  | b :: bs =>
    match stripZeros bs with
    | [0] => if b = 0 then [0] else [b, 0]
    | rest => b :: rest

def encodingAddrBase : UInt64 := 0x7f0000000000

def serializeAddr (address vmaSize : UInt64) : String :=
  let ssize := if vmaSize ≠ 0 then "/" ++ hex vmaSize.toNat else ""
  "(" ++ hex (encodingAddrBase + address).toNat ++ ssize ++ ")"

/-- A result argument; it is fatal if what it uses has not been printed. -/
def serializeResult (n : ResultNode) (st : Printer) : Option Printer :=
  match n.res with
  | none => some (st.print (hex n.val.toNat))
  | some x =>
    (st.vars.lookup x).map fun id =>
      st.print ("r" ++ toString id ++
        (if n.opDiv ≠ 0 then "/" ++ toString n.opDiv.toNat else "") ++
        (if n.opAdd ≠ 0 then "+" ++ toString n.opAdd.toNat else ""))

def printedLen (e : Encoder) (fixed : Bool) (inner : List Arg) : ℕ :=
  if fixed then (inner.reverse.dropWhile (isDefaultArg e)).length else inner.length

mutual
def serializeArg (e : Encoder) : Arg → Printer → Option Printer
  | .const _ val, st => some (st.print (hex val.toNat))
  | .null _ _, st => some (st.print "0x0")
  | .ptr t address res, st =>
    let st := st.print ("&" ++ serializeAddr address 0)
    if !isDefaultArg e res || t.isAny then
      serializeArg e res (st.print (if t.isAny then "=ANY=" else "="))
    else some st
  | .vma _ address vmaSize, st =>
    if vmaIsNull address vmaSize then some (st.print "0x0")
    else some (st.print ("&" ++ serializeAddr address vmaSize ++ "=nil"))
  | .data t bs outSize, st =>
    if t.dir = .dirOut then some (st.print ("\"\"/" ++ toString (dataSize bs outSize)))
    else some (st.print (serializeData (if t.varlen then bs else stripZeros bs)))
  | .struct _ inner, st =>
    (serializeInner e 0 (printedLen e true inner) inner (st.print "\x7b")).map
      fun st => st.print "\x7d"
  | .array t inner, st =>
    (serializeInner e 0 (printedLen e (fixedInnerSize t) inner) inner (st.print "[")).map
      fun st => st.print "]"
  | .union _ option, st =>
    let st := st.print ("@" ++ option.fieldName)
    if !isDefaultArg e option then serializeArg e option (st.print "=") else some st
  | .result _ n, st =>
    serializeResult n (if e.isUsed n.id then st.bindVar "<r" "=>" n.id else st)

/-- The inner arguments of a group from number `i` on; `n` of them are printed. -/
def serializeInner (e : Encoder) : ℕ → ℕ → List Arg → Printer → Option Printer
  | _, _, [], st => some st
  | _, 0, _ :: _, st => some st
  | i, n + 1, a :: as, st =>
    if a.isPad then serializeInner e (i + 1) n as st
    else
      (serializeArg e a (if i ≠ 0 then st.print ", " else st)).bind (serializeInner e (i + 1) n as)
end

def serializeCall (e : Encoder) (c : Call) (st : Printer) : Option Printer :=
  let st := if e.isUsed c.ret then st.bindVar "r" " = " c.ret else st
  (serializeInner e 0 c.args.length c.args (st.print (c.syscall.name ++ "("))).map
    fun st => st.print ")\n"

def serializeCalls (e : Encoder) : List Call → Printer → Option Printer
  | [], st => some st
  | c :: cs, st => (serializeCall e c st).bind (serializeCalls e cs)

def serialize (pageSize : UInt64) (p : Prog) : Option (List Char) :=
  (serializeCalls ⟨pageSize, p.isUsed⟩ p.calls ⟨[], [], 0⟩).map Printer.text

end Razzer.Encoding
