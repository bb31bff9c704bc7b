import Razzer.Trim

/-!
`Minimize` and `MinimizeRace`.

Both ask a predicate about simpler programs, first without single calls and then with simpler
arguments, and commit to a program the predicate accepts. They differ in the indices they
keep track of, so they are one function of the list of these indices. The predicate may
depend on all earlier queries.

The arguments of a call are tried in one walk over a copy of the committed program. Most
attempts that are accepted end the walk; a buffer commits the copy without a question and
the walk goes on, so from there on every change of the copy is a change of the committed
program, which `shared` records.
-/

namespace Razzer.Minimize

open Args Progs Sizes Trim

structure Query where
  prog : Prog
  callIndex : ℤ
  index : List ℤ

abbrev Log := List (Query × Bool)

/-- The predicate, given all earlier queries and answers. -/
abbrev Pred := Log → Query → Bool

/-! ### Removing calls -/

def shiftIndex (i : ℕ) (k : ℤ) : ℤ := if (i : ℤ) < k then k - 1 else k

structure Tracked where
  p0 : Prog
  callIndex : ℤ
  index : List ℤ
  log : Log

/-- The loop over the calls, from the last one to the first. -/
def removeCalls (pred : Pred) : ℕ → Tracked → Option Tracked
  | 0, s => some s
  | i + 1, s =>
    if (i : ℤ) = s.callIndex ∨ (i : ℤ) ∈ s.index then removeCalls pred i s
    else
      match s.p0.clone.bind fun p => p.removeCall i with
      | none => none
      | some p =>
        let q : Query := ⟨p, shiftIndex i s.callIndex, s.index.map (shiftIndex i)⟩
        let ans := pred s.log q
        let log := s.log ++ [(q, ans)]
        if ans then removeCalls pred i ⟨p, q.callIndex, q.index, log⟩
        else removeCalls pred i { s with log := log }

/-! ### Simplifying the arguments of a call -/

/-- What stays the same while the arguments of call `call` are tried. -/
structure Env where
  pred : Pred
  crash : Bool
  callIndex : ℤ
  index : List ℤ
  call : ℕ

/-- The copy `p`, the committed program `p0`, and whether these are the same object. -/
structure Walk where
  p : Prog
  p0 : Prog
  shared : Bool
  triedPaths : List String
  log : Log

namespace Walk

def set (w : Walk) (p : Prog) : Walk := { w with p := p, p0 := if w.shared then p else w.p0 }

def commit (w : Walk) : Walk := { w with p0 := w.p, shared := true }

def tried (w : Walk) (path : String) : Walk := { w with triedPaths := path :: w.triedPaths }

def query (w : Walk) (env : Env) : Query := ⟨w.p, env.callIndex, env.index⟩

def answer (w : Walk) (env : Env) : Bool := env.pred w.log (w.query env)

def ask (w : Walk) (env : Env) : Walk :=
  { w with log := w.log ++ [(w.query env, w.answer env)] }

end Walk

/-- The argument of a call at a position, which begins with the number of the argument. -/
def modifyArgs (f : Arg → Arg) (pos : List ℕ) (args : List Arg) : List Arg :=
  match pos with
  | [] => args
  | j :: pos => args.modify j (Arg.modifyAt f pos)

def argAt (p : Prog) (i : ℕ) (pos : List ℕ) : Option Arg :=
  match pos with
  | [] => none
  | j :: pos => p.calls[i]?.bind fun c => c.args[j]?.bind (Arg.getAt pos)

def modifyProg (f : Arg → Arg) (i : ℕ) (pos : List ℕ) (p : Prog) : Prog :=
  { p with calls := p.calls.modify i fun c => { c with args := modifyArgs f pos c.args } }

def assignSizesAt (i : ℕ) (p : Prog) : Option Prog :=
  p.calls[i]?.bind fun c => (assignSizesCall c).map fun c => { p with calls := p.calls.set i c }

def setVal (val : UInt64) : Arg → Arg
  | .const t _ => .const t val
  | a => a

def setResult (res : Option Ref) (val : UInt64) : Arg → Arg
  | .result t n => .result t { n with res := res, val := val }
  | a => a

def setData (bytes : List UInt8) : Arg → Arg
  | .data t _ outSize => .data t bytes outSize
  | a => a

def eraseElem (k : ℕ) : Arg → Arg
  | .array t inner => .array t (inner.eraseIdx k)
  | a => a

def isValue (t : ConstType) : Bool :=
  match t.kind with
  | .int | .flags | .proc => true
  | _ => false

def tryConst (env : Env) (w : Walk) (pos : List ℕ) (path : String) (t : ConstType)
    (val : UInt64) : Option (Bool × Walk) :=
  if !isValue t || env.crash || decide (path ∈ w.triedPaths) then some (false, w)
  else
    let w := w.tried path
    if val = t.default then some (false, w)
    else
      let w := w.set (modifyProg (setVal t.default) env.call pos w.p)
      if w.answer env then some (true, (w.ask env).commit)
      else
        let w := w.ask env
        some (false, w.set (modifyProg (setVal val) env.call pos w.p))

/-- The links to the argument that was used are not touched, and the value is 0 afterwards
whatever it was. -/
def tryResult (env : Env) (w : Walk) (pos : List ℕ) (path : String) (t : ResourceType)
    (n : ResultNode) : Option (Bool × Walk) :=
  if env.crash || decide (path ∈ w.triedPaths) then some (false, w)
  else
    let w := w.tried path
    if n.res = none then some (false, w)
    else
      let w := w.set (modifyProg (setResult none t.default) env.call pos w.p)
      if w.answer env then some (true, (w.ask env).commit)
      else
        let w := w.ask env
        some (false, w.set (modifyProg (setResult n.res 0) env.call pos w.p))

/-- The data of a buffer is replaced and all length fields of the call are set. -/
def withData (env : Env) (w : Walk) (pos : List ℕ) (bytes : List UInt8) : Option Walk :=
  (assignSizesAt env.call (modifyProg (setData bytes) env.call pos w.p)).map w.set

/-- The loop that takes `step` bytes off the end while the predicate accepts that, and halves
`step` when it does not. A round takes bytes off or makes `step` smaller, so the sum of both
bounds the number of rounds. -/
def shrink (env : Env) (pos : List ℕ) (minLen : ℕ) :
    ℕ → ℕ → List UInt8 → Walk → Option Walk
  | 0, _, _, w => some w
  | rounds + 1, step, bytes, w =>
    if minLen < bytes.length ∧ 0 < step then
      if minLen + step ≤ bytes.length then
        let shorter := bytes.take (bytes.length - step)
        (withData env w pos shorter).bind fun w =>
          if w.answer env then shrink env pos minLen rounds step shorter (w.ask env)
          else
            (withData env (w.ask env) pos bytes).bind fun w =>
              if env.crash then some w else shrink env pos minLen rounds (step / 2) bytes w
      else if env.crash then some w
      else shrink env pos minLen rounds (step / 2) bytes w
    else some w

def tryData (env : Env) (w : Walk) (pos : List ℕ) (path : String) (t : BufferType)
    (bytes : List UInt8) : Option (Bool × Walk) :=
  if path ∈ w.triedPaths then some (false, w)
  else
    let w := w.tried path
    if !blob t then some (false, w)
    else
      let step := bytes.length - t.rangeBegin
      (shrink env pos t.rangeBegin (bytes.length + step) step bytes w).map fun w =>
        (false, w.commit)

def removable (t : ArrayType) (len : ℕ) : Bool :=
  t.kind == .rangeLen && decide (t.rangeBegin < len) || t.kind == .randLen

/-- Element `k` of the array at `pos` is removed, with all links to it, and the predicate is
asked. Nothing is put back if the answer is no, as the copy is thrown away then. -/
def removeElem (env : Env) (w : Walk) (pos : List ℕ) (path : String) (k : ℕ) (elem : Arg) :
    Option (Bool × Walk) :=
  ((w.p.removeArg elem).bind fun p =>
    assignSizesAt env.call (modifyProg (eraseElem k) env.call pos p)).map fun p =>
      let w := w.set p
      if w.answer env then (true, (w.ask env).commit) else (true, (w.ask env).tried path)

def tryElem (env : Env) (w : Walk) (pos : List ℕ) (path : String) (k : ℕ) :
    Option (Bool × Walk) :=
  match argAt w.p env.call pos with
  | some (.array t inner) =>
    match inner[k]? with
    | some elem =>
      if decide (path ∉ w.triedPaths) && !env.crash && removable t inner.length then
        removeElem env w pos path k elem
      else some (false, w)
    | none => some (false, w)
  | _ => some (false, w)

def tryLeaf (env : Env) (w : Walk) (pos : List ℕ) (path : String) : Option (Bool × Walk) :=
  match argAt w.p env.call pos with
  | some (.const t val) => tryConst env w pos path t val
  | some (.result t n) => tryResult env w pos path t n
  | some (.data t bytes _) => tryData env w pos path t bytes
  | _ => some (false, w)

def andThen (r : Option (Bool × Walk)) (f : Walk → Option (Bool × Walk)) :
    Option (Bool × Walk) :=
  r.bind fun x => if x.1 then some x else f x.2

mutual
/-- `rec`. The tree keeps its shape until the walk ends, so it is gone through as it was when
the walk began; what an argument is and has is looked up in the copy when it is needed. -/
def recArg (env : Env) (pos : List ℕ) (path : String) : Arg → Walk → Option (Bool × Walk)
  | .struct t inner, w => recFields env pos (path ++ "-" ++ t.fieldName) 0 inner w
  | .union t option, w => recArg env (pos ++ [0]) (path ++ "-" ++ t.fieldName) option w
  | .ptr t _ res, w => recArg env (pos ++ [0]) (path ++ "-" ++ t.fieldName) res w
  | .array t inner, w => recElems env pos (path ++ "-" ++ t.fieldName) 0 inner w
  | a, w => tryLeaf env w pos (path ++ "-" ++ a.fieldName)

def recFields (env : Env) (pos : List ℕ) (path : String) :
    ℕ → List Arg → Walk → Option (Bool × Walk)
  | _, [], w => some (false, w)
  | k, a :: as, w =>
    andThen (recArg env (pos ++ [k]) path a w) (recFields env pos path (k + 1) as)

def recElems (env : Env) (pos : List ℕ) (path : String) :
    ℕ → List Arg → Walk → Option (Bool × Walk)
  | _, [], w => some (false, w)
  | k, a :: as, w =>
    andThen (tryElem env w pos (path ++ "-" ++ toString k) k) fun w =>
      andThen (recArg env (pos ++ [k]) (path ++ "-" ++ toString k) a w)
        (recElems env pos path (k + 1) as)
end

def recArgs (env : Env) : ℕ → List Arg → Walk → Option (Bool × Walk)
  | _, [], w => some (false, w)
  | j, a :: as, w => andThen (recArg env [j] (toString j) a w) (recArgs env (j + 1) as)

def minimizeCall (env : Env) : ℕ → Walk → Option Walk
  | 0, _ => none
  | fuel + 1, w =>
    w.p0.clone.bind fun p =>
      p.calls[env.call]?.bind fun c =>
        (recArgs env 0 c.args { w with p := p, shared := false }).bind fun x =>
          if x.1 then minimizeCall env fuel x.2 else some x.2

def minimizeCalls (env : Env) (fuel : ℕ) : ℕ → ℕ → Walk → Option Walk
  | 0, _, w => some w
  | n + 1, i, w =>
    (minimizeCall { env with call := i } fuel { w with triedPaths := [] }).bind
      (minimizeCalls env fuel n (i + 1))

/-- The name of the tracked call; there is none for the index -1, and another index outside
the program is fatal. -/
def trackedName (p : Prog) (callIndex : ℤ) : Option (Option String) :=
  if callIndex = -1 then some none
  else if callIndex < 0 then none
  else p.calls[callIndex.toNat]?.map fun c => some c.syscall.name

def minimizeWith (fuel : ℕ) (p0 : Prog) (callIndex : ℤ) (index : List ℤ) (crash : Bool)
    (pred : Pred) : Option Tracked :=
  (trackedName p0 callIndex).bind fun name0 =>
    (removeCalls pred p0.calls.length ⟨p0, callIndex, index, []⟩).bind fun s =>
      let env : Env := ⟨pred, crash, s.callIndex, s.index, 0⟩
      (minimizeCalls env fuel s.p0.calls.length 0 ⟨s.p0, s.p0, false, [], s.log⟩).bind fun w =>
        if trackedName w.p0 s.callIndex = some name0 then
          some ⟨w.p0, s.callIndex, s.index, w.log⟩
        else none

def minimize (fuel : ℕ) (p0 : Prog) (callIndex : ℤ) (crash : Bool) (pred : Pred) :
    Option Tracked :=
  minimizeWith fuel p0 callIndex [] crash pred

def minimizeRace (fuel : ℕ) (p0 : Prog) (callIndex : ℤ) (crash : Bool) (pred : Pred)
    (index : ℤ × ℤ) : Option Tracked :=
  minimizeWith fuel p0 callIndex [index.1, index.2] crash pred

end Razzer.Minimize
