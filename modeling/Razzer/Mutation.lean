import Razzer.MinimizeRace

/-!
`MutateRace`.

Rounds of random changes to a program, with the indices of the two racy calls corrected by
hand after each of them. The random source, the generation of calls and the changes to the
arguments of a call are parameters: whatever they do, the calls of the program stay the same
calls, and the calls they return are new ones. New arguments get references that no argument
had before.
-/

namespace Razzer.Mutation

open Args Progs Places Minimize

/-! ### Programs -/

def Prog.rets (p : Prog) : List Ref := p.calls.map Call.ret

def Prog.Distinct (p : Prog) : Prop := (Prog.rets p).Nodup

instance (p : Prog) : Decidable (Prog.Distinct p) :=
  inferInstanceAs (Decidable (Prog.rets p).Nodup)

def Prog.refBound (p : Prog) : Ref := p.nodes.foldr (fun n m => max (n.1 + 1) m) 0

def Call.rename (f : Ref → Ref) (c : Call) : Call :=
  { c.mapResults fun _ n => { n with id := f n.id, res := n.res.map f } with ret := f c.ret }

def Prog.rename (f : Ref → Ref) (p : Prog) : Prog :=
  ⟨p.calls.map (Call.rename f), p.uses.image fun u => (f u.1, f u.2)⟩

abbrev Edit (p : Prog) := { q : Prog // sig q = sig p }

/-- Calls whose arguments have no reference below `next`. -/
structure NewCalls (next : Ref) where
  calls : List Call
  fresh : ∀ c ∈ calls, ∀ n ∈ c.nodes, next ≤ n.1
  nodup : (calls.map Call.ret).Nodup

/-! ### What mutation is built from -/

/-- The random source `R`, the analysis `S` of a program up to a call, and what is done to
arguments. -/
structure Ops (R S : Type*) where
  draw : R → ℕ × R
  /-- The place for a new call among `n` places. -/
  biasedRand : R → ℕ → ℕ × R
  analyze : Prog → Option Ref → S
  /-- The number of complex pointers, and of the blobs below one of them. -/
  complexPtrs : Prog → ℕ
  blobs : Prog → ℕ → ℕ
  squashPtr : (p : Prog) → ℕ → Edit p
  mutateBlob : (p : Prog) → ℕ → ℕ → R → Edit p × R
  /-- New calls, with the users of all arguments afterwards. -/
  generateCall : (next : Ref) → Prog → S → R → NewCalls next × Finset (Ref × Ref) × R
  /-- The number of arguments of a call that can be mutated. -/
  collectArgs : Call → ℕ
  /-- One of these arguments is mutated. There are no calls if this failed, and the flag is
  `updateSizes` after it. -/
  mutateArg : (next : Ref) → (p : Prog) → Ref → ℕ → Bool → S → R →
    Edit p × Option (NewCalls next) × Bool × S × R
  sanitizeCall : Call → List Arg

/-- The program and the indices of the racy calls. `next` is above all references that have
been in use. -/
structure State (R : Type*) where
  p : Prog
  index : ℤ × ℤ
  r : R
  next : Ref

variable {R S : Type*} (ops : Ops R S)

namespace State

def withProg (s : State R) (p : Prog) : State R :=
  { s with p := p, next := max s.next (Prog.refBound p) }

def withRand (s : State R) (r : R) : State R := { s with r := r }

def shift (s : State R) (idx n : ℕ) : State R :=
  { s with index := (pastInsert idx n s.index.1, pastInsert idx n s.index.2) }

def intn (s : State R) (n : ℕ) : ℕ × State R :=
  ((ops.draw s.r).1 % n, s.withRand (ops.draw s.r).2)

def oneOf (s : State R) (n : ℕ) : Bool × State R := ((s.intn ops n).1 == 0, (s.intn ops n).2)

def nOutOf (s : State R) (n outOf : ℕ) : Bool × State R :=
  (decide ((s.intn ops outOf).1 < n), (s.intn ops outOf).2)

end State

/-! ### One round

Every case returns the new state and whether the round has to be repeated. -/

def mutateBlobOf (ptr : ℕ) (s : State R) : State R × Bool :=
  if ops.blobs s.p ptr = 0 then (s, true)
  else
    let (idx, s) := s.intn ops (ops.blobs s.p ptr)
    let x := ops.mutateBlob s.p ptr idx s.r
    ((s.withProg x.1.1).withRand x.2, false)

def squash (s : State R) : State R × Bool :=
  if ops.complexPtrs s.p = 0 then (s, true)
  else
    let (ptr, s) := s.intn ops (ops.complexPtrs s.p)
    mutateBlobOf ops ptr (s.withProg (ops.squashPtr s.p ptr).1)

def truncate (ncalls : ℕ) : ℕ → Prog → Option Prog
  | 0, p => some p
  | i + 1, p => if ncalls ≤ i then (p.removeCall i).bind (truncate ncalls i) else some p

/-- The calls of `p0c` are put in at `idx`. -/
def insertProg (p0c : Prog) (idx : ℕ) (s : State R) : State R :=
  let p0c := Prog.rename (· + s.next) p0c
  let s := s.shift idx p0c.calls.length
  s.withProg ⟨insertAt s.p.calls idx p0c.calls, s.p.uses ∪ p0c.uses⟩

def spliceIn (corpus : List Prog) (s : State R) : Option (State R × Bool) :=
  if corpus.length = 0 ∨ s.p.calls.length = 0 then some (s, true)
  else
    let (k, s) := s.intn ops corpus.length
    corpus[k]?.bind fun p0 => p0.clone.map fun p0c =>
      let (idx, s) := s.intn ops s.p.calls.length
      (insertProg p0c idx s, false)

def splice (ncalls : ℕ) (corpus : List Prog) (s : State R) : Option (State R × Bool) :=
  (spliceIn ops corpus s).bind fun x =>
    if x.2 then some x
    else (truncate ncalls x.1.p.calls.length x.1.p).map fun p => ({ x.1 with p := p }, false)

/-- The program becomes `p` with `calls` in front of call `c`, at `idx`. -/
def State.insertBefore (s : State R) (p : Prog) (idx : ℕ) (c : Option Ref) (calls : List Call) :
    State R :=
  (s.shift idx calls.length).withProg (p.insertBefore c calls)

def insertCall (ncalls : ℕ) (s : State R) : State R × Bool :=
  if ncalls ≤ s.p.calls.length then (s, true)
  else
    let (idx, r) := ops.biasedRand s.r (s.p.calls.length + 1)
    let c := s.p.calls[idx]?.map Call.ret
    let x := ops.generateCall s.next s.p (ops.analyze s.p c) r
    ((s.insertBefore ⟨s.p.calls, x.2.1⟩ idx c x.1.calls).withRand x.2.2, false)

/-- The sizes of call `c` are assigned, if they have to be, and the call is sanitised. -/
def finishCall (updateSizes : Bool) (c : Ref) (p : Prog) : Option Prog :=
  let i := p.calls.findIdx fun x => decide (x.ret = c)
  (if updateSizes then assignSizesAt i p else some p).map fun p =>
    { p with calls := p.calls.modify i fun x => { x with args := ops.sanitizeCall x } }

structure ArgLoop (R S : Type*) where
  s : State R
  cidx : ℕ
  updateSizes : Bool
  st : S

/-- Argument `idx` of call `c` is mutated; the flag says that this failed. -/
def mutateArgAt (c : Ref) (idx : ℕ) (l : ArgLoop R S) : Option (ArgLoop R S × Bool) :=
  let x := ops.mutateArg l.s.next l.s.p c idx l.updateSizes l.st l.s.r
  match x.2.1 with
  | none => some (⟨(l.s.withProg x.1.1).withRand x.2.2.2.2, l.cidx, x.2.2.1, x.2.2.2.1⟩, true)
  | some new =>
    let s := (l.s.insertBefore x.1.1 l.cidx (some c) new.calls).withRand x.2.2.2.2
    (finishCall ops x.2.2.1 c s.p).map fun p =>
      (⟨s.withProg p, l.cidx + new.calls.length, x.2.2.1, x.2.2.2.1⟩, false)

def mutateArgsLoop (c : Ref) : ℕ → ArgLoop R S → Option (State R × Bool)
  | 0, _ => none
  | fuel + 1, l =>
    (l.s.p.calls.find? fun x => decide (x.ret = c)).bind fun call =>
      if ops.collectArgs call = 0 then some (l.s, true)
      else
        let (idx, s) := l.s.intn ops (ops.collectArgs call)
        (mutateArgAt ops c idx { l with s := s }).bind fun x =>
          let (stop, s) := x.1.s.oneOf ops 3
          if stop && !x.2 then some (s, false) else mutateArgsLoop c fuel { x.1 with s := s }

def mutateArgs (fuel : ℕ) (s : State R) : Option (State R × Bool) :=
  if s.p.calls.length = 0 then some (s, true)
  else
    let (cidx, s) := s.intn ops s.p.calls.length
    s.p.calls[cidx]?.bind fun c =>
      if c.args.length = 0 then some (s, true)
      else mutateArgsLoop ops c.ret fuel ⟨s, cidx, true, ops.analyze s.p (some c.ret)⟩

def removeRandomCall (s : State R) : Option (State R × Bool) :=
  if s.p.calls.length = 0 then some (s, true)
  else
    let (idx, s) := s.intn ops s.p.calls.length
    if (idx : ℤ) = s.index.1 ∨ (idx : ℤ) = s.index.2 then some (s, true)
    else
      (s.p.removeCall idx).map fun p =>
        ({ s with p := p, index := (pastErase idx s.index.1, pastErase idx s.index.2) }, false)

def round (fuel ncalls : ℕ) (corpus : List Prog) (s : State R) : Option (State R × Bool) :=
  let (b, s) := s.oneOf ops 5
  if b then some (squash ops s)
  else
    let (b, s) := s.nOutOf ops 1 100
    if b then splice ops ncalls corpus s
    else
      let (b, s) := s.nOutOf ops 20 31
      if b then some (insertCall ops ncalls s)
      else
        let (b, s) := s.nOutOf ops 10 11
        if b then mutateArgs ops fuel s else removeRandomCall ops s

/-! ### All rounds -/

def rounds (ncalls : ℕ) (corpus : List Prog) : ℕ → State R → Option (State R)
  | 0, _ => none
  | fuel + 1, s =>
    (round ops fuel ncalls corpus s).bind fun x =>
      let (stop, s) := x.1.oneOf ops 3
      if stop && !x.2 then some s else rounds ncalls corpus fuel s

def mutateRace (fuel : ℕ) (p : Prog) (r : R) (ncalls : ℕ) (corpus : List Prog)
    (index : ℤ × ℤ) : Option (State R) :=
  (rounds ops ncalls corpus fuel ⟨p, index, r, Prog.refBound p⟩).map fun s =>
    s.withProg
      { s.p with calls := s.p.calls.map fun c => { c with args := ops.sanitizeCall c } }

end Razzer.Mutation
