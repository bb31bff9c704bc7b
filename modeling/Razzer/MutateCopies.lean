import Razzer.MutateRace

/-!
`Mutate`, and `MutateRace` without racy calls.

`Mutate` is the function that `MutateRace` was copied from, with a state that has no indices. With
the indices -1 no guard of `MutateRace` holds and no index moves, so both go through the same
states, and the random source is in the same state after every draw. As the random source may be
any type, it may also keep a list of what was drawn.
-/

namespace Razzer.Mutation

open Args Progs Places Minimize
open Option (Rel)

variable {R S : Type*} (ops : Ops R S)

/-! ### `Mutate` -/

structure Plain (R : Type*) where
  p : Prog
  r : R
  next : Ref

namespace Plain

def withProg (s : Plain R) (p : Prog) : Plain R :=
  { s with p := p, next := max s.next (Prog.refBound p) }

def withRand (s : Plain R) (r : R) : Plain R := { s with r := r }

def intn (s : Plain R) (n : ℕ) : ℕ × Plain R :=
  ((ops.draw s.r).1 % n, s.withRand (ops.draw s.r).2)

def oneOf (s : Plain R) (n : ℕ) : Bool × Plain R := ((s.intn ops n).1 == 0, (s.intn ops n).2)

def nOutOf (s : Plain R) (n outOf : ℕ) : Bool × Plain R :=
  (decide ((s.intn ops outOf).1 < n), (s.intn ops outOf).2)

def mutateBlobOf (ptr : ℕ) (s : Plain R) : Plain R × Bool :=
  if ops.blobs s.p ptr = 0 then (s, true)
  else
    let (idx, s) := s.intn ops (ops.blobs s.p ptr)
    let x := ops.mutateBlob s.p ptr idx s.r
    ((s.withProg x.1.1).withRand x.2, false)

def squash (s : Plain R) : Plain R × Bool :=
  if ops.complexPtrs s.p = 0 then (s, true)
  else
    let (ptr, s) := s.intn ops (ops.complexPtrs s.p)
    mutateBlobOf ops ptr (s.withProg (ops.squashPtr s.p ptr).1)

def insertProg (p0c : Prog) (idx : ℕ) (s : Plain R) : Plain R :=
  let p0c := Prog.rename (· + s.next) p0c
  s.withProg ⟨insertAt s.p.calls idx p0c.calls, s.p.uses ∪ p0c.uses⟩

def splice (ncalls : ℕ) (corpus : List Prog) (s : Plain R) : Option (Plain R × Bool) :=
  if corpus.length = 0 ∨ s.p.calls.length = 0 then some (s, true)
  else
    let (k, s) := s.intn ops corpus.length
    corpus[k]?.bind fun p0 => p0.clone.bind fun p0c =>
      let (idx, s) := s.intn ops s.p.calls.length
      let s := s.insertProg p0c idx
      (truncate ncalls s.p.calls.length s.p).map fun p => ({ s with p := p }, false)

def insertCall (ncalls : ℕ) (s : Plain R) : Plain R × Bool :=
  if ncalls ≤ s.p.calls.length then (s, true)
  else
    let (idx, r) := ops.biasedRand s.r (s.p.calls.length + 1)
    let c := s.p.calls[idx]?.map Call.ret
    let x := ops.generateCall s.next s.p (ops.analyze s.p c) r
    ((s.withProg (Prog.insertBefore ⟨s.p.calls, x.2.1⟩ c x.1.calls)).withRand x.2.2, false)

structure ArgLoop (R S : Type*) where
  s : Plain R
  updateSizes : Bool
  st : S

def mutateArgAt (c : Ref) (idx : ℕ) (l : ArgLoop R S) : Option (ArgLoop R S × Bool) :=
  let x := ops.mutateArg l.s.next l.s.p c idx l.updateSizes l.st l.s.r
  match x.2.1 with
  | none => some (⟨(l.s.withProg x.1.1).withRand x.2.2.2.2, x.2.2.1, x.2.2.2.1⟩, true)
  | some new =>
    let s := (l.s.withProg (Prog.insertBefore x.1.1 (some c) new.calls)).withRand x.2.2.2.2
    (finishCall ops x.2.2.1 c s.p).map fun p => (⟨s.withProg p, x.2.2.1, x.2.2.2.1⟩, false)

def mutateArgsLoop (c : Ref) : ℕ → ArgLoop R S → Option (Plain R × Bool)
  | 0, _ => none
  | fuel + 1, l =>
    (l.s.p.calls.find? fun x => decide (x.ret = c)).bind fun call =>
      if ops.collectArgs call = 0 then some (l.s, true)
      else
        let (idx, s) := l.s.intn ops (ops.collectArgs call)
        (mutateArgAt ops c idx { l with s := s }).bind fun x =>
          let (stop, s) := x.1.s.oneOf ops 3
          if stop && !x.2 then some (s, false) else mutateArgsLoop c fuel { x.1 with s := s }

def mutateArgs (fuel : ℕ) (s : Plain R) : Option (Plain R × Bool) :=
  if s.p.calls.length = 0 then some (s, true)
  else
    let (cidx, s) := s.intn ops s.p.calls.length
    s.p.calls[cidx]?.bind fun c =>
      if c.args.length = 0 then some (s, true)
      else mutateArgsLoop ops c.ret fuel ⟨s, true, ops.analyze s.p (some c.ret)⟩

def removeRandomCall (s : Plain R) : Option (Plain R × Bool) :=
  if s.p.calls.length = 0 then some (s, true)
  else
    let (idx, s) := s.intn ops s.p.calls.length
    (s.p.removeCall idx).map fun p => ({ s with p := p }, false)

def round (fuel ncalls : ℕ) (corpus : List Prog) (s : Plain R) : Option (Plain R × Bool) :=
  let (b, s) := s.oneOf ops 5
  if b then some (squash ops s)
  else
    let (b, s) := s.nOutOf ops 1 100
    if b then splice ops ncalls corpus s
    else
      let (b, s) := s.nOutOf ops 20 31
      if b then some (insertCall ops ncalls s)
      else
        let (b, s) := s.nOutOf ops 10 11
        if b then mutateArgs ops fuel s else removeRandomCall ops s

def rounds (ncalls : ℕ) (corpus : List Prog) : ℕ → Plain R → Option (Plain R)
  | 0, _ => none
  | fuel + 1, s =>
    (round ops fuel ncalls corpus s).bind fun x =>
      let (stop, s) := x.1.oneOf ops 3
      if stop && !x.2 then some s else rounds ncalls corpus fuel s

end Plain

def mutate (fuel : ℕ) (p : Prog) (r : R) (ncalls : ℕ) (corpus : List Prog) : Option (Plain R) :=
  (Plain.rounds ops ncalls corpus fuel ⟨p, r, Prog.refBound p⟩).map fun s =>
    s.withProg
      { s.p with calls := s.p.calls.map fun c => { c with args := ops.sanitizeCall c } }

/-! ### States of both -/

variable {ops}

def Plain.state (t : Plain R) : State R := ⟨t.p, (-1, -1), t.r, t.next⟩

@[simp] lemma Plain.state_p (t : Plain R) : t.state.p = t.p := rfl

@[simp] lemma Plain.state_r (t : Plain R) : t.state.r = t.r := rfl

@[simp] lemma Plain.state_next (t : Plain R) :
    t.state.next = t.next := rfl

def Mirrors (s : State R) (t : Plain R) : Prop := s = t.state

def MirrorsEnd (x : State R × Bool) (y : Plain R × Bool) : Prop :=
  x = (y.1.state, y.2)

variable {A C D : Type*} {r' : C → D → Prop}

lemma rel_bind {B : Type*} {r : A → B → Prop} {o : Option A} {o' : Option B} {f : A → Option C}
    {g : B → Option D} (h : Rel r o o') (hf : ∀ a b, r a b → Rel r' (f a) (g b)) :
    Rel r' (o.bind f) (o'.bind g) := by
  cases h with
  | some hab => exact hf _ _ hab
  | none => exact .none

lemma rel_map {B : Type*} {r : A → B → Prop} {o : Option A} {o' : Option B} {f : A → C} {g : B → D}
    (h : Rel r o o') (hf : ∀ a b, r a b → r' (f a) (g b)) :
    Rel r' (o.map f) (o'.map g) := by
  cases h with
  | some hab => exact .some (hf _ _ hab)
  | none => exact .none

lemma rel_bind_same (o : Option A) {f : A → Option C} {g : A → Option D}
    (hf : ∀ a, Rel r' (f a) (g a)) : Rel r' (o.bind f) (o.bind g) := by
  cases o with
  | some a => exact hf a
  | none => exact .none

variable {f : A → C} {g : A → D}

lemma rel_map_same (o : Option A) (hf : ∀ a, r' (f a) (g a)) :
    Rel r' (o.map f) (o.map g) := by
  cases o with
  | some a => exact .some (hf a)
  | none => exact .none

lemma shift_state (t : Plain R) (idx n : ℕ) :
    t.state.shift idx n = t.state := by
  have hps : pastInsert idx n (-1) = -1 := if_neg (by omega)
  simp only [State.shift, Plain.state, hps]

/-! ### One round -/

section Round

variable (t : Plain R)

lemma mutateBlobOf_state (ptr : ℕ) :
    MirrorsEnd (mutateBlobOf ops ptr t.state) (Plain.mutateBlobOf ops ptr t) := by
  unfold mutateBlobOf Plain.mutateBlobOf
  show MirrorsEnd (if ops.blobs t.p ptr = 0 then _ else _) _
  split
  · exact rfl
  · exact rfl

lemma squash_state : MirrorsEnd (squash ops t.state) (Plain.squash ops t) := by
  unfold squash Plain.squash
  show MirrorsEnd (if ops.complexPtrs t.p = 0 then _ else _) _
  split
  · exact rfl
  · let drawn := t.intn ops (ops.complexPtrs t.p)
    exact mutateBlobOf_state (drawn.2.withProg (ops.squashPtr drawn.2.p drawn.1).1) drawn.1

lemma insertProg_state (p0c : Prog) (idx : ℕ) :
    insertProg p0c idx t.state = (t.insertProg p0c idx).state := by
  simp only [insertProg, shift_state]
  rfl

lemma splice_state (ncalls : ℕ) (corpus : List Prog) :
    Rel MirrorsEnd (splice ops ncalls corpus t.state) (Plain.splice ops ncalls corpus t) := by
  unfold splice spliceIn Plain.splice
  show Rel _ (Option.bind (if corpus.length = 0 ∨ t.p.calls.length = 0 then _ else _) _) _
  split
  · exact .some rfl
  · rw [Option.bind_assoc]
    refine rel_bind_same _ fun p0 => ?_
    rw [Option.bind_map]
    refine rel_bind_same _ fun p0c => ?_
    let drawn := (t.intn ops corpus.length).2.intn ops t.p.calls.length
    let mid := insertProg p0c drawn.1 drawn.2.state
    have hmid : mid = (drawn.2.insertProg p0c drawn.1).state := insertProg_state drawn.2 p0c drawn.1
    show Rel _ (Option.map (fun p => ({ mid with p := p }, false))
      (truncate ncalls mid.p.calls.length mid.p)) _
    rw [hmid]
    exact rel_map_same _ fun p => rfl

lemma insertCall_state (ncalls : ℕ) :
    MirrorsEnd (insertCall ops ncalls t.state) (Plain.insertCall ops ncalls t) := by
  unfold insertCall Plain.insertCall
  show MirrorsEnd (if ncalls ≤ t.p.calls.length then _ else _) _
  split
  · exact rfl
  · simp only [State.insertBefore, shift_state]
    exact rfl

/-- The index of the call, which `Mutate` does not keep, decides about nothing. -/
lemma mutateArgAt_state (c : Ref) (idx cidx : ℕ) (upd : Bool) (st : S) :
    Rel (fun x y => ∃ cidx', x =
        ((⟨y.1.s.state, cidx', y.1.updateSizes, y.1.st⟩ : ArgLoop R S), y.2))
      (mutateArgAt ops c idx ⟨t.state, cidx, upd, st⟩)
      (Plain.mutateArgAt ops c idx ⟨t, upd, st⟩) := by
  unfold mutateArgAt Plain.mutateArgAt
  simp only [State.insertBefore, shift_state]
  dsimp only [Plain.state_p, Plain.state_r, Plain.state_next]
  generalize ops.mutateArg t.next t.p c idx upd st t.r = x
  obtain ⟨q, new, upd', st', r⟩ := x
  cases new with
  | none => exact .some ⟨cidx, rfl⟩
  | some new => exact rel_map_same _ fun p => ⟨cidx + new.calls.length, rfl⟩

lemma mutateArgsLoop_state (c : Ref) (fuel cidx : ℕ) (upd : Bool) (st : S) :
    Rel MirrorsEnd (mutateArgsLoop ops c fuel ⟨t.state, cidx, upd, st⟩)
      (Plain.mutateArgsLoop ops c fuel ⟨t, upd, st⟩) := by
  induction fuel generalizing t cidx upd st with
  | zero => exact .none
  | succ fuel ih =>
    rw [mutateArgsLoop, Plain.mutateArgsLoop]
    refine rel_bind_same _ fun call => ?_
    split
    · exact .some rfl
    · refine rel_bind (mutateArgAt_state (t.intn ops (ops.collectArgs call)).2 c _ cidx
        upd st) ?_
      rintro _ ⟨⟨t', upd', st'⟩, failed⟩ ⟨cidx', rfl⟩
      show Rel _ (if (t'.oneOf ops 3).1 && !failed then _ else _) _
      simp only
      split
      · exact .some rfl
      · exact ih (t'.oneOf ops 3).2 cidx' upd' st'

lemma mutateArgs_state (fuel : ℕ) :
    Rel MirrorsEnd (mutateArgs ops fuel t.state) (Plain.mutateArgs ops fuel t) := by
  unfold mutateArgs Plain.mutateArgs
  show Rel _ (if t.p.calls.length = 0 then _ else _) _
  split
  · exact .some rfl
  · refine rel_bind_same _ fun c => ?_
    split
    · exact .some rfl
    · exact mutateArgsLoop_state (t.intn ops t.p.calls.length).2 c.ret fuel _ true _

lemma removeRandomCall_state :
    Rel MirrorsEnd (removeRandomCall ops t.state)
      (Plain.removeRandomCall ops t) := by
  unfold removeRandomCall Plain.removeRandomCall
  show Rel _ (if t.p.calls.length = 0 then _ else _) _
  split
  · exact .some rfl
  · have hkp : ∀ idx : ℕ, ¬ ((idx : ℤ) = -1 ∨ (idx : ℤ) = -1) := by omega
    have hps : ∀ idx : ℕ, pastErase idx (-1) = -1 := fun idx => if_neg (by omega)
    show Rel _ (if ((t.intn ops t.p.calls.length).1 : ℤ) = -1 ∨
      ((t.intn ops t.p.calls.length).1 : ℤ) = -1 then _ else _) _
    rw [if_neg (hkp _)]
    refine rel_map_same _ fun p => ?_
    simp only [MirrorsEnd, Plain.state, State.withRand, hps]
    rfl

/-- **One round.** -/
theorem round_state (fuel ncalls : ℕ) (corpus : List Prog) :
    Rel MirrorsEnd (round ops fuel ncalls corpus t.state)
      (Plain.round ops fuel ncalls corpus t) := by
  -- the draws before a case are the same in both
  let t₁ := (t.oneOf ops 5).2
  let t₂ := (t₁.nOutOf ops 1 100).2
  let t₃ := (t₂.nOutOf ops 20 31).2
  let t₄ := (t₃.nOutOf ops 10 11).2
  unfold round Plain.round
  show Rel _ (if (t.oneOf ops 5).1 then _ else _) (if (t.oneOf ops 5).1 then _ else _)
  split
  · exact .some (squash_state t₁)
  show Rel _ (if (t₁.nOutOf ops 1 100).1 then _ else _)
    (if (t₁.nOutOf ops 1 100).1 then _ else _)
  split
  · exact splice_state t₂ ncalls corpus
  show Rel _ (if (t₂.nOutOf ops 20 31).1 then _ else _)
    (if (t₂.nOutOf ops 20 31).1 then _ else _)
  split
  · exact .some (insertCall_state t₃ ncalls)
  show Rel _ (if (t₃.nOutOf ops 10 11).1 then _ else _)
    (if (t₃.nOutOf ops 10 11).1 then _ else _)
  split
  · exact mutateArgs_state t₄ fuel
  · exact removeRandomCall_state t₄

/-- **All rounds.** -/
theorem rounds_state (fuel ncalls : ℕ) (corpus : List Prog) :
    Rel Mirrors (rounds ops ncalls corpus fuel t.state)
      (Plain.rounds ops ncalls corpus fuel t) := by
  induction fuel generalizing t with
  | zero => exact .none
  | succ fuel ih =>
    rw [rounds, Plain.rounds]
    refine rel_bind (round_state t fuel ncalls corpus) ?_
    rintro _ ⟨t', retry⟩ rfl
    show Rel _ (if (t'.oneOf ops 3).1 && !retry then _ else _)
      (if (t'.oneOf ops 3).1 && !retry then _ else _)
    split
    · exact .some rfl
    · exact ih (t'.oneOf ops 3).2

end Round

/-! ### The whole mutation -/

def State.plain (s : State R) : Plain R := ⟨s.p, s.r, s.next⟩

/-- **`MutateRace` without racy calls is `Mutate`.** With the indices -1 it draws the same numbers
from the random source, makes the same program and returns the indices -1; it returns exactly if
`Mutate` does. -/
theorem mutateRace_eq_mutate (ops : Ops R S) (fuel : ℕ) (p : Prog) (r : R) (ncalls : ℕ)
    (corpus : List Prog) :
    (mutateRace ops fuel p r ncalls corpus (-1, -1)).map State.plain =
        mutate ops fuel p r ncalls corpus ∧
      ∀ s, mutateRace ops fuel p r ncalls corpus (-1, -1) = some s → s.index = (-1, -1) := by
  have hrn : Option.Rel Mirrors (mutateRace ops fuel p r ncalls corpus (-1, -1))
      (mutate ops fuel p r ncalls corpus) := by
    refine rel_map (rounds_state ⟨p, r, Prog.refBound p⟩ fuel ncalls corpus) ?_
    rintro _ t rfl
    rfl
  generalize mutateRace ops fuel p r ncalls corpus (-1, -1) = o at hrn ⊢
  generalize mutate ops fuel p r ncalls corpus = o' at hrn ⊢
  cases hrn with
  | none => exact ⟨rfl, by simp⟩
  | some hmr =>
    obtain rfl := hmr
    refine ⟨rfl, fun s hs => ?_⟩
    cases hs
    rfl

/-- A splice, an insertion and a removal. -/
example : ((mutate plainOps 3 twoCalls [1, 0, 0, 0, 1, 1, 5, 0, 0, 1, 1, 5, 25, 10, 1, 0] 4
    [oneCall]).map fun s => (s.p.calls.map fun c => c.syscall.name, s.r)) =
      some (["getpid", "sync", "pause"], []) := by
  decide +kernel

end Razzer.Mutation
