import Razzer.Mutation

/-!
The indices of the racy calls while a program is mutated.

The indices follow their calls through every change but one: a splice moves the racy calls
towards the end and then cuts the program to its length, and the indices are not corrected
for what is cut off. A call that is gone does not come back, as all calls that are put in are
new.
-/

namespace Razzer.Mutation

open Args Progs Places Minimize List
open Prog (rets Distinct)
open Option (bind_eq_some_iff map_eq_some_iff)

variable {R S : Type*} {ops : Ops R S}

/-! ### What single operations do to the calls -/

lemma rets_eq (p : Prog) : rets p = (sig p).map Prod.fst := by
  rw [rets, sig, map_map]
  rfl

variable {p q : Prog} {i fuel : ℕ} {b : Bool} {c : Ref} {s t : State R} {corpus : List Prog}

variable {x : Ref} {as : List Arg} {l : ArgLoop R S} {idx j : ℕ} {z : ArgLoop R S × Bool}

lemma lt_refBound (h : x ∈ rets p) : x < Prog.refBound p := by
  obtain ⟨c, hc, rfl⟩ := mem_map.1 h
  have hnd : (c.ret, none) ∈ p.nodes :=
    mem_flatMap.2 ⟨c, hc, mem_cons_self ..⟩
  unfold Prog.refBound
  generalize p.nodes = nodes at hnd
  induction nodes with
  | nil => cases hnd
  | cons n nodes ih =>
    rw [foldr_cons]
    rcases mem_cons.1 hnd with rfl | hmem
    · exact lt_of_lt_of_le (Nat.lt_succ_self _) (le_max_left ..)
    · exact lt_of_lt_of_le (ih hmem) (le_max_right ..)

lemma sig_removeArgs (h : p.removeArgs as = some q) : sig q = sig p := by
  induction as generalizing p with
  | nil =>
    cases h
    rfl
  | cons a as ih =>
    obtain ⟨p', hp', h⟩ := bind_eq_some_iff.1 h
    rw [ih h]
    unfold Prog.removeArg at hp'
    split at hp'
    · obtain ⟨f, -, hcl⟩ := Prog.removeNodes_calls hp'
      rw [sig, hcl, sig_mapResults, sig]
    · cases hp'

lemma sig_removeCall (h : p.removeCall i = some q) : sig q = (sig p).eraseIdx i := by
  unfold Prog.removeCall at h
  split at h
  · cases h
  · obtain ⟨p', hp', h⟩ := bind_eq_some_iff.1 h
    obtain ⟨p'', hp'', rfl⟩ := map_eq_some_iff.1 h
    obtain ⟨f, -, hcl⟩ := Prog.removeNode_calls hp''
    rw [← sig_removeArgs hp']
    unfold sig
    rw [← eraseIdx_map, hcl, sig_mapResults]

lemma sig_truncate {ncalls n : ℕ} (h : truncate ncalls n p = some q) (hn : p.calls.length = n) :
    sig q = (sig p).take ncalls := by
  induction n generalizing p with
  | zero =>
    cases h
    rw [length_eq_zero_iff] at hn
    simp [sig, hn]
  | succ i ih =>
    have hlen : (sig p).length = i + 1 := by rw [sig, length_map, hn]
    rw [truncate] at h
    split at h
    case isTrue hle =>
      obtain ⟨p', hp', h⟩ := bind_eq_some_iff.1 h
      have hsig := sig_removeCall hp'
      have hlen' : p'.calls.length = i := by
        have := congrArg length hsig
        rw [length_eraseIdx_of_lt (by omega), hlen, sig, length_map] at this
        omega
      rw [ih h hlen', hsig, eraseIdx_eq_take_drop_succ, drop_of_length_le (by omega),
        append_nil, take_take, Nat.min_eq_left hle]
    case isFalse hlt =>
      cases h
      rw [take_of_length_le (by omega)]

lemma findIdx_ret {l : List Call} (hl : (l.map Call.ret).Nodup) {c : Call} (hc : l[i]? = some c) :
    (l.findIdx fun x => decide (x.ret = c.ret)) = i := by
  obtain ⟨hi, rfl⟩ := List.getElem?_eq_some_iff.1 hc
  rw [findIdx_eq hi]
  refine ⟨by simp, fun j hj => decide_eq_false fun heq => ?_⟩
  have hj' : j < (l.map Call.ret).length := by
    rw [length_map]
    omega
  have hget : (l.map Call.ret).get ⟨j, hj'⟩ = (l.map Call.ret).get ⟨i, by rwa [length_map]⟩ := by
    simpa using heq
  have hji : j = i := congrArg Fin.val (nodup_iff_injective_get.1 hl hget)
  omega

lemma sig_insertBefore (hp : Distinct p) (i : ℕ) (b : List Call) :
    sig (p.insertBefore (p.calls[i]?.map Call.ret) b) =
      insertAt (sig p) i (b.map fun c => (c.ret, c.syscall)) := by
  have hsig : ∀ k, sig ⟨p.calls.take k ++ b ++ p.calls.drop k, p.uses⟩ =
      insertAt (sig p) k (b.map fun c => (c.ret, c.syscall)) := fun k =>
    map_insertAt (fun c : Call => (c.ret, c.syscall)) p.calls k b
  cases hc : p.calls[i]? with
  | some c =>
    have hidx := findIdx_ret hp hc
    simp only [Prog.insertBefore, Option.map_some, Option.some.injEq, hidx]
    exact hsig i
  | none =>
    have hlen : p.calls.length ≤ i := getElem?_eq_none_iff.1 hc
    have hidx : (p.calls.findIdx fun x => decide (some x.ret = none)) = p.calls.length :=
      findIdx_eq_length.2 fun x _ => by simp
    simp only [Prog.insertBefore, Option.map_none, hidx]
    rw [hsig, insertAt_of_length_le (by simp [sig]), insertAt_of_length_le (by simpa [sig])]

lemma sig_modify (p : Prog) (i : ℕ) (f : Call → List Arg) :
    sig { p with calls := p.calls.modify i fun x => { x with args := f x } } = sig p := by
  unfold sig
  apply ext_getElem?
  intro k
  rw [getElem?_map, getElem?_map, getElem?_modify, Option.map_eq_map, Option.map_map]
  refine Option.map_congr fun c _ => ?_
  rw [Function.comp_apply]
  split <;> rfl

lemma sig_assignSizesAt (h : assignSizesAt i p = some q) : sig q = sig p := by
  obtain ⟨c, hc, h⟩ := bind_eq_some_iff.1 h
  obtain ⟨c', hc', rfl⟩ := map_eq_some_iff.1 h
  have hsm : (c'.ret, c'.syscall) = (c.ret, c.syscall) := by
    unfold Sizes.assignSizesCall at hc'
    split at hc' <;> cases hc'
    rfl
  unfold sig
  rw [map_set, hsm]
  apply ext_getElem?
  intro k
  rw [getElem?_set, getElem?_map]
  split
  · subst i
    rw [if_pos (by simpa using (List.getElem?_eq_some_iff.1 hc).1), hc, Option.map_some]
  · rfl

lemma sig_finishCall (h : finishCall ops b c p = some q) : sig q = sig p := by
  obtain ⟨p', hp', rfl⟩ := map_eq_some_iff.1 h
  rw [sig_modify]
  split at hp'
  · exact sig_assignSizesAt hp'
  · cases hp'
    rfl

lemma sig_sanitize (p : Prog) (f : Call → List Arg) :
    sig { p with calls := p.calls.map fun c => { c with args := f c } } = sig p := by
  rw [sig, map_map]
  rfl

/-! ### The indices and their calls -/

def Known (s : State R) : Prop := Prog.Distinct s.p ∧ ∀ x ∈ Prog.rets s.p, x < s.next

/-- The indices designate the calls `x` and `y`, unless a splice has pushed `y` out of the
program; `spared` says that none has. -/
def Follows (spared : Prop) (x y : Ref × Syscall) (s : State R) : Prop :=
  Known s ∧ y.1 < s.next ∧
    (spared ∧ Marks (sig s.p) x y s.index.1 s.index.2 ∨ ¬ spared ∧ y.1 ∉ Prog.rets s.p)

variable {spared : Prop} {ncalls : ℕ} {x y : Ref × Syscall}

lemma Follows.congr {spared' : Prop} (h : Follows spared x y s) (hiff : spared ↔ spared') :
    Follows spared' x y s := by
  rwa [← propext hiff]

lemma known_of_sig (h : Known s) (hq : sig q = sig s.p) : Known (s.withProg q) := by
  have hrt : rets q = rets s.p := by rw [rets_eq, rets_eq, hq]
  refine ⟨?_, fun x hx => ?_⟩
  · have hd := h.1
    unfold Distinct at hd ⊢
    rwa [State.withProg, hrt]
  · exact lt_of_lt_of_le (h.2 x (hrt ▸ hx)) (le_max_left ..)

lemma Follows.edit (h : Follows spared x y s) (hq : sig q = sig s.p) :
    Follows spared x y (s.withProg q) := by
  obtain ⟨hkn, hy, h⟩ := h
  have hrt : rets q = rets s.p := by rw [rets_eq, rets_eq, hq]
  refine ⟨known_of_sig hkn hq, lt_of_lt_of_le hy (le_max_left ..), ?_⟩
  simp only [State.withProg, hq, hrt]
  exact h

lemma Follows.insert (h : Follows spared x y s) {b : List Call}
    (hfr : ∀ c ∈ b, s.next ≤ c.ret) (hb : (b.map Call.ret).Nodup)
    (hq : sig q = insertAt (sig s.p) idx (b.map fun c => (c.ret, c.syscall))) :
    Follows spared x y ((s.shift idx b.length).withProg q) := by
  obtain ⟨⟨hds, hlt⟩, hy, h⟩ := h
  have hrt : rets q = insertAt (rets s.p) idx (b.map Call.ret) := by
    rw [rets_eq, rets_eq, hq, map_insertAt, map_map]
    rfl
  have hnew : ∀ z ∈ b.map Call.ret, s.next ≤ z := by
    intro z hz
    obtain ⟨c, hc, rfl⟩ := mem_map.1 hz
    exact hfr c hc
  refine ⟨⟨?_, fun z hz => ?_⟩, lt_of_lt_of_le hy (le_max_left ..), ?_⟩
  · have hnd : (rets s.p ++ b.map Call.ret).Nodup := by
      refine Nodup.append hds hb fun z hz hz' => ?_
      exact absurd (hnew z hz') (not_le_of_gt (hlt z hz))
    unfold Distinct
    simp only [State.withProg, hrt]
    exact (perm_insertAt _ idx _).nodup_iff.2 hnd
  · exact lt_of_lt_of_le (lt_refBound hz) (le_max_right ..)
  · rcases h with ⟨hsp, hmr⟩ | ⟨hsp, hgn⟩
    · left
      refine ⟨hsp, ?_⟩
      have hmv := hmr.insertAt idx (b.map fun c => (c.ret, c.syscall))
      rw [length_map] at hmv
      simpa only [State.withProg, State.shift, hq] using hmv
    · right
      refine ⟨hsp, ?_⟩
      simp only [State.withProg, hrt]
      rw [mem_insertAt]
      rintro (hmem | hmem)
      · exact hgn hmem
      · exact absurd (hnew _ hmem) (not_le_of_gt hy)

lemma Follows.cut (h : Follows spared x y s) (hq : sig q = (sig s.p).take ncalls) :
    Follows (spared ∧ s.index.2 < ncalls) x y { s with p := q } := by
  obtain ⟨⟨hds, hlt⟩, hy, h⟩ := h
  have hrt : rets q = (rets s.p).take ncalls := by
    rw [rets_eq, rets_eq, hq, map_take]
  have hsub : (rets q).Sublist (rets s.p) := hrt ▸ take_sublist _ _
  refine ⟨⟨hds.sublist hsub, fun z hz => hlt z (hsub.subset hz)⟩, hy, ?_⟩
  rcases h with ⟨hsp, hmr⟩ | ⟨hsp, hgn⟩
  · by_cases hin : s.index.2 < ncalls
    · left
      refine ⟨⟨hsp, hin⟩, ?_⟩
      simp only [hq]
      exact hmr.take hin
    · right
      refine ⟨fun h => hin h.2, ?_⟩
      have hnth : nth (rets s.p) s.index.2 = some y.1 := by
        rw [rets_eq, nth_map, hmr.snd, Option.map_some]
      simp only [hrt]
      exact notMem_take_of_nth hds hnth (by omega)
  · right
    exact ⟨fun h => hsp h.1, fun hmem => hgn (hsub.subset hmem)⟩

lemma Follows.remove (h : Follows spared x y s) (hq : sig q = (sig s.p).eraseIdx idx)
    (h₁ : (idx : ℤ) ≠ s.index.1) (h₂ : (idx : ℤ) ≠ s.index.2) :
    Follows spared x y
      { s with p := q, index := (pastErase idx s.index.1, pastErase idx s.index.2) } := by
  obtain ⟨⟨hds, hlt⟩, hy, h⟩ := h
  have hsub : (rets q).Sublist (rets s.p) := by
    rw [rets_eq, rets_eq, hq, ← eraseIdx_map]
    exact eraseIdx_sublist ..
  refine ⟨⟨hds.sublist hsub, fun z hz => hlt z (hsub.subset hz)⟩, hy, ?_⟩
  rcases h with ⟨hsp, hmr⟩ | ⟨hsp, hgn⟩
  · left
    refine ⟨hsp, ?_⟩
    simp only [hq]
    exact hmr.eraseIdx h₁ h₂
  · right
    exact ⟨hsp, fun hmem => hgn (hsub.subset hmem)⟩

/-! ### Rounds -/

lemma Follows.withRand (h : Follows spared x y s) (r : R) : Follows spared x y (s.withRand r) := h

lemma Follows.mutateBlobOf (h : Follows spared x y s) (ptr : ℕ) :
    Follows spared x y (mutateBlobOf ops ptr s).1 := by
  unfold Mutation.mutateBlobOf
  split
  · exact h
  · exact Follows.edit (h.withRand _) (ops.mutateBlob ..).1.2

lemma Follows.squash (h : Follows spared x y s) : Follows spared x y (squash ops s).1 := by
  unfold Mutation.squash
  split
  · exact h
  · exact Follows.mutateBlobOf (Follows.edit (h.withRand _) (ops.squashPtr ..).2) _

lemma map_ret_rename (f : Ref → Ref) (p : Prog) :
    (Prog.rename f p).calls.map Call.ret = (rets p).map f := by
  rw [Prog.rename, rets, map_map, map_map]
  rfl

lemma Follows.insertProg (h : Follows spared x y s) (hp : Distinct p) (idx : ℕ) :
    Follows spared x y (insertProg p idx s) := by
  refine h.insert (fun c hc => ?_) ?_ ?_
  · have hret : c.ret ∈ (rets p).map (· + s.next) := by
      rw [← map_ret_rename]
      exact mem_map_of_mem hc
    obtain ⟨z, -, hz⟩ := mem_map.1 hret
    rw [← hz]
    exact Nat.le_add_left ..
  · rw [map_ret_rename]
    exact Nodup.map (fun a b hab => Nat.add_right_cancel hab) hp
  · exact map_insertAt _ _ _ _

lemma Follows.spliceIn (hcr : ∀ p0 ∈ corpus, Distinct p0) (h : Follows spared x y s)
    (hs : spliceIn ops corpus s = some (t, b)) : Follows spared x y t := by
  unfold Mutation.spliceIn at hs
  split at hs
  · cases hs
    exact h
  · obtain ⟨p0, hp0, hs⟩ := bind_eq_some_iff.1 hs
    obtain ⟨p0c, hcn, heq⟩ := map_eq_some_iff.1 hs
    cases heq
    have hds : Distinct p0c := by
      have hd := hcr p0 (mem_of_getElem? hp0)
      obtain ⟨-, hcl, -⟩ := Prog.clone_eq hcn
      rwa [Distinct, rets, hcl]
    exact Follows.insertProg ((h.withRand _).withRand _) hds _

/-- The state with another program put in, before the program is cut to its length. -/
def splicedState (ops : Ops R S) (corpus : List Prog) (s : State R) : Option (State R) :=
  (spliceIn ops corpus s).bind fun x => if x.2 then none else some x.1

/-- The second racy call is not moved to a place that is cut off. -/
def sparedBy (ncalls : ℕ) (o : Option (State R)) : Bool :=
  o.all fun t => decide (t.index.2 < (ncalls : ℤ))

lemma Follows.splice (hcr : ∀ p0 ∈ corpus, Distinct p0) (h : Follows spared x y s)
    (hs : splice ops ncalls corpus s = some (t, b)) :
    Follows (spared ∧ sparedBy ncalls (splicedState ops corpus s)) x y t := by
  obtain ⟨⟨s', retry⟩, hs', hs⟩ := bind_eq_some_iff.1 hs
  have hin := h.spliceIn hcr hs'
  rw [splicedState, hs', Option.bind_some]
  cases retry with
  | true =>
    cases hs
    exact hin.congr (by simp [sparedBy])
  | false =>
    obtain ⟨q, hq, heq⟩ := map_eq_some_iff.1 hs
    cases heq
    exact (hin.cut (sig_truncate hq rfl)).congr (by simp [sparedBy])

lemma Follows.insertBefore (h : Follows spared x y s) (hp : sig p = sig s.p) (idx : ℕ)
    (new : NewCalls s.next) :
    Follows spared x y (s.insertBefore p idx (p.calls[idx]?.map Call.ret) new.calls) := by
  have hds : Distinct p := by
    rw [Distinct, rets_eq, hp, ← rets_eq]
    exact h.1.1
  refine h.insert (fun c hc => ?_) new.nodup ?_
  · exact new.fresh c hc (c.ret, none) (mem_cons_self ..)
  · rw [sig_insertBefore hds, hp]

lemma Follows.insertCall (h : Follows spared x y s) :
    Follows spared x y (insertCall ops ncalls s).1 := by
  unfold Mutation.insertCall
  split
  · exact h
  · exact h.insertBefore (p := ⟨s.p.calls, _⟩) rfl _ _

/-- In the loop over the arguments of call `c`, the index kept for the call is right. -/
def ArgFollows (spared : Prop) (x y : Ref × Syscall) (c : Ref) (l : ArgLoop R S) : Prop :=
  Follows spared x y l.s ∧ nth (Prog.rets l.s.p) l.cidx = some c

lemma getElem?_of_nth_rets (h : nth (rets p) i = some c) :
    p.calls[i]?.map Call.ret = some c := by
  obtain ⟨n, hn, hc⟩ := nth_eq_some.1 h
  obtain rfl : i = n := by omega
  rwa [rets, getElem?_map] at hc

lemma ArgFollows.mutateArgAt (h : ArgFollows spared x y c l)
    (hz : mutateArgAt ops c idx l = some z) :
    ArgFollows spared x y c z.1 := by
  obtain ⟨h, hc⟩ := h
  unfold Mutation.mutateArgAt at hz
  generalize ops.mutateArg _ _ _ _ _ _ _ = m at hz
  obtain ⟨⟨p, hp⟩, new, updateSizes, st, r⟩ := m
  have hrt : rets p = rets l.s.p := by rw [rets_eq, rets_eq, hp]
  rw [← hrt] at hc
  cases new with
  | none =>
    cases hz
    exact ⟨h.edit hp, hc⟩
  | some new =>
    obtain ⟨q, hq, rfl⟩ := map_eq_some_iff.1 hz
    have hins := h.insertBefore hp l.cidx new
    rw [getElem?_of_nth_rets hc] at hins
    have hsig := sig_finishCall hq
    refine ⟨hins.edit hsig, ?_⟩
    have hds : Distinct p := by
      rw [Distinct, hrt]
      exact h.1.1
    -- the call has moved by as many places as calls were put in front of it
    have hmv := nth_insertAt hc l.cidx (new.calls.map Call.ret)
    rw [pastInsert, if_pos le_rfl, length_map] at hmv
    have hpl : rets q = insertAt (rets p) l.cidx (new.calls.map Call.ret) := by
      have hb := sig_insertBefore hds l.cidx new.calls
      rw [getElem?_of_nth_rets hc] at hb
      rw [rets_eq, hsig]
      simp only [State.insertBefore, State.withProg, State.withRand]
      rw [hb, map_insertAt, ← rets_eq, map_map]
      rfl
    simp only [State.withProg, hpl]
    exact_mod_cast hmv

lemma ArgFollows.loop (h : ArgFollows spared x y c l)
    (hs : mutateArgsLoop ops c fuel l = some (t, b)) : Follows spared x y t := by
  induction fuel generalizing l with
  | zero => cases hs
  | succ fuel ih =>
    rw [mutateArgsLoop] at hs
    obtain ⟨call, -, hs⟩ := bind_eq_some_iff.1 hs
    split at hs
    · cases hs
      exact h.1
    · obtain ⟨z, hz, hs⟩ := bind_eq_some_iff.1 hs
      have hdr : ArgFollows spared x y c { l with s := l.s.withRand (ops.draw l.s.r).2 } := h
      have hnx := hdr.mutateArgAt hz
      simp only at hs
      split at hs
      · cases hs
        exact hnx.1
      · exact ih (l := { z.1 with s := (z.1.s.oneOf ops 3).2 }) hnx hs

lemma Follows.mutateArgs (h : Follows spared x y s) (hs : mutateArgs ops fuel s = some (t, b)) :
    Follows spared x y t := by
  unfold Mutation.mutateArgs at hs
  split at hs
  · cases hs
    exact h
  · obtain ⟨c, hc, hs⟩ := bind_eq_some_iff.1 hs
    split at hs
    · cases hs
      exact h
    · refine ArgFollows.loop ⟨h.withRand _, nth_eq_some.2 ⟨_, rfl, ?_⟩⟩ hs
      rw [rets, getElem?_map, hc, Option.map_some]

lemma Follows.removeRandomCall (h : Follows spared x y s)
    (hs : removeRandomCall ops s = some (t, b)) : Follows spared x y t := by
  unfold Mutation.removeRandomCall at hs
  split at hs
  · cases hs
    exact h
  · simp only at hs
    split at hs
    · cases hs
      exact h
    case isFalse hne =>
      obtain ⟨q, hq, heq⟩ := map_eq_some_iff.1 hs
      cases heq
      rw [not_or] at hne
      exact Follows.remove (h.withRand _) (sig_removeCall hq) hne.1 hne.2

/-- The state in the middle of a splice, if the round is one. -/
def roundSplices (ops : Ops R S) (corpus : List Prog) (s : State R) : Option (State R) :=
  let (b, s) := s.oneOf ops 5
  if b then none
  else
    let (b, s) := s.nOutOf ops 1 100
    if b then splicedState ops corpus s else none

/-- No splice of the rounds that are made moves the second racy call to a place that is cut
off. -/
def spares (ops : Ops R S) (ncalls : ℕ) (corpus : List Prog) : ℕ → State R → Bool
  | 0, _ => true
  | fuel + 1, s => sparedBy ncalls (roundSplices ops corpus s) &&
      (round ops fuel ncalls corpus s).all fun x =>
        let (stop, s) := x.1.oneOf ops 3
        stop && !x.2 || spares ops ncalls corpus fuel s

/-- **One round.** -/
theorem Follows.round {z : State R × Bool} (hcr : ∀ p0 ∈ corpus, Distinct p0)
    (h : Follows spared x y s)
    (hs : round ops fuel ncalls corpus s = some z) :
    Follows (spared ∧ sparedBy ncalls (roundSplices ops corpus s)) x y z.1 := by
  -- the draws before a case leave the invariant alone
  have hone : ∀ {s t : State R} {b : Bool} {n : ℕ}, Follows spared x y s →
      s.oneOf ops n = (b, t) → Follows spared x y t := by
    rintro s t b n h hd
    cases hd
    exact h.withRand _
  have hout : ∀ {s t : State R} {b : Bool} {n m : ℕ}, Follows spared x y s →
      s.nOutOf ops n m = (b, t) → Follows spared x y t := by
    rintro s t b n m h hd
    cases hd
    exact h.withRand _
  have hno : ∀ {t : State R}, Follows spared x y t →
      Follows (spared ∧ sparedBy ncalls (none : Option (State R))) x y t :=
    fun h => h.congr (by simp [sparedBy])
  rw [Mutation.round] at hs
  rw [roundSplices]
  obtain ⟨b₁, s₁, hd₁⟩ : ∃ b t, s.oneOf ops 5 = (b, t) := ⟨_, _, rfl⟩
  rw [hd₁] at hs ⊢
  have h₁ := hone h hd₁
  cases b₁
  case true =>
    cases hs
    exact hno h₁.squash
  obtain ⟨b₂, s₂, hd₂⟩ : ∃ b t, s₁.nOutOf ops 1 100 = (b, t) := ⟨_, _, rfl⟩
  have h₂ := hout h₁ hd₂
  simp only [Bool.false_eq_true, if_false, hd₂] at hs ⊢
  cases b₂
  case true => exact h₂.splice hcr hs
  refine hno ?_
  obtain ⟨b₃, s₃, hd₃⟩ : ∃ b t, s₂.nOutOf ops 20 31 = (b, t) := ⟨_, _, rfl⟩
  have h₃ := hout h₂ hd₃
  simp only [Bool.false_eq_true, if_false, hd₃] at hs
  cases b₃
  case true =>
    cases hs
    exact h₃.insertCall
  obtain ⟨b₄, s₄, hd₄⟩ : ∃ b t, s₃.nOutOf ops 10 11 = (b, t) := ⟨_, _, rfl⟩
  have h₄ := hout h₃ hd₄
  simp only [Bool.false_eq_true, if_false, hd₄] at hs
  cases b₄
  case true => exact h₄.mutateArgs hs
  case false => exact h₄.removeRandomCall hs

/-- **All rounds.** -/
theorem Follows.rounds (hcr : ∀ p0 ∈ corpus, Distinct p0) (h : Follows spared x y s)
    (hs : rounds ops ncalls corpus fuel s = some t) :
    Follows (spared ∧ spares ops ncalls corpus fuel s) x y t := by
  induction fuel generalizing s spared with
  | zero => cases hs
  | succ fuel ih =>
    rw [Mutation.rounds] at hs
    obtain ⟨z, hz, hs⟩ := bind_eq_some_iff.1 hs
    have hnx := Follows.round hcr h hz
    rw [spares, hz, Option.all_some]
    simp only at hs ⊢
    split at hs
    case isTrue hst =>
      cases hs
      exact hnx.congr (by simp [hst])
    case isFalse hst =>
      have hls := ih (s := (z.1.oneOf ops 3).2) (hnx.withRand _) hs
      exact hls.congr (by simp [hst, and_assoc])

/-! ### The whole mutation -/

/-- The indices are in order and in range, and designate the calls `i` and `j` of `p`. -/
def Designates (p : Prog) (i j : ℕ) (s : State R) : Prop :=
  ∃ i' j' : ℕ, s.index = ((i' : ℤ), (j' : ℤ)) ∧ i' < j' ∧ SameCall p s.p i i' ∧ SameCall p s.p j j'

lemma designates_of_marks (hi : i < p.calls.length) (hj : j < p.calls.length)
    (hx : sigAt p i = some x) (hy : sigAt p j = some y)
    (h : Marks (sig s.p) x y s.index.1 s.index.2) : Designates p i j s := by
  obtain ⟨i', hi', hsm⟩ := exists_sameCall hi (h.fst.trans hx.symm)
  obtain ⟨j', hj', hsm'⟩ := exists_sameCall hj (h.snd.trans hy.symm)
  have hlt := h.lt
  exact ⟨i', j', Prod.ext hi' hj', by omega, hsm, hsm'⟩

/-- **The racy calls after a mutation.** Whatever is drawn, the indices that `MutateRace`
returns are in range and in order and designate the calls they designated before, if and only
if no splice moves the second of these calls to a place that is cut off. -/
theorem mutateRace_designates_iff (ops : Ops R S) {p : Prog} (hp : Prog.Distinct p)
    {corpus : List Prog} (hcorpus : ∀ p0 ∈ corpus, Prog.Distinct p0) {i j : ℕ} (hij : i < j)
    (hj : j < p.calls.length) (ncalls fuel : ℕ) (r : R) {s : State R}
    (hrun : mutateRace ops fuel p r ncalls corpus (i, j) = some s) :
    Designates p i j s ↔
      spares ops ncalls corpus fuel ⟨p, (i, j), r, Prog.refBound p⟩ = true := by
  have hi : i < p.calls.length := by omega
  obtain ⟨x, hx⟩ : ∃ x, sigAt p i = some x :=
    ⟨_, sigAt_eq_some.2 ⟨i, rfl, _, getElem?_eq_getElem hi, rfl⟩⟩
  obtain ⟨y, hy⟩ : ∃ y, sigAt p j = some y :=
    ⟨_, sigAt_eq_some.2 ⟨j, rfl, _, getElem?_eq_getElem hj, rfl⟩⟩
  have hym : y.1 ∈ Prog.rets p := by
    rw [rets_eq]
    exact mem_map_of_mem (mem_of_nth hy)
  have hst : Follows True x y (⟨p, (i, j), r, Prog.refBound p⟩ : State R) :=
    ⟨⟨hp, fun _ => lt_refBound⟩, lt_refBound hym, .inl ⟨trivial, hx, hy, by simpa using hij⟩⟩
  obtain ⟨t, ht, rfl⟩ := Option.map_eq_some_iff.1 hrun
  have hend := (Follows.rounds hcorpus hst ht).edit (sig_sanitize t.p ops.sanitizeCall)
  generalize t.withProg _ = s at hend ⊢
  obtain ⟨-, -, ⟨hsp, hmr⟩ | ⟨hsp, hgn⟩⟩ := hend
  · exact iff_of_true (designates_of_marks hi hj hx hy hmr) hsp.2
  · refine iff_of_false ?_ fun h => hsp ⟨trivial, h⟩
    rintro ⟨i', j', -, -, -, _, hj', hret, -⟩
    have hyr : y.1 = p.calls[j].ret := by
      obtain ⟨n, hn, c, hc, rfl⟩ := sigAt_eq_some.1 hy
      obtain rfl : j = n := by omega
      obtain ⟨_, rfl⟩ := List.getElem?_eq_some_iff.1 hc
      rfl
    apply hgn
    rw [hyr, ← hret]
    exact mem_map_of_mem (getElem_mem hj')

def plainOps : Ops (List ℕ) Unit where
  draw r := (r.headD 0, r.tail)
  biasedRand r n := (r.headD 0 % n, r.tail)
  analyze _ _ := ()
  complexPtrs _ := 0
  blobs _ _ := 0
  squashPtr p _ := ⟨p, rfl⟩
  mutateBlob p _ _ r := (⟨p, rfl⟩, r)
  generateCall next p _ r :=
    (⟨[⟨⟨7, "getpid"⟩, [], next⟩], by simp [Call.nodes, allResults], by simp⟩, p.uses, r)
  collectArgs _ := 0
  mutateArg _ p _ _ updateSizes _ r := (⟨p, rfl⟩, none, updateSizes, (), r)
  sanitizeCall c := c.args

def twoCalls : Prog := ⟨[⟨⟨0, "sync"⟩, [], 0⟩, ⟨⟨1, "pause"⟩, [], 1⟩], ∅⟩

def oneCall : Prog := ⟨[⟨⟨2, "gettid"⟩, [], 0⟩], ∅⟩

/-- A splice and an insertion, with room for both. -/
theorem mutateRace_designates_room :
    ∃ s, mutateRace plainOps 2 twoCalls [1, 0, 0, 0, 1, 1, 5, 0, 0, 0] 4 [oneCall] (0, 1) = some s ∧
      s.p.calls.length = 4 ∧ Designates twoCalls 0 1 s := by
  have hlen : ((mutateRace plainOps 2 twoCalls [1, 0, 0, 0, 1, 1, 5, 0, 0, 0] 4 [oneCall]
      (0, 1)).map fun s => s.p.calls.length) = some 4 := by decide +kernel
  obtain ⟨s, hs, hlen⟩ := Option.map_eq_some_iff.1 hlen
  refine ⟨s, hs, hlen, ?_⟩
  exact (mutateRace_designates_iff plainOps (by decide) (by decide) (by decide) (by decide) 4 2 _
    hs).2 (by decide +kernel)

/-- A splice into a program that has its full length: the second index is out of range. -/
theorem spliced_out_of_range :
    ∃ s, mutateRace plainOps 1 twoCalls [1, 0, 0, 0, 0] 2 [oneCall] (0, 1) = some s ∧
      s.index = (1, 2) ∧ s.p.calls.length = 2 ∧ ¬ Designates twoCalls 0 1 s := by
  have hrun : ((mutateRace plainOps 1 twoCalls [1, 0, 0, 0, 0] 2 [oneCall] (0, 1)).map fun s =>
      (s.index, s.p.calls.length)) = some ((1, 2), 2) := by decide +kernel
  obtain ⟨s, hs, heq⟩ := Option.map_eq_some_iff.1 hrun
  obtain ⟨hidx, hlen⟩ := Prod.ext_iff.1 heq
  refine ⟨s, hs, hidx, hlen, ?_⟩
  rintro ⟨i', j', hix, -, -, -, hj', -⟩
  have hj : (2 : ℤ) = j' := congrArg Prod.snd (hidx.symm.trans hix)
  simp only at hlen
  omega

end Razzer.Mutation
