import Razzer.UseLinks

/-!
Links under race minimisation, and under sequences of edits.

A walk over the arguments of a call begins with a copy, so its links are right. The only attempt
that leaves a link behind is the one that clears a reference, and if it is accepted, the walk
ends with it. The next walk begins with a copy again; if no walk commits anything after that, the
program with the link left behind is the one that is returned. So it depends on the last commit,
which the answers of the predicate decide.
-/

namespace Razzer.UseLinks

open Args Progs Minimize Runs Option

/-! ### Race minimisation -/

/-- The visit clears a reference, and the predicate accepts that. -/
def clearsAt (env : Env) (w : Walk) : Visit → Bool
  | .leaf pos path =>
    match argAt w.p env.call pos with
    | some (.result t n) =>
      !env.crash && decide (path ∉ w.triedPaths) && n.res.isSome &&
        env.pred w.log (env.query (modifyProg (setResult none t.default) env.call pos w.p))
    | _ => false
  | .elem .. => false

/-- The walk ends with the clearing of a reference. -/
def walkClears (env : Env) : List Visit → Walk → Bool
  | [], _ => false
  | v :: vs, w =>
    match visit env w v with
    | some (false, w') => walkClears env vs w'
    | _ => clearsAt env w v

/-- Whether the last commit of the walks over a call is the clearing of a reference. Before the
walks it is `b`; a walk has committed something if its copy is the committed program. -/
def callClears (env : Env) : ℕ → Walk → Bool → Bool
  | 0, _, b => b
  | fuel + 1, w, b =>
    match w.p0.clone.bind fun p => p.calls[env.call]?.map fun c => (p, argVisits 0 c.args) with
    | none => b
    | some (p, vs) =>
      let w₀ : Walk := { w with p := p, shared := false }
      match visitAll env vs w₀ with
      | none => b
      | some (again, w') =>
        let b := if w'.shared then walkClears env vs w₀ else b
        if again then callClears env fuel w' b else b

def callsClear (env : Env) (fuel : ℕ) : ℕ → ℕ → Walk → Bool → Bool
  | 0, _, _, b => b
  | n + 1, i, w, b =>
    let env' := { env with call := i }
    match minimizeCall env' fuel { w with triedPaths := [] } with
    | none => b
    | some w' =>
      callsClear env fuel n (i + 1) w' (callClears env' fuel { w with triedPaths := [] } b)

/-- The last program that race minimisation commits to is one in which a reference has been
cleared. -/
def lastClears (fuel : ℕ) (p : Prog) (callIndex : ℤ) (crash : Bool) (pred : Pred)
    (index : ℤ × ℤ) : Bool :=
  match removeCalls pred p.calls.length ⟨p, callIndex, [index.1, index.2], []⟩ with
  | none => false
  | some s => callsClear ⟨pred, crash, s.callIndex, s.index, 0⟩ fuel s.p0.calls.length 0
      ⟨s.p0, s.p0, false, [], s.log⟩ false

section Crash

variable {env : Env} (h : env.crash = true)
include h

lemma walkClears_of_crash (vs : List Visit) (w : Walk) : walkClears env vs w = false := by
  have hno : ∀ w v, clearsAt env w v = false := by
    intro w v
    unfold clearsAt
    split
    · split <;> simp [h]
    · rfl
  induction vs generalizing w with
  | nil => rfl
  | cons v vs ih =>
    rw [walkClears]
    split
    · exact ih _
    · exact hno w v

lemma callClears_of_crash (fuel : ℕ) (w : Walk) : callClears env fuel w false = false := by
  induction fuel generalizing w with
  | zero => rfl
  | succ fuel ih =>
    rw [callClears]
    split
    · rfl
    · dsimp only
      split
      · rfl
      · rw [walkClears_of_crash h, ite_self, ih, ite_self]

lemma callsClear_of_crash (fuel n i : ℕ) (w : Walk) :
    callsClear env fuel n i w false = false := by
  induction n generalizing i w with
  | zero => rfl
  | succ n ih =>
    rw [callsClear]
    split
    · rfl
    · have hcl := callClears_of_crash (show ({ env with call := i } : Env).crash = true from h)
      rw [hcl, ih]

end Crash

/-- Nothing is cleared in a program that crashes. -/
lemma lastClears_of_crash (fuel : ℕ) (p : Prog) (callIndex : ℤ) (pred : Pred) (index : ℤ × ℤ) :
    lastClears fuel p callIndex true pred index = false := by
  rw [lastClears]
  split
  · rfl
  · exact callsClear_of_crash rfl _ _ _ _

/-- All arguments are registered with what they use. -/
structure Registered (p : Prog) : Prop where
  nodup : (Prog.ids p).Nodup
  uses : ∀ x y, (y, some x) ∈ p.nodes → (x, y) ∈ p.uses
  inside : ∀ x y, (y, some x) ∈ p.nodes → x ∈ Prog.ids p

variable {p : Prog}

lemma WellFormed.registered (h : WellFormed p) : Registered p :=
  ⟨h.nodup, fun x y => (h.uses_iff x y).2, h.inside⟩

/-- The committed program has all its users registered, and a user is left behind exactly if the
last commit was the clearing of a reference. -/
structure Kept (b : Bool) (p0 : Prog) : Prop where
  registered : Registered p0
  wellFormed_iff : WellFormed p0 ↔ b = false

lemma WellFormed.kept (h : WellFormed p) : Kept false p := ⟨h.registered, iff_of_true h rfl⟩

structure Clean (w : Walk) : Prop where
  copy : WellFormed w.p
  shared : w.shared = true → w.p0 = w.p

section Walks

variable {env : Env} {w w' : Walk} {pos : List ℕ} {path : String} {b : Bool} {n : ResultNode}
  {v : Visit} {vs : List Visit} {fuel i : ℕ} {val : UInt64}

/-- What holds after a visit, or several: what has been committed, if anything, has its links unless
a reference was cleared. The walk can go on unless it has ended. -/
structure After (clears : Bool) (w : Walk) (b : Bool) (w' : Walk) : Prop where
  kept : w'.shared = true → Kept clears w'.p0
  same : w'.shared = false → w.shared = false ∧ w'.p0 = w.p0
  clean : b = false → Clean w' ∧ clears = false

lemma Clean.after_of (h : Clean w') (hsame : w'.shared = false → w.shared = false ∧ w'.p0 = w.p0)
    (b : Bool) : After false w b w' :=
  ⟨fun hsh => h.shared hsh ▸ h.copy.kept, hsame, fun _ => ⟨h, rfl⟩⟩

lemma Clean.after (h : Clean w) : After false w false w := h.after_of (fun hsh => ⟨hsh, rfl⟩) false

lemma Clean.tried (h : Clean w) (path : String) : Clean (w.tried path) := ⟨h.copy, h.shared⟩

lemma After.of_tried {clears : Bool} (h : After clears (w.tried path) b w') : After clears w b w' :=
  ⟨h.kept, h.same, h.clean⟩

/-- A change of an argument that the predicate accepts is committed, and the walk ends. Otherwise it
is taken back. -/
lemma Clean.attempt (h : Clean w) {f g : Arg → Arg} {a : Arg} {clears : Bool}
    (hat : argAt w.p env.call pos = some a)
    (hf : env.pred w.log (env.query (modifyProg f env.call pos w.p)) →
      Kept clears (modifyProg f env.call pos w.p))
    (hno : env.pred w.log (env.query (modifyProg f env.call pos w.p)) = false → clears = false)
    (hg : argNodes (g (f a)) = argNodes a)
    (hrun : (let w1 := w.set (modifyProg f env.call pos w.p)
      if w1.answer env then some (true, (w1.ask env).commit)
      else some (false, (w1.ask env).set (modifyProg g env.call pos (w1.ask env).p))) =
        some (b, w')) : After clears w b w' := by
  cases hans : env.pred w.log (env.query (modifyProg f env.call pos w.p)) with
  | true =>
    cases (if_pos hans).symm.trans hrun
    rw [ask_commit w hans]
    exact ⟨fun _ => hf hans, fun hsh => (by cases hsh), fun hb => (by cases hb)⟩
  | false =>
    cases (if_neg (ne_true_of_eq_false hans)).symm.trans hrun
    have hbc : WellFormed (modifyProg g env.call pos (modifyProg f env.call pos w.p)) := by
      rw [modifyProg_modifyProg]
      exact h.copy.modify hat hg
    rw [hno hans]
    set w1 := (w.set (modifyProg f env.call pos w.p)).ask env
    have hcm : Clean (w1.set (modifyProg g env.call pos w1.p)) := ⟨hbc, fun hsh => if_pos hsh⟩
    refine hcm.after_of (fun hsh => ?_) false
    have hsh : w.shared = false := hsh
    exact ⟨hsh, by simp [w1, Walk.set, Walk.ask, hsh]⟩

lemma Clean.tryConst (h : Clean w) {t : ConstType}
    (hat : argAt w.p env.call pos = some (.const t val))
    (hrun : tryConst env w pos path t val = some (b, w')) : After false w b w' := by
  unfold Minimize.tryConst at hrun
  split at hrun
  · cases hrun
    exact h.after
  · dsimp only at hrun
    split at hrun
    · cases hrun
      exact (h.tried path).after.of_tried
    · refine ((h.tried path).attempt (f := setVal t.default) hat (fun _ => ?_) (fun _ => rfl) rfl
        hrun).of_tried
      exact (h.copy.modify hat rfl).kept

/-- The user of a reference that is cleared stays registered. -/
lemma WellFormed.clear (h : WellFormed p) {t : ResourceType}
    (hat : argAt p i pos = some (.result t n)) (hres : n.res.isSome) (val : UInt64) :
    Kept true (modifyProg (setResult none val) i pos p) := by
  obtain ⟨L, R, hnd, hmod⟩ := nodes_modifyProg hat
  have hnd' := hmod (setResult none val)
  simp only [argNodes, setResult, Arg.results, List.map_cons, List.map_nil] at hnd hnd'
  have hnp := h.nodup
  rw [Prog.ids, hnd] at hnp
  have hids : Prog.ids (modifyProg (setResult none val) i pos p) = Prog.ids p := by
    rw [Prog.ids, Prog.ids, hnd', hnd, ids_changed]
  have hmem : ∀ x y, (y, some x) ∈ (modifyProg (setResult none val) i pos p).nodes →
      (y, some x) ∈ p.nodes ∧ y ≠ n.id := by
    intro x y hn
    rw [hnd', mem_changed hnp, ← hnd] at hn
    rcases hn with hn | ⟨-, hnn⟩
    · exact hn
    · cases hnn
  refine ⟨⟨hids.symm ▸ h.nodup, fun x y hn => (h.uses_iff x y).2 (hmem x y hn).1,
    fun x y hn => hids.symm ▸ h.inside x y (hmem x y hn).1⟩, ?_⟩
  obtain ⟨x, hx⟩ := isSome_iff_exists.1 hres
  have hux : (x, n.id) ∈ p.uses := (h.uses_iff x n.id).2 (by simp [hnd, hx])
  exact iff_of_false (fun hwf => (hmem x n.id ((hwf.uses_iff x n.id).1 hux)).2 rfl) (by decide)

lemma Clean.tryResult (h : Clean w) {t : ResourceType}
    (hat : argAt w.p env.call pos = some (.result t n))
    (hrun : tryResult env w pos path t n = some (b, w')) :
    After (clearsAt env w (.leaf pos path)) w b w' := by
  have hcl : clearsAt env w (.leaf pos path) = (!env.crash && decide (path ∉ w.triedPaths) &&
      n.res.isSome &&
      env.pred w.log (env.query (modifyProg (setResult none t.default) env.call pos w.p))) := by
    simp only [clearsAt, hat]
  unfold Minimize.tryResult at hrun
  split at hrun
  case isTrue hsk =>
    cases hrun
    have hno : clearsAt env w (.leaf pos path) = false := by
      rw [hcl]
      rcases Bool.or_eq_true_iff.1 hsk with hsk | hsk <;> simp_all
    rw [hno]
    exact h.after
  case isFalse hsk =>
    dsimp only at hrun
    split at hrun
    case isTrue hres =>
      cases hrun
      rw [hcl, hres]
      simpa using (h.tried path).after.of_tried
    case isFalse hres =>
      have hsm : n.res.isSome := isSome_iff_ne_none.2 hres
      have hask : clearsAt env w (.leaf pos path) =
          env.pred w.log (env.query (modifyProg (setResult none t.default) env.call pos w.p)) := by
        rw [hcl, hsm]
        simp_all
      rw [hask]
      refine ((h.tried path).attempt (f := setResult none t.default) hat (fun hans => ?_) id rfl
        hrun).of_tried
      exact hans ▸ h.copy.clear hat hsm t.default

variable {outSize : ℕ} {t : BufferType} {bs bs' : List UInt8}

lemma wellFormed_withData (h : WellFormed w.p)
    (hat : argAt w.p env.call pos = some (.data t bs outSize))
    (hrun : withData env w pos bs' = some w') :
    WellFormed w'.p ∧ argAt w'.p env.call pos = some (.data t bs' outSize) := by
  obtain ⟨p, hp, rfl⟩ := map_eq_some_iff.1 hrun
  have hdt := h.modify (f := setData bs') hat rfl
  have hat' := argAt_modifyProg (f := setData bs') hat
  exact ⟨hdt.assignSizesAt hp, argAt_assignSizesAt hat' hp⟩

lemma wellFormed_shrink {minLen rounds step : ℕ} (h : WellFormed w.p)
    (hat : argAt w.p env.call pos = some (.data t bs outSize))
    (hrun : shrink env pos minLen rounds step bs w = some w') : WellFormed w'.p := by
  induction rounds generalizing step bs w with
  | zero =>
    cases hrun
    exact h
  | succ rounds ih =>
    rw [shrink] at hrun
    split at hrun
    · split at hrun
      · obtain ⟨w1, hw1, hrun⟩ := bind_eq_some_iff.1 hrun
        obtain ⟨h1, hat1⟩ := wellFormed_withData h hat hw1
        split at hrun
        · exact ih (w := w1.ask env) h1 hat1 hrun
        · obtain ⟨w2, hw2, hrun⟩ := bind_eq_some_iff.1 hrun
          obtain ⟨h2, hat2⟩ := wellFormed_withData (w := w1.ask env) h1 hat1 hw2
          split at hrun
          · cases hrun
            exact h2
          · exact ih h2 hat2 hrun
      · split at hrun
        · cases hrun
          exact h
        · exact ih h hat hrun
    · cases hrun
      exact h

lemma Clean.tryData (h : Clean w)
    (hat : argAt w.p env.call pos = some (.data t bs outSize))
    (hrun : tryData env w pos path t bs = some (b, w')) : After false w b w' := by
  unfold Minimize.tryData at hrun
  split at hrun
  · cases hrun
    exact h.after
  · dsimp only at hrun
    split at hrun
    · cases hrun
      exact (h.tried path).after.of_tried
    · obtain ⟨w1, hw1, heq⟩ := map_eq_some_iff.1 hrun
      cases heq
      -- the copy becomes the committed program, whatever was accepted meanwhile
      have hp := wellFormed_shrink (w := w.tried path) h.copy hat hw1
      have hcm : Clean w1.commit := ⟨hp, fun _ => rfl⟩
      exact hcm.after_of (fun hsh => by cases hsh) false

lemma Clean.tryElem {k : ℕ} (h : Clean w) (hrun : tryElem env w pos path k = some (b, w')) :
    After false w b w' := by
  unfold Minimize.tryElem at hrun
  split at hrun
  case h_2 =>
    cases hrun
    exact h.after
  case h_1 t inner hat =>
    split at hrun
    case h_2 =>
      cases hrun
      exact h.after
    case h_1 elem hk =>
      split at hrun
      case isFalse =>
        cases hrun
        exact h.after
      case isTrue =>
        obtain ⟨p, hp, heq⟩ := map_eq_some_iff.1 hrun
        obtain ⟨q, hq, hp⟩ := bind_eq_some_iff.1 hp
        have hwf := (h.copy.removeElem hat hk hq).assignSizesAt hp
        cases hans : env.pred w.log (env.query p) with
        | true =>
          cases (if_pos hans).symm.trans heq
          have hcm : Clean ((w.set p).ask env).commit := ⟨hwf, fun _ => rfl⟩
          exact hcm.after_of (fun hsh => by cases hsh) true
        | false =>
          cases (if_neg (ne_true_of_eq_false hans)).symm.trans heq
          have hdr : Clean (((w.set p).ask env).tried path) := ⟨hwf, fun hsh => if_pos hsh⟩
          refine hdr.after_of (fun hsh => ?_) true
          have hsh : w.shared = false := hsh
          exact ⟨hsh, if_neg (ne_true_of_eq_false hsh)⟩

lemma Clean.visit (h : Clean w) (hrun : visit env w v = some (b, w')) :
    After (clearsAt env w v) w b w' := by
  cases v with
  | elem pos path k => exact h.tryElem hrun
  | leaf pos path =>
    change tryLeaf env w pos path = some (b, w') at hrun
    unfold tryLeaf at hrun
    split at hrun
    case h_1 hat =>
      simp only [clearsAt, hat]
      exact h.tryConst hat hrun
    case h_2 hat => exact h.tryResult hat hrun
    case h_3 hat =>
      simp only [clearsAt, hat]
      exact h.tryData hat hrun
    case h_4 hn1 hn2 hn3 =>
      cases hrun
      have hno : clearsAt env w (.leaf pos path) = false := by simp only [clearsAt]
      exact hno ▸ h.after

lemma Clean.visitAll (h : Clean w) (hrun : visitAll env vs w = some (b, w')) :
    After (walkClears env vs w) w b w' := by
  induction vs generalizing w with
  | nil =>
    cases hrun
    exact h.after
  | cons v vs ih =>
    obtain ⟨⟨b1, w1⟩, hv, hrun⟩ := bind_eq_some_iff.1 hrun
    have haf := h.visit hv
    rw [walkClears, hv]
    cases b1 with
    | true =>
      cases hrun
      exact haf
    | false =>
      have hrs := ih (haf.clean rfl).1 hrun
      refine ⟨hrs.kept, fun hsh => ?_, hrs.clean⟩
      obtain ⟨hsh1, heq⟩ := hrs.same hsh
      exact ⟨(haf.same hsh1).1, heq.trans (haf.same hsh1).2⟩

variable {c : Bool}

/-- **The walks over one call.** -/
theorem Kept.minimizeCall (h : Kept c w.p0) (hrun : minimizeCall env fuel w = some w') :
    Kept (callClears env fuel w c) w'.p0 := by
  induction fuel generalizing w c with
  | zero => cases hrun
  | succ fuel ih =>
    obtain ⟨p, hp, hrun⟩ := bind_eq_some_iff.1 hrun
    obtain ⟨call, hcall, hrun⟩ := bind_eq_some_iff.1 hrun
    obtain ⟨⟨b, w₁⟩, hw₁, hrun⟩ := bind_eq_some_iff.1 hrun
    rw [recArgs_eq] at hw₁
    have hcl : Clean { w with p := p, shared := false } :=
      ⟨wellFormed_clone h.registered.nodup hp, fun hb => (by cases hb)⟩
    have haf := hcl.visitAll hw₁
    have hkp : Kept (if w₁.shared then walkClears env (argVisits 0 call.args)
        { w with p := p, shared := false } else c) w₁.p0 := by
      cases hsh : w₁.shared with
      | true => exact haf.kept hsh
      | false => exact (haf.same hsh).2 ▸ h
    rw [callClears, hp, bind_some, hcall, map_some]
    simp only [hw₁]
    cases b with
    | true => exact ih hkp hrun
    | false =>
      cases hrun
      exact hkp

lemma Kept.minimizeCalls {m : ℕ} (h : Kept c w.p0)
    (hrun : minimizeCalls env fuel m i w = some w') : Kept (callsClear env fuel m i w c) w'.p0 := by
  induction m generalizing i w c with
  | zero =>
    cases hrun
    exact h
  | succ m ih =>
    obtain ⟨w1, hw1, hrun⟩ := bind_eq_some_iff.1 hrun
    rw [callsClear, hw1]
    exact ih (Kept.minimizeCall (w := { w with triedPaths := [] }) h hw1) hrun

end Walks

lemma WellFormed.removeCalls {pred : Pred} {n : ℕ} {s s' : Tracked} (h : WellFormed s.p0)
    (hrun : removeCalls pred n s = some s') : WellFormed s'.p0 := by
  induction n generalizing s with
  | zero =>
    cases hrun
    exact h
  | succ i ih =>
    rw [Minimize.removeCalls] at hrun
    split at hrun
    · exact ih h hrun
    · split at hrun
      · cases hrun
      case h_2 q hq =>
        obtain ⟨p, hp, hq⟩ := bind_eq_some_iff.1 hq
        dsimp only at hrun
        split at hrun
        · exact ih (s := ⟨q, _, _, _⟩) ((wellFormed_clone h.nodup hp).removeCall hq) hrun
        · exact ih (s := { s with log := s.log ++ [_] }) h hrun

/-- **A minimised program** is well formed unless the last commit was the clearing of a
reference. -/
theorem WellFormed.minimizeRace (h : WellFormed p) {fuel : ℕ} {ci : ℤ} {crash : Bool}
    {pred : Pred} {index : ℤ × ℤ} {s : Tracked}
    (hrun : minimizeRace fuel p ci crash pred index = some s) :
    Kept (lastClears fuel p ci crash pred index) s.p0 := by
  unfold Minimize.minimizeRace minimizeWith at hrun
  obtain ⟨name, -, hrun⟩ := bind_eq_some_iff.1 hrun
  obtain ⟨t, ht, hrun⟩ := bind_eq_some_iff.1 hrun
  obtain ⟨w, hw, hrun⟩ := bind_eq_some_iff.1 hrun
  split at hrun <;> cases hrun
  have hkp := (h.removeCalls (s := ⟨p, _, _, _⟩) ht).kept
  rw [lastClears, ht]
  exact Kept.minimizeCalls (w := ⟨t.p0, t.p0, false, [], t.log⟩) hkp hw

/-! ### Sequences of edits -/

/-- A race minimisation, if it returns, does not end with a reference that the predicate lets it
clear. -/
def LeavesNoLink (p : Prog) : Edit → Prop
  | .minimizeRace fuel callIndex crash pred index =>
    (minimizeRace fuel p callIndex crash pred index).isSome →
      crash = true ∨ lastClears fuel p callIndex crash pred index = false
  | _ => True

def StaysWellFormed (p : Prog) (e : Edit) : Prop := ∀ q, step p e = some q → WellFormed q

/-- **One edit.** -/
theorem staysWellFormed_iff (h : WellFormed p) (e : Edit) :
    StaysWellFormed p e ↔ LeavesNoLink p e := by
  cases e with
  | removeCall idx => exact iff_of_true (fun q hq => h.removeCall hq) trivial
  | insert c calls => exact iff_of_true (fun q hq => h.insert hq) trivial
  | replace i pos t arg1 => exact iff_of_true (fun q hq => h.replace hq) trivial
  | assignSizes i => exact iff_of_true (fun q hq => h.assignSizesAt hq) trivial
  | clone => exact iff_of_true (fun q hq => wellFormed_clone h.nodup hq) trivial
  | removeElem i pos k => exact iff_of_true (fun q hq => h.removeElemAt hq) trivial
  | minimizeRace fuel callIndex crash pred index =>
    constructor
    · intro hst hsm
      obtain ⟨s, hs⟩ := isSome_iff_exists.1 hsm
      exact .inr ((h.minimizeRace hs).wellFormed_iff.1 (hst s.p0 (by rw [step, hs, map_some])))
    · intro hlv q hq
      obtain ⟨s, hs, rfl⟩ := map_eq_some_iff.1 hq
      refine (h.minimizeRace hs).wellFormed_iff.2 ?_
      rcases hlv (by rw [hs]; rfl) with rfl | hlv
      · exact lastClears_of_crash ..
      · exact hlv

/-- The edits that the code makes return on the program. -/
structure Returns (p : Prog) : Prop where
  removeCall : ∀ i < p.calls.length, ∃ q, step p (.removeCall i) = some q
  removeElem : ∀ i pos t inner k, argAt p i pos = some (.array t inner) → k < inner.length →
    ∃ q, step p (.removeElem i pos k) = some q
  clone : ∃ q, step p .clone = some q
  minimizeRace : ∀ (callIndex : ℤ) (crash : Bool) (pred : Pred) (index : ℤ × ℤ),
    callIndex = -1 ∨ 0 ≤ callIndex ∧ callIndex < p.calls.length →
      ∃ N q, ∀ fuel, N ≤ fuel → step p (.minimizeRace fuel callIndex crash pred index) = some q

lemma WellFormed.returns (h : WellFormed p) (hgd : Good p) : Returns p := by
  have hln : Linked p := fun y x hn => (h.uses_iff x y).2 hn
  refine ⟨fun i hi => ?_, fun i pos t inner k hat hk => ?_, ?_,
    fun callIndex crash pred index hci => ?_⟩
  · obtain ⟨q, -, hq, -⟩ := hgd.removeCall hln hi
    exact ⟨q, hq⟩
  · have hx := List.getElem?_eq_getElem hk
    obtain ⟨q, -, hq, -⟩ := hgd.removeArg hln hat hx
    refine ⟨modifyProg (eraseElem k) i pos q, ?_⟩
    simp only [step, UseLinks.removeElemAt, hat, hx, hq, bind_some, map_some]
  · obtain ⟨q, hq, -⟩ := hgd.clone
    exact ⟨q, hq⟩
  · obtain ⟨N, s, hs, -⟩ :=
      minimizeWith_total hgd callIndex hci [index.1, index.2] crash pred
    exact ⟨N, s.p0, fun fuel hfl => congrArg (Option.map Tracked.p0) (hs fuel hfl)⟩

/-- **Links under sequences of edits.** A well-formed program stays well formed exactly as long
as every race minimisation is one of a crash, or the last program it commits to is not one in which
the predicate let it clear a reference. All other edits keep it well formed, and none of them stops
on a program that can be minimised. -/
theorem edits_wellFormed_iff {p : Prog} (h : WellFormed p) (es : List Edit) :
    (Meets step StaysWellFormed p es ↔ Meets step LeavesNoLink p es) ∧
      (Meets step LeavesNoLink p es → ∀ q, run step p es = some q →
        WellFormed q ∧ (Good q → Returns q)) := by
  have hst : ∀ p e q, WellFormed p → LeavesNoLink p e → step p e = some q → WellFormed q :=
    fun p e q hp hlv hq => (staysWellFormed_iff hp e).2 hlv q hq
  refine ⟨meets_iff_of_inv (I := WellFormed) (fun p e hp => staysWellFormed_iff hp e) hst h es,
    fun hmt q hq => ?_⟩
  have hwf : WellFormed q := run_inv hst h hmt hq
  exact ⟨hwf, hwf.returns⟩

/-- The predicate accepts its first question only, that a reference is cleared, but a buffer is
committed after that. -/
def sampleEdits : List Edit :=
  [.minimizeRace 9 1 false (fun log _ => log.isEmpty) (0, 2), .removeCall 1, .clone]

theorem sample_edits_wellFormed : ∃ q, run step sampleProg sampleEdits = some q ∧ WellFormed q := by
  have hmt : Meets step LeavesNoLink sampleProg sampleEdits :=
    ⟨fun _ => .inr (by decide +kernel),
      fun _ _ => ⟨trivial, fun _ _ => ⟨trivial, fun _ _ => trivial⟩⟩⟩
  have hsm : (run step sampleProg sampleEdits).isSome := by decide +kernel
  obtain ⟨q, hq⟩ := isSome_iff_exists.1 hsm
  exact ⟨q, hq, ((edits_wellFormed_iff (by decide +kernel) sampleEdits).2 hmt q hq).1⟩

def openClose : Prog :=
  let fd : ResourceType := ⟨⟨"fd", "fd", 4, .dirIn, false, false⟩, 0xffffffffffffffff⟩
  ⟨[⟨⟨0, "open"⟩, [], 0⟩, ⟨⟨1, "close"⟩, [.result fd ⟨2, some 0, 0, 0, 0⟩], 1⟩], {(0, 2)}⟩

/-- The predicate accepts everything, and the argument of `close` stays a user of `open`
although it refers to nothing. -/
theorem cleared_reference_stays_registered :
    WellFormed openClose ∧
    ∃ q, run step openClose [.minimizeRace 9 1 false (fun _ _ => true) (0, 1)] = some q ∧
      q.nodes = [(0, none), (1, none), (2, none)] ∧ q.uses = {(0, 2)} ∧ ¬ WellFormed q := by
  refine ⟨by decide +kernel, ?_⟩
  have hvw : (run step openClose [.minimizeRace 9 1 false (fun _ _ => true) (0, 1)]).map
      (fun q => (q.nodes, q.uses)) = some ([(0, none), (1, none), (2, none)], {(0, 2)}) := by
    decide +kernel
  obtain ⟨q, hq, heq⟩ := map_eq_some_iff.1 hvw
  obtain ⟨hnd, hus⟩ := Prod.mk.inj heq
  refine ⟨q, hq, hnd, hus, fun hwf => ?_⟩
  have hmem := (hwf.uses_iff 0 2).1 (by simp [hus])
  rw [hnd] at hmem
  exact absurd hmem (by decide)

end Razzer.UseLinks
