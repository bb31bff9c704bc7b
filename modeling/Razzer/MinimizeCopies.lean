import Razzer.MinimizeRace

/-!
`MinimizeRace` with both racy indices at the tracked call, beside `Minimize`.

A predicate that does not look at the racy indices cannot tell the two apart. A run of
`MinimizeRace` is followed with the racy indices left out of it, of the state, of the log and of
the environment of a walk, and every step of it is then the step of `Minimize`.
-/

namespace Razzer.Minimize

open Args Progs Sizes Trim Option

/-! ### Leaving the racy indices out -/

def Query.plain (q : Query) : Query := { q with index := [] }

def plainLog (log : Log) : Log := log.map fun x => (x.1.plain, x.2)

/-- The predicate does not look at the racy indices, neither of a query nor of the earlier ones. -/
def IgnoresIndex (pred : Pred) : Prop := ∀ log q, pred (plainLog log) q.plain = pred log q

def Tracked.plain (s : Tracked) : Tracked := { s with index := [], log := plainLog s.log }

def Env.plain (env : Env) : Env := { env with index := [] }

def Walk.plain (w : Walk) : Walk := { w with log := plainLog w.log }

def plainEnd : Option (Bool × Walk) → Option (Bool × Walk) := Option.map fun x => (x.1, x.2.plain)

lemma plainLog_snoc (log : Log) (q : Query) (ans : Bool) :
    plainLog (log ++ [(q, ans)]) = plainLog log ++ [(q.plain, ans)] := by
  simp [plainLog]

section Walks

variable {env : Env}

lemma Walk.plain_set (w : Walk) (p : Prog) : (w.set p).plain = w.plain.set p := rfl

lemma Walk.plain_tried (w : Walk) (path : String) : (w.tried path).plain = w.plain.tried path := rfl

lemma withData_plain (w : Walk) (pos : List ℕ) (bs : List UInt8) :
    withData env.plain w.plain pos bs = (withData env w pos bs).map Walk.plain := by
  unfold withData
  rw [map_map]
  rfl

section Ignoring

variable (h : IgnoresIndex env.pred)
include h

lemma Walk.answer_plain (w : Walk) : w.plain.answer env.plain = w.answer env :=
  h w.log (w.query env)

lemma Walk.plain_ask (w : Walk) : (w.ask env).plain = w.plain.ask env.plain := by
  have hlog : plainLog (w.ask env).log =
      plainLog w.log ++ [(w.plain.query env.plain, w.plain.answer env.plain)] := by
    rw [answer_plain h]
    exact plainLog_snoc ..
  simp only [Walk.plain, hlog]
  rfl

lemma plainEnd_ask (w : Walk) (f g : Walk → Option (Bool × Walk))
    (hf : ∀ w, plainEnd (f w) = f w.plain) (hg : ∀ w, plainEnd (g w) = g w.plain) :
    plainEnd (if w.answer env then f (w.ask env) else g (w.ask env)) =
      if w.plain.answer env.plain then f (w.plain.ask env.plain)
      else g (w.plain.ask env.plain) := by
  rw [Walk.answer_plain h, ← Walk.plain_ask h]
  split
  · exact hf _
  · exact hg _

lemma shrink_plain (pos : List ℕ) (minLen rounds step : ℕ) (bs : List UInt8) (w : Walk) :
    shrink env.plain pos minLen rounds step bs w.plain =
      (shrink env pos minLen rounds step bs w).map Walk.plain := by
  induction rounds generalizing step bs w with
  | zero => rfl
  | succ rounds ih =>
    rw [shrink, shrink]
    split
    · split
      · simp only [withData_plain]
        cases withData env w pos (bs.take (bs.length - step)) with
        | none => rfl
        | some w =>
          simp only [map_some, bind_some]
          rw [Walk.answer_plain h, ← Walk.plain_ask h]
          split
          · exact ih step _ _
          · rw [withData_plain]
            cases withData env (w.ask env) pos bs with
            | none => rfl
            | some w =>
              show (if env.crash then _ else _) = Option.map _ (if env.crash then _ else _)
              split
              · rfl
              · exact ih (step / 2) bs w
      · show (if env.crash then _ else _) = _
        split
        · rfl
        · exact ih (step / 2) bs w
    · rfl

section Visits

variable (w : Walk) (pos : List ℕ) (path : String)

lemma tryConst_plain (t : ConstType) (val : UInt64) :
    tryConst env.plain w.plain pos path t val = plainEnd (tryConst env w pos path t val) := by
  unfold tryConst
  show (if !isValue t || env.crash || decide (path ∈ w.triedPaths) then _ else _) = _
  split
  · rfl
  · simp only
    split
    · rfl
    · exact (plainEnd_ask h ((w.tried path).set (modifyProg (setVal t.default) env.call pos w.p))
        (fun w => some (true, w.commit))
        (fun w => some (false, w.set (modifyProg (setVal val) env.call pos w.p)))
        (fun _ => rfl) (fun _ => rfl)).symm

lemma tryResult_plain (t : ResourceType) (n : ResultNode) :
    tryResult env.plain w.plain pos path t n = plainEnd (tryResult env w pos path t n) := by
  unfold tryResult
  show (if env.crash || decide (path ∈ w.triedPaths) then _ else _) = _
  split
  · rfl
  · simp only
    split
    · rfl
    · exact (plainEnd_ask h
        ((w.tried path).set (modifyProg (setResult none t.default) env.call pos w.p))
        (fun w => some (true, w.commit))
        (fun w => some (false, w.set (modifyProg (setResult n.res 0) env.call pos w.p)))
        (fun _ => rfl) (fun _ => rfl)).symm

lemma tryData_plain (t : BufferType) (bs : List UInt8) :
    tryData env.plain w.plain pos path t bs = plainEnd (tryData env w pos path t bs) := by
  unfold tryData
  show (if path ∈ w.triedPaths then _ else _) = _
  split
  · rfl
  · simp only
    split
    · rfl
    · rw [← Walk.plain_tried, shrink_plain h, plainEnd, map_map, map_map]
      rfl

lemma removeElem_plain (k : ℕ) (elem : Arg) :
    removeElem env.plain w.plain pos path k elem = plainEnd (removeElem env w pos path k elem) := by
  unfold removeElem
  rw [plainEnd, map_map]
  show Option.map _ ((w.p.removeArg elem).bind fun p =>
    assignSizesAt env.call (modifyProg (eraseElem k) env.call pos p)) = _
  congr 1
  funext p
  simp only [Function.comp_apply]
  rw [← Walk.plain_set, Walk.answer_plain h, ← Walk.plain_ask h]
  split <;> rfl

lemma tryElem_plain (k : ℕ) :
    tryElem env.plain w.plain pos path k = plainEnd (tryElem env w pos path k) := by
  unfold tryElem
  rw [show w.plain.p = w.p from rfl, show env.plain.call = env.call from rfl]
  generalize argAt w.p env.call pos = arg
  split
  case h_1 t inner =>
    cases inner[k]? with
    | none => simp only [plainEnd, map_some]
    | some elem =>
      simp only
      show (if decide (path ∉ w.triedPaths) && !env.crash && _ then _ else _) = _
      split
      · exact removeElem_plain h ..
      · rfl
  case h_2 => rfl

lemma tryLeaf_plain : tryLeaf env.plain w.plain pos path = plainEnd (tryLeaf env w pos path) := by
  unfold tryLeaf
  rw [show w.plain.p = w.p from rfl, show env.plain.call = env.call from rfl]
  generalize argAt w.p env.call pos = arg
  split
  · exact tryConst_plain h ..
  · exact tryResult_plain h ..
  · exact tryData_plain h ..
  · rfl

end Visits

lemma visit_plain (w : Walk) (v : Visit) :
    visit env.plain w.plain v = plainEnd (visit env w v) := by
  cases v with
  | elem pos path k => exact tryElem_plain h w pos path k
  | leaf pos path => exact tryLeaf_plain h w pos path

/-- **A walk does not depend on the racy indices.** -/
theorem visitAll_plain (vs : List Visit) (w : Walk) :
    visitAll env.plain vs w.plain = plainEnd (visitAll env vs w) := by
  induction vs generalizing w with
  | nil => rfl
  | cons v vs ih =>
    rw [visitAll, visitAll, visit_plain h]
    obtain _ | ⟨_ | _, w'⟩ := visit env w v
    · rfl
    · exact ih w'
    · rfl

lemma minimizeCall_plain (fuel : ℕ) (w : Walk) :
    minimizeCall env.plain fuel w.plain = (minimizeCall env fuel w).map Walk.plain := by
  induction fuel generalizing w with
  | zero => rfl
  | succ fuel ih =>
    rw [minimizeCall, minimizeCall]
    show (w.p0.clone.bind fun p => p.calls[env.call]?.bind _) = _
    cases w.p0.clone with
    | none => rfl
    | some p =>
      simp only [bind_some]
      cases p.calls[env.call]? with
      | none => rfl
      | some c =>
        simp only [bind_some, recArgs_eq]
        have hwl := visitAll_plain h (argVisits 0 c.args) { w with p := p, shared := false }
        show (visitAll env.plain _ (Walk.plain { w with p := p, shared := false })).bind _ = _
        rw [hwl]
        generalize visitAll env (argVisits 0 c.args) { w with p := p, shared := false } = r
        obtain _ | ⟨_ | _, w'⟩ := r
        · rfl
        · rfl
        · exact ih w'

lemma minimizeCalls_plain (fuel n i : ℕ) (w : Walk) :
    minimizeCalls env.plain fuel n i w.plain = (minimizeCalls env fuel n i w).map Walk.plain := by
  induction n generalizing i w with
  | zero => rfl
  | succ n ih =>
    rw [minimizeCalls, minimizeCalls]
    have hcl := @minimizeCall_plain { env with call := i } h fuel
      { w with triedPaths := [] }
    show (minimizeCall (Env.plain { env with call := i }) fuel
      (Walk.plain { w with triedPaths := [] })).bind _ = _
    rw [hcl]
    cases minimizeCall { env with call := i } fuel { w with triedPaths := [] } with
    | none => rfl
    | some w' => exact ih (i + 1) w'

end Ignoring

end Walks

/-! ### Removing calls -/

def Tracked.Paired (s : Tracked) : Prop := s.index = [s.callIndex, s.callIndex]

variable {s : Tracked} {pred : Pred}

lemma Tracked.Paired.skips_iff (hs : s.Paired) (i : ℕ) :
    ((i : ℤ) = s.callIndex ∨ (i : ℤ) ∈ s.index) ↔
      ((i : ℤ) = s.plain.callIndex ∨ (i : ℤ) ∈ s.plain.index) := by
  rw [hs]
  simp [Tracked.plain]

def Tracked.attempt (s : Tracked) (pred : Pred) (i : ℕ) (p : Prog) : Tracked :=
  let q : Query := ⟨p, shiftIndex i s.callIndex, s.index.map (shiftIndex i)⟩
  let log := s.log ++ [(q, pred s.log q)]
  if pred s.log q then ⟨p, q.callIndex, q.index, log⟩ else { s with log := log }

lemma removeCalls_succ {i : ℕ} {p : Prog} (htr : ¬ ((i : ℤ) = s.callIndex ∨ (i : ℤ) ∈ s.index))
    (hp : (s.p0.clone.bind fun p => p.removeCall i) = some p) :
    removeCalls pred (i + 1) s = removeCalls pred i (s.attempt pred i p) := by
  rw [removeCalls, if_neg htr, hp]
  simp only [Tracked.attempt]
  split <;> rfl

lemma Tracked.plain_attempt (h : IgnoresIndex pred) (s : Tracked) (i : ℕ) (p : Prog) :
    (s.attempt pred i p).plain = s.plain.attempt pred i p := by
  have hans := h s.log ⟨p, shiftIndex i s.callIndex, s.index.map (shiftIndex i)⟩
  simp only [Query.plain] at hans
  simp only [attempt, Tracked.plain, List.map_nil, hans]
  split <;> simp only [plainLog_snoc, Query.plain]

lemma Tracked.Paired.attempt (hs : s.Paired) (pred : Pred) (i : ℕ) (p : Prog) :
    (s.attempt pred i p).Paired := by
  unfold Tracked.attempt
  simp only
  split
  · show s.index.map (shiftIndex i) = _
    rw [hs]
    rfl
  · exact hs

/-- **The loop that removes calls** keeps the racy indices at the tracked call, and it is the loop
of `Minimize`. -/
theorem removeCalls_plain (h : IgnoresIndex pred) (n : ℕ) (hs : s.Paired) :
    removeCalls pred n s.plain = (removeCalls pred n s).map Tracked.plain ∧
      ∀ s', removeCalls pred n s = some s' → s'.Paired := by
  induction n generalizing s with
  | zero =>
    refine ⟨rfl, fun s' hs' => ?_⟩
    cases hs'
    exact hs
  | succ i ih =>
    by_cases hsk : (i : ℤ) = s.callIndex ∨ (i : ℤ) ∈ s.index
    · rw [removeCalls, removeCalls, if_pos hsk, if_pos ((hs.skips_iff i).1 hsk)]
      exact ih hs
    · have hsk' := mt (hs.skips_iff i).2 hsk
      cases hp : s.p0.clone.bind fun p => p.removeCall i with
      | none =>
        rw [removeCalls, removeCalls, if_neg hsk, if_neg hsk', show s.plain.p0 = s.p0 from rfl, hp]
        refine ⟨rfl, fun s' hs' => ?_⟩
        cases hs'
      | some p =>
        rw [removeCalls_succ hsk hp, removeCalls_succ hsk' hp, ← Tracked.plain_attempt h]
        exact ih (hs.attempt pred i p)

/-! ### The whole minimisation -/

lemma minimizeWith_plain (h : IgnoresIndex pred) (fuel : ℕ) (p : Prog) (ci : ℤ)
    (crash : Bool) :
    (minimizeWith fuel p ci [ci, ci] crash pred).map Tracked.plain =
        minimizeWith fuel p ci [] crash pred ∧
      ∀ s, minimizeWith fuel p ci [ci, ci] crash pred = some s → s.Paired := by
  unfold minimizeWith
  cases trackedName p ci with
  | none =>
    refine ⟨rfl, fun s hs => ?_⟩
    cases hs
  | some name =>
    obtain ⟨hpl, hpr⟩ := removeCalls_plain h p.calls.length
      (s := ⟨p, ci, [ci, ci], []⟩) rfl
    simp only [bind_some]
    rw [show (⟨p, ci, [], []⟩ : Tracked) = Tracked.plain ⟨p, ci, [ci, ci], []⟩ from rfl, hpl]
    cases hrem : removeCalls pred p.calls.length ⟨p, ci, [ci, ci], []⟩ with
    | none =>
      refine ⟨rfl, fun s hs => ?_⟩
      cases hs
    | some t =>
      have ht := hpr t hrem
      have hcl := @minimizeCalls_plain ⟨pred, crash, t.callIndex, t.index, 0⟩ h fuel
        t.p0.calls.length 0 ⟨t.p0, t.p0, false, [], t.log⟩
      simp only [map_some, bind_some]
      show Option.map _ _ = (minimizeCalls (Env.plain ⟨pred, crash, t.callIndex, t.index, 0⟩) fuel
        t.p0.calls.length 0 (Walk.plain ⟨t.p0, t.p0, false, [], t.log⟩)).bind _ ∧ _
      rw [hcl]
      cases minimizeCalls ⟨pred, crash, t.callIndex, t.index, 0⟩ fuel t.p0.calls.length 0
          ⟨t.p0, t.p0, false, [], t.log⟩ with
      | none =>
        refine ⟨rfl, fun s hs => ?_⟩
        cases hs
      | some w =>
        show Option.map _ (if trackedName w.p0 t.callIndex = some name then _ else _) =
          (if trackedName w.p0 t.callIndex = some name then _ else _) ∧ ∀ s,
            (if trackedName w.p0 t.callIndex = some name then _ else _) = some s → _
        split
        · refine ⟨rfl, fun s hs => ?_⟩
          cases hs
          exact ht
        · refine ⟨rfl, fun s hs => ?_⟩
          cases hs

/-- **`MinimizeRace` at the tracked call is `Minimize`.** For a predicate that ignores the racy
indices and may depend on all earlier queries and answers, it asks about the same programs with
the same call indices, in the same order, and ends with the same program and call index; so it
panics or runs on when `Minimize` does. On a program that can be minimised both of them return. -/
theorem minimizeRace_eq_minimize {pred : Pred} (h : IgnoresIndex pred) (p : Prog)
    (callIndex : ℤ) (crash : Bool) :
    (∀ fuel, (minimizeRace fuel p callIndex crash pred (callIndex, callIndex)).map Tracked.plain =
        minimize fuel p callIndex crash pred ∧
      ∀ s, minimizeRace fuel p callIndex crash pred (callIndex, callIndex) = some s →
        s.index = [s.callIndex, s.callIndex]) ∧
    (Good p → callIndex = -1 ∨ 0 ≤ callIndex ∧ callIndex < p.calls.length →
      ∃ N s, ∀ fuel, N ≤ fuel →
        minimizeRace fuel p callIndex crash pred (callIndex, callIndex) = some s ∧
          minimize fuel p callIndex crash pred = some s.plain) := by
  refine ⟨fun fuel => minimizeWith_plain h fuel p callIndex crash, fun hgd hci => ?_⟩
  obtain ⟨N, s, hs, -⟩ :=
    minimizeWith_total hgd callIndex hci [callIndex, callIndex] crash pred
  refine ⟨N, s, fun fuel hfl => ⟨hs fuel hfl, ?_⟩⟩
  have hpl := (minimizeWith_plain h fuel p callIndex crash).1
  rw [hs fuel hfl, map_some] at hpl
  exact hpl.symm

def everySecond : Pred := fun log _ => log.length % 2 == 0

theorem minimizeRace_eq_minimize_sample :
    ∃ N s, ∀ fuel, N ≤ fuel → minimizeRace fuel sampleProg 1 false everySecond (1, 1) = some s ∧
      minimize fuel sampleProg 1 false everySecond = some s.plain := by
  have h : IgnoresIndex everySecond := by
    intro log q
    simp [everySecond, plainLog]
  exact (minimizeRace_eq_minimize h sampleProg 1 false).2 sampleProg_good
    (.inr ⟨by decide, by decide⟩)

end Razzer.Minimize
