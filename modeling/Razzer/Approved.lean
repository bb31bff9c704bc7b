import Razzer.Kinds
import Razzer.MinimizeRace

/-!
Programs that the predicate has accepted.

If all calls are stable, minimisation returns its input or a program that the predicate was
asked about and has accepted. Between two visits this holds of the copy and of the committed
program alike, so committing the copy does no harm; and once a buffer has committed the copy,
no array element is left to be removed from it.
-/

namespace Razzer.Minimize

open Args Progs Sizes Trim List

/-- The input itself, or up to copying a program the predicate has accepted. -/
def Approved (input p0 : Prog) (log : Log) : Prop :=
  p0 = input ∨ ∃ q, (q, true) ∈ log ∧ q.prog.calls = p0.calls

variable {inp p p0 q start : Prog}

lemma Approved.grows {pred : Pred} {log log' : Log}
    (h : Approved inp p0 log) (hlog : LogGrows pred log log') : Approved inp p0 log' := by
  obtain ⟨new, rfl, -⟩ := hlog
  refine h.imp_right ?_
  rintro ⟨q, hq, hcl⟩
  exact ⟨q, mem_append_left _ hq, hcl⟩

/-! ### One walk -/

structure Tidy (input start : Prog) (w : Walk) : Prop where
  on : OnWalk start w
  copy : Approved input w.p w.log
  committed : Approved input w.p0 w.log

variable {fuel i n : ℕ} {c : Call} {w1 : Walk} {vs : List Visit} {b : Bool} {pred : Pred}
  {s : Tracked}

lemma assignSizesAt_of_settled (hc : p.calls[i]? = some c) (hst : settle c.args = c.args)
    (h : assignSizesAt i p = some q) : q = p := by
  rw [assignSizesAt_eq_some hc h, hst, withArgs_self hc]

section Walk

variable {env : Env} {input start : Prog} {w w' : Walk} {v : Visit}

lemma approved_of_settles (h : Approved input w.p w.log) (hst : StableAt env.crash w.p env.call)
    (hv : v ∈ callVisits w.p env.call) (hkn : kindAt w.p env.call v = .buffer true)
    (hs : Settles env (w.tried v.path) w1) : Approved input w1.p w1.log := by
  obtain ⟨new, hlog, hans, hnew⟩ := hs.log
  rcases hnew with ⟨-, han⟩ | ⟨q, hq, hpr⟩
  · obtain ⟨c, hc, -⟩ := Option.bind_eq_some_iff.1 han
    have hmem : Kind.buffer true ∈ allKinds c.args := by
      rw [← map_kindAt_callVisits hc, ← hkn]
      exact mem_map_of_mem hv
    have hp : w1.p = w.p := assignSizesAt_of_settled hc ((hst c hc).settled hmem) han
    rw [hp]
    exact h.grows ⟨new, hlog, hans⟩
  · exact .inr ⟨q, hlog ▸ mem_append_right _ hq, by rw [hpr]⟩

lemma Tidy.goesOn (h : Tidy input start w) (hst : StableAt env.crash w.p env.call)
    (hv : v ∈ callVisits w.p env.call) (ho : Outcome env w v false w') :
    Tidy input start w' ∧ (w'.shared → w.shared ∨ (kindAt w.p env.call v).isBuffer) := by
  obtain ⟨hon, hlog, -⟩ := h.on.goesOn ho
  cases ho with
  | skipped _ => exact ⟨h, .inl⟩
  | passed _ _ => exact ⟨⟨hon, h.copy, h.committed⟩, .inl⟩
  | undone _ _ _ _ => exact ⟨⟨hon, h.copy.grows hlog, h.committed.grows hlog⟩, .inl⟩
  | short _ hkn => exact ⟨⟨hon, h.copy, h.copy⟩, fun _ => .inr (by rw [hkn]; rfl)⟩
  | shrunk _ hkn w1 hs =>
    have happ := approved_of_settles h.copy hst hv hkn hs
    exact ⟨⟨hon, happ, happ⟩, fun _ => .inr (by rw [hkn]; rfl)⟩

lemma Tidy.ends (h : Tidy input start w) (ho : Outcome env w v true w')
    (hsf : w.shared → env.crash ∨ kindAt w.p env.call v ≠ .elem) :
    Approved input w'.p0 w'.log := by
  cases ho with
  | accepted _ _ p _ _ _ | removed _ _ _ p _ _ _ _ _ => exact .inr ⟨env.query p, by simp, rfl⟩
  | dropped _ hkn hcr p _ _ _ _ hans =>
    cases hs : w.shared with
    | false => exact h.committed.grows (.snoc hans)
    | true =>
      rcases hsf hs with hcr' | hne
      · simp [hcr] at hcr'
      · exact absurd hkn hne

/-- **A walk over a stable call** commits nothing the predicate has not accepted. -/
theorem Tidy.visitAll (h : Tidy input start w) (hgd : Good start) (hl : Linked start)
    (hst : StableAt env.crash start env.call) (hvs : ∀ v ∈ vs, v ∈ callVisits start env.call)
    (hor : env.crash ∨ (vs.map (kindAt start env.call)).Pairwise
      fun k k' => k.isBuffer = true → k' ≠ .elem)
    (hsd : w.shared → env.crash ∨ ∀ v ∈ vs, kindAt start env.call v ≠ .elem)
    (hrun : Minimize.visitAll env vs w = some (b, w')) : Approved input w'.p0 w'.log := by
  induction vs generalizing w with
  | nil =>
    cases hrun
    exact h.committed
  | cons v vs ih =>
    rw [forall_mem_cons] at hvs
    have hon := h.on
    obtain ⟨b₁, w₁, hw₁, ho⟩ := visit_outcome env (hgd.keeps hon.keeps)
      (hl.keeps hon.keeps hon.uses_eq) hon.shared_eq v
    rw [Minimize.visitAll, hw₁, andThen, Option.bind_some] at hrun
    cases b₁ with
    | true =>
      cases hrun
      refine h.ends ho fun hs => (hsd hs).imp_right fun hne hkn => ?_
      rcases hon.keeps.kindAt_cases env.call v with heq | ⟨_, _, hbuf⟩
      · exact hne v (mem_cons_self ..) (heq.symm.trans hkn)
      · rw [hkn] at hbuf
        cases hbuf
    | false =>
      have hv : v ∈ callVisits w.p env.call := by
        rw [hon.keeps.callVisits_eq]
        exact hvs.1
      obtain ⟨h₁, hsh₁⟩ := h.goesOn (hst.step hon.keeps.trims hon.calm) hv ho
      rw [map_cons, pairwise_cons] at hor
      refine ih h₁ hvs.2 (hor.imp_right And.right) (fun hs => ?_) hrun
      rcases hsh₁ hs with hs | hbuf
      · exact (hsd hs).imp_right fun hne u hu => hne u (mem_cons_of_mem _ hu)
      · -- from a buffer on, nothing can be removed
        have hbuf' : (kindAt start env.call v).isBuffer := by
          rcases hon.keeps.kindAt_cases env.call v with heq | ⟨_, hbuf', -⟩
          · rwa [← heq]
          · rw [hbuf']
            rfl
        exact hor.imp_right fun hp u hu => hp.1 _ (mem_map_of_mem hu) hbuf'

end Walk

/-! ### All walks -/

/-- The copy of a program whose users are registered right is the program itself. -/
lemma clone_self (hln : p.uses = links p.nodes) (h : p.clone = some q) : q = p := by
  obtain ⟨-, hcl, hus⟩ := p.clone_eq h
  calc q = ⟨q.calls, q.uses⟩ := rfl
    _ = ⟨p.calls, p.uses⟩ := by rw [hcl, hus, hln]
    _ = p := rfl

variable {w : Walk}

lemma Begins.tidy (h : Begins w start)
    (hln : inp.uses = links inp.nodes) (happ : Approved inp w.p0 w.log) :
    Tidy inp start { w with p := start, shared := false } := by
  refine ⟨h.onWalk, ?_, happ⟩
  rcases happ with rfl | ⟨q, hq, hcl⟩
  · exact .inl (clone_self hln h.clone_eq)
  · exact .inr ⟨q, hq, hcl.trans h.calls_eq.symm⟩

lemma minimizeCall_approved (env : Env) (hln : inp.uses = links inp.nodes)
    {w' : Walk} (hgd : Good w.p0) (hi : env.call < w.p0.calls.length)
    (hst : StableAt env.crash w.p0 env.call) (happ : Approved inp w.p0 w.log)
    (hrun : minimizeCall env fuel w = some w') : Approved inp w'.p0 w'.log := by
  induction fuel generalizing w with
  | zero => cases hrun
  | succ fuel ih =>
    obtain ⟨start, h⟩ := exists_begins hgd
    have hc : start.calls[env.call]? = some w.p0.calls[env.call] := by
      rw [h.calls_eq, getElem?_eq_getElem hi]
    have hst' : StableAt env.crash start env.call := by
      unfold StableAt
      rwa [h.calls_eq]
    have hvs : callVisits start env.call = callVisits w.p0 env.call := by
      unfold callVisits
      rw [h.calls_eq]
    obtain ⟨b, w1, hw1, -, htr⟩ := visitAll_outcome env h.good h.linked h.onWalk
      (callVisits w.p0 env.call)
    have happ1 : Approved inp w1.p0 w1.log := by
      refine (h.tidy hln happ).visitAll h.good h.linked hst' (fun v hv => hvs ▸ hv) ?_
        (by simp) hw1
      rw [← hvs, map_kindAt_callVisits hc]
      exact (hst' _ hc).order
    rw [h.minimizeCall_eq env hi, hw1, Option.bind_some] at hrun
    cases b with
    | false =>
      cases hrun
      exact happ1
    | true =>
      obtain ⟨hg, ht, hcl, -⟩ := htr rfl
      exact ih hg ((h.trims.1 ht).length_eq ▸ hi) (hst.step (h.trims.1 ht) (h.calm.1 hcl))
        happ1 hrun

variable {env : Env} {w' : Walk}

lemma minimizeCalls_approved (hln : inp.uses = links inp.nodes)
    (hgd : Good w.p0) (hn : i + n ≤ w.p0.calls.length)
    (hst : ∀ j, i ≤ j → StableAt env.crash w.p0 j) (happ : Approved inp w.p0 w.log)
    (hrun : minimizeCalls env fuel n i w = some w') : Approved inp w'.p0 w'.log := by
  induction n generalizing i w with
  | zero =>
    cases hrun
    exact happ
  | succ n ih =>
    obtain ⟨w1, hw1, hrun⟩ := Option.bind_eq_some_iff.1 hrun
    have hi : i < w.p0.calls.length := by omega
    have h1 := minimizeCall_leads (w := { w with triedPaths := [] }) hgd hi hw1
    have hlen : w.p0.calls.length = w1.p0.calls.length := h1.trims.length_eq
    have happ1 := minimizeCall_approved { env with call := i } hln
      (w := { w with triedPaths := [] }) hgd hi
      (hst i le_rfl) happ hw1
    exact ih h1.good (by omega) (fun j hj => (hst j (by omega)).step h1.trims h1.calm) happ1
      hrun

lemma stable_mapResults {crash : Bool} {f : ResourceType → ResultNode → ResultNode} (hf : Resets f)
    (h : Stable crash c) : Stable crash (c.mapResults f) := by
  have hkp := callKeeps_mapResults hf [c]
  have hcl := calms_mapResults f (p := ⟨[c], ∅⟩) (q := ⟨[c.mapResults f], ∅⟩) rfl
  rw [map_singleton, forall₂_cons] at hkp
  rw [Calms, forall₂_cons] at hcl
  exact h.step hkp.1.toCallTrims hcl.1

/-- **Stable programs are minimised by consent.** -/
theorem minimizeWith_approved (hgd : Good p) (hln : p.uses = links p.nodes) {crash : Bool}
    (hst : ∀ c ∈ p.calls, Stable crash c) {ci : ℤ} {index : List ℤ}
    (hrun : minimizeWith fuel p ci index crash pred = some s) : Approved p s.p0 s.log := by
  obtain ⟨t, w, hrem, hw, hp0, hlog⟩ := minimizeWith_phases hgd hrun
  rw [hp0, hlog]
  refine minimizeCalls_approved (w := ⟨t.p0, t.p0, false, [], t.log⟩) hln hrem.good (by simp)
    (fun j _ c' hc' => ?_) ?_ hw
  · obtain ⟨c, hc, f, hf, rfl⟩ := hrem.calls c' (mem_of_getElem? hc')
    exact stable_mapResults hf (hst c hc)
  · obtain ⟨new, hnew, -, hor⟩ := hrem.log
    rcases hor with ⟨-, hp⟩ | ⟨q, hq, hpr⟩
    · exact .inl hp
    · exact .inr ⟨q, hnew ▸ mem_append_right _ hq, by rw [hpr]⟩

end Razzer.Minimize
