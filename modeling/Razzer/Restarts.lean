import Razzer.Walks

/-!
The walks over a call come to an end.

A walk that ends early has made the call smaller, or has marked a path that the call has and
that was not marked before. So a call is walked over finitely often, whatever the predicate
answers, and the calls of the result are those of the input with trimmed arguments.
-/

namespace Razzer.Minimize

open Args Progs Sizes Trim List Finset

/-! ### One walk -/

lemma Linked.keeps {p p' : Prog} (hl : Linked p) (h : ProgKeeps p p') (hu : p'.uses = p.uses) :
    Linked p' := by
  intro y x hn
  obtain ⟨⟨y', r⟩, hmem, hy, hr⟩ := exists_of_forall₂ (weakens_of_keeps h) hn
  rcases hr with hr | hr
  · cases hr
  · rw [hu]
    refine hl y x ?_
    simp only at hy hr
    rwa [hy, hr]

/-- The walk began with the copy `start` and has only changed values so far. -/
structure OnWalk (start : Prog) (w : Walk) : Prop where
  keeps : ProgKeeps start w.p
  calm : Calms start w.p
  uses_eq : w.p.uses = start.uses
  keeps0 : ProgKeeps start w.p0
  calm0 : Calms start w.p0
  shared_eq : w.shared = true → w.p0 = w.p

structure Ends (env : Env) (start : Prog) (vs : List Visit) (w w' : Walk) : Prop where
  good : Good w'.p0
  trims : ProgTrims start w'.p0
  calm : Calms start w'.p0
  log : LogGrows env.pred w.log w'.log
  tried_subset : w.triedPaths ⊆ w'.triedPaths
  progress : callCount w'.p0 env.call < callCount start env.call ∨
    ProgKeeps start w'.p0 ∧ ∃ v ∈ vs, v.path ∉ w.triedPaths ∧ v.path ∈ w'.triedPaths

section Walk

variable {env : Env} {start : Prog} {w w' : Walk} {v : Visit}

lemma OnWalk.commit (h : OnWalk start w) : OnWalk start w.commit :=
  ⟨h.keeps, h.calm, h.uses_eq, h.keeps, h.calm, fun _ => rfl⟩

lemma OnWalk.settles (h : OnWalk start w) (hs : Settles env w w') : OnWalk start w' := by
  have hkp := h.keeps.trans hs.keeps
  have hcl := h.calm.trans hs.calm
  refine ⟨hkp, hcl, hs.uses_eq.trans h.uses_eq, ?_, ?_, fun hsh => ?_⟩
  · rw [hs.p0_eq]
    split
    · exact hkp
    · exact h.keeps0
  · rw [hs.p0_eq]
    split
    · exact hcl
    · exact h.calm0
  · rw [hs.p0_eq, ← hs.shared_eq, if_pos hsh]

lemma OnWalk.goesOn (h : OnWalk start w) (ho : Outcome env w v false w') :
    OnWalk start w' ∧ LogGrows env.pred w.log w'.log ∧ w.triedPaths ⊆ w'.triedPaths := by
  have htr : OnWalk start (w.tried v.path) :=
    ⟨h.keeps, h.calm, h.uses_eq, h.keeps0, h.calm0, h.shared_eq⟩
  have hsub : w.triedPaths ⊆ v.path :: w.triedPaths := subset_cons_self ..
  cases ho with
  | skipped _ => exact ⟨h, .refl _ _, Subset.refl _⟩
  | passed _ _ => exact ⟨htr, .refl _ _, hsub⟩
  | undone _ _ _ hans =>
    exact ⟨⟨h.keeps, h.calm, h.uses_eq, h.keeps0, h.calm0, h.shared_eq⟩, .snoc hans, hsub⟩
  | short _ _ => exact ⟨htr.commit, .refl _ _, hsub⟩
  | shrunk _ _ w1 hs =>
    obtain ⟨new, hlog, hans, -⟩ := hs.log
    exact ⟨(htr.settles hs).commit, ⟨new, hlog, hans⟩, hs.tried_eq ▸ hsub⟩

lemma OnWalk.ends (h : OnWalk start w) (hgd : Good start) (ho : Outcome env w v true w') :
    Ends env start [v] w w' := by
  have hsub : w.triedPaths ⊆ v.path :: w.triedPaths := subset_cons_self ..
  cases ho with
  | accepted htr _ p hkp hcl hans =>
    have hk := h.keeps.trans hkp
    exact ⟨hgd.keeps hk, hk.trims, h.calm.trans hcl, .snoc hans, hsub,
      .inr ⟨hk, v, by simp, htr, by simp⟩⟩
  | removed _ _ _ p hp hts hcl hcn hans =>
    exact ⟨hp, h.keeps.trims.trans hts, h.calm.trans hcl, .snoc hans, Subset.refl _,
      .inl (h.keeps.callCount_eq env.call ▸ hcn)⟩
  | dropped htr _ _ p hp hts hcl hcn hans =>
    cases hs : w.shared with
    | true =>
      exact ⟨hp, h.keeps.trims.trans hts, h.calm.trans hcl, .snoc hans, hsub,
        .inl (h.keeps.callCount_eq env.call ▸ hcn)⟩
    | false =>
      exact ⟨hgd.keeps h.keeps0, h.keeps0.trims, h.calm0, .snoc hans, hsub,
        .inr ⟨h.keeps0, v, by simp, htr, by simp⟩⟩

/-- **A walk** goes through, or ends early. -/
theorem visitAll_outcome (env : Env) (hgd : Good start) (hl : Linked start)
    (h : OnWalk start w) (vs : List Visit) : ∃ b w', visitAll env vs w = some (b, w') ∧
      (b = false → OnWalk start w' ∧ LogGrows env.pred w.log w'.log) ∧
      (b → Ends env start vs w w') := by
  induction vs generalizing w with
  | nil => exact ⟨false, w, rfl, fun _ => ⟨h, .refl _ _⟩, by simp⟩
  | cons v vs ih =>
    obtain ⟨b, w₁, hw₁, ho⟩ := visit_outcome env (hgd.keeps h.keeps)
      (hl.keeps h.keeps h.uses_eq) h.shared_eq v
    rw [visitAll, hw₁, andThen, Option.bind_some]
    cases b with
    | true =>
      obtain ⟨hg, ht, hcl, hlog, hsub, hp⟩ := h.ends hgd ho
      refine ⟨true, w₁, rfl, by simp, fun _ => ⟨hg, ht, hcl, hlog, hsub, hp.imp_right ?_⟩⟩
      rintro ⟨hk, u, hu, hpt⟩
      exact ⟨hk, u, by simp_all, hpt⟩
    | false =>
      obtain ⟨h₁, hlog₁, hsub₁⟩ := h.goesOn ho
      obtain ⟨b, w', hw', hfl, htr⟩ := ih h₁
      refine ⟨b, w', hw', fun hb => ?_, fun hb => ?_⟩
      · exact ⟨(hfl hb).1, hlog₁.trans (hfl hb).2⟩
      · obtain ⟨hg, ht, hcl, hlog, hsub, hp⟩ := htr hb
        refine ⟨hg, ht, hcl, hlog₁.trans hlog, Subset.trans hsub₁ hsub, hp.imp_right ?_⟩
        rintro ⟨hk, u, hu, hnot, hin⟩
        exact ⟨hk, u, mem_cons_of_mem _ hu, fun hc => hnot (hsub₁ hc), hin⟩

end Walk

/-! ### All walks over a call -/

def callVisits (p : Prog) (i : ℕ) : List Visit :=
  (p.calls[i]?.map fun c => argVisits 0 c.args).getD []

variable {p p' : Prog} {i n : ℕ}

lemma ProgKeeps.callVisits_eq (h : ProgKeeps p p') (i : ℕ) : callVisits p' i = callVisits p i := by
  unfold callVisits
  by_cases hi : i < p.calls.length
  · have hi' : i < p'.calls.length := h.length_eq ▸ hi
    have hc := (List.forall₂_iff_get.1 h).2 i hi hi'
    rw [getElem?_eq_getElem hi, getElem?_eq_getElem hi']
    exact argVisits_of_trims hc.args hc.count_le 0
  · have hlen := h.length_eq
    rw [getElem?_eq_none (by omega), getElem?_eq_none (by omega)]

def untried (env : Env) (w : Walk) : Finset String :=
  ((callVisits w.p0 env.call).map Visit.path).toFinset \ w.triedPaths.toFinset

variable {env : Env} {w w' : Walk}

variable {v : Visit}

lemma untried_card_lt (hvs : callVisits w'.p0 env.call = callVisits w.p0 env.call)
    (hsub : w.triedPaths ⊆ w'.triedPaths) (hv : v ∈ callVisits w.p0 env.call)
    (hnot : v.path ∉ w.triedPaths) (hin : v.path ∈ w'.triedPaths) :
    (untried env w').card < (untried env w).card := by
  refine card_lt_card (ssubset_iff_of_subset ?_ |>.2 ⟨v.path, ?_, ?_⟩)
  · unfold untried
    rw [hvs]
    exact sdiff_subset_sdiff le_rfl fun x => by simpa using @hsub x
  · simp only [untried, mem_sdiff, mem_toFinset]
    exact ⟨mem_map_of_mem hv, hnot⟩
  · simp [untried, hin]

/-- What walks do to the committed program and the log. -/
structure Leads (pred : Pred) (w w' : Walk) : Prop where
  good : Good w'.p0
  trims : ProgTrims w.p0 w'.p0
  calm : Calms w.p0 w'.p0
  log : LogGrows pred w.log w'.log

lemma Leads.trans {pred : Pred} {w'' : Walk} (h : Leads pred w w') (h' : Leads pred w' w'') :
    Leads pred w w'' :=
  ⟨h'.good, h.trims.trans h'.trims, h.calm.trans h'.calm, h.log.trans h'.log⟩

/-- A copy of the committed program, where a walk begins. -/
structure Begins (w : Walk) (start : Prog) : Prop where
  clone_eq : w.p0.clone = some start
  calls_eq : start.calls = w.p0.calls
  good : Good start
  linked : Linked start

lemma exists_begins (h : Good w.p0) : ∃ start, Begins w start := by
  obtain ⟨start, hcn, hcl, hgd, hl⟩ := h.clone
  exact ⟨start, hcn, hcl, hgd, hl⟩

section Begins

variable {w : Walk} {start q : Prog} (h : Begins w start)
include h

lemma Begins.keeps : ProgKeeps start q ↔ ProgKeeps w.p0 q := by
  rw [ProgKeeps, h.calls_eq, ← ProgKeeps]

lemma Begins.trims : ProgTrims start q ↔ ProgTrims w.p0 q := by
  rw [ProgTrims, h.calls_eq, ← ProgTrims]

lemma Begins.calm : Calms start q ↔ Calms w.p0 q := by
  rw [Calms, h.calls_eq, ← Calms]

lemma Begins.onWalk : OnWalk start { w with p := start, shared := false } :=
  ⟨.refl start, .refl start, rfl, h.keeps.2 (.refl w.p0), h.calm.2 (.refl w.p0), by simp⟩

lemma Begins.minimizeCall_eq (env : Env) (hi : env.call < w.p0.calls.length) (fuel : ℕ) :
    minimizeCall env (fuel + 1) w =
      (visitAll env (callVisits w.p0 env.call) { w with p := start, shared := false }).bind
        fun x => if x.1 then minimizeCall env fuel x.2 else some x.2 := by
  have hc : start.calls[env.call]? = some w.p0.calls[env.call] := by
    rw [h.calls_eq, getElem?_eq_getElem hi]
  have hvs : callVisits w.p0 env.call = argVisits 0 w.p0.calls[env.call].args := by
    rw [callVisits, getElem?_eq_getElem hi, Option.map_some, Option.getD_some]
  rw [minimizeCall, h.clone_eq, Option.bind_some, hc, Option.bind_some, recArgs_eq, hvs]

end Begins

lemma firstWalk (env : Env) (hgd : Good w.p0) (hi : env.call < w.p0.calls.length) :
    ∃ b w', (∀ fuel, minimizeCall env (fuel + 1) w =
        if b then minimizeCall env fuel w' else some w') ∧ Leads env.pred w w' ∧
      (b = true → Ends env w.p0 (callVisits w.p0 env.call) w w') := by
  obtain ⟨start, h⟩ := exists_begins hgd
  obtain ⟨b, w', hw', hfl, htr⟩ := visitAll_outcome env h.good h.linked h.onWalk
    (callVisits w.p0 env.call)
  refine ⟨b, w', fun fuel => ?_, ?_, fun hb => ?_⟩
  · rw [h.minimizeCall_eq env hi, hw', Option.bind_some]
  · cases b with
    | false =>
      obtain ⟨hon, hlog⟩ := hfl rfl
      exact ⟨h.good.keeps hon.keeps0, (h.keeps.1 hon.keeps0).trims, h.calm.1 hon.calm0, hlog⟩
    | true =>
      obtain ⟨hg, ht, hc, hlog, -⟩ := htr rfl
      exact ⟨hg, h.trims.1 ht, h.calm.1 hc, hlog⟩
  · obtain ⟨hg, ht, hc, hlog, hsub, hp⟩ := htr hb
    refine ⟨hg, h.trims.1 ht, h.calm.1 hc, hlog, hsub, hp.imp (fun hlt => ?_) (And.imp_left ?_)⟩
    · rwa [← (h.keeps.2 (ProgKeeps.refl w.p0)).callCount_eq] at hlt
    · exact h.keeps.1

lemma minimizeCall_leads {fuel : ℕ} (hgd : Good w.p0) (hi : env.call < w.p0.calls.length)
    (hrun : minimizeCall env fuel w = some w') : Leads env.pred w w' := by
  induction fuel generalizing w with
  | zero => cases hrun
  | succ fuel ih =>
    obtain ⟨b, w1, hst, hld, -⟩ := firstWalk env hgd hi
    rw [hst] at hrun
    cases b with
    | false =>
      cases hrun
      exact hld
    | true => exact hld.trans (ih hld.good (hld.trims.length_eq ▸ hi) hrun)

/-- **The walks over a call end.** -/
theorem minimizeCall_total (env : Env) (hgd : Good w.p0) (hi : env.call < w.p0.calls.length) :
    ∃ N w', ∀ fuel, N ≤ fuel → minimizeCall env fuel w = some w' := by
  -- the number of arguments goes down, or it stays and the number of unmarked paths goes down
  induction hn : callCount w.p0 env.call using Nat.strong_induction_on generalizing w with
  | _ n ihn =>
    induction hm : (untried env w).card using Nat.strong_induction_on generalizing w with
    | _ m ihm =>
      obtain ⟨b, w₁, hst, hld, htr⟩ := firstWalk env hgd hi
      cases b with
      | false =>
        refine ⟨1, w₁, fun fuel hfl => ?_⟩
        obtain ⟨fuel, rfl⟩ := Nat.exists_eq_add_of_le' hfl
        exact hst fuel
      | true =>
        have hi₁ : env.call < w₁.p0.calls.length := hld.trims.length_eq ▸ hi
        have hrs : ∃ N w', ∀ fuel, N ≤ fuel → minimizeCall env fuel w₁ = some w' := by
          rcases (htr rfl).progress with hlt | ⟨hk, v, hv, hnot, hin⟩
          · exact ihn _ (hn ▸ hlt) hld.good hi₁ rfl
          · refine ihm _ (hm ▸ ?_) hld.good hi₁ ((hk.callCount_eq env.call).trans hn) rfl
            exact untried_card_lt (hk.callVisits_eq env.call) (htr rfl).tried_subset hv hnot hin
        obtain ⟨N, w', hN⟩ := hrs
        refine ⟨N + 1, w', fun fuel hfl => ?_⟩
        obtain ⟨fuel, rfl⟩ := Nat.exists_eq_add_of_le' (Nat.le_of_add_left_le hfl)
        rw [hst fuel]
        exact hN fuel (by omega)

/-! ### All calls -/

lemma minimizeCalls_leads {fuel : ℕ} (hgd : Good w.p0) (hn : i + n ≤ w.p0.calls.length)
    (hrun : minimizeCalls env fuel n i w = some w') : Leads env.pred w w' := by
  induction n generalizing i w with
  | zero =>
    cases hrun
    exact ⟨hgd, .refl _, .refl _, .refl _ _⟩
  | succ n ih =>
    obtain ⟨w1, hw1, hrun⟩ := Option.bind_eq_some_iff.1 hrun
    obtain ⟨hg, ht, hc, hlog⟩ := minimizeCall_leads (w := { w with triedPaths := [] }) hgd
      (show i < w.p0.calls.length by omega) hw1
    have hlen : w.p0.calls.length = w1.p0.calls.length := ht.length_eq
    exact Leads.trans ⟨hg, ht, hc, hlog⟩ (ih hg (by omega) hrun)

/-- **The loop over the calls ends.** -/
theorem minimizeCalls_total (env : Env) (hgd : Good w.p0) (hn : i + n ≤ w.p0.calls.length) :
    ∃ N w', ∀ fuel, N ≤ fuel → minimizeCalls env fuel n i w = some w' := by
  induction n generalizing i w with
  | zero => exact ⟨0, w, fun _ _ => rfl⟩
  | succ n ih =>
    have hi : i < w.p0.calls.length := by omega
    obtain ⟨N, w₁, hw₁⟩ := minimizeCall_total { env with call := i }
      (w := { w with triedPaths := [] }) hgd hi
    have h₁ := minimizeCall_leads (w := { w with triedPaths := [] }) hgd hi (hw₁ N le_rfl)
    have hlen : w.p0.calls.length = w₁.p0.calls.length := h₁.trims.length_eq
    obtain ⟨N', w', hw'⟩ := ih (i := i + 1) h₁.good (by omega)
    refine ⟨max N N', w', fun fuel hfl => ?_⟩
    rw [minimizeCalls, hw₁ fuel (by omega), Option.bind_some, hw' fuel (by omega)]

end Razzer.Minimize
