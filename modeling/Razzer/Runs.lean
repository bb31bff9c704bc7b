import Mathlib

/-!
Runs of a guarded step function.

A system is a function `step` from a state and an event to the next state, undefined when
the event is not enabled. A run is a list of events, and what is proved about one step is
carried along a run here, once: with a condition on the single steps, and with the events
taken so far at hand.
-/

namespace Razzer.Runs

open List Option

variable {σ ε : Type*} (step : σ → ε → Option σ)

/-- The state a list of events leads to. -/
def run : σ → List ε → Option σ
  | s, [] => some s
  | s, e :: es => (step s e).bind fun s' => run s' es

/-- Every event of the list meets `C` in the state it is taken from. -/
def Meets (C : σ → ε → Prop) : σ → List ε → Prop
  | _, [] => True
  | s, e :: es => C s e ∧ ∀ s', step s e = some s' → Meets C s' es

/-- Some event of the list was taken from a state that is related to it by `P`. -/
def Took (P : σ → ε → Prop) (s : σ) (es : List ε) : Prop :=
  ∃ u e m, u ++ [e] <+: es ∧ run step s u = some m ∧ P m e

@[simp] lemma run_nil (s : σ) : run step s [] = some s := rfl

@[simp] lemma run_cons (s : σ) (e : ε) (es : List ε) :
    run step s (e :: es) = (step s e).bind fun s' => run step s' es := rfl

lemma run_append (s : σ) (u v : List ε) :
    run step s (u ++ v) = (run step s u).bind fun s' => run step s' v := by
  induction u generalizing s with
  | nil => simp
  | cons e u ih =>
    rw [cons_append, run_cons, run_cons, bind_assoc]
    congr 1
    funext s'
    exact ih s'

variable {step} {C : σ → ε → Prop} {e : ε} {es u : List ε} {s t m : σ} {I : σ → Prop}

variable {s' : σ} {P : σ → ε → Prop}

lemma meets_cons_of (h : step s e = some s') :
    Meets step C s (e :: es) ↔ C s e ∧ Meets step C s' es := by
  simp [Meets, h]

lemma meets_cons_none (h : step s e = none) : Meets step C s (e :: es) ↔ C s e := by
  simp [Meets, h]

instance decidableMeets {C : σ → ε → Prop} [∀ s, DecidablePred (C s)] :
    ∀ (s : σ) (es : List ε), Decidable (Meets step C s es)
  | _, [] => isTrue trivial
  | s, e :: es =>
    match h : step s e with
    | none => decidable_of_iff _ (meets_cons_none h).symm
    | some s' =>
      have : Decidable (Meets step C s' es) := decidableMeets s' es
      decidable_of_iff _ (meets_cons_of h).symm

lemma run_snoc (h : run step s (u ++ [e]) = some t) :
    ∃ m, run step s u = some m ∧ step m e = some t := by
  rw [run_append, bind_eq_some_iff] at h
  obtain ⟨m, hm, h⟩ := h
  exact ⟨m, hm, by simpa using h⟩

lemma meets_snoc (hm : run step s u = some m) :
    Meets step C s (u ++ [e]) ↔ Meets step C s u ∧ C m e := by
  induction u generalizing s with
  | nil =>
    obtain rfl : s = m := by simpa using hm
    exact ⟨fun h => ⟨trivial, h.1⟩, fun h => ⟨h.2, fun _ _ => trivial⟩⟩
  | cons a u ih =>
    rw [run_cons, bind_eq_some_iff] at hm
    obtain ⟨s', hs', hm⟩ := hm
    have hun : ∀ t, step s a = some t → s' = t := fun t ht => by simpa [hs'] using ht
    constructor
    · rintro ⟨ha, hrs⟩
      refine ⟨⟨ha, fun t ht => ?_⟩, ((ih hm).1 (hrs s' hs')).2⟩
      obtain rfl := hun t ht
      exact ((ih hm).1 (hrs s' hs')).1
    · rintro ⟨⟨ha, hrs⟩, hC⟩
      refine ⟨ha, fun t ht => ?_⟩
      obtain rfl := hun t ht
      exact (ih hm).2 ⟨hrs s' hs', hC⟩

lemma Took.mono (h : Took step P s es) (fs : List ε) :
    Took step P s (es ++ fs) := by
  obtain ⟨u, e, m, hu, hm, hP⟩ := h
  exact ⟨u, e, m, hu.trans (prefix_append es fs), hm, hP⟩

lemma took_last (hm : run step s u = some m) (hP : P m e) : Took step P s (u ++ [e]) :=
  ⟨u, e, m, prefix_rfl, hm, hP⟩

lemma took_nil : ¬ Took step P s [] := by
  rintro ⟨u, e, -, hu, -⟩
  exact absurd (List.prefix_nil.1 hu) (by simp)

lemma took_snoc (hm : run step s u = some m) (h : Took step P s (u ++ [e])) :
    Took step P s u ∨ P m e := by
  obtain ⟨v, e', m', hv, hm', hP⟩ := h
  rcases List.prefix_concat_iff.1 hv with heq | hpre
  · obtain ⟨rfl, he⟩ := append_inj' heq rfl
    cases he
    cases hm.symm.trans hm'
    exact .inr hP
  · exact .inl ⟨v, e', m', hpre, hm', hP⟩

/-- **The invariant rule.** What holds at the start and is kept by every step that meets
the condition holds at the end of every run whose steps meet it. -/
theorem run_inv (hst : ∀ s e s', I s → C s e → step s e = some s' → I s') (h0 : I s)
    (hC : Meets step C s es) (hrun : run step s es = some t) : I t := by
  induction es generalizing s with
  | nil =>
    obtain rfl : s = t := by simpa using hrun
    exact h0
  | cons e es ih =>
    rw [run_cons, bind_eq_some_iff] at hrun
    obtain ⟨s', hs', hrun⟩ := hrun
    exact ih (hst s e s' h0 hC.1 hs') (hC.2 s' hs') hrun

/-- **From one condition on runs to another.** The first one keeps an invariant, and under the
invariant it implies the second one. -/
theorem Meets.of_inv (himp : ∀ s e, I s → C s e → P s e)
    (hst : ∀ s e s', I s → C s e → step s e = some s' → I s') (h0 : I s) (h : Meets step C s es) :
    Meets step P s es := by
  induction es generalizing s with
  | nil => trivial
  | cons e es ih =>
    exact ⟨himp s e h0 h.1, fun s' hs' => ih (hst s e s' h0 h.1 hs') (h.2 s' hs')⟩

/-- **Two conditions on runs.** If they are the same in the states that satisfy an invariant,
and the second keeps the invariant, they are the same on runs. -/
theorem meets_iff_of_inv (hiff : ∀ s e, I s → (P s e ↔ C s e))
    (hst : ∀ s e s', I s → C s e → step s e = some s' → I s') (h0 : I s) (es : List ε) :
    Meets step P s es ↔ Meets step C s es := by
  induction es generalizing s with
  | nil => exact Iff.rfl
  | cons e es ih =>
    simp only [Meets, hiff s e h0]
    refine and_congr_right fun hC => forall₂_congr fun s' hs' => ?_
    exact ih (hst s e s' h0 hC hs')

/-- **The invariant rule, with the events so far.** -/
theorem run_inv_hist {I : List ε → σ → Prop} (h0 : I [] s)
    (hst : ∀ u m e t, run step s u = some m → I u m → step m e = some t → I (u ++ [e]) t)
    (hrun : run step s es = some t) : I es t := by
  induction es using reverseRecOn generalizing t with
  | nil =>
    obtain rfl : s = t := by simpa using hrun
    exact h0
  | append_singleton u e ih =>
    obtain ⟨m, hm, he⟩ := run_snoc hrun
    exact hst u m e t hm (ih hm) he

end Razzer.Runs
