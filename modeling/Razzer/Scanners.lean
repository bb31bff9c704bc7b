import Mathlib

/-!
Scanners: loops over a text that read some of it in each turn until they stop.

A turn leaves a state and the rest of the text, or stops with a result. If no turn leaves as much
text as there was, the length of the text is enough fuel, and a run is described turn by turn.
-/

namespace Razzer.Scanners

variable {σ α ρ : Type*}

inductive Turn (σ α ρ : Type*)
  | next (s : σ) (rest : List α)
  | stop (r : ρ)

/-- The loop, with `out` for a lack of fuel. -/
def loop (step : σ → List α → Turn σ α ρ) (out : ρ) : ℕ → σ → List α → ρ
  | 0, _, _ => out
  | fuel + 1, s, cs =>
    match step s cs with
    | .next s' rest => loop step out fuel s' rest
    | .stop r => r

def eval (step : σ → List α → Turn σ α ρ) (out : ρ) (s : σ) (cs : List α) : ρ :=
  loop step out (cs.length + 1) s cs

def Consumes (step : σ → List α → Turn σ α ρ) : Prop :=
  ∀ s cs s' rest, step s cs = .next s' rest → rest.length < cs.length

variable {step : σ → List α → Turn σ α ρ} {out : ρ}

variable {cs rest : List α} {fuel : ℕ} {s s' : σ} {r : ρ}

lemma loop_eq_eval (h : Consumes step) (hfl : cs.length < fuel) :
    loop step out fuel s cs = eval step out s cs := by
  induction fuel using Nat.strong_induction_on generalizing s cs with
  | _ fuel ih =>
    obtain ⟨fuel, rfl⟩ : ∃ n, fuel = n + 1 := ⟨fuel - 1, by omega⟩
    rw [loop, eval, loop]
    cases hs : step s cs with
    | stop r => rfl
    | next s' rest =>
      have hlt := h s cs s' rest hs
      -- both runs have enough fuel for the rest
      exact (ih fuel (by omega) (by omega)).trans (ih cs.length (by omega) hlt).symm

lemma eval_next (h : Consumes step) (hs : step s cs = .next s' rest) :
    eval step out s cs = eval step out s' rest := by
  rw [eval, loop, hs]
  exact loop_eq_eval h (h s cs s' rest hs)

lemma eval_stop (hs : step s cs = .stop r) : eval step out s cs = r := by
  rw [eval, loop, hs]

end Razzer.Scanners
