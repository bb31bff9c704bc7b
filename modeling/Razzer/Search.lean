import Mathlib

/-!
Binary search over a range of indices, as the standard library of the source language has
it: the smallest index at which a monotone test holds.
-/

namespace Razzer.Search

def searchLoop (f : ℕ → Bool) : ℕ → ℕ → ℕ → ℕ
  | 0, i, _ => i
  | fuel + 1, i, j =>
    if i < j then
      let h := (i + j) / 2
      if f h then searchLoop f fuel i h else searchLoop f fuel (h + 1) j
    else i

def search (n : ℕ) (f : ℕ → Bool) : ℕ := searchLoop f n 0 n

/-- The test fails below `i` and holds from `j` on. -/
structure Splits (f : ℕ → Bool) (n i j : ℕ) : Prop where
  le : i ≤ j
  bound : j ≤ n
  below : ∀ k < i, f k = false
  above : ∀ k, j ≤ k → k < n → f k = true

variable {f : ℕ → Bool} {n : ℕ}

variable {fuel i j : ℕ}

lemma searchLoop_splits (hf : ∀ a b, a ≤ b → b < n → f a → f b) (h : Splits f n i j)
    (hfl : j ≤ i + fuel) : Splits f n (searchLoop f fuel i j) (searchLoop f fuel i j) := by
  induction fuel generalizing i j with
  | zero =>
    obtain rfl : i = j := le_antisymm h.le hfl
    exact h
  | succ fuel ih =>
    rw [searchLoop]
    by_cases hij : i < j
    · have hmid : i ≤ (i + j) / 2 ∧ (i + j) / 2 < j := by omega
      rw [if_pos hij]
      cases hts : f ((i + j) / 2) with
      | true =>
        simp only [hts, if_true]
        refine ih ⟨hmid.1, hmid.2.le.trans h.bound, h.below, fun k hk hkn => ?_⟩ (by omega)
        exact hf _ k hk hkn hts
      | false =>
        simp only [hts, Bool.false_eq_true, if_false]
        refine ih ⟨hmid.2, h.bound, fun k hk => ?_, h.above⟩ (by omega)
        by_contra hne
        rw [Bool.not_eq_false] at hne
        have := hf k _ (Nat.lt_succ_iff.1 hk) (hmid.2.trans_le h.bound) hne
        simp [this] at hts
    · rw [if_neg hij]
      obtain rfl : i = j := by have := h.le; omega
      exact h

/-- **The search finds the boundary.** -/
theorem search_splits (hf : ∀ a b, a ≤ b → b < n → f a → f b) :
    Splits f n (search n f) (search n f) := by
  refine searchLoop_splits hf ⟨n.zero_le, le_rfl, by simp, fun k hk hkn => ?_⟩ (by omega)
  omega

end Razzer.Search
