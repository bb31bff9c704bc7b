import Mathlib

/-!
Little-endian numbers, and readers of bytes.

A reader has a state besides the bytes that are left, and stops at the first error. How much it
takes at least is what bounds a loop of readers.
-/

namespace Razzer.Words

open List

/-! ### Little-endian numbers -/

def leBytes : ℕ → ℕ → List UInt8
  | 0, _ => []
  | k + 1, n => UInt8.ofNat n :: leBytes k (n / 256)

def ofLe : List UInt8 → ℕ
  | [] => 0
  | b :: bs => b.toNat + 256 * ofLe bs

lemma length_leBytes (k n : ℕ) : (leBytes k n).length = k := by
  induction k generalizing n with
  | zero => rfl
  | succ k ih => rw [leBytes, length_cons, ih]

lemma ofLe_leBytes (k n : ℕ) : ofLe (leBytes k n) = n % 256 ^ k := by
  induction k generalizing n with
  | zero => simp [leBytes, ofLe, Nat.mod_one]
  | succ k ih =>
    have hby : (UInt8.ofNat n).toNat = n % 256 := by simp
    rw [leBytes, ofLe, ih, hby, pow_succ', Nat.mod_mul]

/-! ### Reading -/

def Reader (σ α : Type) := σ → List UInt8 → Except String (α × σ × List UInt8)

namespace Reader

variable {σ α β : Type}

instance : Monad (Reader σ) where
  pure x := fun s bs => .ok (x, s, bs)
  bind f k := fun s bs =>
    match f s bs with
    | .error e => .error e
    | .ok (x, s, bs) => k x s bs

def fail (e : String) : Reader σ α := fun _ _ => .error e

variable {f g : Reader σ α} {k : ℕ}

def Takes (k : ℕ) (f : Reader σ α) : Prop :=
  ∀ s bs x s' cs, f s bs = .ok (x, s', cs) → cs.length + k ≤ bs.length

lemma takes_pure (x : α) : Takes 0 (pure x : Reader σ α) := by
  intro s bs y s' cs h
  cases h
  exact le_rfl

lemma takes_fail (k : ℕ) (e : String) : Takes k (fail e : Reader σ α) :=
  fun _ _ _ _ _ h => by cases h

lemma Takes.mono {j : ℕ} (h : Takes k f) (hjk : j ≤ k) : Takes j f :=
  fun s bs x s' cs heq => (Nat.add_le_add_left hjk _).trans (h s bs x s' cs heq)

lemma Takes.bind {j : ℕ} {g : α → Reader σ β} (hf : Takes j f) (hg : ∀ x, Takes k (g x)) :
    Takes (j + k) (f >>= g) := by
  intro s bs y s'' ds h
  simp only [Bind.bind] at h
  split at h
  · cases h
  · next x s' cs heq =>
    have h₁ := hf s bs x s' cs heq
    have h₂ := hg x s' cs y s'' ds h
    omega

lemma Takes.ite {c : Prop} [Decidable c] (hf : Takes k f) (hg : Takes k g) :
    Takes k (if c then f else g) := by
  split_ifs
  · exact hf
  · exact hg

end Reader

end Razzer.Words
