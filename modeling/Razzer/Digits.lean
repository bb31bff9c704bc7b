import Mathlib

/-!
The digits of a number, and the number of digits that were read.
-/

namespace Razzer.Digits

open Nat

/-- Induction along the digits of a number, the last one first. -/
theorem toDigits_rec {b : ℕ} (hb : 1 < b) {P : ℕ → List Char → Prop}
    (small : ∀ d < b, P d [digitChar d])
    (snoc : ∀ n d ds, d < b → P n ds → P (n * b + d) (ds ++ [digitChar d])) (n : ℕ) :
    P n (toDigits b n) := by
  induction n using Nat.strong_induction_on with
  | _ n ih =>
    by_cases hn : n < b
    · rw [toDigits_of_lt_base hn]
      exact small n hn
    · have hlt : n / b < n := div_lt_self (by omega) hb
      have h := snoc (n / b) (n % b) _ (mod_lt _ (by omega)) (ih _ hlt)
      rw [Nat.toDigits_of_base_le hb (Nat.le_of_not_lt hn)]
      rwa [mul_comm, div_add_mod] at h

lemma forall_mem_toDigits {b : ℕ} (hb : 1 < b) {p : Char → Prop}
    (h : ∀ d < b, p (digitChar d)) (n : ℕ) : ∀ c ∈ toDigits b n, p c := by
  refine toDigits_rec hb (P := fun _ ds => ∀ c ∈ ds, p c) (fun d hd => ?_)
    (fun n d ds hd ih => ?_) n
  · simpa using h d hd
  · intro c hc
    rcases List.mem_append.1 hc with hc | hc
    · exact ih c hc
    · rw [List.mem_singleton.1 hc]
      exact h d hd

def charVal (c : Char) : ℕ :=
  if '0' ≤ c ∧ c ≤ '9' then c.toNat - '0'.toNat
  else if 'a' ≤ c ∧ c ≤ 'f' then c.toNat - 'a'.toNat + 10
  else c.toNat - 'A'.toNat + 10

def ofDigits (b : ℕ) (ds : List Char) : ℕ := ds.foldl (fun n c => n * b + charVal c) 0

lemma charVal_digitChar {d : ℕ} (h : d < 16) : charVal (digitChar d) = d := by
  have hall : ∀ d : Fin 16, charVal (digitChar d) = d.1 := by decide
  exact hall ⟨d, h⟩

lemma ofDigits_toDigits {b : ℕ} (hb : 1 < b) (hb' : b ≤ 16) (n : ℕ) :
    ofDigits b (toDigits b n) = n := by
  refine toDigits_rec hb (P := fun n ds => ofDigits b ds = n) (fun d hd => ?_)
    (fun n d ds hd ih => ?_) n
  · simp [ofDigits, charVal_digitChar (hd.trans_le hb')]
  · have hsn : ofDigits b (ds ++ [digitChar d]) = ofDigits b ds * b + charVal (digitChar d) := by
      simp [ofDigits, List.foldl_append]
    rw [hsn, ih, charVal_digitChar (hd.trans_le hb')]

/-- Digits of one base that are read in a larger one are read as a larger number. -/
lemma lt_ofDigits_toDigits {b b' : ℕ} (hb : 1 < b) (hbb : b < b') (hb' : b' ≤ 16) (n : ℕ) :
    n ≤ ofDigits b' (toDigits b n) ∧ (b ≤ n → n < ofDigits b' (toDigits b n)) := by
  refine toDigits_rec hb (P := fun n ds => n ≤ ofDigits b' ds ∧ (b ≤ n → n < ofDigits b' ds))
    (fun d hd => ?_) (fun n d ds hd ih => ?_) n
  · have hval : ofDigits b' [digitChar d] = d := by
      simp [ofDigits, charVal_digitChar (show d < 16 by omega)]
    rw [hval]
    exact ⟨le_rfl, fun h => absurd h (by omega)⟩
  · have hsn : ofDigits b' (ds ++ [digitChar d]) = ofDigits b' ds * b' + d := by
      simp [ofDigits, List.foldl_append, charVal_digitChar (show d < 16 by omega)]
    have hle : n * b ≤ ofDigits b' ds * b' := Nat.mul_le_mul ih.1 hbb.le
    rw [hsn]
    refine ⟨by omega, fun h => ?_⟩
    have hpos : 0 < n := by
      by_contra hz
      rw [Nat.eq_zero_of_not_pos hz, zero_mul] at h
      omega
    have hlt : n * b < ofDigits b' ds * b' :=
      (Nat.mul_lt_mul_of_pos_left hbb hpos).trans_le (Nat.mul_le_mul_right b' ih.1)
    omega

lemma ofDigits_toDigits_eq_iff {b b' : ℕ} (hb : 1 < b) (hbb : b < b') (hb' : b' ≤ 16) (n : ℕ) :
    ofDigits b' (toDigits b n) = n ↔ n < b := by
  constructor
  · intro h
    by_contra hn
    exact absurd h (((lt_ofDigits_toDigits hb hbb hb' n).2 (Nat.le_of_not_lt hn)).ne')
  · intro h
    rw [toDigits_of_lt_base h]
    simp [ofDigits, charVal_digitChar (show n < 16 by omega)]

end Razzer.Digits
