import Mathlib

/-!
A region of memory that is filled from its front.

Cells are written one after the other at a cursor, and a cell that has been written may be
overwritten later, at a place that was noted when it was written. What is behind the cursor is
whatever was there before. Writing behind the end is an error.
-/

namespace Razzer.Regions

open List

variable {α : Type*}

structure Region (α : Type*) where
  cells : List α
  pos : ℕ

namespace Region

def put (r : Region α) (v : α) : Option (ℕ × Region α) :=
  if r.pos < r.cells.length then some (r.pos, ⟨r.cells.set r.pos v, r.pos + 1⟩) else none

def putAll (r : Region α) : List α → Option (Region α)
  | [] => some r
  | v :: vs => (r.put v).bind fun r => r.2.putAll vs

def fill (r : Region α) (place : ℕ) (v : α) : Region α := { r with cells := r.cells.set place v }

def Has (r : Region α) (size : ℕ) (vs : List α) : Prop :=
  ∃ rest, r.cells = vs ++ rest ∧ r.pos = vs.length ∧ r.cells.length = size

variable {r : Region α} {size : ℕ} {vs ws : List α} {v : α} {place : ℕ}

lemma has_nil (cells : List α) : Has ⟨cells, 0⟩ cells.length [] := ⟨cells, rfl, rfl, rfl⟩

lemma Has.put (h : r.Has size vs) (hrm : vs.length < size) (v : α) :
    ∃ r', r.put v = some (vs.length, r') ∧ r'.Has size (vs ++ [v]) := by
  obtain ⟨rest, hcl, hpos, hsz⟩ := h
  obtain ⟨x, rest, rfl⟩ : ∃ x xs, rest = x :: xs := by
    refine exists_cons_of_ne_nil ?_
    rintro rfl
    rw [hcl, append_nil] at hsz
    omega
  refine ⟨⟨r.cells.set r.pos v, r.pos + 1⟩, ?_, rest, ?_, by simp [hpos], ?_⟩
  · rw [Region.put, if_pos (by rwa [hpos, hsz]), hpos]
  · rw [hcl, hpos, set_append_right _ _ le_rfl, Nat.sub_self, set_cons_zero,
      append_assoc, singleton_append]
  · rw [length_set, hsz]

lemma Has.putAll (h : r.Has size vs) (hrm : (vs ++ ws).length ≤ size) :
    ∃ r', r.putAll ws = some r' ∧ r'.Has size (vs ++ ws) := by
  induction ws generalizing r vs with
  | nil => exact ⟨r, rfl, by rwa [append_nil]⟩
  | cons w ws ih =>
    have hlt : vs.length < size := by
      simp only [length_append, length_cons] at hrm
      omega
    obtain ⟨r₁, hput, h₁⟩ := h.put hlt w
    rw [← singleton_append, ← append_assoc] at hrm ⊢
    obtain ⟨r', hr', h'⟩ := ih h₁ hrm
    exact ⟨r', by rw [singleton_append, Region.putAll, hput]; exact hr', h'⟩

lemma Has.fill (h : r.Has size vs) (hpl : place < vs.length) :
    (r.fill place v).Has size (vs.set place v) := by
  obtain ⟨rest, hcl, hpos, hsz⟩ := h
  refine ⟨rest, ?_, by rw [length_set]; exact hpos, by rw [← hsz]; exact length_set⟩
  rw [Region.fill, hcl, set_append_left _ _ hpl]

end Region

end Razzer.Regions
