import Razzer.Runs

/-!
A heap of cells that point to each other, and code that knows some of its addresses.

Cells are never taken back: a new cell is put behind all others, so the cells that were there at
some time are the first ones of the heap at any later time. Code comes to an address only by
following a pointer of a cell it knows or by making a cell, and it writes only cells it knows. What
it cannot come to stays as it is.
-/

namespace Razzer.Heaps

open Runs List

variable {O : Type*} (refs : O → Finset ℕ)

/-- No cell from `n` on points to one before `n`. -/
def ClosedFrom (n : ℕ) (heap : List O) : Prop :=
  ∀ a o, n ≤ a → heap[a]? = some o → ∀ b ∈ refs o, n ≤ b

inductive Reaches (heap : List O) (root : ℕ) : ℕ → Prop
  | root : Reaches heap root root
  | follow {a b : ℕ} {o : O} : Reaches heap root a → heap[a]? = some o → b ∈ refs o →
      Reaches heap root b

variable {refs}

variable {a n root : ℕ} {heap l l' : List O}

lemma ClosedFrom.reaches (h : ClosedFrom refs n heap) (hrt : n ≤ root)
    (ha : Reaches refs heap root a) : n ≤ a := by
  induction ha with
  | root => exact hrt
  | follow _ ho hb ih => exact h _ _ ih ho _ hb

lemma getElem?_extend (h : l <+: l') {o : O} (ha : l[a]? = some o) :
    l'[a]? = some o := by
  obtain ⟨t, rfl⟩ := h
  rw [getElem?_append_left (List.getElem?_eq_some_iff.1 ha).1, ha]

lemma prefix_set (h : l <+: l') (ha : l.length ≤ a) (o : O) : l <+: l'.set a o := by
  obtain ⟨t, rfl⟩ := h
  rw [set_append_right _ _ ha]
  exact prefix_append _ _

/-! ### Code that knows some addresses -/

/-- A pointer of a cell is followed, cells are made, or a cell is written. -/
inductive Action (O : Type*)
  | load (a b : ℕ)
  | new (os : List O)
  | store (a : ℕ) (o : O)

structure World (O : Type*) where
  heap : List O
  known : Finset ℕ

variable (refs) in
/-- Cells that are made or written point to known cells. New cells may point to each other. -/
def step (w : World O) : Action O → Option (World O)
  | .load a b =>
    if a ∈ w.known ∧ (w.heap[a]?).any (fun o => decide (b ∈ refs o)) = true then
      some { w with known := insert b w.known }
    else none
  | .new os =>
    let made := Finset.Ico w.heap.length (w.heap.length + os.length)
    if ∀ o ∈ os, ∀ b ∈ refs o, b ∈ w.known ∪ made then
      some ⟨w.heap ++ os, w.known ∪ made⟩
    else none
  | .store a o =>
    if a ∈ w.known ∧ ∀ b ∈ refs o, b ∈ w.known then some { w with heap := w.heap.set a o }
    else none

variable (refs) in
/-- The cells of `old` are as they were, and everything that is known came after them. -/
structure Apart (old : List O) (w : World O) : Prop where
  kept : old <+: w.heap
  closed : ClosedFrom refs old.length w.heap
  known : ∀ a ∈ w.known, old.length ≤ a

lemma Apart.step {old : List O} {w w' : World O} {e : Action O} (h : Apart refs old w)
    (hst : step refs w e = some w') : Apart refs old w' := by
  cases e with
  | load a b =>
    rw [Heaps.step] at hst
    split_ifs at hst with hkn
    cases hst
    obtain ⟨o, ho, hb⟩ : ∃ o, w.heap[a]? = some o ∧ b ∈ refs o := by
      simpa [Option.any_eq_true] using hkn.2
    refine ⟨h.kept, h.closed, fun c hc => ?_⟩
    rcases Finset.mem_insert.1 hc with rfl | hc
    · exact h.closed a o (h.known a hkn.1) ho _ hb
    · exact h.known c hc
  | new os =>
    rw [Heaps.step] at hst
    split_ifs at hst with hrf
    cases hst
    have hlen := h.kept.length_le
    have hkn : ∀ c ∈ w.known ∪ Finset.Ico w.heap.length (w.heap.length + os.length),
        old.length ≤ c := by
      intro c hc
      rcases Finset.mem_union.1 hc with hc | hc
      · exact h.known c hc
      · have := (Finset.mem_Ico.1 hc).1
        omega
    refine ⟨h.kept.trans (prefix_append _ _), fun a o ha ho b hb => ?_, hkn⟩
    by_cases hlt : a < w.heap.length
    · rw [getElem?_append_left hlt] at ho
      exact h.closed a o ha ho b hb
    · rw [getElem?_append_right (by omega)] at ho
      exact hkn b (hrf o (mem_of_getElem? ho) b hb)
  | store a o =>
    rw [Heaps.step] at hst
    split_ifs at hst with hkn
    cases hst
    refine ⟨prefix_set h.kept (h.known a hkn.1) o, fun c o' hc ho' b hb => ?_, h.known⟩
    simp only [getElem?_set] at ho'
    split_ifs at ho' with hac hlt
    · cases ho'
      exact h.known b (hkn.2 b hb)
    · exact h.closed c o' hc ho' b hb

/-- **What cannot be come to stays as it is**, whatever is done. -/
theorem Apart.run {old : List O} {w w' : World O} {es : List (Action O)}
    (h : Apart refs old w) (hrun : run (Heaps.step refs) w es = some w') :
    Apart refs old w' := by
  refine run_inv_hist (I := fun _ w => Apart refs old w) h ?_ hrun
  intro u m e t _ hm he
  exact hm.step he

end Razzer.Heaps
