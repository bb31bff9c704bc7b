import Mathlib

/-!
A set that is replicated by deltas.

The owner of a set keeps, for a replica, what it has added and what it has removed since it
last spoke to the replica. The replica adds what was added and then removes what was
removed. An element that was removed and added again is in both parts of the delta.
-/

namespace Razzer.DeltaSync

open Finset

variable {α : Type*} [DecidableEq α]

structure Delta (α : Type*) where
  adds : Finset α
  dels : Finset α

def Delta.apply (d : Delta α) (base : Finset α) : Finset α := (base ∪ d.adds) \ d.dels

/-- The delta after the set has changed from `S` to `T`. -/
def Delta.change (d : Delta α) (S T : Finset α) : Delta α :=
  ⟨d.adds ∪ (T \ S), d.dels ∪ (S \ T)⟩

/-- All additions that are gone again were removed. -/
def Settled (S : Finset α) (d : Delta α) : Prop := d.adds \ S ⊆ d.dels

/-- The delta leads from `base` to `S`, up to elements that were removed and added again. -/
structure Tracks (S base : Finset α) (d : Delta α) : Prop where
  settled : Settled S d
  reach : S ⊆ base ∪ d.adds
  drop : base \ S ⊆ d.dels

variable {S base : Finset α} {d : Delta α}

lemma settled_empty : Settled S ⟨∅, ∅⟩ := by simp [Settled]

lemma tracks_empty : Tracks S S ⟨∅, ∅⟩ := ⟨settled_empty, by simp, by simp⟩

lemma Settled.tracks (h : Settled S d) : Tracks S S d :=
  ⟨h, subset_union_left, by simp⟩

lemma Settled.change (h : Settled S d) (T : Finset α) : Settled T (d.change S T) := by
  intro x hx
  have h := @h x
  simp only [Delta.change, mem_sdiff, mem_union] at hx h ⊢
  tauto

lemma Tracks.change (h : Tracks S base d) (T : Finset α) : Tracks T base (d.change S T) := by
  refine ⟨h.settled.change T, fun x hx => ?_, fun x hx => ?_⟩
  · have h := @h.reach x
    simp only [Delta.change, mem_sdiff, mem_union] at hx h ⊢
    tauto
  · have h := @h.drop x
    simp only [Delta.change, mem_sdiff, mem_union] at hx h ⊢
    tauto

/-- **When a delta can be applied.** It gives the set it leads to exactly when it removes
nothing that is in it. -/
theorem Tracks.apply_eq_iff (h : Tracks S base d) : d.apply base = S ↔ Disjoint d.dels S := by
  rw [Delta.apply, disjoint_left]
  constructor
  · intro he x hx hS
    rw [← he, mem_sdiff] at hS
    exact hS.2 hx
  · intro hd
    ext x
    rw [mem_sdiff]
    refine ⟨fun hx => ?_, fun hx => ⟨h.reach hx, fun hdel => hd hdel hx⟩⟩
    by_contra hS
    rcases Finset.mem_union.1 hx.1 with hb | ha
    · exact hx.2 (h.drop (Finset.mem_sdiff.2 ⟨hb, hS⟩))
    · exact hx.2 (h.settled (Finset.mem_sdiff.2 ⟨ha, hS⟩))

end Razzer.DeltaSync
