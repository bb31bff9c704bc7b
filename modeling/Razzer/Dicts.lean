import Mathlib

/-!
Dictionaries in the order in which their keys were put.

A key that is put again keeps its place and gets the new value, so of several values the last one
is left. If no key is put with two values, the dictionary has what was put, and its sorted items
do not depend on the order.
-/

namespace Razzer.Dicts

open List
open Prod (fst)

section Fill

variable {K V : Type*} [DecidableEq K]

def put (d : List (K × V)) (k : K) (v : V) : List (K × V) :=
  if k ∈ d.map Prod.fst then d.map fun p => if p.1 = k then (k, v) else p else d ++ [(k, v)]

def fill (ps : List (K × V)) : List (K × V) := ps.foldl (fun d p => put d p.1 p.2) []

def Functional (ps : List (K × V)) : Prop := ∀ k v v', (k, v) ∈ ps → (k, v') ∈ ps → v = v'

lemma keys_put (d : List (K × V)) (k : K) (v : V) :
    (put d k v).map fst = if k ∈ d.map fst then d.map fst
      else d.map fst ++ [k] := by
  rw [put]
  split_ifs with hk
  · rw [map_map]
    refine map_congr_left fun p _ => ?_
    rw [Function.comp]
    split_ifs with hp
    · exact hp.symm
    · rfl
  · rw [map_append, map_singleton]

lemma fill_snoc (ps : List (K × V)) (p : K × V) : fill (ps ++ [p]) = put (fill ps) p.1 p.2 := by
  rw [fill, foldl_append]
  rfl

lemma nodup_keys_fill (ps : List (K × V)) : ((fill ps).map fst).Nodup := by
  induction ps using reverseRecOn with
  | nil => exact nodup_nil
  | append_singleton ps p ih =>
    rw [fill_snoc, keys_put]
    split_ifs with hk
    · exact ih
    · exact nodup_append.2 ⟨ih, nodup_singleton _, by
        intro a ha b hb heq
        rw [mem_singleton.1 hb] at heq
        exact hk (heq ▸ ha)⟩

variable {ps : List (K × V)}

lemma mem_keys_fill {k : K} :
    k ∈ (fill ps).map fst ↔ k ∈ ps.map fst := by
  induction ps using reverseRecOn generalizing k with
  | nil => rfl
  | append_singleton ps p ih =>
    rw [fill_snoc, keys_put, map_append, mem_append, map_singleton, mem_singleton]
    split_ifs with hk
    · rw [ih] at hk ⊢
      exact ⟨.inl, fun h => h.elim id fun heq => heq ▸ hk⟩
    · rw [mem_append, mem_singleton, ih]

lemma mem_of_mem_fill {p : K × V} (h : p ∈ fill ps) : p ∈ ps := by
  induction ps using reverseRecOn generalizing p with
  | nil => exact h
  | append_singleton ps q ih =>
    rw [fill_snoc, put] at h
    rw [mem_append, mem_singleton]
    split_ifs at h with hk
    · obtain ⟨r, hr, rfl⟩ := mem_map.1 h
      split_ifs
      · exact .inr rfl
      · exact .inl (ih hr)
    · rcases mem_append.1 h with h | h
      · exact .inl (ih h)
      · exact .inr (mem_singleton.1 h)

/-- **Nothing is lost exactly if no key is put with two values.** -/
lemma fill_complete_iff : (∀ p ∈ ps, p ∈ fill ps) ↔ Functional ps := by
  constructor
  · intro h k v v' hv hv'
    have heq := inj_on_of_nodup_map (nodup_keys_fill ps) (h _ hv) (h _ hv') rfl
    exact congrArg Prod.snd heq
  · rintro h ⟨k, v⟩ hp
    obtain ⟨⟨k', v'⟩, hmem, rfl⟩ :=
      mem_map.1 (mem_keys_fill.2 (mem_map_of_mem (f := fst) hp))
    obtain rfl := h k' v v' hp (mem_of_mem_fill hmem)
    exact hmem

end Fill

section Sorted

variable {K V : Type*} [LinearOrder K]

def sortedItems (d : List (K × V)) : List (K × V) :=
  d.mergeSort fun x y => decide (x.1 ≤ y.1)

lemma mem_sortedItems {d : List (K × V)} {p : K × V} : p ∈ sortedItems d ↔ p ∈ d :=
  mem_mergeSort

lemma sortedItems_congr {d d' : List (K × V)} (hd : (d.map fst).Nodup)
    (hd' : (d'.map fst).Nodup) (h : ∀ p, p ∈ d ↔ p ∈ d') : sortedItems d = sortedItems d' := by
  have hsr : ∀ l : List (K × V), (sortedItems l).Pairwise fun x y => x.1 ≤ y.1 := by
    intro l
    have h := @List.pairwise_mergeSort (K × V) (fun x y => decide (x.1 ≤ y.1))
      (by simpa using fun a _ b _ c _ => le_trans) (by simpa using fun a _ b _ => le_total a b) l
    simpa [sortedItems] using h
  have hpr : d.Perm d' := (perm_ext_iff_of_nodup hd.of_map hd'.of_map).2 h
  refine List.Perm.eq_of_pairwise (fun a b ha hb hab hba => ?_) (hsr d) (hsr d') ?_
  · exact inj_on_of_nodup_map hd (mem_sortedItems.1 ha)
      ((h b).2 (mem_sortedItems.1 hb)) (le_antisymm hab hba)
  · exact (mergeSort_perm d _).trans (hpr.trans (mergeSort_perm d' _).symm)

end Sorted

end Razzer.Dicts
