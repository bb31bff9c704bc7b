import Mathlib

/-!
Maps from keys to lists, in which values are appended under their keys.

A key that the map does not have is one with no values. What the map has under a key after a
list of values was appended depends only on those of them that came under the key.
-/

namespace Razzer.Buckets

open List

variable {K V : Type*} [DecidableEq K]

abbrev Table (K V : Type*) := K → List V

def add (t : Table K V) (k : K) (v : V) : Table K V := Function.update t k (t k ++ [v])

def addAll (t : Table K V) (ps : List (K × V)) : Table K V :=
  ps.foldl (fun t p => add t p.1 p.2) t

lemma addAll_apply (t : Table K V) (ps : List (K × V)) (k : K) :
    addAll t ps k = t k ++ (ps.filter fun p => p.1 = k).map Prod.snd := by
  induction ps generalizing t with
  | nil => simp [addAll]
  | cons p ps ih =>
    have hcn : addAll t (p :: ps) = addAll (add t p.1 p.2) ps := rfl
    rw [hcn, ih, add]
    by_cases hk : p.1 = k
    · subst hk
      simp
    · rw [Function.update_of_ne (Ne.symm hk)]
      simp [hk]

lemma mem_addAll {t : Table K V} {ps : List (K × V)} {k : K} {v : V} :
    v ∈ addAll t ps k ↔ v ∈ t k ∨ (k, v) ∈ ps := by
  rw [addAll_apply, mem_append, mem_map]
  refine or_congr_right ⟨?_, fun h => ⟨(k, v), by simpa using h, rfl⟩⟩
  rintro ⟨⟨k', v'⟩, hp, rfl⟩
  obtain ⟨hmem, hk⟩ := List.mem_filter.1 hp
  rwa [← of_decide_eq_true hk]

lemma mem_add {t : Table K V} {k k' : K} {v v' : V} :
    v ∈ add t k v' k' ↔ v ∈ t k' ∨ k' = k ∧ v = v' := by
  have h : add t k v' = addAll t [(k, v')] := rfl
  rw [h, mem_addAll, mem_singleton, Prod.mk.injEq]

lemma addAll_append (t : Table K V) (ps qs : List (K × V)) :
    addAll t (ps ++ qs) = addAll (addAll t ps) qs := foldl_append

def merge (t t' : Table K V) : Table K V := fun k => t k ++ t' k

lemma merge_addAll (t : Table K V) (ps : List (K × V)) :
    merge t (addAll (fun _ => []) ps) = addAll t ps := by
  funext k
  rw [merge, addAll_apply, addAll_apply, nil_append]

end Razzer.Buckets
