import Mathlib

/-!
Feedback signal: maps from elements to priorities.

A signal stands for the function that gives every element its priority, with a bottom for
the elements it does not have. These functions form a lattice. Merging is its join, and a
difference is what has to be joined to get to the other signal.
-/

namespace Razzer.Feedback

open List

abbrev Signal := AList fun _ : UInt32 => ℤ

def toPrio : Option ℤ → WithBot ℤ
  | none => ⊥
  | some p => p

def prio (s : Signal) : UInt32 → WithBot ℤ := fun e => toPrio (s.lookup e)

/-- `s` has `e` with a priority of at least `p`. -/
def covers (s : Signal) (e : UInt32) (p : ℤ) : Bool :=
  match s.lookup e with
  | some q => decide (p ≤ q)
  | none => false

def raise (s : Signal) (x : Sigma fun _ : UInt32 => ℤ) : Signal :=
  if covers s x.1 x.2 then s else s.insert x.1 x.2

def merge (s s1 : Signal) : Signal := s1.entries.foldl raise s

def diff (s s1 : Signal) : Signal :=
  ⟨s1.entries.filter fun x => !covers s x.1 x.2, s1.nodupKeys.sublist filter_sublist⟩

/-- `DiffRaw`; the elements of `raw` all get one priority. -/
def diffRaw (s : Signal) (raw : List UInt32) (p : ℤ) : Signal :=
  raw.foldl (fun res e => if covers s e p then res else res.insert e p) ∅

def empty (s : Signal) : Bool := s.entries.isEmpty

variable {d s : Signal} {e : UInt32} {p : ℤ} {f : UInt32 → WithBot ℤ}

lemma covers_iff : covers s e p ↔ (p : WithBot ℤ) ≤ prio s e := by
  unfold covers prio
  cases s.lookup e with
  | none | some q => simp [toPrio]

@[simp] lemma prio_empty : prio ∅ = ⊥ := rfl

lemma prio_insert (s : Signal) (e : UInt32) (p : ℤ) (e' : UInt32) :
    prio (s.insert e p) e' = if e' = e then (p : WithBot ℤ) else prio s e' := by
  unfold prio
  by_cases h : e' = e
  · subst h
    rw [AList.lookup_insert, if_pos rfl, toPrio]
  · rw [AList.lookup_insert_ne h, if_neg h]

lemma prio_raise (s : Signal) (x : Sigma fun _ : UInt32 => ℤ) (e : UInt32) :
    prio (raise s x) e = prio s e ⊔ if e = x.1 then (x.2 : WithBot ℤ) else ⊥ := by
  unfold raise
  by_cases hc : covers s x.1 x.2
  · rw [if_pos hc]
    by_cases he : e = x.1
    · rw [if_pos he, he, sup_eq_left.2 (covers_iff.1 hc)]
    · simp [he]
  · rw [if_neg hc, prio_insert]
    by_cases he : e = x.1
    · have hlt : prio s x.1 ≤ (x.2 : WithBot ℤ) := le_of_not_ge fun h => hc (covers_iff.2 h)
      rw [if_pos he, if_pos he, he, sup_eq_right.2 hlt]
    · simp [he]

lemma prio_foldl_raise (s : Signal) {l : List (Sigma fun _ : UInt32 => ℤ)}
    (hl : l.NodupKeys) (e : UInt32) :
    prio (l.foldl raise s) e = prio s e ⊔ toPrio (l.dlookup e) := by
  induction l generalizing s with
  | nil => simp [toPrio]
  | cons x l ih =>
    obtain ⟨hx, hl⟩ := List.nodupKeys_cons.1 hl
    rw [foldl_cons, ih _ hl, prio_raise]
    by_cases he : e = x.1
    · subst he
      have hnn : l.dlookup x.1 = none := List.dlookup_eq_none.2 hx
      rw [if_pos rfl, hnn, dlookup_cons_eq]
      exact sup_bot_eq _
    · rw [if_neg he, sup_bot_eq, dlookup_cons_ne _ _ he]

/-- **Merging is the join.** -/
theorem prio_merge (s s1 : Signal) : prio (merge s s1) = prio s ⊔ prio s1 := by
  funext e
  exact prio_foldl_raise s s1.nodupKeys e

lemma le_prio_of_mem (h : ⟨e, p⟩ ∈ s.entries) :
    (p : WithBot ℤ) ≤ prio s e := by
  rw [← AList.mem_lookup_iff, Option.mem_def] at h
  rw [prio, h, toPrio]

lemma prio_le_iff : prio s ≤ f ↔ ∀ e (p : ℤ), ⟨e, p⟩ ∈ s.entries → (p : WithBot ℤ) ≤ f e := by
  refine ⟨fun h e p hp => (le_prio_of_mem hp).trans (h e), fun h e => ?_⟩
  rw [prio]
  cases hl : s.lookup e with
  | none => exact bot_le
  | some p => exact h e p (AList.mem_lookup_iff.1 hl)

/-- **A difference is part of the signal it is taken of**, and all that is missing of it. -/
theorem prio_diff_le (s s1 : Signal) : prio (diff s s1) ≤ prio s1 :=
  prio_le_iff.2 fun _ _ h => le_prio_of_mem (List.mem_filter.1 h).1

theorem prio_le_sup_diff (s s1 : Signal) : prio s1 ≤ prio s ⊔ prio (diff s s1) := by
  refine prio_le_iff.2 fun e p h => ?_
  by_cases hc : covers s e p
  · exact (covers_iff.1 hc).trans le_sup_left
  · have hmem : ⟨e, p⟩ ∈ (diff s s1).entries := List.mem_filter.2 ⟨h, by simpa using hc⟩
    exact (le_prio_of_mem hmem).trans le_sup_right

lemma merge_of_empty (s : Signal) (h : empty d) : merge s d = s := by
  rw [empty, List.isEmpty_iff] at h
  rw [merge, h, foldl_nil]

lemma prio_of_empty (h : empty s) : prio s = ⊥ := by
  refine le_bot_iff.1 (prio_le_iff.2 fun e p hp => ?_)
  rw [empty, List.isEmpty_iff] at h
  simp [h] at hp

end Razzer.Feedback
