import Mathlib

/-!
Loops over a list whose steps may fail.
-/

namespace Razzer.Loops

open List

variable {σ α β ε : Type*} {f : σ → α → Except ε σ} {l : List α}

variable {g : σ → α → σ}

lemma foldlM_ok (h : ∀ x ∈ l, ∀ s, f s x = .ok (g s x)) (s : σ) :
    l.foldlM f s = .ok (l.foldl g s) := by
  induction l generalizing s with
  | nil => rfl
  | cons x l ih =>
    obtain ⟨hx, hl⟩ := List.forall_mem_cons.1 h
    rw [foldlM_cons, hx]
    exact ih hl _

/-- A loop with a step that fails in the same way from every state fails in that way, if the other
steps do not fail. -/
lemma foldlM_error_iff {good : α → Prop} {e : ε}
    (hgd : ∀ x ∈ l, good x → ∀ s, ∃ s', f s x = .ok s')
    (hbad : ∀ x ∈ l, ¬ good x → ∀ s, f s x = .error e) (s : σ) :
    l.foldlM f s = .error e ↔ ∃ x ∈ l, ¬ good x := by
  induction l generalizing s with
  | nil =>
    constructor
    · intro h
      cases h
    · rintro ⟨x, hx, -⟩
      cases hx
  | cons x l ih =>
    obtain ⟨hgx, hgl⟩ := List.forall_mem_cons.1 hgd
    obtain ⟨hbx, hbl⟩ := List.forall_mem_cons.1 hbad
    by_cases hx : good x
    · obtain ⟨s', hs'⟩ := hgx hx s
      rw [foldlM_cons, hs']
      refine (ih hgl hbl s').trans ⟨?_, ?_⟩
      · rintro ⟨y, hy, hny⟩
        exact ⟨y, mem_cons_of_mem _ hy, hny⟩
      · rintro ⟨y, hy, hny⟩
        rcases List.mem_cons.1 hy with rfl | hy
        · exact absurd hx hny
        · exact ⟨y, hy, hny⟩
    · rw [foldlM_cons, hbx hx]
      exact ⟨fun _ => ⟨x, mem_cons_self, hx⟩, fun _ => rfl⟩

lemma foldlM_collects {g : α → List β} {I : List β → σ → Prop}
    (hst : ∀ rs s x s', I rs s → f s x = .ok s' → I (rs ++ g x) s') {rs : List β} {s s' : σ}
    (hs : I rs s) (h : l.foldlM f s = .ok s') : I (rs ++ l.flatMap g) s' := by
  induction l generalizing rs s with
  | nil =>
    obtain rfl : s = s' := Except.ok.inj h
    simpa using hs
  | cons x l ih =>
    rw [foldlM_cons] at h
    cases hx : f s x with
    | error e =>
      rw [hx] at h
      cases h
    | ok s₁ =>
      rw [hx] at h
      have := ih (hst rs s x s₁ hs hx) h
      simpa using this

end Razzer.Loops
