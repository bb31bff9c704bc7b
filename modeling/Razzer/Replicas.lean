import Mathlib

/-!
Replicas of a keyed store.

A primary holds one value for a key. A replica is sent values through a queue: a batch is
taken from the queue, in whatever order, and the replica takes over the values of the batch
one by one, later ones over earlier ones, except for those it does not accept. Nothing but
the place in a batch tells an old value for a key from a new one. What keeps the replica
right is that the values for one key that are in the queue at the same time are the same.
-/

namespace Razzer.Replicas

open List

section Lists

variable {K V : Type*} (key : V → K)

/-- The values for key `a` in a list are all `cur`. -/
def Uniform (a : K) (cur : V) (vs : List V) : Prop := ∀ v ∈ vs, key v = a → v = cur

def Has (a : K) (vs : List V) : Prop := ∃ v ∈ vs, key v = a

variable {key} {a : K} {cur : V} {vs ws : List V}

lemma uniform_append (hv : Uniform key a cur vs) (hw : Uniform key a cur ws) :
    Uniform key a cur (vs ++ ws) := by
  intro v hmem
  rcases List.mem_append.1 hmem with h | h
  · exact hv v h
  · exact hw v h

lemma Uniform.mono (h : Uniform key a cur ws) (hsub : vs ⊆ ws) : Uniform key a cur vs :=
  fun v hv => h v (hsub hv)

lemma Has.mono (h : Has key a vs) (hsub : vs ⊆ ws) : Has key a ws := by
  obtain ⟨v, hv, ha⟩ := h
  exact ⟨v, hsub hv, ha⟩

end Lists

variable {K V : Type*} [DecidableEq K] (key : V → K) (accepts : V → Bool)

/-- A replica takes over the values of a batch. -/
def absorb (held : AList fun _ : K => V) (batch : List V) : AList fun _ : K => V :=
  batch.foldl (fun held v => if accepts v then held.insert (key v) v else held) held

/-- The replica has the value `cur` for key `a`, or will have it once the queue or the batch
that is under way is absorbed. -/
def Fed (a : K) (cur : V) (queue batch : List V) (held : AList fun _ : K => V) : Prop :=
  Has key a queue ∨ Uniform key a cur batch ∧ (Has key a batch ∨ held.lookup a = some cur)

variable {key accepts} {a : K} {cur : V} {queue batch : List V} {held : AList fun _ : K => V}

lemma lookup_absorb_of_uniform (hacc : accepts cur) (hu : Uniform key a cur batch)
    (h : Has key a batch ∨ held.lookup a = some cur) :
    (absorb key accepts held batch).lookup a = some cur := by
  induction batch generalizing held with
  | nil =>
    rcases h with ⟨v, hv, -⟩ | h
    · cases hv
    · exact h
  | cons v batch ih =>
    rw [absorb, foldl_cons, ← absorb]
    refine ih (hu.mono (subset_cons_self _ _)) ?_
    by_cases hv : key v = a
    · obtain rfl := hu v mem_cons_self hv
      right
      rw [if_pos hacc, ← hv, AList.lookup_insert]
    · rcases h with ⟨w, hw, ha⟩ | h
      · rcases List.mem_cons.1 hw with rfl | hw
        · exact absurd ha hv
        · exact .inl ⟨w, hw, ha⟩
      · right
        split
        · rw [AList.lookup_insert_ne (Ne.symm hv), h]
        · exact h

namespace Fed

lemma append (h : Fed key a cur queue batch held) (vs : List V) :
    Fed key a cur (queue ++ vs) batch held :=
  h.imp_left fun hq => hq.mono (subset_append_left _ _)

lemma store (ha : key cur = a) : Fed key a cur (queue ++ [cur]) batch held :=
  .inl ⟨cur, mem_append_right _ mem_cons_self, ha⟩

lemma pop {rest : List V} (h : Fed key a cur queue [] held) (hq : Uniform key a cur queue)
    (hpr : (batch ++ rest).Perm queue) : Fed key a cur rest batch held := by
  have hbt : Uniform key a cur batch :=
    hq.mono fun v hv => hpr.subset (mem_append_left _ hv)
  rcases h with ⟨v, hv, ha⟩ | ⟨-, ⟨v, hv, -⟩ | hhl⟩
  · rcases List.mem_append.1 (hpr.mem_iff.2 hv) with hv | hv
    · exact .inr ⟨hbt, .inl ⟨v, hv, ha⟩⟩
    · exact .inl ⟨v, hv, ha⟩
  · cases hv
  · exact .inr ⟨hbt, .inr hhl⟩

lemma absorb (h : Fed key a cur queue batch held) (hacc : accepts cur) :
    Fed key a cur queue [] (Replicas.absorb key accepts held batch) := by
  refine h.imp_right fun ⟨hu, h⟩ => ⟨fun v hv => absurd hv not_mem_nil, .inr ?_⟩
  exact lookup_absorb_of_uniform hacc hu h

lemma split {all : List V} (n : ℕ) (hu : Uniform key a cur all) (hall : Has key a all) :
    Fed key a cur (queue ++ all.drop n) (all.take n) held := by
  obtain ⟨v, hv, ha⟩ := hall
  rw [← take_append_drop n all] at hv
  rcases List.mem_append.1 hv with hv | hv
  · exact .inr ⟨hu.mono (take_subset _ _), .inl ⟨v, hv, ha⟩⟩
  · exact .inl ⟨v, mem_append_right _ hv, ha⟩

lemma congr {held' : AList fun _ : K => V} (h : Fed key a cur queue batch held)
    (heq : held'.lookup a = held.lookup a) : Fed key a cur queue batch held' :=
  h.imp_right fun ⟨hu, h⟩ => ⟨hu, h.imp_right fun h => heq.trans h⟩

lemma settled (h : Fed key a cur [] [] held) : held.lookup a = some cur := by
  rcases h with ⟨v, hv, -⟩ | ⟨-, ⟨v, hv, -⟩ | h⟩
  · cases hv
  · cases hv
  · exact h

end Fed

end Razzer.Replicas
