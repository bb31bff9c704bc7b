import Mathlib

/-!
Places in a list that move with the elements they designate.

A place is an integer; the elements of a list have the places from zero on, and no other
place designates anything. When a block is put into a list, or an element is taken out, the
places behind it are moved. Two marked elements that are told apart by their order keep it.
-/

namespace Razzer.Places

open List

variable {α : Type*}

def nth (l : List α) (k : ℤ) : Option α := if k < 0 then none else l[k.toNat]?

/-- The block `b` is put in front of place `i`, or at the end if there is no such place. -/
def insertAt (l : List α) (i : ℕ) (b : List α) : List α := l.take i ++ b ++ l.drop i

def pastInsert (i n : ℕ) (k : ℤ) : ℤ := if (i : ℤ) ≤ k then k + n else k

def pastErase (i : ℕ) (k : ℤ) : ℤ := if (i : ℤ) < k then k - 1 else k

variable {k k' : ℤ} {l : List α} {x y : α} {i n : ℕ}

lemma nth_eq_some : nth l k = some x ↔ ∃ n : ℕ, k = n ∧ l[n]? = some x := by
  unfold nth
  constructor
  · intro h
    split at h
    · cases h
    · exact ⟨k.toNat, by omega, h⟩
  · rintro ⟨n, rfl, h⟩
    rw [if_neg (by omega), Int.toNat_natCast, h]

lemma mem_of_nth (h : nth l k = some x) : x ∈ l := by
  obtain ⟨n, -, hn⟩ := nth_eq_some.1 h
  exact mem_of_getElem? hn

lemma nth_map {β : Type*} (f : α → β) (l : List α) (k : ℤ) : nth (l.map f) k = (nth l k).map f := by
  unfold nth
  split
  · rfl
  · exact getElem?_map

variable {b : List α}

lemma mem_insertAt : x ∈ insertAt l i b ↔ x ∈ l ∨ x ∈ b := by
  have hl : x ∈ l ↔ x ∈ l.take i ∨ x ∈ l.drop i := by
    rw [← mem_append, take_append_drop]
  rw [insertAt, mem_append, mem_append, hl]
  tauto

lemma perm_insertAt (l : List α) (i : ℕ) (b : List α) : (insertAt l i b).Perm (l ++ b) := by
  have h : (l.take i ++ b ++ l.drop i).Perm (l.take i ++ (l.drop i ++ b)) := by
    rw [append_assoc]
    exact List.Perm.append_left _ perm_append_comm
  rwa [← append_assoc, take_append_drop] at h

lemma insertAt_of_length_le (h : l.length ≤ i) (b : List α) : insertAt l i b = l ++ b := by
  rw [insertAt, take_of_length_le h, drop_of_length_le h, append_nil]

lemma map_insertAt {β : Type*} (f : α → β) (l : List α) (i : ℕ) (b : List α) :
    (insertAt l i b).map f = insertAt (l.map f) i (b.map f) := by
  simp only [insertAt, map_append, map_take, map_drop]

/-- **A block put in.** What a place designates is found at the moved place. -/
theorem nth_insertAt (h : nth l k = some x) (i : ℕ) (b : List α) :
    nth (insertAt l i b) (pastInsert i b.length k) = some x := by
  obtain ⟨n, rfl, hn⟩ := nth_eq_some.1 h
  have hlen : n < l.length := (List.getElem?_eq_some_iff.1 hn).1
  unfold insertAt pastInsert
  by_cases hi : i ≤ n
  · rw [if_pos (by omega)]
    refine nth_eq_some.2 ⟨n + b.length, by omega, ?_⟩
    have hmid : (l.take i ++ b).length = i + b.length := by
      rw [length_append, length_take]
      omega
    rw [getElem?_append_right (by omega), hmid, getElem?_drop, ← hn]
    congr 1
    omega
  · rw [if_neg (by omega)]
    refine nth_eq_some.2 ⟨n, rfl, ?_⟩
    have htk : n < (l.take i).length := by
      rw [length_take]
      omega
    rw [append_assoc, getElem?_append_left htk, getElem?_take_of_lt (by omega), hn]

/-- **An element taken out.** What another place designates is found at the moved place. -/
theorem nth_eraseIdx (l : List α) (h : (i : ℤ) ≠ k) :
    nth (l.eraseIdx i) (pastErase i k) = nth l k := by
  unfold nth pastErase
  by_cases hlt : (i : ℤ) < k
  · rw [if_pos hlt, if_neg (by omega), if_neg (by omega), getElem?_eraseIdx_of_ge (by omega)]
    congr 1
    omega
  · rw [if_neg hlt]
    split
    · rfl
    · exact getElem?_eraseIdx_of_lt (by omega)

lemma nth_take (h : k < n) : nth (l.take n) k = nth l k := by
  unfold nth
  split
  · rfl
  · exact getElem?_take_of_lt (by omega)

lemma pastInsert_lt {l : ℤ} (h : k < l) (i n : ℕ) : pastInsert i n k < pastInsert i n l := by
  unfold pastInsert
  split <;> split <;> omega

lemma pastErase_lt {l : ℤ} (hk : (i : ℤ) ≠ k) (hl : (i : ℤ) ≠ l) (h : k < l) :
    pastErase i k < pastErase i l := by
  unfold pastErase
  split <;> split <;> omega

/-! ### Two marked elements -/

/-- The places `k < k'` designate `x` and `y`. -/
structure Marks (l : List α) (x y : α) (k k' : ℤ) : Prop where
  fst : nth l k = some x
  snd : nth l k' = some y
  lt : k < k'

lemma Marks.insertAt (h : Marks l x y k k') (i : ℕ) (b : List α) :
    Marks (insertAt l i b) x y (pastInsert i b.length k) (pastInsert i b.length k') :=
  ⟨nth_insertAt h.fst i b, nth_insertAt h.snd i b, pastInsert_lt h.lt i _⟩

lemma Marks.eraseIdx (h : Marks l x y k k') (hk : (i : ℤ) ≠ k) (hk' : (i : ℤ) ≠ k') :
    Marks (l.eraseIdx i) x y (pastErase i k) (pastErase i k') :=
  ⟨(nth_eraseIdx l hk).trans h.fst, (nth_eraseIdx l hk').trans h.snd, pastErase_lt hk hk' h.lt⟩

lemma Marks.take (h : Marks l x y k k') (hn : k' < n) : Marks (l.take n) x y k k' := by
  have hlt := h.lt
  exact ⟨(nth_take (by omega)).trans h.fst, (nth_take hn).trans h.snd, hlt⟩

lemma notMem_take_of_nth (hl : l.Nodup) (h : nth l k = some x) (hn : (n : ℤ) ≤ k) :
    x ∉ l.take n := by
  obtain ⟨m, rfl, hm⟩ := nth_eq_some.1 h
  intro hx
  have hds : (l.take n).Disjoint (l.drop n) :=
    disjoint_of_nodup_append (by rwa [take_append_drop])
  refine hds hx (mem_of_getElem? (i := m - n) ?_)
  rw [getElem?_drop, ← hm]
  congr 1
  omega

end Razzer.Places
