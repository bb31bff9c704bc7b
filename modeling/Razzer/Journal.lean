import Mathlib

/-!
Tables kept as a journal.

A journal is a list of changes of a table: something is saved under a key, or a key is deleted.
Replaying the changes gives the table. A table may also be written out as a journal, one
entry for each of its keys, and is the same when it is replayed. Tables are compared by what
they hold for each key, since the order in which one is walked is of no concern.
-/

namespace Razzer.Journal

open List Option

variable {K R : Type*}

abbrev Table (K R : Type*) := AList fun _ : K => R

inductive Entry (K R : Type*)
  | save (key : K) (rec : R)
  | delete (key : K)
  deriving DecidableEq

variable [DecidableEq K]

def Same (t u : Table K R) : Prop := ∀ k, t.lookup k = u.lookup k

def Entry.apply (t : Table K R) : Entry K R → Table K R
  | .save key rec => t.insert key rec
  | .delete key => t.erase key

def replay (log : List (Entry K R)) : Table K R := log.foldl Entry.apply ∅

def dump (t : Table K R) : List (Entry K R) := t.entries.map fun x => .save x.1 x.2

variable {t u v : Table K R}

lemma Same.symm (h : Same t u) : Same u t := fun k => (h k).symm

lemma Same.trans (h : Same t u) (h' : Same u v) : Same t v :=
  fun k => (h k).trans (h' k)

lemma same_of_perm (h : t.entries.Perm u.entries) : Same t u :=
  fun _ => AList.perm_lookup h

lemma lookup_insert_eq (t : Table K R) (key : K) (rec : R) (k : K) :
    (t.insert key rec).lookup k = if k = key then some rec else t.lookup k := by
  split
  case isTrue h => rw [h, AList.lookup_insert]
  case isFalse h => exact AList.lookup_insert_ne h

lemma lookup_erase_eq (t : Table K R) (key k : K) :
    (t.erase key).lookup k = if k = key then none else t.lookup k := by
  split
  case isTrue h => rw [h, AList.lookup_erase]
  case isFalse h => exact AList.lookup_erase_ne h

lemma Same.insert (h : Same t u) (key : K) (rec : R) :
    Same (t.insert key rec) (u.insert key rec) := by
  intro k
  rw [lookup_insert_eq, lookup_insert_eq, h k]

lemma Same.erase (h : Same t u) (key : K) : Same (t.erase key) (u.erase key) := by
  intro k
  rw [lookup_erase_eq, lookup_erase_eq, h k]

lemma replay_snoc (log : List (Entry K R)) (e : Entry K R) :
    replay (log ++ [e]) = e.apply (replay log) := by
  rw [replay, foldl_append, ← replay, foldl_cons, foldl_nil]

lemma lookup_foldl_dump {es : List (Sigma fun _ : K => R)} (hnd : es.NodupKeys)
    (t : Table K R) (k : K) :
    ((es.map fun x => Entry.save x.1 x.2).foldl Entry.apply t).lookup k =
      (es.dlookup k).or (t.lookup k) := by
  induction es generalizing t with
  | nil => rfl
  | cons x es ih =>
    obtain ⟨key, rec⟩ := x
    rw [nodupKeys_cons] at hnd
    rw [map_cons, foldl_cons, ih hnd.2, Entry.apply, lookup_insert_eq]
    by_cases hk : k = key
    · subst hk
      rw [List.dlookup_eq_none.2 hnd.1, if_pos rfl, dlookup_cons_eq, none_or, some_or]
    · rw [if_neg hk, dlookup_cons_ne es (⟨key, rec⟩ : Sigma fun _ : K => R) hk]

/-- **A table can be replayed from its own journal.** -/
theorem same_replay_dump (t : Table K R) : Same (replay (dump t)) t := by
  intro k
  rw [replay, dump, lookup_foldl_dump t.nodupKeys]
  exact or_none

end Razzer.Journal
