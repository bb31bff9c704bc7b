import Razzer.Minimize

/-!
The walk over the arguments of a call as a list of visits.

The walk does not change the shape of the tree it goes through, so what it visits is known
when it begins. It is the same walk as before, with the recursion taken out of it.
-/

namespace Razzer.Minimize

open Args Progs Sizes Trim List

/-- An attempt to remove element `k` of an array, or an argument without inner arguments. -/
inductive Visit
  | elem (pos : List ℕ) (path : String) (k : ℕ)
  | leaf (pos : List ℕ) (path : String)

def Visit.path : Visit → String
  | .elem _ path _ => path
  | .leaf _ path => path

def visit (env : Env) (w : Walk) : Visit → Option (Bool × Walk)
  | .elem pos path k => tryElem env w pos path k
  | .leaf pos path => tryLeaf env w pos path

def visitAll (env : Env) : List Visit → Walk → Option (Bool × Walk)
  | [], w => some (false, w)
  | v :: vs, w => andThen (visit env w v) (visitAll env vs)

mutual
def visits (pos : List ℕ) (path : String) : Arg → List Visit
  | .struct t inner => fieldVisits pos (path ++ "-" ++ t.fieldName) 0 inner
  | .union t option => visits (pos ++ [0]) (path ++ "-" ++ t.fieldName) option
  | .ptr t _ res => visits (pos ++ [0]) (path ++ "-" ++ t.fieldName) res
  | .array t inner => elemVisits pos (path ++ "-" ++ t.fieldName) 0 inner
  | a => [.leaf pos (path ++ "-" ++ a.fieldName)]

def fieldVisits (pos : List ℕ) (path : String) : ℕ → List Arg → List Visit
  | _, [] => []
  | k, a :: as => visits (pos ++ [k]) path a ++ fieldVisits pos path (k + 1) as

def elemVisits (pos : List ℕ) (path : String) : ℕ → List Arg → List Visit
  | _, [] => []
  | k, a :: as =>
    .elem pos (path ++ "-" ++ toString k) k ::
      (visits (pos ++ [k]) (path ++ "-" ++ toString k) a ++ elemVisits pos path (k + 1) as)
end

def argVisits : ℕ → List Arg → List Visit
  | _, [] => []
  | j, a :: as => visits [j] (toString j) a ++ argVisits (j + 1) as

lemma andThen_assoc (r : Option (Bool × Walk)) (f g : Walk → Option (Bool × Walk)) :
    andThen (andThen r f) g = andThen r fun w => andThen (f w) g := by
  obtain _ | ⟨b, w⟩ := r
  · rfl
  · cases b <;> rfl

lemma andThen_false (r : Option (Bool × Walk)) : andThen r (fun w => some (false, w)) = r := by
  obtain _ | ⟨b, w⟩ := r
  · rfl
  · cases b <;> rfl

lemma visitAll_append (env : Env) (us vs : List Visit) (w : Walk) :
    visitAll env (us ++ vs) w = andThen (visitAll env us w) (visitAll env vs) := by
  induction us generalizing w with
  | nil => rfl
  | cons u us ih =>
    rw [cons_append, visitAll, visitAll, andThen_assoc]
    congr 1
    funext w
    exact ih w

variable {l xs ys : List Arg} {a b : Arg}

lemma recFields_eq (env : Env) (pos : List ℕ) (path : String)
    (h : ∀ a ∈ l, ∀ pos path w, recArg env pos path a w = visitAll env (visits pos path a) w)
    (k : ℕ) (w : Walk) :
    recFields env pos path k l w = visitAll env (fieldVisits pos path k l) w := by
  induction l generalizing k w with
  | nil => rfl
  | cons a l ih =>
    rw [forall_mem_cons] at h
    rw [recFields, fieldVisits, visitAll_append, h.1]
    congr 1
    funext w
    exact ih h.2 (k + 1) w

lemma recElems_eq (env : Env) (pos : List ℕ) (path : String)
    (h : ∀ a ∈ l, ∀ pos path w, recArg env pos path a w = visitAll env (visits pos path a) w)
    (k : ℕ) (w : Walk) :
    recElems env pos path k l w = visitAll env (elemVisits pos path k l) w := by
  induction l generalizing k w with
  | nil => rfl
  | cons a l ih =>
    rw [forall_mem_cons] at h
    rw [recElems, elemVisits, visitAll, visit]
    congr 1
    funext w
    rw [visitAll_append, h.1]
    congr 1
    funext w
    exact ih h.2 (k + 1) w

lemma recArg_eq (env : Env) (pos : List ℕ) (path : String) (a : Arg) (w : Walk) :
    recArg env pos path a w = visitAll env (visits pos path a) w := by
  induction a generalizing pos path w with
  | struct t inner ih => exact recFields_eq env pos _ ih 0 w
  | array t inner ih => exact recElems_eq env pos _ ih 0 w
  | union t option ih | ptr t address res ih => exact ih _ _ w
  | _ => exact (andThen_false _).symm

/-- **The walk is its list of visits.** -/
theorem recArgs_eq (env : Env) (j : ℕ) (args : List Arg) (w : Walk) :
    recArgs env j args w = visitAll env (argVisits j args) w := by
  induction args generalizing j w with
  | nil => rfl
  | cons a args ih =>
    rw [recArgs, argVisits, visitAll_append, recArg_eq]
    congr 1
    funext w
    exact ih (j + 1) w

/-! ### The paths of a walk -/

lemma fieldVisits_congr
    (h : Forall₂ (fun a b => ∀ pos path, visits pos path b = visits pos path a) xs ys)
    (pos : List ℕ) (path : String) (k : ℕ) :
    fieldVisits pos path k ys = fieldVisits pos path k xs := by
  induction h generalizing k with
  | nil => rfl
  | cons hab _ ih => rw [fieldVisits, fieldVisits, hab, ih]

lemma elemVisits_congr
    (h : Forall₂ (fun a b => ∀ pos path, visits pos path b = visits pos path a) xs ys)
    (pos : List ℕ) (path : String) (k : ℕ) :
    elemVisits pos path k ys = elemVisits pos path k xs := by
  induction h generalizing k with
  | nil => rfl
  | cons hab _ ih => rw [elemVisits, elemVisits, hab, ih]

lemma visits_of_trims (h : Trims a b) (hc : a.count ≤ b.count) (pos : List ℕ) (path : String) :
    visits pos path b = visits pos path a := by
  induction a generalizing b pos path with
  | ptr t address res ih =>
    cases h with
    | ptr _ _ h =>
      rw [visits, visits]
      exact ih h (Nat.le_of_succ_le_succ hc) _ _
  | struct t inner ih =>
    cases h with
    | struct _ hxs =>
      have hall := forall₂_count hxs (Nat.le_of_succ_le_succ hc)
      exact fieldVisits_congr (forall₂_of_mem (fun a ha b h => ih a ha h.1 h.2) hall) pos _ 0
  | array t inner ih =>
    cases h with
    | array _ hsub _ hzs =>
      have hall := forall₂_of_array hsub hzs (Nat.le_of_succ_le_succ hc)
      exact elemVisits_congr (forall₂_of_mem (fun a ha b h => ih a ha h.1 h.2) hall) pos _ 0
  | union t option ih =>
    cases h with
    | union _ h =>
      rw [visits, visits]
      exact ih h (Nat.le_of_succ_le_succ hc) _ _
  | _ =>
    cases h
    rfl

lemma argVisits_of_trims (h : Forall₂ Trims xs ys) (hc : countAll xs ≤ countAll ys) (j : ℕ) :
    argVisits j ys = argVisits j xs := by
  have hall := forall₂_count h hc
  clear h hc
  induction hall generalizing j with
  | nil => rfl
  | cons hab _ ih => rw [argVisits, argVisits, visits_of_trims hab.1 hab.2, ih]

end Razzer.Minimize
