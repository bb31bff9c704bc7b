import Razzer.Args

/-!
Programs: calls, the links between their arguments, and the operations on whole programs.

A result argument refers to the argument whose value it uses, and every argument that can be
used has a map of its users. The maps of all arguments of a program are one relation here. A
copy of a program has new arguments, which correspond to the old ones one to one; as a copy
is a program of its own, the arguments keep their references.
-/

namespace Razzer.Progs

open Args List

structure Syscall where
  id : ℕ
  name : String
  deriving DecidableEq

/-- A call; `ret` is the address of its `ReturnArg`, which no two calls share. -/
structure Call where
  syscall : Syscall
  args : List Arg
  ret : Ref

/-- A pair `(x, y)` of `uses` says that `y` is in the map of the users of `x`. -/
structure Prog where
  calls : List Call
  uses : Finset (Ref × Ref)

/-- The arguments of a call that can be used, with what they use, in the order `Clone` goes
through them. -/
def Call.nodes (c : Call) : List (Ref × Option Ref) :=
  (c.ret, none) :: (allResults c.args).map fun x => (x.2.id, x.2.res)

def Prog.nodes (p : Prog) : List (Ref × Option Ref) := p.calls.flatMap Call.nodes

def Prog.resOf (p : Prog) (id : Ref) : Option Ref :=
  (p.nodes.find? fun n => n.1 == id).bind Prod.snd

def Prog.isUsed (p : Prog) (id : Ref) : Bool := decide (∃ u ∈ p.uses, u.1 = id)

/-! ### Clone -/

/-- What an argument uses must have been copied before the argument. -/
def cloneable : List Ref → List (Ref × Option Ref) → Bool
  | _, [] => true
  | seen, (y, none) :: l => cloneable (y :: seen) l
  | seen, (y, some x) :: l => decide (x ∈ seen) && cloneable (y :: seen) l

/-- The users of all arguments, as the references say. -/
def links (nodes : List (Ref × Option Ref)) : Finset (Ref × Ref) :=
  (nodes.filterMap fun n => n.2.map fun x => (x, n.1)).toFinset

/-- `Clone`; the maps of users are filled anew. -/
def Prog.clone (p : Prog) : Option Prog :=
  if cloneable [] p.nodes then some ⟨p.calls, links p.nodes⟩ else none

/-! ### Removing arguments and calls -/

/-- A result argument after `replaceResultArg` with the default of its type. -/
def resetResult (t : ResourceType) (n : ResultNode) : ResultNode :=
  { n with res := none, opDiv := 0, opAdd := 0, val := t.default }

def Call.mapResults (f : ResourceType → ResultNode → ResultNode) (c : Call) : Call :=
  { c with args := mapAllResults f c.args }

/-- The link from an argument to the one it uses; it is fatal if it is missing. -/
def Prog.unlink (p : Prog) (id : Ref) : Option Prog :=
  match p.resOf id with
  | none => some p
  | some x => if (x, id) ∈ p.uses then some { p with uses := p.uses.erase (x, id) } else none

def Prog.resetUsers (p : Prog) (id : Ref) : Prog :=
  { calls := p.calls.map
      (Call.mapResults fun t n => if (id, n.id) ∈ p.uses then resetResult t n else n)
    uses := p.uses.filter fun u => ¬ ((id, u.2) ∈ p.uses ∧ p.resOf u.2 = some u.1) }

/-- What `removeArg` does for one argument that can be used. -/
def Prog.removeNode (p : Prog) (id : Ref) : Option Prog :=
  (p.unlink id).map fun q => q.resetUsers id

def Prog.removeNodes (p : Prog) : List Ref → Option Prog
  | [] => some p
  | id :: ids => (p.removeNode id).bind fun q => q.removeNodes ids

def Prog.removeArg (p : Prog) (a : Arg) : Option Prog :=
  if a.fits then p.removeNodes (a.results.map fun x => x.2.id) else none

def Prog.removeArgs (p : Prog) : List Arg → Option Prog
  | [] => some p
  | a :: as => (p.removeArg a).bind fun q => q.removeArgs as

def Prog.removeCall (p : Prog) (idx : ℕ) : Option Prog :=
  match p.calls[idx]? with
  | none => none
  | some c =>
    (p.removeArgs c.args).bind fun q =>
      (q.removeNode c.ret).map fun q => { q with calls := q.calls.eraseIdx idx }

/-- `insertBefore`; a nil call means the end. -/
def Prog.insertBefore (p : Prog) (c : Option Ref) (calls : List Call) : Prog :=
  let idx := p.calls.findIdx fun x => decide (some x.ret = c)
  { p with calls := p.calls.take idx ++ calls ++ p.calls.drop idx }

/-! ### What these operations do to the calls -/

def Resets (f : ResourceType → ResultNode → ResultNode) : Prop :=
  ∀ t n, f t n = n ∨ f t n = resetResult t n

lemma resets_id : Resets fun _ n => n := fun _ _ => .inl rfl

variable {f g : ResourceType → ResultNode → ResultNode}

lemma Resets.comp (hf : Resets f)
    (hg : Resets g) : Resets fun t n => g t (f t n) := by
  intro t n
  rcases hf t n with h | h <;> simp only [h]
  · exact hg t n
  · rcases hg t (resetResult t n) with h' | h'
    · exact .inr h'
    · exact .inr h'

lemma Resets.id_eq (hf : Resets f)
    (t : ResourceType) (n : ResultNode) : (f t n).id = n.id := by
  rcases hf t n with h | h <;> rw [h]
  rfl

lemma map_mapResults (f g : ResourceType → ResultNode → ResultNode) (cs : List Call) :
    (cs.map (Call.mapResults f)).map (Call.mapResults g) =
      cs.map (Call.mapResults fun t n => g t (f t n)) := by
  rw [map_map]
  refine map_congr_left fun c _ => ?_
  simp only [Function.comp_apply, Call.mapResults, mapAllResults_eq, map_map, Call.mk.injEq,
    true_and, and_true]
  exact map_congr_left fun a _ => a.mapResults_mapResults f g

lemma map_mapResults_id (cs : List Call) : cs.map (Call.mapResults fun _ n => n) = cs := by
  refine (map_congr_left fun c _ => ?_).trans (map_id' cs)
  simp only [Call.mapResults, mapAllResults_eq]
  rw [(map_congr_left fun a _ => a.mapResults_id).trans (map_id' c.args)]

variable {id x y : Ref} {p q : Prog} {D : Set Ref}

lemma Prog.removeNode_calls (h : p.removeNode id = some q) :
    ∃ f, Resets f ∧ q.calls = p.calls.map (Call.mapResults f) := by
  obtain ⟨p', hp', rfl⟩ := Option.map_eq_some_iff.1 h
  have hcl : p'.calls = p.calls := by
    unfold Prog.unlink at hp'
    split at hp'
    · cases hp'
      rfl
    · split at hp' <;> cases hp'
      rfl
  refine ⟨fun t n => if (id, n.id) ∈ p'.uses then resetResult t n else n, fun t n => ?_, ?_⟩
  · by_cases hu : (id, n.id) ∈ p'.uses
    · exact .inr (if_pos hu)
    · exact .inl (if_neg hu)
  · rw [Prog.resetUsers, hcl]

/-- **Removing arguments only resets results.** -/
theorem Prog.removeNodes_calls {ids : List Ref} (h : p.removeNodes ids = some q) :
    ∃ f, Resets f ∧ q.calls = p.calls.map (Call.mapResults f) := by
  induction ids generalizing p with
  | nil =>
    cases h
    exact ⟨_, resets_id, (map_mapResults_id _).symm⟩
  | cons id ids ih =>
    obtain ⟨p', hp', h⟩ := Option.bind_eq_some_iff.1 h
    obtain ⟨f, hf, hcl⟩ := removeNode_calls hp'
    obtain ⟨g, hg, hcl'⟩ := ih h
    refine ⟨_, hf.comp hg, ?_⟩
    rw [hcl', hcl, map_mapResults]

lemma Prog.removeNodes_append (p : Prog) (ids ids' : List Ref) :
    p.removeNodes (ids ++ ids') = (p.removeNodes ids).bind fun q => q.removeNodes ids' := by
  induction ids generalizing p with
  | nil => rfl
  | cons id ids ih =>
    simp only [cons_append, Prog.removeNodes, Option.bind_assoc, ih]

variable {as : List Arg}

lemma Prog.removeArgs_eq (p : Prog) (h : allFit as) :
    p.removeArgs as = p.removeNodes ((allResults as).map fun x => x.2.id) := by
  induction as generalizing p with
  | nil => rfl
  | cons a as ih =>
    rw [allFit, Bool.and_eq_true] at h
    simp only [Prog.removeArgs, Prog.removeArg, h.1, if_true, allResults, map_append,
      removeNodes_append, ih _ h.2]

/-! ### Links while arguments are removed -/

/-- The second node is the first one, or the first one without what it uses. -/
def Weakens (n n' : Ref × Option Ref) : Prop := n'.1 = n.1 ∧ (n'.2 = none ∨ n'.2 = n.2)

/-- The arguments in `D` are being removed: all others are registered with what they use, and
use none of them. -/
structure Removing (p : Prog) (D : Set Ref) : Prop where
  linked : ∀ y x, (y, some x) ∈ p.nodes → y ∉ D → (x, y) ∈ p.uses
  apart : ∀ y x, (y, some x) ∈ p.nodes → y ∉ D → x ∉ D

variable {l l' nodes : List (Ref × Option Ref)}

lemma mem_links : (x, y) ∈ links nodes ↔ (y, some x) ∈ nodes := by
  simp only [links, mem_toFinset, mem_filterMap, Option.map_eq_some_iff, Prod.mk.injEq]
  constructor
  · rintro ⟨⟨a, b⟩, hn, z, hz, rfl, rfl⟩
    exact hz ▸ hn
  · intro h
    exact ⟨_, h, x, rfl, rfl, rfl⟩

lemma Prog.clone_eq (h : p.clone = some q) :
    cloneable [] p.nodes ∧ q.calls = p.calls ∧ q.uses = links p.nodes := by
  unfold Prog.clone at h
  split at h <;> cases h
  exact ⟨‹_›, rfl, rfl⟩

lemma Prog.mem_of_resOf (h : p.resOf y = some x) : (y, some x) ∈ p.nodes := by
  obtain ⟨⟨a, b⟩, hfn, hb⟩ := Option.bind_eq_some_iff.1 h
  have hmem := mem_of_find?_eq_some hfn
  have hy : a = y := by simpa using find?_some hfn
  rw [hy] at hmem
  exact hb ▸ hmem

lemma Removing.unlink (h : Removing p D) (hid : id ∉ D) :
    ∃ q, p.unlink id = some q ∧ q.nodes = p.nodes ∧
      ∀ y x, (y, some x) ∈ p.nodes → y ∉ D → y ≠ id → (x, y) ∈ q.uses := by
  unfold Prog.unlink
  split
  case h_1 => exact ⟨p, rfl, rfl, fun y x hn hy _ => h.linked y x hn hy⟩
  case h_2 z hz =>
    rw [if_pos (h.linked id z (p.mem_of_resOf hz) hid)]
    refine ⟨_, rfl, rfl, fun y x hn hy hne => Finset.mem_erase.2 ⟨?_, h.linked y x hn hy⟩⟩
    simp [hne]

lemma Prog.mem_nodes_resetUsers (h : (y, some x) ∈ (p.resetUsers id).nodes) :
    (y, some x) ∈ p.nodes ∧ (id, y) ∉ p.uses := by
  simp only [Prog.nodes, Prog.resetUsers, mem_flatMap, mem_map] at h ⊢
  obtain ⟨-, ⟨c, hc, rfl⟩, h⟩ := h
  simp only [Call.nodes, Call.mapResults, mem_cons, allResults_mapAll, map_map,
    mem_map, Prod.mk.injEq, reduceCtorEq, and_false, false_or, Function.comp_apply] at h
  obtain ⟨⟨t, n⟩, hn, hid, hres⟩ := h
  by_cases hu : (id, n.id) ∈ p.uses
  · simp [hu, resetResult] at hres
  · rw [if_neg hu] at hid hres
    subst hid
    refine ⟨⟨c, hc, ?_⟩, hu⟩
    exact mem_cons_of_mem _ (mem_map.2 ⟨_, hn, by rw [hres]⟩)

lemma Removing.removeNode (h : Removing p D) (hid : id ∉ D) :
    ∃ q, p.removeNode id = some q ∧ Removing q (insert id D) := by
  obtain ⟨p', hp', hnd, hus⟩ := h.unlink hid
  refine ⟨p'.resetUsers id, by rw [Prog.removeNode, hp', Option.map_some], ?_, ?_⟩
  · intro y x hn hy
    rw [Set.mem_insert_iff, not_or] at hy
    obtain ⟨hn, hu⟩ := p'.mem_nodes_resetUsers hn
    rw [hnd] at hn
    simp only [Prog.resetUsers, Finset.mem_filter]
    exact ⟨hus y x hn hy.2 hy.1, fun hc => hu hc.1⟩
  · intro y x hn hy
    rw [Set.mem_insert_iff, not_or] at hy
    obtain ⟨hn, hu⟩ := p'.mem_nodes_resetUsers hn
    rw [hnd] at hn
    rw [Set.mem_insert_iff, not_or]
    -- a user of the argument that is removed is registered with it, and has been reset
    exact ⟨fun hx => hu (hx ▸ hus y x hn hy.2 hy.1), h.apart y x hn hy.2⟩

/-- **Removing arguments leaves no user behind.** -/
theorem Removing.removeNodes (h : Removing p D) {ids : List Ref} (hnd : ids.Nodup)
    (hD : ∀ id ∈ ids, id ∉ D) :
    ∃ q, p.removeNodes ids = some q ∧ Removing q (D ∪ {id | id ∈ ids}) := by
  induction ids generalizing p D with
  | nil => exact ⟨p, rfl, by simpa using h⟩
  | cons id ids ih =>
    rw [nodup_cons] at hnd
    rw [forall_mem_cons] at hD
    obtain ⟨p', hp', h'⟩ := h.removeNode hD.1
    have hD' : ∀ i ∈ ids, i ∉ insert id D := fun i hi hmem => by
      rcases Set.mem_insert_iff.1 hmem with rfl | hmem
      · exact hnd.1 hi
      · exact hD.2 i hi hmem
    obtain ⟨q, hq, h''⟩ := ih h' hnd.2 hD'
    refine ⟨q, by rw [Prog.removeNodes, hp', Option.bind_some, hq], ?_⟩
    convert h'' using 1
    ext i
    simp only [Set.mem_union, Set.mem_ofPred_eq, mem_cons, Set.mem_insert_iff]
    tauto

lemma cloneable_append (seen : List Ref) (l l' : List (Ref × Option Ref)) :
    cloneable seen (l ++ l') =
      (cloneable seen l && cloneable ((l.map Prod.fst).reverse ++ seen) l') := by
  induction l generalizing seen with
  | nil => rfl
  | cons n l ih =>
    obtain ⟨y, _ | x⟩ := n <;> simp [cloneable, ih, Bool.and_assoc]

lemma cloneable_filter (ids : List Ref) {seen : List Ref}
    (h : cloneable seen l) (hw : List.Forall₂ Weakens l l')
    (hap : ∀ y x, (y, some x) ∈ l' → y ∉ ids → x ∉ ids) :
    cloneable (seen.filter fun x => x ∉ ids) (l'.filter fun n => n.1 ∉ ids) = true := by
  induction hw generalizing seen with
  | nil => rfl
  | @cons n n' l l' hn hw ih =>
    have hrs : cloneable (n.1 :: seen) l ∧ (∀ x, n.2 = some x → x ∈ seen) := by
      obtain ⟨y, _ | x⟩ := n
      · exact ⟨h, by simp⟩
      · rw [cloneable, Bool.and_eq_true, decide_eq_true_eq] at h
        exact ⟨h.2, by simpa using h.1⟩
    have ih := ih hrs.1 fun y x hx => hap y x (mem_cons_of_mem _ hx)
    obtain ⟨y, r⟩ := n'
    obtain ⟨hy, hr⟩ := hn
    simp only at hy hr
    subst hy
    by_cases hmem : n.1 ∈ ids
    · rw [filter_cons_of_neg (by simpa using hmem)] at ih ⊢
      exact ih
    · rw [filter_cons_of_pos (by simpa using hmem)] at ih ⊢
      cases r with
      | none => exact ih
      | some x =>
        have hres : n.2 = some x := by simpa [eq_comm] using hr
        have hx := hap n.1 x (mem_cons_self ..) hmem
        rw [cloneable, Bool.and_eq_true, decide_eq_true_eq, mem_filter]
        exact ⟨⟨hrs.2 x hres, by simpa using hx⟩, ih⟩

end Razzer.Progs
