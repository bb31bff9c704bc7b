import Razzer.MinimizeRace
import Razzer.Runs

/-!
The links between results and their users, under all edits of a program.

An argument that uses a result refers to it, and the result has a map of its users. Every edit
changes both sides by hand. Edits are events here, which are undefined where the code stops,
and a sequence of edits is a run. New arguments come with references that are nowhere in the
program, and are registered with what they use when they are made. When a resource argument is
mutated, the calls that create the new resource are inserted after the replacement; the two
edits are in the other order here, which leads to the same program.
-/

namespace Razzer.UseLinks

open Args Progs Minimize Runs List
open Prod (fst mk)

/-! ### The edits -/

def Prog.ids (p : Prog) : List Ref := p.nodes.map Prod.fst

/-- A new address: no argument of the program has it, and it is in no map of users. -/
def Prog.isNew (p : Prog) (id : Ref) : Bool :=
  decide (id ∉ Prog.ids p) && decide (∀ u ∈ p.uses, u.1 ≠ id ∧ u.2 ≠ id)

def register (uses : Finset (Ref × Ref)) (id : Ref) : Option Ref → Finset (Ref × Ref)
  | none => uses
  | some x => insert (x, id) uses

def unregister (uses : Finset (Ref × Ref)) (id : Ref) : Option Ref → Finset (Ref × Ref)
  | none => uses
  | some x => uses.erase (x, id)

def putResult (t : ResourceType) (arg1 : ResultNode) : Arg → Arg
  | .result _ n => .result t { arg1 with id := n.id }
  | a => a

def replaceResultArg (i : ℕ) (pos : List ℕ) (n : ResultNode) (t : ResourceType)
    (arg1 : ResultNode) (p : Prog) : Prog :=
  let uses := unregister p.uses n.id n.res
  { modifyProg (putResult t arg1) i pos p with
    uses := register (unregister uses arg1.id arg1.res) n.id arg1.res }

/-- A resource argument is replaced by a new one, which may use any result of the program. -/
def replaceNew (i : ℕ) (pos : List ℕ) (t : ResourceType) (arg1 : ResultNode) (p : Prog) :
    Option Prog :=
  match argAt p i pos with
  | some (.result _ n) =>
    if Prog.isNew p arg1.id && decide (∀ x ∈ arg1.res, x ∈ Prog.ids p) then
      some (replaceResultArg i pos n t arg1 { p with uses := register p.uses arg1.id arg1.res })
    else none
  | _ => none

/-- New calls have new arguments, which use results of the program or of each other. -/
def generated (p : Prog) (calls : List Call) : Bool :=
  let nodes := calls.flatMap Call.nodes
  (nodes.all fun n => Prog.isNew p n.1) && decide (nodes.map Prod.fst).Nodup &&
    nodes.all fun n => decide (∀ x ∈ n.2, x ∈ Prog.ids p ++ nodes.map Prod.fst)

def insertNew (c : Option Ref) (calls : List Call) (p : Prog) : Option Prog :=
  if generated p calls then
    some (Prog.insertBefore { p with uses := p.uses ∪ links (calls.flatMap Call.nodes) } c calls)
  else none

def removeElemAt (i : ℕ) (pos : List ℕ) (k : ℕ) (p : Prog) : Option Prog :=
  match argAt p i pos with
  | some (.array _ inner) =>
    inner[k]?.bind fun elem => (p.removeArg elem).map (modifyProg (eraseElem k) i pos)
  | _ => none

inductive Edit
  | removeCall (idx : ℕ)
  | insert (c : Option Ref) (calls : List Call)
  | replace (i : ℕ) (pos : List ℕ) (t : ResourceType) (arg1 : ResultNode)
  | removeElem (i : ℕ) (pos : List ℕ) (k : ℕ)
  | assignSizes (i : ℕ)
  | clone
  | minimizeRace (fuel : ℕ) (callIndex : ℤ) (crash : Bool) (pred : Pred) (index : ℤ × ℤ)

def step (p : Prog) : Edit → Option Prog
  | .removeCall idx => p.removeCall idx
  | .insert c calls => insertNew c calls p
  | .replace i pos t arg1 => replaceNew i pos t arg1 p
  | .removeElem i pos k => removeElemAt i pos k p
  | .assignSizes i => assignSizesAt i p
  | .clone => p.clone
  | .minimizeRace fuel callIndex crash pred index =>
    (minimizeRace fuel p callIndex crash pred index).map Tracked.p0

/-! ### Well-formed programs -/

/-- Every argument is in the program once, an argument is a user of a result exactly when it
refers to it, and what it refers to is in the program. -/
structure WellFormed (p : Prog) : Prop where
  nodup : (Prog.ids p).Nodup
  uses_iff : ∀ x y, (x, y) ∈ p.uses ↔ (y, some x) ∈ p.nodes
  inside : ∀ x y, (y, some x) ∈ p.nodes → x ∈ Prog.ids p

instance (p : Prog) : Decidable (WellFormed p) :=
  decidable_of_iff ((Prog.ids p).Nodup ∧ p.uses = links p.nodes ∧
      ∀ n ∈ p.nodes, ∀ x ∈ n.2, x ∈ Prog.ids p) <| by
    constructor
    · rintro ⟨hnodup, huses, hinside⟩
      exact ⟨hnodup, fun x y => by rw [huses, mem_links], fun x y hn => hinside _ hn x rfl⟩
    · rintro ⟨hnodup, huses, hinside⟩
      refine ⟨hnodup, ?_, ?_⟩
      · ext ⟨x, y⟩
        rw [huses, mem_links]
      · rintro ⟨y, r⟩ hn x rfl
        exact hinside x y hn

variable {p q : Prog} {r : Option Ref} {y id x : Ref} {D : Set Ref} {L R : List (Ref × Option Ref)}
  {i : ℕ} {pos : List ℕ}

lemma mem_ids (h : (y, r) ∈ p.nodes) : y ∈ Prog.ids p :=
  mem_map_of_mem h

lemma WellFormed.of_nodes (h : WellFormed p) (hn : q.nodes = p.nodes) (hu : q.uses = p.uses) :
    WellFormed q := by
  refine ⟨?_, ?_, ?_⟩
  · rw [Prog.ids, hn]
    exact h.nodup
  · rw [hn, hu]
    exact h.uses_iff
  · rw [Prog.ids, hn]
    exact h.inside

variable {E l : List (Ref × Option Ref)}

lemma eq_of_mem_nodes (h : (l.map fst).Nodup) {r' : Option Ref}
    (hr : (y, r) ∈ l) (hr' : (y, r') ∈ l) : r = r' :=
  (mk.inj (inj_on_of_nodup_map h hr hr' rfl)).2

lemma resOf_of_mem (h : (Prog.ids p).Nodup) (hr : (y, r) ∈ p.nodes) : p.resOf y = r := by
  have hsm : (p.nodes.find? fun n => n.1 == y).isSome = true :=
    find?_isSome.2 ⟨_, hr, by simp⟩
  obtain ⟨⟨z, r'⟩, hfn⟩ := Option.isSome_iff_exists.1 hsm
  have hz : z = y := by simpa using find?_some hfn
  subst hz
  rw [Prog.resOf, hfn, Option.bind_some]
  exact eq_of_mem_nodes h (mem_of_find?_eq_some hfn) hr

/-! ### Removing arguments -/

/-- The arguments in `D` are being removed: they are registered nowhere and nothing else uses
them. -/
structure Cutting (p : Prog) (D : Set Ref) : Prop where
  nodup : (Prog.ids p).Nodup
  uses_iff : ∀ x y, (x, y) ∈ p.uses ↔ (y, some x) ∈ p.nodes ∧ y ∉ D
  apart : ∀ x y, (y, some x) ∈ p.nodes → y ∉ D → x ∉ D
  inside : ∀ x y, (y, some x) ∈ p.nodes → x ∈ Prog.ids p

lemma WellFormed.cutting (h : WellFormed p) : Cutting p ∅ :=
  ⟨h.nodup, by simpa using h.uses_iff, by simp, h.inside⟩

lemma Cutting.unlink (h : Cutting p D) (hid : id ∉ D) (hq : p.unlink id = some q) :
    q.calls = p.calls ∧ ∀ x y, (x, y) ∈ q.uses ↔ (y, some x) ∈ p.nodes ∧ y ∉ insert id D := by
  have hres : ∀ x, (id, some x) ∈ p.nodes → p.resOf id = some x :=
    fun x hx => resOf_of_mem h.nodup hx
  unfold Prog.unlink at hq
  split at hq
  case h_1 hnn =>
    cases hq
    refine ⟨rfl, fun x y => ?_⟩
    rw [h.uses_iff, Set.mem_insert_iff, not_or]
    refine and_congr_right fun hn => ⟨fun hy => ⟨?_, hy⟩, And.right⟩
    rintro rfl
    rw [hres x hn] at hnn
    cases hnn
  case h_2 z hz =>
    split at hq <;> cases hq
    refine ⟨rfl, fun x y => ?_⟩
    rw [Finset.mem_erase, h.uses_iff, Set.mem_insert_iff, not_or, Ne, mk.injEq]
    constructor
    · rintro ⟨hne, hn, hy⟩
      refine ⟨hn, fun hyid => hne ⟨?_, hyid⟩, hy⟩
      subst hyid
      exact Option.some.inj ((hres x hn).symm.trans hz)
    · rintro ⟨hn, hyid, hy⟩
      exact ⟨fun he => hyid he.2, hn, hy⟩

lemma ids_mapResults {f : ResourceType → ResultNode → ResultNode} (hf : Resets f)
    (hq : q.calls = p.calls.map (Call.mapResults f)) : Prog.ids q = Prog.ids p := by
  simp only [Prog.ids, Prog.nodes, hq, flatMap_map, map_flatMap]
  exact flatMap_congr fun c _ => fst_nodes_mapResults hf c

lemma mem_nodes_resetUsers_iff :
    (y, some x) ∈ (p.resetUsers id).nodes ↔ (y, some x) ∈ p.nodes ∧ (id, y) ∉ p.uses := by
  refine ⟨p.mem_nodes_resetUsers, fun ⟨hn, hu⟩ => ?_⟩
  obtain ⟨c, hc, hn⟩ := mem_flatMap.1 hn
  rw [Call.nodes, mem_cons, mk.injEq] at hn
  rcases hn with ⟨-, hnn⟩ | hn
  · cases hnn
  · obtain ⟨⟨t, n⟩, hmem, heq⟩ := mem_map.1 hn
    obtain ⟨rfl, hres⟩ := mk.inj heq
    refine mem_flatMap.2 ⟨_, mem_map_of_mem hc, mem_cons_of_mem _ ?_⟩
    rw [Call.mapResults, allResults_mapAll, map_map]
    refine mem_map.2 ⟨(t, n), hmem, ?_⟩
    simp only [Function.comp_apply, if_neg hu, ← hres]

lemma Cutting.removeNode (h : Cutting p D) (hid : id ∉ D) (hq : p.removeNode id = some q) :
    Cutting q (insert id D) := by
  obtain ⟨p', hp', rfl⟩ := Option.map_eq_some_iff.1 hq
  obtain ⟨hcl, hus⟩ := h.unlink hid hp'
  have hnd : p'.nodes = p.nodes := by rw [Prog.nodes, hcl, Prog.nodes]
  obtain ⟨f, hf, hrs⟩ := Prog.removeNode_calls hq
  have hids : Prog.ids (p'.resetUsers id) = Prog.ids p := ids_mapResults hf hrs
  refine ⟨hids ▸ h.nodup, fun x y => ?_, fun x y hn hy => ?_, fun x y hn => ?_⟩
  · rw [mem_nodes_resetUsers_iff, hnd, and_right_comm, ← hus]
    simp only [Prog.resetUsers, Finset.mem_filter]
    refine and_congr_right fun hu => not_congr (and_iff_left_of_imp fun _ => ?_)
    rw [← hnd] at hus
    exact resOf_of_mem (by rw [Prog.ids, hnd]; exact h.nodup) ((hus x y).1 hu).1
  · rw [mem_nodes_resetUsers_iff, hnd] at hn
    rw [Set.mem_insert_iff, not_or]
    refine ⟨fun hx => hn.2 ?_, h.apart x y hn.1 fun hD => hy (.inr hD)⟩
    exact (hus id y).2 ⟨hx ▸ hn.1, hy⟩
  · rw [mem_nodes_resetUsers_iff, hnd] at hn
    exact hids ▸ h.inside x y hn.1

/-- **Removing arguments** takes them out of the links. -/
theorem Cutting.removeNodes (h : Cutting p D) {ids : List Ref} (hnd : ids.Nodup)
    (hD : ∀ id ∈ ids, id ∉ D) (hq : p.removeNodes ids = some q) :
    Cutting q (D ∪ {id | id ∈ ids}) := by
  induction ids generalizing p D with
  | nil =>
    cases hq
    simpa using h
  | cons id ids ih =>
    rw [nodup_cons] at hnd
    rw [forall_mem_cons] at hD
    obtain ⟨p', hp', hq⟩ := Option.bind_eq_some_iff.1 hq
    have hD' : ∀ i ∈ ids, i ∉ insert id D := by
      rintro i hi (rfl | hmem)
      · exact hnd.1 hi
      · exact hD.2 i hi hmem
    convert ih (h.removeNode hD.1 hp') hnd.2 hD' hq using 1
    ext i
    simp only [Set.mem_union, Set.mem_ofPred_eq, mem_cons, Set.mem_insert_iff]
    tauto

lemma WellFormed.removeNodes (h : WellFormed p) {ids : List Ref} (hnd : ids.Nodup)
    (hq : p.removeNodes ids = some q) : Cutting q {id | id ∈ ids} := by
  simpa using h.cutting.removeNodes hnd (by simp) hq

lemma Cutting.leave (h : Cutting p {id | id ∈ E.map fst})
    (hp : p.nodes = L ++ E ++ R) (hq : q.nodes = L ++ R) (hu : q.uses = p.uses) : WellFormed q := by
  have hnd := h.nodup
  rw [Prog.ids, hp] at hnd
  have hmem : ∀ n, n ∈ q.nodes ↔ n ∈ p.nodes ∧ n.1 ∉ E.map fst := by
    intro n
    rw [hq, ← filter_block hnd, ← hp, mem_filter, decide_eq_true_eq]
  refine ⟨?_, fun x y => ?_, fun x y hn => ?_⟩
  · rw [Prog.ids, hq]
    refine hnd.sublist (List.Sublist.map _ ?_)
    rw [append_assoc]
    exact (sublist_append_right E R).append_left L
  · rw [hu, hmem, h.uses_iff]
    rfl
  · obtain ⟨hn, hy⟩ := (hmem _).1 hn
    obtain ⟨⟨x', r⟩, hx, rfl⟩ := mem_map.1 (h.inside x y hn)
    exact mem_map_of_mem ((hmem _).2 ⟨hx, h.apart _ y hn hy⟩)

lemma removeArg_some {a : Arg} (h : p.removeArg a = some q) :
    p.removeNodes (a.results.map fun x => x.2.id) = some q := by
  unfold Prog.removeArg at h
  split at h
  · exact h
  · cases h

variable {as : List Arg} {seen : List Ref} {uses : Finset (Ref × Ref)} {r' : Option Ref}

lemma removeArgs_some (h : p.removeArgs as = some q) :
    p.removeNodes ((allResults as).map fun x => x.2.id) = some q := by
  induction as generalizing p with
  | nil => exact h
  | cons a as ih =>
    obtain ⟨p', hp', h⟩ := Option.bind_eq_some_iff.1 h
    rw [allResults, map_append, Prog.removeNodes_append, removeArg_some hp', Option.bind_some, ih h]

lemma ids_block_nodup (h : ((L ++ E ++ R).map fst).Nodup) :
    (E.map fst).Nodup := by
  rw [map_append, map_append] at h
  exact (nodup_append.1 (nodup_append.1 h).1).2.1

lemma WellFormed.removeCall (h : WellFormed p) (hq : p.removeCall i = some q) : WellFormed q := by
  unfold Prog.removeCall at hq
  split at hq
  · cases hq
  case h_2 c hc =>
    obtain ⟨p1, hp1, hq⟩ := Option.bind_eq_some_iff.1 hq
    obtain ⟨p2, hp2, rfl⟩ := Option.map_eq_some_iff.1 hq
    have hrm : p.removeNodes (((allResults c.args).map fun x => x.2.id) ++ [c.ret]) = some p2 := by
      rw [Prog.removeNodes_append, removeArgs_some hp1, Option.bind_some, Prog.removeNodes, hp2]
      rfl
    have hids := ids_perm c
    obtain ⟨L, R, hnd, -⟩ := flatMap_at Call.nodes hc
    have hnp := h.nodup
    rw [Prog.ids, Prog.nodes, hnd] at hnp
    have hcut := h.removeNodes (hids.nodup_iff.1 (ids_block_nodup hnp)) hrm
    obtain ⟨f, hf, hcl⟩ := Prog.removeNodes_calls hrm
    have hc' : p2.calls[i]? = some (c.mapResults f) := by
      rw [hcl, getElem?_map, hc, Option.map_some]
    obtain ⟨L', R', hnd', her, -⟩ := flatMap_at Call.nodes hc'
    refine Cutting.leave (E := (c.mapResults f).nodes) ?_ hnd' her rfl
    rw [fst_nodes_mapResults hf]
    simpa only [hids.mem_iff] using hcut

lemma WellFormed.removeElem (h : WellFormed p) {t : ArrayType} {k : ℕ}
    {elem : Arg} (hat : argAt p i pos = some (.array t as)) (hk : as[k]? = some elem)
    (hq : p.removeArg elem = some q) : WellFormed (modifyProg (eraseElem k) i pos q) := by
  have hrm := removeArg_some hq
  rw [← fst_argNodes] at hrm
  obtain ⟨L, R, hnd, -⟩ := nodes_eraseElem hat hk
  have hnp := h.nodup
  rw [Prog.ids, hnd] at hnp
  have hcut := h.removeNodes (ids_block_nodup hnp) hrm
  obtain ⟨f, hf, hcl⟩ := Prog.removeNodes_calls hrm
  have hat' := argAt_mapResults hcl hat
  rw [Arg.mapResults, mapAllResults_eq] at hat'
  have hk' : (as.map (Arg.mapResults f))[k]? = some (elem.mapResults f) := by
    rw [getElem?_map, hk, Option.map_some]
  obtain ⟨L', R', hnd', her⟩ := nodes_eraseElem hat' hk'
  refine Cutting.leave (E := argNodes (elem.mapResults f)) ?_ hnd' her rfl
  rwa [fst_argNodes_mapResults hf]

lemma WellFormed.removeElemAt (h : WellFormed p) {k : ℕ} (hq : removeElemAt i pos k p = some q) :
    WellFormed q := by
  unfold UseLinks.removeElemAt at hq
  split at hq
  case h_2 => cases hq
  case h_1 t inner hat =>
    obtain ⟨elem, hk, hq⟩ := Option.bind_eq_some_iff.1 hq
    obtain ⟨r, hr, rfl⟩ := Option.map_eq_some_iff.1 hq
    exact h.removeElem hat hk hr

/-! ### Edits that do not touch links -/

lemma WellFormed.modify (h : WellFormed p) {b : Arg} {f : Arg → Arg} (hat : argAt p i pos = some b)
    (hf : argNodes (f b) = argNodes b) : WellFormed (modifyProg f i pos p) := by
  obtain ⟨L, R, hnd, hmod⟩ := nodes_modifyProg hat
  exact h.of_nodes (by rw [hmod, hf, hnd]) rfl

lemma results_assignSizes (fs : Option (List Arg)) (ps : List Arg) (a : Arg) :
    (Sizes.assignSizes fs ps a).results = a.results := by
  induction a generalizing fs ps with
  | ptr t address res ih => exact ih fs ps
  | union t option ih => exact ih none []
  | struct t inner ih | array t inner ih =>
    simp only [Sizes.assignSizes, Sizes.assignSizesArgs_eq, Arg.results, allResults_eq, flatMap_map]
    exact flatMap_congr fun a ha => ih a ha _ _
  | _ => simp [Sizes.assignSizes, Arg.results]

lemma WellFormed.assignSizesAt (h : WellFormed p) (hq : assignSizesAt i p = some q) :
    WellFormed q := by
  obtain ⟨c, hc, -⟩ := Option.bind_eq_some_iff.1 hq
  obtain rfl := assignSizesAt_eq_some hc hq
  refine h.of_nodes ?_ rfl
  obtain ⟨L, R, hnd, -, hmod⟩ := flatMap_at Call.nodes hc
  have hset : p.calls.set i { c with args := settle c.args } =
      p.calls.modify i fun c => { c with args := settle c.args } := by
    rw [modify_eq_set_getElem?, hc]
    rfl
  rw [Prog.nodes, withArgs, hset, hmod, Prog.nodes, hnd]
  simp only [Call.nodes, settle_eq, allResults_eq, flatMap_map, results_assignSizes]

lemma mem_of_cloneable (h : cloneable seen l) (hn : (y, some x) ∈ l) :
    x ∈ seen ∨ x ∈ l.map fst := by
  induction l generalizing seen with
  | nil => cases hn
  | cons n l ih =>
    obtain ⟨z, _ | x'⟩ := n
    · rcases mem_cons.1 hn with heq | hn
      · cases heq
      · rcases ih h hn with hx | hx
        · rcases mem_cons.1 hx with rfl | hx
          · exact .inr (by simp)
          · exact .inl hx
        · exact .inr (by simp [hx])
    · rw [cloneable, Bool.and_eq_true, decide_eq_true_eq] at h
      rcases mem_cons.1 hn with heq | hn
      · cases heq
        exact .inl h.1
      · rcases ih h.2 hn with hx | hx
        · rcases mem_cons.1 hx with rfl | hx
          · exact .inr (by simp)
          · exact .inl hx
        · exact .inr (by simp [hx])

lemma wellFormed_clone (hnp : (Prog.ids p).Nodup) (hq : p.clone = some q) : WellFormed q := by
  obtain ⟨hcn, hcl, hus⟩ := Prog.clone_eq hq
  have hnd : q.nodes = p.nodes := by rw [Prog.nodes, hcl, Prog.nodes]
  refine ⟨by rwa [Prog.ids, hnd], fun x y => ?_, fun x y hn => ?_⟩
  · rw [hus, mem_links, hnd]
  · rw [hnd] at hn
    rw [Prog.ids, hnd]
    exact (mem_of_cloneable hcn hn).resolve_left (by simp)

/-! ### New arguments -/

lemma mem_register : (x, y) ∈ register uses id r ↔ (x, y) ∈ uses ∨ (y = id ∧ r = some x) := by
  cases r with
  | none => simp [register]
  | some z =>
    rw [register, Finset.mem_insert, mk.injEq, Option.some.injEq]
    tauto

lemma mem_unregister : (x, y) ∈ unregister uses id r ↔ (x, y) ∈ uses ∧ ¬ (y = id ∧ r = some x) := by
  cases r with
  | none => simp [unregister]
  | some z =>
    rw [unregister, Finset.mem_erase, Ne, mk.injEq, Option.some.injEq]
    tauto

lemma mem_changed (h : ((L ++ [(id, r)] ++ R).map fst).Nodup) :
    (y, some x) ∈ L ++ [(id, r')] ++ R ↔
      ((y, some x) ∈ L ++ [(id, r)] ++ R ∧ y ≠ id) ∨ (y = id ∧ r' = some x) := by
  have hfl := filter_block h
  have hmem : (y, some x) ∈ L ++ R ↔ (y, some x) ∈ L ++ [(id, r)] ++ R ∧ y ≠ id := by
    rw [← hfl, mem_filter]
    simp
  rw [← hmem]
  simp only [mem_append, mem_singleton, mk.injEq]
  tauto

lemma ids_changed (L R : List (Ref × Option Ref)) (id : Ref) (r r' : Option Ref) :
    (L ++ [(id, r')] ++ R).map fst = (L ++ [(id, r)] ++ R).map fst := by
  simp

lemma WellFormed.replace (h : WellFormed p) {t : ResourceType} {arg1 : ResultNode}
    (hq : replaceNew i pos t arg1 p = some q) : WellFormed q := by
  unfold replaceNew at hq
  split at hq
  case h_2 => cases hq
  case h_1 t' n hat =>
    split at hq <;> cases hq
    case isTrue hgr =>
    simp only [Prog.isNew, Bool.and_eq_true, decide_eq_true_eq] at hgr
    obtain ⟨⟨hnew, -⟩, hins⟩ := hgr
    obtain ⟨L, R, hnd, hmod⟩ := nodes_modifyProg hat
    have hnd' := hmod (putResult t arg1)
    simp only [argNodes, putResult, Arg.results, map_cons, map_nil] at hnd hnd'
    have hnp := h.nodup
    rw [Prog.ids, hnd] at hnp
    have hmem : ∀ x y, (y, some x) ∈ (modifyProg (putResult t arg1) i pos p).nodes ↔
        ((y, some x) ∈ p.nodes ∧ y ≠ n.id) ∨ (y = n.id ∧ arg1.res = some x) := by
      intro x y
      rw [hnd', hnd]
      exact mem_changed hnp
    have hids : Prog.ids (modifyProg (putResult t arg1) i pos p) = Prog.ids p := by
      rw [Prog.ids, Prog.ids, hnd', hnd, ids_changed]
    refine ⟨hids.symm ▸ h.nodup, fun x y => ?_, fun x y hn => ?_⟩
    · simp only [replaceResultArg, mem_register, mem_unregister, h.uses_iff]
      refine Iff.trans ?_ (hmem x y).symm
      -- the new address is not in the program, and an argument has one reference
      have hold : (y, some x) ∈ p.nodes → y ≠ arg1.id := by
        rintro hn rfl
        exact hnew (mem_ids hn)
      have hone : (y, some x) ∈ p.nodes → y = n.id → n.res = some x := by
        rintro hn rfl
        exact eq_of_mem_nodes h.nodup (hnd ▸ by simp) hn
      tauto
    · change x ∈ Prog.ids (modifyProg (putResult t arg1) i pos p)
      rw [hids]
      rcases (hmem x y).1 hn with ⟨hn, -⟩ | ⟨-, hres⟩
      · exact h.inside x y hn
      · exact hins x hres

lemma WellFormed.insert (h : WellFormed p) {c : Option Ref} {cs : List Call}
    (hq : insertNew c cs p = some q) : WellFormed q := by
  unfold insertNew at hq
  split at hq <;> cases hq
  case isTrue hgr =>
  simp only [generated, Prog.isNew, Bool.and_eq_true, all_eq_true, decide_eq_true_eq]
    at hgr
  obtain ⟨⟨hnew, hnd⟩, hins⟩ := hgr
  set N := cs.flatMap Call.nodes with hN
  set idx := p.calls.findIdx fun x => decide (some x.ret = c) with hidx
  set q := Prog.insertBefore { p with uses := p.uses ∪ links N } c cs with hq
  have hpr : q.nodes.Perm (p.nodes ++ N) := by
    have hp : p.nodes =
        (p.calls.take idx).flatMap Call.nodes ++ (p.calls.drop idx).flatMap Call.nodes := by
      rw [← flatMap_append, take_append_drop, Prog.nodes]
    rw [hp, append_assoc]
    simp only [hq, Prog.insertBefore, Prog.nodes, flatMap_append, ← hidx, ← hN, append_assoc]
    exact perm_append_comm.append_left _
  have hids : (Prog.ids q).Perm (Prog.ids p ++ N.map fst) := by
    rw [Prog.ids, Prog.ids, ← map_append]
    exact hpr.map _
  refine ⟨hids.nodup_iff.2 (nodup_append.2 ⟨h.nodup, hnd, ?_⟩), fun x y => ?_,
    fun x y hn => hids.mem_iff.2 ?_⟩
  · rintro x hx y hy rfl
    obtain ⟨n, hn, rfl⟩ := mem_map.1 hy
    exact (hnew n hn).1 hx
  · rw [hpr.mem_iff, mem_append, ← h.uses_iff, ← mem_links]
    exact Finset.mem_union
  · rcases mem_append.1 (hpr.mem_iff.1 hn) with hn | hn
    · exact mem_append_left _ (h.inside x y hn)
    · exact hins _ hn x rfl

end Razzer.UseLinks
