import Razzer.CloneArgs

/-!
A clone is the same program in other cells.

The clone has one new reference for every one of the program, and all of its cells are new: code
that has only the clone cannot come to the cells of the program. `clone` panics exactly where an
argument uses one that has not been copied, and in a valid program that is one that uses itself.
-/

namespace Razzer.CloneHeap

open Args Progs Minimize Decoding Encoding Heaps UseLinks Runs List Nat Prod

/-! ### Calls and programs -/

variable {old : List Obj} {done : List (Ref × Option Ref)} {s : Mem}

variable {heap : List Obj} {a root x x' : Addr} {p : Prog} {ρ : Ref → Ref} {y : Ref} {lo root' : ℕ}
  {n : Ref × Option Ref} {T : Target}

section Programs

variable {fuel : ℕ}

lemma exists_ret (h : ShapeAt heap a (.ret none)) : ∃ uses, heap[a]? = some (.ret uses) := by
  obtain ⟨o, ho, hsh⟩ := h
  cases o <;> simp_all [Obj.shape, Obj.withUses]

theorem clones_call (c : Call) (hfl : countAll c.args ≤ fuel) :
    calls.Clones old (cloneCall (fuel + 1)) c := by
  intro a s done hc h hnd
  obtain ⟨-, ⟨sl, as, ho, hp, has⟩, -, hret⟩ := hc
  obtain ⟨uses, hce⟩ := exists_ret hret
  have har : ∀ x ∈ c.args, args.Clones old (clone (fuel + 1)) x := fun x hx =>
    clones_arg x fuel ((count_le_countAll hx).trans (hfl.trans (le_succ _)))
  change ((done ++ c.nodes).map fst).Nodup at hnd
  change Copies old done c.nodes s _ _
  rw [nodes_call, ← singleton_append, ← append_assoc] at hnd
  rw [nodes_call, ← singleton_append]
  have hy : c.ret ∉ s.newargs.map fst := by
    rw [map_append] at hnd
    exact h.notMem_newargs hnd.of_append_left
  refine Copies.after (does_load (h.getElem? ho rfl)) ?_
  refine Copies.bind h (copies_unlinked h (getElem?_extend h.kept hce) hy rfl) ?_
  rintro ret1 s1 h1 hg1 ⟨rfl, hhp, hnew⟩
  have hsl := copies_slice har hp (argsAt_iff.1 has) h1 hnd
  suffices hcopies : Copies old (done ++ [(c.ret, none)]) (c.args.flatMap argNodes) s1
      ((loadPtrs sl >>= fun elems => cloneEach (clone (fuel + 1)) elems >>= fun elems1 =>
        newPtrs elems1) >>= fun args1 => alloc (.call c.syscall args1 s.heap.length))
      fun a1 s' => s.heap.length ≤ a1 ∧
        ∀ ρ, Agrees ρ s'.newargs → CallAt s'.heap s.heap.length (renameCall ρ c) a1 by
    simp only [bind_assoc] at hcopies
    exact hcopies
  refine Copies.bind_does h1 hsl fun sl1 s2 h2 hg2 hq2 => ?_
  have hlen := h.kept.length_le
  have hcl : Clean old.length (.call c.syscall sl1 s.heap.length) := by
    intro b hb
    rcases Finset.mem_insert.1 hb with rfl | hb
    · exact hlen.trans (hg1.len.trans hq2.1)
    · exact hlen.trans (Finset.mem_singleton.1 hb).ge
  refine ⟨s2.heap.length, _, does_alloc _ s2, h2.alloc _, grows_alloc hcl s2,
    hg1.len.trans hg2.len, fun ρ hρ => ?_⟩
  have hρ2 : Agrees ρ s2.newargs := hρ
  have hid : ρ c.ret = s.heap.length := hρ2.of_grows hg2 _ (hnew ▸ mem_cons_self)
  have hkp : ∀ lo, KeepsFrom lo s2.heap (s2.heap ++ [.call c.syscall sl1 s.heap.length]) :=
    keepsFrom_extend (prefix_append _ _)
  have hrt : ShapeAt s1.heap s.heap.length (.ret none) := by
    refine ⟨.ret none, ?_, rfl⟩
    rw [hhp, getElem?_concat_length]
    rfl
  obtain ⟨as1, hp1, has1⟩ := hq2.2 ρ hρ2
  refine ⟨hg1.len.trans hg2.len, ⟨sl1, as1, ?_, hp1.mono (hkp _) hg1.len, ?_⟩, hid.ge, ?_⟩
  · rw [renameCall, hid]
    exact shapeAt_of_plain (by simp) rfl
  · exact (argsAt_iff.2 has1).mono (hkp _) hg1.len
  · rw [renameCall, hid]
    exact hkp _ _ _ le_rfl (hg2.keepsFrom _ _ _ le_rfl hrt)

lemma inv_start (heap : List Obj) : Inv heap [] ⟨heap, []⟩ := by
  constructor <;> simp

/-- **A program is copied** to cells behind those that are there. -/
theorem copies_prog (hat : ProgAt heap root p) (hnd : (Prog.ids p).Nodup)
    (hfl : ∀ c ∈ p.calls, countAll c.args ≤ fuel) :
    Copies heap [] p.nodes ⟨heap, []⟩ (cloneProg (fuel + 1) root) fun root' s' =>
      heap.length ≤ root' ∧ ∀ ρ, Agrees ρ s'.newargs →
        CallsAt s'.heap heap.length (p.calls.map (renameCall ρ)) root' := by
  obtain ⟨-, sl, as, ho, hp, has⟩ := hat.calls
  have hcl : ∀ c ∈ p.calls, calls.Clones heap (cloneCall (fuel + 1)) c :=
    fun c hc => clones_call c (hfl c hc)
  refine Copies.after (does_load ((inv_start heap).getElem? ho rfl)) ?_
  have hsl := copies_slice hcl hp has (inv_start heap) hnd
  suffices hcopies : Copies heap [] p.nodes ⟨heap, []⟩
      ((loadPtrs sl >>= fun elems => cloneEach (cloneCall (fuel + 1)) elems >>= fun elems1 =>
        newPtrs elems1) >>= fun calls1 => alloc (.prog calls1))
      fun root' s' => heap.length ≤ root' ∧ ∀ ρ, Agrees ρ s'.newargs →
        CallsAt s'.heap heap.length (p.calls.map (renameCall ρ)) root' by
    simp only [bind_assoc] at hcopies
    exact hcopies
  refine Copies.bind_does (inv_start heap) hsl fun sl1 s1 h1 hg1 hq1 => ?_
  have hcn : Clean heap.length (.prog sl1) := by
    intro b hb
    exact hq1.1.trans (Finset.mem_singleton.1 hb).ge
  refine ⟨s1.heap.length, _, does_alloc _ s1, h1.alloc _, grows_alloc hcn s1, hg1.len,
    fun ρ hρ => ?_⟩
  have hkp := keepsFrom_extend (prefix_append s1.heap [.prog sl1]) heap.length
  obtain ⟨as1, hp1, has1⟩ := hq1.2 ρ hρ
  refine ⟨hg1.len, sl1, as1, shapeAt_of_plain (by simp) rfl, hp1.mono hkp le_rfl, ?_⟩
  exact has1.imp fun c a hc => hc.mono hkp le_rfl

end Programs

/-! ### The references of a clone -/

def renameProg (ρ : Ref → Ref) (p : Prog) : Prog :=
  ⟨p.calls.map (renameCall ρ), p.uses.image (Prod.map ρ ρ)⟩

lemma nodes_renameProg (ρ : Ref → Ref) (p : Prog) :
    (renameProg ρ p).nodes = p.nodes.map (renamePair ρ) := by
  simp only [Prog.nodes, renameProg, flatMap_map, map_flatMap, nodes_renameCall]

lemma mem_uses_renameProg {x : Ref} (hρ : ρ.Injective) :
    (ρ x, y) ∈ (renameProg ρ p).uses ↔ ∃ z, (x, z) ∈ p.uses ∧ ρ z = y := by
  simp only [renameProg, Finset.mem_image, Prod.exists, map_apply, mk.injEq]
  constructor
  · rintro ⟨x', z, hu, hx, rfl⟩
    exact ⟨z, hρ hx ▸ hu, rfl⟩
  · rintro ⟨z, hu, rfl⟩
    exact ⟨x, z, hu, rfl, rfl⟩

lemma serialize_renameProg (hρ : ρ.Injective) (p : Prog) (pageSize : UInt64) :
    serialize pageSize (renameProg ρ p) = serialize pageSize p := by
  refine serialize_rename hρ pageSize rfl fun n _ => decide_eq_decide.2 ?_
  constructor
  · rintro ⟨⟨x, y⟩, hu, rfl⟩
    obtain ⟨z, hz, -⟩ := (mem_uses_renameProg hρ).1 hu
    exact ⟨(n.1, z), hz, rfl⟩
  · rintro ⟨⟨x, z⟩, hu, rfl⟩
    exact ⟨(ρ n.1, ρ z), (mem_uses_renameProg hρ).2 ⟨z, hu, rfl⟩, rfl⟩

/-- The reference of the copy; what has no copy gets one that is no address. -/
def newRef (s : Mem) (x : Ref) : Ref := (s.newargs.lookup x).getD (x + s.heap.length)

lemma Inv.newRef_of_mem (h : Inv old done s) (hx : (x, x') ∈ s.newargs) : newRef s x = x' := by
  obtain ⟨r, hlk, hr⟩ := lookup_of_mem_keys (mem_map_of_mem (f := fst) hx)
  have heq := h.eq_of_fst hx hr rfl
  rw [newRef, hlk, ← (mk.inj heq).2]
  rfl

lemma newRef_of_notMem (hx : x ∉ s.newargs.map fst) : newRef s x = x + s.heap.length := by
  rw [newRef, lookup_of_notMem_keys hx]
  rfl

lemma Inv.agrees_newRef (h : Inv old done s) : Agrees (newRef s) s.newargs :=
  fun _ hq => h.newRef_of_mem hq

lemma Inv.newRef_injective (h : Inv old done s) : (newRef s).Injective := by
  have hmem : ∀ x, (x, newRef s x) ∈ s.newargs ∨ newRef s x = x + s.heap.length := by
    intro x
    by_cases hx : x ∈ s.newargs.map fst
    · obtain ⟨q, hq, rfl⟩ := mem_map.1 hx
      exact .inl (h.newRef_of_mem hq ▸ hq)
    · exact .inr (newRef_of_notMem hx)
  have hne : ∀ x y, (x, newRef s x) ∈ s.newargs → newRef s x ≠ y + s.heap.length := by
    intro x y hx
    obtain ⟨o, -, ho, -, -⟩ := h.cell hx
    exact ((List.getElem?_eq_some_iff.1 ho).1.trans_le (le_add_left _ _)).ne
  intro x y heq
  rcases hmem x with hx | hx
  · rcases hmem y with hy | hy
    · exact (mk.inj (inj_on_of_nodup_map h.values hx hy heq)).1
    · exact absurd (heq.trans hy) (hne x y hx)
  · rcases hmem y with hy | hy
    · exact absurd (heq.symm.trans hx) (hne y x hy)
    · exact add_right_cancel (hx.symm.trans (heq.trans hy))

lemma progAt_newRef (hwf : WellFormed p) (h : Inv old p.nodes s)
    (hcl : CallsAt s.heap lo (p.calls.map (renameCall (newRef s))) root) :
    ProgAt s.heap root (renameProg (newRef s) p) := by
  have hcp : ∀ n ∈ p.nodes, (n.1, newRef s n.1) ∈ s.newargs := by
    intro n hn
    have hkey : n.1 ∈ s.newargs.map fst := by
      rw [h.keys, mem_reverse]
      exact mem_map_of_mem hn
    obtain ⟨q, hq, heq⟩ := mem_map.1 hkey
    rw [← heq]
    exact h.newRef_of_mem hq ▸ hq
  refine ⟨hcl.mono (keepsFrom_extend prefix_rfl _) (zero_le _), ?_, ?_⟩
  · intro n' hn'
    rw [nodes_renameProg] at hn'
    obtain ⟨n, hn, rfl⟩ := mem_map.1 hn'
    obtain ⟨us, hus, hmem⟩ := h.users _ (hcp n hn)
    refine ⟨us, hus, fun y => ?_⟩
    rw [hmem, renamePair, mem_uses_renameProg h.newRef_injective]
    constructor
    · rintro ⟨z, hz, rfl⟩
      have hln := (hwf.uses_iff _ _).1 hz
      exact ⟨z, hcp _ hln, hln⟩
    · rintro ⟨z, hz, hln⟩
      exact ⟨z, (hwf.uses_iff _ _).2 hln, h.newRef_of_mem hz⟩
  · intro u hu
    obtain ⟨⟨x, z⟩, hxz, rfl⟩ := Finset.mem_image.1 hu
    obtain ⟨n, hn, rfl⟩ := mem_map.1 (hwf.inside x z ((hwf.uses_iff x z).1 hxz))
    exact ⟨renamePair (newRef s) n, nodes_renameProg _ p ▸ mem_map_of_mem hn, rfl⟩

/-! ### Valid programs -/

/-- What `validateCall` checks of references. An argument is in `ctx.args` before its own reference
is looked at. -/
def resolves : List Ref → List (Ref × Option Ref) → Bool
  | _, [] => true
  | seen, (y, r) :: l => (r.all fun x => decide (x ∈ y :: seen)) && resolves (y :: seen) l

/-- `validate` of a program that was not parsed, which may have an argument that uses itself. -/
def validateAny (T : Target) (p : Prog) : Bool :=
  let nodes := p.calls.flatMap (visited T)
  (p.calls.all fun c => checkArgs T c.args) &&
    decide (nodes.map fst).Nodup &&
    resolves [] nodes &&
    (nodes.all fun n => n.2.all fun x => decide ((x, n.1) ∈ p.uses)) &&
    decide (∀ u ∈ p.uses, u.1 ∈ nodes.map fst → u.2 ∈ nodes.map fst)

def NoSelf (nodes : List (Ref × Option Ref)) : Prop := ∀ y, (y, some y) ∉ nodes

section Order

variable {nodes : List (Ref × Option Ref)} {seen : List Ref}

lemma NoSelf.of_cons (h : NoSelf (n :: nodes)) : NoSelf nodes :=
  fun y hy => h y (mem_cons_of_mem _ hy)

lemma resolves_eq_cloneable (h : NoSelf nodes) : resolves seen nodes = cloneable seen nodes := by
  induction nodes generalizing seen with
  | nil => rfl
  | cons n nodes ih =>
    obtain ⟨y, _ | x⟩ := n
    · rw [resolves, cloneable, ih h.of_cons]
      rfl
    · have hne : x ≠ y := by
        rintro rfl
        exact h x mem_cons_self
      rw [resolves, cloneable, ih h.of_cons, Option.all_some]
      simp only [mem_cons, hne, false_or]

lemma cloneable_mono {seen' : List Ref} (h : cloneable seen nodes) (hsub : seen ⊆ seen') :
    cloneable seen' nodes := by
  induction nodes generalizing seen seen' with
  | nil => rfl
  | cons n nodes ih =>
    obtain ⟨y, _ | x⟩ := n
    · exact ih h (cons_subset_cons y hsub)
    · rw [cloneable, Bool.and_eq_true, decide_eq_true_eq] at h ⊢
      exact ⟨hsub h.1, ih h.2 (cons_subset_cons y hsub)⟩

/-- A return value is copied before the arguments of its call and checked after them. -/
lemma cloneable_of_visited (T : Target) {cs : List Call} {seen' : List Ref}
    (h : cloneable seen (cs.flatMap (visited T))) (hsub : seen ⊆ seen') :
    cloneable seen' (cs.flatMap Call.nodes) := by
  induction cs generalizing seen seen' with
  | nil => rfl
  | cons c cs ih =>
    rw [flatMap_cons, visited, append_assoc, cloneable_append, Bool.and_eq_true,
      cloneable_append, Bool.and_eq_true] at h
    obtain ⟨har, -, hrs⟩ := h
    rw [flatMap_cons, Call.nodes, cons_append, cloneable, cloneable_append, Bool.and_eq_true]
    refine ⟨cloneable_mono har (List.Subset.trans hsub (subset_cons_self _ _)), ih hrs ?_⟩
    intro x hx
    rcases mem_append.1 hx with hret | hx
    · split_ifs at hret with hty
      · obtain rfl : x = c.ret := by simpa using hret
        simp
      · cases hret
    · rcases mem_append.1 hx with hx | hx
      · exact mem_append_left _ hx
      · exact mem_append_right _ (mem_cons_of_mem _ (hsub hx))

/-- An argument that uses itself has not been copied when its copy is linked. -/
lemma noSelf_of_cloneable (h : cloneable seen nodes) (hnd : (nodes.map fst).Nodup)
    (hsn : ∀ n ∈ nodes, n.1 ∉ seen) : NoSelf nodes := by
  induction nodes generalizing seen with
  | nil => exact fun y hy => by cases hy
  | cons n nodes ih =>
    rw [map_cons, nodup_cons] at hnd
    rw [forall_mem_cons] at hsn
    have hrs : ∀ m ∈ nodes, m.1 ∉ n.1 :: seen := by
      intro m hm hmem
      rcases mem_cons.1 hmem with heq | hmem
      · exact hnd.1 (heq ▸ mem_map_of_mem hm)
      · exact hsn.2 m hm hmem
    intro y hy
    obtain ⟨z, _ | x⟩ := n
    · rcases mem_cons.1 hy with heq | hy
      · cases heq
      · exact ih h hnd.2 hrs y hy
    · rw [cloneable, Bool.and_eq_true, decide_eq_true_eq] at h
      rcases mem_cons.1 hy with heq | hy
      · cases heq
        exact hsn.1 h.1
      · exact ih h.2 hnd.2 hrs y hy

lemma mem_nodes_of_visited
    (h : n ∈ p.calls.flatMap (visited T)) : n ∈ p.nodes := by
  obtain ⟨c, hc, hn⟩ := mem_flatMap.1 h
  refine mem_flatMap.2 ⟨c, hc, ?_⟩
  rw [visited, mem_append] at hn
  rcases hn with hn | hn
  · exact mem_cons_of_mem _ hn
  · split_ifs at hn with hty
    · rw [mem_singleton.1 hn]
      exact mem_cons_self
    · cases hn

lemma validateAny_eq_validate (T : Target) (h : NoSelf p.nodes) :
    validateAny T p = validate T p := by
  have hvs : NoSelf (p.calls.flatMap (visited T)) :=
    fun y hy => h y (mem_nodes_of_visited hy)
  simp only [validateAny, validate, resolves_eq_cloneable hvs]

/-- **A valid program can be copied** exactly if no argument uses itself. -/
theorem cloneable_iff_noSelf (hvl : validateAny T p) (hnd : (Prog.ids p).Nodup) :
    cloneable [] p.nodes ↔ NoSelf p.nodes := by
  refine ⟨fun h => noSelf_of_cloneable h hnd (by simp), fun h => ?_⟩
  rw [validateAny_eq_validate T h] at hvl
  simp only [validate, Bool.and_eq_true] at hvl
  exact cloneable_of_visited T hvl.1.1.2 (nil_subset _)

end Order

/-! ### The clone -/

/-- What holds of a clone: it is the program with other references and has its text, it has no cell
that was there before, and whatever is done with it later, the original stays the program it was. -/
structure Isolated (heap : List Obj) (root : Addr) (p : Prog) (root' : Addr) (heap' : List Obj) :
    Prop where
  same : ∃ ρ : Ref → Ref, ρ.Injective ∧ ProgAt heap' root' (renameProg ρ p)
  text : ∀ q, ProgAt heap' root' q → ∀ pageSize, serialize pageSize q = serialize pageSize p
  apart : ∀ a, Reaches Obj.refs heap' root' a → heap.length ≤ a
  edits : ∀ es w, run (Heaps.step Obj.refs) ⟨heap', {root'}⟩ es = some w →
    ∀ q, ProgAt w.heap root q ↔ q = p

lemma isolated_of_copied (hat : ProgAt heap root p) (hwf : WellFormed p) (h : Inv heap p.nodes s)
    (hgr : Grows heap.length ⟨heap, []⟩ s) (hrt : heap.length ≤ root')
    (hcs : ∀ ρ, Agrees ρ s.newargs →
      CallsAt s.heap heap.length (p.calls.map (renameCall ρ)) root') :
    Isolated heap root p root' s.heap := by
  have hpr := progAt_newRef hwf h (hcs _ h.agrees_newRef)
  have hcl : ClosedFrom Obj.refs heap.length s.heap :=
    fun a o ha ho => hgr.fresh a o ha ho
  refine ⟨⟨_, h.newRef_injective, hpr⟩, fun q hq pageSize => ?_,
    fun a ha => hcl.reaches hrt ha, fun es w hrun q => ?_⟩
  · rw [hq.unique hpr, serialize_renameProg h.newRef_injective]
  · have hst : Apart Obj.refs heap ⟨s.heap, {root'}⟩ := by
      refine ⟨h.kept, hcl, fun a ha => ?_⟩
      rwa [Finset.mem_singleton.1 ha]
    have hkp := hat.extend (hst.run hrun).kept
    refine ⟨fun hq => hq.unique hkp, ?_⟩
    rintro rfl
    exact hkp

lemma exists_fuel (p : Prog) : ∃ n, ∀ c ∈ p.calls, countAll c.args ≤ n := by
  refine ⟨(p.calls.map fun c => countAll c.args).sum, fun c hc => ?_⟩
  exact single_le_sum (by simp) _ (mem_map_of_mem hc)

lemma clone_cases (hat : ProgAt heap root p) (hwf : WellFormed p) : ∃ n, ∀ fuel ≥ n,
      (cloneable [] p.nodes → ∃ root' heap', Clone fuel heap root = .ok (root', heap') ∧
        Isolated heap root p root' heap') ∧
      (cloneable [] p.nodes = false → Clone fuel heap root = .error .panic) := by
  obtain ⟨n, hn⟩ := exists_fuel p
  refine ⟨n + 1, fun fuel hfl => ?_⟩
  obtain ⟨fuel, rfl⟩ := Nat.exists_eq_add_of_le' hfl
  have hen : ∀ c ∈ p.calls, countAll c.args ≤ fuel + n :=
    fun c hc => (hn c hc).trans (le_add_left _ _)
  have hcp := copies_prog hat hwf.nodup hen
  constructor
  · intro hc
    obtain ⟨root', s, hds, h, hgr, hrt, hcl⟩ := hcp.1 hc
    refine ⟨root', s.heap, ?_, isolated_of_copied hat hwf h hgr hrt hcl⟩
    rw [Clone, ← add_assoc, hds]
    rfl
  · intro hc
    rw [Clone, ← add_assoc, hcp.2 hc]
    rfl

/-- **Which programs are cloned.** `Clone` of what `validate` accepts, with consistent links,
returns an isolated clone exactly if no argument of the program uses itself. -/
theorem clone_isolated_iff
    (hat : ProgAt heap root p) (hvalid : validateAny T p = true) (hwf : WellFormed p) :
    (∃ n, ∀ fuel ≥ n, ∃ root' heap', Clone fuel heap root = .ok (root', heap') ∧
      Isolated heap root p root' heap') ↔ NoSelf p.nodes := by
  obtain ⟨n, hn⟩ := clone_cases hat hwf
  rw [← cloneable_iff_noSelf hvalid hwf.nodup]
  constructor
  · rintro ⟨m, hm⟩
    by_contra hc
    obtain ⟨root', heap', hok, -⟩ := hm (max n m) (le_max_right _ _)
    have hpn := (hn (max n m) (le_max_left _ _)).2 (by simpa using hc)
    cases hok.symm.trans hpn
  · intro hc
    exact ⟨n, fun fuel hfl => (hn fuel hfl).1 hc⟩

/-- **Clones are isolated.** Where results come before their uses, no argument uses itself: `Clone`
of such a valid program with consistent links returns an isolated clone. -/
theorem clone_isolated {T : Target} {heap : List Obj} {root : Addr} {p : Prog}
    (hat : ProgAt heap root p) (hvalid : validateAny T p = true) (hself : NoSelf p.nodes)
    (hwf : WellFormed p) :
    ∃ n, ∀ fuel ≥ n, ∃ root' heap', Clone fuel heap root = .ok (root', heap') ∧
      Isolated heap root p root' heap' :=
  (clone_isolated_iff hat hvalid hwf).2 hself

def fd : ResourceType := ⟨⟨"fd", "fd", 4, .dirIn, false, false⟩, 0xffffffffffffffff⟩

def fileBuffer : BufferType := ⟨⟨"filename", "file", 0, .dirIn, false, true⟩, .filename, 0⟩

def filePtr : PtrType := ⟨⟨"ptr", "file", 8, .dirIn, false, false⟩, false⟩

def fileTarget : Target where
  types := [.resource fd, .buffer fileBuffer, .ptr filePtr 1,
    .array ⟨⟨"ANYUNION", "", 0, .dirIn, false, true⟩, .randLen, 0, 0⟩ 1]
  anyArray := 3
  anyPtrPtr := ⟨⟨"ptr", "", 8, .dirIn, true, false⟩, true⟩
  anyPtr64 := ⟨⟨"ptr64", "", 8, .dirIn, true, false⟩, true⟩
  ptrSize := 8
  pageSize := 4096
  numPages := 4096
  maxAlloc := 2 ^ 48
  syscalls := [⟨⟨0, "open"⟩, [2], true⟩, ⟨⟨1, "close"⟩, [0], false⟩]

def closeOpened : Prog :=
  ⟨[⟨⟨0, "open"⟩, [.ptr filePtr 0 (.data fileBuffer [0x61, 0] 0)], 4⟩,
    ⟨⟨1, "close"⟩, [.result fd ⟨6, some 4, 0, 0, 0⟩], 8⟩], {(4, 6)}⟩

def closeOpenedHeap : List Obj :=
  [.bytes [0x61, 0], .data fileBuffer ⟨0, 0, 2⟩ 0, .pointer filePtr 0 (some 1), .ptrs [2],
    .ret (some 5), .users {6}, .result fd (some 4) 0 0 0 none, .ptrs [6], .ret none,
    .call ⟨0, "open"⟩ ⟨3, 0, 1⟩ 4, .call ⟨1, "close"⟩ ⟨7, 0, 1⟩ 8, .ptrs [9, 10], .prog ⟨11, 0, 2⟩]

theorem closeOpened_isolated :
    ProgAt closeOpenedHeap 12 closeOpened ∧ validateAny fileTarget closeOpened = true ∧
    NoSelf closeOpened.nodes ∧ WellFormed closeOpened ∧ ∃ n, ∀ fuel ≥ n, ∃ root' heap',
      Clone fuel closeOpenedHeap 12 = .ok (root', heap') ∧
        Isolated closeOpenedHeap 12 closeOpened root' heap' := by
  have hnd : closeOpened.nodes = [(4, none), (8, none), (6, some 4)] := rfl
  have hop : CallAt closeOpenedHeap 0 closeOpened.calls[0] 9 := by
    refine ⟨zero_le _, ⟨⟨3, 0, 1⟩, [2], ⟨_, rfl, rfl⟩, ⟨zero_le _, [2], ⟨_, rfl, rfl⟩, rfl⟩,
      ⟨zero_le _, 1, ⟨_, rfl, rfl⟩, zero_le _, ⟨0, 0, 2⟩, ⟨_, rfl, rfl⟩, zero_le _,
        [0x61, 0], ⟨_, rfl, rfl⟩, rfl⟩, trivial⟩, zero_le _, _, rfl, rfl⟩
  have hcl : CallAt closeOpenedHeap 0 closeOpened.calls[1] 10 := by
    refine ⟨zero_le _, ⟨⟨7, 0, 1⟩, [6], ⟨_, rfl, rfl⟩, ⟨zero_le _, [6], ⟨_, rfl, rfl⟩, rfl⟩,
      ⟨zero_le _, rfl, _, rfl, rfl⟩, trivial⟩, zero_le _, _, rfl, rfl⟩
  have hat : ProgAt closeOpenedHeap 12 closeOpened := by
    refine ⟨⟨zero_le _, ⟨11, 0, 2⟩, [9, 10], ⟨_, rfl, rfl⟩,
      ⟨zero_le _, [9, 10], ⟨_, rfl, rfl⟩, rfl⟩, .cons hop (.cons hcl .nil)⟩, ?_,
      by decide +kernel⟩
    rw [hnd, forall_mem_cons, forall_mem_cons, forall_mem_singleton]
    refine ⟨⟨{6}, ⟨_, rfl, .inr ⟨5, rfl, rfl⟩⟩, ?_⟩, ⟨∅, ⟨_, rfl, .inl ⟨rfl, rfl⟩⟩, ?_⟩,
      ⟨∅, ⟨_, rfl, .inl ⟨rfl, rfl⟩⟩, ?_⟩⟩
    all_goals simp [closeOpened]
  have hvl : validateAny fileTarget closeOpened := by decide +kernel
  have hwf : WellFormed closeOpened := by decide +kernel
  have hsl : NoSelf closeOpened.nodes := by
    intro y hy
    rw [hnd] at hy
    have hy' : y = 6 ∧ y = 4 := by simpa using hy
    exact absurd (hy'.1.symm.trans hy'.2) (by decide)
  exact ⟨hat, hvl, hsl, hwf, clone_isolated hat hvl hsl hwf⟩

def closeSelf : Prog := ⟨[⟨⟨1, "close"⟩, [.result fd ⟨0, some 0, 0, 0, 0⟩], 3⟩], {(0, 0)}⟩

def closeSelfHeap : List Obj :=
  [.result fd (some 0) 0 0 0 (some 1), .users {0}, .ptrs [0], .ret none,
    .call ⟨1, "close"⟩ ⟨2, 0, 1⟩ 3, .ptrs [4], .prog ⟨5, 0, 1⟩]

/-- **An argument that uses itself** passes `validate`, but `newargs` has no copy of it when its
copy is linked. -/
theorem clone_self_panics :
    ProgAt closeSelfHeap 6 closeSelf ∧ validateAny fileTarget closeSelf = true ∧
    WellFormed closeSelf ∧ ∀ fuel, Clone (fuel + 1) closeSelfHeap 6 = .error .panic := by
  refine ⟨⟨⟨zero_le _, ⟨5, 0, 1⟩, [4], ⟨_, rfl, rfl⟩, ⟨zero_le _, [4], ⟨_, rfl, rfl⟩, rfl⟩,
    .cons ⟨zero_le _, ⟨⟨2, 0, 1⟩, [0], ⟨_, rfl, rfl⟩, ⟨zero_le _, [0], ⟨_, rfl, rfl⟩, rfl⟩,
      ⟨zero_le _, rfl, _, rfl, rfl⟩, trivial⟩, zero_le _, _, rfl, rfl⟩ .nil⟩, ?_,
    by decide +kernel⟩, by decide +kernel, by decide +kernel, fun fuel => rfl⟩
  have hnd : closeSelf.nodes = [(3, none), (0, some 0)] := rfl
  rw [hnd, forall_mem_cons, forall_mem_singleton]
  refine ⟨⟨∅, ⟨_, rfl, .inl ⟨rfl, rfl⟩⟩, ?_⟩, ⟨{0}, ⟨_, rfl, .inr ⟨1, rfl, rfl⟩⟩, ?_⟩⟩
  all_goals simp [closeSelf]

end Razzer.CloneHeap
