import Razzer.Minimize

/-!
Programs that can be minimised.

A good program can be copied, its arguments have references of their own, and its calls keep
the promises about sizes and length fields. Every edit of the minimisation takes a good
program to a good program.
-/

namespace Razzer.Minimize

open Args Progs Sizes Trim List
open Prod (fst)
open Option (map_some)

structure Good (p : Prog) : Prop where
  cloneable : cloneable [] p.nodes = true
  nodup : (p.nodes.map Prod.fst).Nodup
  sound : ∀ c ∈ p.calls, soundAll c.args = true
  resolves : ∀ c ∈ p.calls, resolvesAll (some c.args) [] c.args = true

/-- Every argument is registered with the one it uses. -/
def Linked (p : Prog) : Prop := ∀ y x, (y, some x) ∈ p.nodes → (x, y) ∈ p.uses

/-! ### Calls whose arguments are trimmed -/

structure CallTrims (c c' : Call) : Prop where
  syscall_eq : c'.syscall = c.syscall
  ret_eq : c'.ret = c.ret
  args : Forall₂ Trims c.args c'.args

structure CallKeeps (c c' : Call) : Prop extends CallTrims c c' where
  count_le : countAll c.args ≤ countAll c'.args

lemma CallTrims.refl (c : Call) : CallTrims c c :=
  ⟨rfl, rfl, forall₂_same.2 fun a _ => .refl a⟩

variable {c c' : Call} {cs : List Call} {p p' q : Prog} {f : Arg → Arg} {pos : List ℕ} {b a x : Arg}
  {i k : ℕ} {l : List Arg} {t : ArrayType}

lemma CallTrims.trans {d e : Call} (h : CallTrims c d) (h' : CallTrims d e) : CallTrims c e :=
  ⟨h'.syscall_eq.trans h.syscall_eq, h'.ret_eq.trans h.ret_eq,
    forall₂_trans_mem (fun _ _ _ _ => Trims.trans) h.args h'.args⟩

lemma CallKeeps.refl (c : Call) : CallKeeps c c := ⟨.refl c, le_rfl⟩

lemma CallTrims.count_le (h : CallTrims c c') : countAll c'.args ≤ countAll c.args :=
  countAll_le (h.args.imp fun _ _ h => h.count_le)

lemma CallKeeps.count_eq (h : CallKeeps c c') : countAll c'.args = countAll c.args :=
  le_antisymm h.toCallTrims.count_le h.count_le

lemma CallKeeps.trans {d e : Call} (h : CallKeeps c d) (h' : CallKeeps d e) : CallKeeps c e :=
  ⟨h.toCallTrims.trans h'.toCallTrims, h.count_le.trans h'.count_le⟩

lemma CallTrims.sound (h : CallTrims c c') (hc : soundAll c.args) : soundAll c'.args :=
  soundAll_of_trims (fun _ _ _ h => h.sound) h.args hc

lemma CallTrims.resolves (h : CallTrims c c') (hc : resolvesAll (some c.args) [] c.args) :
    resolvesAll (some c'.args) [] c'.args := by
  simp only [resolvesAll_eq, all_eq_true] at hc ⊢
  intro b hb
  obtain ⟨a, ha, hab⟩ := exists_of_forall₂ h.args hb
  exact hab.resolves (.some (h.args.imp fun _ _ => Trims.sameType)) .nil (hc a ha)

lemma CallKeeps.weakens (h : CallKeeps c c') : Forall₂ Weakens c.nodes c'.nodes := by
  have hall := forall₂_count h.args h.count_le
  have hfr := freesAll_flatMap (hall.imp fun _ _ h => h.1.results h.2)
  unfold Call.nodes
  refine .cons ⟨h.ret_eq, .inl rfl⟩ ?_
  rw [forall₂_map_left_iff, forall₂_map_right_iff]
  refine hfr.imp fun x y hxy => ?_
  rcases hxy.2 with heq | ⟨hid, hres⟩
  · rw [heq]
    exact ⟨rfl, .inr rfl⟩
  · exact ⟨hid, .inl hres⟩

lemma weakens_of_keeps {cs' : List Call} (h : Forall₂ CallKeeps cs cs') :
    Forall₂ Weakens (cs.flatMap Call.nodes) (cs'.flatMap Call.nodes) := by
  induction h with
  | nil => exact .nil
  | cons hc _ ih => exact rel_append hc.weakens ih

lemma map_fst_of_weakens {l l' : List (Ref × Option Ref)} (h : Forall₂ Weakens l l') :
    l'.map fst = l.map fst := by
  induction h with
  | nil => rfl
  | cons hn _ ih => rw [map_cons, map_cons, ih, hn.1]

lemma cloneable_of_weakens {l l' : List (Ref × Option Ref)} {seen : List Ref}
    (h : cloneable seen l) (hw : Forall₂ Weakens l l') :
    cloneable seen l' := by
  simpa using cloneable_filter [] h hw (by simp)

/-- **Good programs stay good** when values change and all inner arguments are kept. -/
theorem Good.keeps (h : Good p) (hc : Forall₂ CallKeeps p.calls p'.calls) : Good p' := by
  have hw : Forall₂ Weakens p.nodes p'.nodes := weakens_of_keeps hc
  refine ⟨cloneable_of_weakens h.cloneable hw, ?_, fun c' hc' => ?_, fun c' hc' => ?_⟩
  · rw [map_fst_of_weakens hw]
    exact h.nodup
  · obtain ⟨c, hmem, hcc⟩ := exists_of_forall₂ hc hc'
    exact hcc.sound (h.sound c hmem)
  · obtain ⟨c, hmem, hcc⟩ := exists_of_forall₂ hc hc'
    exact hcc.resolves (h.resolves c hmem)

/-! ### Edits of one argument -/

variable {args : List Arg} {j : ℕ} {rest : List ℕ}

lemma trims_modifyArgs
    (h : ∀ j rest a b, pos = j :: rest → args[j]? = some a → a.getAt rest = some b →
      Trims b (f b)) :
    Forall₂ Trims args (modifyArgs f pos args) := by
  cases pos with
  | nil => exact forall₂_same.2 fun a _ => .refl a
  | cons j rest =>
    exact forall₂_modify Trims.refl fun a ha => trims_modifyAt fun b hb => h j rest a b rfl ha hb

lemma argAt_eq_some :
    argAt p i pos = some b ↔ ∃ j rest c a, pos = j :: rest ∧ p.calls[i]? = some c ∧
      c.args[j]? = some a ∧ a.getAt rest = some b := by
  cases pos with
  | nil => simp [argAt]
  | cons j rest => simp [argAt, Option.bind_eq_some_iff]

lemma callTrims_modifyProg (h : ∀ b, argAt p i pos = some b → Trims b (f b)) :
    Forall₂ CallTrims p.calls (modifyProg f i pos p).calls := by
  refine forall₂_modify CallTrims.refl fun c hc => ⟨rfl, rfl, trims_modifyArgs ?_⟩
  intro j rest a b hpos ha hb
  exact h b (argAt_eq_some.2 ⟨j, rest, c, a, hpos, hc, ha, hb⟩)

lemma countAll_modifyArgs (ha : args[j]? = some a) (hb : a.getAt rest = some b) :
    countAll (modifyArgs f (j :: rest) args) + b.count = countAll args + (f b).count := by
  have hall := countAll_modify ha (Arg.modifyAt f rest)
  have hone := count_modifyAt (f := f) hb
  simp only [modifyArgs]
  omega

lemma callKeeps_modifyProg (hat : argAt p i pos = some b) (htr : Trims b (f b))
    (hcn : b.count ≤ (f b).count) :
    Forall₂ CallKeeps p.calls (modifyProg f i pos p).calls := by
  obtain ⟨j, rest, c, a, rfl, hc, ha, hb⟩ := argAt_eq_some.1 hat
  refine forall₂_modify CallKeeps.refl fun c' hc' => ⟨⟨rfl, rfl, ?_⟩, ?_⟩
  · refine @trims_modifyArgs f (j :: rest) c'.args ?_
    rintro j' rest' a' b' heq ha' hb'
    cases heq
    cases hc.symm.trans hc'
    cases ha.symm.trans ha'
    cases hb.symm.trans hb'
    exact htr
  · cases hc.symm.trans hc'
    have := countAll_modifyArgs (f := f) ha hb
    simp only at this ⊢
    omega

lemma forall₂_set {α : Type*} {R : α → α → Prop} (hrf : ∀ x, R x x) {l : List α} {x y : α}
    (hx : l[i]? = some x) (hxy : R x y) : Forall₂ R l (l.set i y) := by
  induction l generalizing i with
  | nil => simp at hx
  | cons a l ih =>
    cases i with
    | zero =>
      obtain rfl : a = x := by simpa using hx
      exact .cons hxy (forall₂_same.2 fun z _ => hrf z)
    | succ i => exact .cons (hrf a) (ih (by simpa using hx))

lemma callKeeps_assignSizes (h : assignSizesCall c = some c') : CallKeeps c c' := by
  unfold assignSizesCall at h
  split at h <;> cases h
  simp only [assignSizesArgs_eq]
  refine ⟨⟨rfl, rfl, ?_⟩, ?_⟩
  · exact forall₂_map_right_iff.2 (forall₂_same.2 fun a _ => trims_assignSizes _ _ a)
  · exact (countAll_map fun a _ => count_assignSizes _ _ a).ge

lemma callKeeps_assignSizesAt (h : assignSizesAt i p = some p') :
    Forall₂ CallKeeps p.calls p'.calls := by
  obtain ⟨c, hc, h⟩ := Option.bind_eq_some_iff.1 h
  obtain ⟨c', hc', rfl⟩ := Option.map_eq_some_iff.1 h
  exact forall₂_set CallKeeps.refl hc (callKeeps_assignSizes hc')

lemma Good.assignSizesAt (h : Good p) (hi : i < p.calls.length) :
    ∃ p', assignSizesAt i p = some p' := by
  have hc : p.calls[i] ∈ p.calls := getElem_mem hi
  have hgr : (allFit p.calls[i].args && resolvesAll (some p.calls[i].args) [] p.calls[i].args)
      := by
    rw [allFit_of_sound (h.sound _ hc), h.resolves _ hc]
    rfl
  simp only [Minimize.assignSizesAt, getElem?_eq_getElem hi, Option.bind_some,
    assignSizesCall, hgr, if_true, map_some]
  exact ⟨_, rfl⟩

/-! ### Removing array elements -/

lemma flatMap_at {α β : Type} (f : α → List β) {l : List α} {x : α} (hx : l[k]? = some x) :
    ∃ L R, l.flatMap f = L ++ f x ++ R ∧ (l.eraseIdx k).flatMap f = L ++ R ∧
      ∀ g : α → α, (l.modify k g).flatMap f = L ++ f (g x) ++ R := by
  induction l generalizing k with
  | nil => simp at hx
  | cons a l ih =>
    cases k with
    | zero =>
      obtain rfl : a = x := by simpa using hx
      exact ⟨[], l.flatMap f, by simp, by simp, fun g => by simp⟩
    | succ k =>
      obtain ⟨L, R, hl, he, hg⟩ := ih (k := k) (by simpa using hx)
      exact ⟨f a ++ L, R, by simp [hl], by simp [he], fun g => by simp [hg]⟩

lemma allResults_at (hx : l[k]? = some x) :
    ∃ L R, allResults l = L ++ x.results ++ R ∧ allResults (l.eraseIdx k) = L ++ R ∧
      ∀ g : Arg → Arg, allResults (l.modify k g) = L ++ (g x).results ++ R := by
  simpa only [allResults_eq] using flatMap_at Arg.results hx

lemma results_modifyAt (hat : a.getAt pos = some b) :
    ∃ L R, a.results = L ++ b.results ++ R ∧
      ∀ f : Arg → Arg, (a.modifyAt f pos).results = L ++ (f b).results ++ R := by
  induction pos generalizing a with
  | nil =>
    cases hat
    exact ⟨[], [], by simp, fun f => by simp [Arg.modifyAt]⟩
  | cons j pos ih =>
    cases a with
    | ptr t address res => exact ih (a := res) hat
    | union t option => exact ih (a := option) hat
    | struct t inner | array t inner =>
      obtain ⟨y, hy, hat⟩ := Option.bind_eq_some_iff.1 hat
      obtain ⟨L, R, hl, he⟩ := ih hat
      obtain ⟨L', R', hl', -, hg⟩ := allResults_at hy
      refine ⟨L' ++ L, R ++ R', ?_, fun f => ?_⟩
      · simp only [Arg.results, hl', hl, append_assoc]
      · simp only [Arg.modifyAt, Arg.results, hg, he, append_assoc]
    | _ => cases hat

def argNodes (a : Arg) : List (Ref × Option Ref) := a.results.map fun y => (y.2.id, y.2.res)

lemma fst_argNodes (a : Arg) : (argNodes a).map fst = a.results.map fun y => y.2.id := by
  rw [argNodes, map_map]
  rfl

variable {f : ResourceType → ResultNode → ResultNode}

lemma fst_argNodes_mapResults (hf : Resets f)
    (a : Arg) : (argNodes (a.mapResults f)).map fst = (argNodes a).map fst := by
  rw [fst_argNodes, fst_argNodes, Arg.results_mapResults, map_map]
  exact map_congr_left fun y _ => hf.id_eq y.1 y.2

lemma nodes_modifyProg (hat : argAt p i pos = some b) :
    ∃ L R, p.nodes = L ++ argNodes b ++ R ∧
      ∀ f : Arg → Arg, (modifyProg f i pos p).nodes = L ++ argNodes (f b) ++ R := by
  obtain ⟨j, rest, c, a, rfl, hc, ha, hb⟩ := argAt_eq_some.1 hat
  obtain ⟨L, R, hl, -, hg⟩ := flatMap_at Call.nodes hc
  obtain ⟨L', R', hl', -, hg'⟩ := allResults_at ha
  obtain ⟨L'', R'', hl'', he⟩ := results_modifyAt hb
  let node := fun y : ResourceType × ResultNode => (y.2.id, y.2.res)
  refine ⟨L ++ (c.ret, none) :: (L' ++ L'').map node, (R'' ++ R').map node ++ R, ?_, fun f => ?_⟩
  · simp [Prog.nodes, argNodes, hl, Call.nodes, hl', hl'', node]
  · simp [Prog.nodes, argNodes, modifyProg, hg, Call.nodes, modifyArgs, hg', he, node]

variable {as : List Arg}

lemma nodes_eraseElem (hat : argAt p i pos = some (.array t as))
    (hx : as[k]? = some x) :
    ∃ L R, p.nodes = L ++ argNodes x ++ R ∧ (modifyProg (eraseElem k) i pos p).nodes = L ++ R := by
  obtain ⟨L, R, hl, hg⟩ := nodes_modifyProg hat
  obtain ⟨L', R', hl', he, -⟩ := allResults_at hx
  let node := fun y : ResourceType × ResultNode => (y.2.id, y.2.res)
  refine ⟨L ++ L'.map node, R'.map node ++ R, ?_, ?_⟩
  · simp [hl, argNodes, Arg.results, hl', node]
  · simp [hg, argNodes, eraseElem, Arg.results, he, node]

lemma sound_getAt (ha : sound a) (h : a.getAt pos = some b) : sound b := by
  induction pos generalizing a with
  | nil =>
    cases h
    exact ha
  | cons k pos ih =>
    cases a with
    | ptr t address res => exact ih (a := res) ha h
    | union t option => exact ih (a := option) ha h
    | struct t inner | array t inner =>
      obtain ⟨x, hx, hb⟩ := Option.bind_eq_some_iff.1 h
      simp only [sound, soundAll_eq, Bool.and_eq_true, all_eq_true] at ha
      exact ih (ha.2 x (mem_of_getElem? hx)) hb
    | _ => cases h

lemma Good.sound_at (h : Good p) (hat : argAt p i pos = some b) : Trim.sound b := by
  obtain ⟨j, rest, c, a, -, hc, ha, hb⟩ := argAt_eq_some.1 hat
  have hall := h.sound c (mem_of_getElem? hc)
  simp only [soundAll_eq, all_eq_true] at hall
  exact sound_getAt (hall a (mem_of_getElem? ha)) hb

lemma getAt_mapResults (f : ResourceType → ResultNode → ResultNode) (pos : List ℕ) (a : Arg) :
    (a.mapResults f).getAt pos = (a.getAt pos).map (Arg.mapResults f) := by
  induction pos generalizing a with
  | nil => rfl
  | cons k pos ih =>
    cases a with
    | ptr t address res => exact ih res
    | union t option => exact ih option
    | struct t inner | array t inner =>
      simp only [Arg.mapResults, mapAllResults_eq, Arg.getAt, getElem?_map]
      cases inner[k]? with
      | none => rfl
      | some x => exact ih x
    | _ => rfl

lemma argAt_mapResults
    (hq : q.calls = p.calls.map (Call.mapResults f)) (hat : argAt p i pos = some b) :
    argAt q i pos = some (b.mapResults f) := by
  obtain ⟨j, rest, c, a, rfl, hc, ha, hb⟩ := argAt_eq_some.1 hat
  refine argAt_eq_some.2 ⟨j, rest, c.mapResults f, a.mapResults f, rfl, ?_, ?_, ?_⟩
  · rw [hq, getElem?_map, hc, map_some]
  · rw [Call.mapResults, mapAllResults_eq, getElem?_map, ha, map_some]
  · rw [getAt_mapResults, hb, map_some]

lemma callKeeps_mapResults (hf : Resets f)
    (cs : List Call) : Forall₂ CallKeeps cs (cs.map (Call.mapResults f)) := by
  refine forall₂_map_right_iff.2 (forall₂_same.2 fun c _ => ⟨⟨rfl, rfl, ?_⟩, ?_⟩)
  · simp only [Call.mapResults, mapAllResults_eq]
    exact forall₂_map_right_iff.2 (forall₂_same.2 fun a _ => trims_mapResults hf a)
  · simp only [Call.mapResults, mapAllResults_eq]
    exact (countAll_map fun a _ => count_mapResults f a).ge

lemma varlen_of_removable (h : sound (.array t as))
    (hr : removable t as.length) : t.varlen := by
  simp only [sound, Bool.and_eq_true, Bool.or_eq_true, decide_eq_true_eq] at h
  simp only [removable, Bool.or_eq_true, Bool.and_eq_true, beq_iff_eq, decide_eq_true_eq] at hr
  rcases h.1 with hv | ⟨-, hkn, hlen⟩
  · exact hv
  · rcases hr with ⟨-, hlt⟩ | hkn'
    · omega
    · rw [hkn] at hkn'
      cases hkn'

lemma countAll_eraseIdx (hx : l[k]? = some x) : countAll (l.eraseIdx k) + x.count = countAll l := by
  induction l generalizing k with
  | nil => simp at hx
  | cons a l ih =>
    cases k with
    | zero =>
      obtain rfl : a = x := by simpa using hx
      simp only [eraseIdx_cons_zero, countAll]
      omega
    | succ k =>
      have := ih (k := k) (by simpa using hx)
      simp only [eraseIdx_cons_succ, countAll]
      omega

lemma filter_block {L E R : List (Ref × Option Ref)}
    (h : ((L ++ E ++ R).map fst).Nodup) :
    (L ++ E ++ R).filter (fun n => n.1 ∉ E.map fst) = L ++ R := by
  simp only [map_append, append_assoc, nodup_append] at h
  obtain ⟨-, ⟨-, -, hER⟩, hL⟩ := h
  have hfL : L.filter (fun n => n.1 ∉ E.map fst) = L := by
    refine filter_eq_self.2 fun n hn => ?_
    simp only [decide_eq_true_eq]
    intro hmem
    exact hL n.1 (mem_map_of_mem hn) n.1 (mem_append_left _ hmem) rfl
  have hfR : R.filter (fun n => n.1 ∉ E.map fst) = R := by
    refine filter_eq_self.2 fun n hn => ?_
    simp only [decide_eq_true_eq]
    intro hmem
    exact hER n.1 hmem n.1 (mem_map_of_mem hn) rfl
  have hfE : E.filter (fun n => n.1 ∉ E.map fst) = [] := by
    refine filter_eq_nil_iff.2 fun n hn => ?_
    simpa using ⟨n.2, hn⟩
  rw [filter_append, filter_append, hfL, hfE, hfR, append_nil]

def callCount (p : Prog) (i : ℕ) : ℕ := (p.calls[i]?.map fun c => countAll c.args).getD 0

/-- All calls of the second program are trimmed calls of the first one. -/
def ProgTrims (p p' : Prog) : Prop := Forall₂ CallTrims p.calls p'.calls

def ProgKeeps (p p' : Prog) : Prop := Forall₂ CallKeeps p.calls p'.calls

lemma ProgKeeps.trims (h : ProgKeeps p p') : ProgTrims p p' :=
  h.imp fun _ _ h => h.toCallTrims

lemma ProgTrims.trans {r : Prog} (h : ProgTrims p q) (h' : ProgTrims q r) : ProgTrims p r :=
  forall₂_trans_mem (fun _ _ _ _ => CallTrims.trans) h h'

lemma ProgKeeps.trans {r : Prog} (h : ProgKeeps p q) (h' : ProgKeeps q r) : ProgKeeps p r :=
  forall₂_trans_mem (fun _ _ _ _ => CallKeeps.trans) h h'

lemma ProgKeeps.refl (p : Prog) : ProgKeeps p p := forall₂_same.2 fun c _ => .refl c

lemma ProgTrims.refl (p : Prog) : ProgTrims p p := (ProgKeeps.refl p).trims

lemma ProgKeeps.callCount_eq (h : ProgKeeps p p') (i : ℕ) : callCount p' i = callCount p i := by
  have hlen := h.length_eq
  unfold callCount
  by_cases hi : i < p.calls.length
  · have hi' : i < p'.calls.length := hlen ▸ hi
    have hc := forall₂_iff_get.1 h
    rw [getElem?_eq_getElem hi, getElem?_eq_getElem hi']
    exact (hc.2 i hi hi').count_eq
  · rw [getElem?_eq_none (by omega), getElem?_eq_none (by omega)]

lemma Good.removeArg (h : Good p) (hl : Linked p)
    (hat : argAt p i pos = some (.array t as)) (hx : as[k]? = some x) :
    ∃ q f, p.removeArg x = some q ∧ Resets f ∧ q.calls = p.calls.map (Call.mapResults f) ∧
      Removing q {id | id ∈ x.results.map fun y => y.2.id} := by
  obtain ⟨L, R, hnd, -⟩ := nodes_eraseElem hat hx
  have hids : (x.results.map fun y => y.2.id).Nodup := by
    have := h.nodup
    rw [hnd, map_append, map_append] at this
    have := (nodup_append.1 (nodup_append.1 this).1).2.1
    rwa [fst_argNodes] at this
  have hft : x.fits := by
    have hsn := h.sound_at hat
    simp only [Trim.sound, soundAll_eq, Bool.and_eq_true, all_eq_true] at hsn
    exact fits_of_sound (hsn.2 x (mem_of_getElem? hx))
  obtain ⟨q, hq, hrem⟩ := Removing.removeNodes (D := ∅)
    ⟨fun y x hn _ => hl y x hn, fun _ _ _ _ => by simp⟩ hids (by simp)
  obtain ⟨f, hf, hcl⟩ := Prog.removeNodes_calls hq
  refine ⟨q, f, ?_, hf, hcl, by simpa using hrem⟩
  rw [Prog.removeArg, if_pos hft, hq]

lemma Good.of_trims (h : Good p) (ht : ProgTrims p p') (hcl : Progs.cloneable [] p'.nodes)
    (hnd : (p'.nodes.map fst).Nodup) : Good p' := by
  refine ⟨hcl, hnd, fun c' hc' => ?_, fun c' hc' => ?_⟩
  · obtain ⟨c, hmem, hcc⟩ := exists_of_forall₂ ht hc'
    exact hcc.sound (h.sound c hmem)
  · obtain ⟨c, hmem, hcc⟩ := exists_of_forall₂ ht hc'
    exact hcc.resolves (h.resolves c hmem)

/-- A block of nodes that no other node uses can be left out. -/
lemma Good.cloneable_block (h : Good p) {L E R : List (Ref × Option Ref)}
    (hns : p.nodes = L ++ E ++ R) (hrem : Removing p {id | id ∈ E.map fst}) :
    Progs.cloneable [] (L ++ R) ∧ ((L ++ R).map fst).Nodup := by
  have hnd := h.nodup
  have hcl := h.cloneable
  rw [hns] at hnd hcl
  constructor
  · have hsl : Forall₂ Weakens (L ++ E ++ R) (L ++ E ++ R) :=
      forall₂_same.2 fun n _ => ⟨rfl, .inr rfl⟩
    have := cloneable_filter (E.map fst) hcl hsl fun y x hn hy => by
      exact hrem.apart y x (hns ▸ hn) hy
    rwa [filter_block hnd] at this
  · refine hnd.sublist (Sublist.map _ ?_)
    rw [append_assoc]
    exact (sublist_append_right E R).append_left L

lemma callCount_eraseElem (hat : argAt p i pos = some (.array t as))
    (hx : as[k]? = some x) : callCount (modifyProg (eraseElem k) i pos p) i < callCount p i := by
  obtain ⟨j, rest, c, a, rfl, hc, ha, hb⟩ := argAt_eq_some.1 hat
  have hall := countAll_modifyArgs (f := eraseElem k) ha hb
  have hir := countAll_eraseIdx hx
  have hpos := x.count_pos
  simp only [eraseElem, Arg.count] at hall
  simp only [callCount, modifyProg, getElem?_modify, hc, map_some, if_true,
    Option.getD_some, Option.map_eq_map]
  omega

/-- **Removing an array element** succeeds, leaves a good program and makes the call
smaller. -/
theorem Good.removeElem (h : Good p) (hl : Linked p)
    (hat : argAt p i pos = some (.array t as)) (hx : as[k]? = some x)
    (hr : removable t as.length) :
    ∃ q r f, p.removeArg x = some q ∧ q.calls = p.calls.map (Call.mapResults f) ∧
      Good (modifyProg (eraseElem k) i pos q) ∧
      Minimize.assignSizesAt i (modifyProg (eraseElem k) i pos q) = some r ∧
      Good r ∧ ProgTrims p r ∧ callCount r i < callCount p i := by
  obtain ⟨q, f, hq, hf, hcl, hrem⟩ := h.removeArg hl hat hx
  have hkp : ProgKeeps p q := by
    unfold ProgKeeps
    rw [hcl]
    exact callKeeps_mapResults hf p.calls
  have hgd : Good q := h.keeps hkp
  have hat' := argAt_mapResults hcl hat
  rw [Arg.mapResults, mapAllResults_eq] at hat'
  have hx' : (as.map (Arg.mapResults f))[k]? = some (x.mapResults f) := by
    rw [getElem?_map, hx, map_some]
  have hvar := varlen_of_removable (h.sound_at hat) hr
  -- the array without the element
  have htr : ProgTrims q (modifyProg (eraseElem k) i pos q) := by
    refine callTrims_modifyProg fun b hb => ?_
    obtain rfl := Option.some.inj (hat'.symm.trans hb)
    exact .array t (eraseIdx_sublist ..) (by simp [hvar])
      (forall₂_same.2 fun a _ => .refl a)
  obtain ⟨L, R, hns, her⟩ := nodes_eraseElem hat' hx'
  obtain ⟨hcn, hnd⟩ := hgd.cloneable_block hns
    (by rwa [fst_argNodes_mapResults hf, fst_argNodes])
  rw [← her] at hcn hnd
  have hgd' := hgd.of_trims htr hcn hnd
  obtain ⟨-, -, c, -, -, hc, -⟩ := argAt_eq_some.1 hat
  have hi : i < (modifyProg (eraseElem k) i pos q).calls.length := by
    rw [← htr.length_eq, ← hkp.length_eq]
    exact (List.getElem?_eq_some_iff.1 hc).1
  obtain ⟨r, hr⟩ := hgd'.assignSizesAt hi
  have hkp' : ProgKeeps _ r := callKeeps_assignSizesAt hr
  refine ⟨q, r, f, hq, hcl, hgd', hr, hgd'.keeps hkp', (hkp.trims.trans htr).trans hkp'.trims, ?_⟩
  rw [hkp'.callCount_eq, ← hkp.callCount_eq]
  exact callCount_eraseElem hat' hx'

/-! ### Removing calls -/

lemma fst_nodes_mapResults (hf : Resets f)
    (c : Call) : (c.mapResults f).nodes.map fst = c.nodes.map fst := by
  simp only [Call.nodes, Call.mapResults, allResults_mapAll, map_cons, map_map,
    cons.injEq, true_and]
  exact map_congr_left fun x _ => hf.id_eq x.1 x.2

lemma ids_perm (c : Call) : (c.nodes.map fst).Perm
    (((allResults c.args).map fun x => x.2.id) ++ [c.ret]) := by
  rw [Call.nodes, map_cons, map_map]
  exact (perm_append_singleton _ _).symm

/-- **Removing a call** of a copy succeeds and leaves a good program. -/
theorem Good.removeCall (h : Good p) (hl : Linked p) (hi : i < p.calls.length) :
    ∃ q f, p.removeCall i = some q ∧ Good q ∧ Resets f ∧
      q.calls = (p.calls.map (Call.mapResults f)).eraseIdx i := by
  set c := p.calls[i] with hcd
  have hc : p.calls[i]? = some c := getElem?_eq_getElem hi
  obtain ⟨L, R, hnd, -⟩ := flatMap_at Call.nodes hc
  have hnp : (c.nodes.map fst).Nodup := by
    have := h.nodup
    rw [Prog.nodes, hnd, map_append, map_append] at this
    exact (nodup_append.1 (nodup_append.1 this).1).2.1
  -- the arguments of the call go first, its return value last
  have hids := ids_perm c
  obtain ⟨q, hq, hrem⟩ := Removing.removeNodes (p := p) (D := ∅)
    ⟨fun y x hn _ => hl y x hn, fun _ _ _ _ => by simp⟩ (hids.nodup_iff.1 hnp) (by simp)
  obtain ⟨f, hf, hcl⟩ := Prog.removeNodes_calls hq
  have hgd : Good q := h.keeps (hcl ▸ callKeeps_mapResults hf p.calls)
  have hc' : q.calls[i]? = some (c.mapResults f) := by
    rw [hcl, getElem?_map, hc, map_some]
  obtain ⟨L', R', hnd', her, -⟩ := flatMap_at Call.nodes hc'
  have hset : (∅ ∪ {id | id ∈ ((allResults c.args).map fun x => x.2.id) ++ [c.ret]} : Set Ref) =
      {id | id ∈ (c.mapResults f).nodes.map fst} := by
    ext id
    rw [fst_nodes_mapResults hf]
    simpa using hids.mem_iff.symm
  obtain ⟨hcn, hnp'⟩ := hgd.cloneable_block hnd' (hset ▸ hrem)
  refine ⟨{ q with calls := q.calls.eraseIdx i }, f, ?_, ⟨?_, ?_, ?_, ?_⟩, hf, by rw [hcl]⟩
  · have hfit : allFit c.args := allFit_of_sound (h.sound c (getElem_mem hi))
    rw [Prog.removeNodes_append] at hq
    obtain ⟨q', hq', hq⟩ := Option.bind_eq_some_iff.1 hq
    rw [Prog.removeNodes] at hq
    obtain ⟨q'', hq'', hq⟩ := Option.bind_eq_some_iff.1 hq
    cases hq
    simp only [Prog.removeCall, hc, Prog.removeArgs_eq p hfit, hq', hq'', Option.bind_some,
      map_some]
  · rwa [Prog.nodes, her]
  · rwa [Prog.nodes, her]
  · exact fun d hd => hgd.sound d (mem_of_mem_eraseIdx hd)
  · exact fun d hd => hgd.resolves d (mem_of_mem_eraseIdx hd)

lemma Good.clone (h : Good p) : ∃ q, p.clone = some q ∧ q.calls = p.calls ∧ Good q ∧ Linked q := by
  have hcl : p.clone = some ⟨p.calls, links p.nodes⟩ := by rw [Prog.clone, if_pos h.cloneable]
  refine ⟨_, hcl, rfl, ⟨h.cloneable, h.nodup, h.sound, h.resolves⟩, fun y x hn => ?_⟩
  exact mem_links.2 hn

end Razzer.Minimize
