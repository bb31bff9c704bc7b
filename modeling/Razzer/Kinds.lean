import Razzer.Restarts

/-!
What the walks over a call meet.

A call is stable if minimisation cannot change it without being told to: its length fields are
right if there is a buffer to be made shorter, and no array element that can be removed comes
after a buffer. Trimming a stable call leaves a stable call.
-/

namespace Razzer.Minimize

open Args Progs Sizes Trim List Option

def Kind.isBuffer : Kind → Bool
  | .buffer _ => true
  | _ => false

mutual
/-- What a walk meets below an argument, in its order. -/
def kinds : Arg → List Kind
  | .struct _ inner => allKinds inner
  | .union _ option => kinds option
  | .ptr _ _ res => kinds res
  | .array t inner => elemKinds (removable t inner.length) inner
  | .data t bytes _ => [if blob t then .buffer (decide (t.rangeBegin < bytes.length)) else .other]
  | _ => [.other]

def allKinds : List Arg → List Kind
  | [] => []
  | a :: as => kinds a ++ allKinds as

def elemKinds (canRemove : Bool) : List Arg → List Kind
  | [] => []
  | a :: as => (if canRemove then .elem else .other) :: (kinds a ++ elemKinds canRemove as)
end

structure Stable (crash : Bool) (c : Call) : Prop where
  settled : Kind.buffer true ∈ allKinds c.args → settle c.args = c.args
  order : crash = true ∨ (allKinds c.args).Pairwise fun k k' => k.isBuffer = true → k' ≠ .elem

/-! ### The kinds of the visits -/

lemma getAt_append (pos pos' : List ℕ) (a : Arg) :
    a.getAt (pos ++ pos') = (a.getAt pos).bind (Arg.getAt pos') := by
  induction pos generalizing a with
  | nil => rfl
  | cons k pos ih =>
    cases a with
    | ptr t address res => exact ih res
    | union t option => exact ih option
    | struct t inner | array t inner =>
      simp only [cons_append, Arg.getAt, bind_assoc]
      exact Option.bind_congr fun x _ => ih x
    | _ => rfl

variable {a : Arg} {p q : Prog} {l : List Kind} {xs ys : List Arg}

lemma argAt_snoc {i : ℕ} {pos : List ℕ} (hat : argAt p i pos = some a) (k : ℕ) :
    argAt p i (pos ++ [k]) = a.getAt [k] := by
  obtain ⟨j, rest, c, b, rfl, hc, hb, ha⟩ := argAt_eq_some.1 hat
  simp only [cons_append, argAt, hc, hb, bind_some, getAt_append, ha]

lemma forall_places_cons {P : ℕ → Arg → Prop} {k : ℕ} {l : List Arg}
    (h : ∀ n b, (a :: l)[n]? = some b → P (k + n) b) :
    P k a ∧ ∀ n b, l[n]? = some b → P (k + 1 + n) b := by
  refine ⟨h 0 a rfl, fun n b hb => ?_⟩
  have := h (n + 1) b (by simpa using hb)
  rwa [show k + (n + 1) = k + 1 + n by omega] at this

variable {c c' : Call} {l' l1 m : List Kind} {k' : Kind} {zs : List Arg} {n n' : ℕ}
  {g : Arg → Option Arg} {b : Arg}

section Visits

variable {p : Prog} {i : ℕ} {pos : List ℕ} {path : String} {l : List Arg} {k : ℕ}

lemma map_kindAt_fields
    (hmem : ∀ a ∈ l, ∀ pos path, argAt p i pos = some a → (visits pos path a).map (kindAt p i) =
      kinds a) (hat : ∀ n a, l[n]? = some a → argAt p i (pos ++ [k + n]) = some a) :
    (fieldVisits pos path k l).map (kindAt p i) = allKinds l := by
  induction l generalizing k with
  | nil => rfl
  | cons a l ih =>
    rw [forall_mem_cons] at hmem
    obtain ⟨ha, hl⟩ := forall_places_cons (P := fun n b => argAt p i (pos ++ [n]) = some b) hat
    rw [fieldVisits, map_append, hmem.1 _ _ ha, ih hmem.2 hl, allKinds]

lemma map_kindAt_elems {t : ArrayType} {as : List Arg}
    (har : argAt p i pos = some (.array t as))
    (hmem : ∀ a ∈ l, ∀ pos path, argAt p i pos = some a → (visits pos path a).map (kindAt p i) =
      kinds a) (hat : ∀ n a, l[n]? = some a → as[k + n]? = some a) :
    (elemVisits pos path k l).map (kindAt p i) = elemKinds (removable t as.length) l := by
  induction l generalizing k with
  | nil => rfl
  | cons a l ih =>
    rw [forall_mem_cons] at hmem
    obtain ⟨ha, hl⟩ := forall_places_cons (P := fun n b => as[n]? = some b) hat
    have hk : k < as.length := (List.getElem?_eq_some_iff.1 ha).1
    have hir : argAt p i (pos ++ [k]) = some a := by
      rw [argAt_snoc har, Arg.getAt, ha]
      rfl
    rw [elemVisits, map_cons, map_append, hmem.1 _ _ hir, ih hmem.2 hl, elemKinds]
    congr 1
    simp only [kindAt, har, hk, true_and]

lemma map_kindAt_visits (hat : argAt p i pos = some a) (path : String) :
    (visits pos path a).map (kindAt p i) = kinds a := by
  induction a generalizing pos path with
  | struct t inner ih =>
    rw [visits, kinds]
    refine map_kindAt_fields (fun b hb pos path hat => ih b hb hat path) fun n b hb => ?_
    rw [argAt_snoc hat, Arg.getAt, Nat.zero_add, hb]
    rfl
  | array t inner ih =>
    rw [visits, kinds]
    exact map_kindAt_elems hat (fun b hb pos path hat => ih b hb hat path) fun n b hb => by
      rwa [Nat.zero_add]
  | union t option ih | ptr t address res ih =>
    rw [visits, kinds]
    exact ih (by rw [argAt_snoc hat]; rfl) _
  | _ => simp only [visits, map_cons, map_nil, kindAt, hat, kinds]

lemma map_kindAt_args (hc : p.calls[i]? = some c)
    (hat : ∀ n a, l[n]? = some a → c.args[k + n]? = some a) :
    (argVisits k l).map (kindAt p i) = allKinds l := by
  induction l generalizing k with
  | nil => rfl
  | cons a l ih =>
    obtain ⟨ha, hl⟩ := forall_places_cons (P := fun n b => c.args[n]? = some b) hat
    have hat' : argAt p i [k] = some a := argAt_eq_some.2 ⟨k, [], c, a, rfl, hc, ha, rfl⟩
    rw [argVisits, map_append, map_kindAt_visits hat', ih hl, allKinds]

/-- **The visits of a call meet its kinds.** -/
theorem map_kindAt_callVisits (hc : p.calls[i]? = some c) :
    (callVisits p i).map (kindAt p i) = allKinds c.args := by
  rw [callVisits, hc, map_some, getD_some]
  exact map_kindAt_args hc fun n a ha => by rwa [Nat.zero_add]

end Visits

/-! ### Kinds and trimming -/

/-- What trimming makes of a kind. -/
inductive Fades : Kind → Kind → Prop
  | buffer {long long' : Bool} : (long' = true → long = true) →
      Fades (.buffer long) (.buffer long')
  | kept : Fades .elem .elem
  | fixed : Fades .elem .other
  | other : Fades .other .other

lemma Fades.refl (k : Kind) : Fades k k := by
  cases k with
  | buffer long => exact .buffer id
  | elem => exact .kept
  | other => exact .other

def FadeAll (l l' : List Kind) : Prop := ∃ m, m.Sublist l ∧ Forall₂ Fades m l'

lemma FadeAll.append {l1' l2 l2' : List Kind} (h1 : FadeAll l1 l1') (h2 : FadeAll l2 l2') :
    FadeAll (l1 ++ l2) (l1' ++ l2') := by
  obtain ⟨m1, hs1, hf1⟩ := h1
  obtain ⟨m2, hs2, hf2⟩ := h2
  exact ⟨m1 ++ m2, hs1.append hs2, rel_append hf1 hf2⟩

lemma FadeAll.cons {k : Kind} (hk : Fades k k') (h : FadeAll l l') :
    FadeAll (k :: l) (k' :: l') := by
  obtain ⟨m, hs, hf⟩ := h
  exact ⟨k :: m, hs.cons_cons k, .cons hk hf⟩

lemma FadeAll.of_sublist (hs : l1.Sublist l) (h : FadeAll l1 l') : FadeAll l l' := by
  obtain ⟨m, hs', hf⟩ := h
  exact ⟨m, hs'.trans hs, hf⟩

variable {k : Kind}

lemma FadeAll.singleton (h : Fades k k') : FadeAll [k] [k'] :=
  ⟨[k], Sublist.refl _, .cons h .nil⟩

lemma fadeAll_allKinds (h : Forall₂ (fun a b => FadeAll (kinds a) (kinds b)) xs ys) :
    FadeAll (allKinds xs) (allKinds ys) := by
  induction h with
  | nil => exact ⟨[], .slnil, .nil⟩
  | cons hab _ ih => exact hab.append ih

lemma fadeAll_elemKinds {r r' : Bool} (hr : r' → r)
    (h : Forall₂ (fun a b => FadeAll (kinds a) (kinds b)) xs ys) :
    FadeAll (elemKinds r xs) (elemKinds r' ys) := by
  have hfd : Fades (if r then .elem else .other) (if r' then .elem else .other) := by
    cases r' with
    | true =>
      rw [hr rfl]
      exact .kept
    | false => cases r <;> first | exact .fixed | exact .other
  induction h with
  | nil => exact ⟨[], .slnil, .nil⟩
  | cons hab _ ih => exact .cons hfd (hab.append ih)

lemma elemKinds_sublist (r : Bool) (h : zs.Sublist xs) :
    (elemKinds r zs).Sublist (elemKinds r xs) := by
  induction h with
  | slnil => exact .slnil
  | cons a _ ih => exact (ih.trans (sublist_append_right _ _)).cons _
  | cons_cons a _ ih => exact (ih.append_left _).cons_cons _

lemma removable_mono {t : ArrayType} (hn : n' ≤ n) (h : removable t n') : removable t n := by
  simp only [removable, Bool.or_eq_true, Bool.and_eq_true, decide_eq_true_eq] at h ⊢
  rcases h with ⟨hk, hlt⟩ | hk
  · exact .inl ⟨hk, by omega⟩
  · exact .inr hk

/-- **Trimming meets nothing new.** -/
theorem Trims.fadeAll (h : Trims a b) : FadeAll (kinds a) (kinds b) := by
  induction a generalizing b with
  | struct t inner ih =>
    cases h with
    | struct _ hxs => exact fadeAll_allKinds (forall₂_of_mem (fun a ha b h => ih a ha h) hxs)
  | array t inner ih =>
    cases h with
    | @array _ _ zs ys hsub _ hzs =>
      have hall := forall₂_of_mem (fun a ha b h => ih a (hsub.subset ha) h) hzs
      rw [kinds, kinds]
      refine .of_sublist (elemKinds_sublist _ hsub) (fadeAll_elemKinds (removable_mono ?_) hall)
      rw [← hzs.length_eq]
      exact hsub.length_le
  | union t option ih =>
    cases h with
    | union _ h =>
      rw [kinds, kinds]
      exact ih h
  | ptr t address res ih =>
    cases h with
    | ptr _ _ h =>
      rw [kinds, kinds]
      exact ih h
  | data t bytes outSize =>
    cases h with
    | data _ _ hle _ =>
      rw [kinds, kinds]
      refine .singleton ?_
      cases blob t with
      | true => exact .buffer fun hlt => by simp only [decide_eq_true_eq] at hlt ⊢; omega
      | false => exact .refl _
  | _ =>
    cases h
    exact .singleton (.refl _)

lemma CallTrims.fadeAll (h : CallTrims c c') : FadeAll (allKinds c.args) (allKinds c'.args) :=
  fadeAll_allKinds (h.args.imp fun _ _ h => Trims.fadeAll h)

lemma pairwise_of_fades (h : Forall₂ Fades m l)
    (hm : m.Pairwise fun k k' => k.isBuffer = true → k' ≠ .elem) :
    l.Pairwise fun k k' => k.isBuffer = true → k' ≠ .elem := by
  induction h with
  | nil => exact .nil
  | @cons k k' m l hk hl ih =>
    rw [pairwise_cons] at hm ⊢
    refine ⟨fun j' hj' => ?_, ih hm.2⟩
    obtain ⟨j, hj, hjj'⟩ := exists_of_forall₂ hl hj'
    have hfr := hm.1 j hj
    cases hk with
    | buffer _ =>
      have hne := hfr rfl
      cases hjj' <;> simp_all
    | _ => simp [Kind.isBuffer]

/-- **Stable calls stay stable.** -/
theorem Stable.step {crash : Bool} (h : Stable crash c) (ht : CallTrims c c')
    (hcl : settle c.args = c.args → settle c'.args = c'.args) : Stable crash c' := by
  obtain ⟨m, hsub, hfd⟩ := ht.fadeAll
  refine ⟨fun hln => hcl (h.settled (hsub.subset ?_)), h.order.imp_right fun hor => ?_⟩
  · obtain ⟨k, hk, hfa⟩ := exists_of_forall₂ hfd hln
    cases hfa with
    | buffer hln' => rwa [hln' rfl] at hk
  · exact pairwise_of_fades hfd (hor.sublist hsub)

def StableAt (crash : Bool) (p : Prog) (i : ℕ) : Prop :=
  ∀ c, p.calls[i]? = some c → Stable crash c

lemma StableAt.step {crash : Bool} {i : ℕ} (h : StableAt crash p i) (ht : ProgTrims p q)
    (hcl : Calms p q) : StableAt crash q i := by
  intro c' hc'
  obtain ⟨hi', rfl⟩ := List.getElem?_eq_some_iff.1 hc'
  have hi : i < p.calls.length := ht.length_eq ▸ hi'
  exact (h _ (getElem?_eq_getElem hi)).step ((forall₂_iff_get.1 ht).2 i hi hi')
    ((forall₂_iff_get.1 hcl).2 i hi hi')

/-! ### Kinds and walks -/

lemma rel_bind_getElem? (h : Forall₂ Keeps xs ys)
    (hg : ∀ a b, Keeps a b → Option.Rel Keeps (g a) (g b)) (k : ℕ) :
    Option.Rel Keeps (xs[k]?.bind g) (ys[k]?.bind g) := by
  have hlen := h.length_eq
  by_cases hk : k < xs.length
  · have hk' : k < ys.length := by omega
    rw [getElem?_eq_getElem hk, getElem?_eq_getElem hk']
    exact hg _ _ ((forall₂_iff_get.1 h).2 k hk hk')
  · rw [getElem?_eq_none (by omega), getElem?_eq_none (by omega)]
    exact .none

lemma rel_getAt (h : Keeps a b) (pos : List ℕ) : Option.Rel Keeps (a.getAt pos) (b.getAt pos) := by
  induction pos generalizing a b with
  | nil => exact .some h
  | cons k pos ih =>
    obtain ⟨ht, hc⟩ := h
    cases ht with
    | ptr t address h | union t h => exact ih ⟨h, Nat.le_of_succ_le_succ hc⟩
    | struct t hxs =>
      exact rel_bind_getElem? (forall₂_count hxs (Nat.le_of_succ_le_succ hc)) (fun _ _ => ih) k
    | array t hsub _ hzs =>
      have hall := forall₂_of_array hsub hzs (Nat.le_of_succ_le_succ hc)
      exact rel_bind_getElem? hall (fun _ _ => ih) k
    | _ => exact .none

lemma ProgKeeps.rel_argAt (h : ProgKeeps p q) (i : ℕ) (pos : List ℕ) :
    Option.Rel Keeps (argAt p i pos) (argAt q i pos) := by
  cases pos with
  | nil => exact .none
  | cons j pos =>
    have hlen := h.length_eq
    by_cases hi : i < p.calls.length
    · have hi' : i < q.calls.length := by omega
      have hc := (forall₂_iff_get.1 h).2 i hi hi'
      simp only [argAt, getElem?_eq_getElem hi, getElem?_eq_getElem hi', bind_some]
      exact rel_bind_getElem? (forall₂_count hc.args hc.count_le) (fun _ _ h => rel_getAt h pos) j
    · simp only [argAt]
      rw [getElem?_eq_none (by omega), getElem?_eq_none (by omega)]
      exact .none

/-- While all inner arguments are kept, a visit meets the same kind, though a buffer may have
become short. -/
lemma ProgKeeps.kindAt_cases (h : ProgKeeps p q) (i : ℕ) (v : Visit) :
    kindAt q i v = kindAt p i v ∨ ∃ long, kindAt p i v = .buffer long ∧
      kindAt q i v = .buffer false := by
  cases v with
  | elem pos path k =>
    have hrel := h.rel_argAt i pos
    simp only [kindAt]
    generalize argAt p i pos = x at hrel ⊢
    generalize argAt q i pos = y at hrel ⊢
    left
    cases hrel with
    | none => rfl
    | some hk =>
      obtain ⟨ht, hc⟩ := hk
      cases ht with
      | array t hsub _ hzs =>
        have hlen := (forall₂_of_array hsub hzs (Nat.le_of_succ_le_succ hc)).length_eq
        simp only [hlen]
      | _ => rfl
  | leaf pos path =>
    have hrel := h.rel_argAt i pos
    simp only [kindAt]
    generalize argAt p i pos = x at hrel ⊢
    generalize argAt q i pos = y at hrel ⊢
    cases hrel with
    | none => exact .inl rfl
    | some hk =>
      obtain ⟨ht, hc⟩ := hk
      cases ht with
      | @data t bytes bytes' _ hle _ =>
        cases hb : blob t with
        | false => exact .inl (by simp [hb])
        | true =>
          simp only [hb, if_true]
          by_cases hln : t.rangeBegin < bytes'.length
          · have hln' : t.rangeBegin < bytes.length := by omega
            exact .inl (by simp only [hln, hln'])
          · exact .inr ⟨_, rfl, by simp only [hln, decide_false]⟩
      | _ => exact .inl rfl

end Razzer.Minimize
