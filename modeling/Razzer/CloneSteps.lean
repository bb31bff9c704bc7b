import Razzer.CloneHeap
import Razzer.UseLinks

/-!
The parts of `Clone` one after the other.

`clone` goes through the arguments in the order in which `newargs` is filled. What it has copied so
far is the invariant: the cells that were there before are as they were, the table leads from every
argument that can be used to its copy, and a copy has as users the copies of the users that were
copied. What is copied later is put behind it, and only adds users.
-/

namespace Razzer.CloneHeap

open Args Progs Minimize Decoding Heaps UseLinks List Prod Option

variable {α β : Type}

/-! ### Running -/

def Does (p : M α) (s : Mem) (a : α) (s' : Mem) : Prop := p s = .ok (a, s')

def Panics (p : M α) (s : Mem) : Prop := p s = .error .panic

variable {p : M α} {s s' : Mem} {a n : ℕ} {o : Obj} {heap : List Obj}

lemma Does.bind {f : α → M β} {s'' : Mem} {a : α} {b : β} (h : Does p s a s')
    (h' : Does (f a) s' b s'') : Does (p >>= f) s b s'' := by
  show (StateT.bind p f) s = _
  rw [StateT.bind, h]
  exact h'

lemma Does.panics {f : α → M β} {a : α} (h : Does p s a s') (h' : Panics (f a) s') :
    Panics (p >>= f) s := by
  show (StateT.bind p f) s = _
  rw [StateT.bind, h]
  exact h'

lemma Panics.bind (h : Panics p s) (f : α → M β) : Panics (p >>= f) s := by
  show (StateT.bind p f) s = _
  rw [StateT.bind, h]
  rfl

lemma does_pure (a : α) (s : Mem) : Does (pure a : M α) s a s := rfl

lemma does_load (h : s.heap[a]? = some o) : Does (load a) s o s := by
  rw [Does, load, h]

lemma does_alloc (o : Obj) (s : Mem) :
    Does (alloc o) s s.heap.length ⟨s.heap ++ [o], s.newargs⟩ := rfl

lemma does_store (a : ℕ) (o : Obj) (s : Mem) :
    Does (store a o) s () ⟨s.heap.set a o, s.newargs⟩ := rfl

/-! ### Cells -/

def Clean (n : ℕ) (o : Obj) : Prop := ∀ b ∈ o.refs, n ≤ b

def Obj.plain : Obj → Bool
  | .result .. | .ret _ | .users _ => false
  | _ => true

lemma Obj.shape_of_plain (h : o.plain) : o.shape = o := by
  cases o <;> first | rfl | cases h

lemma Obj.used_of_plain (h : o.plain) : o.used = none := by
  cases o <;> first | rfl | cases h

lemma Obj.plain_shape (o : Obj) : o.shape.plain = o.plain := by
  cases o <;> rfl

lemma ShapeAt.eq_of_plain (h : ShapeAt heap a o) (ho : o.plain) : heap[a]? = some o := by
  obtain ⟨o', ho', rfl⟩ := h
  rw [Obj.plain_shape] at ho
  rwa [Obj.shape_of_plain ho]

lemma shapeAt_of_plain (h : heap[a]? = some o) (ho : o.plain) : ShapeAt heap a o :=
  ⟨o, h, Obj.shape_of_plain ho⟩

def KeepsFrom (lo : ℕ) (heap heap' : List Obj) : Prop :=
  ∀ b o, lo ≤ b → ShapeAt heap b o → ShapeAt heap' b o

lemma keepsFrom_extend {heap' : List Obj} (h : heap <+: heap') (lo : ℕ) :
    KeepsFrom lo heap heap' := by
  rintro b o - ⟨o', ho', rfl⟩
  exact ⟨o', getElem?_extend h ho', rfl⟩

section Transport

variable {heap' : List Obj} {lo lo' : ℕ} {as : List Addr}

lemma PtrsAt.mono (h : KeepsFrom lo heap heap') (hle : lo' ≤ lo) {sl : Slice}
    (hp : PtrsAt heap lo sl as) : PtrsAt heap' lo' sl as := by
  obtain ⟨hlo, array, ho, rfl⟩ := hp
  exact ⟨hle.trans hlo, array, h _ _ hlo ho, rfl⟩

lemma BytesAt.mono (h : KeepsFrom lo heap heap') (hle : lo' ≤ lo) {sl : Slice} {bs : List UInt8}
    (hp : BytesAt heap lo sl bs) : BytesAt heap' lo' sl bs := by
  obtain ⟨hlo, array, ho, rfl⟩ := hp
  exact ⟨hle.trans hlo, array, h _ _ hlo ho, rfl⟩

variable {xs : List Arg}

lemma argsAt_mono (hxs : ∀ x ∈ xs, ∀ a, ArgAt heap lo x a → ArgAt heap' lo' x a)
    (h : ArgsAt heap lo xs as) : ArgsAt heap' lo' xs as := by
  induction xs generalizing as with
  | nil =>
    cases as with
    | nil => trivial
    | cons a as => exact h.elim
  | cons x xs ih =>
    cases as with
    | nil => exact h.elim
    | cons a as =>
      rw [forall_mem_cons] at hxs
      exact ⟨hxs.1 a h.1, ih hxs.2 h.2⟩

lemma ArgAt.mono (h : KeepsFrom lo heap heap') (hle : lo' ≤ lo) {x : Arg}
    (hx : ArgAt heap lo x a) : ArgAt heap' lo' x a := by
  induction x generalizing a with
  | const t val | null t hopt | vma t address vmaSize => exact ⟨hle.trans hx.1, h _ _ hx.1 hx.2⟩
  | ptr t address res ih | union t option ih =>
    obtain ⟨hlo, r, ho, hr⟩ := hx
    exact ⟨hle.trans hlo, r, h _ _ hlo ho, ih hr⟩
  | data t bytes outSize =>
    obtain ⟨hlo, sl, ho, hb⟩ := hx
    exact ⟨hle.trans hlo, sl, h _ _ hlo ho, hb.mono h hle⟩
  | struct t inner ih | array t inner ih =>
    obtain ⟨hlo, sl, as, ho, hp, has⟩ := hx
    exact ⟨hle.trans hlo, sl, as, h _ _ hlo ho, hp.mono h hle,
      argsAt_mono (fun x hx a ha => ih x hx ha) has⟩
  | result t n => exact ⟨hle.trans hx.1, hx.2.1, h _ _ hx.1 hx.2.2⟩

lemma ArgsAt.mono (h : KeepsFrom lo heap heap') (hle : lo' ≤ lo)
    (hx : ArgsAt heap lo xs as) : ArgsAt heap' lo' xs as :=
  argsAt_mono (fun _ _ _ ha => ha.mono h hle) hx

lemma CallAt.mono (h : KeepsFrom lo heap heap') (hle : lo' ≤ lo) {c : Call}
    (hc : CallAt heap lo c a) : CallAt heap' lo' c a := by
  obtain ⟨hlo, ⟨sl, as, ho, hp, has⟩, hret, hro⟩ := hc
  exact ⟨hle.trans hlo, ⟨sl, as, h _ _ hlo ho, hp.mono h hle, has.mono h hle⟩,
    hle.trans hret, h _ _ hret hro⟩

lemma CallsAt.mono (h : KeepsFrom lo heap heap') (hle : lo' ≤ lo) {cs : List Call} {root : ℕ}
    (hc : CallsAt heap lo cs root) : CallsAt heap' lo' cs root := by
  obtain ⟨hlo, sl, as, ho, hp, hcs⟩ := hc
  exact ⟨hle.trans hlo, sl, as, h _ _ hlo ho, hp.mono h hle, hcs.imp fun _ _ hc => hc.mono h hle⟩

end Transport

lemma ProgAt.extend {heap' : List Obj} (h : heap <+: heap') {root : ℕ} {p : Prog}
    (hp : ProgAt heap root p) : ProgAt heap' root p := by
  refine ⟨hp.calls.mono (keepsFrom_extend h 0) le_rfl, fun n hn => ?_, hp.inside⟩
  obtain ⟨us, ⟨o, ho, hus⟩, huss⟩ := hp.users n hn
  refine ⟨us, ⟨o, getElem?_extend h ho, ?_⟩, huss⟩
  rcases hus with hnn | ⟨u, hu, hcl⟩
  · exact .inl hnn
  · exact .inr ⟨u, hu, getElem?_extend h hcl⟩

/-! ### What a part of the copying does -/

/-- Cells are added, which point to no cell before `n`; the others keep their shapes. -/
structure Grows (n : ℕ) (s s' : Mem) : Prop where
  len : s.heap.length ≤ s'.heap.length
  kept : ∀ (a : ℕ) (o : Obj), s.heap[a]? = some o →
    ∃ o', s'.heap[a]? = some o' ∧ o'.shape = o.shape ∧ (Clean n o → Clean n o')
  fresh : ∀ (a : ℕ) (o : Obj), s.heap.length ≤ a → s'.heap[a]? = some o → Clean n o
  newargs : s.newargs <:+ s'.newargs

lemma Grows.refl (n : ℕ) (s : Mem) : Grows n s s := by
  refine ⟨le_rfl, fun a o ho => ⟨o, ho, rfl, id⟩, fun a o ha ho => ?_, suffix_rfl⟩
  exact absurd (List.getElem?_eq_some_iff.1 ho).1 (by omega)

lemma Grows.trans {s'' : Mem} (h : Grows n s s') (h' : Grows n s' s'') : Grows n s s'' := by
  refine ⟨h.len.trans h'.len, fun a o ho => ?_, fun a o ha ho => ?_, h.newargs.trans h'.newargs⟩
  · obtain ⟨o', ho', hsh, hcl⟩ := h.kept a o ho
    obtain ⟨o'', ho'', hsh', hcl'⟩ := h'.kept a o' ho'
    exact ⟨o'', ho'', hsh'.trans hsh, hcl' ∘ hcl⟩
  · by_cases hlt : a < s'.heap.length
    · obtain ⟨o', ho'⟩ : ∃ o', s'.heap[a]? = some o' := ⟨_, getElem?_eq_getElem hlt⟩
      obtain ⟨o'', ho'', -, hcl⟩ := h'.kept a o' ho'
      cases ho.symm.trans ho''
      exact hcl (h.fresh a o' ha ho')
    · exact h'.fresh a o (not_lt.1 hlt) ho

lemma Grows.keepsFrom (h : Grows n s s') (lo : ℕ) : KeepsFrom lo s.heap s'.heap := by
  rintro b o - ⟨o', ho', rfl⟩
  obtain ⟨o'', ho'', hsh, -⟩ := h.kept b o' ho'
  exact ⟨o'', ho'', hsh⟩

lemma grows_alloc (ho : Clean n o) (s : Mem) : Grows n s ⟨s.heap ++ [o], s.newargs⟩ := by
  refine ⟨by simp, fun a o' ho' => ⟨o', ?_, rfl, id⟩, fun a o' ha ho' => ?_, suffix_rfl⟩
  · exact getElem?_extend (prefix_append _ _) ho'
  · simp only [getElem?_append_right ha, getElem?_singleton] at ho'
    split_ifs at ho'
    cases ho'
    exact ho

lemma Grows.around {o1 : Obj} (h : Grows n ⟨s.heap ++ [o], s.newargs⟩ s') (ho1 : Clean n o1) :
    Grows n s ⟨s'.heap.set s.heap.length o1, s'.newargs⟩ := by
  have hlen : s.heap.length + 1 ≤ s'.heap.length := by simpa using h.len
  refine ⟨by simp only [length_set]; omega, fun a o' ho' => ?_, fun a o' ha ho' => ?_, h.newargs⟩
  · have hlt := (List.getElem?_eq_some_iff.1 ho').1
    obtain ⟨o'', ho'', hrs⟩ := h.kept a o' (getElem?_extend (prefix_append _ _) ho')
    refine ⟨o'', ?_, hrs⟩
    rwa [getElem?_set_ne (by omega)]
  · simp only [getElem?_set] at ho'
    split_ifs at ho' with heq hlt
    · cases ho'
      exact ho1
    · exact h.fresh a o' (by simp only [length_append, length_singleton]; omega) ho'

def UsesAt (heap : List Obj) (a u : ℕ) : Prop :=
  ∃ o, heap[a]? = some o ∧ o.used = some (some u)

/-- What has been copied: `done` are the arguments that can be used, with what they use. -/
structure Inv (old : List Obj) (done : List (Ref × Option Ref)) (s : Mem) : Prop where
  kept : old <+: s.heap
  nodup : (done.map fst).Nodup
  keys : s.newargs.map fst = (done.map fst).reverse
  values : (s.newargs.map snd).Nodup
  fresh : ∀ q ∈ s.newargs, old.length ≤ q.2
  owner : ∀ q ∈ s.newargs, ∀ q' ∈ s.newargs, ∀ u, UsesAt s.heap q.2 u → UsesAt s.heap q'.2 u →
    q = q'
  maps : ∀ q ∈ s.newargs, ∀ u, UsesAt s.heap q.2 u → old.length ≤ u
  users : ∀ q ∈ s.newargs, ∃ us, UsersAt s.heap q.2 us ∧
    ∀ y', y' ∈ us ↔ ∃ y, (y, y') ∈ s.newargs ∧ (y, some q.1) ∈ done
  refs : ∀ y x, (y, some x) ∈ done → x ∈ s.newargs.map fst

variable {old : List Obj} {done : List (Ref × Option Ref)}

variable {q q' : Addr × Addr} {us : Finset Addr} {uses : Option Addr} {R : Obj}
  {Q' : β → Mem → Prop}

lemma Inv.cell (h : Inv old done s) (hq : q ∈ s.newargs) :
    ∃ o uses, s.heap[q.2]? = some o ∧ o.used = some uses ∧
      ∀ u ∈ uses, ∃ us, s.heap[u]? = some (.users us) := by
  obtain ⟨us, ⟨o, ho, hus⟩, -⟩ := h.users q hq
  rcases hus with ⟨hud, -⟩ | ⟨u, hud, hu⟩
  · exact ⟨o, none, ho, hud, by simp⟩
  · exact ⟨o, some u, ho, hud, by simp [hu]⟩

lemma Inv.of_cells (h : Inv old done s) (hkp : old <+: heap)
    (hcl : ∀ (a : ℕ) (o : Obj), s.heap[a]? = some o → o.plain = false → heap[a]? = some o) :
    Inv old done ⟨heap, s.newargs⟩ := by
  -- the cell of a copy, and whether it has a map
  have hsm : ∀ q ∈ s.newargs, heap[q.2]? = s.heap[q.2]? := by
    intro q hq
    obtain ⟨o, uses, ho, hud, -⟩ := h.cell hq
    rw [ho]
    refine hcl _ _ ho ?_
    by_contra hpl
    rw [Obj.used_of_plain (by simpa using hpl)] at hud
    cases hud
  have huss : ∀ q ∈ s.newargs, ∀ u, UsesAt heap q.2 u ↔ UsesAt s.heap q.2 u := by
    intro q hq u
    unfold UsesAt
    rw [hsm q hq]
  refine ⟨hkp, h.nodup, h.keys, h.values, h.fresh, fun q hq q' hq' u hu hu' => ?_,
    fun q hq u hu => ?_, fun q hq => ?_, h.refs⟩
  · exact h.owner q hq q' hq' u ((huss q hq u).1 hu) ((huss q' hq' u).1 hu')
  · exact h.maps q hq u ((huss q hq u).1 hu)
  · obtain ⟨us, ⟨o, ho, hus⟩, hmem⟩ := h.users q hq
    refine ⟨us, ⟨o, (hsm q hq).trans ho, ?_⟩, hmem⟩
    rcases hus with hnn | ⟨u, hud, hu⟩
    · exact .inl hnn
    · exact .inr ⟨u, hud, hcl _ _ hu rfl⟩

lemma Inv.alloc (h : Inv old done s) (o : Obj) : Inv old done ⟨s.heap ++ [o], s.newargs⟩ :=
  h.of_cells (h.kept.trans (prefix_append _ _))
    fun _ _ ho _ => getElem?_extend (prefix_append _ _) ho

lemma Inv.set (h : Inv old done s) {o1 : Obj} (ha : old.length ≤ a)
    (ho : s.heap[a]? = some o) (hpl : o.plain) :
    Inv old done ⟨s.heap.set a o1, s.newargs⟩ := by
  refine h.of_cells (prefix_set h.kept ha o1) fun b o' ho' hpl' => ?_
  have hne : a ≠ b := by
    rintro rfl
    cases ho.symm.trans ho'
    rw [hpl] at hpl'
    cases hpl'
  rwa [getElem?_set_ne hne]

/-! ### An argument that can be used -/

section Register

lemma Inv.keys_nodup (h : Inv old done s) : (s.newargs.map fst).Nodup := by
  rw [h.keys]
  exact nodup_reverse.2 h.nodup

variable {q : Addr × Addr} {u : ℕ}

lemma Inv.eq_of_fst (h : Inv old done s) (hq : q ∈ s.newargs) (hq' : q' ∈ s.newargs)
    (heq : q.1 = q'.1) : q = q' :=
  inj_on_of_nodup_map h.keys_nodup hq hq' heq

lemma Inv.uses_lt (h : Inv old done s) (hq : q ∈ s.newargs) (hu : UsesAt s.heap q.2 u) :
    (∃ us, s.heap[u]? = some (.users us)) ∧ u < s.heap.length ∧ ∀ q' ∈ s.newargs, q'.2 ≠ u := by
  obtain ⟨o, uses, ho, hud, hmap⟩ := h.cell hq
  obtain ⟨o', ho', hud'⟩ := hu
  cases ho.symm.trans ho'
  obtain rfl : uses = some u := some.inj (hud.symm.trans hud')
  obtain ⟨us, hus⟩ := hmap u rfl
  refine ⟨⟨us, hus⟩, (List.getElem?_eq_some_iff.1 hus).1, ?_⟩
  rintro q' hq' rfl
  obtain ⟨o'', uses'', ho'', hud'', -⟩ := h.cell hq'
  cases hus.symm.trans ho''
  cases hud''

/-- What `register` leaves: `y'`, which is the last cell, is a user of the copy in `q`. -/
structure Registered (old : List Obj) (s : Mem) (q : Addr × Addr) (R : Obj) (heap : List Obj) :
    Prop where
  kept : old <+: heap
  last : heap[s.heap.length]? = some R
  cells : ∀ (a : ℕ) (o : Obj), s.heap[a]? = some o →
    ∃ o', heap[a]? = some o' ∧ o'.shape = o.shape ∧ (Clean old.length o → Clean old.length o')
  fresh : ∀ (a : ℕ) (o : Obj), s.heap.length < a → heap[a]? = some o → Clean old.length o
  uses : ∀ q' ∈ s.newargs, ∀ u, UsesAt heap q'.2 u →
    UsesAt s.heap q'.2 u ∨ q' = q ∧ s.heap.length ≤ u
  users : ∀ q' ∈ s.newargs, ∀ us, UsersAt s.heap q'.2 us →
    UsersAt heap q'.2 (if q' = q then insert s.heap.length us else us)

lemma registered_of_map (h : Inv old done s) (hq : q ∈ s.newargs) (R : Obj)
    (hu : UsesAt s.heap q.2 u) (hus : s.heap[u]? = some (.users us)) :
    Registered old s q R ((s.heap ++ [R]).set u (.users (insert s.heap.length us))) := by
  obtain ⟨-, hlt, hot⟩ := h.uses_lt hq hu
  have hn := h.kept.length_le
  have hce : ∀ (a : ℕ) (o : Obj), a ≠ u → s.heap[a]? = some o →
      ((s.heap ++ [R]).set u (.users (insert s.heap.length us)))[a]? = some o := by
    intro a o hne ho
    rw [getElem?_set_ne (Ne.symm hne)]
    exact getElem?_extend (prefix_append _ _) ho
  have hmap : ((s.heap ++ [R]).set u (.users (insert s.heap.length us)))[u]? =
      some (.users (insert s.heap.length us)) := by
    rw [getElem?_set_self (by simp; omega)]
  have harg : ∀ q' ∈ s.newargs, ∀ o, s.heap[q'.2]? = some o →
      ((s.heap ++ [R]).set u (.users (insert s.heap.length us)))[q'.2]? = some o :=
    fun q' hq' o ho => hce _ _ (hot q' hq') ho
  refine ⟨?_, ?_, fun a o ho => ?_, fun a o ha ho => ?_, fun q' hq' w hw => ?_,
    fun q' hq' us' hus' => ?_⟩
  · exact prefix_set (h.kept.trans (prefix_append _ _)) (h.maps q hq u hu) _
  · rw [getElem?_set_ne (by omega), getElem?_append_right le_rfl]
    simp
  · by_cases hau : a = u
    · subst hau
      cases hus.symm.trans ho
      refine ⟨_, hmap, rfl, fun hcl b hb => ?_⟩
      rcases Finset.mem_insert.1 hb with rfl | hb
      · exact hn
      · exact hcl b hb
    · exact ⟨o, hce a o hau ho, rfl, id⟩
  · rw [getElem?_eq_none (by simp; omega)] at ho
    cases ho
  · left
    obtain ⟨o, uses, ho, hud, -⟩ := h.cell hq'
    obtain ⟨o', ho', hud'⟩ := hw
    rw [harg q' hq' o ho] at ho'
    cases ho'
    exact ⟨o, ho, hud'⟩
  · obtain ⟨o, ho, hcs⟩ := hus'
    refine ⟨o, harg q' hq' o ho, ?_⟩
    by_cases heq : q' = q
    · subst heq
      rw [if_pos rfl]
      obtain ⟨o', ho', hud⟩ := hu
      cases ho.symm.trans ho'
      right
      rcases hcs with ⟨hnn, -⟩ | ⟨w, hw, hwus⟩
      · cases hud.symm.trans hnn
      · obtain rfl : u = w := some.inj (some.inj (hud.symm.trans hw))
        cases hus.symm.trans hwus
        exact ⟨u, hw, hmap⟩
    · rw [if_neg heq]
      rcases hcs with hnn | ⟨w, hw, hwus⟩
      · exact .inl hnn
      · right
        refine ⟨w, hw, hce w _ ?_ hwus⟩
        rintro rfl
        exact heq (h.owner q' hq' q hq w ⟨o, ho, hw⟩ hu)

lemma Obj.shape_withUses (o : Obj) (uses : Option Addr) : (o.withUses uses).shape = o.shape := by
  cases o <;> rfl

lemma Obj.used_withUses (h : o.used = some uses) (uses' : Option Addr) :
    (o.withUses uses').used = some uses' := by
  cases o <;> first | rfl | cases h

lemma Obj.clean_withUses (h : Clean n o) (hu : n ≤ u) : Clean n (o.withUses (some u)) := by
  cases o with
  | result t res opDiv opAdd val uses =>
    intro b hb
    rcases Finset.mem_union.1 hb with hb | hb
    · exact h b (Finset.mem_union_left _ hb)
    · rw [toFinset_some, Finset.mem_singleton] at hb
      exact hb ▸ hu
  | ret uses =>
    intro b hb
    rw [Obj.withUses, Obj.refs, toFinset_some, Finset.mem_singleton] at hb
    exact hb ▸ hu
  | _ => exact h

def withMap (heap : List Obj) (R : Obj) (a : ℕ) (o : Obj) : List Obj :=
  ((heap ++ [R] ++ [Obj.users ∅]).set a (o.withUses (some (heap.length + 1)))).set
    (heap.length + 1) (.users (insert heap.length ∅))

lemma getElem?_withMap (ha : a < heap.length) (b : ℕ) :
    (withMap heap R a o)[b]? =
      if b = heap.length + 1 then some (.users (insert heap.length ∅))
      else if b = a then some (o.withUses (some (heap.length + 1)))
      else if b = heap.length then some R
      else heap[b]? := by
  unfold withMap
  by_cases hmap : b = heap.length + 1
  · subst hmap
    rw [getElem?_set_self (by simp), if_pos rfl]
  · rw [getElem?_set_ne (Ne.symm hmap), if_neg hmap]
    by_cases hba : b = a
    · subst hba
      rw [getElem?_set_self (by simp; omega), if_pos rfl]
    · rw [getElem?_set_ne (Ne.symm hba), if_neg hba]
      by_cases hb : b = heap.length
      · subst hb
        simp
      · rw [if_neg hb, append_assoc]
        by_cases hlt : b < heap.length
        · rw [getElem?_append_left hlt]
        · rw [getElem?_eq_none (by simp; omega), getElem?_eq_none (by omega)]

lemma registered_of_none (h : Inv old done s) (hq : q ∈ s.newargs) (R : Obj)
    (ho : s.heap[q.2]? = some o) (hud : o.used = some none) :
    Registered old s q R (withMap s.heap R q.2 o) := by
  have hlt := (List.getElem?_eq_some_iff.1 ho).1
  have hn := h.kept.length_le
  have hget := fun b : ℕ => getElem?_withMap (R := R) (o := o) hlt b
  have hcl : ∀ (b : ℕ) (o' : Obj), b ≠ q.2 → s.heap[b]? = some o' →
      (withMap s.heap R q.2 o)[b]? = some o' := by
    intro b o' hne ho'
    have hb := (List.getElem?_eq_some_iff.1 ho').1
    rw [hget, if_neg (by omega), if_neg hne, if_neg (by omega), ho']
  have hsl : (withMap s.heap R q.2 o)[q.2]? = some (o.withUses (some (s.heap.length + 1))) := by
    rw [hget, if_neg (by omega), if_pos rfl]
  have hmap : (withMap s.heap R q.2 o)[s.heap.length + 1]? =
      some (.users (insert s.heap.length ∅)) := by
    rw [hget, if_pos rfl]
  have hvl : ∀ q' ∈ s.newargs, q' ≠ q → q'.2 ≠ q.2 := by
    intro q' hq' hne heq
    exact hne (inj_on_of_nodup_map h.values hq' hq heq)
  refine ⟨?_, ?_, fun a o' ho' => ?_, fun a o' ha ho' => ?_, fun q' hq' w hw => ?_,
    fun q' hq' us hus => ?_⟩
  · have hle := h.fresh q hq
    refine prefix_set (prefix_set ?_ hle _) (by omega) _
    exact (h.kept.trans (prefix_append _ _)).trans (prefix_append _ _)
  · rw [hget, if_neg (by omega), if_neg (by omega), if_pos rfl]
  · by_cases hne : a = q.2
    · subst hne
      cases ho.symm.trans ho'
      exact ⟨_, hsl, o.shape_withUses _, fun hc => Obj.clean_withUses hc (by omega)⟩
    · exact ⟨o', hcl a o' hne ho', rfl, id⟩
  · rw [hget, if_neg (show ¬ a = q.2 by omega), if_neg (show ¬ a = s.heap.length by omega),
      getElem?_eq_none (by omega)] at ho'
    split_ifs at ho'
    cases ho'
    intro b hb
    rcases Finset.mem_insert.1 hb with rfl | hb
    · exact hn
    · exact absurd hb (Finset.notMem_empty b)
  · by_cases heq : q' = q
    · subst heq
      right
      obtain ⟨o', ho', hud'⟩ := hw
      cases hsl.symm.trans ho'
      rw [Obj.used_withUses hud] at hud'
      cases hud'
      exact ⟨rfl, by omega⟩
    · left
      obtain ⟨o', uses, hq'cell, -, -⟩ := h.cell hq'
      obtain ⟨o'', ho'', hud''⟩ := hw
      rw [hcl _ _ (hvl q' hq' heq) hq'cell] at ho''
      cases ho''
      exact ⟨o', hq'cell, hud''⟩
  · obtain ⟨o', ho', hcs⟩ := hus
    by_cases heq : q' = q
    · subst heq
      cases ho.symm.trans ho'
      rw [if_pos rfl]
      rcases hcs with ⟨-, rfl⟩ | ⟨w, hw, -⟩
      · exact ⟨_, hsl, .inr ⟨_, Obj.used_withUses hud _, hmap⟩⟩
      · cases hud.symm.trans hw
    · rw [if_neg heq]
      refine ⟨o', hcl _ _ (hvl q' hq' heq) ho', ?_⟩
      rcases hcs with hnn | ⟨w, hw, hwus⟩
      · exact .inl hnn
      · refine .inr ⟨w, hw, hcl w _ ?_ hwus⟩
        rintro rfl
        cases ho.symm.trans hwus
        cases hud

lemma does_register (h : Inv old done s) (hq : q ∈ s.newargs) (R : Obj) :
    ∃ heap, Does (register q.2 s.heap.length) ⟨s.heap ++ [R], s.newargs⟩ () ⟨heap, s.newargs⟩ ∧
      Registered old s q R heap := by
  obtain ⟨o, uses, ho, hud, hmap⟩ := h.cell hq
  have ho' : (s.heap ++ [R])[q.2]? = some o := getElem?_extend (prefix_append _ _) ho
  cases uses with
  | none =>
    refine ⟨_, ?_, registered_of_none h hq R ho hud⟩
    have hlt := (List.getElem?_eq_some_iff.1 ho).1
    refine (does_load ho').bind ?_
    simp only [hud]
    refine (does_alloc _ _).bind ((does_store _ _ _).bind ?_)
    have hlen : (s.heap ++ [R]).length = s.heap.length + 1 := by simp
    have hnew : ((s.heap ++ [R] ++ [Obj.users ∅]).set q.2
        (o.withUses (some (s.heap.length + 1))))[s.heap.length + 1]? = some (.users ∅) := by
      rw [getElem?_set_ne (by omega), ← hlen]
      simp
    rw [hlen]
    refine (does_load hnew).bind ?_
    exact does_store _ _ _
  | some u =>
    obtain ⟨us, hus⟩ := hmap u rfl
    refine ⟨_, ?_, registered_of_map h hq R ⟨o, ho, hud⟩ hus⟩
    refine (does_load ho').bind ?_
    simp only [hud]
    refine (does_load (getElem?_extend (prefix_append _ _) hus)).bind ?_
    exact does_store _ _ _

end Register

/-! ### Parts of the copying in a row -/

/-- A part of the copying that goes through `nodes`: if what they use was copied before them it
returns and `Q` holds, and if not it panics. -/
def Copies (old : List Obj) (done nodes : List (Ref × Option Ref)) (s : Mem) (p : M α)
    (Q : α → Mem → Prop) : Prop :=
  (cloneable (s.newargs.map fst) nodes = true →
    ∃ a s', Does p s a s' ∧ Inv old (done ++ nodes) s' ∧ Grows old.length s s' ∧ Q a s') ∧
  (cloneable (s.newargs.map fst) nodes = false → Panics p s)

section Copies

variable {nodes nodes' : List (Ref × Option Ref)} {Q : α → Mem → Prop} {f : α → M β}

lemma Copies.imp {Q' : α → Mem → Prop} (h : Copies old done nodes s p Q)
    (hQ : ∀ a s', Grows old.length s s' → Q a s' → Q' a s') : Copies old done nodes s p Q' := by
  refine ⟨fun hc => ?_, h.2⟩
  obtain ⟨a, s', hds, hinv, hgr, hq⟩ := h.1 hc
  exact ⟨a, s', hds, hinv, hgr, hQ a s' hgr hq⟩

lemma Copies.of_does {a : α} (h : Does p s a s') (hinv : Inv old done s')
    (hgr : Grows old.length s s') (hQ : Q a s') : Copies old done [] s p Q := by
  refine ⟨fun _ => ⟨a, s', h, by rwa [append_nil], hgr, hQ⟩, fun hc => ?_⟩
  cases hc

lemma Copies.after {a : α} {Q : β → Mem → Prop} (hp : Does p s a s)
    (h : Copies old done nodes s (f a) Q) : Copies old done nodes s (p >>= f) Q := by
  refine ⟨fun hc => ?_, fun hc => hp.panics (h.2 hc)⟩
  obtain ⟨b, s', hds, hrs⟩ := h.1 hc
  exact ⟨b, s', hp.bind hds, hrs⟩

lemma Copies.bind (hs : Inv old done s) (h : Copies old done nodes s p Q)
    (hf : ∀ a s', Inv old (done ++ nodes) s' → Grows old.length s s' → Q a s' → Copies old (done ++
      nodes) nodes' s' (f a) Q') : Copies old done (nodes ++ nodes') s (p >>= f) Q' := by
  have hky : ∀ s', Inv old (done ++ nodes) s' →
      s'.newargs.map fst = (nodes.map fst).reverse ++ s.newargs.map fst := by
    intro s' hs'
    rw [hs'.keys, hs.keys, map_append, reverse_append]
  rw [Copies, cloneable_append]
  constructor
  · intro hc
    rw [Bool.and_eq_true] at hc
    obtain ⟨a, s', hds, hinv, hgr, hq⟩ := h.1 hc.1
    rw [← hky s' hinv] at hc
    obtain ⟨b, s'', hds', hinv', hgr', hq'⟩ := (hf a s' hinv hgr hq).1 hc.2
    exact ⟨b, s'', hds.bind hds', by rwa [← append_assoc], hgr.trans hgr', hq'⟩
  · intro hc
    by_cases hfr : cloneable (s.newargs.map fst) nodes
    · obtain ⟨a, s', hds, hinv, hgr, hq⟩ := h.1 hfr
      rw [hfr, Bool.true_and, ← hky s' hinv] at hc
      exact hds.panics ((hf a s' hinv hgr hq).2 hc)
    · exact (h.2 (by simpa using hfr)).bind f

lemma Copies.bind_does (hs : Inv old done s) (h : Copies old done nodes s p Q)
    (hf : ∀ a s', Inv old (done ++ nodes) s' → Grows old.length s s' → Q a s' → ∃ b s'', Does (f a)
      s' b s'' ∧ Inv old (done ++ nodes) s'' ∧ Grows old.length s' s'' ∧ Q' b s'') :
    Copies old done nodes s (p >>= f) Q' := by
  have hbn : Copies old done (nodes ++ []) s (p >>= f) Q' := by
    refine Copies.bind hs h fun a s' hinv hgr hq => ?_
    obtain ⟨b, s'', hds, hinv', hgr', hq'⟩ := hf a s' hinv hgr hq
    exact Copies.of_does hds hinv' hgr' hq'
  rwa [append_nil] at hbn

end Copies

end Razzer.CloneHeap
