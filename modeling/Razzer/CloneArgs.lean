import Razzer.CloneSteps

/-!
`clone` on arguments.

An argument is copied to cells behind those that are there. The copies have new references, and
which they are is known when all have been copied.
-/

namespace Razzer.CloneHeap

open Args Progs Minimize Decoding Heaps UseLinks List Prod Nat

variable {α : Type}

/-! ### One argument -/

variable {old : List Obj} {done : List (Ref × Option Ref)} {s : Mem} {fuel : ℕ}

section Arguments

variable {nodes : List (Ref × Option Ref)} {heap : List Obj} {y x : ℕ} {o : Obj}

lemma Inv.snoc (h : Inv old done s) {y' : ℕ} {r : Option Ref} (hkp : old <+: heap)
    (hy : y ∉ s.newargs.map fst) (hfr : old.length ≤ y')
    (hot : ∀ q ∈ s.newargs, q.2 ≠ y') (hnn : ∃ o, heap[y']? = some o ∧ o.used = some none)
    (hrf : ∀ x, r = some x → x ∈ s.newargs.map fst)
    (huss : ∀ q ∈ s.newargs, ∀ u, UsesAt heap q.2 u → UsesAt s.heap q.2 u ∨ r = some q.1 ∧
      s.heap.length ≤ u)
    (husr : ∀ q ∈ s.newargs, ∀ us, UsersAt s.heap q.2 us → UsersAt heap q.2 (if r = some q.1 then
      insert y' us else us)) : Inv old (done ++ [(y, r)]) ⟨heap, (y, y') :: s.newargs⟩ := by
  have hdn : ∀ r', (y, r') ∉ done := by
    intro r' hmem
    rw [h.keys, mem_reverse] at hy
    exact hy (mem_map_of_mem hmem)
  have hsl : ∀ u, ¬ UsesAt heap y' u := by
    rintro u ⟨o, ho, hud⟩
    obtain ⟨o', ho', hud'⟩ := hnn
    cases ho.symm.trans ho'
    cases hud.symm.trans hud'
  have hn := h.kept.length_le
  constructor
  case kept => exact hkp
  case nodup =>
    rw [map_append, ← nodup_reverse, reverse_append, ← h.keys]
    exact nodup_cons.2 ⟨hy, h.keys_nodup⟩
  case keys => simp [h.keys]
  case values =>
    refine nodup_cons.2 ⟨fun hmem => ?_, h.values⟩
    obtain ⟨q, hq, heq⟩ := mem_map.1 hmem
    exact hot q hq heq
  case fresh =>
    rw [forall_mem_cons]
    exact ⟨hfr, h.fresh⟩
  case owner =>
    intro q hq q' hq' u hu hu'
    rcases mem_cons.1 hq with rfl | hq
    · exact absurd hu (hsl u)
    rcases mem_cons.1 hq' with rfl | hq'
    · exact absurd hu' (hsl u)
    -- a map that was there before is not the one that was just made
    have hap : ∀ p ∈ s.newargs, UsesAt s.heap p.2 u → ¬ s.heap.length ≤ u :=
      fun p hp hold => not_le.2 (h.uses_lt hp hold).2.1
    rcases huss q hq u hu with hold | ⟨hr, hle⟩
    · rcases huss q' hq' u hu' with hold' | ⟨-, hle'⟩
      · exact h.owner q hq q' hq' u hold hold'
      · exact absurd hle' (hap q hq hold)
    · rcases huss q' hq' u hu' with hold' | ⟨hr', -⟩
      · exact absurd hle (hap q' hq' hold')
      · exact h.eq_of_fst hq hq' (Option.some.inj (hr.symm.trans hr'))
  case maps =>
    intro q hq u hu
    rcases mem_cons.1 hq with rfl | hq
    · exact absurd hu (hsl u)
    · rcases huss q hq u hu with hold | ⟨-, hle⟩
      · exact h.maps q hq u hold
      · omega
  case users =>
    intro q hq
    rcases mem_cons.1 hq with rfl | hq
    · obtain ⟨o, ho, hud⟩ := hnn
      refine ⟨∅, ⟨o, ho, .inl ⟨hud, rfl⟩⟩, fun w => ⟨fun hw => ?_, ?_⟩⟩
      · exact absurd hw (Finset.notMem_empty w)
      · rintro ⟨z, -, hz⟩
        -- a user of `y` would have been copied before `y`
        rcases mem_append.1 hz with hz | hz
        · exact absurd (h.refs z y hz) hy
        · exact absurd (hrf y (mk.inj (mem_singleton.1 hz)).2.symm) hy
    · obtain ⟨us, hus, hmem⟩ := h.users q hq
      refine ⟨_, husr q hq us hus, fun w => ?_⟩
      constructor
      · intro hw
        split_ifs at hw with hr
        · rcases Finset.mem_insert.1 hw with rfl | hw
          · exact ⟨y, mem_cons_self, by simp [hr]⟩
          · obtain ⟨z, hz, hzd⟩ := (hmem w).1 hw
            exact ⟨z, mem_cons_of_mem _ hz, mem_append_left _ hzd⟩
        · obtain ⟨z, hz, hzd⟩ := (hmem w).1 hw
          exact ⟨z, mem_cons_of_mem _ hz, mem_append_left _ hzd⟩
      · rintro ⟨z, hz, hzd⟩
        rcases mem_cons.1 hz with heq | hz'
        · obtain ⟨rfl, rfl⟩ := mk.inj heq
          rcases mem_append.1 hzd with hzd | hzd
          · exact absurd hzd (hdn _)
          · rw [if_pos (mk.inj (mem_singleton.1 hzd)).2.symm]
            exact Finset.mem_insert_self _ _
        · have hzd' : (z, some q.1) ∈ done := by
            rcases mem_append.1 hzd with hzd | hzd
            · exact hzd
            · obtain ⟨rfl, -⟩ := mk.inj (mem_singleton.1 hzd)
              have hkey : (z, w).1 ∈ s.newargs.map fst := mem_map_of_mem hz'
              exact absurd hkey hy
          have hw := (hmem w).2 ⟨z, hz', hzd'⟩
          split_ifs
          · exact Finset.mem_insert_of_mem hw
          · exact hw
  case refs =>
    intro z x hz
    rcases mem_append.1 hz with hz | hz
    · exact mem_cons_of_mem _ (h.refs z x hz)
    · exact mem_cons_of_mem _ (hrf x (mk.inj (mem_singleton.1 hz)).2.symm)

def finish (arg arg1 : Addr) : M Addr := do
  useReferent arg1
  resetUses arg arg1
  pure arg1

lemma clone_succ (fuel : ℕ) (arg : Addr) :
    clone (fuel + 1) arg = load arg >>= fun o => alloc o >>= fun arg1 =>
      cloneFields (clone fuel) arg1 o >>= fun _ => finish arg arg1 := rfl

lemma does_finish_plain {arg arg1 : Addr} (ho : s.heap[arg1]? = some o) (hpl : o.plain) :
    Does (finish arg arg1) s arg1 s := by
  have huse : Does (useReferent arg1) s () s := by
    refine (does_load ho).bind ?_
    cases o <;> first | exact does_pure () s | cases hpl
  have hrs : Does (resetUses arg arg1) s () s := by
    refine (does_load ho).bind ?_
    rw [Obj.used_of_plain hpl]
    exact does_pure () s
  exact huse.bind (hrs.bind (does_pure arg1 s))

lemma set_last (o o' : Obj) : (heap ++ [o]).set heap.length o' = heap ++ [o'] := by
  simp

lemma does_resetUses {y y' : Addr} {uses : Option Addr} (ho : s.heap[y']? = some o)
    (hus : o.used = some uses) :
    Does (resetUses y y') s () ⟨s.heap.set y' (o.withUses none), (y, y') :: s.newargs⟩ := by
  refine (does_load ho).bind ?_
  rw [hus]
  exact (does_store _ _ _).bind rfl

variable {a : Addr}

lemma copies_leaf (h : Inv old done s) (ho : s.heap[a]? = some o) (hpl : o.plain)
    (hcl : Clean old.length o) (hfl : cloneFields (clone fuel) s.heap.length o = pure ()) :
    Copies old done [] s (clone (fuel + 1) a) fun a1 s' =>
      a1 = s.heap.length ∧ s'.heap = s.heap ++ [o] := by
  have hls : (s.heap ++ [o])[s.heap.length]? = some o := by simp
  have hds : Does (clone (fuel + 1) a) s s.heap.length ⟨s.heap ++ [o], s.newargs⟩ := by
    rw [clone_succ]
    refine (does_load ho).bind ((does_alloc o s).bind ?_)
    rw [hfl]
    exact (does_pure () _).bind (does_finish_plain hls hpl)
  exact Copies.of_does hds (h.alloc o) (grows_alloc hcl s) ⟨rfl, rfl⟩

/-- An argument with inner ones: its cell is copied, these are copied, and then the pointers of the
cell are replaced. -/
lemma copies_parent {p : M α} {g : α → Obj} {Q : α → Mem → Prop} (h : Inv old done s) {a : ℕ}
    (ho : s.heap[a]? = some o) (hpl : o.plain)
    (hfl : cloneFields (clone fuel) s.heap.length o = p >>= fun x => store s.heap.length (g x))
    (hp : Copies old done nodes ⟨s.heap ++ [o], s.newargs⟩ p Q)
    (hg : ∀ x s', Q x s' → (g x).plain ∧ Clean old.length (g x)) :
    Copies old done nodes s (clone (fuel + 1) a) fun a1 s' => a1 = s.heap.length ∧
      ∃ x s2, Q x s2 ∧ s'.newargs = s2.newargs ∧ s'.heap[s.heap.length]? = some (g x) ∧
        KeepsFrom (s.heap.length + 1) s2.heap s'.heap := by
  rw [clone_succ]
  constructor
  · intro hc
    obtain ⟨x, s2, hds, hinv, hgr, hq⟩ := hp.1 hc
    obtain ⟨hgp, hcl⟩ := hg x s2 hq
    have hls : (s.heap ++ [o])[s.heap.length]? = some o := by simp
    obtain ⟨o', ho', hsh, -⟩ := hgr.kept _ _ hls
    have hpl' : o'.plain := by
      rw [← Obj.plain_shape, hsh, Obj.plain_shape, hpl]
    have hlt := (List.getElem?_eq_some_iff.1 ho').1
    have hset : (s2.heap.set s.heap.length (g x))[s.heap.length]? = some (g x) :=
      getElem?_set_self hlt
    refine ⟨s.heap.length, ⟨s2.heap.set s.heap.length (g x), s2.newargs⟩, ?_,
      hinv.set h.kept.length_le ho' hpl', hgr.around hcl, rfl, x, s2, hq, rfl, hset, ?_⟩
    · refine (does_load ho).bind ((does_alloc o s).bind ?_)
      rw [hfl]
      exact (hds.bind (does_store _ _ _)).bind (does_finish_plain hset hgp)
    · rintro b o'' hb ⟨o₃, ho₃, rfl⟩
      exact ⟨o₃, by rwa [getElem?_set_ne (by omega)], rfl⟩
  · intro hc
    refine (does_load ho).panics ((does_alloc o s).panics ?_)
    rw [hfl]
    exact ((hp.2 hc).bind _).bind _

def Obj.unlinked : Obj → Bool
  | .result _ none _ _ _ _ => true
  | .ret _ => true
  | _ => false

lemma does_useReferent_unlinked (ho : s.heap[a]? = some o) (h : o.unlinked) :
    Does (useReferent a) s () s := by
  refine (does_load ho).bind ?_
  cases o with
  | result t res opDiv opAdd val uses =>
    cases res with
    | none => exact does_pure () s
    | some x => cases h
  | ret uses => exact does_pure () s
  | _ => cases h

lemma Obj.used_unlinked (h : o.unlinked) : ∃ uses, o.used = some uses := by
  cases o <;> first | exact ⟨_, rfl⟩ | cases h

lemma Obj.clean_unlinked (h : o.unlinked) (n : ℕ) : Clean n (o.withUses none) := by
  intro b hb
  cases o with
  | result t res opDiv opAdd val uses =>
    cases res with
    | none => simp [Obj.withUses, Obj.refs] at hb
    | some x => cases h
  | ret uses => simp [Obj.withUses, Obj.refs] at hb
  | _ => cases h

lemma cloneFields_unlinked (h : o.unlinked) (f : Addr → M Addr) (a : Addr) :
    cloneFields f a o = pure () := by
  cases o <;> first | rfl | cases h

lemma copies_unlinked (h : Inv old done s) (ho : s.heap[y]? = some o)
    (hy : y ∉ s.newargs.map fst) (hkn : o.unlinked) :
    Copies old done [(y, none)] s (clone (fuel + 1) y) fun a1 s' => a1 = s.heap.length ∧
      s'.heap = s.heap ++ [o.withUses none] ∧ s'.newargs = (y, a1) :: s.newargs := by
  obtain ⟨uses, hud⟩ := Obj.used_unlinked hkn
  have hcl := Obj.clean_unlinked hkn old.length
  refine ⟨fun _ => ?_, fun hc => by cases hc⟩
  refine ⟨s.heap.length, ⟨s.heap ++ [o.withUses none], (y, s.heap.length) :: s.newargs⟩, ?_, ?_, ?_,
    rfl, rfl, rfl⟩
  · have hls : (s.heap ++ [o])[s.heap.length]? = some o := by simp
    have hrs := does_resetUses (s := ⟨s.heap ++ [o], s.newargs⟩) (y := y) hls hud
    simp only [set_last] at hrs
    rw [clone_succ]
    refine (does_load ho).bind ((does_alloc o s).bind ?_)
    rw [cloneFields_unlinked hkn]
    refine (does_pure () _).bind ?_
    exact (does_useReferent_unlinked hls hkn).bind (hrs.bind (does_pure _ _))
  · have hce : ∀ q ∈ s.newargs, q.2 < s.heap.length := by
      intro q hq
      obtain ⟨o', -, ho', -, -⟩ := h.cell hq
      exact (List.getElem?_eq_some_iff.1 ho').1
    have hal := h.alloc (o.withUses none)
    refine h.snoc (hal.kept) hy h.kept.length_le (fun q hq => (hce q hq).ne) ?_ (by simp)
      (fun q hq u hu => .inl ?_) (fun q hq us hus => ?_)
    · exact ⟨o.withUses none, by simp, Obj.used_withUses hud none⟩
    · obtain ⟨o', ho', hud'⟩ := hu
      rw [getElem?_append_left (hce q hq)] at ho'
      exact ⟨o', ho', hud'⟩
    · rw [if_neg (by simp)]
      obtain ⟨o', ho', hcs⟩ := hus
      refine ⟨o', getElem?_extend (prefix_append _ _) ho', ?_⟩
      rcases hcs with hnn | ⟨u, hu, hus⟩
      · exact .inl hnn
      · exact .inr ⟨u, hu, getElem?_extend (prefix_append _ _) hus⟩
  · have hgr := grows_alloc hcl s
    exact ⟨hgr.len, hgr.kept, hgr.fresh, suffix_cons _ _⟩

lemma lookup_of_mem_keys {l : List (ℕ × ℕ)} (h : x ∈ l.map fst) :
    ∃ r, l.lookup x = some r ∧ (x, r) ∈ l := by
  induction l with
  | nil => cases h
  | cons q l ih =>
    rw [lookup_cons]
    by_cases heq : x = q.1
    · subst heq
      exact ⟨q.2, by simp, mem_cons_self⟩
    · have hmem : x ∈ l.map fst := by simpa [heq] using h
      obtain ⟨r, hr, hmem⟩ := ih hmem
      have hbeq : (x == q.1) = false := by simpa using heq
      exact ⟨r, by simp only [hbeq, hr], mem_cons_of_mem _ hmem⟩

lemma lookup_of_notMem_keys {l : List (ℕ × ℕ)} (h : x ∉ l.map fst) : l.lookup x = none := by
  rw [lookup_eq_none_iff]
  intro q hq
  rw [bne_iff_ne]
  rintro rfl
  exact h (mem_map_of_mem hq)

lemma Inv.snoc_registered (h : Inv old done s) {q : Addr × Addr} {R R' : Obj}
    (hy : y ∉ s.newargs.map fst) (hq : q ∈ s.newargs) (hreg : Registered old s q R heap)
    (hset : (heap.set s.heap.length R')[s.heap.length]? = some R') (hud : R'.used = some none)
    (hR : ∀ us, R ≠ .users us) :
    Inv old (done ++ [(y, some q.1)])
      ⟨heap.set s.heap.length R', (y, s.heap.length) :: s.newargs⟩ := by
  have hcl : ∀ p ∈ s.newargs, p.2 ≠ s.heap.length := by
    intro p hp
    obtain ⟨o, -, ho, -, -⟩ := h.cell hp
    exact (List.getElem?_eq_some_iff.1 ho).1.ne
  have hiff : ∀ p ∈ s.newargs, some q.1 = some p.1 ↔ p = q := by
    intro p hp
    refine ⟨fun heq => h.eq_of_fst hp hq (Option.some.inj heq).symm, ?_⟩
    rintro rfl
    rfl
  refine h.snoc (prefix_set hreg.kept h.kept.length_le _) hy h.kept.length_le hcl
    ⟨R', hset, hud⟩ ?_ (fun p hp u hu => ?_) (fun p hp us hus => ?_)
  · intro x hx
    rw [← Option.some.inj hx]
    exact mem_map_of_mem hq
  · obtain ⟨o, ho, hou⟩ := hu
    rw [getElem?_set_ne (hcl p hp).symm] at ho
    rcases hreg.uses p hp u ⟨o, ho, hou⟩ with hold | ⟨rfl, hle⟩
    · exact .inl hold
    · exact .inr ⟨rfl, hle⟩
  · have hst := hreg.users p hp us hus
    simp only [hiff p hp]
    obtain ⟨o, ho, hcs⟩ := hst
    refine ⟨o, by rwa [getElem?_set_ne (hcl p hp).symm], ?_⟩
    rcases hcs with hnn | ⟨u, hu, hmap⟩
    · exact .inl hnn
    · refine .inr ⟨u, hu, ?_⟩
      rw [getElem?_set_ne ?_, hmap]
      rintro rfl
      exact hR _ (Option.some.inj (hreg.last.symm.trans hmap))

lemma Registered.grows {q : Addr × Addr} {R R' : Obj} (hreg : Registered old s q R heap)
    (hR' : Clean old.length R') {y : Addr} :
    Grows old.length s ⟨heap.set s.heap.length R', (y, s.heap.length) :: s.newargs⟩ := by
  have hlt := (List.getElem?_eq_some_iff.1 hreg.last).1
  refine ⟨by simp only [length_set]; omega, fun a o ho => ?_, fun a o ha ho => ?_, suffix_cons _ _⟩
  · have hlt' := (List.getElem?_eq_some_iff.1 ho).1
    obtain ⟨o', ho', hrs⟩ := hreg.cells a o ho
    refine ⟨o', ?_, hrs⟩
    rwa [getElem?_set_ne (by omega)]
  · simp only [getElem?_set] at ho
    split_ifs at ho with heq
    · cases ho
      exact hR'
    · exact hreg.fresh a o (by omega) ho

/-- An argument that uses another one: the copy of that one gets the copy as a user. -/
lemma copies_linked (h : Inv old done s) {t : ResourceType} {opDiv opAdd val : UInt64}
    {uses : Option Addr} (ho : s.heap[y]? = some (.result t (some x) opDiv opAdd val uses))
    (hy : y ∉ s.newargs.map fst) :
    Copies old done [(y, some x)] s (clone (fuel + 1) y) fun a1 s' => a1 = s.heap.length ∧
      ∃ x', (x, x') ∈ s.newargs ∧ s'.newargs = (y, a1) :: s.newargs ∧
        s'.heap[s.heap.length]? = some (.result t (some x') opDiv opAdd val none) := by
  have hls : (s.heap ++ [Obj.result t (some x) opDiv opAdd val uses])[s.heap.length]? =
      some (.result t (some x) opDiv opAdd val uses) := by simp
  rw [clone_succ]
  constructor
  · intro hc
    have hx : x ∈ s.newargs.map fst := by simpa [cloneable] using hc
    obtain ⟨x', hlk, hq⟩ := lookup_of_mem_keys hx
    obtain ⟨heap, hrg, hreg⟩ :=
      does_register h hq (.result t (some x') opDiv opAdd val uses)
    have hlt := (List.getElem?_eq_some_iff.1 hreg.last).1
    have hset : (heap.set s.heap.length (.result t (some x') opDiv opAdd val none))[
        s.heap.length]? = some (.result t (some x') opDiv opAdd val none) :=
      getElem?_set_self hlt
    refine ⟨s.heap.length, ⟨heap.set s.heap.length (.result t (some x') opDiv opAdd val none),
      (y, s.heap.length) :: s.newargs⟩, ?_, h.snoc_registered hy hq hreg hset rfl (by simp),
      hreg.grows ?_, rfl, x', hq, rfl, hset⟩
    · have hrf : Does (referent x)
          ⟨s.heap ++ [.result t (some x) opDiv opAdd val uses], s.newargs⟩ x'
          ⟨s.heap ++ [.result t (some x) opDiv opAdd val uses], s.newargs⟩ := by
        rw [Does, referent, hlk]
      have hst := does_store s.heap.length (.result t (some x') opDiv opAdd val uses)
        ⟨s.heap ++ [.result t (some x) opDiv opAdd val uses], s.newargs⟩
      simp only [set_last] at hst
      have huse : Does (useReferent s.heap.length)
          ⟨s.heap ++ [.result t (some x) opDiv opAdd val uses], s.newargs⟩ ()
          ⟨heap, s.newargs⟩ := by
        refine (does_load hls).bind ?_
        exact hrf.bind (hst.bind hrg)
      refine (does_load ho).bind ((does_alloc _ s).bind ((does_pure () _).bind ?_))
      exact huse.bind ((does_resetUses (s := ⟨heap, s.newargs⟩) hreg.last rfl).bind (does_pure _ _))
    · intro b hb
      simp only [Obj.refs, Option.toFinset_some, Option.toFinset_none, Finset.union_empty,
        Finset.mem_singleton] at hb
      exact hb ▸ h.fresh _ hq
  · intro hc
    have hx : x ∉ s.newargs.map fst := by simpa [cloneable] using hc
    refine (does_load ho).panics ((does_alloc _ s).panics ((does_pure () _).panics ?_))
    refine Panics.bind ((does_load hls).panics ?_) _
    refine Panics.bind ?_ _
    rw [Panics, referent, lookup_of_notMem_keys hx]

end Arguments

/-! ### Arguments and calls in a row -/

def Agrees (ρ : Ref → Ref) (newargs : List (Addr × Addr)) : Prop := ∀ q ∈ newargs, ρ q.1 = q.2

variable {ρ : Ref → Ref} {s' : Mem} {lo n : ℕ} {r : Option Ref}

lemma Agrees.of_grows (h : Agrees ρ s'.newargs) (hg : Grows n s s') : Agrees ρ s.newargs :=
  fun q hq => h q (hg.newargs.subset hq)

structure Kind (X : Type) where
  isAt : List Obj → ℕ → X → Addr → Prop
  renamed : (Ref → Ref) → X → X
  nodes : X → List (Ref × Option Ref)
  mono : ∀ {heap heap' lo lo' x a}, KeepsFrom lo heap heap' → lo' ≤ lo → isAt heap lo x a →
    isAt heap' lo' x a

def args : Kind Arg := ⟨ArgAt, rename, argNodes, fun hk hlo hx => hx.mono hk hlo⟩

def calls : Kind Call := ⟨CallAt, renameCall, Call.nodes, fun hk hlo hx => hx.mono hk hlo⟩

section Rows

variable {X : Type} {K : Kind X} {f : Addr → M Addr}

/-- `f` copies `x`, wherever it is, to cells behind those that are there. -/
def Kind.Clones (K : Kind X) (old : List Obj) (f : Addr → M Addr) (x : X) : Prop :=
  ∀ a s done, K.isAt old 0 x a → Inv old done s → ((done ++ K.nodes x).map Prod.fst).Nodup →
    Copies old done (K.nodes x) s (f a) fun a1 s' => s.heap.length ≤ a1 ∧
      ∀ ρ, Agrees ρ s'.newargs → K.isAt s'.heap s.heap.length (K.renamed ρ x) a1

variable {xs : List X} {as : List Addr} {sl : Slice}

lemma copies_each (hf : ∀ x ∈ xs, K.Clones old f x) (has : Forall₂ (K.isAt old 0) xs as)
    (h : Inv old done s) (hnd : ((done ++ xs.flatMap K.nodes).map fst).Nodup) :
    Copies old done (xs.flatMap K.nodes) s (cloneEach f as) fun as1 s' =>
      (∀ a ∈ as1, s.heap.length ≤ a) ∧ ∀ ρ, Agrees ρ s'.newargs →
        Forall₂ (K.isAt s'.heap s.heap.length) (xs.map (K.renamed ρ)) as1 := by
  induction has generalizing s done with
  | nil => exact Copies.of_does (does_pure [] s) h (Grows.refl _ s) ⟨by simp, fun ρ _ => .nil⟩
  | @cons x a xs as hx has ih =>
    rw [forall_mem_cons] at hf
    rw [flatMap_cons, ← append_assoc] at hnd
    have hfr : ((done ++ K.nodes x).map fst).Nodup := by
      rw [map_append] at hnd
      exact hnd.of_append_left
    refine Copies.bind h (hf.1 a s done hx h hfr) fun a1 s1 h1 hg1 hq1 => ?_
    refine Copies.bind_does h1 (ih hf.2 h1 hnd) fun as1 s2 h2 hg2 hq2 => ?_
    refine ⟨a1 :: as1, s2, does_pure _ _, h2, Grows.refl _ _, ?_, fun ρ hρ => .cons ?_ ?_⟩
    · rw [forall_mem_cons]
      exact ⟨hq1.1, fun b hb => hg1.len.trans (hq2.1 b hb)⟩
    · exact K.mono (hg2.keepsFrom _) le_rfl (hq1.2 ρ (hρ.of_grows hg2))
    · exact (hq2.2 ρ hρ).imp fun y b hy => K.mono (keepsFrom_extend prefix_rfl _) hg1.len hy

lemma Inv.getElem? (h : Inv old done s) {a : ℕ} {o : Obj} (ho : ShapeAt old a o)
    (hpl : o.plain) : s.heap[a]? = some o :=
  getElem?_extend h.kept (ho.eq_of_plain hpl)

lemma does_loadPtrs (h : Inv old done s) (hp : PtrsAt old 0 sl as) : Does (loadPtrs sl) s as s := by
  obtain ⟨-, array, ho, rfl⟩ := hp
  refine (does_load (h.getElem? ho rfl)).bind ?_
  exact does_pure _ s

lemma does_loadBytes (h : Inv old done s) {bs : List UInt8} (hp : BytesAt old 0 sl bs) :
    Does (loadBytes sl) s bs s := by
  obtain ⟨-, array, ho, rfl⟩ := hp
  refine (does_load (h.getElem? ho rfl)).bind ?_
  exact does_pure _ s

variable {heap : List Obj}

lemma ptrsAt_new (as : List Addr) (hlo : lo ≤ heap.length) :
    PtrsAt (heap ++ [.ptrs as]) lo ⟨heap.length, 0, as.length⟩ as :=
  ⟨hlo, as, shapeAt_of_plain (by simp) rfl, by simp [Slice.view]⟩

lemma bytesAt_new (bs : List UInt8) (hlo : lo ≤ heap.length) :
    BytesAt (heap ++ [.bytes bs]) lo ⟨heap.length, 0, bs.length⟩ bs :=
  ⟨hlo, bs, shapeAt_of_plain (by simp) rfl, by simp [Slice.view]⟩

lemma copies_slice (hf : ∀ x ∈ xs, K.Clones old f x) (hp : PtrsAt old 0 sl as)
    (has : Forall₂ (K.isAt old 0) xs as) (h : Inv old done s)
    (hnd : ((done ++ xs.flatMap K.nodes).map fst).Nodup) :
    Copies old done (xs.flatMap K.nodes) s
      (loadPtrs sl >>= fun elems => cloneEach f elems >>= fun elems1 => newPtrs elems1)
      fun sl1 s' => s.heap.length ≤ sl1.array ∧ ∀ ρ, Agrees ρ s'.newargs →
        ∃ as1, PtrsAt s'.heap s.heap.length sl1 as1 ∧
          Forall₂ (K.isAt s'.heap s.heap.length) (xs.map (K.renamed ρ)) as1 := by
  refine Copies.after (does_loadPtrs h hp) ?_
  refine Copies.bind_does h (copies_each hf has h hnd) fun as1 s1 h1 hg1 hq1 => ?_
  have hcl : Clean old.length (.ptrs as1) := by
    intro b hb
    exact h.kept.length_le.trans (hq1.1 b (mem_toFinset.1 hb))
  refine ⟨⟨s1.heap.length, 0, as1.length⟩, _, (does_alloc _ _).bind (does_pure _ _), h1.alloc _,
    grows_alloc hcl s1, hg1.len, fun ρ hρ => ⟨as1, ptrsAt_new as1 hg1.len, ?_⟩⟩
  exact (hq1.2 ρ hρ).imp fun x a hx =>
    K.mono (keepsFrom_extend (prefix_append _ _) _) le_rfl hx

end Rows

/-! ### All arguments -/

section All

variable {x : Arg}

lemma clones_leaf {o : Obj} (hnd : argNodes x = []) (hren : ∀ ρ, rename ρ x = x)
    (hat : ∀ heap lo a, ArgAt heap lo x a ↔ lo ≤ a ∧ ShapeAt heap a o) (hpl : o.plain)
    (hrf : o.refs = ∅) (hfl : ∀ a, cloneFields (clone fuel) a o = pure ()) :
    args.Clones old (clone (fuel + 1)) x := by
  intro a s done hx h _
  have hcl : Clean old.length o := by
    intro b hb
    rw [hrf] at hb
    cases hb
  have hcp := copies_leaf h (h.getElem? ((hat _ _ _).1 hx).2 hpl) hpl hcl (hfl _)
  rw [← hnd] at hcp
  refine hcp.imp ?_
  rintro a1 s' - ⟨rfl, hhp⟩
  refine ⟨le_rfl, fun ρ _ => ?_⟩
  have hce : s'.heap[s.heap.length]? = some o := by rw [hhp, getElem?_concat_length]
  change ArgAt s'.heap s.heap.length (rename ρ x) s.heap.length
  rw [hren ρ, hat]
  exact ⟨le_rfl, shapeAt_of_plain hce hpl⟩

lemma copies_within {β : Type} {a : ℕ} {b : β} {p : M β} {g : β → Obj} (target : β → ℕ)
    (R : List Obj → ℕ → (Ref → Ref) → β → Prop) (h : Inv old done s) (ho : ShapeAt old a (g b))
    (hpl : ∀ b, (g b).plain) (hrf : ∀ b, (g b).refs = {target b})
    (hfl : ∀ a, cloneFields (clone fuel) a (g b) = p >>= fun b1 => store a (g b1))
    (hp : Copies old done (argNodes x) ⟨s.heap ++ [g b], s.newargs⟩ p fun b1 s' => (s.heap ++ [g
      b]).length ≤ target b1 ∧ ∀ ρ, Agrees ρ s'.newargs → R s'.heap (s.heap ++ [g b]).length ρ b1)
    (hmn : ∀ {heap heap' lo lo' ρ b}, KeepsFrom lo heap heap' → lo' ≤ lo → R heap lo ρ b → R heap'
      lo' ρ b)
    (hat : ∀ heap lo ρ b a, lo ≤ a → ShapeAt heap a (g b) → R heap lo ρ b → ArgAt heap lo (rename ρ
      x) a) :
    Copies old done (argNodes x) s (clone (fuel + 1) a) fun a1 s' => s.heap.length ≤ a1 ∧
      ∀ ρ, Agrees ρ s'.newargs → ArgAt s'.heap s.heap.length (rename ρ x) a1 := by
  have hlen := h.kept.length_le
  have hcl := h.getElem? ho (hpl b)
  simp only [length_append, length_singleton] at hp
  refine (copies_parent h hcl (hpl b) (hfl _) hp fun b1 s' hq => ?_).imp ?_
  · refine ⟨hpl b1, fun c hc => ?_⟩
    rw [hrf, Finset.mem_singleton] at hc
    have hle := hq.1
    rw [hc]
    omega
  · rintro a1 s' - ⟨rfl, b1, s2, hq, hnew, hcl, hkp⟩
    refine ⟨le_rfl, fun ρ hρ => ?_⟩
    exact hat _ _ _ b1 _ le_rfl (shapeAt_of_plain hcl (hpl _))
      (hmn hkp (le_succ _) (hq.2 ρ (hnew ▸ hρ)))

lemma copies_group {inner : List Arg} {g : Slice → Obj} {a : ℕ} {sl : Slice} {as : List Addr}
    (ih : ∀ y ∈ inner, args.Clones old (clone fuel) y) (h : Inv old done s)
    (hnp : ((done ++ argNodes x).map fst).Nodup)
    (hnd : argNodes x = inner.flatMap argNodes) (ho : ShapeAt old a (g sl))
    (hp : PtrsAt old 0 sl as) (has : ArgsAt old 0 inner as) (hpl : ∀ sl, (g sl).plain)
    (hrf : ∀ sl, (g sl).refs = {sl.array})
    (hfl : ∀ a, cloneFields (clone fuel) a (g sl) = (loadPtrs sl >>= fun elems => cloneEach
      (clone fuel) elems >>= fun elems1 => newPtrs elems1) >>= fun sl1 => store a (g sl1))
    (hat : ∀ heap lo ρ sl as a, lo ≤ a → ShapeAt heap a (g sl) → PtrsAt heap lo sl as → ArgsAt heap
      lo (inner.map (rename ρ)) as → ArgAt heap lo (rename ρ x) a) :
    Copies old done (argNodes x) s (clone (fuel + 1) a) fun a1 s' => s.heap.length ≤ a1 ∧
      ∀ ρ, Agrees ρ s'.newargs → ArgAt s'.heap s.heap.length (rename ρ x) a1 := by
  rw [hnd] at hnp
  have hsl := copies_slice ih hp (argsAt_iff.1 has) (h.alloc (g sl)) hnp
  refine copies_within Slice.array (fun heap lo ρ sl => ∃ as, PtrsAt heap lo sl as ∧
    Forall₂ (ArgAt heap lo) (inner.map (rename ρ)) as) h ho hpl hrf hfl ?_ ?_ ?_
  · rw [hnd]
    exact hsl
  · rintro heap heap' lo lo' ρ sl hk hlo ⟨as, hp, has⟩
    exact ⟨as, hp.mono hk hlo, has.imp fun _ _ hx => hx.mono hk hlo⟩
  · rintro heap lo ρ sl a ha ho ⟨as, hp, has⟩
    exact hat _ _ _ _ _ _ ha ho hp (argsAt_iff.2 has)

variable {y : Addr}

lemma Inv.notMem_newargs (h : Inv old done s) (hnd : ((done ++ [(y, r)]).map fst).Nodup) :
    y ∉ s.newargs.map fst := by
  rw [h.keys, mem_reverse]
  rw [map_append, nodup_append] at hnd
  intro hy
  exact hnd.2.2 y hy y (by simp) rfl

lemma clones_result (t : ResourceType) (n : ResultNode) :
    args.Clones old (clone (fuel + 1)) (.result t n) := by
  rintro a s done ⟨-, rfl, o, ho, hsh⟩ h hnd
  have hy := h.notMem_newargs hnd
  have hcl := getElem?_extend h.kept ho
  obtain ⟨uses, rfl⟩ : ∃ uses, o = .result t n.res n.opDiv n.opAdd n.val uses := by
    cases o <;> simp_all [Obj.shape, Obj.withUses]
  change Copies old done [(n.id, n.res)] s _ _
  cases hres : n.res with
  | none =>
    rw [hres] at hcl
    refine (copies_unlinked h hcl hy rfl).imp ?_
    rintro a1 s' - ⟨rfl, hhp, hnew⟩
    refine ⟨le_rfl, fun ρ hρ => ?_⟩
    have hid : ρ n.id = s.heap.length := hρ _ (hnew ▸ mem_cons_self)
    have hls : s'.heap[s.heap.length]? = some (.result t none n.opDiv n.opAdd n.val none) := by
      rw [hhp, getElem?_concat_length]
      rfl
    refine ⟨le_rfl, hid.symm, _, hls, ?_⟩
    simp only [renameNode, hres, Option.map_none, Obj.withUses, Obj.shape]
  | some x =>
    rw [hres] at hcl
    refine (copies_linked h hcl hy).imp ?_
    rintro a1 s' - ⟨rfl, x', hx', hnew, hls⟩
    refine ⟨le_rfl, fun ρ hρ => ?_⟩
    have hid : ρ n.id = s.heap.length := hρ _ (hnew ▸ mem_cons_self)
    have hx : ρ x = x' := hρ _ (hnew ▸ mem_cons_of_mem _ hx')
    refine ⟨le_rfl, hid.symm, _, hls, ?_⟩
    simp only [renameNode, hres, Option.map_some, hx, Obj.shape, Obj.withUses]

lemma clones_of_succ (h : ∀ fuel, x.count ≤ fuel + 1 → args.Clones old (clone (fuel + 1)) x)
    (hfl : x.count ≤ fuel) : args.Clones old (clone fuel) x := by
  obtain ⟨n, rfl⟩ := exists_eq_succ_of_ne_zero (x.count_pos.trans_le hfl).ne'
  exact h n hfl

/-- **An argument is copied** to cells behind those that are there. -/
theorem clones_arg (x : Arg) :
    ∀ fuel, x.count ≤ fuel + 1 → args.Clones old (clone (fuel + 1)) x := by
  induction x with
  | const t val | null t h | vma t address vmaSize =>
    exact fun fuel _ => clones_leaf rfl (fun _ => rfl) (fun _ _ _ => Iff.rfl) rfl rfl fun _ => rfl
  | data t bytes outSize =>
    rintro fuel - a s done ⟨-, sl, ho, hb⟩ h -
    refine copies_within (g := fun sl => .data t sl outSize) Slice.array
      (fun heap lo _ sl => BytesAt heap lo sl bytes) h ho (fun _ => rfl) (fun _ => rfl)
      (fun _ => (bind_assoc _ _ _).symm) ?_ (fun hk hlo hb => hb.mono hk hlo)
      (fun heap lo ρ sl a ha ho hb => ⟨ha, sl, ho, hb⟩)
    have hnew := h.alloc (.data t sl outSize)
    refine Copies.of_does ((does_loadBytes hnew hb).bind ((does_alloc _ _).bind (does_pure _ _)))
      (hnew.alloc _) (grows_alloc (by simp [Clean, Obj.refs]) _) ⟨le_rfl, fun ρ _ => ?_⟩
    exact bytesAt_new bytes le_rfl
  | ptr t address res ih =>
    rintro fuel hfl a s done ⟨-, r, ho, hr⟩ h hnd
    have hres := clones_of_succ ih (le_of_succ_le_succ hfl)
    exact copies_within (g := fun r => .pointer t address (some r)) id
      (fun heap lo ρ r => ArgAt heap lo (rename ρ res) r) h ho (fun _ => rfl) (fun _ => rfl)
      (fun _ => rfl) (hres r _ done hr (h.alloc _) hnd) (fun hk hlo hx => hx.mono hk hlo)
      (fun heap lo ρ r a ha ho hr => ⟨ha, r, ho, hr⟩)
  | union t option ih =>
    rintro fuel hfl a s done ⟨-, r, ho, hr⟩ h hnd
    have hop := clones_of_succ ih (le_of_succ_le_succ hfl)
    exact copies_within (g := fun r => .union t r) id
      (fun heap lo ρ r => ArgAt heap lo (rename ρ option) r) h ho (fun _ => rfl) (fun _ => rfl)
      (fun _ => rfl) (hop r _ done hr (h.alloc _) hnd) (fun hk hlo hx => hx.mono hk hlo)
      (fun heap lo ρ r a ha ho hr => ⟨ha, r, ho, hr⟩)
  | struct t inner ih | array t inner ih =>
    rintro fuel hfl a s done ⟨-, sl, as, ho, hp, has⟩ h hnd
    have hir : ∀ y ∈ inner, args.Clones old (clone fuel) y := fun y hy =>
      clones_of_succ (ih y hy) ((count_le_countAll hy).trans (le_of_succ_le_succ hfl))
    refine copies_group hir h hnd (by simp only [argNodes_struct, argNodes_array]) ho
      hp has (fun _ => rfl) (fun _ => rfl) (fun _ => by simp only [cloneFields, bind_assoc]) ?_
    intro heap lo ρ sl as a ha ho hp has
    simp only [rename_struct, rename_array]
    exact ⟨ha, sl, as, ho, hp, has⟩
  | result t n => exact fun fuel _ => clones_result t n

end All

end Razzer.CloneHeap
