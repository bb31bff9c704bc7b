import Razzer.DecodeTypes

/-!
What the parser accepts.

Everything that comes out of the parser is of its type, its results have references of their own,
and the lists of users agree with what the results use. The invariant goes through the parser one
combinator at a time.
-/

namespace Razzer.Decoding

open Args Progs Encoding TextParser Lines Minimize List Nat UInt64
open Option (map_eq_some_iff)

/-! ### The state -/

def St.Fresh (s : St) : Prop := ∀ u ∈ s.uses, u.2 < s.next

/-- References are only added, and so are users, which are new. -/
structure Grows (s s' : St) : Prop where
  next : s.next ≤ s'.next
  kept : ∀ u ∈ s.uses, u ∈ s'.uses
  added : ∀ u ∈ s'.uses, u ∈ s.uses ∨ s.next ≤ u.2 ∧ u.2 < s'.next

lemma Grows.refl (s : St) : Grows s s := ⟨le_rfl, fun _ h => h, fun _ h => .inl h⟩

variable {s s' s'' : St} {T : Target}

lemma Grows.trans (h : Grows s s') (h' : Grows s' s'') : Grows s s'' := by
  have hle := h.next
  have hle' := h'.next
  refine ⟨hle.trans hle', fun u hu => h'.kept u (h.kept u hu), fun u hu => ?_⟩
  rcases h'.added u hu with hu | hu
  · rcases h.added u hu with hu | hu
    · exact .inl hu
    · exact .inr ⟨hu.1, hu.2.trans_le hle'⟩
  · exact .inr ⟨hle.trans hu.1, hu.2⟩

lemma Grows.fresh (h : Grows s s') (hs : s.Fresh) : s'.Fresh := by
  intro u hu
  rcases h.added u hu with hu | hu
  · exact (hs u hu).trans_le h.next
  · exact hu.2

/-- Nodes that were made between two states: no two are the same, and their users are right. -/
structure Made (s s' : St) (nodes : List (Ref × Option Ref)) : Prop where
  nodup : (nodes.map Prod.fst).Nodup
  range : ∀ n ∈ nodes, s.next ≤ n.1 ∧ n.1 < s'.next
  uses : ∀ n ∈ nodes, ∀ x, (x, n.1) ∈ s'.uses ↔ n.2 = some x

lemma made_nil (s s' : St) : Made s s' [] := ⟨by simp, by simp, by simp⟩

variable {nodes nodes' ns : List (Ref × Option Ref)}

lemma Made.later (h : Made s s' nodes) (hg : Grows s' s'') :
    Made s s'' nodes := by
  refine ⟨h.nodup, fun n hn => ?_, fun n hn x => ?_⟩
  · exact ⟨(h.range n hn).1, (h.range n hn).2.trans_le hg.next⟩
  · rw [← h.uses n hn x]
    constructor
    · intro hmem
      rcases hg.added _ hmem with hmem | hmem
      · exact hmem
      · exact absurd hmem.1 (not_le.2 (h.range n hn).2)
    · exact hg.kept _

lemma Made.earlier {s0 : St} (h : Made s s' nodes)
    (hg : Grows s0 s) : Made s0 s' nodes :=
  ⟨h.nodup, fun n hn => ⟨hg.next.trans (h.range n hn).1, (h.range n hn).2⟩, h.uses⟩

lemma Made.append (h : Made s s' ns) (hg : Grows s s')
    (h' : Made s' s'' nodes') (hg' : Grows s' s'') : Made s s'' (ns ++ nodes') := by
  have hl := h.later hg'
  have hl' := h'.earlier hg
  refine ⟨?_, ?_, ?_⟩
  · rw [map_append, nodup_append]
    refine ⟨h.nodup, h'.nodup, fun x hx y hy => ?_⟩
    obtain ⟨n, hn, rfl⟩ := mem_map.1 hx
    obtain ⟨n', hn', rfl⟩ := mem_map.1 hy
    exact ((h.range n hn).2.trans_le (h'.range n' hn').1).ne
  · exact fun n hn => (mem_append.1 hn).elim (hl.range n) (hl'.range n)
  · exact fun n hn => (mem_append.1 hn).elim (hl.uses n) (hl'.uses n)

lemma made_freshNodes (hs : s.Fresh) (k : ℕ) :
    Made s { s with next := s.next + k } (freshNodes s.next k) := by
  have hmem : ∀ n ∈ freshNodes s.next k, (s.next ≤ n.1 ∧ n.1 < s.next + k) ∧ n.2 = none := by
    intro n hn
    obtain ⟨y, hy, rfl⟩ := mem_map.1 hn
    exact ⟨mem_range'_1.1 hy, rfl⟩
  refine ⟨?_, fun n hn => (hmem n hn).1, fun n hn x => ?_⟩
  · rw [freshNodes, map_map]
    exact (map_id (range' s.next k)).symm ▸ nodup_range'
  · rw [(hmem n hn).2]
    exact iff_of_false (fun h => absurd (hs _ h) (not_lt.2 (hmem n hn).1.1)) (by simp)

lemma grows_next (s : St) (k : ℕ) : Grows s { s with next := s.next + k } :=
  ⟨le_add_right _ _, fun _ h => h, fun _ h => .inl h⟩

lemma grows_vars (s : St) (vars : List (List Char × Option Ref)) :
    Grows s { s with vars := vars } :=
  ⟨le_rfl, fun _ h => h, fun _ h => .inl h⟩

lemma ensures_fresh_bind {α : Type} {k : Ref → P α} {Q : α → St → Prop}
    (hk : Ensures (k s.next) { s with next := s.next + 1 } Q) : Ensures (fresh >>= k) s Q := hk

lemma ensures_addUse_bind {α : Type} {k : Unit → P α} {x y : Ref} {Q : α → St → Prop}
    (hk : Ensures (k ()) { s with uses := s.uses ++ [(x, y)] } Q) :
    Ensures (addUse x y >>= k) s Q := hk

lemma made_use (hs : s.Fresh) (x : Ref) :
    Grows s { s with next := s.next + 1, uses := s.uses ++ [(x, s.next)] } ∧
      Made s { s with next := s.next + 1, uses := s.uses ++ [(x, s.next)] }
        [(s.next, some x)] := by
  refine ⟨⟨le_succ _, fun u hu => mem_append_left _ hu, fun u hu => ?_⟩,
    ⟨nodup_singleton _, ?_, ?_⟩⟩
  · rcases mem_append.1 hu with hu | hu
    · exact .inl hu
    · rw [mem_singleton.1 hu]
      exact .inr ⟨le_rfl, lt_succ_self _⟩
  · rintro n hn
    rw [mem_singleton.1 hn]
    exact ⟨le_rfl, lt_succ_self _⟩
  · rintro n hn y
    rw [mem_singleton.1 hn]
    have hold : (y, s.next) ∉ s.uses := fun h => absurd (hs _ h) (lt_irrefl _)
    simp [hold, eq_comm]

/-! ### Outcomes -/

structure Outcome (T : Target) (typ : Option TypeId) (s : St) (x : Parsed) (s' : St) : Prop where
  grows : Grows s s'
  arg : ∀ a, x.arg = some a → ∃ id, typ = some id ∧ Typed T id a ∧ Made s s' (argNodes a)

variable {elem typ : Option TypeId}

lemma Outcome.later {x : Parsed} (h : Outcome T typ s x s')
    (hg : Grows s' s'') : Outcome T typ s x s'' := by
  refine ⟨h.grows.trans hg, fun a ha => ?_⟩
  obtain ⟨id, hid, hty, hmd⟩ := h.arg a ha
  exact ⟨id, hid, hty, hmd.later hg⟩

lemma outcome_odd {odd : Odd} {ref : Option Ref} (hg : Grows s s') :
    Outcome T typ s ⟨.error odd, ref⟩ s' :=
  ⟨hg, fun a ha => by cases ha⟩

lemma outcome_outer {arg : Option Arg} {odd : Odd} (hg : Grows s s')
    (h : ∀ a, arg = some a → ∃ id, typ = some id ∧ Typed T id a ∧ Made s s' (argNodes a)) :
    Outcome T typ s (.outer arg odd) s' :=
  ⟨hg, by rwa [Parsed.arg_outer]⟩

lemma outcome_leaf {id : TypeId} (s : St) {a : Arg} (hty : Typed T id a)
    (hnd : argNodes a = []) : Outcome T (some id) s (.ofArg a) s := by
  refine ⟨.refl s, fun b hb => ?_⟩
  cases hb
  exact ⟨id, rfl, hty, hnd ▸ made_nil s s⟩

lemma ensures_makeDefaults (hT : T.wf) (ids : List TypeId) (hs : s.Fresh) :
    Ensures (makeDefaults T ids) s fun as s' =>
      Grows s s' ∧ Forall₂ (Typed T) ids as ∧ Made s s' (as.flatMap argNodes) := by
  refine ensures_state_bind (ensures_setState_bind (ensures_pure ?_))
  have hty := fun id (_ : id ∈ ids) n => typed_defaultOf hT (lt_succ_self id) n
  obtain ⟨k, hn, hnd⟩ :=
    nodes_thread (f := defaultArg T) (fun id n => nodes_defaultOf T (id + 1) id n) ids s.next
  rw [hn, hnd]
  exact ⟨grows_next s k, forall₂_thread hty _, made_freshNodes hs k⟩

lemma ensures_makeDefault (hT : T.wf) (typ : Option TypeId) (hs : s.Fresh) :
    Ensures (makeDefault T typ) s (Outcome T typ s) := by
  cases typ with
  | none => exact ensures_stop
  | some id =>
    refine ensures_state_bind (ensures_setState_bind (ensures_pure ?_))
    obtain ⟨k, hn, hnd⟩ := nodes_defaultOf T (id + 1) id s.next
    rw [defaultArg, hn]
    refine ⟨grows_next s k, fun a ha => ?_⟩
    cases ha
    exact ⟨id, rfl, typed_defaultOf hT (lt_succ_self id) _, hnd ▸ made_freshNodes hs k⟩

/-! ### Parsers that leave the state as it is -/

lemma keeps_number (msg : String) : Keeps (number msg) :=
  keeps_ident.bind fun s => by
    split
    · exact keeps_stop _
    · exact keeps_pure _

lemma keeps_parseOffset (addr : UInt64) : Keeps (parseOffset addr) :=
  keeps_char.bind fun c => by
    split
    · exact (keeps_parse c).bind fun _ => (keeps_number _).bind fun _ => keeps_pure _
    · exact keeps_pure _

lemma keeps_parseHex : Keeps parseHex :=
  keeps_char.bind fun c => by
    split
    · exact keeps_pure _
    · exact keeps_ident

lemma keeps_parseQuoted : Keeps parseQuoted := by
  rintro s t y s' t' heq
  unfold parseQuoted at heq
  split at heq
  · cases heq
  · split at heq <;> cases heq
    rfl

lemma keeps_deserializeData : Keeps deserializeData :=
  keeps_char.bind fun c => by
    split
    · refine (keeps_parse _).bind fun _ => keeps_parseHex.bind fun val =>
        (keeps_parse _).bind fun _ => ?_
      split
      · exact keeps_stop _
      · exact keeps_pure _
    · exact keeps_parseQuoted.bind fun _ => (keeps_parse _).bind fun _ => keeps_pure _

lemma keeps_parseOp (op : Char) (msg : String) : Keeps (parseOp op msg) :=
  keeps_char.bind fun c => by
    split
    · exact (keeps_parse op).bind fun _ => keeps_number msg
    · exact keeps_pure _

lemma keeps_parseBufferSize : Keeps parseBufferSize :=
  keeps_char.bind fun c => by
    split
    · exact (keeps_parse _).bind fun _ => keeps_number _
    · exact keeps_pure _

lemma keeps_parseComma (close : Char) : Keeps (parseComma close) :=
  keeps_char.bind fun c => by
    split
    · exact keeps_pure _
    · exact keeps_parse _

lemma keeps_parseName : Keeps parseName :=
  keeps_char.bind fun c => by
    split
    · exact (keeps_parse _).bind fun _ => keeps_ident.bind fun _ => (keeps_parse _).bind fun _ =>
        (keeps_parse _).bind fun _ => keeps_pure _
    · exact keeps_pure _

lemma keeps_parseHead : Keeps parseHead :=
  keeps_ident.bind fun name => keeps_char.bind fun c => by
    split
    · exact (keeps_parse _).bind fun _ => keeps_ident.bind fun _ => keeps_pure _
    · exact keeps_pure _

/-! ### Parsers of arguments -/

section Arguments

variable (hT : T.wf = true)
include hT

lemma ensures_parseSize (addr : UInt64) (s : St) :
    Ensures (parseSize T addr) s fun r s' => s' = s ∧ (r.2 = 0 ∨ Paged T r.1 r.2) := by
  refine keeps_char.ensures fun c => ?_
  split
  · exact (keeps_parse _).ensures fun _ => (keeps_number _).ensures fun size =>
      ensures_pure ⟨rfl, .inr (paged_alignVma hT addr size)⟩
  · exact ensures_pure ⟨rfl, .inl rfl⟩

lemma ensures_parseAddr (s : St) :
    Ensures (parseAddr T) s fun r s' => s' = s ∧ (r.2 = 0 ∨ Paged T r.1 r.2) := by
  refine (keeps_parse _).ensures fun _ => (keeps_number _).ensures fun addr => ?_
  split
  · exact ensures_stop
  · refine (keeps_parseOffset _).ensures fun addr => (ensures_parseSize hT addr s).bind ?_
    rintro r _ ⟨rfl, hr⟩
    exact (keeps_parse _).ensures fun _ => ensures_pure ⟨rfl, hr⟩

variable {xs : List Parsed}

lemma ensures_skipped (typ : Option TypeId) (hs : s.Fresh) :
    Ensures (skipped T typ) s (Outcome T typ s) :=
  (keeps_scan _ _).ensures fun _ => ensures_makeDefault hT typ hs

lemma ensures_parseConst (hs : s.Fresh)
    (hpad : ∀ id, typ = some id → (T.desc id).isPad = false) :
    Ensures (parseConst T typ) s (Outcome T typ s) := by
  refine (keeps_number _).ensures fun v => ?_
  split
  case h_1 t hmap =>
    obtain ⟨id, rfl, hds⟩ := map_eq_some_iff.1 hmap
    refine ensures_pure (outcome_leaf s (.const hds fun h => ?_) rfl)
    have := hpad id rfl
    rw [hds] at this
    exact absurd (h.symm.trans this) (by simp)
  case h_2 t hmap =>
    obtain ⟨id, rfl, hds⟩ := map_eq_some_iff.1 hmap
    refine ensures_fresh_bind (ensures_pure ?_)
    refine ⟨grows_next s 1, fun a ha => ?_⟩
    cases ha
    exact ⟨id, rfl, .result hds (by simp) (by simp), made_freshNodes hs 1⟩
  case h_3 t elem hmap =>
    obtain ⟨id, rfl, hds⟩ := map_eq_some_iff.1 hmap
    split
    · exact ensures_pure (outcome_leaf s (.null hds) rfl)
    · exact ensures_makeDefault hT _ hs
  case h_4 t hmap =>
    obtain ⟨id, rfl, hds⟩ := map_eq_some_iff.1 hmap
    split
    · exact ensures_pure (outcome_leaf s (.vma hds (by simp) (.inl rfl)) rfl)
    · exact ensures_makeDefault hT _ hs
  case h_5 => exact ensures_skipped hT typ hs

lemma ensures_parseResult (typ : Option TypeId) (hs : s.Fresh) :
    Ensures (parseResult T typ) s (Outcome T typ s) := by
  refine keeps_ident.ensures fun name => (keeps_parseOp _ _).ensures fun div =>
    (keeps_parseOp _ _).ensures fun add => ensures_state_bind ?_
  split
  case h_1 x _ =>
    obtain ⟨hgr, hmd⟩ := made_use hs x
    refine ensures_fresh_bind (ensures_addUse_bind ?_)
    split
    case h_1 t hmap =>
      obtain ⟨id, rfl, hds⟩ := map_eq_some_iff.1 hmap
      refine ensures_pure ⟨hgr, fun a ha => ?_⟩
      cases ha
      exact ⟨id, rfl, .result hds (by simp) (by simp), hmd⟩
    all_goals exact ensures_pure (outcome_odd hgr)
  case h_2 => exact ensures_makeDefault hT typ hs

variable {s0 : St}

lemma ensures_makePointer {t : PtrType} {id elem : TypeId} (addr : UInt64) {as : Option Parsed}
    (hs : s.Fresh) (hg : Grows s0 s) (hptr : ∀ res, Typed T elem res → Typed T id (.ptr t addr res))
    (hir : ∀ x, as = some x → Outcome T (some elem) s0 x s) :
    Ensures (makePointer T t elem addr as) s (Outcome T (some id) s0) := by
  have hout : ∀ x s', Outcome T (some elem) s0 x s' →
      Outcome T (some id) s0 (.outer (x.arg.map fun res => .ptr t addr res) (x.odd.ptr t addr))
        s' := by
    intro x s' hx
    refine outcome_outer hx.grows fun a ha => ?_
    obtain ⟨res, hres, rfl⟩ := map_eq_some_iff.1 ha
    obtain ⟨_, hid, hty, hmd⟩ := hx.arg res hres
    cases hid
    exact ⟨id, rfl, hptr res hty, hmd⟩
  cases as with
  | some x => exact ensures_pure (hout x s (hir x rfl))
  | none =>
    refine (ensures_makeDefault hT (some elem) hs).bind fun x s' hx => ensures_pure (hout x s' ?_)
    refine ⟨hg.trans hx.grows, fun a ha => ?_⟩
    obtain ⟨id', hid, hty, hmd⟩ := hx.arg a ha
    exact ⟨id', hid, hty, hmd.earlier hg⟩

def Sound (T : Target) (parseArg : Option TypeId → P Parsed) : Prop :=
  ∀ typ s, s.Fresh → (∀ id, typ = some id → (T.desc id).isPad = false) →
    Ensures (parseArg typ) s (Outcome T typ s)

variable {parseArg : Option TypeId → P Parsed} (hparse : Sound T parseArg)
include hparse

lemma ensures_parsePointee {c : TypeCommon} (hs : s.Fresh)
    (hpad : ∀ id, elem = some id → (T.desc id).isPad = false) :
    Ensures (parsePointee T parseArg c elem) s fun r s' => Grows s s' ∧
      (∀ t x, r = some (some t, x) → T.makeAnyPtrType c.size c.fieldName = some t ∧
        Outcome T (some T.anyArray) s x s') ∧
      ∀ x, r = some (none, x) → Outcome T elem s x s' := by
  refine keeps_char.ensures fun c => ?_
  split
  · refine (keeps_parse _).ensures fun _ => keeps_char.ensures fun c => ?_
    split
    · refine (keeps_parse _).ensures fun _ => (keeps_parse _).ensures fun _ =>
        (keeps_parse _).ensures fun _ => (keeps_parse _).ensures fun _ => ?_
      split
      · exact ensures_stop
      case h_2 t ht =>
        refine (hparse _ s hs ?_).bind fun x s' hx => ensures_pure ⟨hx.grows, ?_, ?_⟩
        · rintro id ⟨⟩
          exact isPad_anyArray hT
        · rintro t' y ⟨⟩
          exact ⟨ht, hx⟩
        · rintro y ⟨⟩
    · refine (hparse _ s hs hpad).bind fun x s' hx => ensures_pure ⟨hx.grows, ?_, ?_⟩
      · rintro t y ⟨⟩
      · rintro y ⟨⟩
        exact hx
  · refine ensures_pure ⟨.refl s, ?_, ?_⟩
    · rintro t y ⟨⟩
    · rintro y ⟨⟩

omit hparse in
/-- A squashed pointer stands for a pointer or a region of the same size. -/
lemma ensures_makeAnyPointer {c : TypeCommon} {id : TypeId} (addr : UInt64) {t : PtrType}
    {x : Parsed} (hs : s.Fresh) (hg : Grows s0 s)
    (hany : ∀ t, T.makeAnyPtrType c.size c.fieldName = some t → anyTypeOf T (T.desc id) = some t)
    (hx : T.makeAnyPtrType c.size c.fieldName = some t ∧ Outcome T (some T.anyArray) s0 x s) :
    Ensures (makePointer T t T.anyArray addr (some x)) s (Outcome T (some id) s0) := by
  refine ensures_makePointer hT addr hs hg (fun res => .any (hany t hx.1)) ?_
  rintro x ⟨⟩
  exact hx.2

lemma ensures_parsePointer (typ : Option TypeId) (hs : s.Fresh) :
    Ensures (parsePointer T parseArg typ) s (Outcome T typ s) := by
  unfold parsePointer
  split
  case h_1 t elem hmap =>
    obtain ⟨id, rfl, hds⟩ := map_eq_some_iff.1 hmap
    refine (keeps_parse _).ensures fun _ => (ensures_parseAddr hT s).bind ?_
    rintro addr _ ⟨rfl, -⟩
    have hpad : ∀ id, some elem = some id → (T.desc id).isPad = false := by
      rintro _ ⟨⟩
      exact (wf_ptr hT hds).1
    refine (ensures_parsePointee hT hparse hs hpad).bind ?_
    rintro pointee s' ⟨hg, hany, hx⟩
    split
    case h_1 anyPtr inner =>
      exact ensures_makeAnyPointer hT _ (hg.fresh hs) hg (fun t' ht => by rw [hds]; exact ht)
        (hany anyPtr inner rfl)
    case h_2 inner =>
      refine ensures_makePointer hT _ (hg.fresh hs) hg (fun res => .ptr hds) ?_
      rintro x ⟨⟩
      exact hx inner rfl
    case h_3 =>
      exact ensures_makePointer hT _ (hg.fresh hs) hg (fun res => .ptr hds)
        fun x h => by cases h
  case h_2 t hmap =>
    obtain ⟨id, rfl, hds⟩ := map_eq_some_iff.1 hmap
    refine (keeps_parse _).ensures fun _ => (ensures_parseAddr hT s).bind ?_
    rintro addr _ ⟨rfl, hrg⟩
    refine (ensures_parsePointee hT hparse hs fun id h => by cases h).bind ?_
    rintro pointee s' ⟨hg, hany, hx⟩
    split
    case h_1 anyPtr inner =>
      exact ensures_makeAnyPointer hT _ (hg.fresh hs) hg (fun t' ht => by rw [hds]; exact ht)
        (hany anyPtr inner rfl)
    case h_2 =>
      split
      · exact ensures_stop
      case isFalse hal =>
        refine ensures_pure ⟨hg, fun a ha => ?_⟩
        cases ha
        exact ⟨id, rfl, .vma hds (not_not.1 hal) hrg, made_nil _ _⟩
  case h_3 => exact ensures_skipped hT typ hs

omit hparse in
lemma ensures_parseBuffer (typ : Option TypeId) (hs : s.Fresh) :
    Ensures (parseBuffer T typ) s (Outcome T typ s) := by
  unfold parseBuffer
  split
  case h_1 t hmap =>
    obtain ⟨id, rfl, hds⟩ := map_eq_some_iff.1 hmap
    have hft := wf_buffer hT hds
    refine keeps_deserializeData.ensures fun data => keeps_parseBufferSize.ensures fun size => ?_
    have hfx : t.varlen = false → (bufferSize t data size).toNat = t.size := by
      intro hvr
      rw [bufferSize, if_pos hvr, toNat_ofNat']
      exact mod_eq_of_lt (by omega)
    dsimp only
    split_ifs with hlen hdir hsz hmem
    · exact ensures_stop
    · refine ensures_pure (outcome_leaf s (.data hds ?_) rfl)
      rw [DataOf, if_pos hdir]
      refine ⟨rfl, ?_, hfx⟩
      -- The size of all ones stands for no size, so it is not the result.
      have hmax : (bufferSize t data size).toNat ≠ 2 ^ 64 - 1 := by
        unfold bufferSize
        split_ifs with hvr hnn
        · rw [toNat_ofNat']
          omega
        · rw [toNat_ofNat']
          omega
        · exact fun h => hnn (UInt64.toNat_inj.1 h)
      have := (bufferSize t data size).toNat_lt
      omega
    · exact ensures_stop
    · exact ensures_stop
    · refine ensures_pure (outcome_leaf s (.data hds ?_) rfl)
      have hln : ((data ++ replicate ((bufferSize t data size).toNat - data.length) 0).take
          (bufferSize t data size).toNat).length = (bufferSize t data size).toNat := by
        rw [length_take, length_append, length_replicate]
        omega
      rw [DataOf, if_neg hdir, hln]
      exact ⟨rfl, Nat.lt_of_not_le hsz, hfx⟩
  case h_2 => exact ensures_skipped hT typ hs

/-! ### Lists -/

omit hT hparse

inductive Outcomes (T : Target) : List TypeId → St → List Parsed → St → Prop
  | nil {s s' : St} (hg : Grows s s') : Outcomes T [] s [] s'
  | cons {id : TypeId} {ids : List TypeId} {x : Parsed} {xs : List Parsed} {s s' s'' : St}
      (hx : Outcome T (some id) s x s') (hxs : Outcomes T ids s' xs s'') :
      Outcomes T (id :: ids) s (x :: xs) s''

variable {fs ids : List TypeId}

lemma Outcomes.grows (h : Outcomes T ids s xs s') : Grows s s' := by
  induction h with
  | nil hg => exact hg
  | cons hx _ ih => exact hx.grows.trans ih

lemma Outcomes.length_eq (h : Outcomes T ids s xs s') :
    ids.length = xs.length := by
  induction h with
  | nil => rfl
  | cons _ _ ih => rw [length_cons, length_cons, ih]

lemma Outcomes.take (h : Outcomes T ids s xs s') (k : ℕ) :
    Outcomes T (ids.take k) s (xs.take k) s' := by
  induction h generalizing k with
  | nil hg => simpa using Outcomes.nil hg
  | cons hx hxs ih =>
    cases k with
    | zero => exact .nil (hx.grows.trans hxs.grows)
    | succ k => exact .cons hx (ih k)

lemma Outcomes.args {as : List Arg} (h : Outcomes T ids s xs s')
    (has : allArgs xs = some as) :
    Forall₂ (Typed T) ids as ∧ Made s s' (as.flatMap argNodes) := by
  induction h generalizing as with
  | nil =>
    cases has
    exact ⟨.nil, made_nil _ _⟩
  | cons hx hxs ih =>
    obtain ⟨a, ha, hmap⟩ := Option.bind_eq_some_iff.1 has
    obtain ⟨as', has', rfl⟩ := map_eq_some_iff.1 hmap
    obtain ⟨hty, hmd⟩ := ih has'
    obtain ⟨_, ⟨⟩, hty', hmd'⟩ := hx.arg a ha
    exact ⟨.cons hty' hty, hmd'.append hx.grows hmd hxs.grows⟩

def SlotSound (T : Target) (typ : Option TypeId) : Slot → Prop
  | .text p => ∀ s, s.Fresh → Ensures p s (Outcome T typ s)
  | .pad p => ∀ s, s.Fresh → Ensures p s (Outcome T typ s)

/-- **A list is of the types of its places.** -/
theorem ensures_parseSeq {close : Char} {slot : ℕ → Option Slot} {g : ℕ → Option TypeId}
    (hsl : ∀ i p, slot i = some p → ∃ id, g i = some id ∧ SlotSound T (some id) p) (fuel i : ℕ)
    (hs : s.Fresh) :
    Ensures (parseSeq close slot fuel i) s fun xs s' => ∃ ids, Outcomes T ids s xs s' ∧
      ∀ j id, ids[j]? = some id → g (i + j) = some id := by
  have hcn : ∀ {id x xs s s₁ s' ids i}, g i = some id → Outcome T (some id) s x s₁ →
      Outcomes T ids s₁ xs s' → (∀ j id, ids[j]? = some id → g (i + 1 + j) = some id) →
      ∃ ids, Outcomes T ids s (x :: xs) s' ∧ ∀ j id, ids[j]? = some id → g (i + j) = some id := by
    intro id x xs s s₁ s' ids i hid hx hxs hids
    refine ⟨id :: ids, .cons hx hxs, fun j id' hj => ?_⟩
    cases j with
    | zero =>
      cases hj
      exact hid
    | succ j =>
      rw [add_comm j, ← add_assoc]
      exact hids j id' hj
  induction fuel generalizing i s with
  | zero => exact ensures_stop
  | succ fuel ih =>
    refine keeps_char.ensures fun c => ?_
    split
    · exact ensures_pure ⟨[], .nil (.refl s), by simp⟩
    · split
      case h_1 =>
        exact (keeps_scan _ _).ensures fun _ => ensures_pure ⟨[], .nil (.refl s), by simp⟩
      case h_2 p hp =>
        obtain ⟨id, hid, hsn⟩ := hsl i _ hp
        refine (hsn s hs).bind fun x s₁ hx => ?_
        refine (ih (i + 1) (hx.grows.fresh hs)).bind ?_
        rintro xs s' ⟨ids, hxs, hids⟩
        exact ensures_pure (hcn hid hx hxs hids)
      case h_3 p hp =>
        obtain ⟨id, hid, hsn⟩ := hsl i _ hp
        refine (hsn s hs).bind fun x s₁ hx => (keeps_parseComma _).ensures fun _ => ?_
        refine (ih (i + 1) (hx.grows.fresh hs)).bind ?_
        rintro xs s' ⟨ids, hxs, hids⟩
        exact ensures_pure (hcn hid hx hxs hids)

lemma eq_take_of_getElem?
    (h : ∀ j id, ids[j]? = some id → fs[0 + j]? = some id) : ids = fs.take ids.length := by
  refine ext_getElem? fun j => ?_
  by_cases hj : j < ids.length
  · rw [getElem?_take_of_lt hj, ← zero_add j, h j _ (getElem?_eq_getElem hj), zero_add]
    exact getElem?_eq_getElem hj
  · rw [getElem?_eq_none (by omega), getElem?_eq_none (by simp; omega)]

lemma Outcomes.append_defaults {l : List Parsed}
    {as rest : List Arg} (h : Outcomes T (fs.take l.length) s l s') (has : allArgs l = some as)
    (hg : Grows s' s'') (hrs : Forall₂ (Typed T) (fs.drop l.length) rest)
    (hmd : Made s' s'' (rest.flatMap argNodes)) :
    Forall₂ (Typed T) fs (as ++ rest) ∧ Made s s'' ((as ++ rest).flatMap argNodes) := by
  obtain ⟨hty, hmd'⟩ := h.args has
  refine ⟨?_, ?_⟩
  · rw [← take_append_drop l.length fs]
    exact rel_append hty hrs
  · rw [flatMap_append]
    exact hmd'.append h.grows hmd hg

section Groups

variable (hT : T.wf = true) (hparse : Sound T parseArg)
include hT hparse

omit hT in
lemma fieldSlot_sound (fs : List TypeId) (i : ℕ) (p : Slot)
    (h : fieldSlot T parseArg fs i = some p) :
    ∃ id, fs[i]? = some id ∧ SlotSound T (some id) p := by
  obtain ⟨f, hf, rfl⟩ := map_eq_some_iff.1 h
  refine ⟨f, hf, ?_⟩
  have htx : (T.desc f).isPad = false → SlotSound T (some f) (.text (parseArg (some f))) := by
    intro hpad s hs
    refine hparse _ s hs ?_
    rintro _ ⟨⟩
    exact hpad
  split
  case h_1 t hds =>
    split
    · exact fun s _ => ensures_pure (outcome_leaf s (.const hds fun _ => rfl) rfl)
    case isFalse hpad =>
      refine htx ?_
      rw [hds]
      exact Bool.eq_false_of_not_eq_true hpad
  case h_2 hds =>
    refine htx ?_
    cases hd : T.desc f with
    | const t => exact absurd hd (hds t)
    | _ => rfl

lemma ensures_parseStruct (fuel : ℕ) (typ : Option TypeId) (hs : s.Fresh) :
    Ensures (parseStruct T fuel parseArg typ) s (Outcome T typ s) := by
  refine (keeps_parse _).ensures fun _ => ?_
  split
  case h_1 t fields hmap =>
    obtain ⟨id, rfl, hds⟩ := map_eq_some_iff.1 hmap
    refine (ensures_parseSeq (fieldSlot_sound hparse fields) fuel 0 hs).bind ?_
    rintro inner s' ⟨ids, hir, hids⟩
    have hln := hir.length_eq
    rw [eq_take_of_getElem? hids, hln] at hir
    refine (keeps_parse _).ensures fun _ => ?_
    refine (ensures_makeDefaults hT _ (hir.grows.fresh hs)).bind ?_
    rintro rest s'' ⟨hg, hrs, hmd⟩
    refine ensures_pure (outcome_outer (hir.grows.trans hg) fun a ha => ?_)
    obtain ⟨as, has, rfl⟩ := map_eq_some_iff.1 ha
    obtain ⟨hty, hmd⟩ := hir.append_defaults has hg hrs hmd
    exact ⟨id, rfl, .struct hds hty, by rwa [argNodes_struct]⟩
  case h_2 =>
    exact (keeps_scan _ _).ensures fun _ => (keeps_parse _).ensures fun _ =>
      ensures_makeDefault hT typ hs

lemma ensures_parseArray (fuel : ℕ) (typ : Option TypeId) (hs : s.Fresh) :
    Ensures (parseArray T fuel parseArg typ) s (Outcome T typ s) := by
  refine (keeps_parse _).ensures fun _ => ?_
  split
  case h_1 t elem hmap =>
    obtain ⟨id, rfl, hds⟩ := map_eq_some_iff.1 hmap
    have hsl : ∀ (i : ℕ) (p : Slot), some (Slot.text (parseArg (some elem))) = some p →
        ∃ id, some elem = some id ∧ SlotSound T (some id) p := by
      rintro i _ ⟨⟩
      refine ⟨elem, rfl, fun s hs => hparse _ s hs ?_⟩
      rintro _ ⟨⟩
      exact wf_array hT hds
    refine (ensures_parseSeq (g := fun _ => some elem) hsl fuel 0 hs).bind ?_
    rintro inner s' ⟨ids, hir, hids⟩
    obtain rfl : ids = replicate inner.length elem := by
      refine eq_replicate_iff.2 ⟨hir.length_eq, fun id' hmem => ?_⟩
      obtain ⟨j, hj⟩ := mem_iff_getElem?.1 hmem
      exact (Option.some.inj (hids j id' hj)).symm
    refine (keeps_parse _).ensures fun _ => ?_
    split
    case isTrue hfx =>
      refine (ensures_makeDefaults hT _ (hir.grows.fresh hs)).bind ?_
      rintro rest s'' ⟨hg, hrs, hmd⟩
      refine ensures_pure (outcome_outer (hir.grows.trans hg) fun a ha => ?_)
      obtain ⟨as, has, rfl⟩ := map_eq_some_iff.1 ha
      have htk := hir.take t.rangeBegin
      have hfl : Forall₂ (Typed T) (replicate t.rangeBegin elem) (as ++ rest) ∧
          Made s s'' ((as ++ rest).flatMap argNodes) := by
        refine Outcomes.append_defaults (l := inner.take t.rangeBegin) ?_ has hg ?_ hmd
        · rw [take_replicate] at htk ⊢
          rw [length_take, min_eq_left (min_le_left _ _)]
          exact htk
        · rw [drop_replicate, length_take]
          convert hrs using 2
          omega
      refine ⟨id, rfl, .array hds (fun _ => ?_) fun a ha => ?_, by
        rw [argNodes_array]
        exact hfl.2⟩
      · rw [← hfl.1.length_eq, length_replicate]
      · obtain ⟨id', hmem, hty⟩ := exists_mem_of_forall₂ hfl.1 ha
        rwa [eq_of_mem_replicate hmem] at hty
    case isFalse hfx =>
      refine ensures_pure (outcome_outer hir.grows fun a ha => ?_)
      obtain ⟨as, has, rfl⟩ := map_eq_some_iff.1 ha
      obtain ⟨hty, hmd⟩ := hir.args has
      refine ⟨id, rfl, .array hds (fun h => absurd h hfx) fun a ha => ?_, by
        rwa [argNodes_array]⟩
      obtain ⟨id', hmem, hty⟩ := exists_mem_of_forall₂ hty ha
      rwa [eq_of_mem_replicate hmem] at hty
  case h_2 =>
    exact (keeps_scan _ _).ensures fun _ => (keeps_parse _).ensures fun _ =>
      ensures_makeDefault hT typ hs

lemma ensures_parseOption {f : TypeId} (hpad : (T.desc f).isPad = false) (hs : s.Fresh) :
    Ensures (parseOption T parseArg f) s (Outcome T (some f) s) := by
  refine keeps_char.ensures fun c => ?_
  split
  · refine (keeps_parse _).ensures fun _ => hparse _ s hs ?_
    rintro _ ⟨⟩
    exact hpad
  · exact ensures_makeDefault hT _ hs

lemma ensures_parseUnion (typ : Option TypeId) (hs : s.Fresh) :
    Ensures (parseUnion T parseArg typ) s (Outcome T typ s) := by
  unfold parseUnion
  split
  case h_1 t fields hmap =>
    obtain ⟨id, rfl, hds⟩ := map_eq_some_iff.1 hmap
    refine (keeps_parse _).ensures fun _ => keeps_ident.ensures fun name => ?_
    split
    case h_1 => exact ensures_skipped hT _ hs
    case h_2 f hfn =>
      obtain ⟨hpad, hidn⟩ := (wf_union hT hds).2 f (mem_of_find?_eq_some hfn)
      refine (ensures_parseOption hT hparse hpad hs).bind fun x s' hx => ensures_pure ?_
      refine outcome_outer hx.grows fun a ha => ?_
      obtain ⟨option, hop, hnm⟩ := Option.bind_eq_some_iff.1 ha
      obtain ⟨_, ⟨⟩, hty, hmd⟩ := hx.arg option hop
      split_ifs at hnm with hany
      cases hnm
      rw [Parsed.odd_eq_ofArg hop] at hany
      have hne : (T.desc f).common.fieldName ≠ "" := fun h => by simp [h, isIdentifier] at hidn
      refine ⟨id, rfl, .union hds ?_ hany hty, hmd⟩
      rw [hty.fieldName_eq hne, name_of_findField hfn]
      exact hfn
  case h_2 => exact ensures_skipped hT typ hs

omit hparse in
lemma ensures_parseNil (typ : Option TypeId) (r : Option (List Char)) (hs : s.Fresh) :
    Ensures (parseNil T typ r) s (Outcome T typ s) := by
  refine (keeps_parse _).ensures fun _ => (keeps_parse _).ensures fun _ =>
    (keeps_parse _).ensures fun _ => ?_
  split
  · exact ensures_makeDefault hT _ hs
  · split
    · exact ensures_stop
    · exact ensures_pure (outcome_odd (.refl s))

lemma ensures_parseValue (fuel : ℕ) (r : Option (List Char)) (hs : s.Fresh)
    (hpad : ∀ id, typ = some id → (T.desc id).isPad = false) :
    Ensures (parseValue T fuel parseArg typ r) s (Outcome T typ s) := by
  refine keeps_char.ensures fun c => ?_
  split_ifs
  · exact ensures_parseConst hT hs hpad
  · exact ensures_parseResult hT typ hs
  · exact ensures_parsePointer hT hparse typ hs
  · exact ensures_parseBuffer hT typ hs
  · exact ensures_parseStruct hT hparse fuel typ hs
  · exact ensures_parseArray hT hparse fuel typ hs
  · exact ensures_parseUnion hT hparse typ hs
  · exact ensures_parseNil hT typ r hs
  · exact ensures_stop

end Groups

end Arguments

lemma grows_bindName (r : Option (List Char)) (x : Option Ref) (s : St) :
    Ensures (bindName r x) s fun _ s' => Grows s s' := by
  cases r with
  | none => exact ensures_pure (.refl s)
  | some name => exact ensures_state_bind (ensures_setState (grows_vars s _))

/-- **An argument that is accepted is of its type**, and its users are right. -/
theorem sound_parseArg (hT : T.wf) (fuel : ℕ) : Sound T (parseArg T fuel) := by
  induction fuel with
  | zero => exact fun typ s _ _ => ensures_stop
  | succ fuel ih =>
    intro typ s hs hpad
    refine keeps_parseName.ensures fun r => ?_
    refine (ensures_parseValue hT ih fuel r hs hpad).bind fun x s' hx => ?_
    exact (grows_bindName r x.ref s').bind fun _ s'' hg => ensures_pure (hx.later hg)

/-! ### Calls -/

structure CallOutcome (T : Target) (s : St) (c : RawCall) (s' : St) : Prop where
  grows : Grows s s'
  desc : T.syscallMap c.desc.syscall.name.toList = some c.desc
  args : ∀ as, c.args = some as → Forall₂ (Typed T) c.desc.args as ∧
    Made s s' ((c.ret, none) :: as.flatMap argNodes)

lemma argSlot_sound (hT : T.wf) (fuel : ℕ) (types : List TypeId) (i : ℕ) (p : Slot)
    (h : argSlot T fuel types i = some p) :
    ∃ id, types[i]? = some id ∧ SlotSound T (some id) p := by
  obtain ⟨id, hid, rfl⟩ := map_eq_some_iff.1 h
  refine ⟨id, hid, ?_⟩
  split
  · exact fun s _ => ensures_stop
  case isFalse hpad =>
    intro s hs
    refine sound_parseArg hT fuel _ s hs ?_
    rintro _ ⟨⟩
    exact Bool.eq_false_of_not_eq_true hpad

lemma ensures_parseCall (hT : T.wf) (fuel : ℕ) (hs : s.Fresh) :
    Ensures (parseCall T fuel) s (CallOutcome T s) := by
  refine keeps_parseHead.ensures fun head => ?_
  split
  case h_1 => exact ensures_stop
  case h_2 desc hds =>
    refine ensures_fresh_bind ((keeps_parse _).ensures fun _ => ?_)
    have hg1 := grows_next s 1
    refine (ensures_parseSeq (argSlot_sound hT fuel desc.args) fuel 0 (hg1.fresh hs)).bind ?_
    rintro args s2 ⟨ids, har, hids⟩
    have hln := har.length_eq
    rw [eq_take_of_getElem? hids, hln] at har
    refine (keeps_parse _).ensures fun _ => keeps_eof.ensures fun atEnd => ?_
    split
    · refine (ensures_makeDefaults hT _ (har.grows.fresh (hg1.fresh hs))).bind ?_
      rintro rest s3 ⟨hg, hrs, hmd⟩
      refine (grows_bindName head.1 _ s3).bind fun _ s4 hg4 => ensures_pure ?_
      have hg2 := har.grows.trans (hg.trans hg4)
      refine ⟨hg1.trans hg2, by rw [name_of_syscallMap hds, hds], fun as has => ?_⟩
      obtain ⟨as', has', rfl⟩ := map_eq_some_iff.1 has
      obtain ⟨hty, hmd⟩ := har.append_defaults has' (hg.trans hg4) hrs (hmd.later hg4)
      exact ⟨hty, (made_freshNodes hs 1).append hg1 hmd hg2⟩
    · exact ensures_stop

def CallTyped (T : Target) (c : Call) : Prop :=
  ∃ desc, T.syscallMap c.syscall.name.toList = some desc ∧ desc.syscall = c.syscall ∧
    Forall₂ (Typed T) desc.args c.args

lemma CallOutcome.call {c : RawCall} {d : Call} (h : CallOutcome T s c s') (hd : c.call = some d) :
    CallTyped T d ∧ Made s s' d.nodes := by
  obtain ⟨as, has, rfl⟩ := map_eq_some_iff.1 hd
  obtain ⟨hty, hmd⟩ := h.args as has
  exact ⟨⟨c.desc, h.desc, rfl, hty⟩, by rwa [nodes_call]⟩

lemma ensures_parseLine (hT : T.wf) (fuel : ℕ) (hs : s.Fresh) :
    Ensures (parseLine T fuel) s fun r s' =>
      Grows s s' ∧ ∀ c, r = some c → CallOutcome T s c s' := by
  refine keeps_eof.ensures fun atEnd => ?_
  split
  · exact ensures_pure ⟨.refl s, fun c h => by cases h⟩
  · refine keeps_char.ensures fun c => ?_
    split
    · exact ensures_pure ⟨.refl s, fun c h => by cases h⟩
    · refine (ensures_parseCall hT fuel hs).bind fun call s' h => ensures_pure ⟨h.grows, ?_⟩
      rintro _ ⟨⟩
      exact h

variable {fuel : ℕ} {raw : List RawCall}

/-- **Every call that is accepted is of the target**, and the users are right. -/
theorem parseLines_sound (hT : T.wf) {ls : List (List Char)} {cs : List Call} (hs : s.Fresh)
    (h : parseLines T fuel ls s = .ok (raw, s')) (hcl : allCalls raw = some cs) :
    Grows s s' ∧ (∀ c ∈ cs, CallTyped T c) ∧ Made s s' (cs.flatMap Call.nodes) := by
  induction ls generalizing s raw cs with
  | nil =>
    cases h
    cases hcl
    exact ⟨.refl _, by simp, made_nil _ _⟩
  | cons line ls ih =>
    rw [parseLines] at h
    split at h
    · cases h
    · cases h
    case h_3 call s₁ _ hln =>
      obtain ⟨hg, hca⟩ := ensures_parseLine hT fuel hs _ _ _ _ hln
      cases hrs : parseLines T fuel ls s₁ with
      | error e =>
        rw [hrs] at h
        cases h
      | ok r =>
      rw [hrs] at h
      cases h
      cases call with
      | none =>
        obtain ⟨hg', hcl', hmd⟩ := ih (hg.fresh hs) hrs hcl
        exact ⟨hg.trans hg', hcl', hmd.earlier hg⟩
      | some c =>
        obtain ⟨d, hd, hmap⟩ := Option.bind_eq_some_iff.1 hcl
        obtain ⟨calls', hcl', rfl⟩ := map_eq_some_iff.1 hmap
        obtain ⟨hg', hty', hmd'⟩ := ih (hg.fresh hs) hrs hcl'
        obtain ⟨hty, hmd⟩ := (hca c rfl).call hd
        refine ⟨hg.trans hg', forall_mem_cons.2 ⟨hty, hty'⟩, ?_⟩
        exact hmd.append hg hmd' hg'

end Razzer.Decoding
