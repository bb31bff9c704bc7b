import Razzer.Approved
import Razzer.Encoding

/-!
What minimisation does when the predicate refuses everything.

A call that is not stable is changed all the same. The first buffer of the call is committed in
the only walk that gets to it. If an array element can be removed later in that walk, it is
removed from the committed program and never put back; otherwise the walk ends with the length
fields of the call set.
-/

namespace Razzer.Minimize

open Args Progs Sizes Trim List Option String

def refuse : Pred := fun _ _ => false

/-- The length fields of call `i` are right. -/
def SettledAt (p : Prog) (i : ℕ) : Prop := ∀ c, p.calls[i]? = some c → settle c.args = c.args

variable {p q : Prog}

lemma SettledAt.calm {i : ℕ} (h : SettledAt p i) (hcl : Calms p q) :
    SettledAt q i := by
  intro c' hc'
  obtain ⟨hi', rfl⟩ := List.getElem?_eq_some_iff.1 hc'
  have hi : i < p.calls.length := hcl.length_eq ▸ hi'
  exact (forall₂_iff_get.1 hcl).2 i hi hi' (h _ (getElem?_eq_getElem hi))

variable {fuel i : ℕ} {b long : Bool} {V1 V2 vs : List Visit} {c : Call} {pred : Pred} {s : Tracked}
  {log : Log} {p0 : Prog}

lemma settledAt_of_assignSizesAt (h : assignSizesAt i p = some p) : SettledAt p i := by
  intro c hc
  have hget := getElem?_withArgs hc (settle c.args)
  rw [← assignSizesAt_eq_some hc h, hc] at hget
  have := congrArg Call.args (some.inj hget)
  exact this.symm

lemma callCount_le (h : ProgTrims p q) (i : ℕ) : callCount q i ≤ callCount p i := by
  unfold callCount
  have hlen := h.length_eq
  by_cases hi : i < p.calls.length
  · have hi' : i < q.calls.length := by omega
    rw [getElem?_eq_getElem hi, getElem?_eq_getElem hi']
    exact ((forall₂_iff_get.1 h).2 i hi hi').count_le
  · rw [getElem?_eq_none (by omega), getElem?_eq_none (by omega)]

variable {v : Visit}

lemma kindAt_buffer (h : kindAt p i v = .buffer long) :
    ∃ pos path t bytes outSize, v = .leaf pos path ∧
      argAt p i pos = some (.data t bytes outSize) := by
  cases v with
  | elem pos path k =>
    simp only [kindAt] at h
    split at h
    · split at h <;> cases h
    · cases h
  | leaf pos path =>
    simp only [kindAt] at h
    split at h
    case h_1 t bytes outSize hat => exact ⟨pos, path, t, bytes, outSize, rfl, hat⟩
    case h_2 => cases h

/-- Buffers, and array elements that can be removed, have paths of their own. -/
def DistinctPaths (p : Prog) : Prop :=
  ∀ i < p.calls.length, (callVisits p i).Pairwise fun u v =>
    kindAt p i u ≠ .other ∨ kindAt p i v ≠ .other → u.path ≠ v.path

instance (p : Prog) : Decidable (DistinctPaths p) :=
  inferInstanceAs (Decidable (∀ i < p.calls.length, (callVisits p i).Pairwise _))

section Refused

variable {env : Env} (hpred : ∀ log q, env.pred log q = false) {start : Prog} {w w' : Walk}
  {v : Visit}
include hpred

/-! ### The walk up to the first buffer -/

lemma quiet_visit (hp : w.p = start) (hsh : w.shared = false)
    (hqt : (kindAt start env.call v).isBuffer = false) (ho : Outcome env w v b w') :
    w'.p0 = w.p0 ∧ w'.triedPaths ⊆ v.path :: w.triedPaths ∧
      (b = false → w'.p = start ∧ w'.shared = false) := by
  rw [← hp] at hqt
  cases ho with
  | skipped _ => exact ⟨rfl, subset_cons_self .., fun _ => ⟨hp, hsh⟩⟩
  | passed _ _ | undone _ _ _ _ => exact ⟨rfl, Subset.refl _, fun _ => ⟨hp, hsh⟩⟩
  | accepted _ _ p _ _ hans | removed _ _ _ p _ _ _ _ hans => simp [hpred] at hans
  | short _ hkn | shrunk _ hkn _ _ => simp [hkn, Kind.isBuffer] at hqt
  | dropped _ _ _ p _ _ _ _ _ =>
    refine ⟨?_, Subset.refl _, by simp⟩
    simp [hsh]

lemma quiet_visitAll (hgd : Good start) (hl : Linked start) (hp : w.p = start)
    (hsh : w.shared = false) (hqt : ∀ v ∈ vs, (kindAt start env.call v).isBuffer = false) :
    ∃ b w', visitAll env vs w = some (b, w') ∧ w'.p0 = w.p0 ∧
      (∀ x ∈ w'.triedPaths, x ∈ w.triedPaths ∨ ∃ v ∈ vs, v.path = x) ∧
      (b = false → w'.p = start ∧ w'.shared = false) := by
  induction vs generalizing w with
  | nil => exact ⟨false, w, rfl, rfl, fun x hx => .inl hx, fun _ => ⟨hp, hsh⟩⟩
  | cons v vs ih =>
    rw [forall_mem_cons] at hqt
    obtain ⟨b, w1, hw1, ho⟩ := visit_outcome env (hp ▸ hgd) (hp ▸ hl) (by simp [hsh]) v
    obtain ⟨hp0, hsub, hfl⟩ := quiet_visit hpred hp hsh hqt.1 ho
    have htr : ∀ x ∈ w1.triedPaths, x ∈ w.triedPaths ∨ ∃ u ∈ v :: vs, u.path = x := by
      intro x hx
      rcases mem_cons.1 (hsub hx) with rfl | hx
      · exact .inr ⟨v, mem_cons_self .., rfl⟩
      · exact .inl hx
    rw [visitAll, hw1, andThen, bind_some]
    cases b with
    | true => exact ⟨true, w1, rfl, hp0, htr, by simp⟩
    | false =>
      obtain ⟨hp1, hsh1⟩ := hfl rfl
      obtain ⟨b, w', hw', hp0', htr', hfl'⟩ := ih hp1 hsh1 hqt.2
      refine ⟨b, w', hw', hp0'.trans hp0, fun x hx => ?_, hfl'⟩
      rcases htr' x hx with hx | ⟨u, hu, rfl⟩
      · exact htr x hx
      · exact .inr ⟨u, mem_cons_of_mem _ hu, rfl⟩

/-! ### The walk from the first buffer on -/

/-- The walk after a buffer: the copy is committed, and its buffers are as they were. -/
structure Loud (env : Env) (start : Prog) (w : Walk) : Prop where
  on : OnWalk start w
  shared : w.shared = true
  data : ∀ pos t bytes outSize, argAt start env.call pos = some (.data t bytes outSize) →
    argAt w.p env.call pos = some (.data t bytes outSize)

lemma loud_buffer (hon : OnWalk start w)
    (hdt : ∀ pos t bytes outSize, argAt start env.call pos = some (.data t bytes outSize) →
      argAt w.p env.call pos = some (.data t bytes outSize))
    (hbuf : (kindAt start env.call v).isBuffer) (htr : v.path ∉ w.triedPaths)
    (ho : Outcome env w v b w') :
    b = false ∧ Loud env start w' ∧ w'.triedPaths ⊆ v.path :: w.triedPaths ∧ Calms w.p w'.p ∧
      (kindAt start env.call v = .buffer true → SettledAt w'.p env.call) := by
  have hkn := hon.keeps.kindAt_cases env.call v
  have hne : kindAt w.p env.call v ≠ .other ∧ kindAt w.p env.call v ≠ .elem := by
    rcases hkn with heq | ⟨_, -, heq⟩
    · rw [heq]
      constructor <;> intro hk <;> simp [hk, Kind.isBuffer] at hbuf
    · simp [heq]
  cases ho with
  | skipped h =>
    rcases h with h | h | h
    · exact absurd h htr
    · exact absurd h hne.1
    · exact absurd h.1 hne.2
  | passed _ hkd | undone _ hkd _ _ | accepted _ hkd _ _ _ _ => exact absurd hkd hne.1
  | removed _ hkd _ _ _ _ _ _ _ | dropped _ hkd _ _ _ _ _ _ _ => exact absurd hkd hne.2
  | short ht hkd =>
    refine ⟨rfl, ⟨(hon.goesOn (.short ht hkd)).1, rfl, hdt⟩, Subset.refl _, .refl _, ?_⟩
    intro hln
    -- the buffer is as long as it was, so it is not short
    obtain ⟨pos, path, t, bytes, outSize, rfl, hat⟩ := kindAt_buffer hln
    have heq : kindAt w.p env.call (.leaf pos path) = kindAt start env.call (.leaf pos path) := by
      simp only [kindAt, hat, hdt pos t bytes outSize hat]
    rw [heq, hln] at hkd
    cases hkd
  | shrunk ht hkd w1 hs =>
    obtain ⟨new, hlog, hans, hnew⟩ := hs.log
    have han : assignSizesAt env.call w.p = some w1.p := by
      rcases hnew with ⟨-, han⟩ | ⟨q, hq, -⟩
      · exact han
      · obtain ⟨log, hlog⟩ := hans _ hq
        simp [hpred] at hlog
    refine ⟨rfl, ⟨(hon.goesOn (.shrunk ht hkd w1 hs)).1, rfl, ?_⟩, ?_, hs.calm, fun _ => ?_⟩
    · exact fun pos t bytes outSize hat =>
        argAt_assignSizesAt (hdt pos t bytes outSize hat) han
    · rw [show w1.commit.triedPaths = w1.triedPaths from rfl, hs.tried_eq]
      exact Subset.refl _
    · exact settledAt_of_assignSizesAt hs.settled

lemma loud_visit (h : Loud env start w)
    (htr : kindAt start env.call v ≠ .other → v.path ∉ w.triedPaths) (ho : Outcome env w v b w') :
    (b → callCount w'.p0 env.call < callCount start env.call) ∧
    (b = false → Loud env start w' ∧ w'.triedPaths ⊆ v.path :: w.triedPaths ∧ Calms w.p w'.p ∧
      (kindAt start env.call v = .elem → env.crash) ∧
      (kindAt start env.call v = .buffer true → SettledAt w'.p env.call)) := by
  by_cases hbuf : (kindAt start env.call v).isBuffer
  · have hne : kindAt start env.call v ≠ .other := by
      intro hk
      simp [hk, Kind.isBuffer] at hbuf
    obtain ⟨rfl, hld, hsub, hcl, hset⟩ := loud_buffer hpred h.on h.data hbuf (htr hne) ho
    refine ⟨by simp, fun _ => ⟨hld, hsub, hcl, fun hk => ?_, hset⟩⟩
    simp [hk, Kind.isBuffer] at hbuf
  · -- what is not a buffer is what it was when the walk began
    have hkn : kindAt w.p env.call v = kindAt start env.call v := by
      rcases h.on.keeps.kindAt_cases env.call v with heq | ⟨long, hk, -⟩
      · exact heq
      · exact absurd (by rw [hk]; rfl) hbuf
    have hln : kindAt start env.call v ≠ .buffer true := fun hk => hbuf (by rw [hk]; rfl)
    have hdn {w' : Walk} (ho : Outcome env w v false w') (hp : w'.p = w.p)
        (hsh : w'.shared = w.shared) : Loud env start w' :=
      ⟨(h.on.goesOn ho).1, hsh.trans h.shared, hp ▸ h.data⟩
    rw [← hkn] at htr hln ⊢
    cases ho with
    | skipped hsk =>
      refine ⟨by simp, fun _ => ⟨h, subset_cons_self .., .refl _, fun hk => ?_,
        fun hk => absurd hk hln⟩⟩
      rcases hsk with hsk | hsk | hsk
      · exact absurd hsk (htr (by simp [hk]))
      · simp [hk] at hsk
      · exact hsk.2
    | passed ht hk =>
      exact ⟨by simp, fun _ => ⟨hdn (.passed ht hk) rfl rfl, Subset.refl _, .refl _,
        by simp [hk], fun hk => absurd hk hln⟩⟩
    | undone ht hk p hans =>
      exact ⟨by simp, fun _ => ⟨hdn (.undone ht hk p hans) rfl rfl, Subset.refl _, .refl _,
        by simp [hk], fun hk => absurd hk hln⟩⟩
    | accepted _ _ p _ _ hans | removed _ _ _ p _ _ _ _ hans => simp [hpred] at hans
    | short _ hk | shrunk _ hk _ _ => simp [← hkn, hk, Kind.isBuffer] at hbuf
    | dropped _ _ _ p _ _ _ hcn _ =>
      refine ⟨fun _ => ?_, by simp⟩
      rw [← h.on.keeps.callCount_eq]
      simpa [h.shared] using hcn

lemma loud_visitAll (hgd : Good start) (hl : Linked start) (h : Loud env start w)
    (htr : ∀ v ∈ vs, kindAt start env.call v ≠ .other → v.path ∉ w.triedPaths)
    (hpt : vs.Pairwise fun u v =>
      kindAt start env.call u ≠ .other ∨ kindAt start env.call v ≠ .other → u.path ≠ v.path) :
    ∃ b w', visitAll env vs w = some (b, w') ∧
      (b → callCount w'.p0 env.call < callCount start env.call) ∧
      (b = false → Loud env start w' ∧ Calms w.p w'.p ∧
        (env.crash ∨ ∀ v ∈ vs, kindAt start env.call v ≠ .elem) ∧
        ((∃ v ∈ vs, kindAt start env.call v = .buffer true) → SettledAt w'.p env.call)) := by
  induction vs generalizing w with
  | nil => exact ⟨false, w, rfl, by simp, fun _ => ⟨h, .refl _, .inr (by simp), by simp⟩⟩
  | cons v vs ih =>
    rw [forall_mem_cons] at htr
    rw [pairwise_cons] at hpt
    obtain ⟨b, w1, hw1, ho⟩ := visit_outcome env (hgd.keeps h.on.keeps)
      (hl.keeps h.on.keeps h.on.uses_eq) h.on.shared_eq v
    obtain ⟨htru, hfl⟩ := loud_visit hpred h htr.1 ho
    rw [visitAll, hw1, andThen, bind_some]
    cases b with
    | true => exact ⟨true, w1, rfl, htru, by simp⟩
    | false =>
      obtain ⟨h1, hsub, hcl, hel, hset⟩ := hfl rfl
      have htr1 : ∀ u ∈ vs, kindAt start env.call u ≠ .other → u.path ∉ w1.triedPaths := by
        intro u hu hk hmem
        rcases mem_cons.1 (hsub hmem) with heq | hmem
        · exact hpt.1 u hu (.inr hk) heq.symm
        · exact htr.2 u hu hk hmem
      obtain ⟨b, w', hw', htru', hfl'⟩ := ih h1 htr1 hpt.2
      refine ⟨b, w', hw', htru', fun hb => ?_⟩
      obtain ⟨h', hcl', hnn, hset'⟩ := hfl' hb
      refine ⟨h', hcl.trans hcl', ?_, ?_⟩
      · by_cases hk : kindAt start env.call v = .elem
        · exact .inl (hel hk)
        · exact hnn.imp_right fun hn => forall_mem_cons.2 ⟨hk, hn⟩
      · rintro ⟨u, hu, hk⟩
        rcases mem_cons.1 hu with rfl | hu
        · exact (hset hk).calm hcl'
        · exact hset' ⟨u, hu, hk⟩

/-! ### All walks -/

omit hpred in
lemma exists_first_buffer (hc : p.calls[i]? = some c) {crash : Bool}
    (h : ¬ Stable crash c) : ∃ V1 v V2, callVisits p i = V1 ++ v :: V2 ∧
      (∀ u ∈ V1, (kindAt p i u).isBuffer = false) ∧ (kindAt p i v).isBuffer := by
  have hex : ∃ v ∈ callVisits p i, (kindAt p i v).isBuffer := by
    by_contra hnone
    push Not at hnone
    have hkn : ∀ k ∈ allKinds c.args, k.isBuffer ≠ true := by
      rw [← map_kindAt_callVisits hc]
      exact forall_mem_map.2 hnone
    refine h ⟨fun hln => absurd rfl (hkn _ hln), .inr ?_⟩
    exact pairwise_of_forall_mem_list fun k hk _ _ hbuf => absurd hbuf (hkn k hk)
  obtain ⟨v, hv⟩ := Option.isSome_iff_exists.1 (find?_isSome.2 hex)
  obtain ⟨hbuf, V1, V2, hV, hqt⟩ := find?_eq_some_iff_append.1 hv
  exact ⟨V1, v, V2, hV, fun u hu => by simpa using hqt u hu, hbuf⟩

omit hpred in
/-- If the walk got through, there was nothing to remove after the first buffer, so the length
fields were wrong. -/
lemma exists_long_buffer (hc : p.calls[i]? = some c) {crash : Bool} (h : ¬ Stable crash c)
    (hV : callVisits p i = V1 ++ v :: V2) (hqt : ∀ u ∈ V1, (kindAt p i u).isBuffer = false)
    (hnn : crash ∨ ∀ u ∈ V2, kindAt p i u ≠ .elem) :
    ¬ SettledAt p i ∧ ∃ u ∈ v :: V2, kindAt p i u = .buffer true := by
  have hor : crash ∨ (allKinds c.args).Pairwise fun k k' => k.isBuffer = true → k' ≠ .elem := by
    refine hnn.imp_right fun hnn => ?_
    rw [← map_kindAt_callVisits hc, hV, pairwise_map, pairwise_append, pairwise_cons]
    refine ⟨?_, ⟨fun u hu _ => hnn u hu, ?_⟩, ?_⟩
    · exact pairwise_of_forall_mem_list fun u hu _ _ hbuf => by simp [hqt u hu] at hbuf
    · exact pairwise_of_forall_mem_list fun _ _ u hu _ => hnn u hu
    · exact fun u hu _ _ hbuf => by simp [hqt u hu] at hbuf
  have hln : Kind.buffer true ∈ allKinds c.args ∧ settle c.args ≠ c.args := by
    by_contra hcon
    exact h ⟨fun hmem => by_contra fun hne => hcon ⟨hmem, hne⟩, hor⟩
  refine ⟨fun hset => hln.2 (hset c hc), ?_⟩
  rw [← map_kindAt_callVisits hc, hV] at hln
  obtain ⟨u, hu, hk⟩ := mem_map.1 hln.1
  rcases mem_append.1 hu with hu | hu
  · have := hqt u hu
    simp [hk, Kind.isBuffer] at this
  · exact ⟨u, hu, hk⟩

/-- One walk over a call with a buffer: it restarts before the first buffer and has done nothing,
or it restarts later and has removed something, or it gets through. -/
lemma walk_spoils (hpt : DistinctPaths p) (hi : env.call < p.calls.length)
    (hV : callVisits p env.call = V1 ++ v :: V2)
    (hqt : ∀ u ∈ V1, (kindAt p env.call u).isBuffer = false)
    (hbuf : (kindAt p env.call v).isBuffer) (hw : w.p0 = p)
    (htr : ∀ u ∈ v :: V2, kindAt p env.call u ≠ .other → u.path ∉ w.triedPaths)
    (h : Begins w start) :
    ∃ b w', visitAll env (V1 ++ v :: V2) { w with p := start, shared := false } = some (b, w') ∧
      (b → (w'.p0 = p ∧
          ∀ u ∈ v :: V2, kindAt p env.call u ≠ .other → u.path ∉ w'.triedPaths) ∨
        callCount w'.p0 env.call < callCount p env.call) ∧
      (b = false → (env.crash ∨ ∀ u ∈ V2, kindAt p env.call u ≠ .elem) ∧
        ((∃ u ∈ v :: V2, kindAt p env.call u = .buffer true) → SettledAt w'.p0 env.call)) := by
  have hds := hpt env.call hi
  rw [hV, pairwise_append, pairwise_cons] at hds
  obtain ⟨-, ⟨hds1, hds2⟩, hds₁₂⟩ := hds
  have hst : start.calls = p.calls := h.calls_eq.trans (by rw [hw])
  have hkn : kindAt p env.call = kindAt start env.call := by
    funext u
    cases u <;> simp only [kindAt, argAt, hst]
  have hcn : callCount p env.call = callCount start env.call := by
    rw [callCount, callCount, hst]
  rw [hkn] at hqt hbuf htr hds1 hds2 hds₁₂ ⊢
  rw [hcn, visitAll_append]
  -- up to the first buffer nothing happens to the committed program
  obtain ⟨b1, w1, hw1, hp0₁, htr1, hfalse₁⟩ := quiet_visitAll hpred h.good h.linked
    (w := { w with p := start, shared := false }) rfl rfl hqt
  have hla : ∀ u ∈ v :: V2, kindAt start env.call u ≠ .other → u.path ∉ w1.triedPaths := by
    intro u hu hk hmem
    rcases htr1 _ hmem with hmem | ⟨x, hx, heq⟩
    · exact htr u hu hk hmem
    · exact hds₁₂ x hx u hu (.inr hk) heq
  rw [hw1, andThen, bind_some]
  cases b1 with
  | true => exact ⟨true, w1, rfl, fun _ => .inl ⟨hp0₁.trans hw, hla⟩, by simp⟩
  | false =>
    obtain ⟨hp1, hsh1⟩ := hfalse₁ rfl
    have hon1 : OnWalk start w1 := by
      have hon := h.onWalk
      exact ⟨hp1 ▸ .refl start, hp1 ▸ .refl start, by rw [hp1], hp0₁ ▸ hon.keeps0,
        hp0₁ ▸ hon.calm0, by simp [hsh1]⟩
    -- the buffer is committed, and from there on every change is
    obtain ⟨b2, w2, hw2, ho⟩ := visit_outcome env (hp1 ▸ h.good) (hp1 ▸ h.linked)
      (by simp [hsh1]) v
    have hv : kindAt start env.call v ≠ .other := by
      intro hk
      simp [hk, Kind.isBuffer] at hbuf
    obtain ⟨rfl, hld, hsub, -, hset⟩ := loud_buffer hpred hon1 (by simp [hp1]) hbuf
      (hla v (mem_cons_self ..) hv) ho
    have hla2 : ∀ u ∈ V2, kindAt start env.call u ≠ .other → u.path ∉ w2.triedPaths := by
      intro u hu hk hmem
      rcases mem_cons.1 (hsub hmem) with heq | hmem
      · exact hds1 u hu (.inr hk) heq.symm
      · exact hla u (mem_cons_of_mem _ hu) hk hmem
    obtain ⟨b3, w3, hw3, htrue3, hfalse₃⟩ := loud_visitAll hpred h.good h.linked hld hla2 hds2
    refine ⟨b3, w3, ?_, fun hb => .inr (htrue3 hb), fun hb => ?_⟩
    · rw [visitAll, hw2]
      exact hw3
    · obtain ⟨hld3, hcalm3, hnn, hset3⟩ := hfalse₃ hb
      refine ⟨hnn, ?_⟩
      rw [hld3.on.shared_eq hld3.shared]
      rintro ⟨u, hu, hk⟩
      rcases mem_cons.1 hu with rfl | hu
      · exact (hset hk).calm hcalm3
      · exact hset3 ⟨u, hu, hk⟩

/-- **The walks over an unstable call** leave it with fewer arguments, or with other length
fields. -/
theorem minimizeCall_spoils (hgd : Good p)
    (hc : p.calls[env.call]? = some c) (hul : ¬ Stable env.crash c)
    (hpt : DistinctPaths p) {V₁ V₂ : List Visit}
    (hV : callVisits p env.call = V₁ ++ v :: V₂)
    (hqt : ∀ u ∈ V₁, (kindAt p env.call u).isBuffer = false)
    (hbuf : (kindAt p env.call v).isBuffer) (hw : w.p0 = p)
    (htr : ∀ u ∈ v :: V₂, kindAt p env.call u ≠ .other → u.path ∉ w.triedPaths)
    (hrun : minimizeCall env fuel w = some w') :
    callCount w'.p0 env.call < callCount p env.call ∨
      ¬ SettledAt p env.call ∧ SettledAt w'.p0 env.call := by
  have hi : env.call < p.calls.length := (List.getElem?_eq_some_iff.1 hc).1
  induction fuel generalizing w with
  | zero => cases hrun
  | succ fuel ih =>
    obtain ⟨start, h⟩ := exists_begins (hw ▸ hgd)
    obtain ⟨b, w₁, hw₁, htru, hfl⟩ :=
      walk_spoils hpred hpt hi hV hqt hbuf hw htr h
    obtain ⟨b', w₁', hw₁', -, hen⟩ :=
      visitAll_outcome env h.good h.linked h.onWalk (V₁ ++ v :: V₂)
    cases hw₁.symm.trans hw₁'
    rw [h.minimizeCall_eq env (hw ▸ hi), hw, hV, ← hw, hw₁, bind_some] at hrun
    cases b with
    | true =>
      rcases htru rfl with ⟨hp0, hla⟩ | hlt
      · exact ih hp0 hla hrun
      · have ht := h.trims.1 (hen rfl).trims
        have hld := minimizeCall_leads (hen rfl).good (ht.length_eq ▸ hw ▸ hi) hrun
        exact .inl (lt_of_le_of_lt (callCount_le hld.trims env.call) hlt)
    | false =>
      cases hrun
      obtain ⟨hnn, hset⟩ := hfl rfl
      obtain ⟨hun, hln⟩ := exists_long_buffer hc hul hV hqt hnn
      exact .inr ⟨hun, hset hln⟩

lemma log_refused {l l' : Log} (h : LogGrows env.pred l l') (hl : ∀ x ∈ l, x.2 = false) :
    ∀ x ∈ l', x.2 = false := by
  obtain ⟨new, rfl, hans⟩ := h
  refine forall_mem_append.2 ⟨hl, fun x hx => ?_⟩
  obtain ⟨log, hlog⟩ := hans x hx
  rw [← hlog, hpred]

/-- **An unstable call is changed**, whichever calls there are around it. -/
theorem minimizeCalls_spoils {input : Prog} (hgd : Good input)
    (hln : input.uses = links input.nodes) (hpt : DistinctPaths input) {n : ℕ}
    (hw : w.p0 = input) (hlog : ∀ x ∈ w.log, x.2 = false) (hn : i + n ≤ input.calls.length)
    (hbad : ∃ j, i ≤ j ∧ j < i + n ∧ ¬ StableAt env.crash input j)
    (hrun : minimizeCalls env fuel n i w = some w') : w'.p0.calls ≠ input.calls := by
  induction n generalizing i w with
  | zero =>
    obtain ⟨j, hij, hj, -⟩ := hbad
    omega
  | succ n ih =>
    obtain ⟨w₁, hw₁, hrun⟩ := Option.bind_eq_some_iff.1 hrun
    have hgd' : Good w.p0 := hw ▸ hgd
    have hlen : w.p0.calls.length = input.calls.length := by rw [hw]
    have hi : i < w.p0.calls.length := by omega
    have h₁ := minimizeCall_leads (w := { w with triedPaths := [] }) hgd' hi hw₁
    by_cases hst : StableAt env.crash input i
    · -- a stable call stays as it is
      have happ := minimizeCall_approved { env with call := i } hln
        (w := { w with triedPaths := [] }) hgd' hi (hw ▸ hst) (.inl hw) hw₁
      have hlog₁ := log_refused hpred h₁.log hlog
      have hw₁ : w₁.p0 = input := by
        rcases happ with heq | ⟨q, hq, -⟩
        · exact heq
        · exact absurd (hlog₁ _ hq) (by simp)
      refine ih hw₁ hlog₁ (by omega) ?_ hrun
      obtain ⟨j, hij, hj, hjb⟩ := hbad
      have hne : i ≠ j := fun heq => hjb (heq ▸ hst)
      exact ⟨j, by omega, by omega, hjb⟩
    · obtain ⟨c, hc, hun⟩ : ∃ c, input.calls[i]? = some c ∧ ¬ Stable env.crash c := by
        simpa [StableAt] using hst
      obtain ⟨V₁, v, V₂, hV, hqt, hbuf⟩ := exists_first_buffer hc hun
      have hrf : ∀ log q, ({ env with call := i } : Env).pred log q = false := hpred
      have hsp := minimizeCall_spoils hrf (w := { w with triedPaths := [] }) hgd hc hun hpt hV hqt
        hbuf hw (by simp) hw₁
      have hlen₁ : w.p0.calls.length = w₁.p0.calls.length := h₁.trims.length_eq
      have hrs := minimizeCalls_leads h₁.good (by omega) hrun
      intro heq
      rcases hsp with hlt | ⟨hud, hsd⟩
      · have hle := callCount_le hrs.trims i
        simp only [callCount, heq] at hle hlt
        omega
      · refine hud ?_
        have hend := hsd.calm hrs.calm
        rwa [SettledAt, heq] at hend

end Refused

/-! ### Minimisation by consent -/

/-- What is expected of a minimisation of `p`: it returns `p` or a program the predicate has
accepted, and if the predicate refuses everything, the result has the text of `p`. -/
structure ByConsent (run : ℕ → Pred → Option Tracked) (p : Prog) : Prop where
  approved : ∀ fuel pred s, run fuel pred = some s → Approved p s.p0 s.log
  refused : ∀ fuel s pageSize, run fuel refuse = some s →
    Encoding.serialize pageSize s.p0 = Encoding.serialize pageSize p

lemma minimizeWith_log (hgd : Good p) {ci : ℤ} {index : List ℤ} {crash : Bool}
    (hrun : minimizeWith fuel p ci index crash pred = some s) : LogGrows pred [] s.log := by
  obtain ⟨t, w, hrem, hw, -, hlog⟩ := minimizeWith_phases hgd hrun
  obtain ⟨new, hnew, hans, -⟩ := hrem.log
  rw [hlog]
  exact LogGrows.trans ⟨new, hnew, hans⟩ (minimizeCalls_leads
    (w := ⟨t.p0, t.p0, false, [], t.log⟩) hrem.good (by simp) hw).log

lemma false_of_refused (h : LogGrows refuse [] log) : ∀ x ∈ log, x.2 = false := by
  obtain ⟨new, rfl, hans⟩ := h
  intro x hx
  obtain ⟨_, hfl⟩ := hans x hx
  exact hfl.symm

lemma eq_of_refused (hlog : LogGrows refuse [] log) (h : Approved p p0 log) : p0 = p := by
  rcases h with heq | ⟨q, hq, -⟩
  · exact heq
  · exact absurd (false_of_refused hlog _ hq) (by simp)

lemma exists_spoiled (hgd : Good p) (hln : p.uses = links p.nodes)
    (hpt : DistinctPaths p) (ci : ℤ)
    (hci : ci = -1 ∨ 0 ≤ ci ∧ ci < p.calls.length) (index : List ℤ)
    {crash : Bool} (hun : ∃ c ∈ p.calls, ¬ Stable crash c) :
    ∃ fuel s, minimizeWith fuel p ci index crash refuse = some s ∧ s.p0.calls ≠ p.calls := by
  obtain ⟨c, hc, hun⟩ := hun
  obtain ⟨j, hj, hget⟩ := getElem_of_mem hc
  obtain ⟨N, s, hs, -⟩ := minimizeWith_total hgd ci hci index crash refuse
  refine ⟨N, s, hs N le_rfl, ?_⟩
  obtain ⟨t, w, hrem, hw, hp0, -⟩ := minimizeWith_phases hgd (hs N le_rfl)
  obtain ⟨new, hnew, hans, hor⟩ := hrem.log
  have hfl := false_of_refused ⟨new, hnew, hans⟩
  -- no call has been removed
  have hp : t.p0 = p := by
    rcases hor with ⟨-, hp⟩ | ⟨q, hq, -⟩
    · exact hp
    · exact absurd (hfl _ (hnew ▸ mem_append_right _ hq)) (by simp)
  rw [hp0]
  refine minimizeCalls_spoils (by exact fun _ _ => rfl) hgd hln hpt hp hfl (by simp [hp]) ?_ hw
  refine ⟨j, by omega, by simpa [hp] using hj, fun hst => hun (hst c ?_)⟩
  rw [getElem?_eq_getElem hj, hget]

/-- The general form, for any list of indices. -/
theorem byConsent_minimizeWith_iff (hgd : Good p) (hln : p.uses = links p.nodes)
    (hpt : DistinctPaths p) (ci : ℤ)
    (hci : ci = -1 ∨ 0 ≤ ci ∧ ci < p.calls.length) (index : List ℤ)
    (crash : Bool) :
    ByConsent (fun fuel pred => minimizeWith fuel p ci index crash pred) p ↔
      ∀ c ∈ p.calls, Stable crash c := by
  constructor
  · intro h
    by_contra hbad
    push Not at hbad
    obtain ⟨fuel, s, hrun, hne⟩ := exists_spoiled hgd hln hpt ci hci index hbad
    exact hne (by rw [eq_of_refused (minimizeWith_log hgd hrun) (h.approved fuel refuse s hrun)])
  · intro hst
    refine ⟨fun fuel pred s hrun => minimizeWith_approved hgd hln hst hrun,
      fun fuel s pageSize hrun => ?_⟩
    rw [eq_of_refused (minimizeWith_log hgd hrun) (minimizeWith_approved hgd hln hst hrun)]

/-- **When minimisation is by consent.** `Minimize` and `MinimizeRace` return their input or a
program that the predicate has accepted, for every predicate, if and only if all calls of the
input are stable. -/
theorem minimize_by_consent_iff {p : Prog} (hgood : Good p) (hlinks : p.uses = links p.nodes)
    (hpaths : DistinctPaths p) (callIndex : ℤ)
    (hci : callIndex = -1 ∨ 0 ≤ callIndex ∧ callIndex < p.calls.length) (crash : Bool)
    (index : ℤ × ℤ) :
    (ByConsent (fun fuel pred => minimize fuel p callIndex crash pred) p ↔
      ∀ c ∈ p.calls, Stable crash c) ∧
    (ByConsent (fun fuel pred => minimizeRace fuel p callIndex crash pred index) p ↔
      ∀ c ∈ p.calls, Stable crash c) :=
  ⟨byConsent_minimizeWith_iff hgood hlinks hpaths callIndex hci [] crash,
    byConsent_minimizeWith_iff hgood hlinks hpaths callIndex hci [index.1, index.2] crash⟩

def bufferThenArray : Prog :=
  let common (name : String) (size : ℕ) (varlen : Bool) : TypeCommon :=
    ⟨name, name, size, .dirIn, false, varlen⟩
  let buf : Arg := .ptr ⟨common "buf" 8 false, false⟩ 0
    (.data ⟨common "data" 0 true, .blobRand, 0⟩ [1, 2, 3] 0)
  let elem (val : UInt64) : Arg := .const ⟨common "elem" 8 false, .int, false, {}⟩ val
  let arr : Arg := .ptr ⟨common "arr" 8 false, false⟩ 0x1000
    (.array ⟨common "elems" 0 true, .randLen, 0, 0⟩ [elem 5, elem 6])
  let count : Arg := .const ⟨common "count" 8 false, .len 0 "arr", false, {}⟩ 2
  ⟨[⟨⟨0, "send"⟩, [buf, arr, count], 0⟩, ⟨⟨1, "sync"⟩, [], 1⟩], ∅⟩

theorem minimize_by_consent_sample :
    (ByConsent (fun fuel pred => minimize fuel bufferThenArray 0 false pred) bufferThenArray ↔
      ∀ c ∈ bufferThenArray.calls, Stable false c) ∧
    (ByConsent (fun fuel pred => minimizeRace fuel bufferThenArray 0 false pred (0, 1))
        bufferThenArray ↔ ∀ c ∈ bufferThenArray.calls, Stable false c) :=
  minimize_by_consent_iff
    ⟨by decide +kernel, by decide +kernel, by decide +kernel, by decide +kernel⟩
    (by decide +kernel) (by decide +kernel) 0 (.inr (by decide)) false (0, 1)

/-- The predicate has refused everything, and an array element is gone. -/
theorem refused_but_changed :
    (Encoding.serialize 4096 bufferThenArray).map ofList = some
      ("send(&(0x7f0000000000)=\"010203\", &(0x7f0000001000)=[0x5, 0x6], 0x2)\n" ++ "sync()\n") ∧
    ((minimize 9 bufferThenArray 0 false refuse).bind fun s =>
        (Encoding.serialize 4096 s.p0).map ofList) = some
      ("send(&(0x7f0000000000)=\"010203\", &(0x7f0000001000)=[0x6], 0x1)\n" ++ "sync()\n") ∧
    ((minimizeRace 9 bufferThenArray 0 false refuse (0, 1)).bind fun s =>
        (Encoding.serialize 4096 s.p0).map ofList) = some
      ("send(&(0x7f0000000000)=\"010203\", &(0x7f0000001000)=[0x6], 0x1)\n" ++ "sync()\n") := by
  decide +kernel

end Razzer.Minimize
