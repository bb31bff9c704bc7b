import Razzer.Settled
import Razzer.Visits

/-!
What a visit can do.

An attempt on a constant or a result is accepted and ends the walk, or is undone. A buffer is
made shorter for as long as the predicate agrees, and is committed with its call's length
fields set, agreed or not. An attempt on an array element always ends the walk.
-/

namespace Razzer.Minimize

open Args Progs Sizes Trim List Option

/-! ### The log -/

def LogGrows (pred : Pred) (l l' : Log) : Prop :=
  ∃ new, l' = l ++ new ∧ ∀ x ∈ new, ∃ log, pred log x.1 = x.2

lemma LogGrows.refl (pred : Pred) (l : Log) : LogGrows pred l l := ⟨[], by simp, by simp⟩

lemma LogGrows.trans {pred : Pred} {l l' l'' : Log} (h : LogGrows pred l l')
    (h' : LogGrows pred l' l'') : LogGrows pred l l'' := by
  obtain ⟨new, rfl, hnew⟩ := h
  obtain ⟨new', rfl, hnew'⟩ := h'
  exact ⟨new ++ new', append_assoc .., List.forall_mem_append.2 ⟨hnew, hnew'⟩⟩

lemma LogGrows.snoc {pred : Pred} {l log : Log} {q : Query} {b : Bool} (h : pred log q = b) :
    LogGrows pred l (l ++ [(q, b)]) :=
  ⟨[(q, b)], rfl, List.forall_mem_singleton.2 ⟨log, h⟩⟩

/-! ### Buffers -/

/-- What rounds of the loop over a buffer make of a walk: the copy has been accepted, or it is
what it was, with the length fields of the call set. -/
structure Settles (env : Env) (w w' : Walk) : Prop where
  keeps : ProgKeeps w.p w'.p
  calm : Calms w.p w'.p
  uses_eq : w'.p.uses = w.p.uses
  p0_eq : w'.p0 = if w.shared then w'.p else w.p0
  shared_eq : w'.shared = w.shared
  tried_eq : w'.triedPaths = w.triedPaths
  settled : assignSizesAt env.call w'.p = some w'.p
  log : ∃ new, w'.log = w.log ++ new ∧ (∀ x ∈ new, ∃ log, env.pred log x.1 = x.2) ∧
    ((∀ x ∈ new, x.2 = false) ∧ assignSizesAt env.call w.p = some w'.p ∨
      ∃ q, (q, true) ∈ new ∧ q.prog = w'.p)

lemma Settles.trans {env : Env} {w w' w'' : Walk} (h : Settles env w w')
    (h' : Settles env w' w'') : Settles env w w'' := by
  refine ⟨h.keeps.trans h'.keeps, h.calm.trans h'.calm, h'.uses_eq.trans h.uses_eq, ?_,
    h'.shared_eq.trans h.shared_eq, h'.tried_eq.trans h.tried_eq, h'.settled, ?_⟩
  · rw [h'.p0_eq, h.shared_eq, h.p0_eq]
    cases w.shared <;> rfl
  · obtain ⟨new, hlog, hans, hnew⟩ := h.log
    obtain ⟨new', hlog', hans', hnew'⟩ := h'.log
    refine ⟨new ++ new', by rw [hlog', hlog, append_assoc], ?_, ?_⟩
    · exact List.forall_mem_append.2 ⟨hans, hans'⟩
    rcases hnew' with ⟨hfl', han⟩ | ⟨q, hq, hpr⟩
    · -- the second part changed nothing, as the length fields were right
      obtain hp : w'.p = w''.p := some.inj (h.settled.symm.trans han)
      rcases hnew with ⟨hfl, han'⟩ | ⟨q, hq, hpr⟩
      · exact .inl ⟨List.forall_mem_append.2 ⟨hfl, hfl'⟩, hp ▸ han'⟩
      · exact .inr ⟨q, mem_append_left _ hq, hpr.trans hp⟩
    · exact .inr ⟨q, mem_append_right _ hq, hpr⟩

variable {i : ℕ} {p q : Prog} {b : Arg} {f g : Arg → Arg} {val : UInt64} {n : ResultNode}

lemma assignSizesAt_uses (h : assignSizesAt i p = some q) : q.uses = p.uses := by
  obtain ⟨c, hc, -⟩ := Option.bind_eq_some_iff.1 h
  rw [assignSizesAt_eq_some hc h]
  rfl

variable {pos : List ℕ}

lemma Good.shorten (h : Good p) {t : BufferType} {bs bs' : List UInt8} {outSize : ℕ}
    (hat : argAt p i pos = some (.data t bs outSize)) (hbl : blob t)
    (hln : t.rangeBegin < bs.length) (hle : bs'.length ≤ bs.length) :
    ∃ q, Minimize.assignSizesAt i (modifyProg (setData bs') i pos p) = some q ∧
      ProgKeeps p q ∧ Calms p q ∧ q.uses = p.uses ∧ Minimize.assignSizesAt i q = some q ∧
      argAt q i pos = some (.data t bs' outSize) := by
  have hvar : t.varlen := by
    have hsn := h.sound_at hat
    simp only [Trim.sound, hbl, Bool.not_true, Bool.or_false, Bool.or_eq_true,
      decide_eq_true_eq] at hsn
    exact hsn.resolve_right (by omega)
  have hkp : ProgKeeps p (modifyProg (setData bs') i pos p) :=
    callKeeps_modifyProg hat (.data t outSize hle (by simp [hvar])) le_rfl
  have hgd := h.keeps hkp
  obtain ⟨-, -, c, -, -, hc, -⟩ := argAt_eq_some.1 hat
  obtain ⟨q, hq⟩ := hgd.assignSizesAt (i := i)
    (hkp.length_eq ▸ (List.getElem?_eq_some_iff.1 hc).1)
  have hus : q.uses = p.uses := (assignSizesAt_uses hq :)
  exact ⟨q, hq, hkp.trans (callKeeps_assignSizesAt hq), calms_edit hgd hq, hus,
    hgd.assignSizesAt_idem hq, argAt_assignSizesAt (argAt_modifyProg hat) hq⟩

variable {env : Env} {w : Walk} {pos : List ℕ}

section Shrink

variable {t : BufferType} {bytes bytes' : List UInt8} {outSize : ℕ}

lemma shrink_round (h : Good w.p) (hat : argAt w.p env.call pos = some (.data t bytes outSize))
    (hbl : blob t) (hln : t.rangeBegin < bytes.length)
    (hle : bytes'.length ≤ bytes.length) :
    ∃ w', withData env w pos bytes' = some w' ∧
      argAt w'.p env.call pos = some (.data t bytes' outSize) ∧
      (w'.answer env → Settles env w (w'.ask env)) ∧
      (w'.answer env = false → ∃ w'', withData env (w'.ask env) pos bytes = some w'' ∧
        Settles env w w'' ∧ argAt w''.p env.call pos = some (.data t bytes outSize)) := by
  obtain ⟨q, hq, hkp, hcl, hus, hst, hat'⟩ := h.shorten hat hbl hln hle
  have hw : withData env w pos bytes' = some (w.set q) := by rw [withData, hq, map_some]
  refine ⟨w.set q, hw, hat', fun hans => ?_, fun hans => ?_⟩
  · refine ⟨hkp, hcl, hus, rfl, rfl, rfl, hst, [((w.set q).query env, true)], ?_, ?_,
      .inr ⟨_, mem_singleton_self _, rfl⟩⟩
    · rw [← hans]
      rfl
    · exact List.forall_mem_singleton.2 ⟨_, hans⟩
  · obtain ⟨-, -, c, -, -, hc, -⟩ := argAt_eq_some.1 hat
    obtain ⟨q', hq'⟩ := h.assignSizesAt (i := env.call) (List.getElem?_eq_some_iff.1 hc).1
    have hbc : withData env ((w.set q).ask env) pos bytes = some (((w.set q).ask env).set q') := by
      rw [withData, show ((w.set q).ask env).p = q from rfl, h.restoreData hat hq, hq', map_some]
    refine ⟨_, hbc, ⟨callKeeps_assignSizesAt hq', calms_assignSizesAt h hq',
      assignSizesAt_uses hq', ?_, rfl, rfl, h.assignSizesAt_idem hq',
      [((w.set q).query env, false)], ?_, ?_, .inl ⟨by simp, hq'⟩⟩, argAt_assignSizesAt hat hq'⟩
    · cases hs : w.shared <;> simp [Walk.set, Walk.ask, hs]
    · rw [← hans]
      rfl
    · exact List.forall_mem_singleton.2 ⟨_, hans⟩

/-- **The loop over a buffer.** If the first round asks the predicate, something has been
tried. -/
theorem shrink_settles (h : Good w.p)
    (hat : argAt w.p env.call pos = some (.data t bytes outSize)) (hbl : blob t)
    (rounds step : ℕ) :
    ∃ w', shrink env pos t.rangeBegin rounds step bytes w = some w' ∧
      (w' = w ∨ Settles env w w') ∧
      (0 < rounds → 0 < step → t.rangeBegin + step ≤ bytes.length → Settles env w w') := by
  induction rounds generalizing w bytes step with
  | zero => exact ⟨w, rfl, .inl rfl, by omega⟩
  | succ rounds ih =>
    rw [shrink]
    by_cases hrun : t.rangeBegin < bytes.length ∧ 0 < step
    · rw [if_pos hrun]
      by_cases hst : t.rangeBegin + step ≤ bytes.length
      · rw [if_pos hst]
        have hle : (bytes.take (bytes.length - step)).length ≤ bytes.length := by simp
        obtain ⟨w₁, hw₁, hat₁, hac, hrj⟩ := shrink_round h hat hbl hrun.1 hle
        simp only [hw₁, bind_some]
        cases hans : w₁.answer env with
        | true =>
          have hs := hac hans
          obtain ⟨w', hw', hor, -⟩ := ih (h.keeps hs.keeps) hat₁ step
          have hs' : Settles env w w' := by
            rcases hor with rfl | hs'
            · exact hs
            · exact hs.trans hs'
          exact ⟨w', by simpa using hw', .inr hs', fun _ _ _ => hs'⟩
        | false =>
          obtain ⟨w₂, hw₂, hs, hat₂⟩ := hrj hans
          simp only [hw₂, bind_some, Bool.false_eq_true, if_false]
          cases env.crash with
          | true => exact ⟨w₂, rfl, .inr hs, fun _ _ _ => hs⟩
          | false =>
            obtain ⟨w', hw', hor, -⟩ := ih (h.keeps hs.keeps) hat₂ (step / 2)
            have hs' : Settles env w w' := by
              rcases hor with rfl | hs'
              · exact hs
              · exact hs.trans hs'
            exact ⟨w', by simpa using hw', .inr hs', fun _ _ _ => hs'⟩
      · rw [if_neg hst]
        cases env.crash with
        | true => exact ⟨w, rfl, .inl rfl, by omega⟩
        | false =>
          obtain ⟨w', hw', hor, -⟩ := ih h hat (step / 2)
          exact ⟨w', by simpa using hw', hor, by omega⟩
    · rw [if_neg hrun]
      exact ⟨w, rfl, .inl rfl, by omega⟩

end Shrink

/-! ### Visits -/

/-- What a visit meets: a buffer that is committed, and whether it is longer than it has to be,
an array element that can be removed, or something else. -/
inductive Kind
  | buffer (long : Bool)
  | elem
  | other
  deriving DecidableEq

def kindAt (p : Prog) (i : ℕ) : Visit → Kind
  | .elem pos _ k =>
    match argAt p i pos with
    | some (.array t inner) =>
      if k < inner.length ∧ removable t inner.length = true then .elem else .other
    | _ => .other
  | .leaf pos _ =>
    match argAt p i pos with
    | some (.data t bytes _) =>
      if blob t then .buffer (decide (t.rangeBegin < bytes.length)) else .other
    | _ => .other

def Env.query (env : Env) (p : Prog) : Query := ⟨p, env.callIndex, env.index⟩

/-- What can come of a visit. The walk ends if the flag is set. -/
inductive Outcome (env : Env) (w : Walk) (v : Visit) : Bool → Walk → Prop
  | skipped (h : v.path ∈ w.triedPaths ∨ kindAt w.p env.call v = .other ∨
      kindAt w.p env.call v = .elem ∧ env.crash = true) : Outcome env w v false w
  | passed (htried : v.path ∉ w.triedPaths) (hkind : kindAt w.p env.call v = .other) :
      Outcome env w v false (w.tried v.path)
  | undone (htried : v.path ∉ w.triedPaths) (hkind : kindAt w.p env.call v = .other) (p : Prog)
      (hans : env.pred w.log (env.query p) = false) :
      Outcome env w v false
        ⟨w.p, w.p0, w.shared, v.path :: w.triedPaths, w.log ++ [(env.query p, false)]⟩
  | accepted (htried : v.path ∉ w.triedPaths) (hkind : kindAt w.p env.call v = .other) (p : Prog)
      (hkeeps : ProgKeeps w.p p) (hcalm : Calms w.p p)
      (hans : env.pred w.log (env.query p) = true) :
      Outcome env w v true
        ⟨p, p, true, v.path :: w.triedPaths, w.log ++ [(env.query p, true)]⟩
  | short (htried : v.path ∉ w.triedPaths) (hkind : kindAt w.p env.call v = .buffer false) :
      Outcome env w v false (w.tried v.path).commit
  | shrunk (htried : v.path ∉ w.triedPaths) (hkind : kindAt w.p env.call v = .buffer true)
      (w' : Walk) (hw' : Settles env (w.tried v.path) w') : Outcome env w v false w'.commit
  | removed (htried : v.path ∉ w.triedPaths) (hkind : kindAt w.p env.call v = .elem)
      (hcrash : env.crash = false) (p : Prog)
      (hgood : Good p) (htrims : ProgTrims w.p p) (hcalm : Calms w.p p)
      (hcount : callCount p env.call < callCount w.p env.call)
      (hans : env.pred w.log (env.query p) = true) :
      Outcome env w v true ⟨p, p, true, w.triedPaths, w.log ++ [(env.query p, true)]⟩
  | dropped (htried : v.path ∉ w.triedPaths) (hkind : kindAt w.p env.call v = .elem)
      (hcrash : env.crash = false) (p : Prog)
      (hgood : Good p) (htrims : ProgTrims w.p p) (hcalm : Calms w.p p)
      (hcount : callCount p env.call < callCount w.p env.call)
      (hans : env.pred w.log (env.query p) = false) :
      Outcome env w v true ⟨p, if w.shared then p else w.p0, w.shared, v.path :: w.triedPaths,
        w.log ++ [(env.query p, false)]⟩

section Visit

variable {path : String}

lemma ask_set (w : Walk) (p : Prog) :
    (w.set p).ask env = ⟨p, if w.shared then p else w.p0, w.shared, w.triedPaths,
      w.log ++ [(env.query p, env.pred w.log (env.query p))]⟩ := rfl

lemma ask_commit (w : Walk) (hans : env.pred w.log (env.query p)) :
    ((w.set p).ask env).commit = ⟨p, p, true, w.triedPaths, w.log ++ [(env.query p, true)]⟩ := by
  rw [ask_set, hans]
  rfl

lemma ask_undo (w : Walk) (hsh : w.shared → w.p0 = w.p)
    (hans : env.pred w.log (env.query p) = false) :
    ((w.set p).ask env).set w.p =
      ⟨w.p, w.p0, w.shared, w.triedPaths, w.log ++ [(env.query p, false)]⟩ := by
  rw [ask_set, hans]
  cases hs : w.shared with
  | false => simp [Walk.set]
  | true => simp [Walk.set, hsh hs]

lemma outcome_attempt (hsh : w.shared → w.p0 = w.p) (hat : argAt w.p env.call pos = some b)
    (htr : path ∉ w.triedPaths) (hkn : kindAt w.p env.call (.leaf pos path) = .other)
    (hkp : ProgKeeps w.p (modifyProg f env.call pos w.p)) (hhr : Harmless f b)
    (hun : g (f b) = b) :
    ∃ b w', (let w₁ := (w.tried path).set (modifyProg f env.call pos w.p)
      if w₁.answer env then some (true, (w₁.ask env).commit)
      else some (false, (w₁.ask env).set (modifyProg g env.call pos (w₁.ask env).p))) =
        some (b, w') ∧ Outcome env w (.leaf pos path) b w' := by
  cases hans : env.pred w.log (env.query (modifyProg f env.call pos w.p)) with
  | true =>
    refine ⟨true, _, if_pos hans, ?_⟩
    rw [ask_commit (w.tried path) hans]
    exact .accepted htr hkn _ hkp (calms_harmless hat hhr) hans
  | false =>
    refine ⟨false, _, if_neg (ne_true_of_eq_false hans), ?_⟩
    have hbc : modifyProg g env.call pos
        (((w.tried path).set (modifyProg f env.call pos w.p)).ask env).p = (w.tried path).p :=
      modifyProg_undo hat hun
    rw [hbc, ask_undo (w.tried path) hsh hans]
    exact .undone htr hkn _ hans

lemma tryConst_outcome {t : ConstType} (hsh : w.shared → w.p0 = w.p)
    (hat : argAt w.p env.call pos = some (.const t val)) :
    ∃ b w', tryConst env w pos path t val = some (b, w') ∧ Outcome env w (.leaf pos path) b w' := by
  have hkn : kindAt w.p env.call (.leaf pos path) = .other := by simp only [kindAt, hat]
  unfold tryConst
  split
  · exact ⟨false, w, rfl, .skipped (.inr (.inl hkn))⟩
  case isFalse hsk =>
    simp only [Bool.or_eq_true, Bool.not_eq_true', decide_eq_true_eq, not_or,
      Bool.not_eq_false] at hsk
    obtain ⟨⟨hvl, -⟩, htr⟩ := hsk
    split
    · exact ⟨false, _, rfl, .passed htr hkn⟩
    · -- only the values of other constants are length fields
      have han : ∀ fields ps v, assignSizes fields ps (.const t v) = .const t v := by
        intro fields ps v
        unfold isValue at hvl
        rw [assignSizes, constValue]
        cases hk : t.kind <;> simp [hk] at hvl ⊢
      have hhr : Harmless (setVal t.default) (.const t val) :=
        ⟨sameSize_const .., fun fields ps => by rw [han, setVal, han]⟩
      exact outcome_attempt hsh hat htr hkn
        (callKeeps_modifyProg hat (.const t val t.default) le_rfl) hhr rfl

lemma tryResult_outcome {t : ResourceType} (h : Good w.p) (hsh : w.shared → w.p0 = w.p)
    (hat : argAt w.p env.call pos = some (.result t n)) :
    ∃ b w', tryResult env w pos path t n = some (b, w') ∧ Outcome env w (.leaf pos path) b w' := by
  have hkn : kindAt w.p env.call (.leaf pos path) = .other := by simp only [kindAt, hat]
  unfold tryResult
  split
  · exact ⟨false, w, rfl, .skipped (.inr (.inl hkn))⟩
  case isFalse hsk =>
    have htr : path ∉ w.triedPaths := by
      intro h
      simp [h] at hsk
    split
    · exact ⟨false, _, rfl, .passed htr hkn⟩
    case isFalse hres =>
      -- a result that uses another one has the value 0, so the value is put back, too
      have hval : n.val = 0 := by
        have hsn := h.sound_at hat
        simp only [Trim.sound, Bool.or_eq_true, isNone_iff_eq_none, beq_iff_eq] at hsn
        exact hsn.resolve_left hres
      have hun : setResult n.res 0 (setResult none t.default (.result t n)) = .result t n := by
        simp only [setResult, ← hval]
      exact outcome_attempt hsh hat htr hkn
        (callKeeps_modifyProg hat (.result t (.inr ⟨rfl, rfl⟩)) le_rfl)
        ⟨sameSize_result .., fun _ _ => rfl⟩ hun

lemma tryData_outcome {t : BufferType} {bs : List UInt8} {outSize : ℕ} (h : Good w.p)
    (hat : argAt w.p env.call pos = some (.data t bs outSize)) :
    ∃ b w', tryData env w pos path t bs = some (b, w') ∧
      Outcome env w (.leaf pos path) b w' := by
  unfold tryData
  split
  case isTrue htr => exact ⟨false, w, rfl, .skipped (.inl htr)⟩
  case isFalse htr =>
    cases hbl : blob t with
    | false =>
      refine ⟨false, w.tried path, rfl, .passed htr ?_⟩
      simp [kindAt, hat, hbl]
    | true =>
      have hkn : kindAt w.p env.call (.leaf pos path) =
          .buffer (decide (t.rangeBegin < bs.length)) := by
        simp only [kindAt, hat, hbl, if_true]
      obtain ⟨w', hw', hor, hrun⟩ := shrink_settles (w := w.tried path) h hat hbl
        (bs.length + (bs.length - t.rangeBegin)) (bs.length - t.rangeBegin)
      refine ⟨false, w'.commit, by simp [hw'], ?_⟩
      by_cases hln : t.rangeBegin < bs.length
      · rw [decide_eq_true hln] at hkn
        exact .shrunk htr hkn w' (hrun (by omega) (by omega) (by omega))
      · rw [decide_eq_false hln] at hkn
        have hst : w' = w.tried path := by
          have hzr : bs.length - t.rangeBegin = 0 := by omega
          rw [hzr] at hw'
          cases hlen : bs.length with
          | zero =>
            simp only [hlen, shrink] at hw'
            exact (some.inj hw').symm
          | succ n =>
            simp only [hlen, shrink, lt_irrefl, and_false, if_false] at hw'
            exact (some.inj hw').symm
        rw [hst]
        exact .short htr hkn

lemma tryElem_outcome (h : Good w.p) (hl : Linked w.p) (k : ℕ) :
    ∃ b w', tryElem env w pos path k = some (b, w') ∧ Outcome env w (.elem pos path k) b w' := by
  unfold tryElem
  split
  case h_1 t inner hat =>
    cases hx : inner[k]? with
    | none =>
      have hk : ¬ k < inner.length := by simpa using hx
      refine ⟨false, w, rfl, .skipped (.inr (.inl ?_))⟩
      simp only [kindAt, hat, hk, false_and, if_false]
    | some x =>
      have hk : k < inner.length := (List.getElem?_eq_some_iff.1 hx).1
      simp only
      split
      case isTrue hgo =>
        simp only [Bool.and_eq_true, decide_eq_true_eq, Bool.not_eq_true'] at hgo
        have hkn : kindAt w.p env.call (.elem pos path k) = .elem := by
          simp only [kindAt, hat, hk, hgo.2, and_self, if_true]
        obtain ⟨q, p, f, hq, hcl, hgd, hp, hgoo, hts, hcn⟩ :=
          h.removeElem hl hat hx hgo.2
        have hcm : Calms w.p p := (calms_mapResults f hcl).trans (calms_edit hgd hp)
        rw [removeElem, hq, bind_some, hp, map_some]
        cases hans : env.pred w.log (env.query p) with
        | true =>
          refine ⟨true, _, congrArg some (if_pos hans), ?_⟩
          rw [ask_commit w hans]
          exact .removed hgo.1.1 hkn hgo.1.2 p hgoo hts hcm hcn hans
        | false =>
          refine ⟨true, _, congrArg some (if_neg (ne_true_of_eq_false hans)), ?_⟩
          rw [ask_set, hans]
          exact .dropped hgo.1.1 hkn hgo.1.2 p hgoo hts hcm hcn hans
      case isFalse hgo =>
        refine ⟨false, w, rfl, .skipped ?_⟩
        simp only [Visit.path, kindAt, hat, hk, true_and]
        by_cases htr : path ∈ w.triedPaths
        · exact .inl htr
        · cases hr : removable t inner.length with
          | false => exact .inr (.inl (by simp))
          | true =>
            refine .inr (.inr ⟨by simp, ?_⟩)
            simpa [htr, hr] using hgo
  case h_2 hat =>
    refine ⟨false, w, rfl, .skipped (.inr (.inl ?_))⟩
    rw [kindAt]
    split
    case h_1 t inner hat' => exact absurd hat' (hat t inner)
    case h_2 => rfl

/-- **Every visit succeeds**, with one of the outcomes. -/
theorem visit_outcome (env : Env) (h : Good w.p) (hl : Linked w.p)
    (hsh : w.shared → w.p0 = w.p)
    (v : Visit) : ∃ b w', visit env w v = some (b, w') ∧ Outcome env w v b w' := by
  cases v with
  | elem pos path k => exact tryElem_outcome h hl k
  | leaf pos path =>
    rw [visit, tryLeaf]
    cases hat : argAt w.p env.call pos with
    | none =>
      refine ⟨false, w, rfl, .skipped (.inr (.inl ?_))⟩
      simp only [kindAt, hat]
    | some b =>
      cases b with
      | const t val => exact tryConst_outcome hsh hat
      | result t n => exact tryResult_outcome h hsh hat
      | data t bytes outSize => exact tryData_outcome h hat
      | _ =>
        refine ⟨false, w, rfl, .skipped (.inr (.inl ?_))⟩
        simp only [kindAt, hat]

end Visit

end Razzer.Minimize
