import Razzer.Cluster

/-!
The maximal signal of the fuzzers.

Signal goes both ways between the manager and a fuzzer. What a fuzzer finds new it keeps for
its next poll, and what the manager learns from a poll it holds for the other fuzzers. So
there are two statements: the manager has no signal that a fuzzer does not have or will not
get, and no fuzzer has found signal that the manager does not have or will not get.
-/

namespace Razzer.FuzzerSignal

open Feedback SyzManager Cluster Runs Function Option

/-! ### One link -/

/-- The signal a fuzzer has, with the reply that is under way to it. -/
def reach : FuzzerLink → UInt32 → WithBot ℤ
  | .down | .registered => ⊥
  | .welcomed r => prio r.maxSignal
  | .running x | .asking x _ => prio x.maxSignal
  | .answered x r => prio x.maxSignal ⊔ prio r.maxSignal

/-- The signal a fuzzer has found and not yet sent, with the poll that is under way from it. -/
def unsent : FuzzerLink → UInt32 → WithBot ℤ
  | .running x | .answered x _ => prio x.newSignal
  | .asking x a => prio x.newSignal ⊔ prio a.maxSignal
  | _ => ⊥

def pendingFor (m : Manager) (n : Name) : UInt32 → WithBot ℤ :=
  prio (((m.fuzzers n).map Fuzzer.newMaxSignal).getD ∅)

/-- A link to a fuzzer when the manager has the signal `sup` and holds `pend` for the fuzzer. -/
structure LinkOk (sup pend : UInt32 → WithBot ℤ) (l : FuzzerLink) : Prop where
  own : unsent l ≤ reach l
  covered : l.Replied → sup ≤ reach l ⊔ pend

variable {sup pend : UInt32 → WithBot ℤ} {l l' : FuzzerLink}

lemma LinkOk.grow (h : LinkOk sup pend l) (d : UInt32 → WithBot ℤ) :
    LinkOk (sup ⊔ d) (pend ⊔ d) l := by
  refine ⟨h.own, fun hl => ?_⟩
  calc sup ⊔ d ≤ reach l ⊔ pend ⊔ d := sup_le_sup_right (h.covered hl) d
    _ = reach l ⊔ (pend ⊔ d) := sup_assoc _ _ _

variable {e ev : Ev} {f : FuzzerProc → FuzzerProc} {n : Name} {s t : State} {p : ℤ}

lemma fuzzerWorkOf_grows (hf : fuzzerWorkOf e = some (n, f)) (x : FuzzerProc) :
    ∃ d d' : UInt32 → WithBot ℤ, d' ≤ d ∧
      prio (f x).maxSignal = prio x.maxSignal ⊔ d ∧
        prio (f x).newSignal = prio x.newSignal ⊔ d' := by
  unfold fuzzerWorkOf at hf
  split at hf <;> cases hf
  case h_1 raw p =>
    rw [FuzzerProc.checkNewSignal_eq]
    exact ⟨_, _, le_rfl, prio_merge _ _, prio_merge _ _⟩
  case h_2 d => exact ⟨prio d, prio d, le_rfl, prio_merge _ _, prio_merge _ _⟩
  case h_3 sign =>
    unfold FuzzerProc.addInput
    split
    · exact ⟨⊥, ⊥, le_rfl, (sup_bot_eq _).symm, (sup_bot_eq _).symm⟩
    · exact ⟨prio sign, ⊥, bot_le, prio_merge _ _, (sup_bot_eq _).symm⟩

lemma work_grows (hf : fuzzerWorkOf e = some (n, f)) (hl : l.work f = some l') :
    l.Replied ∧ ∃ d d' : UInt32 → WithBot ℤ, d' ≤ d ∧ reach l' = reach l ⊔ d ∧
      unsent l' = unsent l ⊔ d' := by
  cases l with
  | down | registered | welcomed r => simp [Link.work] at hl
  | running x =>
    cases hl
    exact ⟨trivial, fuzzerWorkOf_grows hf x⟩
  | asking x a =>
    cases hl
    obtain ⟨d, d', hle, hmax, hnew⟩ := fuzzerWorkOf_grows hf x
    refine ⟨trivial, d, d', hle, hmax, ?_⟩
    rw [unsent, hnew, sup_right_comm]
    rfl
  | answered x r =>
    cases hl
    obtain ⟨d, d', hle, hmax, hnew⟩ := fuzzerWorkOf_grows hf x
    refine ⟨trivial, d, d', hle, ?_, hnew⟩
    rw [reach, hmax, sup_right_comm]
    rfl

lemma LinkOk.work (h : LinkOk sup pend l) (hf : fuzzerWorkOf e = some (n, f))
    (hl : l.work f = some l') : LinkOk sup pend l' := by
  obtain ⟨hrep, d, d', hle, hrc, hun⟩ := work_grows hf hl
  refine ⟨?_, fun _ => ?_⟩
  · rw [hrc, hun]
    exact sup_le_sup h.own hle
  · rw [hrc]
    exact (h.covered hrep).trans (sup_le_sup_right le_sup_left _)

lemma unsent_initPoll (x : FuzzerProc) :
    unsent (.asking x.initPoll.1 x.initPoll.2) = unsent (.running x) := by
  simp only [unsent, FuzzerProc.initPoll, prio_empty, bot_sup_eq]

lemma reach_finishPoll (x : FuzzerProc) (r : PollRes) :
    reach (.running (x.finishPoll r)) = reach (.answered x r) := prio_merge _ _

lemma reach_fuzzerInit (r : ConnectRes) :
    reach (.running (fuzzerInit r)) = reach (.welcomed r) := by
  simp only [reach, fuzzerInit, prio_merge, prio_empty, bot_sup_eq]

/-! ### The invariant -/

structure Inv (s : State) : Prop where
  recorded : ∀ n, s.fuzzers n ≠ .down → (s.mgr.fuzzers n).isSome
  links : ∀ n, LinkOk (prio s.mgr.maxSignal) (pendingFor s.mgr n) (s.fuzzers n)

lemma linkOk_fresh (h : ¬ l.Replied) : LinkOk sup pend l := by
  cases l with
  | down | registered => exact ⟨le_rfl, fun hl => absurd hl h⟩
  | _ => exact absurd trivial h

lemma inv_init : Inv Cluster.init := ⟨fun _ hn => absurd rfl hn, fun _ => linkOk_fresh id⟩

lemma Inv.setFuzzer (hi : Inv s) (hn : s.fuzzers n ≠ .down)
    (hl : LinkOk (prio s.mgr.maxSignal) (pendingFor s.mgr n) l) : Inv (s.setFuzzer n l) := by
  refine ⟨fun k hk => ?_, ?_⟩
  · by_cases hkn : k = n
    · exact hkn ▸ hi.recorded n hn
    · simp only [State.setFuzzer, update_of_ne hkn] at hk
      exact hi.recorded k hk
  · exact (forall_update_iff _ fun k l =>
      LinkOk (prio s.mgr.maxSignal) (pendingFor s.mgr k) l).2 ⟨hl, fun k _ => hi.links k⟩

lemma fuzzerPoll_signal {m m' : Manager} {a : PollArgs} {r : PollRes}
    (h : fuzzerPoll m n a = some (m', r)) : ∃ d : UInt32 → WithBot ℤ,
      d ≤ prio a.maxSignal ∧ prio a.maxSignal ≤ prio m.maxSignal ⊔ d ∧
      prio m'.maxSignal = prio m.maxSignal ⊔ d ∧ prio r.maxSignal = pendingFor m n ∧
      (∀ k, (m'.fuzzers k).isSome = (m.fuzzers k).isSome) ∧
      ∀ k, k ≠ n → (m.fuzzers k).isSome → pendingFor m' k = pendingFor m k ⊔ d := by
  obtain ⟨f, hf, rfl, rfl⟩ := fuzzerPoll_eq h
  refine ⟨prio (diff m.maxSignal a.maxSignal), prio_diff_le _ _, prio_le_sup_diff _ _,
    prio_merge _ _, ?_, fun k => ?_, fun k hk hsm => ?_⟩
  · rw [pendingFor, hf]
    rfl
  · by_cases hk : k = n
    · simp only [polled, hk, update_self, hf, isSome_some]
    · simp only [polled, update_of_ne hk, others, hk, if_false, isSome_map]
  · obtain ⟨rec, hrec⟩ := Option.isSome_iff_exists.1 hsm
    simp only [polled, pendingFor, update_of_ne hk, others, hk, if_false, hrec, map_some]
    exact prio_merge _ _

variable {x : FuzzerProc} {a : PollArgs} {m m' mgr : Manager} {r : PollRes} {d : Signal}

lemma inv_fuzzerPoll (hi : Inv s) (hl : s.fuzzers n = .asking x a)
    (h : fuzzerPoll s.mgr n a = some (mgr, r)) (seen : Name → Manager) :
    Inv { s.setFuzzer n (.answered x r) with mgr := mgr, fuzzerSeen := seen } := by
  obtain ⟨d, hda, -, hmax, hr, hsm, hpn⟩ := fuzzerPoll_signal h
  have hn := hi.links n
  rw [hl] at hn
  refine ⟨fun k hk => ?_, fun k => ?_⟩
  · by_cases hkn : k = n
    · subst hkn
      exact (hsm k).trans (hi.recorded k (by simp [hl]))
    · simp only [State.setFuzzer, update_of_ne hkn] at hk
      exact (hsm k).trans (hi.recorded k hk)
  · by_cases hkn : k = n
    · subst hkn
      simp only [State.setFuzzer, update_self, hmax]
      refine ⟨(le_sup_left.trans hn.own).trans le_sup_left, fun _ => ?_⟩
      -- what the poll adds to the manager's signal is the fuzzer's own
      have hd : d ≤ prio x.maxSignal := hda.trans (le_sup_right.trans hn.own)
      have hsup : prio s.mgr.maxSignal ≤ prio x.maxSignal ⊔ prio r.maxSignal :=
        hr ▸ hn.covered trivial
      exact (sup_le hsup (hd.trans le_sup_left)).trans le_sup_left
    · simp only [State.setFuzzer, update_of_ne hkn, hmax]
      by_cases hdw : s.fuzzers k = .down
      · exact linkOk_fresh (by rw [hdw]; exact id)
      · rw [hpn k hkn (hi.recorded k hdw)]
        exact (hi.links k).grow d

lemma inv_fuzzerStep (hi : Inv s) (h : FuzzerStep s e t) : Inv t := by
  cases h with
  | register n =>
    refine ⟨fun k hk => ?_, fun k => ?_⟩
    · by_cases hkn : k = n
      · simp [register, hkn]
      · simp only [State.setFuzzer, update_of_ne hkn] at hk
        simpa only [register, update_of_ne hkn] using hi.recorded k hk
    · by_cases hkn : k = n
      · simp only [State.setFuzzer, hkn, update_self]
        exact linkOk_fresh id
      · simpa only [State.setFuzzer, register, pendingFor, update_of_ne hkn]
          using hi.links k
  | reply n hl =>
    have hset := hi.setFuzzer (n := n) (l := .welcomed (connectReply s.mgr)) (by simp [hl])
      ⟨bot_le, fun _ => le_sup_left⟩
    exact ⟨hset.recorded, hset.links⟩
  | init n r hl =>
    have hn := hi.links n
    rw [hl] at hn
    refine hi.setFuzzer (by simp [hl]) ⟨bot_le, fun _ => ?_⟩
    rw [reach_fuzzerInit]
    exact hn.covered trivial
  | initPoll n x hl =>
    have hn := hi.links n
    rw [hl] at hn
    refine hi.setFuzzer (by simp [hl]) ⟨?_, fun _ => hn.covered trivial⟩
    rw [unsent_initPoll]
    exact hn.own
  | poll n x a f r hl hp => exact inv_fuzzerPoll hi hl hp _
  | finishPoll n x r hl =>
    have hn := hi.links n
    rw [hl] at hn
    refine hi.setFuzzer (by simp [hl]) ⟨?_, fun _ => ?_⟩
    · rw [reach_finishPoll]
      exact hn.own
    · rw [reach_finishPoll]
      exact hn.covered trivial
  | work e n f l hf hl =>
    refine hi.setFuzzer (fun hdw => ?_) ((hi.links n).work hf hl)
    rw [hdw] at hl
    cases hl

/-- A step that has nothing to do with the signal of fuzzers. -/
structure SameSignal (s t : State) : Prop where
  fuzzers : t.fuzzers = s.fuzzers
  maxSignal : t.mgr.maxSignal = s.mgr.maxSignal
  pending : ∀ n, pendingFor t.mgr n = pendingFor s.mgr n
  recorded : ∀ n, (t.mgr.fuzzers n).isSome = (s.mgr.fuzzers n).isSome

lemma schedStep_same (h : SchedStep s e t) : SameSignal s t := by
  cases h with
  | poll n x a mgr r hl hp =>
    obtain ⟨f, infos, new, hf, -, rfl, rfl⟩ := schedulerPoll_eq hp
    exact ⟨rfl, rfl, fun _ => rfl, fun _ => rfl⟩
  | _ => exact ⟨rfl, rfl, fun _ => rfl, fun _ => rfl⟩

lemma pendingFor_congr
    (h : (m'.fuzzers n).map Fuzzer.newMaxSignal = (m.fuzzers n).map Fuzzer.newMaxSignal) :
    pendingFor m' n = pendingFor m n ∧ (m'.fuzzers n).isSome = (m.fuzzers n).isSome := by
  refine ⟨by rw [pendingFor, h, pendingFor], ?_⟩
  rw [← isSome_map (f := Fuzzer.newMaxSignal), h, isSome_map]

lemma managerStep_same (h : ManagerStep s e t) : SameSignal s t := by
  cases h with
  | updateSuppPairs drops dels adds new hm =>
    have hrec : ∀ k, ((s.mgr.fuzzers k).map fun f => f.addSupp adds dels).map
        Fuzzer.newMaxSignal = (s.mgr.fuzzers k).map Fuzzer.newMaxSignal := fun k => by
      rw [map_map]
      rfl
    exact ⟨rfl, rfl, fun k => (pendingFor_congr (hrec k)).1, fun k => (pendingFor_congr (hrec k)).2⟩
  | newInput n sig inp corpus signal inputs =>
    have hrec : ∀ k, (others n (fun f1 => { f1 with inputs := f1.inputs ++ inputs })
        s.mgr.fuzzers k).map Fuzzer.newMaxSignal = (s.mgr.fuzzers k).map Fuzzer.newMaxSignal :=
      map_others (by exact fun _ => rfl) n s.mgr.fuzzers
    exact ⟨rfl, rfl, fun k => (pendingFor_congr (hrec k)).1, fun k => (pendingFor_congr (hrec k)).2⟩
  | newLikelyRaceInput n rinp coin l mgr hl hm =>
    rcases newLikelyRaceInput_eq hm with ⟨-, rfl⟩ | ⟨-, rfl⟩
    · exact ⟨rfl, rfl, fun _ => rfl, fun _ => rfl⟩
    · exact ⟨rfl, rfl, fun _ => rfl, fun _ => rfl⟩
  | _ => exact ⟨rfl, rfl, fun _ => rfl, fun _ => rfl⟩

/-- **What a step is for the fuzzers' signal.** -/
lemma step_signal (h : step s e = some t) : FuzzerStep s e t ∨ SameSignal s t := by
  rcases step_cases h with h | h | h
  · exact .inl h
  · exact .inr (schedStep_same h)
  · exact .inr (managerStep_same h)

lemma inv_step (hi : Inv s) (h : step s e = some t) : Inv t := by
  rcases step_signal h with h | h
  · exact inv_fuzzerStep hi h
  · refine ⟨fun n hn => ?_, fun n => ?_⟩
    · rw [h.recorded]
      exact hi.recorded n (h.fuzzers ▸ hn)
    · rw [h.maxSignal, h.pending, h.fuzzers]
      exact hi.links n

/-! ### What the fuzzers have found -/

def observed (s : State) : Ev → UInt32 → WithBot ℤ
  | .fuzzerWork n raw p =>
    match s.fuzzers n with
    | .running x | .asking x _ | .answered x _ => prio (diffRaw x.maxSignal raw p)
    | _ => ⊥
  | .fuzzerMerge _ d => prio d
  | _ => ⊥

/-- The manager has element `e` with priority `p`, or a fuzzer is about to send it. -/
def Kept (s : State) (e : UInt32) (p : ℤ) : Prop :=
  p ≤ prio s.mgr.maxSignal e ∨ ∃ n, p ≤ unsent (s.fuzzers n) e

def NoCrash (s : State) (e : Ev) : Prop := ∀ n, e = .fuzzerRegister n → s.fuzzers n = .down

variable {e : UInt32}

lemma Kept.update (h : Kept s e p) (hmax : prio s.mgr.maxSignal ≤ prio t.mgr.maxSignal)
    (hot : ∀ k, k ≠ n → t.fuzzers k = s.fuzzers k)
    (hn : unsent (s.fuzzers n) ≤ prio t.mgr.maxSignal ⊔ unsent (t.fuzzers n)) : Kept t e p := by
  rcases h with h | ⟨k, h⟩
  · exact .inl (h.trans (hmax e))
  · by_cases hk : k = n
    · subst hk
      rcases le_sup_iff.1 (h.trans (hn e)) with h | h
      · exact .inl h
      · exact .inr ⟨k, h⟩
    · exact .inr ⟨k, by rwa [hot k hk]⟩

lemma Kept.setFuzzer (h : Kept s e p) (hn : unsent (s.fuzzers n) ≤ unsent l) :
    Kept (s.setFuzzer n l) e p := by
  refine h.update (n := n) le_rfl (fun k hk => update_of_ne hk _ _) ?_
  simp only [State.setFuzzer, update_self]
  exact hn.trans le_sup_right

lemma Kept.fuzzerStep (h : Kept s e p) (hc : NoCrash s ev) (hs : FuzzerStep s ev t) :
    Kept t e p := by
  cases hs with
  | register n =>
    have hk := h.setFuzzer (n := n) (l := .registered) (by rw [hc n rfl]; exact le_rfl)
    exact hk
  | reply n hl =>
    have hk := h.setFuzzer (n := n) (l := .welcomed (connectReply s.mgr)) (by rw [hl]; exact le_rfl)
    exact hk
  | init n r hl => exact h.setFuzzer (by rw [hl]; exact bot_le)
  | initPoll n x hl => exact h.setFuzzer (by rw [hl, unsent_initPoll])
  | poll n x a f r hl hp =>
    obtain ⟨d, -, had, hmax, -⟩ := fuzzerPoll_signal hp
    refine h.update (n := n) (hmax ▸ le_sup_left) (fun k hk => update_of_ne hk _ _) ?_
    -- the arguments of the poll go over to the manager
    simp only [State.setFuzzer, update_self, hl, unsent, hmax]
    exact sup_le le_sup_right (had.trans le_sup_left)
  | finishPoll n x r hl => exact h.setFuzzer (by rw [hl]; exact le_rfl)
  | work ev n f l hf hl =>
    obtain ⟨-, d, d', -, -, hun⟩ := work_grows hf hl
    exact h.setFuzzer (hun ▸ le_sup_left)

lemma Kept.step (h : Kept s e p) (hc : NoCrash s ev) (hs : step s ev = some t) :
    Kept t e p := by
  rcases step_signal hs with hs | hs
  · exact h.fuzzerStep hc hs
  · rwa [Kept, hs.maxSignal, hs.fuzzers]

lemma work_mergeNewSignal (hl : l.work (FuzzerProc.mergeNewSignal d) = some l') :
    prio d ≤ unsent l' := by
  have hmr : ∀ x : FuzzerProc, prio d ≤ prio (x.mergeNewSignal d).newSignal := fun x => by
    rw [FuzzerProc.mergeNewSignal, prio_merge]
    exact le_sup_right
  cases l with
  | running x | answered x r => cases hl; exact hmr x
  | asking x a => cases hl; exact (hmr x).trans le_sup_left
  | _ => cases hl

lemma step_work (hf : fuzzerWorkOf ev = some (n, f)) (hs : step s ev = some t) :
    ∃ l, (s.fuzzers n).work f = some l ∧ t = s.setFuzzer n l := by
  rcases step_cases hs with h | h | h
  · cases h with
    | work ev n' f' l hf' hl =>
      cases hf.symm.trans hf'
      exact ⟨l, hl, rfl⟩
    | _ => cases hf
  · cases h with
    | work ev n' f' l hf' hl => cases ev <;> cases hf <;> cases hf'
    | _ => cases hf
  · cases h <;> cases hf

lemma observed_unsent (hs : step s ev = some t) :
    observed s ev = ⊥ ∨ ∃ n, observed s ev ≤ unsent (t.fuzzers n) := by
  cases ev with
  | fuzzerWork n raw p =>
    obtain ⟨l', hl, rfl⟩ := step_work rfl hs
    refine .inr ⟨n, ?_⟩
    simp only [State.setFuzzer, update_self, observed]
    cases hln : s.fuzzers n with
    | running x =>
      rw [hln, Link.work, FuzzerProc.checkNewSignal_eq] at hl
      exact work_mergeNewSignal (l := .running x) hl
    | asking x a =>
      rw [hln, Link.work, FuzzerProc.checkNewSignal_eq] at hl
      exact work_mergeNewSignal (l := .asking x a) hl
    | answered x r =>
      rw [hln, Link.work, FuzzerProc.checkNewSignal_eq] at hl
      exact work_mergeNewSignal (l := .answered x r) hl
    | _ => exact bot_le
  | fuzzerMerge n d =>
    obtain ⟨l', hl, rfl⟩ := step_work rfl hs
    refine .inr ⟨n, ?_⟩
    simp only [State.setFuzzer, update_self, observed]
    exact work_mergeNewSignal hl
  | _ => exact .inl rfl

lemma kept_observed (hs : step s ev = some t) (hp : p ≤ observed s ev e) :
    Kept t e p := by
  rcases observed_unsent hs with hbot | ⟨n, hn⟩
  · rw [hbot] at hp
    exact absurd hp (by simp)
  · exact .inr ⟨n, hp.trans (hn e)⟩

/-- **No signal is lost between the manager and the fuzzers.** In every run from the empty
system, each fuzzer whose connect reply has been built has all the signal the manager has, but
for what is under way to it and held for it; and if no fuzzer crashes, everything a fuzzer has
found to be new the manager has, or a fuzzer has yet to send it, or it is under way. -/
theorem fuzzer_signal_kept (es : List Ev) {s : State} (hrun : run step Cluster.init es = some s) :
    (∀ n, (s.fuzzers n).Replied → prio s.mgr.maxSignal ≤ reach (s.fuzzers n) ⊔ pendingFor s.mgr n) ∧
    (Meets step NoCrash Cluster.init es → ∀ (e : UInt32) (p : ℤ),
      Took step (fun m ev => p ≤ observed m ev e) Cluster.init es → Kept s e p) := by
  constructor
  · have hinv : Inv s := run_inv_hist (I := fun _ s => Inv s) inv_init
      (fun _ _ _ _ _ hi h => inv_step hi h) hrun
    exact fun n hn => (hinv.links n).covered hn
  · intro hc e p
    induction es using List.reverseRecOn generalizing s with
    | nil =>
      rintro ⟨u, ev, m, hu, -⟩
      simp at hu
    | append_singleton u ev ih =>
      obtain ⟨m, hm, hs⟩ := run_snoc hrun
      obtain ⟨hcu, hcev⟩ := (meets_snoc hm).1 hc
      intro htk
      rcases took_snoc hm htk with htk | hobs
      · exact (ih hm hcu htk).step hcev hs
      · exact kept_observed hs hobs

def twoFuzzers : List Ev :=
  [.fuzzerRegister 0, .fuzzerReply 0, .fuzzerInit 0, .fuzzerRegister 1, .fuzzerReply 1,
    .fuzzerWork 0 [5] 1, .fuzzerInitPoll 0, .fuzzerPoll 0]

/-- Fuzzer 0 is slow to merge another difference. -/
def thenMerges : List Ev := twoFuzzers ++ [.fuzzerMerge 0 (AList.singleton 9 1)]

lemma thenMerges_state : (run step Cluster.init thenMerges).map (fun t =>
    (prio t.mgr.maxSignal 5, decide ((t.fuzzers 1).Replied))) = some (1, true) := by
  decide +kernel

lemma thenMerges_noCrash : Meets step NoCrash Cluster.init thenMerges := by
  simp only [thenMerges, twoFuzzers, List.cons_append, List.nil_append, Meets]
  iterate 9
    refine ⟨by rintro n ⟨⟩ <;> rfl, ?_⟩
    rintro _ ⟨⟩
  trivial

/-- The first element is held for fuzzer 1, and the second one is yet to be sent. -/
theorem fuzzer_signal_kept_two : ∃ s, run step Cluster.init thenMerges = some s ∧
    prio s.mgr.maxSignal 5 = 1 ∧
    prio s.mgr.maxSignal ≤ reach (s.fuzzers 1) ⊔ pendingFor s.mgr 1 ∧ Kept s 9 1 := by
  obtain ⟨s, hs, hvw⟩ := Option.map_eq_some_iff.1 thenMerges_state
  simp only [Prod.mk.injEq, decide_eq_true_eq] at hvw
  obtain ⟨m, hm⟩ : ∃ m, run step Cluster.init twoFuzzers = some m :=
    Option.isSome_iff_exists.1 (by decide +kernel)
  have hkept := fuzzer_signal_kept thenMerges hs
  have hobs : ((1 : ℤ) : WithBot ℤ) ≤ prio (AList.singleton 9 1) 9 := by decide
  exact ⟨s, hs, hvw.1, hkept.1 1 hvw.2, hkept.2 thenMerges_noCrash 9 1 (took_last hm hobs)⟩

end Razzer.FuzzerSignal
