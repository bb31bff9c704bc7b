import Razzer.Cluster

/-!
The maximal race signal.

The manager accumulates the race signal of all polls in `maxRaceSignal` and passes what is
new on to the other schedulers. Its connect reply has `raceMaxSignal`, another field that
nothing writes to, so a scheduler starts from the signal of the race corpus alone. From
there on the lattice of priorities keeps track: what the manager has is below what the
scheduler has, joined with what is under way to it.
-/

namespace Razzer.SignalSync

open Feedback SyzManager Cluster Runs Function

/-! ### One scheduler -/

def joinInputs (rinps : List RPCRaceInput) : UInt32 → WithBot ℤ :=
  rinps.foldr (fun rinp f => prio rinp.signal ⊔ f) ⊥

lemma addRaceInput_max (x : SchedulerProc) (sign : Signal) :
    prio (x.addRaceInput sign).raceMaxSignal = prio x.raceMaxSignal ⊔ prio sign := by
  unfold SchedulerProc.addRaceInput
  split
  case isTrue h => rw [prio_of_empty h, sup_bot_eq]
  case isFalse => exact prio_merge _ _

lemma addRaceInputs_max (x : SchedulerProc) (rinps : List RPCRaceInput) :
    prio (x.addRaceInputs rinps).raceMaxSignal = prio x.raceMaxSignal ⊔ joinInputs rinps := by
  induction rinps generalizing x with
  | nil => exact (sup_bot_eq _).symm
  | cons rinp rinps ih =>
    rw [SchedulerProc.addRaceInputs, List.foldl_cons, ← SchedulerProc.addRaceInputs, ih,
      addRaceInput_max, sup_assoc]
    rfl

lemma addRaceMaxSignal_max (x : SchedulerProc) (sign : Signal) :
    prio (x.addRaceMaxSignal sign).raceMaxSignal = prio x.raceMaxSignal ⊔ prio sign := by
  unfold SchedulerProc.addRaceMaxSignal
  split
  case isTrue h => rw [prio_of_empty h, sup_bot_eq]
  case isFalse => exact prio_merge _ _

lemma schedulerInit_max (r : SchedulerConnectRes) :
    prio (schedulerInit r).raceMaxSignal = joinInputs r.raceInputs ⊔ prio r.raceMaxSignal := by
  unfold schedulerInit
  simp only [SchedulerProc.addTrueRaces]
  rw [addRaceMaxSignal_max, addRaceInputs_max, prio_empty, bot_sup_eq]

lemma finishPoll_max (x : SchedulerProc) (r : SchedulerPollRes) :
    prio (x.finishPoll r).raceMaxSignal =
      prio x.raceMaxSignal ⊔ prio r.maxSignal ⊔ joinInputs r.newRaceInputs := by
  unfold SchedulerProc.finishPoll
  simp only [SchedulerProc.addTrueRaces]
  rw [addRaceInputs_max, addRaceMaxSignal_max]

/-- The signal to report is part of the scheduler's own. -/
def Reportable (x : SchedulerProc) : Prop := prio x.newSignal ≤ prio x.raceMaxSignal

lemma mergeNewRaceSignal_max (d : Signal) (x : SchedulerProc) :
    prio x.raceMaxSignal ≤ prio (x.mergeNewRaceSignal d).raceMaxSignal ∧
      (Reportable x → Reportable (x.mergeNewRaceSignal d)) := by
  simp only [SchedulerProc.mergeNewRaceSignal, Reportable, prio_merge]
  exact ⟨le_sup_left, fun h => sup_le_sup_right h _⟩

variable {e : Ev} {n : Name} {s : State}

variable {f : SchedulerProc → SchedulerProc} {rec : Scheduler} {r : SchedulerConnectRes}
  {m : Manager} {t : State}

lemma schedWorkOf_max (hf : schedWorkOf e = some (n, f)) (x : SchedulerProc) :
    prio x.raceMaxSignal ≤ prio (f x).raceMaxSignal ∧ (Reportable x → Reportable (f x)) := by
  unfold schedWorkOf at hf
  split at hf <;> cases hf
  case h_1 raw p =>
    rw [x.checkNewRaceSignal_eq]
    exact mergeNewRaceSignal_max _ x
  case h_2 d => exact mergeNewRaceSignal_max d x
  case h_3 hsh kind =>
    obtain ⟨l, m, g, h⟩ := x.updateTrueRaceInfo_eq hsh kind
    rw [h]
    exact ⟨le_rfl, id⟩
  case h_4 => exact ⟨le_rfl, id⟩
  case h_5 sign =>
    have hmax := addRaceInput_max x sign
    obtain ⟨c, m, h⟩ := x.addRaceInput_eq sign
    simp only [h, Reportable] at hmax ⊢
    rw [hmax]
    exact ⟨le_sup_left, fun hx => hx.trans le_sup_left⟩
  case h_6 rinp =>
    obtain ⟨c, l, h⟩ := x.finishLikely_eq rinp
    rw [h]
    exact ⟨le_rfl, id⟩

/-! ### One link -/

/-- A link to a scheduler with the record `o`, when the manager has the signal `sup`. -/
def LinkOk (sup : UInt32 → WithBot ℤ) (o : Option Scheduler) : SchedLink → Prop
  | .down => True
  | .registered => ∃ rec, o = some rec
  | .welcomed r => ∃ rec, o = some rec ∧ prio r.raceMaxSignal = ⊥
  | .running x => ∃ rec, o = some rec ∧ Reportable x ∧
      sup ≤ prio x.raceMaxSignal ⊔ prio rec.newMaxSignal
  | .asking x a => ∃ rec, o = some rec ∧ Reportable x ∧ prio a.maxSignal ≤ prio x.raceMaxSignal ∧
      sup ≤ prio x.raceMaxSignal ⊔ prio rec.newMaxSignal
  | .answered x r => ∃ rec, o = some rec ∧ Reportable x ∧
      sup ≤ prio x.raceMaxSignal ⊔ prio r.maxSignal ⊔ prio rec.newMaxSignal

variable {sup : UInt32 → WithBot ℤ} {o : Option Scheduler} {l l' : SchedLink}

lemma LinkOk.work (hok : LinkOk sup o l)
    (hf : ∀ x, prio x.raceMaxSignal ≤ prio (f x).raceMaxSignal ∧ (Reportable x → Reportable (f x)))
    (hl : l.work f = some l') : LinkOk sup o l' := by
  cases l with
  | down | registered | welcomed r => simp [Link.work] at hl
  | running x =>
    cases hl
    obtain ⟨rec, ho, hx, hsup⟩ := hok
    obtain ⟨hle, hrep⟩ := hf x
    exact ⟨rec, ho, hrep hx, hsup.trans (sup_le_sup_right hle _)⟩
  | asking x a =>
    cases hl
    obtain ⟨rec, ho, hx, ha, hsup⟩ := hok
    obtain ⟨hle, hrep⟩ := hf x
    exact ⟨rec, ho, hrep hx, ha.trans hle, hsup.trans (sup_le_sup_right hle _)⟩
  | answered x r =>
    cases hl
    obtain ⟨rec, ho, hx, hsup⟩ := hok
    obtain ⟨hle, hrep⟩ := hf x
    exact ⟨rec, ho, hrep hx, hsup.trans (sup_le_sup_right (sup_le_sup_right hle _) _)⟩

lemma LinkOk.map (hok : LinkOk sup o l) (f : Scheduler → Scheduler)
    {d : UInt32 → WithBot ℤ} (hf : ∀ rec, prio (f rec).newMaxSignal = prio rec.newMaxSignal ⊔ d) :
    LinkOk (sup ⊔ d) (o.map f) l := by
  have hgr : ∀ (y : UInt32 → WithBot ℤ) (rec : Scheduler), sup ≤ y ⊔ prio rec.newMaxSignal →
      sup ⊔ d ≤ y ⊔ prio (f rec).newMaxSignal := fun y rec h => by
    rw [hf, ← sup_assoc]
    exact sup_le_sup_right h d
  cases l with
  | down => trivial
  | registered =>
    obtain ⟨rec, rfl⟩ := hok
    exact ⟨f rec, rfl⟩
  | welcomed r =>
    obtain ⟨rec, rfl, hr⟩ := hok
    exact ⟨f rec, rfl, hr⟩
  | running x | answered x r =>
    obtain ⟨rec, rfl, hx, hsup⟩ := hok
    exact ⟨f rec, rfl, hx, hgr _ rec hsup⟩
  | asking x a =>
    obtain ⟨rec, rfl, hx, ha, hsup⟩ := hok
    exact ⟨f rec, rfl, hx, ha, hgr _ rec hsup⟩

lemma LinkOk.map_same (hok : LinkOk sup o l) (f : Scheduler → Scheduler)
    (hf : ∀ rec, (f rec).newMaxSignal = rec.newMaxSignal) : LinkOk sup (o.map f) l := by
  have := hok.map f (d := ⊥) fun rec => by rw [hf, sup_bot_eq]
  rwa [sup_bot_eq] at this

/-! ### The invariant -/

structure Inv (s : State) : Prop where
  unwritten : s.mgr.raceMaxSignal = ∅
  links : ∀ n, LinkOk (prio s.mgr.maxRaceSignal) (s.mgr.schedulers n) (s.scheds n)

lemma inv_init : Inv Cluster.init := ⟨rfl, fun _ => trivial⟩

lemma Inv.setSched (hi : Inv s) (hl : LinkOk (prio s.mgr.maxRaceSignal) (s.mgr.schedulers n) l) :
    Inv (s.setSched n l) := by
  refine ⟨hi.unwritten, ?_⟩
  exact (forall_update_iff _ fun k l =>
    LinkOk (prio s.mgr.maxRaceSignal) (s.mgr.schedulers k) l).2 ⟨hl, fun k _ => hi.links k⟩

lemma Inv.queueLikely (hi : Inv s) (seen : Name → Manager) :
    Inv { s with mgr := SyzManager.queueLikely s.mgr n, schedSeen := seen } := by
  refine ⟨hi.unwritten, fun k => ?_⟩
  by_cases hk : k = n
  · subst hk
    simp only [SyzManager.queueLikely, update_self]
    exact (hi.links k).map_same _ fun _ => rfl
  · simpa only [SyzManager.queueLikely, update_of_ne hk] using hi.links k

lemma inv_schedPoll {mgr : Manager} {x : SchedulerProc} {a : SchedulerPollArgs}
    {r : SchedulerPollRes} (hi : Inv s) (hl : s.scheds n = .asking x a)
    (h : schedulerPoll s.mgr n a = some (mgr, r)) (owed due reported : Name → List MempairHash) :
    Inv { s.setSched n (.answered x r) with
      mgr := mgr
      schedSeen := update s.schedSeen n mgr
      owed := owed
      due := due
      reported := reported } := by
  obtain ⟨f, infos, new, hf, -, rfl, rfl⟩ := schedulerPoll_eq h
  have hn := hi.links n
  rw [hl, hf] at hn
  obtain ⟨rec, hrec, hx, ha, hsup⟩ := hn
  obtain rfl := Option.some.inj hrec
  refine ⟨hi.unwritten, fun k => ?_⟩
  by_cases hk : k = n
  · subst hk
    simp only [State.setSched, update_self]
    refine ⟨_, rfl, hx, ?_⟩
    -- what the poll adds to the manager's signal is the scheduler's own
    have hdf := (prio_diff_le s.mgr.maxRaceSignal a.maxSignal).trans ha
    rw [prio_merge, prio_empty, sup_bot_eq]
    exact sup_le hsup (hdf.trans le_sup_left)
  · simp only [State.setSched, update_of_ne hk, others, if_neg hk, prio_merge]
    exact (hi.links k).map _ fun rec => prio_merge _ _

lemma linkOk_init (hrec : s.mgr.schedulers n = some rec)
    (hsup : prio s.mgr.maxRaceSignal ≤ joinInputs r.raceInputs ⊔ prio rec.newMaxSignal) :
    LinkOk (prio s.mgr.maxRaceSignal) (s.mgr.schedulers n) (.running (schedulerInit r)) := by
  refine ⟨rec, hrec, ?_, ?_⟩
  · obtain ⟨c, m, h⟩ := schedulerInit_eq r
    rw [h]
    exact bot_le
  · rw [schedulerInit_max]
    exact hsup.trans (sup_le_sup_right le_sup_left _)

/-! ### Replies -/

/-- What the manager still holds for scheduler `n`. -/
def pendingOf (m : Manager) (n : Name) : UInt32 → WithBot ℤ :=
  match m.schedulers n with
  | some rec => prio rec.newMaxSignal
  | none => ⊥

lemma pendingOf_some (h : m.schedulers n = some rec) : pendingOf m n = prio rec.newMaxSignal := by
  rw [pendingOf, h]

/-- The scheduler that has just applied a reply has, with what is held for it, all the race
signal the manager has. -/
def Dominates (s : State) (e : Ev) : Prop :=
  ∀ t, step s e = some t →
    match e with
    | .schedInit n | .schedFinishPoll n =>
      ∀ x, t.scheds n = .running x →
        prio t.mgr.maxRaceSignal ≤ prio x.raceMaxSignal ⊔ pendingOf t.mgr n
    | _ => True

/-- When a scheduler starts, the race inputs of its connect reply have, with what is held for
it, all the race signal the manager has. -/
def CorpusCovers (s : State) : Ev → Prop
  | .schedInit n => ∀ r, s.scheds n = .welcomed r →
      prio s.mgr.maxRaceSignal ≤ joinInputs r.raceInputs ⊔ pendingOf s.mgr n
  | _ => True

lemma LinkOk.finishPoll {x : SchedulerProc} {r : SchedulerPollRes}
    (h : LinkOk sup o (.answered x r)) : LinkOk sup o (.running (x.finishPoll r)) := by
  obtain ⟨rec, ho, hx, hsup⟩ := h
  have hmax := finishPoll_max x r
  have hle : prio x.raceMaxSignal ⊔ prio r.maxSignal ≤ prio (x.finishPoll r).raceMaxSignal := by
    rw [hmax]
    exact le_sup_left
  refine ⟨rec, ho, ?_, hsup.trans (sup_le_sup_right hle _)⟩
  unfold Reportable
  obtain ⟨c, m, heq⟩ := x.finishPoll_eq r
  have hnew : (x.finishPoll r).newSignal = x.newSignal := by rw [heq]
  rw [hnew]
  exact (hx.trans le_sup_left).trans hle

lemma inv_schedStep (hi : Inv s) (hcov : CorpusCovers s e) (h : SchedStep s e t) :
    Inv t := by
  cases h with
  | register n kept =>
    refine ⟨hi.unwritten, fun k => ?_⟩
    by_cases hk : k = n
    · subst hk
      simp only [State.setSched, schedulerRegister, update_self]
      exact ⟨_, rfl⟩
    · simpa only [State.setSched, schedulerRegister, minimizeRaceCorpus,
        update_of_ne hk] using hi.links k
  | reply n hl =>
    have hn := hi.links n
    rw [hl] at hn
    obtain ⟨rec, hrec⟩ := hn
    have hrep := hi.setSched (n := n) (l := .welcomed (schedulerConnectReply s.mgr))
      ⟨rec, hrec, by rw [schedulerConnectReply, hi.unwritten, prio_empty]⟩
    exact hrep.queueLikely _
  | init n r hl =>
    have hn := hi.links n
    rw [hl] at hn
    obtain ⟨rec, hrec, -⟩ := hn
    have hsup := hcov r hl
    rw [pendingOf_some hrec] at hsup
    exact hi.setSched (linkOk_init hrec hsup)
  | initPoll n x hl =>
    have hn := hi.links n
    rw [hl] at hn
    obtain ⟨rec, hrec, hx, hsup⟩ := hn
    exact hi.setSched ⟨rec, hrec, bot_le, hx, hsup⟩
  | poll n x a mgr r hl hp => exact inv_schedPoll hi hl hp _ _ _
  | finishPoll n x r hl =>
    have hn := hi.links n
    rw [hl] at hn
    exact hi.setSched hn.finishPoll
  | work e n f l hf hl => exact hi.setSched ((hi.links n).work (schedWorkOf_max hf) hl)

lemma LinkOk.others {recs : Name → Option Scheduler} {k : Name} (hok : LinkOk sup (recs k) l)
    (f : Scheduler → Scheduler) (hf : ∀ rec, (f rec).newMaxSignal = rec.newMaxSignal) :
    LinkOk sup (SyzManager.others n f recs k) l := by
  unfold SyzManager.others
  split
  · exact hok
  · exact hok.map_same f hf

lemma inv_managerStep (hi : Inv s) (h : ManagerStep s e t) : Inv t := by
  cases h with
  | updateSuppPairs drops dels adds new hm =>
    exact ⟨hi.unwritten, fun k => (hi.links k).map_same _ fun _ => rfl⟩
  | newRaceInput n sig rinp corpus signal rinputs hm =>
    exact ⟨hi.unwritten, fun k => (hi.links k).others _ fun _ => rfl⟩
  | newLikelyRaceInput n rinp coin l mgr hl hm =>
    have hset := hi.setSched ((hi.links n).work (by exact fun _ => ⟨le_rfl, id⟩) hl)
    rcases newLikelyRaceInput_eq hm with ⟨-, rfl⟩ | ⟨-, rfl⟩
    · exact hset
    · exact ⟨hset.unwritten, fun k => (hset.links k).others _ fun _ => rfl⟩
  | _ => exact ⟨hi.unwritten, hi.links⟩

lemma inv_step (s : State) (e : Ev) (t : State) (hi : Inv s) (hcov : CorpusCovers s e)
    (h : step s e = some t) : Inv t := by
  rcases step_cases h with h | h | h
  · cases h <;> exact ⟨hi.unwritten, hi.links⟩
  · exact inv_schedStep hi hcov h
  · exact inv_managerStep hi h

lemma dominates_schedInit (hi : Inv s) :
    Dominates s (.schedInit n) ↔ CorpusCovers s (.schedInit n) := by
  have hn := hi.links n
  have hmax : ∀ r, s.scheds n = .welcomed r →
      prio (schedulerInit r).raceMaxSignal = joinInputs r.raceInputs := fun r hl => by
    rw [hl] at hn
    obtain ⟨rec, -, hr⟩ := hn
    rw [schedulerInit_max, hr, sup_bot_eq]
  simp only [Dominates, CorpusCovers, step_schedInit]
  constructor
  · intro h r hl
    rw [← hmax r hl]
    exact h _ ⟨r, hl, rfl⟩ _ (update_self ..)
  · rintro h t ⟨r, hl, rfl⟩ x hx
    cases hx.symm.trans (update_self ..)
    rw [hmax r hl]
    exact h r hl

lemma dominates_schedFinishPoll (hi : Inv s) : Dominates s (.schedFinishPoll n) := by
  intro t ht x hx
  have hn := (inv_step s (.schedFinishPoll n) t hi trivial ht).links n
  rw [hx] at hn
  obtain ⟨rec, hrec, -, hsup⟩ := hn
  rwa [pendingOf_some hrec]

lemma dominates_iff (e : Ev) (hi : Inv s) : Dominates s e ↔ CorpusCovers s e := by
  cases e with
  | schedInit n => exact dominates_schedInit hi
  | schedFinishPoll n => exact iff_of_true (dominates_schedFinishPoll hi) trivial
  | _ => simp [Dominates, CorpusCovers]

/-- **When schedulers know the manager's race signal.** In a run from the empty system, every
scheduler that has just applied a reply has all the race signal of the manager but what is
held for it, if and only if whenever a scheduler starts, the race inputs it was sent have all
that signal. -/
theorem signal_dominates_iff (es : List Ev) :
    Meets step Dominates Cluster.init es ↔ Meets step CorpusCovers Cluster.init es :=
  meets_iff_of_inv (I := Inv) (fun _ e hi => dominates_iff e hi) inv_step inv_init es

def lateScheduler : List Ev :=
  [.schedRegister 0 [], .schedReply 0, .schedInit 0, .schedSignal 0 [5] 1, .schedInitPoll 0,
    .schedPoll 0, .schedFinishPoll 0, .schedRegister 1 [], .schedReply 1]

def signalOf (e : UInt32) : SchedLink → Option (WithBot ℤ)
  | .running x => some (prio x.raceMaxSignal e)
  | _ => none

lemma lateScheduler_state :
    (run step Cluster.init (lateScheduler ++ [.schedInit 1])).map (fun t =>
      (prio t.mgr.maxRaceSignal 5, signalOf 5 (t.scheds 1), pendingOf t.mgr 1 5)) =
    some (1, some ⊥, ⊥) := by
  decide +kernel

/-- The scheduler that connects late knows nothing of the signal reported before. -/
theorem late_scheduler_below :
    ¬ Meets step Dominates Cluster.init (lateScheduler ++ [.schedInit 1]) := by
  obtain ⟨t, ht, hvw⟩ := Option.map_eq_some_iff.1 lateScheduler_state
  obtain ⟨m, hm, hst⟩ := run_snoc ht
  rw [meets_snoc hm]
  rintro ⟨-, hdom⟩
  simp only [Prod.mk.injEq] at hvw
  obtain ⟨hmax, hsig, hpn⟩ := hvw
  unfold signalOf at hsig
  split at hsig
  case h_2 => cases hsig
  case h_1 x hl =>
    have hle := hdom t hst x hl 5
    rw [hmax, Pi.sup_apply, hpn, Option.some.inj hsig, sup_bot_eq] at hle
    exact absurd hle (by decide)

end Razzer.SignalSync
