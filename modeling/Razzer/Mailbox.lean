import Razzer.Cluster

/-!
What the manager sends to schedulers piece by piece.

Three kinds of inputs are queued in the record of a scheduler, and a poll takes at most a
hundred of each off the end of its queue and puts them into the reply. The three queues are
one box here, so that there is one statement of what a step of the system does to the box of
a scheduler and to the box that is under way to it.
-/

namespace Razzer.Mailbox

open Feedback SyzManager Cluster Runs Function Option

@[ext]
structure Box where
  race : List RPCRaceInput
  likely : List RPCLikelyRaceInput
  plain : List RPCInput

instance : EmptyCollection Box := ⟨⟨[], [], []⟩⟩

instance : Append Box := ⟨fun a b => ⟨a.race ++ b.race, a.likely ++ b.likely, a.plain ++ b.plain⟩⟩

@[simp] lemma race_append (a b : Box) : (a ++ b).race = a.race ++ b.race := rfl

@[simp] lemma likely_append (a b : Box) : (a ++ b).likely = a.likely ++ b.likely := rfl

@[simp] lemma plain_append (a b : Box) : (a ++ b).plain = a.plain ++ b.plain := rfl

@[simp] lemma race_empty : (∅ : Box).race = [] := rfl

@[simp] lemma likely_empty : (∅ : Box).likely = [] := rfl

@[simp] lemma plain_empty : (∅ : Box).plain = [] := rfl

@[simp] lemma append_empty (a : Box) : a ++ ∅ = a := by
  ext1 <;> simp

def Box.pop (b : Box) : Box × Box :=
  (⟨(popInputs b.race).1, (popInputs b.likely).1, (popInputs b.plain).1⟩,
    ⟨(popInputs b.race).2, (popInputs b.likely).2, (popInputs b.plain).2⟩)

def boxOf (s : Scheduler) : Box := ⟨s.raceInputs, s.likelyRaceInputs, s.inputs⟩

def queued (m : Manager) (k : Name) : Box := ((m.schedulers k).map boxOf).getD ∅

def underWay : SchedLink → Box
  | .answered _ r => ⟨r.newRaceInputs, r.newLikelyRaceInputs, r.newInputs⟩
  | _ => ∅

/-! ### What is sent -/

/-- `NewRaceInput` stores the input: it adds signal and its program and race info are new. -/
def StoresRace (m : Manager) (sig : Sig) (rinp : RPCRaceInput) : Prop :=
  empty (diff m.raceCorpusSignal rinp.signal) = false ∧ ∀ x ∈ m.raceCorpus, x.1 ≠ sig

instance (m : Manager) (sig : Sig) (rinp : RPCRaceInput) : Decidable (StoresRace m sig rinp) :=
  inferInstanceAs (Decidable (_ ∧ _))

def sent (s : State) (k : Name) : Ev → Box
  | .newRaceInput n sig rinp =>
    if StoresRace s.mgr sig rinp ∧ k ≠ n ∧ (s.mgr.schedulers k).isSome then ⟨[rinp], [], []⟩ else ∅
  | .newLikelyRaceInput n rinp coin =>
    if StoresLikely s.mgr rinp coin ∧ k ≠ n ∧ (s.mgr.schedulers k).isSome then ⟨[], [rinp], []⟩
    else ∅
  | .schedReply n =>
    if k = n ∧ (s.mgr.schedulers k).isSome then
      ⟨[], (likelyInputs s.mgr.likelyRaceCorpus).drop 99, []⟩
    else ∅
  | _ => ∅

def Empties (k : Name) : Ev → Prop
  | .schedRegister n _ | .schedPoll n | .schedFinishPoll n => n = k
  | _ => False

inductive Moved (s t : State) (k : Name) : Ev → Prop
  | register (kept : List (Sig × RPCRaceInput)) (hu : underWay (t.scheds k) = ∅)
      (hq : queued t.mgr k = ∅) : Moved s t k (.schedRegister k kept)
  | poll (hu : underWay (s.scheds k) = ∅)
      (hp : (queued s.mgr k).pop = (underWay (t.scheds k), queued t.mgr k)) :
      Moved s t k (.schedPoll k)
  | finishPoll (hu : underWay (t.scheds k) = ∅) (hq : queued t.mgr k = queued s.mgr k) :
      Moved s t k (.schedFinishPoll k)
  | other (e : Ev) (he : ¬ Empties k e) (hu : underWay (t.scheds k) = underWay (s.scheds k))
      (hq : queued t.mgr k = queued s.mgr k ++ sent s k e) : Moved s t k e

/-! ### Steps -/

variable {l l' : SchedLink} {f : Scheduler → Scheduler} {b : Box} {sig : Sig} {rinp : RPCRaceInput}
  {coin : Bool}

lemma underWay_work {f : SchedulerProc → SchedulerProc} (h : l.work f = some l') :
    underWay l' = underWay l := by
  cases l <;> cases h <;> rfl

variable {k n : Name} {s t : State} {m m' : Manager} {e : Ev}

lemma underWay_setSched (h : underWay l = underWay (s.scheds n)) :
    underWay ((s.setSched n l).scheds k) = underWay (s.scheds k) := by
  by_cases hk : k = n
  · simp only [State.setSched, hk, update_self, h]
  · simp only [State.setSched, update_of_ne hk]

lemma queued_congr (h : (m'.schedulers k).map boxOf = (m.schedulers k).map boxOf) :
    queued m' k = queued m k := by
  rw [queued, h, queued]

lemma queued_others (hf : ∀ s, boxOf (f s) = boxOf s ++ b)
    (hm : m'.schedulers = others n f m.schedulers) :
    queued m' k = queued m k ++ if k ≠ n ∧ (m.schedulers k).isSome then b else ∅ := by
  unfold queued
  rw [hm, others]
  by_cases hk : k = n
  · rw [if_pos hk, if_neg fun h => h.1 hk, append_empty]
  · rw [if_neg hk]
    cases hrec : m.schedulers k with
    | none => simp
    | some rec =>
      rw [if_pos ⟨hk, rfl⟩]
      exact hf rec

lemma queued_newRaceInput (h : newRaceInput m n sig rinp = some m') (k : Name) :
    queued m' k = queued m k ++
      if StoresRace m sig rinp ∧ k ≠ n ∧ (m.schedulers k).isSome then ⟨[rinp], [], []⟩ else ∅ := by
  unfold newRaceInput at h
  split at h
  case h_1 => cases h
  case h_2 =>
  split at h
  case isTrue hem =>
    cases h
    rw [if_neg fun hst => by simp [StoresRace, hem] at hst, append_empty]
  case isFalse hem =>
  simp only at h
  split at h
  case h_1 x hx =>
    cases h
    have hsig : x.1 = sig := by simpa using List.find?_some hx
    rw [if_neg fun hst => hst.1.2 x (List.mem_of_find?_eq_some hx) hsig, append_empty]
    rfl
  case h_2 hx =>
    cases h
    have hss : StoresRace m sig rinp :=
      ⟨by simpa using hem, fun x hmem => by simpa using List.find?_eq_none.1 hx x hmem⟩
    simp only [hss, true_and]
    exact queued_others (fun s => by ext1 <;> simp [boxOf]) rfl

lemma queued_newLikelyRaceInput {rinp : RPCLikelyRaceInput}
    (h : newLikelyRaceInput m n rinp coin = some m') (k : Name) :
    queued m' k = queued m k ++
      if StoresLikely m rinp coin ∧ k ≠ n ∧ (m.schedulers k).isSome then ⟨[], [rinp], []⟩
      else ∅ := by
  rcases newLikelyRaceInput_eq h with ⟨hst, rfl⟩ | ⟨hst, rfl⟩
  · rw [if_neg fun h => hst h.1, append_empty]
  · simp only [hst, true_and]
    exact queued_others (fun s => by ext1 <;> simp [boxOf]) rfl

lemma queued_queueLikely (m : Manager) (n k : Name) :
    queued (queueLikely m n) k = queued m k ++
      if k = n ∧ (m.schedulers k).isSome then ⟨[], (likelyInputs m.likelyRaceCorpus).drop 99, []⟩
      else ∅ := by
  by_cases hk : k = n
  · subst hk
    simp only [queued, queueLikely, update_self]
    cases hrec : m.schedulers k with
    | none => simp
    | some rec =>
      ext1 <;> simp [boxOf]
  · rw [if_neg fun h => hk h.1, append_empty]
    exact queued_congr (by simp only [queueLikely, update_of_ne hk])

lemma Moved.still (he : ¬ Empties k e) (hsn : sent s k e = ∅)
    (hu : underWay (t.scheds k) = underWay (s.scheds k)) (hq : queued t.mgr k = queued s.mgr k) :
    Moved s t k e :=
  .other e he hu (by rw [hsn, append_empty, hq])

lemma moved_fuzzerStep (k : Name) (h : FuzzerStep s e t) : Moved s t k e := by
  cases h with
  | work e n f l hf hl =>
    cases e <;> cases hf <;> exact .still id rfl rfl rfl
  | _ => exact .still id rfl rfl rfl

lemma moved_poll {x : SchedulerProc} {a : SchedulerPollArgs} {mgr : Manager} {r : SchedulerPollRes}
    (hl : s.scheds n = .asking x a) (hp : schedulerPoll s.mgr n a = some (mgr, r))
    (hln : t.scheds = update s.scheds n (.answered x r)) (hmgr : t.mgr = mgr) :
    Moved s t k (.schedPoll n) := by
  obtain ⟨rec, infos, new, hrec, -, rfl, rfl⟩ := schedulerPoll_eq hp
  by_cases hk : k = n
  · subst hk
    refine .poll (by rw [hl]; rfl) ?_
    simp only [hln, hmgr, update_self, underWay, queued, hrec, map_some, getD_some, boxOf, Box.pop]
  · refine .still (fun h => hk h.symm) rfl ?_ ?_
    · rw [hln, update_of_ne hk]
    · rw [hmgr]
      refine queued_congr ?_
      simp only [update_of_ne hk]
      exact map_others (by exact fun _ => rfl) n _ k

lemma moved_schedStep (k : Name) (h : SchedStep s e t) : Moved s t k e := by
  cases h with
  | register n kept =>
    by_cases hk : k = n
    · subst hk
      refine .register kept ?_ ?_
      · simp only [State.setSched, update_self, underWay]
      · simp only [queued, schedulerRegister, update_self]
        rfl
    · refine .still (fun h => hk h.symm) rfl ?_ ?_
      · simp only [State.setSched, update_of_ne hk]
      · exact queued_congr (by
          simp only [schedulerRegister, minimizeRaceCorpus, update_of_ne hk])
  | reply n hl =>
    refine .other _ id (underWay_setSched (by rw [hl]; rfl)) ?_
    exact queued_queueLikely s.mgr n k
  | init n r hl | initPoll n x hl => exact .still id rfl (underWay_setSched (by rw [hl]; rfl)) rfl
  | poll n x a mgr r hl hp => exact moved_poll hl hp rfl rfl
  | finishPoll n x r hl =>
    by_cases hk : k = n
    · subst hk
      exact .finishPoll (by simp only [State.setSched, update_self, underWay]) rfl
    · exact .still (fun h => hk h.symm) rfl
        (by simp only [State.setSched, update_of_ne hk]) rfl
  | work e n f l hf hl =>
    have hu := underWay_setSched (k := k) (underWay_work hl)
    cases e <;> cases hf <;> exact .still id rfl hu rfl

lemma moved_managerStep (k : Name) (h : ManagerStep s e t) : Moved s t k e := by
  cases h with
  | updateSuppPairs drops dels adds new hm =>
    exact .still id rfl rfl (queued_congr (by simp only [suppressing, map_map]; rfl))
  | newRaceInput n sig rinp corpus signal rinputs hm =>
    exact .other _ id rfl (queued_newRaceInput hm k)
  | newLikelyRaceInput n rinp coin l mgr hl hm =>
    exact .other _ id (underWay_setSched (underWay_work hl)) (queued_newLikelyRaceInput hm k)
  | _ => exact .still id rfl rfl rfl

/-- **What a step does to a box.** A registration empties it, a poll moves a part of it into the
reply, and every other step adds what it sends. -/
theorem moved_step (h : step s e = some t) (k : Name) : Moved s t k e := by
  rcases step_cases h with h | h | h
  · exact moved_fuzzerStep k h
  · exact moved_schedStep k h
  · exact moved_managerStep k h

end Razzer.Mailbox
