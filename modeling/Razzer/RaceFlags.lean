import Razzer.RaceWork

/-!
The flags of race candidates from the databases.

A candidate from a database is minimised already, and the flags that a scheduler gives it when it
connects say so. The reply to a poll can have such candidates as well, and there all candidates get
the same flags, which say that they are not. The flags go with the candidate to triage, and decide
there.
-/

namespace Razzer.RaceWork

open Feedback SyzManager ManagerDB RaceQueue Runs List

variable {c : Config} {deserializes : String → Bool}

/-- A candidate from a database has the flags of a program that is minimised. -/
def Flagged (fromDB : Bool) (flags : ProgTypes) : Prop := fromDB = true → flags = progMinimized

structure Sched.Flagged (x : Sched) : Prop where
  candidate : ∀ i ∈ x.candidate, RaceWork.Flagged i.fromDB i.flags
  triage : ∀ i ∈ x.triage, RaceWork.Flagged i.fromDB i.flags
  executing : ∀ i ∈ x.executing, RaceWork.Flagged i.fromDB i.flags
  triaging : ∀ i ∈ x.triaging, RaceWork.Flagged i.fromDB i.flags

/-- All schedulers treat candidates from databases alike. -/
def SameFlags (s : State) : Prop := ∀ n x, proc (s.scheds n) = some x → x.Flagged

def Reminimises (s : State) : Ev → Prop
  | .triaged n i seen => ∃ x item, proc (s.scheds n) = some x ∧ x.triaging[i]? = some item ∧
      item.fromDB = true ∧ triageInput item seen = some true
  | _ => False

/-- No candidate from a database is minimised by the step, and after it all of them have the same
flags. -/
def Treats (c : Config) (deserializes : String → Bool) (s : State) (e : Ev) : Prop :=
  ¬ Reminimises s e ∧ ∀ t, step c deserializes s e = some t → SameFlags t

/-- A scheduler takes a candidate from a database out of the reply to a poll. -/
def HandedByPoll (deserializes : String → Bool) (s : State) : Ev → Prop
  | .finishPoll n => ∃ x r, s.scheds n = .answered x r ∧
      (r.raceProgs.all fun y => deserializes y.prog) = true ∧ ∃ y ∈ r.raceProgs, y.fromDB = true
  | _ => False

variable {item : WorkTriage} {seen : Seen} {b : Bool} {n : Name} {r : PollRes} {x' : Sched}
  {y : RaceProgCand} {q' : Queue} {o : Option Sched}

lemma triageInput_eq (h : triageInput item seen = some b) :
    b = decide (item.flags &&& progMinimized = 0) := by
  unfold triageInput at h
  simp only at h
  split at h
  · cases h
  · obtain ⟨-, -, rfl⟩ := Option.map_eq_some_iff.1 h
    rfl

variable {s : State} {e : Ev} {f : Sched → Sched} {x : Sched} {q : Queue}

lemma Sched.Flagged.not_reminimises (h : SameFlags s) (e : Ev) : ¬ Reminimises s e := by
  cases e with
  | triaged n i seen =>
    rintro ⟨x, item, hx, hi, hdb, hmin⟩
    have hfl := (h n x hx).triaging item (mem_of_getElem? hi) hdb
    have hb := triageInput_eq hmin
    rw [hfl] at hb
    exact absurd hb (by decide)
  | _ => exact id

/-! The threads of a scheduler keep the flags. -/

lemma flagged_triageFor {item : WorkCandidate} (h : Flagged item.fromDB item.flags)
    (news : List (ℕ × Signal)) :
    ∀ i ∈ triageFor item news, Flagged i.fromDB i.flags := by
  intro i hi
  obtain ⟨x, -, rfl⟩ := mem_map.1 hi
  exact h

lemma Sched.Flagged.workOf (hf : workOf e = some (n, f)) (h : x.Flagged) : (f x).Flagged := by
  cases e with
  | dequeue k =>
    cases hf
    unfold dequeue
    split
    case h_1 item hls =>
      have him := h.triage item (mem_of_getLast? hls)
      exact ⟨h.candidate, fun i hi => h.triage i (mem_of_mem_dropLast hi), h.executing,
        forall_mem_cons.2 ⟨him, h.triaging⟩⟩
    case h_2 =>
      split
      case h_1 item hls =>
        have him := h.candidate item (mem_of_getLast? hls)
        exact ⟨fun i hi => h.candidate i (mem_of_mem_dropLast hi), h.triage,
          forall_mem_cons.2 ⟨him, h.executing⟩, h.triaging⟩
      case h_2 => exact h
  | executed k i news =>
    cases hf
    unfold executed
    split
    case h_1 => exact h
    case h_2 item him =>
      have hnew := flagged_triageFor (h.executing item (mem_of_getElem? him)) news
      exact ⟨h.candidate, forall_mem_append.2 ⟨h.triage, hnew⟩,
        fun i hi => h.executing i (mem_of_mem_eraseIdx hi), h.triaging⟩
  | executedOther k p raceInfo news =>
    cases hf
    have hnew : ∀ i ∈ triageFor ⟨p, raceInfo, progNormal, false⟩ news,
        RaceWork.Flagged i.fromDB i.flags := flagged_triageFor (fun hfl => by cases hfl) news
    exact ⟨h.candidate, forall_mem_append.2 ⟨h.triage, hnew⟩, h.executing, h.triaging⟩
  | triaged k i seen =>
    cases hf
    exact ⟨h.candidate, h.triage, h.executing, fun i hi => h.triaging i (mem_of_mem_eraseIdx hi)⟩
  | _ => cases hf

/-! The two ways into the work queue. -/

lemma foldl_pushToWorkQueue (x : Sched) (raceProgs : List RaceProgCand) :
    raceProgs.foldl pushToWorkQueue x =
      { x with candidate := x.candidate ++ raceProgs.flatMap (workFor progNormal) } := by
  induction raceProgs generalizing x with
  | nil => simp
  | cons y raceProgs ih =>
    rw [foldl_cons, ih]
    simp only [pushToWorkQueue, flatMap_cons, append_assoc]

lemma flagged_schedulerInit {cands : List RaceProgCand}
    (h : schedulerInit deserializes cands = some x) : x.Flagged := by
  unfold schedulerInit at h
  split at h <;> cases h
  refine ⟨fun i hi hdb => ?_, by simp, by simp, by simp⟩
  obtain ⟨y, -, hi⟩ := mem_flatMap.1 hi
  obtain ⟨ri, -, rfl⟩ := mem_map.1 hi
  exact if_pos hdb

lemma flagged_finishPoll (hx : x.Flagged) (h : finishPoll deserializes x r = some x')
    (hr : ∀ y ∈ r.raceProgs, y.fromDB = false) : x'.Flagged := by
  unfold finishPoll at h
  split at h
  case isFalse => cases h
  case isTrue =>
  simp only [foldl_pushToWorkQueue] at h
  split at h <;> cases h
  refine ⟨forall_mem_append.2 ⟨hx.candidate, fun i hi hdb => ?_⟩, hx.triage, hx.executing,
    hx.triaging⟩
  obtain ⟨y, hy, hi⟩ := mem_flatMap.1 hi
  obtain ⟨ri, -, rfl⟩ := mem_map.1 hi
  rw [hr y hy] at hdb
  cases hdb

lemma not_flagged_finishPoll (hfa : ¬ AssertFails x r)
    (hdes : (r.raceProgs.all fun y => deserializes y.prog) = true) (hy : y ∈ r.raceProgs)
    (hdb : y.fromDB) (his : y.raceInfos ≠ []) :
    ∃ x', finishPoll deserializes x r = some x' ∧ ¬ x'.Flagged := by
  obtain ⟨ri, hri⟩ := exists_mem_of_ne_nil _ his
  refine ⟨{ x with
    candidate := x.candidate ++ r.raceProgs.flatMap (workFor progNormal)
    raceCorpusDBDone := r.raceCorpusDBDone }, ?_, fun h => ?_⟩
  · simp only [finishPoll, hdes, if_true, foldl_pushToWorkQueue]
    exact if_neg hfa
  · have hmem : (⟨y.prog, ri, progNormal, y.fromDB⟩ : WorkCandidate) ∈
        r.raceProgs.flatMap (workFor progNormal) :=
      mem_flatMap.2 ⟨y, hy, mem_map.2 ⟨ri, hri, rfl⟩⟩
    have hfl : progNormal = progMinimized :=
      h.candidate _ (mem_append_right _ hmem) hdb
    exact absurd hfl (by decide)

/-! ### Candidates from databases have a race info -/

def HasInfo (x : RaceProgCand) : Prop := x.fromDB = true → x.raceInfos ≠ []

def sent : SchedLink → List RaceProgCand
  | .welcomed cands => cands
  | .answered _ r => r.raceProgs
  | _ => []

def SentInfo (l : SchedLink) : Prop := ∀ x ∈ sent l, HasInfo x

structure InfoInv (s : State) : Prop where
  queue : ∀ x ∈ s.queue.raceQueue, HasInfo x
  sent : ∀ n, SentInfo (s.scheds n)

lemma mem_pop {numToPop rnd : ℕ} {x : RaceProgCand}
    (h : x ∈ (popFromRaceQueue c q numToPop rnd).1.raceQueue) : x ∈ q.raceQueue := by
  unfold popFromRaceQueue at h
  simp only at h
  split at h
  · exact h
  · exact (block_sublist ..).subset h

lemma mem_schedulerPoll {a rnd : ℕ} {x : RaceProgCand}
    (h : x ∈ (schedulerPoll c q a rnd).1.raceQueue ∨ x ∈ (schedulerPoll c q a rnd).2.raceProgs) :
    x ∈ q.raceQueue := by
  unfold schedulerPoll at h
  by_cases ha : a < 1000
  · rw [if_pos ha] at h
    exact h.elim mem_pop mem_popped
  · rw [if_neg ha] at h
    exact h.elim id fun hnil => by cases hnil

lemma hasInfo_stepQueue (h : ∀ x ∈ q.raceQueue, HasInfo x) (hq : stepQueue c q e = some q') :
    ∀ x ∈ q'.raceQueue, HasInfo x := by
  cases e with
  | addRaceProgCand prog raceInfos =>
    cases hq
    unfold addRaceProgCand
    simp only
    split
    · exact h
    · exact forall_mem_append.2
        ⟨h, forall_mem_singleton.2 fun hfl => by cases hfl⟩
  | updateSuppPairs supp => cases hq; exact h
  | softCleanup => cases hq; exact fun x hx => h x (mem_of_mem_filter hx)
  | hardCleanup => cases hq; exact fun x hx => h x (mem_of_mem_drop hx)
  | _ => cases hq

lemma sentInfo_upOrDown (o : Option Sched) : SentInfo (upOrDown o) := by
  intro x hx
  cases o <;> cases hx

lemma SentInfo.work {l l' : SchedLink} (h : SentInfo l) (hl : l.work f = some l') :
    SentInfo l' := by
  cases l with
  | running x | asking x a | answered x r => cases hl; exact h
  | _ => cases hl

lemma InfoInv.step {t : State} (h : InfoInv s) (hst : Steps c deserializes s e t) : InfoInv t := by
  have hln : ∀ n l, SentInfo l → ∀ k, SentInfo ((s.setSched n l).scheds k) :=
    fun n l hl => forall_setSched h.sent hl
  have hnn : ∀ x ∈ ([] : List RaceProgCand), HasInfo x := fun x hx => by cases hx
  cases hst with
  | queue e q hq => exact ⟨hasInfo_stepQueue h.queue hq, h.sent⟩
  | connect n rnd =>
    exact ⟨fun x hx => h.queue x (mem_pop hx),
      hln n (.welcomed _) fun x hx => h.queue x (mem_popped hx)⟩
  | poll n rnd x a hl =>
    exact ⟨fun x hx => h.queue x (mem_schedulerPoll (.inl hx)),
      hln n (.answered x _) fun x hx => h.queue x (mem_schedulerPoll (.inr hx))⟩
  | init n cands hl | finishPoll n x r hl => exact ⟨h.queue, hln n _ (sentInfo_upOrDown _)⟩
  | initPoll n x hl => exact ⟨h.queue, hln n (.asking x _) hnn⟩
  | stop n => exact ⟨h.queue, hln n .down hnn⟩
  | work e n f l hf hl => exact ⟨h.queue, hln n l ((h.sent n).work hl)⟩

/-! ### When candidates are treated alike -/

def LinkFlagged (l : SchedLink) : Prop := ∀ x, proc l = some x → x.Flagged

lemma LinkFlagged.work {l l' : SchedLink} (h : LinkFlagged l)
    (hf : ∀ x : Sched, x.Flagged → (f x).Flagged) (hl : l.work f = some l') : LinkFlagged l' := by
  cases l with
  | running x | asking x a | answered x r =>
    cases hl
    intro y hy
    cases hy
    exact hf x (h x rfl)
  | _ => cases hl

lemma linkFlagged_upOrDown (h : ∀ x, o = some x → x.Flagged) : LinkFlagged (upOrDown o) := by
  intro x hx
  cases o with
  | none => cases hx
  | some y => exact h x hx

/-- **A step keeps the flags**, unless it takes a candidate from a database out of the reply to a
poll. -/
lemma SameFlags.step {t : State} (h : SameFlags s) (hpl : ¬ HandedByPoll deserializes s e)
    (hst : Steps c deserializes s e t) : SameFlags t := by
  have hln : ∀ n l, LinkFlagged l → ∀ k, LinkFlagged ((s.setSched n l).scheds k) :=
    fun n l hl => forall_setSched h hl
  have hnn : ∀ x, (none : Option Sched) = some x → x.Flagged := fun x hx => by cases hx
  cases hst with
  | queue e q hq => exact h
  | connect n rnd => exact hln n (.welcomed _) hnn
  | stop n => exact hln n .down hnn
  | init n cands hl =>
    exact hln n _ (linkFlagged_upOrDown fun x hx => flagged_schedulerInit hx)
  | initPoll n x hl =>
    have hx := h n
    rw [hl] at hx
    exact hln n (.asking x _) hx
  | poll n rnd x a hl =>
    have hx := h n
    rw [hl] at hx
    exact hln n (.answered x _) hx
  | finishPoll n x r hl =>
    have hx := h n
    rw [hl] at hx
    refine hln n _ (linkFlagged_upOrDown fun x' hx' => ?_)
    refine flagged_finishPoll (hx x rfl) hx' fun y hy => ?_
    have hdes : (r.raceProgs.all fun y => deserializes y.prog) = true := by
      by_contra hdes
      rw [finishPoll, if_neg hdes] at hx'
      cases hx'
    by_contra hdb
    exact hpl ⟨x, r, hl, hdes, y, hy, by simpa using hdb⟩
  | work e n f l hf hl =>
    exact hln n l (LinkFlagged.work (h n) (fun x hx => Sched.Flagged.workOf hf hx) hl)

lemma not_sameFlags_of_handed (hi : Inv s) (hif : InfoInv s) (h : HandedByPoll deserializes s e) :
    ∃ t, step c deserializes s e = some t ∧ ¬ SameFlags t := by
  cases e with
  | finishPoll n =>
    obtain ⟨x, r, hl, hdes, y, hy, hdb⟩ := h
    have hag := hi.scheds n
    rw [hl] at hag
    have hfl : ¬ AssertFails x r := fun hf => by
      have htr := hag.1 hf.1
      rw [hf.2] at htr
      cases htr
    have hy' : HasInfo y := hif.sent n y (by rw [hl]; exact hy)
    obtain ⟨x', hx', hnot⟩ := not_flagged_finishPoll hfl hdes hy hdb (hy' hdb)
    refine ⟨s.setSched n (.running x'), ?_, fun hsm => hnot (hsm n x' ?_)⟩
    · simp only [step, stepQueue, stepSched, hl, hx', upOrDown]
    · simp only [State.setSched, Function.update_self, proc]
  | _ => exact absurd h id

/-- **Candidates from databases.** A scheduler gives all of them the flags of a minimised program,
and minimises none of them again, in exactly the runs in which none is handed out in the reply to
a poll. -/
theorem db_candidates_treated_alike {L : Loader} {files : Files} {r : Init}
    (h : initDBs L files = .ok r) (es : List Ev) :
    Meets (step c deserializes) (Treats c deserializes) (start r) es ↔
      Meets (step c deserializes) (fun s e => ¬ HandedByPoll deserializes s e) (start r) es := by
  have hif : InfoInv (start r) :=
    ⟨fun x hx _ => ((queue_of_initDBs h).1 x hx).2, fun n x hx => by cases hx⟩
  refine meets_iff_of_inv (I := fun s => Inv s ∧ InfoInv s ∧ SameFlags s) ?_ ?_
    ⟨inv_start h, hif, fun n x hx => by cases hx⟩ es
  · rintro s e ⟨hi, hif, hsm⟩
    constructor
    · rintro ⟨-, htr⟩ hpl
      obtain ⟨t, ht, hnot⟩ := not_sameFlags_of_handed hi hif hpl
      exact hnot (htr t ht)
    · exact fun hpl => ⟨Sched.Flagged.not_reminimises hsm e, fun t ht => hsm.step hpl (steps_of ht)⟩
  · rintro s e t ⟨hi, hif, hsm⟩ hpl ht
    have hst := steps_of ht
    exact ⟨hi.step hst, hif.step hst, hsm.step hpl hst⟩

def oneElement : Signal := (∅ : Signal).insert 5 1
def allNew : Seen := ⟨∅, ∅, true, fun _ => some oneElement⟩

def secondTriaged : List Ev :=
  connectAndPoll ++ [Ev.dequeue 0, Ev.executed 0 0 [(0, oneElement)], Ev.dequeue 0]

/-- The second one, of the reply to the poll, is minimised again. -/
theorem db_candidate_minimised_again : ∃ r m, initDBs LoadDB.demoLoader twoPrograms = .ok r ∧
    run (step oneProc fun _ => true) (start r) secondTriaged = some m ∧
    Reminimises m (.triaged 0 0 allNew) := by
  have hvw : ((initDBs LoadDB.demoLoader twoPrograms).toOption.map fun r =>
      (run (step oneProc fun _ => true) (start r) secondTriaged).map fun m =>
        (proc (m.scheds 0)).map fun x => x.triaging[0]?.map fun item =>
          (item.fromDB, triageInput item allNew)) =
      some (some (some (some (true, some true)))) := by
    decide +kernel
  obtain ⟨r, hr, hvw⟩ := Option.map_eq_some_iff.1 hvw
  obtain ⟨m, hm, hvw⟩ := Option.map_eq_some_iff.1 hvw
  obtain ⟨x, hx, hvw⟩ := Option.map_eq_some_iff.1 hvw
  obtain ⟨item, him, hvw⟩ := Option.map_eq_some_iff.1 hvw
  obtain ⟨hdb, hmin⟩ := Prod.mk.inj hvw
  exact ⟨r, m, ok_of_toOption hr, hm, x, item, hx, him, hdb, hmin⟩

def oneProgram : Files :=
  ⟨LoadDB.noRecords, LoadDB.oneRecord "a", LoadDB.oneRecord "info", LoadDB.noRecords,
    LoadDB.noRecords⟩

/-- It is never minimised again. -/
theorem db_candidates_treated_alike_one : ∃ r, initDBs LoadDB.demoLoader oneProgram = .ok r ∧
    Meets (step oneProc fun _ => true) (Treats oneProc fun _ => true) (start r)
      [Ev.connect 0 0, Ev.init 0, Ev.dequeue 0, Ev.executed 0 0 [(0, oneElement)], Ev.dequeue 0,
        Ev.triaged 0 0 allNew] := by
  obtain ⟨r, hr⟩ : ∃ r, initDBs LoadDB.demoLoader oneProgram = .ok r := ⟨_, rfl⟩
  refine ⟨r, hr, (db_candidates_treated_alike hr _).2 ?_⟩
  simp [Meets, HandedByPoll]

end Razzer.RaceWork
