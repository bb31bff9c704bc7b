import Razzer.Mailbox

/-!
The delivery of race inputs.

A race input that one scheduler finds and the manager stores is queued for every other
scheduler that is registered. The ledger beside the system notes, for every scheduler and
since it registered, what was stored by the others and what the scheduler has received in
poll replies. The two differ by what is queued and by the reply that is under way.
-/

namespace Razzer.RaceInputs

open Feedback SyzManager Cluster Mailbox Runs Function List

/-- The inputs stored by other schedulers, and the inputs received in poll replies. -/
structure Ledger where
  sys : State
  stored : Name → List RPCRaceInput
  applied : Name → List RPCRaceInput

namespace Ledger

def storedAfter (L : Ledger) : Ev → Name → List RPCRaceInput
  | .schedRegister n _ => update L.stored n []
  | .newRaceInput n sig rinp => fun k =>
    if StoresRace L.sys.mgr sig rinp ∧ k ≠ n ∧ (L.sys.mgr.schedulers k).isSome then
      L.stored k ++ [rinp]
    else L.stored k
  | _ => L.stored

def appliedAfter (L : Ledger) : Ev → Name → List RPCRaceInput
  | .schedRegister n _ => update L.applied n []
  | .schedFinishPoll n =>
    update L.applied n (L.applied n ++ (underWay (L.sys.scheds n)).race)
  | _ => L.applied

def step (L : Ledger) (e : Ev) : Option Ledger :=
  (Cluster.step L.sys e).map fun sys => ⟨sys, L.storedAfter e, L.appliedAfter e⟩

def init : Ledger := ⟨Cluster.init, fun _ => [], fun _ => []⟩

end Ledger

/-- What was stored for scheduler `k` is what it has got, what is under way and what is
queued, each input once. -/
def Balanced (L : Ledger) (k : Name) : Prop :=
  (L.stored k).Perm
    (L.applied k ++ (underWay (L.sys.scheds k)).race ++ (queued L.sys.mgr k).race)

lemma storedAfter_eq {L : Ledger} {k : Name} {e : Ev} (he : ¬ Empties k e) :
    L.storedAfter e k = L.stored k ++ (sent L.sys k e).race := by
  cases e with
  | schedRegister n kept =>
    have hk : k ≠ n := fun h => he h.symm
    simp [Ledger.storedAfter, sent, update_of_ne hk]
  | newRaceInput n sig rinp | newLikelyRaceInput n rinp coin | schedReply n =>
    simp only [Ledger.storedAfter, sent]
    split <;> simp
  | _ => exact (append_nil _).symm

lemma appliedAfter_eq {L : Ledger} {k : Name} {e : Ev} (he : ¬ Empties k e) :
    L.appliedAfter e k = L.applied k := by
  cases e with
  | schedRegister n kept | schedFinishPoll n => exact update_of_ne (fun h => he h.symm) _ _
  | _ => rfl

lemma balanced_init (k : Name) : Balanced Ledger.init k := .refl _

lemma balanced_step {L L' : Ledger} {e : Ev} {k : Name} (h : Balanced L k)
    (hs : L.step e = some L') : Balanced L' k := by
  obtain ⟨t, ht, rfl⟩ := Option.map_eq_some_iff.1 hs
  unfold Balanced at h ⊢
  cases moved_step ht k with
  | register kept hu hq =>
    simp [Ledger.storedAfter, Ledger.appliedAfter, hu, hq]
  | poll hu hp =>
    simp only [Box.pop, Prod.mk.injEq] at hp
    obtain ⟨hu', hq'⟩ := hp
    rw [hu, race_empty, append_nil] at h
    simp only [Ledger.storedAfter, Ledger.appliedAfter, ← hu', ← hq', append_assoc]
    exact h.trans ((popInputs_perm _).symm.append_left _)
  | finishPoll hu hq =>
    simpa only [Ledger.storedAfter, Ledger.appliedAfter, hu, hq, update_self,
      race_empty, append_nil] using h
  | other _ he hu hq =>
    simp only [storedAfter_eq he, appliedAfter_eq he, hu, hq, race_append]
    rw [← append_assoc]
    exact h.append_right _

/-- **No race input is lost or sent twice.** In every run from the empty system, the race inputs
the manager has stored from others since a scheduler registered are the ones the scheduler has
got in its polls, the ones under way to it and the ones queued for it, each as often as it was
stored. -/
theorem race_inputs_balanced (es : List Ev) {L : Ledger}
    (hrun : run Ledger.step Ledger.init es = some L) (k : Name) :
    (L.stored k).Perm
      (L.applied k ++ (underWay (L.sys.scheds k)).race ++ (queued L.sys.mgr k).race) :=
  run_inv_hist (I := fun _ L => Balanced L k) (balanced_init k)
    (fun _ _ _ _ _ h hs => balanced_step h hs) hrun

def foundByOther : List Ev :=
  [.schedRegister 0 [], .schedReply 0, .schedInit 0, .schedRegister 1 [],
    .newRaceInput 0 3 ⟨"p", "r", (∅ : Signal).insert 5 1⟩, .schedReply 1, .schedInit 1,
    .schedInitPoll 1, .schedPoll 1]

lemma foundByOther_state : (run Ledger.step Ledger.init foundByOther).map (fun L =>
    ((L.stored 1).length, (underWay (L.sys.scheds 1)).race.length)) = some (1, 1) := by
  decide +kernel

/-- The input is in the reply to the first poll of scheduler 1. -/
theorem race_inputs_balanced_found : ∃ L, run Ledger.step Ledger.init foundByOther = some L ∧
    (L.stored 1).length = 1 ∧
    (L.stored 1).Perm
      (L.applied 1 ++ (underWay (L.sys.scheds 1)).race ++ (queued L.sys.mgr 1).race) := by
  obtain ⟨L, hL, hvw⟩ := Option.map_eq_some_iff.1 foundByOther_state
  exact ⟨L, hL, (Prod.mk.inj hvw).1, race_inputs_balanced foundByOther hL 1⟩

end Razzer.RaceInputs
