import Razzer.LoadDB
import Razzer.RaceSig
import Razzer.Runs

/-!
The likely corpus and its database.

The manager holds the likely inputs in memory, by the hash of their pair, and in a pair of
databases, by their signature. An input that replaces another one removes it from the databases,
and it is fatal if there is no race info to remove. True races and the minimisation drop inputs
from memory only.
-/

namespace Razzer.LikelyDB

open Database SyzManager ManagerDB RaceSig Runs

structure State where
  mgr : Manager
  db : DBTy

def notConnected (n : Name) : Abort := .fatal ("scheduler " ++ toString n ++ " is not connected")

def saveToDB (H : Hash) (D : DBTy) (inp : RPCLikelyRaceInput) : Except Abort DBTy :=
  D.save (sigOf H inp) inp.raceProg.bytes (some (RaceInfo.toBytes inp.raceInfo))

def removeFromDB (H : Hash) (D : DBTy) (inp : RPCLikelyRaceInput) : Except Abort DBTy :=
  D.remove (sigOf H inp)

/-- The input that is replaced is removed first. -/
def replaceInDB (H : Hash) (s : State) (inp : RPCLikelyRaceInput) : Except Abort DBTy := do
  let D ←
    match s.mgr.likelyRaceCorpus.lookup inp.raceInfo.hash with
    | some old => removeFromDB H s.db old
    | none => .ok s.db
  saveToDB H D inp

def newLikelyRaceInput (H : Hash) (s : State) (n : Name) (inp : RPCLikelyRaceInput)
    (coin : Bool) : Except Abort State :=
  match SyzManager.newLikelyRaceInput s.mgr n inp coin with
  | none => .error (notConnected n)
  | some mgr =>
    if StoresLikely s.mgr inp coin then
      (replaceInDB H s inp).map fun db => ⟨mgr, db⟩
    else .ok ⟨mgr, s.db⟩

def halfHour : ℤ := 30 * 60 * 1000000000

section Handlers

variable (H : Hash) (fromBytes : String → Option RaceInfo) (disabledHashes : List String)

/-- The clean-up at the end of `minimizeRaceCorpus`, `elapsed` nanoseconds after the manager
has started. The time until the start is compared, not the time since. -/
def cleanUp (s : State) (raceCorpusDBDone : Bool) (elapsed : ℕ) : Except Abort State :=
  if raceCorpusDBDone = true ∧ -(elapsed : ℤ) > halfHour then
    (clearDB H fromBytes (.byHash s.mgr.likelyRaceCorpus) disabledHashes s.db).map fun db =>
      { s with db := db }
  else .ok s

inductive Ev
  | newLikelyRaceInput (n : Name) (inp : RPCLikelyRaceInput) (coin : Bool)
  | schedulerPoll (n : Name) (a : SchedulerPollArgs)
  | minimizeRaceCorpus (kept : List (Sig × RPCRaceInput)) (done : Bool) (elapsed : ℕ)
  | schedulerConnect (n : Name) (kept : List (Sig × RPCRaceInput)) (done : Bool) (elapsed : ℕ)
  | reorder (corpus : LikelyCorpus)

/-- The handlers. The map of likely inputs may be walked in another order at any time. -/
def handle (s : State) : Ev → Except Abort State
  | .newLikelyRaceInput n inp coin => newLikelyRaceInput H s n inp coin
  | .schedulerPoll n a =>
    match schedulerPoll s.mgr n a with
    | none => .error (notConnected n)
    | some (mgr, _) => .ok { s with mgr := mgr }
  | .minimizeRaceCorpus kept done elapsed =>
    cleanUp H fromBytes disabledHashes { s with mgr := minimizeRaceCorpus s.mgr kept } done elapsed
  | .schedulerConnect n kept done elapsed =>
    cleanUp H fromBytes disabledHashes { s with mgr := schedulerRegister s.mgr n kept } done elapsed
  | .reorder corpus =>
    if corpus.entries.Perm s.mgr.likelyRaceCorpus.entries then
      .ok { s with mgr := { s.mgr with likelyRaceCorpus := corpus } }
    else .ok s

def step (s : State) (e : Ev) : Option State := (handle H fromBytes disabledHashes s e).toOption

end Handlers

def start (mgr : Manager) (programs infos : DB String String) : State :=
  ⟨{ mgr with likelyRaceCorpus := ∅ }, ⟨programs, some infos, .likelycorpus⟩⟩

def InBoth (D : DBTy) (sig : String) : Prop :=
  D.primaryDB.Held sig ∧ ∃ aux, D.auxiliaryDB = some aux ∧ aux.Held sig

/-- No true race has a likely input, and the signature of every likely input is in both
databases. -/
def Consistent (H : Hash) (s : State) : Prop :=
  (∀ h ∈ s.mgr.trueRaceHashes, h ∉ s.mgr.likelyRaceCorpus) ∧
  ∀ h inp, s.mgr.likelyRaceCorpus.lookup h = some inp → InBoth s.db (sigOf H inp)

/-! ### The databases -/

lemma mem_records {db : DB String String} {sig : String} : sig ∈ db.records ↔ db.Held sig :=
  AList.lookup_isSome.symm

lemma remove_inBoth {D : DBTy} {sig : String} (h : InBoth D sig) :
    ∃ D', D.remove sig = .ok D' ∧ D'.name = D.name ∧ D'.auxiliaryDB.isSome ∧
      ∀ k, k ≠ sig → InBoth D k → InBoth D' k := by
  obtain ⟨-, aux, haux, hhl⟩ := h
  have hrm : D.remove sig = .ok { D with
      primaryDB := (D.primaryDB.delete sig).flush
      auxiliaryDB := some (aux.delete sig).flush } := by
    simp only [DBTy.remove, DBTy.removeAuxiliary, DBTy.removePrimary, haux,
      if_pos (mem_records.2 hhl)]
  refine ⟨_, hrm, rfl, rfl, fun k hk hbt => ?_⟩
  obtain ⟨hpr, aux', haux', hif⟩ := hbt
  cases haux.symm.trans haux'
  exact ⟨DB.held_flush.2 (DB.held_delete.2 ⟨hk, hpr⟩), _, rfl,
    DB.held_flush.2 (DB.held_delete.2 ⟨hk, hif⟩)⟩

variable {D : DBTy} {s s' : State} {mgr : Manager} {n : Name} {a : SchedulerPollArgs}
  {r : SchedulerPollRes} {e : Ev}

lemma save_inBoth (haux : D.auxiliaryDB.isSome) (sig prog raceinfo : String) :
    ∃ D', D.save sig prog (some raceinfo) = .ok D' ∧ D'.name = D.name ∧ D'.auxiliaryDB.isSome ∧
      InBoth D' sig ∧ ∀ k, InBoth D k → InBoth D' k := by
  obtain ⟨aux, haux⟩ := Option.isSome_iff_exists.1 haux
  have hsv : D.save sig prog (some raceinfo) = .ok { D with
      primaryDB := (D.primaryDB.save sig prog Seq.zero).flush
      auxiliaryDB := some (aux.save sig raceinfo Seq.zero).flush } := by
    simp only [DBTy.save, DBTy.saveAuxiliary, DBTy.savePrimary, haux]
  refine ⟨_, hsv, rfl, rfl, ⟨DB.held_flush.2 (DB.held_save.2 (.inl rfl)), _, rfl,
    DB.held_flush.2 (DB.held_save.2 (.inl rfl))⟩, fun k hbt => ?_⟩
  obtain ⟨hpr, aux', haux', hif⟩ := hbt
  cases haux.symm.trans haux'
  exact ⟨DB.held_flush.2 (DB.held_save.2 (.inr hpr)), _, rfl,
    DB.held_flush.2 (DB.held_save.2 (.inr hif))⟩

/-! ### The invariant -/

structure Inv (H : Hash) (s : State) : Prop where
  named : s.db.name = .likelycorpus
  paired : s.db.auxiliaryDB.isSome
  fresh : ∀ h inp, s.mgr.likelyRaceCorpus.lookup h = some inp → h ∉ s.mgr.trueRaceHashes
  keyed : ∀ h inp, s.mgr.likelyRaceCorpus.lookup h = some inp → inp.raceInfo.hash = h
  saved : ∀ h inp, s.mgr.likelyRaceCorpus.lookup h = some inp → InBoth s.db (sigOf H inp)

lemma inv_start {H : Hash} (mgr : Manager) (programs is : DB String String) :
    Inv H (start mgr programs is) :=
  ⟨rfl, rfl, fun _ _ h => (by cases h), fun _ _ h => (by cases h), fun _ _ h => (by cases h)⟩

variable {H : Hash}

lemma consistent_of_inv (hi : Inv H s) : Consistent H s := by
  refine ⟨fun h htr hmem => ?_, hi.saved⟩
  obtain ⟨inp, hinp⟩ := Option.isSome_iff_exists.1 (AList.lookup_isSome.2 hmem)
  exact hi.fresh h inp hinp htr

lemma Inv.shrink (hi : Inv H s) (h : ∀ h inp, mgr.likelyRaceCorpus.lookup h = some inp →
      s.mgr.likelyRaceCorpus.lookup h = some inp ∧ h ∉ mgr.trueRaceHashes) :
    Inv H { s with mgr := mgr } :=
  ⟨hi.named, hi.paired, fun a inp hl => (h a inp hl).2,
    fun a inp hl => hi.keyed a inp (h a inp hl).1, fun a inp hl => hi.saved a inp (h a inp hl).1⟩

/-- **An input is replaced without a fatal end.** -/
lemma replaceInDB_ok (hi : Inv H s) (inp : RPCLikelyRaceInput) :
    ∃ D, replaceInDB H s inp = .ok D ∧ D.name = .likelycorpus ∧ D.auxiliaryDB.isSome ∧
      InBoth D (sigOf H inp) ∧ ∀ h old, s.mgr.likelyRaceCorpus.lookup h = some old →
        h ≠ inp.raceInfo.hash → InBoth D (sigOf H old) := by
  unfold replaceInDB
  cases hold : s.mgr.likelyRaceCorpus.lookup inp.raceInfo.hash with
  | none =>
    obtain ⟨D, hD, hnm, haux, hsig, hkp⟩ := save_inBoth hi.paired (sigOf H inp)
      inp.raceProg.bytes (RaceInfo.toBytes inp.raceInfo)
    exact ⟨D, hD, hnm.trans hi.named, haux, hsig, fun h old hl _ => hkp _ (hi.saved h old hl)⟩
  | some old =>
    obtain ⟨D1, hD1, hnm1, haux1, hkp1⟩ := remove_inBoth (hi.saved _ old hold)
    obtain ⟨D, hD, hnm, haux, hsig, hkp⟩ := save_inBoth haux1 (sigOf H inp)
      inp.raceProg.bytes (RaceInfo.toBytes inp.raceInfo)
    refine ⟨D, ?_, hnm.trans (hnm1.trans hi.named), haux, hsig, fun h other hl hne => ?_⟩
    · simp only [removeFromDB, hD1]
      exact hD
    · -- inputs for other pairs have other signatures
      have hsg : sigOf H other ≠ sigOf H old := by
        intro heq
        have hhs := hash_of_sigOf heq
        rw [hi.keyed h other hl, hi.keyed _ old hold] at hhs
        exact hne hhs
      exact hkp _ (hkp1 _ hsg (hi.saved h other hl))

lemma inv_newLikelyRaceInput (hi : Inv H s) (n : Name) (inp : RPCLikelyRaceInput) (coin : Bool) :
    (∃ s', newLikelyRaceInput H s n inp coin = .ok s' ∧ Inv H s') ∨
      newLikelyRaceInput H s n inp coin = .error (notConnected n) := by
  unfold newLikelyRaceInput
  cases hm : SyzManager.newLikelyRaceInput s.mgr n inp coin with
  | none => exact .inr rfl
  | some mgr =>
    have htr : mgr.trueRaceHashes = s.mgr.trueRaceHashes := by
      rcases newLikelyRaceInput_eq hm with ⟨-, rfl⟩ | ⟨-, rfl⟩ <;> rfl
    left
    simp only
    by_cases hst : StoresLikely s.mgr inp coin
    · obtain ⟨D, hD, hnm, haux, hsig, hkp⟩ := replaceInDB_ok hi inp
      refine ⟨⟨mgr, D⟩, by rw [if_pos hst, hD]; rfl, hnm, haux, ?_, ?_, ?_⟩ <;>
        intro h x hl <;>
        rcases lookup_newLikelyRaceInput hm hl with ⟨hl, hne⟩ | ⟨-, rfl, rfl⟩
      · exact htr ▸ hi.fresh h x hl
      · exact htr ▸ hst.1
      · exact hi.keyed h x hl
      · rfl
      · exact hkp h x hl (hne hst)
      · exact hsig
    · refine ⟨⟨mgr, s.db⟩, if_neg hst, hi.shrink fun h x hl => ?_⟩
      rcases lookup_newLikelyRaceInput hm hl with ⟨hl, -⟩ | ⟨hst', -⟩
      · exact ⟨hl, htr ▸ hi.fresh h x hl⟩
      · exact absurd hst' hst

lemma inv_schedulerPoll (hi : Inv H s) (hp : schedulerPoll s.mgr n a = some (mgr, r)) :
    Inv H { s with mgr := mgr } := by
  obtain ⟨rec, infos, new, -, -, rfl, rfl⟩ := schedulerPoll_eq hp
  refine hi.shrink fun h inp hl => ?_
  obtain ⟨hnew, hl⟩ := lookup_eraseAll hl
  refine ⟨hl, fun hmem => ?_⟩
  rcases List.mem_append.1 hmem with hmem | hmem
  · exact hi.fresh h inp hl hmem
  · exact hnew hmem

section Runs

variable (H : Hash) (fromBytes : String → Option RaceInfo) (disabledHashes : List String)

/-- The time until the start of the manager is never positive, so the databases are not cleaned
up. -/
lemma cleanUp_eq (s : State) (done : Bool) (elapsed : ℕ) :
    cleanUp H fromBytes disabledHashes s done elapsed = .ok s := by
  have hneg : ¬ -(elapsed : ℤ) > halfHour := by
    unfold halfHour
    omega
  exact if_neg fun h => hneg h.2

lemma inv_minimize (hi : Inv H s) (kept : List (Sig × RPCRaceInput)) :
    Inv H { s with mgr := minimizeRaceCorpus s.mgr kept } := by
  refine hi.shrink fun h inp hl => ?_
  obtain ⟨hnot, hl⟩ := lookup_dropTrue hl
  exact ⟨hl, hnot⟩

lemma handle_cases (hi : Inv H s) (e : Ev) :
    (∃ s', handle H fromBytes disabledHashes s e = .ok s' ∧ Inv H s') ∨
      ∃ n, handle H fromBytes disabledHashes s e = .error (notConnected n) := by
  cases e with
  | newLikelyRaceInput n inp coin =>
    exact (inv_newLikelyRaceInput hi n inp coin).imp_right fun h => ⟨n, h⟩
  | schedulerPoll n a =>
    simp only [handle]
    cases hp : schedulerPoll s.mgr n a with
    | none => exact .inr ⟨n, rfl⟩
    | some x => exact .inl ⟨_, rfl, inv_schedulerPoll hi hp⟩
  | minimizeRaceCorpus kept done elapsed =>
    exact .inl ⟨_, cleanUp_eq .., inv_minimize H hi kept⟩
  | schedulerConnect n kept done elapsed =>
    exact .inl ⟨_, cleanUp_eq .., (inv_minimize H hi kept).shrink fun h inp hl =>
      ⟨hl, (inv_minimize H hi kept).fresh h inp hl⟩⟩
  | reorder corpus =>
    simp only [handle]
    split
    case isTrue hpr =>
      refine .inl ⟨_, rfl, hi.shrink fun h inp hl => ?_⟩
      have hl := (AList.perm_lookup hpr).symm.trans hl
      exact ⟨hl, hi.fresh h inp hl⟩
    case isFalse => exact .inl ⟨s, rfl, hi⟩

lemma notConnected_ne (n : Name) (name : DBName) : notConnected n ≠ DBTy.wrongRaceinfo name := by
  intro h
  have htx := congrArg String.toList (Abort.fatal.inj h)
  simp [String.toList_append] at htx

lemma inv_step (hi : Inv H s) (h : step H fromBytes disabledHashes s e = some s') : Inv H s' := by
  unfold step at h
  rcases handle_cases H fromBytes disabledHashes hi e with ⟨t, ht, hit⟩ | ⟨n, herr⟩
  · rw [ht] at h
    cases h
    exact hit
  · rw [herr] at h
    cases h

/-- **The likely corpus and its databases.** In every run from a manager without likely inputs
and from any databases: no true race has a likely input, the signature of every likely input is
in both databases, and no handler ends fatally because there is no race info to remove. -/
theorem likely_corpus_in_db (mgr : Manager) (programs infos : DB String String) (es : List Ev)
    {s : State}
    (hrun : run (step H fromBytes disabledHashes) (start mgr programs infos) es = some s) :
    Consistent H s ∧ ∀ e, handle H fromBytes disabledHashes s e ≠
      .error (DBTy.wrongRaceinfo .likelycorpus) := by
  have hi : Inv H s := run_inv_hist (I := fun _ s => Inv H s) (inv_start mgr programs infos)
    (fun _ _ _ _ _ hi h => inv_step H fromBytes disabledHashes hi h) hrun
  refine ⟨consistent_of_inv hi, fun e herr => ?_⟩
  rcases handle_cases H fromBytes disabledHashes hi e with ⟨t, ht, -⟩ | ⟨n, hn⟩
  · cases ht.symm.trans herr
  · exact notConnected_ne n .likelycorpus (Except.error.inj (hn.symm.trans herr))

end Runs

/-! ### An input that is replaced -/

def likely (text : String) : RPCLikelyRaceInput :=
  ⟨⟨text, true⟩, ⟨(1, 2), (3, 4), (0, 1), 0, 7, ("x", "y")⟩⟩

def replaced : List Ev :=
  [.schedulerConnect 0 [] false 0, .newLikelyRaceInput 0 (likely "a") true,
    .newLikelyRaceInput 0 (likely "b") true]

lemma replaced_texts : (run (step plainHash (fun _ => none) [])
    (start SyzManager.init (DB.openFile ⟨0, []⟩) (DB.openFile ⟨0, []⟩)) replaced).map (fun s =>
      ((s.mgr.likelyRaceCorpus.lookup 7).map fun r => r.raceProg.bytes,
        s.db.primaryDB.records.entries.map fun x => x.2.val)) = some (some "b", ["b"]) := by
  decide +kernel

/-- The database has the second input only. -/
theorem likely_corpus_in_db_replaced : ∃ s, run (step plainHash (fun _ => none) [])
    (start SyzManager.init (DB.openFile ⟨0, []⟩) (DB.openFile ⟨0, []⟩)) replaced = some s ∧
    (s.db.primaryDB.records.entries.map fun x => x.2.val) = ["b"] ∧ Consistent plainHash s := by
  obtain ⟨s, hs, hvw⟩ := Option.map_eq_some_iff.1 replaced_texts
  exact ⟨s, hs, (Prod.mk.inj hvw).2,
    (likely_corpus_in_db plainHash (fun _ => none) [] SyzManager.init _ _ replaced hs).1⟩

end Razzer.LikelyDB
