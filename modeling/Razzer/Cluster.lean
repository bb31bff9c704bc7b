import Razzer.Runs
import Razzer.SyzManager

/-!
The manager with any number of fuzzers and schedulers.

A client is registered, gets its connect reply, builds its state from it and then polls: it
collects the arguments, the manager handles them and the client applies the reply. All
other steps may come between any two of these, and a client may start over at any time.
What the other threads of a client do to its state is a step of its own.
-/

namespace Razzer.Cluster

open Feedback SyzManager Function
open Option (map_eq_some_iff)

/-- A client as the manager and its network see it. -/
inductive Link (κ σ α ρ : Type)
  | down
  | registered
  | welcomed (r : κ)
  | running (s : σ)
  | asking (s : σ) (a : α)
  | answered (s : σ) (r : ρ)

def Link.work {κ σ α ρ : Type} (f : σ → σ) : Link κ σ α ρ → Option (Link κ σ α ρ)
  | .running s => some (.running (f s))
  | .asking s a => some (.asking (f s) a)
  | .answered s r => some (.answered (f s) r)
  | _ => none

def Link.Replied {κ σ α ρ : Type} : Link κ σ α ρ → Prop
  | .down | .registered => False
  | _ => True

instance {κ σ α ρ : Type} : DecidablePred (@Link.Replied κ σ α ρ)
  | .down | .registered => isFalse id
  | .welcomed _ | .running _ | .asking _ _ | .answered _ _ => isTrue trivial

lemma Link.replied_work {κ σ α ρ : Type} {f : σ → σ} {l l' : Link κ σ α ρ}
    (h : l.work f = some l') : l.Replied := by
  cases l <;> trivial

def updateSuppressedPairs (supp : Finset MempairHash) (addList delList : List MempairHash) :
    Finset MempairHash :=
  (supp ∪ addList.toFinset) \ delList.toFinset

/-! ### Fuzzers -/

structure FuzzerProc where
  maxSignal : Signal
  newSignal : Signal
  suppressedPairs : Finset MempairHash

/-- `fuzzerInit`; the suppressed pairs of the reply are not looked at. -/
def fuzzerInit (r : ConnectRes) : FuzzerProc := ⟨merge ∅ r.maxSignal, ∅, ∅⟩

namespace FuzzerProc

def initPoll (f : FuzzerProc) : FuzzerProc × PollArgs := ({ f with newSignal := ∅ }, ⟨f.newSignal⟩)

def finishPoll (f : FuzzerProc) (r : PollRes) : FuzzerProc :=
  { f with
    maxSignal := merge f.maxSignal r.maxSignal
    suppressedPairs := updateSuppressedPairs f.suppressedPairs r.suppPairsToAdd r.suppPairsToDel }

def checkNewSignal (raw : List UInt32) (p : ℤ) (f : FuzzerProc) : FuzzerProc :=
  let d := diffRaw f.maxSignal raw p
  if empty d then f
  else { f with maxSignal := merge f.maxSignal d, newSignal := merge f.newSignal d }

/-- The second half of `checkNewSignal`: it gives the lock up once it has a difference `d`, and
by the time it merges `d` the signal may be another one. -/
def mergeNewSignal (d : Signal) (f : FuzzerProc) : FuzzerProc :=
  { f with maxSignal := merge f.maxSignal d, newSignal := merge f.newSignal d }

def addInput (sign : Signal) (f : FuzzerProc) : FuzzerProc :=
  if empty sign then f else { f with maxSignal := merge f.maxSignal sign }

lemma checkNewSignal_eq (raw : List UInt32) (p : ℤ) (f : FuzzerProc) :
    f.checkNewSignal raw p = f.mergeNewSignal (diffRaw f.maxSignal raw p) := by
  unfold checkNewSignal mergeNewSignal
  simp only
  split
  case isTrue h => rw [merge_of_empty _ h, merge_of_empty _ h]
  case isFalse => rfl

end FuzzerProc

/-! ### Schedulers -/

structure SchedulerProc where
  raceMaxSignal : Signal
  raceCorpusSignal : Signal
  newSignal : Signal
  suppressedPairs : Finset MempairHash
  trueRaceHashes : List MempairHash
  trueRaceHashesMap : Finset MempairHash
  foundRaceToUpdate : List FoundRaceInfo
  mempairExecInfo : ExecInfos
  likelyRaceCorpus : LikelyCorpus
  likelySent : List RPCLikelyRaceInput

/-- `addToLikelyRaceCorpus`: a program that does not parse is skipped. -/
def addToLikelyRaceCorpus (corpus : LikelyCorpus) (rinp : RPCLikelyRaceInput) : LikelyCorpus :=
  if rinp.raceProg.parses then corpus.insert rinp.raceInfo.hash rinp else corpus

def addLikelyInputs (corpus : LikelyCorpus) (rinps : List RPCLikelyRaceInput) : LikelyCorpus :=
  rinps.foldl addToLikelyRaceCorpus corpus

namespace SchedulerProc

def addRaceInput (s : SchedulerProc) (sign : Signal) : SchedulerProc :=
  if empty sign then s
  else
    { s with
      raceCorpusSignal := merge s.raceCorpusSignal sign
      raceMaxSignal := merge s.raceMaxSignal sign }

def addRaceInputs (s : SchedulerProc) (rinps : List RPCRaceInput) : SchedulerProc :=
  rinps.foldl (fun s rinp => s.addRaceInput rinp.signal) s

def addRaceMaxSignal (s : SchedulerProc) (sign : Signal) : SchedulerProc :=
  if empty sign then s else { s with raceMaxSignal := merge s.raceMaxSignal sign }

/-- The hashes of a reply; the list is appended to without a look at the map. -/
def addTrueRaces (s : SchedulerProc) (hashes : List MempairHash) : SchedulerProc :=
  { s with
    trueRaceHashes := s.trueRaceHashes ++ hashes
    trueRaceHashesMap := s.trueRaceHashesMap ∪ hashes.toFinset }

def initPoll (s : SchedulerProc) : SchedulerProc × SchedulerPollArgs :=
  ({ s with newSignal := ∅, foundRaceToUpdate := [], mempairExecInfo := ∅ },
    ⟨s.newSignal, s.foundRaceToUpdate, s.mempairExecInfo⟩)

def finishPoll (s : SchedulerProc) (r : SchedulerPollRes) : SchedulerProc :=
  let s := s.addRaceMaxSignal r.maxSignal
  let s := { s with
    suppressedPairs := updateSuppressedPairs s.suppressedPairs r.suppPairsToAdd r.suppPairsToDel }
  let s := s.addRaceInputs r.newRaceInputs
  let s := { s with likelyRaceCorpus := addLikelyInputs s.likelyRaceCorpus r.newLikelyRaceInputs }
  s.addTrueRaces r.trueRaceHashes

/-! What the inputs and the signal of a reply leave alone. -/

lemma addRaceInput_eq (s : SchedulerProc) (sign : Signal) : ∃ c m,
    s.addRaceInput sign = { s with raceCorpusSignal := c, raceMaxSignal := m } := by
  unfold addRaceInput
  split
  · exact ⟨_, _, rfl⟩
  · exact ⟨_, _, rfl⟩

lemma addRaceInputs_eq (s : SchedulerProc) (rinps : List RPCRaceInput) : ∃ c m,
    s.addRaceInputs rinps = { s with raceCorpusSignal := c, raceMaxSignal := m } := by
  induction rinps generalizing s with
  | nil => exact ⟨_, _, rfl⟩
  | cons rinp rinps ih =>
    obtain ⟨c, m, h⟩ := s.addRaceInput_eq rinp.signal
    obtain ⟨c', m', h'⟩ := ih (s.addRaceInput rinp.signal)
    refine ⟨c', m', ?_⟩
    rw [addRaceInputs, List.foldl_cons, ← addRaceInputs, h', h]

lemma addRaceMaxSignal_eq (s : SchedulerProc) (sign : Signal) : ∃ m,
    s.addRaceMaxSignal sign = { s with raceMaxSignal := m } := by
  unfold addRaceMaxSignal
  split
  · exact ⟨_, rfl⟩
  · exact ⟨_, rfl⟩

lemma finishPoll_eq (s : SchedulerProc) (r : SchedulerPollRes) : ∃ c m,
    s.finishPoll r = { s with
      raceCorpusSignal := c
      raceMaxSignal := m
      suppressedPairs := updateSuppressedPairs s.suppressedPairs r.suppPairsToAdd r.suppPairsToDel
      likelyRaceCorpus := addLikelyInputs s.likelyRaceCorpus r.newLikelyRaceInputs
      trueRaceHashes := s.trueRaceHashes ++ r.trueRaceHashes
      trueRaceHashesMap := s.trueRaceHashesMap ∪ r.trueRaceHashes.toFinset } := by
  obtain ⟨m, hm⟩ := s.addRaceMaxSignal_eq r.maxSignal
  obtain ⟨c, m', h⟩ := addRaceInputs_eq { s with
    raceMaxSignal := m
    suppressedPairs := updateSuppressedPairs s.suppressedPairs r.suppPairsToAdd r.suppPairsToDel }
    r.newRaceInputs
  refine ⟨c, m', ?_⟩
  simp only [finishPoll, hm, h, addTrueRaces]

lemma finishPoll_supp (s : SchedulerProc) (r : SchedulerPollRes) :
    (s.finishPoll r).suppressedPairs =
      updateSuppressedPairs s.suppressedPairs r.suppPairsToAdd r.suppPairsToDel := by
  obtain ⟨c, m, h⟩ := s.finishPoll_eq r
  rw [h]

def checkNewRaceSignal (raw : List UInt32) (p : ℤ) (s : SchedulerProc) : SchedulerProc :=
  let d := diffRaw s.raceMaxSignal raw p
  if empty d then s
  else { s with raceMaxSignal := merge s.raceMaxSignal d, newSignal := merge s.newSignal d }

/-- The second half of `checkNewRaceSignal`, which gives the lock up as well. -/
def mergeNewRaceSignal (d : Signal) (s : SchedulerProc) : SchedulerProc :=
  { s with raceMaxSignal := merge s.raceMaxSignal d, newSignal := merge s.newSignal d }

def updateTrueRaceInfo (hsh : MempairHash) (kind : RaceRunKind) (s : SchedulerProc) :
    SchedulerProc :=
  if hsh ∈ s.trueRaceHashesMap then s
  else
    { s with
      trueRaceHashes := s.trueRaceHashes ++ [hsh]
      trueRaceHashesMap := insert hsh s.trueRaceHashesMap
      foundRaceToUpdate := s.foundRaceToUpdate ++ [⟨hsh, kind⟩] }

def countExecs (hsh : MempairHash) (execs : RaceExecInfo) (s : SchedulerProc) : SchedulerProc :=
  { s with
    mempairExecInfo :=
      s.mempairExecInfo.insert hsh (addExecs (execInfoOf s.mempairExecInfo hsh) execs) }

/-- The call of the manager in `sendLikelyRaceInputToManager`. -/
def sendLikely (rinp : RPCLikelyRaceInput) (s : SchedulerProc) : SchedulerProc :=
  { s with likelySent := s.likelySent ++ [rinp] }

/-- The end of `sendLikelyRaceInputToManager`: the input is added once the manager has it. -/
def finishLikely (rinp : RPCLikelyRaceInput) (s : SchedulerProc) : SchedulerProc :=
  if rinp ∈ s.likelySent then
    { s with
      likelySent := s.likelySent.erase rinp
      likelyRaceCorpus := addToLikelyRaceCorpus s.likelyRaceCorpus rinp }
  else s

lemma checkNewRaceSignal_eq (raw : List UInt32) (p : ℤ) (s : SchedulerProc) :
    s.checkNewRaceSignal raw p = s.mergeNewRaceSignal (diffRaw s.raceMaxSignal raw p) := by
  unfold checkNewRaceSignal mergeNewRaceSignal
  simp only
  split
  case isTrue h => rw [merge_of_empty _ h, merge_of_empty _ h]
  case isFalse => rfl

lemma updateTrueRaceInfo_eq (hsh : MempairHash) (kind : RaceRunKind) (s : SchedulerProc) :
    ∃ l m f, s.updateTrueRaceInfo hsh kind = { s with
      trueRaceHashes := l, trueRaceHashesMap := m, foundRaceToUpdate := f } := by
  unfold updateTrueRaceInfo
  split
  · exact ⟨_, _, _, rfl⟩
  · exact ⟨_, _, _, rfl⟩

lemma finishLikely_eq (rinp : RPCLikelyRaceInput) (s : SchedulerProc) : ∃ c l,
    s.finishLikely rinp = { s with likelyRaceCorpus := c, likelySent := l } := by
  unfold finishLikely
  split
  · exact ⟨_, _, rfl⟩
  · exact ⟨_, _, rfl⟩

end SchedulerProc

/-- `schedulerInit`; the suppressed pairs of the reply are not looked at. -/
def schedulerInit (r : SchedulerConnectRes) : SchedulerProc :=
  let s : SchedulerProc := ⟨∅, ∅, ∅, ∅, [], ∅, [], ∅, ∅, []⟩
  let s := (s.addRaceInputs r.raceInputs).addRaceMaxSignal r.raceMaxSignal
  let s := s.addTrueRaces r.trueRaceHashes
  { s with likelyRaceCorpus := addLikelyInputs s.likelyRaceCorpus r.likelyRaceInputs }

lemma schedulerInit_eq (r : SchedulerConnectRes) : ∃ c m,
    schedulerInit r = ⟨m, c, ∅, ∅, r.trueRaceHashes, r.trueRaceHashes.toFinset, [], ∅,
      addLikelyInputs ∅ r.likelyRaceInputs, []⟩ := by
  obtain ⟨c, m, h⟩ :=
    SchedulerProc.addRaceInputs_eq ⟨∅, ∅, ∅, ∅, [], ∅, [], ∅, ∅, []⟩ r.raceInputs
  obtain ⟨m', h'⟩ :=
    SchedulerProc.addRaceMaxSignal_eq ⟨m, c, ∅, ∅, [], ∅, [], ∅, ∅, []⟩ r.raceMaxSignal
  refine ⟨c, m', ?_⟩
  simp only [schedulerInit, h, h', SchedulerProc.addTrueRaces, List.nil_append, Finset.empty_union]

/-! ### The system -/

abbrev FuzzerLink := Link ConnectRes FuzzerProc PollArgs PollRes
abbrev SchedLink := Link SchedulerConnectRes SchedulerProc SchedulerPollArgs SchedulerPollRes

/-- The manager and the links to its clients. The last five fields only record: the manager
right after it has built its last reply to a client, the race hashes other schedulers have
reported since a scheduler connected or polled, and, for the last poll of a scheduler, what
that list was and which hashes the poll itself reported. -/
structure State where
  mgr : Manager
  fuzzers : Name → FuzzerLink
  scheds : Name → SchedLink
  fuzzerSeen : Name → Manager
  schedSeen : Name → Manager
  owed : Name → List MempairHash
  due : Name → List MempairHash
  reported : Name → List MempairHash

inductive Ev
  | fuzzerRegister (n : Name)
  | fuzzerReply (n : Name)
  | fuzzerInit (n : Name)
  | fuzzerInitPoll (n : Name)
  | fuzzerPoll (n : Name)
  | fuzzerFinishPoll (n : Name)
  | fuzzerWork (n : Name) (raw : List UInt32) (p : ℤ)
  | fuzzerMerge (n : Name) (d : Signal)
  | fuzzerInput (n : Name) (sign : Signal)
  | schedRegister (n : Name) (kept : List (Sig × RPCRaceInput))
  | schedReply (n : Name)
  | schedInit (n : Name)
  | schedInitPoll (n : Name)
  | schedPoll (n : Name)
  | schedFinishPoll (n : Name)
  | schedSignal (n : Name) (raw : List UInt32) (p : ℤ)
  | schedMerge (n : Name) (d : Signal)
  | schedFound (n : Name) (hsh : MempairHash) (kind : RaceRunKind)
  | schedExecs (n : Name) (hsh : MempairHash) (execs : RaceExecInfo)
  | schedTriaged (n : Name) (sign : Signal)
  | schedLikely (n : Name) (rinp : RPCLikelyRaceInput)
  | newInput (n : Name) (sig : Sig) (inp : RPCInput)
  | minimizeCorpus (kept : List (Sig × RPCInput))
  | newLikelyRaceInput (n : Name) (rinp : RPCLikelyRaceInput) (coin : Bool)
  | reorderLikely (corpus : LikelyCorpus)
  | newRaceInput (n : Name) (sig : Sig) (rinp : RPCRaceInput)
  | minimizeRaceCorpus (kept : List (Sig × RPCRaceInput))
  | updateSuppPairs (drops dels adds : List MempairHash)

def State.setFuzzer (s : State) (n : Name) (l : FuzzerLink) : State :=
  { s with fuzzers := update s.fuzzers n l }

def State.setSched (s : State) (n : Name) (l : SchedLink) : State :=
  { s with scheds := update s.scheds n l }

def State.fuzzerWork (s : State) (n : Name) (f : FuzzerProc → FuzzerProc) : Option State :=
  ((s.fuzzers n).work f).map (s.setFuzzer n)

def fuzzerWorkOf : Ev → Option (Name × (FuzzerProc → FuzzerProc))
  | .fuzzerWork n raw p => some (n, FuzzerProc.checkNewSignal raw p)
  | .fuzzerMerge n d => some (n, FuzzerProc.mergeNewSignal d)
  | .fuzzerInput n sign => some (n, FuzzerProc.addInput sign)
  | _ => none

def State.schedWork (s : State) (n : Name) (f : SchedulerProc → SchedulerProc) :
    Option State :=
  ((s.scheds n).work f).map (s.setSched n)

def schedWorkOf : Ev → Option (Name × (SchedulerProc → SchedulerProc))
  | .schedSignal n raw p => some (n, SchedulerProc.checkNewRaceSignal raw p)
  | .schedMerge n d => some (n, SchedulerProc.mergeNewRaceSignal d)
  | .schedFound n hsh kind => some (n, SchedulerProc.updateTrueRaceInfo hsh kind)
  | .schedExecs n hsh execs => some (n, SchedulerProc.countExecs hsh execs)
  | .schedTriaged n sign => some (n, fun x => x.addRaceInput sign)
  | .schedLikely n rinp => some (n, SchedulerProc.finishLikely rinp)
  | _ => none

def newlyFound (m : Manager) (a : SchedulerPollArgs) : List MempairHash :=
  (a.foundRaceInfos.map FoundRaceInfo.mempairHash).filter fun h => h ∉ m.trueRaceHashes

def stepFuzzer (s : State) : Ev → Option State
  | .fuzzerRegister n => some { s.setFuzzer n .registered with mgr := register s.mgr n }
  | .fuzzerReply n =>
    match s.fuzzers n with
    | .registered =>
      some { s.setFuzzer n (.welcomed (connectReply s.mgr)) with
        fuzzerSeen := update s.fuzzerSeen n s.mgr }
    | _ => none
  | .fuzzerInit n =>
    match s.fuzzers n with
    | .welcomed r => some (s.setFuzzer n (.running (fuzzerInit r)))
    | _ => none
  | .fuzzerInitPoll n =>
    match s.fuzzers n with
    | .running f => some (s.setFuzzer n (.asking f.initPoll.1 f.initPoll.2))
    | _ => none
  | .fuzzerPoll n =>
    match s.fuzzers n with
    | .asking f a =>
      (fuzzerPoll s.mgr n a).map fun (mgr, r) =>
        { s.setFuzzer n (.answered f r) with
          mgr := mgr
          fuzzerSeen := update s.fuzzerSeen n mgr }
    | _ => none
  | .fuzzerFinishPoll n =>
    match s.fuzzers n with
    | .answered f r => some (s.setFuzzer n (.running (f.finishPoll r)))
    | _ => none
  | e => (fuzzerWorkOf e).bind fun (n, f) => s.fuzzerWork n f

def stepSched (s : State) : Ev → Option State
  | .schedRegister n kept =>
    some { s.setSched n .registered with
      mgr := schedulerRegister s.mgr n kept
      owed := update s.owed n [] }
  | .schedReply n =>
    match s.scheds n with
    | .registered =>
      some { s.setSched n (.welcomed (schedulerConnectReply s.mgr)) with
        mgr := queueLikely s.mgr n
        schedSeen := update s.schedSeen n s.mgr }
    | _ => none
  | .schedInit n =>
    match s.scheds n with
    | .welcomed r => some (s.setSched n (.running (schedulerInit r)))
    | _ => none
  | .schedInitPoll n =>
    match s.scheds n with
    | .running x => some (s.setSched n (.asking x.initPoll.1 x.initPoll.2))
    | _ => none
  | .schedPoll n =>
    match s.scheds n with
    | .asking x a =>
      (schedulerPoll s.mgr n a).map fun (mgr, r) =>
        { s.setSched n (.answered x r) with
          mgr := mgr
          schedSeen := update s.schedSeen n mgr
          owed := fun k => if k = n then [] else s.owed k ++ newlyFound s.mgr a
          due := update s.due n (s.owed n)
          reported := update s.reported n (newlyFound s.mgr a) }
    | _ => none
  | .schedFinishPoll n =>
    match s.scheds n with
    | .answered x r => some (s.setSched n (.running (x.finishPoll r)))
    | _ => none
  | e => (schedWorkOf e).bind fun (n, f) => s.schedWork n f

/-- The handlers that no client waits for with a reply. The order in which the map of likely
inputs is walked is that of its entries, and it may be another one at any time. -/
def stepManager (s : State) : Ev → Option State
  | .updateSuppPairs drops dels adds =>
    (updateSuppPairs s.mgr drops dels adds).map fun mgr => { s with mgr := mgr }
  | .newRaceInput n sig rinp =>
    (newRaceInput s.mgr n sig rinp).map fun mgr => { s with mgr := mgr }
  | .minimizeRaceCorpus kept => some { s with mgr := minimizeRaceCorpus s.mgr kept }
  | .newInput n sig inp => (newInput s.mgr n sig inp).map fun mgr => { s with mgr := mgr }
  | .minimizeCorpus kept => some { s with mgr := minimizeCorpus s.mgr kept }
  | .newLikelyRaceInput n rinp coin =>
    ((s.scheds n).work (SchedulerProc.sendLikely rinp)).bind fun l =>
      (newLikelyRaceInput s.mgr n rinp coin).map fun mgr => { s.setSched n l with mgr := mgr }
  | .reorderLikely corpus =>
    if corpus.entries.Perm s.mgr.likelyRaceCorpus.entries then
      some { s with mgr := { s.mgr with likelyRaceCorpus := corpus } }
    else none
  | _ => none

def step (s : State) (e : Ev) : Option State :=
  (stepFuzzer s e).orElse fun _ => (stepSched s e).orElse fun _ => stepManager s e

def init : State :=
  ⟨SyzManager.init, fun _ => .down, fun _ => .down, fun _ => SyzManager.init,
    fun _ => SyzManager.init, fun _ => [], fun _ => [], fun _ => []⟩

/-! ### Case analysis of steps -/

inductive FuzzerStep (s : State) : Ev → State → Prop
  | register (n : Name) : FuzzerStep s (.fuzzerRegister n)
      { s.setFuzzer n .registered with mgr := register s.mgr n }
  | reply (n : Name) (hl : s.fuzzers n = .registered) : FuzzerStep s (.fuzzerReply n)
      { s.setFuzzer n (.welcomed (connectReply s.mgr)) with
        fuzzerSeen := update s.fuzzerSeen n s.mgr }
  | init (n : Name) (r : ConnectRes) (hl : s.fuzzers n = .welcomed r) :
      FuzzerStep s (.fuzzerInit n) (s.setFuzzer n (.running (fuzzerInit r)))
  | initPoll (n : Name) (x : FuzzerProc) (hl : s.fuzzers n = .running x) :
      FuzzerStep s (.fuzzerInitPoll n) (s.setFuzzer n (.asking x.initPoll.1 x.initPoll.2))
  | poll (n : Name) (x : FuzzerProc) (a : PollArgs) (f : Fuzzer) (r : PollRes)
      (hl : s.fuzzers n = .asking x a) (hp : fuzzerPoll s.mgr n a = some (polled s.mgr n f a, r)) :
      FuzzerStep s (.fuzzerPoll n)
        { s.setFuzzer n (.answered x r) with
          mgr := polled s.mgr n f a
          fuzzerSeen := update s.fuzzerSeen n (polled s.mgr n f a) }
  | finishPoll (n : Name) (x : FuzzerProc) (r : PollRes) (hl : s.fuzzers n = .answered x r) :
      FuzzerStep s (.fuzzerFinishPoll n) (s.setFuzzer n (.running (x.finishPoll r)))
  | work (e : Ev) (n : Name) (f : FuzzerProc → FuzzerProc) (l : FuzzerLink)
      (hf : fuzzerWorkOf e = some (n, f)) (hl : (s.fuzzers n).work f = some l) :
      FuzzerStep s e (s.setFuzzer n l)

inductive SchedStep (s : State) : Ev → State → Prop
  | register (n : Name) (kept : List (Sig × RPCRaceInput)) : SchedStep s (.schedRegister n kept)
      { s.setSched n .registered with
        mgr := schedulerRegister s.mgr n kept
        owed := update s.owed n [] }
  | reply (n : Name) (hl : s.scheds n = .registered) : SchedStep s (.schedReply n)
      { s.setSched n (.welcomed (schedulerConnectReply s.mgr)) with
        mgr := queueLikely s.mgr n
        schedSeen := update s.schedSeen n s.mgr }
  | init (n : Name) (r : SchedulerConnectRes) (hl : s.scheds n = .welcomed r) :
      SchedStep s (.schedInit n) (s.setSched n (.running (schedulerInit r)))
  | initPoll (n : Name) (x : SchedulerProc) (hl : s.scheds n = .running x) :
      SchedStep s (.schedInitPoll n) (s.setSched n (.asking x.initPoll.1 x.initPoll.2))
  | poll (n : Name) (x : SchedulerProc) (a : SchedulerPollArgs) (mgr : Manager)
      (r : SchedulerPollRes) (hl : s.scheds n = .asking x a)
      (hp : schedulerPoll s.mgr n a = some (mgr, r)) :
      SchedStep s (.schedPoll n)
        { s.setSched n (.answered x r) with
          mgr := mgr
          schedSeen := update s.schedSeen n mgr
          owed := fun k => if k = n then [] else s.owed k ++ newlyFound s.mgr a
          due := update s.due n (s.owed n)
          reported := update s.reported n (newlyFound s.mgr a) }
  | finishPoll (n : Name) (x : SchedulerProc) (r : SchedulerPollRes)
      (hl : s.scheds n = .answered x r) :
      SchedStep s (.schedFinishPoll n) (s.setSched n (.running (x.finishPoll r)))
  | work (e : Ev) (n : Name) (f : SchedulerProc → SchedulerProc) (l : SchedLink)
      (hf : schedWorkOf e = some (n, f)) (hl : (s.scheds n).work f = some l) :
      SchedStep s e (s.setSched n l)

inductive ManagerStep (s : State) : Ev → State → Prop
  | updateSuppPairs (drops dels adds : List MempairHash) (new : Finset MempairHash)
      (hm : updateSuppPairs s.mgr drops dels adds = some (suppressing s.mgr new adds dels)) :
      ManagerStep s (.updateSuppPairs drops dels adds)
        { s with mgr := suppressing s.mgr new adds dels }
  | newRaceInput (n : Name) (sig : Sig) (rinp : RPCRaceInput) (corpus : List (Sig × RPCRaceInput))
      (signal : Signal) (rinputs : List RPCRaceInput)
      (hm : newRaceInput s.mgr n sig rinp = some (sharingRace s.mgr n corpus signal rinputs)) :
      ManagerStep s (.newRaceInput n sig rinp)
        { s with mgr := sharingRace s.mgr n corpus signal rinputs }
  | minimizeRaceCorpus (kept : List (Sig × RPCRaceInput)) :
      ManagerStep s (.minimizeRaceCorpus kept) { s with mgr := minimizeRaceCorpus s.mgr kept }
  | newInput (n : Name) (sig : Sig) (inp : RPCInput) (corpus : List (Sig × RPCInput))
      (signal : Signal) (inputs : List RPCInput) :
      ManagerStep s (.newInput n sig inp) { s with mgr := sharing s.mgr n corpus signal inputs }
  | minimizeCorpus (kept : List (Sig × RPCInput)) :
      ManagerStep s (.minimizeCorpus kept) { s with mgr := minimizeCorpus s.mgr kept }
  | newLikelyRaceInput (n : Name) (rinp : RPCLikelyRaceInput) (coin : Bool) (l : SchedLink)
      (mgr : Manager)
      (hl : (s.scheds n).work (SchedulerProc.sendLikely rinp) = some l)
      (hm : newLikelyRaceInput s.mgr n rinp coin = some mgr) :
      ManagerStep s (.newLikelyRaceInput n rinp coin) { s.setSched n l with mgr := mgr }
  | reorderLikely (corpus : LikelyCorpus)
      (hp : corpus.entries.Perm s.mgr.likelyRaceCorpus.entries) :
      ManagerStep s (.reorderLikely corpus)
        { s with mgr := { s.mgr with likelyRaceCorpus := corpus } }

variable {e : Ev} {s t : State} {n : Name}

lemma fuzzerStep_of (h : stepFuzzer s e = some t) : FuzzerStep s e t := by
  unfold stepFuzzer at h
  split at h
  case h_1 n =>
    cases h
    exact .register n
  case h_2 n =>
    split at h <;> cases h
    exact .reply n ‹_›
  case h_3 n =>
    split at h <;> cases h
    exact .init n _ ‹_›
  case h_4 n =>
    split at h <;> cases h
    exact .initPoll n _ ‹_›
  case h_5 n =>
    split at h
    · obtain ⟨⟨mgr, r⟩, hp, rfl⟩ := map_eq_some_iff.1 h
      obtain ⟨f, -, rfl, -⟩ := fuzzerPoll_eq hp
      exact .poll n _ _ f r ‹_› hp
    · cases h
  case h_6 n =>
    split at h <;> cases h
    exact .finishPoll n _ _ ‹_›
  case h_7 =>
    obtain ⟨⟨n, f⟩, hf, h⟩ := Option.bind_eq_some_iff.1 h
    obtain ⟨l, hl, rfl⟩ := map_eq_some_iff.1 h
    exact .work _ n f l hf hl

lemma schedStep_of (h : stepSched s e = some t) : SchedStep s e t := by
  unfold stepSched at h
  split at h
  case h_1 n kept =>
    cases h
    exact .register n kept
  case h_2 n =>
    split at h <;> cases h
    exact .reply n ‹_›
  case h_3 n =>
    split at h <;> cases h
    exact .init n _ ‹_›
  case h_4 n =>
    split at h <;> cases h
    exact .initPoll n _ ‹_›
  case h_5 n =>
    split at h
    · obtain ⟨⟨mgr, r⟩, hp, rfl⟩ := map_eq_some_iff.1 h
      exact .poll n _ _ mgr r ‹_› hp
    · cases h
  case h_6 n =>
    split at h <;> cases h
    exact .finishPoll n _ _ ‹_›
  case h_7 =>
    obtain ⟨⟨n, f⟩, hf, h⟩ := Option.bind_eq_some_iff.1 h
    obtain ⟨l, hl, rfl⟩ := map_eq_some_iff.1 h
    exact .work _ n f l hf hl

lemma managerStep_of (h : stepManager s e = some t) : ManagerStep s e t := by
  unfold stepManager at h
  split at h
  case h_1 drops dels adds =>
    obtain ⟨mgr, hm, rfl⟩ := map_eq_some_iff.1 h
    obtain ⟨new, rfl⟩ := updateSuppPairs_eq hm
    exact .updateSuppPairs drops dels adds new hm
  case h_2 n sig rinp =>
    obtain ⟨mgr, hm, rfl⟩ := map_eq_some_iff.1 h
    obtain ⟨corpus, signal, rinputs, rfl⟩ := newRaceInput_eq hm
    exact .newRaceInput n sig rinp corpus signal rinputs hm
  case h_3 kept =>
    cases h
    exact .minimizeRaceCorpus kept
  case h_4 n sig inp =>
    obtain ⟨mgr, hm, rfl⟩ := map_eq_some_iff.1 h
    obtain ⟨corpus, signal, inputs, rfl⟩ := newInput_eq hm
    exact .newInput n sig inp corpus signal inputs
  case h_5 kept =>
    cases h
    exact .minimizeCorpus kept
  case h_6 n rinp coin =>
    obtain ⟨l, hl, h⟩ := Option.bind_eq_some_iff.1 h
    obtain ⟨mgr, hm, rfl⟩ := map_eq_some_iff.1 h
    exact .newLikelyRaceInput n rinp coin l mgr hl hm
  case h_7 corpus =>
    split at h <;> cases h
    exact .reorderLikely corpus ‹_›
  case h_8 => cases h

/-- **What a step is.** A step of a fuzzer, a step of a scheduler, or one of the handlers that
no client waits for. -/
theorem step_cases (h : step s e = some t) :
    FuzzerStep s e t ∨ SchedStep s e t ∨ ManagerStep s e t := by
  unfold step at h
  cases hf : stepFuzzer s e with
  | some t' =>
    rw [hf] at h
    cases h
    exact .inl (fuzzerStep_of hf)
  | none =>
    rw [hf] at h
    cases hs : stepSched s e with
    | some t' =>
      simp only [hs] at h
      cases h
      exact .inr (.inl (schedStep_of hs))
    | none =>
      simp only [hs] at h
      exact .inr (.inr (managerStep_of h))

/-! ### The steps that apply a reply -/

lemma step_fuzzerInit :
    step s (.fuzzerInit n) = some t ↔
      ∃ r, s.fuzzers n = .welcomed r ∧ t = s.setFuzzer n (.running (fuzzerInit r)) := by
  cases hl : s.fuzzers n <;>
    simp [step, stepFuzzer, stepSched, schedWorkOf, stepManager, hl, eq_comm]

lemma step_fuzzerFinishPoll :
    step s (.fuzzerFinishPoll n) = some t ↔
      ∃ x r, s.fuzzers n = .answered x r ∧ t = s.setFuzzer n (.running (x.finishPoll r)) := by
  cases hl : s.fuzzers n <;>
    simp [step, stepFuzzer, stepSched, schedWorkOf, stepManager, hl, eq_comm]

lemma step_schedInit :
    step s (.schedInit n) = some t ↔
      ∃ r, s.scheds n = .welcomed r ∧ t = s.setSched n (.running (schedulerInit r)) := by
  cases hl : s.scheds n <;>
    simp [step, stepFuzzer, fuzzerWorkOf, stepSched, stepManager, hl, eq_comm]

lemma step_schedFinishPoll :
    step s (.schedFinishPoll n) = some t ↔
      ∃ x r, s.scheds n = .answered x r ∧ t = s.setSched n (.running (x.finishPoll r)) := by
  cases hl : s.scheds n <;>
    simp [step, stepFuzzer, fuzzerWorkOf, stepSched, stepManager, hl, eq_comm]

end Razzer.Cluster
