import Razzer.Feedback

/-!
The manager: what it keeps about races and about its clients, and its handlers.

Every handler runs under the manager's lock. The two connect handlers give the lock up while
priorities are computed, between registering the client and building the reply, so they are
two functions each. What a handler sends to "every other client" it appends to the records
of these clients, and their next polls carry it.
-/

namespace Razzer.SyzManager

open Feedback Option Function

abbrev Name := ℕ
abbrev MempairHash := UInt64
abbrev Sig := ℕ

inductive RaceRunKind
  | none | triage | corpus | likely
  deriving DecidableEq

structure RaceExecInfo where
  triageExecs : ℕ
  triageTrues : ℕ
  triageTrueFound : ℕ
  triageFailed : ℕ
  corpusExecs : ℕ
  corpusTrues : ℕ
  corpusTrueFound : ℕ
  likelyExecs : ℕ
  likelyTrues : ℕ
  likelyTrueFound : ℕ
  firstFoundBy : RaceRunKind

/-- The value of a key a map does not have. -/
def noExecs : RaceExecInfo := ⟨0, 0, 0, 0, 0, 0, 0, 0, 0, 0, .none⟩

abbrev ExecInfos := AList fun _ : MempairHash => RaceExecInfo

def execInfoOf (m : ExecInfos) (hsh : MempairHash) : RaceExecInfo := (m.lookup hsh).getD noExecs

structure FoundRaceInfo where
  mempairHash : MempairHash
  raceRunKind : RaceRunKind

/-- A program text, with what the target's `Deserialize` makes of it: whether it is accepted. -/
structure ProgText where
  bytes : String
  parses : Bool
  deriving DecidableEq

/-- `RaceInfo`: what is executed, and the pair of memory accesses it is about. -/
structure RaceInfo where
  cov : UInt32 × UInt32
  addr : UInt32 × UInt32
  idx : ℤ × ℤ
  sched : ℤ
  hash : MempairHash
  mempair : String × String
  deriving DecidableEq

structure RPCInput where
  prog : ProgText
  signal : Signal

structure RPCLikelyRaceInput where
  raceProg : ProgText
  raceInfo : RaceInfo
  deriving DecidableEq

abbrev LikelyCorpus := AList fun _ : MempairHash => RPCLikelyRaceInput

structure RPCRaceInput where
  raceProg : String
  raceInfo : String
  signal : Signal

structure Fuzzer where
  inputs : List RPCInput
  newMaxSignal : Signal
  suppPairsToAdd : List MempairHash
  suppPairsToDel : List MempairHash

structure Scheduler where
  raceInputs : List RPCRaceInput
  likelyRaceInputs : List RPCLikelyRaceInput
  inputs : List RPCInput
  newMaxSignal : Signal
  trueRaceHashes : List MempairHash
  suppPairsToAdd : List MempairHash
  suppPairsToDel : List MempairHash

structure Manager where
  corpus : List (Sig × RPCInput)
  corpusSignal : Signal
  maxSignal : Signal
  raceCorpus : List (Sig × RPCRaceInput)
  raceCorpusSignal : Signal
  maxRaceSignal : Signal
  raceMaxSignal : Signal
  likelyRaceCorpus : LikelyCorpus
  mempairExecInfo : ExecInfos
  trueRaceHashes : List MempairHash
  suppressedPairs : Finset MempairHash
  fuzzers : Name → Option Fuzzer
  schedulers : Name → Option Scheduler

def init : Manager :=
  ⟨[], ∅, ∅, [], ∅, ∅, ∅, ∅, ∅, [], ∅, fun _ => none, fun _ => none⟩

def others {ρ : Type*} (n : Name) (f : ρ → ρ) (recs : Name → Option ρ) : Name → Option ρ :=
  fun k => if k = n then recs k else (recs k).map f

variable {ρ : Type*} {m m' : Manager} {n : Name} {inp : RPCLikelyRaceInput}

lemma others_id (n : Name) (recs : Name → Option ρ) : others n (fun x => x) recs = recs := by
  funext k
  simp [others]

lemma map_others {β : Type*} {v : ρ → β} {f : ρ → ρ} (hf : ∀ x, v (f x) = v x) (n : Name)
    (recs : Name → Option ρ) (k : Name) : (others n f recs k).map v = (recs k).map v := by
  unfold others
  split
  · rfl
  · rw [map_map]
    exact congrArg (fun g => (recs k).map g) (funext hf)

lemma isSome_others (n : Name) (f : ρ → ρ) (recs : Name → Option ρ) (k : Name) :
    (others n f recs k).isSome = (recs k).isSome := by
  unfold others
  split
  · rfl
  · exact isSome_map ..

lemma map_update {β : Type*} {v : ρ → β} {f : ρ → ρ} (hf : ∀ x, v (f x) = v x) (n : Name)
    (recs : Name → Option ρ) (k : Name) :
    (update recs n ((recs n).map f) k).map v = (recs k).map v := by
  by_cases hk : k = n
  · subst hk
    rw [update_self, map_map]
    exact congrArg (fun g => (recs k).map g) (funext hf)
  · rw [update_of_ne hk]

/-- At most a hundred inputs are sent, the last ones first. -/
def popInputs {α : Type*} (inputs : List α) : List α × List α :=
  (inputs.reverse.take 100, (inputs.reverse.drop 100).reverse)

lemma popInputs_perm {α : Type*} (inputs : List α) :
    ((popInputs inputs).1 ++ (popInputs inputs).2).Perm inputs := by
  have hrev : (inputs.reverse.take 100 ++ inputs.reverse.drop 100).Perm inputs := by
    rw [List.take_append_drop]
    exact List.reverse_perm inputs
  exact ((List.reverse_perm _).append_left _).trans hrev

/-! ### Suppressed pairs -/

/-- The pairs that were tested more often than the threshold. -/
def overThreshold (m : Manager) : List MempairHash :=
  (m.mempairExecInfo.entries.filter fun x => decide (500 < x.2.triageExecs)).map Sigma.fst

def Fuzzer.addSupp (f : Fuzzer) (adds dels : List MempairHash) : Fuzzer :=
  { f with suppPairsToAdd := f.suppPairsToAdd ++ adds, suppPairsToDel := f.suppPairsToDel ++ dels }

def Scheduler.addSupp (s : Scheduler) (adds dels : List MempairHash) : Scheduler :=
  { s with suppPairsToAdd := s.suppPairsToAdd ++ adds, suppPairsToDel := s.suppPairsToDel ++ dels }

/-- `updateSuppPairs`: `drops` are the pairs picked at random to keep the number of
suppressed pairs down, `dels` and `adds` the changes in the order the maps are walked. -/
def updateSuppPairs (m : Manager) (drops dels adds : List MempairHash) : Option Manager :=
  let tested := overThreshold m
  let new := tested.toFinset \ drops.toFinset
  if drops.Nodup ∧ drops ⊆ tested ∧
      drops.length = tested.length - m.mempairExecInfo.entries.length * 3 / 4 ∧
      dels.Nodup ∧ dels.toFinset = m.suppressedPairs \ new ∧
      adds.Nodup ∧ adds.toFinset = new \ m.suppressedPairs then
    some { m with
      suppressedPairs := new
      fuzzers := fun n => (m.fuzzers n).map fun f => f.addSupp adds dels
      schedulers := fun n => (m.schedulers n).map fun s => s.addSupp adds dels }
  else none

variable {adds dels drops hs : List MempairHash}

def suppressing (m : Manager) (new : Finset MempairHash) (adds dels : List MempairHash) : Manager :=
  { m with
    suppressedPairs := new
    fuzzers := fun n => (m.fuzzers n).map fun f => f.addSupp adds dels
    schedulers := fun n => (m.schedulers n).map fun s => s.addSupp adds dels }

lemma updateSuppPairs_eq (h : updateSuppPairs m drops dels adds = some m') :
    ∃ new, m' = suppressing m new adds dels := by
  unfold updateSuppPairs at h
  simp only at h
  split at h <;> cases h
  exact ⟨_, rfl⟩

/-! ### Fuzzers -/

structure ConnectRes where
  inputs : List RPCInput
  maxSignal : Signal
  suppressedPairs : Finset MempairHash

structure PollArgs where
  maxSignal : Signal

structure PollRes where
  maxSignal : Signal
  newInputs : List RPCInput
  suppPairsToAdd : List MempairHash
  suppPairsToDel : List MempairHash

/-- `minimizeCorpus`, when it keeps the inputs `kept`. -/
def minimizeCorpus (m : Manager) (kept : List (Sig × RPCInput)) : Manager :=
  { m with corpus := kept }

/-- `Connect` up to the computation of priorities, but for the minimisation of the corpus. -/
def register (m : Manager) (n : Name) : Manager :=
  { m with fuzzers := update m.fuzzers n (some ⟨[], ∅, [], []⟩) }

def connectReply (m : Manager) : ConnectRes :=
  ⟨m.corpus.map Prod.snd, m.maxSignal, m.suppressedPairs⟩

/-- `FuzzerPoll`; it is fatal for a fuzzer that is not connected. -/
def fuzzerPoll (m : Manager) (n : Name) (a : PollArgs) : Option (Manager × PollRes) :=
  match m.fuzzers n with
  | none => none
  | some f =>
    let newMaxSignal := diff m.maxSignal a.maxSignal
    let m :=
      if empty newMaxSignal then m
      else
        { m with
          maxSignal := merge m.maxSignal newMaxSignal
          fuzzers := others n
            (fun f1 => { f1 with newMaxSignal := merge f1.newMaxSignal newMaxSignal }) m.fuzzers }
    let (newInputs, inputs) := popInputs f.inputs
    some ({ m with fuzzers := update m.fuzzers n (some ⟨inputs, ∅, [], []⟩) },
      ⟨f.newMaxSignal, newInputs, f.suppPairsToAdd, f.suppPairsToDel⟩)

variable {a : PollArgs} {r : PollRes} {h : MempairHash} {sig : Sig} {rinp : RPCRaceInput}
  {coin : Bool} {x : RPCLikelyRaceInput}

def polled (m : Manager) (n : Name) (f : Fuzzer) (a : PollArgs) : Manager :=
  { m with
    maxSignal := merge m.maxSignal (diff m.maxSignal a.maxSignal)
    fuzzers := update (others n (fun f1 => { f1 with
      newMaxSignal := merge f1.newMaxSignal (diff m.maxSignal a.maxSignal) }) m.fuzzers) n
      (some ⟨(popInputs f.inputs).2, ∅, [], []⟩) }

/-- **What a poll of a fuzzer does.** -/
lemma fuzzerPoll_eq (h : fuzzerPoll m n a = some (m', r)) :
    ∃ f, m.fuzzers n = some f ∧ m' = polled m n f a ∧
      r = ⟨f.newMaxSignal, (popInputs f.inputs).1, f.suppPairsToAdd, f.suppPairsToDel⟩ := by
  unfold fuzzerPoll at h
  cases hf : m.fuzzers n with
  | none => simp [hf] at h
  | some f =>
    simp only [hf, some.injEq, Prod.mk.injEq] at h
    obtain ⟨rfl, rfl⟩ := h
    refine ⟨f, rfl, ?_, rfl⟩
    by_cases he : empty (diff m.maxSignal a.maxSignal)
    · simp only [he, if_true, polled, merge_of_empty _ he, others_id]
    · simp only [he, Bool.false_eq_true, if_false, polled]

/-- An input that is already present gets the signal of the new one as well. -/
def mergeInput (corpus : List (Sig × RPCInput)) (sig : Sig) (inp : RPCInput) :
    List (Sig × RPCInput) :=
  corpus.map fun x =>
    if x.1 = sig then (sig, { x.2 with signal := merge inp.signal x.2.signal }) else x

/-- `NewInput`; `sig` is the hash of the input's program. Only the other fuzzers are sent an
input that is new. -/
def newInput (m : Manager) (n : Name) (sig : Sig) (inp : RPCInput) : Option Manager :=
  match m.fuzzers n with
  | none => none
  | some _ =>
    if !inp.prog.parses then some m
    else if empty (diff m.corpusSignal inp.signal) then some m
    else
      let m := { m with corpusSignal := merge m.corpusSignal inp.signal }
      if ∃ x ∈ m.corpus, x.1 = sig then
        some { m with corpus := mergeInput m.corpus sig inp }
      else
        some { m with
          corpus := m.corpus ++ [(sig, inp)]
          fuzzers := others n (fun f1 => { f1 with inputs := f1.inputs ++ [inp] }) m.fuzzers }

/-- The manager with another corpus, and `inputs` for the other fuzzers. -/
def sharing (m : Manager) (n : Name) (corpus : List (Sig × RPCInput)) (signal : Signal)
    (inputs : List RPCInput) : Manager :=
  { m with
    corpus := corpus
    corpusSignal := signal
    fuzzers := others n (fun f1 => { f1 with inputs := f1.inputs ++ inputs }) m.fuzzers }

lemma sharing_nil (corpus : List (Sig × RPCInput)) (signal : Signal) :
    sharing m n corpus signal [] = { m with corpus := corpus, corpusSignal := signal } := by
  simp only [sharing, List.append_nil, others_id]

lemma newInput_eq {inp : RPCInput} (h : newInput m n sig inp = some m') :
    ∃ corpus signal inputs, m' = sharing m n corpus signal inputs := by
  unfold newInput at h
  split at h
  · cases h
  · split at h
    · cases h
      exact ⟨_, _, [], (sharing_nil ..).symm⟩
    · split at h
      · cases h
        exact ⟨_, _, [], (sharing_nil ..).symm⟩
      · simp only at h
        split at h <;> cases h
        · exact ⟨_, _, [], (sharing_nil ..).symm⟩
        · exact ⟨_, _, [inp], rfl⟩

/-! ### Schedulers -/

structure SchedulerConnectRes where
  corpus : List RPCInput
  likelyRaceInputs : List RPCLikelyRaceInput
  raceInputs : List RPCRaceInput
  raceMaxSignal : Signal
  suppressedPairs : Finset MempairHash
  trueRaceHashes : List MempairHash

structure SchedulerPollArgs where
  maxSignal : Signal
  foundRaceInfos : List FoundRaceInfo
  mempairExecInfo : ExecInfos

structure SchedulerPollRes where
  maxSignal : Signal
  trueRaceHashes : List MempairHash
  newRaceInputs : List RPCRaceInput
  newLikelyRaceInputs : List RPCLikelyRaceInput
  newInputs : List RPCInput
  suppPairsToAdd : List MempairHash
  suppPairsToDel : List MempairHash

/-- A likely input is dropped once its pair is a true race. -/
def dropTrue (corpus : LikelyCorpus) (hashes : List MempairHash) : LikelyCorpus :=
  ⟨corpus.entries.filter fun x => x.1 ∉ hashes, corpus.nodupKeys.sublist List.filter_sublist⟩

lemma lookup_dropTrue {corpus : LikelyCorpus}
    (hl : (dropTrue corpus hs).lookup h = some inp) :
    h ∉ hs ∧ corpus.lookup h = some inp := by
  obtain ⟨hmem, hnot⟩ := List.mem_filter.1 (AList.mem_lookup_iff.1 hl)
  exact ⟨of_decide_eq_true hnot, AList.mem_lookup_iff.2 hmem⟩

def minimizeRaceCorpus (m : Manager) (kept : List (Sig × RPCRaceInput)) : Manager :=
  { m with
    raceCorpus := kept
    likelyRaceCorpus := dropTrue m.likelyRaceCorpus m.trueRaceHashes }

/-- `SchedulerConnect` up to the computation of priorities; the race corpus is minimised to
the inputs `kept`. -/
def schedulerRegister (m : Manager) (n : Name) (kept : List (Sig × RPCRaceInput)) : Manager :=
  let m := minimizeRaceCorpus m kept
  { m with schedulers := update m.schedulers n (some ⟨[], [], [], ∅, [], [], []⟩) }

def likelyInputs (corpus : LikelyCorpus) : List RPCLikelyRaceInput := corpus.entries.map Sigma.snd

/-- The reply of `SchedulerConnect`. The counter is incremented before it is compared with a
hundred, so it has the first 99 likely inputs. -/
def schedulerConnectReply (m : Manager) : SchedulerConnectRes :=
  ⟨m.corpus.map Prod.snd, (likelyInputs m.likelyRaceCorpus).take 99, m.raceCorpus.map Prod.snd,
    m.raceMaxSignal, m.suppressedPairs, m.trueRaceHashes⟩

/-- The other likely inputs are sent by polls. -/
def queueLikely (m : Manager) (n : Name) : Manager :=
  { m with
    schedulers := update m.schedulers n ((m.schedulers n).map fun s =>
      { s with
        likelyRaceInputs := s.likelyRaceInputs ++ (likelyInputs m.likelyRaceCorpus).drop 99 }) }

def updateNewTrueRace (m : Manager) (finfo : FoundRaceInfo) : Manager :=
  let hsh := finfo.mempairHash
  let execInfo := execInfoOf m.mempairExecInfo hsh
  { m with
    mempairExecInfo := m.mempairExecInfo.insert hsh
      { execInfo with
        triageTrueFound := execInfo.triageExecs
        corpusTrueFound := execInfo.corpusExecs
        likelyTrueFound := execInfo.likelyExecs
        firstFoundBy := finfo.raceRunKind }
    trueRaceHashes := m.trueRaceHashes ++ [hsh]
    likelyRaceCorpus := m.likelyRaceCorpus.erase hsh }

/-- The loop over the races a scheduler has found. Nothing is ever appended to the list of
those that are new. -/
def reportRaces (m : Manager) (newFound : List MempairHash) :
    List FoundRaceInfo → Manager × List MempairHash
  | [] => (m, newFound)
  | finfo :: finfos =>
    if finfo.mempairHash ∈ m.trueRaceHashes then reportRaces m newFound finfos
    else reportRaces (updateNewTrueRace m finfo) (newFound ++ []) finfos

def addExecs (x y : RaceExecInfo) : RaceExecInfo :=
  { x with
    triageExecs := x.triageExecs + y.triageExecs
    triageTrues := x.triageTrues + y.triageTrues
    corpusExecs := x.corpusExecs + y.corpusExecs
    corpusTrues := x.corpusTrues + y.corpusTrues
    likelyExecs := x.likelyExecs + y.likelyExecs
    likelyTrues := x.likelyTrues + y.likelyTrues
    triageFailed := x.triageFailed + y.triageFailed }

def addExecInfo (m : Manager) (infos : ExecInfos) : Manager :=
  { m with
    mempairExecInfo := infos.entries.foldl
      (fun acc x => acc.insert x.1 (addExecs (execInfoOf acc x.1) x.2)) m.mempairExecInfo }

/-- `SchedulerPoll`; it is fatal for a scheduler that is not connected. -/
def schedulerPoll (m : Manager) (n : Name) (a : SchedulerPollArgs) :
    Option (Manager × SchedulerPollRes) :=
  match m.schedulers n with
  | none => none
  | some s =>
    let m := addExecInfo m a.mempairExecInfo
    let (m, newFound) := reportRaces m [] a.foundRaceInfos
    let m := { m with
      schedulers := others n
        (fun s1 => { s1 with trueRaceHashes := s1.trueRaceHashes ++ newFound }) m.schedulers }
    let newMaxSignal := diff m.maxRaceSignal a.maxSignal
    let m :=
      if empty newMaxSignal then m
      else
        { m with
          maxRaceSignal := merge m.maxRaceSignal newMaxSignal
          schedulers := others n
            (fun s1 => { s1 with newMaxSignal := merge s1.newMaxSignal newMaxSignal })
            m.schedulers }
    let (newRaceInputs, raceInputs) := popInputs s.raceInputs
    let (newLikelyRaceInputs, likelyRaceInputs) := popInputs s.likelyRaceInputs
    let (newInputs, inputs) := popInputs s.inputs
    some ({ m with
        schedulers := update m.schedulers n
          (some ⟨raceInputs, likelyRaceInputs, inputs, ∅, [], [], []⟩) },
      ⟨s.newMaxSignal, s.trueRaceHashes, newRaceInputs, newLikelyRaceInputs, newInputs,
        s.suppPairsToAdd, s.suppPairsToDel⟩)

def eraseAll (corpus : LikelyCorpus) (hashes : List MempairHash) : LikelyCorpus :=
  hashes.foldl (fun c hsh => c.erase hsh) corpus

lemma lookup_eraseAll {corpus : LikelyCorpus}
    (hl : (eraseAll corpus hs).lookup h = some inp) :
    h ∉ hs ∧ corpus.lookup h = some inp := by
  induction hs generalizing corpus with
  | nil => exact ⟨List.not_mem_nil, hl⟩
  | cons a hs ih =>
    obtain ⟨hnot, hl⟩ := ih hl
    by_cases ha : h = a
    · rw [ha, AList.lookup_erase] at hl
      cases hl
    · rw [AList.lookup_erase_ne ha] at hl
      exact ⟨List.not_mem_cons_of_ne_of_not_mem ha hnot, hl⟩

/-- Reports change the execution counters, add to the race hashes and drop their likely inputs,
and none of them is noted as new. -/
lemma reportRaces_eq (m : Manager) (newFound : List MempairHash) (fis : List FoundRaceInfo) :
    ∃ infos new, reportRaces m newFound fis =
      ({ m with
          mempairExecInfo := infos
          trueRaceHashes := m.trueRaceHashes ++ new
          likelyRaceCorpus := eraseAll m.likelyRaceCorpus new },
        newFound) := by
  induction fis generalizing m newFound with
  | nil => exact ⟨m.mempairExecInfo, [], by simp [reportRaces, eraseAll]⟩
  | cons finfo fis ih =>
    unfold reportRaces
    by_cases hmem : finfo.mempairHash ∈ m.trueRaceHashes
    · rw [if_pos hmem]
      exact ih m newFound
    · rw [if_neg hmem, List.append_nil]
      obtain ⟨infos, new, h⟩ := ih (updateNewTrueRace m finfo) newFound
      refine ⟨infos, [finfo.mempairHash] ++ new, h.trans ?_⟩
      simp only [updateNewTrueRace, List.append_assoc, eraseAll, List.singleton_append,
        List.foldl_cons]

lemma reportRaces_nodup (newFound : List MempairHash) (fis : List FoundRaceInfo)
    (h : m.trueRaceHashes.Nodup) : (reportRaces m newFound fis).1.trueRaceHashes.Nodup := by
  induction fis generalizing m newFound with
  | nil => exact h
  | cons finfo fis ih =>
    unfold reportRaces
    by_cases hmem : finfo.mempairHash ∈ m.trueRaceHashes
    · rw [if_pos hmem]
      exact ih newFound h
    · rw [if_neg hmem]
      refine ih _ ?_
      rw [updateNewTrueRace, List.nodup_append_comm]
      exact List.nodup_cons.2 ⟨hmem, h⟩

lemma mem_reportRaces {newFound : List MempairHash} {fis : List FoundRaceInfo} :
    h ∈ (reportRaces m newFound fis).1.trueRaceHashes ↔
      h ∈ m.trueRaceHashes ∨ ∃ f ∈ fis, f.mempairHash = h := by
  induction fis generalizing m newFound with
  | nil => simp [reportRaces]
  | cons f fis ih =>
    unfold reportRaces
    split
    case isTrue hf =>
      have hor : f.mempairHash = h → h ∈ m.trueRaceHashes := fun heq => heq ▸ hf
      rw [ih, List.exists_mem_cons_iff]
      tauto
    case isFalse =>
      rw [ih, updateNewTrueRace, List.mem_append, List.mem_singleton, List.exists_mem_cons_iff,
        eq_comm]
      exact or_assoc

/-- What the manager does to the counters and to the true races when it handles a poll. -/
lemma schedulerPoll_infos {a : SchedulerPollArgs} {r : SchedulerPollRes}
    (h : schedulerPoll m n a = some (m', r)) :
    m'.mempairExecInfo =
        (reportRaces (addExecInfo m a.mempairExecInfo) [] a.foundRaceInfos).1.mempairExecInfo ∧
      m'.trueRaceHashes =
        (reportRaces (addExecInfo m a.mempairExecInfo) [] a.foundRaceInfos).1.trueRaceHashes := by
  unfold schedulerPoll at h
  split at h
  · cases h
  · simp only [Option.some.injEq, Prod.mk.injEq] at h
    obtain ⟨rfl, -⟩ := h
    constructor <;> split <;> rfl

lemma schedulerPoll_some (h : (m.schedulers n).isSome) (a : SchedulerPollArgs) :
    ∃ m' r, schedulerPoll m n a = some (m', r) := by
  obtain ⟨s, hs⟩ := Option.isSome_iff_exists.1 h
  exact ⟨_, _, by rw [schedulerPoll, hs]⟩

lemma mem_true_schedulerPoll {a : SchedulerPollArgs} {r : SchedulerPollRes}
    (hp : schedulerPoll m n a = some (m', r)) :
    h ∈ m'.trueRaceHashes ↔
      h ∈ m.trueRaceHashes ∨ ∃ f ∈ a.foundRaceInfos, f.mempairHash = h := by
  rw [(schedulerPoll_infos hp).2, mem_reportRaces]
  rfl

/-- **What a poll of a scheduler does.** -/
lemma schedulerPoll_eq {a : SchedulerPollArgs} {r : SchedulerPollRes}
    (h : schedulerPoll m n a = some (m', r)) :
    ∃ s infos new, m.schedulers n = some s ∧
      (m.trueRaceHashes.Nodup → (m.trueRaceHashes ++ new).Nodup) ∧
      m' = { m with
        mempairExecInfo := infos
        trueRaceHashes := m.trueRaceHashes ++ new
        likelyRaceCorpus := eraseAll m.likelyRaceCorpus new
        maxRaceSignal := merge m.maxRaceSignal (diff m.maxRaceSignal a.maxSignal)
        schedulers := update (others n (fun s1 => { s1 with
          newMaxSignal := merge s1.newMaxSignal (diff m.maxRaceSignal a.maxSignal) })
        m.schedulers) n
          (some ⟨(popInputs s.raceInputs).2, (popInputs s.likelyRaceInputs).2,
            (popInputs s.inputs).2, ∅, [], [], []⟩) } ∧
      r = ⟨s.newMaxSignal, s.trueRaceHashes, (popInputs s.raceInputs).1,
        (popInputs s.likelyRaceInputs).1, (popInputs s.inputs).1, s.suppPairsToAdd,
        s.suppPairsToDel⟩ := by
  unfold schedulerPoll at h
  cases hs : m.schedulers n with
  | none => simp [hs] at h
  | some s =>
    obtain ⟨infos, new, hrep⟩ :=
      reportRaces_eq (addExecInfo m a.mempairExecInfo) [] a.foundRaceInfos
    have hnd : m.trueRaceHashes.Nodup → (m.trueRaceHashes ++ new).Nodup := fun hm => by
      have := reportRaces_nodup (m := addExecInfo m a.mempairExecInfo) [] a.foundRaceInfos hm
      rwa [hrep] at this
    simp only [hs, hrep, List.append_nil, others_id, some.injEq, Prod.mk.injEq] at h
    obtain ⟨rfl, rfl⟩ := h
    refine ⟨s, infos, new, rfl, hnd, ?_, rfl⟩
    by_cases he : empty (diff m.maxRaceSignal a.maxSignal)
    · simp only [addExecInfo, he, if_true, merge_of_empty _ he, others_id]
    · simp only [addExecInfo, he, Bool.false_eq_true, if_false]

def mergeRaceInput (corpus : List (Sig × RPCRaceInput)) (sig : Sig) (rinp : RPCRaceInput) :
    List (Sig × RPCRaceInput) :=
  corpus.map fun x =>
    if x.1 = sig then (sig, { x.2 with signal := merge rinp.signal x.2.signal }) else x

/-- `NewRaceInput`; `sig` is the signature of the input's program and race info. -/
def newRaceInput (m : Manager) (n : Name) (sig : Sig) (rinp : RPCRaceInput) : Option Manager :=
  match m.schedulers n with
  | none => none
  | some _ =>
    if empty (diff m.raceCorpusSignal rinp.signal) then some m
    else
      let m := { m with raceCorpusSignal := merge m.raceCorpusSignal rinp.signal }
      match m.raceCorpus.find? fun x => x.1 == sig with
      | some _ => some { m with raceCorpus := mergeRaceInput m.raceCorpus sig rinp }
      | none =>
        some { m with
          raceCorpus := m.raceCorpus ++ [(sig, rinp)]
          schedulers := others n (fun s1 => { s1 with raceInputs := s1.raceInputs ++ [rinp] })
            m.schedulers }

def sharingRace (m : Manager) (n : Name) (corpus : List (Sig × RPCRaceInput)) (signal : Signal)
    (rinputs : List RPCRaceInput) : Manager :=
  { m with
    raceCorpus := corpus
    raceCorpusSignal := signal
    schedulers := others n (fun s1 => { s1 with raceInputs := s1.raceInputs ++ rinputs })
      m.schedulers }

lemma sharingRace_nil (corpus : List (Sig × RPCRaceInput)) (signal : Signal) :
    sharingRace m n corpus signal [] =
      { m with raceCorpus := corpus, raceCorpusSignal := signal } := by
  simp only [sharingRace, List.append_nil, others_id]

lemma newRaceInput_eq (h : newRaceInput m n sig rinp = some m') :
    ∃ corpus signal rinputs, m' = sharingRace m n corpus signal rinputs := by
  unfold newRaceInput at h
  split at h
  · cases h
  · split at h
    · cases h
      exact ⟨_, _, [], (sharingRace_nil ..).symm⟩
    · simp only at h
      split at h <;> cases h
      · exact ⟨_, _, [], (sharingRace_nil ..).symm⟩
      · exact ⟨_, _, [rinp], rfl⟩

/-- An input that is present is replaced when the `coin` says so. -/
def shouldUpdate (m : Manager) (hsh : MempairHash) (coin : Bool) : Bool :=
  if hsh ∈ m.likelyRaceCorpus then coin else true

/-- `NewLikelyRaceInput`, without the database. -/
def newLikelyRaceInput (m : Manager) (n : Name) (inp : RPCLikelyRaceInput) (coin : Bool) :
    Option Manager :=
  let hsh := inp.raceInfo.hash
  match m.schedulers n with
  | none => none
  | some _ =>
    if hsh ∈ m.trueRaceHashes then some m
    else
      if shouldUpdate m hsh coin then
        some { m with
          likelyRaceCorpus := m.likelyRaceCorpus.insert hsh inp
          schedulers := others n
            (fun s1 => { s1 with likelyRaceInputs := s1.likelyRaceInputs ++ [inp] }) m.schedulers }
      else some m

def StoresLikely (m : Manager) (inp : RPCLikelyRaceInput) (coin : Bool) : Prop :=
  inp.raceInfo.hash ∉ m.trueRaceHashes ∧ shouldUpdate m inp.raceInfo.hash coin = true

instance (m : Manager) (inp : RPCLikelyRaceInput) (coin : Bool) :
    Decidable (StoresLikely m inp coin) := inferInstanceAs (Decidable (_ ∧ _))

lemma newLikelyRaceInput_eq (h : newLikelyRaceInput m n inp coin = some m') :
    ¬ StoresLikely m inp coin ∧ m' = m ∨ StoresLikely m inp coin ∧
      m' = { m with
        likelyRaceCorpus := m.likelyRaceCorpus.insert inp.raceInfo.hash inp
        schedulers := others n
          (fun s1 => { s1 with likelyRaceInputs := s1.likelyRaceInputs ++ [inp] })
          m.schedulers } := by
  unfold newLikelyRaceInput at h
  simp only at h
  split at h
  case h_1 => cases h
  case h_2 =>
  split at h
  case isTrue htr =>
    cases h
    exact .inl ⟨fun hst => hst.1 htr, rfl⟩
  case isFalse htr =>
  split at h
  case isTrue hup =>
    cases h
    exact .inr ⟨⟨htr, hup⟩, rfl⟩
  case isFalse hup =>
    cases h
    exact .inl ⟨fun hst => hup hst.2, rfl⟩

lemma lookup_newLikelyRaceInput {a : MempairHash} (h : newLikelyRaceInput m n inp coin = some m')
    (hl : m'.likelyRaceCorpus.lookup a = some x) :
    m.likelyRaceCorpus.lookup a = some x ∧ (StoresLikely m inp coin → a ≠ inp.raceInfo.hash) ∨
      StoresLikely m inp coin ∧ a = inp.raceInfo.hash ∧ x = inp := by
  rcases newLikelyRaceInput_eq h with ⟨hst, rfl⟩ | ⟨hst, rfl⟩
  · exact .inl ⟨hl, fun h => absurd h hst⟩
  · by_cases ha : a = inp.raceInfo.hash
    · rw [ha, AList.lookup_insert] at hl
      cases hl
      exact .inr ⟨hst, ha, rfl⟩
    · rw [AList.lookup_insert_ne ha] at hl
      exact .inl ⟨hl, fun _ => ha⟩

end Razzer.SyzManager
