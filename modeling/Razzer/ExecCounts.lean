import Razzer.Cluster

/-!
Execution counters of a pair, at the time it is recorded as a true race.

A scheduler has two threads. The worker executes programs: it puts a race it finds into a list
and counts the execution. For a candidate these are two steps, and for a program of one of the
corpora they are one. The other thread polls the manager: it takes the list of races first and
the counters afterwards. The manager adds the counters, and for a race that is new it stores
what they are.

The fields of the state that begin with `found`, `counted` and `included` only record: they say
which executions are behind the races and the counters.
-/

namespace Razzer.ExecCounts

open SyzManager Runs Cluster List Function

/-- An execution on a pair: of which kind it is, and its number. -/
structure Exec where
  hash : MempairHash
  kind : RaceRunKind
  nr : ℕ
  deriving DecidableEq

def Exec.info (x : Exec) : FoundRaceInfo := ⟨x.hash, x.kind⟩

def execCount : RaceRunKind → RaceExecInfo → ℕ
  | .none, _ => 0
  | .triage, info => info.triageExecs
  | .corpus, info => info.corpusExecs
  | .likely, info => info.likelyExecs

/-- The executions of a kind that are stored as those until the race was found. -/
def foundCount : RaceRunKind → RaceExecInfo → ℕ
  | .none, _ => 0
  | .triage, info => info.triageTrueFound
  | .corpus, info => info.corpusTrueFound
  | .likely, info => info.likelyTrueFound

def countOf (l : List Exec) (h : MempairHash) (k : RaceRunKind) : ℕ :=
  l.countP fun x => decide (x.hash = h ∧ x.kind = k)

def Counts (l : List Exec) (infos : ExecInfos) : Prop :=
  ∀ h k, countOf l h k ≤ execCount k (execInfoOf infos h)

/-! ### Counters -/

lemma execInfoOf_insert (m : ExecInfos) (a h : MempairHash) (x : RaceExecInfo) :
    execInfoOf (m.insert a x) h = if h = a then x else execInfoOf m h := by
  unfold execInfoOf
  by_cases ha : h = a
  · rw [ha, AList.lookup_insert, if_pos rfl, Option.getD_some]
  · rw [AList.lookup_insert_ne ha, if_neg ha]

lemma execCount_addExecs (k : RaceRunKind) (x y : RaceExecInfo) :
    execCount k (addExecs x y) = execCount k x + execCount k y := by
  cases k <;> rfl

lemma execInfoOf_foldl {l : List (Sigma fun _ : MempairHash => RaceExecInfo)} (hl : l.NodupKeys)
    (acc : ExecInfos) (h : MempairHash) :
    execInfoOf (l.foldl (fun acc x => acc.insert x.1 (addExecs (execInfoOf acc x.1) x.2)) acc) h =
      addExecs (execInfoOf acc h) ((l.dlookup h).getD noExecs) := by
  induction l generalizing acc with
  | nil => rfl
  | cons x l ih =>
    obtain ⟨hx, hl⟩ := nodupKeys_cons.1 hl
    rw [foldl_cons, ih hl, execInfoOf_insert]
    by_cases hh : h = x.1
    · subst hh
      rw [if_pos rfl, dlookup_eq_none.2 hx, dlookup_cons_eq]
      rfl
    · rw [if_neg hh, dlookup_cons_ne _ _ hh]

lemma execInfoOf_addExecInfo (m : Manager) (is : ExecInfos) (h : MempairHash) :
    execInfoOf (addExecInfo m is).mempairExecInfo h =
      addExecs (execInfoOf m.mempairExecInfo h) (execInfoOf is h) :=
  execInfoOf_foldl is.nodupKeys _ h

lemma countOf_append (l l' : List Exec) (h : MempairHash) (k : RaceRunKind) :
    countOf (l ++ l') h k = countOf l h k + countOf l' h k :=
  countP_append ..

variable {l found : List Exec} {m : Manager} {h : MempairHash} {a : SchedulerPollArgs} {n : Name}
  {s t : State} {e : Ev}

variable {l' : List Exec} {f : FoundRaceInfo} {nr : ℕ} {kind : RaceRunKind} {proc : SchedulerProc}

lemma counts_addExecInfo {is : ExecInfos} (h : Counts l m.mempairExecInfo) (h' : Counts l' is) :
    Counts (l ++ l') (addExecInfo m is).mempairExecInfo := by
  intro a k
  rw [execInfoOf_addExecInfo, execCount_addExecs, countOf_append]
  exact Nat.add_le_add (h a k) (h' a k)

lemma Counts.snoc {is : ExecInfos} (h : Counts l is) (x : Exec) {one : RaceExecInfo}
    (hone : 1 ≤ execCount x.kind one) :
    Counts (l ++ [x]) (is.insert x.hash (addExecs (execInfoOf is x.hash) one)) := by
  intro a k
  rw [countOf_append, execInfoOf_insert]
  by_cases ha : a = x.hash
  · rw [if_pos ha, execCount_addExecs, ha]
    refine Nat.add_le_add (h x.hash k) ?_
    by_cases hk : x.kind = k
    · rw [← hk]
      exact (countP_le_length).trans hone
    · simp [countOf, hk]
  · have hnn : countOf [x] a k = 0 := by simp [countOf, Ne.symm ha]
    rw [if_neg ha, hnn]
    exact h a k

variable {x : Exec}

lemma one_le_countOf (h : x ∈ l) : 1 ≤ countOf l x.hash x.kind :=
  one_le_countP_iff.2 ⟨x, h, by simp⟩

/-! ### Reports -/

def foundBy (kind : RaceRunKind) (info : RaceExecInfo) : RaceExecInfo :=
  { info with
    triageTrueFound := info.triageExecs
    corpusTrueFound := info.corpusExecs
    likelyTrueFound := info.likelyExecs
    firstFoundBy := kind }

lemma forall_reportRaces {P : MempairHash → RaceExecInfo → Prop}
    (hP : ∀ h info kind, P h info → P h (foundBy kind info))
    (hm : ∀ h, P h (execInfoOf m.mempairExecInfo h)) (new : List MempairHash)
    (fis : List FoundRaceInfo) (h : MempairHash) :
    P h (execInfoOf (reportRaces m new fis).1.mempairExecInfo h) := by
  induction fis generalizing m new with
  | nil => exact hm h
  | cons f fis ih =>
    unfold reportRaces
    split
    · exact ih hm new
    · refine ih (fun h => ?_) _
      rw [updateNewTrueRace, execInfoOf_insert]
      split
      case isTrue hh => exact hP h _ _ (hh ▸ hm h)
      case isFalse => exact hm h

lemma execCount_reportRaces (m : Manager) (new : List MempairHash) (fis : List FoundRaceInfo)
    (h : MempairHash) (k : RaceRunKind) :
    execCount k (execInfoOf (reportRaces m new fis).1.mempairExecInfo h) =
      execCount k (execInfoOf m.mempairExecInfo h) := by
  refine forall_reportRaces (P := fun h info => execCount k info =
    execCount k (execInfoOf m.mempairExecInfo h)) (fun h info kind hc => hc ▸ ?_) (fun _ => rfl) ..
  cases k <;> rfl

lemma execInfoOf_reportRaces_of_mem (new : List MempairHash) (fis : List FoundRaceInfo)
    (hh : h ∈ m.trueRaceHashes) :
    execInfoOf (reportRaces m new fis).1.mempairExecInfo h = execInfoOf m.mempairExecInfo h := by
  induction fis generalizing m new with
  | nil => rfl
  | cons f fis ih =>
    unfold reportRaces
    split
    case isTrue => exact ih new hh
    case isFalse hf =>
    have hne : h ≠ f.mempairHash := fun heq => hf (heq ▸ hh)
    rw [ih _ (mem_append_left _ hh), updateNewTrueRace, execInfoOf_insert, if_neg hne]

variable {fis : List FoundRaceInfo}

/-- **What is stored for a race that is new**: the counters, and the kind of its first report. -/
lemma execInfoOf_reportRaces (new : List MempairHash)
    (hh : h ∉ m.trueRaceHashes) (hf : fis.find? (fun f => f.mempairHash == h) = some f) :
    ∃ info, execInfoOf (reportRaces m new fis).1.mempairExecInfo h = info ∧
      info.firstFoundBy = f.raceRunKind ∧
      ∀ k, foundCount k info = execCount k (execInfoOf m.mempairExecInfo h) := by
  induction fis generalizing m new with
  | nil => cases hf
  | cons g fis ih =>
    unfold reportRaces
    by_cases hg : g.mempairHash = h
    · -- the first report: later ones find the hash among the true races
      obtain rfl : g = f := by simpa [find?_cons, hg] using hf
      rw [if_neg (hg ▸ hh)]
      have hmem : h ∈ (updateNewTrueRace m g).trueRaceHashes := by
        simp [updateNewTrueRace, hg]
      refine ⟨_, execInfoOf_reportRaces_of_mem _ fis hmem, ?_, fun k => ?_⟩
      · rw [updateNewTrueRace, execInfoOf_insert, if_pos hg.symm]
      · rw [updateNewTrueRace, execInfoOf_insert, if_pos hg.symm, hg]
        cases k <;> rfl
    · have hf : fis.find? (fun f => f.mempairHash == h) = some f := by
        simpa [find?_cons, hg] using hf
      split
      · exact ih new hh hf
      · have hnot : h ∉ (updateNewTrueRace m g).trueRaceHashes := by
          simp [updateNewTrueRace, hh, Ne.symm hg]
        obtain ⟨info, hif, hkn, hcn⟩ := ih (new ++ []) hnot hf
        refine ⟨info, hif, hkn, fun k => (hcn k).trans ?_⟩
        rw [updateNewTrueRace, execInfoOf_insert, if_neg (Ne.symm hg)]

/-! ### Schedulers -/

/-- The worker: between finding a race and counting the execution, or about to write back the
counters of a program that was given up in triage. -/
inductive Worker
  | idle
  | counting (h : MempairHash) (nr : ℕ) (isRace : Bool)
  | failing (h : MempairHash) (info : RaceExecInfo)

inductive Poll
  | idle
  | tookFound (finfos : List FoundRaceInfo) (found : List Exec)
  | asking (a : SchedulerPollArgs) (found counted : List Exec)
  | answered (r : SchedulerPollRes)

structure Sched where
  proc : SchedulerProc
  found : List Exec
  counted : List Exec
  worker : Worker
  poll : Poll

/-- The execution the worker has not counted yet. -/
def Worker.owes : Worker → Option Exec
  | .counting h nr _ => some ⟨h, .triage, nr⟩
  | _ => none

def updateTrueRaceInfo (x : Exec) (s : Sched) : Sched :=
  { s with
    proc := s.proc.updateTrueRaceInfo x.hash x.kind
    found := if x.hash ∈ s.proc.trueRaceHashesMap then s.found else s.found ++ [x] }

def oneExec (kind : RaceRunKind) (isRace : Bool) : RaceExecInfo :=
  let trues := if isRace then 1 else 0
  match kind with
  | .none => noExecs
  | .triage => { noExecs with triageExecs := 1, triageTrues := trues }
  | .corpus => { noExecs with corpusExecs := 1, corpusTrues := trues }
  | .likely => { noExecs with likelyExecs := 1, likelyTrues := trues }

def countExec (x : Exec) (isRace : Bool) (s : Sched) : Sched :=
  { s with
    proc := s.proc.countExecs x.hash (oneExec x.kind isRace)
    counted := s.counted ++ [x] }

def executeCandidate (h : MempairHash) (nr : ℕ) (isRace : Bool) (s : Sched) : Option Sched :=
  match s.worker with
  | .idle =>
    let s := if isRace then updateTrueRaceInfo ⟨h, .triage, nr⟩ s else s
    some { s with worker := .counting h nr isRace }
  | _ => none

def countCandidate (s : Sched) : Option Sched :=
  match s.worker with
  | .counting h nr isRace =>
    some { countExec ⟨h, .triage, nr⟩ isRace s with worker := .idle }
  | _ => none

def updateExecInfo (h : MempairHash) (nr : ℕ) (isLikelyCorpus isRace : Bool) (s : Sched) :
    Option Sched :=
  match s.worker with
  | .idle =>
    let x : Exec := ⟨h, if isLikelyCorpus then .likely else .corpus, nr⟩
    let s := if isRace then updateTrueRaceInfo x s else s
    some (countExec x isRace s)
  | _ => none

/-- The end of `triageInput` for a program that is given up reads the counters and writes them
back without a lock. -/
def failRead (h : MempairHash) (s : Sched) : Option Sched :=
  match s.worker with
  | .idle => some { s with worker := .failing h (execInfoOf s.proc.mempairExecInfo h) }
  | _ => none

def failWrite (s : Sched) : Option Sched :=
  match s.worker with
  | .failing h info =>
    some { s with
      proc := { s.proc with
        mempairExecInfo :=
          s.proc.mempairExecInfo.insert h { info with triageFailed := info.triageFailed + 1 } }
      worker := .idle }
  | _ => none

def grabFoundRace (s : Sched) : Option Sched :=
  match s.poll with
  | .idle =>
    some { s with
      proc := { s.proc with foundRaceToUpdate := [] }
      found := []
      poll := .tookFound s.proc.foundRaceToUpdate s.found }
  | _ => none

def grabExecInfo (s : Sched) : Option Sched :=
  match s.poll with
  | .tookFound finfos found =>
    some { s with
      proc := { s.proc with newSignal := ∅, mempairExecInfo := ∅ }
      counted := []
      poll := .asking ⟨s.proc.newSignal, finfos, s.proc.mempairExecInfo⟩ found s.counted }
  | _ => none

def finishPoll (s : Sched) : Option Sched :=
  match s.poll with
  | .answered r => some { s with proc := s.proc.finishPoll r, poll := .idle }
  | _ => none

/-! ### The system -/

/-- A scheduler that is down, waits for its connect reply, has it, or is up. -/
inductive Link
  | down
  | registered
  | welcomed (r : SchedulerConnectRes)
  | up (s : Sched)

/-- The manager, the schedulers, the executions whose counters the manager has, and the number
of the next execution. -/
structure State where
  mgr : Manager
  scheds : Name → Link
  included : List Exec
  next : ℕ

inductive Ev
  | register (n : Name) (kept : List (Sig × RPCRaceInput))
  | reply (n : Name)
  | init (n : Name)
  | executeCandidate (n : Name) (h : MempairHash) (isRace : Bool)
  | countCandidate (n : Name)
  | updateExecInfo (n : Name) (h : MempairHash) (isLikelyCorpus isRace : Bool)
  | failRead (n : Name) (h : MempairHash)
  | failWrite (n : Name)
  | grabFoundRace (n : Name)
  | grabExecInfo (n : Name)
  | schedulerPoll (n : Name)
  | finishPoll (n : Name)

def State.setSched (s : State) (n : Name) (l : Link) : State :=
  { s with scheds := update s.scheds n l }

def regionOf (next : ℕ) : Ev → Option (Name × (Sched → Option Sched))
  | .executeCandidate n h isRace => some (n, executeCandidate h next isRace)
  | .countCandidate n => some (n, countCandidate)
  | .updateExecInfo n h isLikelyCorpus isRace =>
    some (n, updateExecInfo h next isLikelyCorpus isRace)
  | .failRead n h => some (n, failRead h)
  | .failWrite n => some (n, failWrite)
  | .grabFoundRace n => some (n, grabFoundRace)
  | .grabExecInfo n => some (n, grabExecInfo)
  | .finishPoll n => some (n, finishPoll)
  | _ => none

def stepRegion (s : State) (e : Ev) : Option State :=
  (regionOf s.next e).bind fun (n, f) =>
    match s.scheds n with
    | .up x => (f x).map fun x => { s.setSched n (.up x) with next := s.next + 1 }
    | _ => none

def step (s : State) : Ev → Option State
  | .register n kept =>
    some { s.setSched n .registered with mgr := schedulerRegister s.mgr n kept }
  | .reply n =>
    match s.scheds n with
    | .registered =>
      some { s.setSched n (.welcomed (schedulerConnectReply s.mgr)) with
        mgr := queueLikely s.mgr n }
    | _ => none
  | .init n =>
    match s.scheds n with
    | .welcomed r => some (s.setSched n (.up ⟨schedulerInit r, [], [], .idle, .idle⟩))
    | _ => none
  | .schedulerPoll n =>
    match s.scheds n with
    | .up ⟨proc, found, counted, worker, .asking a _ pollCounted⟩ =>
      (schedulerPoll s.mgr n a).map fun (mgr, r) =>
        { s.setSched n (.up ⟨proc, found, counted, worker, .answered r⟩) with
          mgr := mgr
          included := s.included ++ pollCounted }
    | _ => none
  | e => stepRegion s e

def start : State := ⟨SyzManager.init, fun _ => .down, [], 0⟩

/-- For every race that a poll makes new, the counters that are stored include the execution that
found it: it was counted, and the stored count of its kind is not zero. -/
def Included (s : State) (e : Ev) : Prop :=
  ∀ n x a found counted t, e = .schedulerPoll n → s.scheds n = .up x →
    x.poll = .asking a found counted → step s e = some t →
    ∀ h, h ∉ s.mgr.trueRaceHashes → h ∈ t.mgr.trueRaceHashes →
      ∃ y ∈ found, y.hash = h ∧ y ∈ t.included ∧
        (execInfoOf t.mgr.mempairExecInfo h).firstFoundBy = y.kind ∧
        1 ≤ foundCount y.kind (execInfoOf t.mgr.mempairExecInfo h)

/-- The worker has yet to count a race that the poll has taken. -/
def Sched.early (x : Sched) : Bool :=
  match x.poll, x.worker.owes with
  | .tookFound _ found, some y => decide (y ∈ found)
  | _, _ => false

/-- The counters are taken while a race that was taken before is not counted yet. -/
def takesEarly (s : State) : Ev → Bool
  | .grabExecInfo n =>
    match s.scheds n with
    | .up x => x.early
    | _ => false
  | _ => false

/-! ### What holds of a scheduler -/

def Poll.counted : Poll → List Exec
  | .asking _ _ counted => counted
  | _ => []

/-- The execution is counted somewhere on the way to the manager, or the worker is about to count
it. -/
def Kept (included : List Exec) (x : Sched) (y : Exec) : Prop :=
  y ∈ included ∨ y ∈ x.poll.counted ∨ y ∈ x.counted ∨ x.worker.owes = some y

/-- What holds of the poll: the races taken are kept, and once the counters are taken as well, those
that the manager does not have yet are among these. -/
def PollInv (included : List Exec) (x : Sched) : Poll → Prop
  | .tookFound finfos found =>
    finfos = found.map Exec.info ∧ ∀ y ∈ found, Kept included x y
  | .asking a found counted =>
    a.foundRaceInfos = found.map Exec.info ∧ Counts counted a.mempairExecInfo ∧
      ∀ y ∈ found, y ∈ included ∨ y ∈ counted
  | _ => True

structure SchedInv (included : List Exec) (x : Sched) : Prop where
  infos : x.proc.foundRaceToUpdate = x.found.map Exec.info
  counts : Counts x.counted x.proc.mempairExecInfo
  failing : ∀ h info, x.worker = .failing h info → ∀ k, countOf x.counted h k ≤ execCount k info
  found : ∀ y ∈ x.found, Kept included x y
  poll : PollInv included x x.poll

variable {counted included included' pollCounted pollFound : List Exec} {x x' : Sched} {y : Exec}

lemma PollInv.mono {p : Poll} (h : PollInv included x p) (hsub : included ⊆ included')
    (hkp : ∀ y, Kept included x y → Kept included' x' y) : PollInv included' x' p := by
  cases p with
  | tookFound finfos found => exact ⟨h.1, fun y hy => hkp y (h.2 y hy)⟩
  | asking a found counted => exact ⟨h.1, h.2.1, fun y hy => (h.2.2 y hy).imp_left (@hsub y)⟩
  | _ => trivial

lemma SchedInv.mono (h : SchedInv included x)
    (hsub : included ⊆ included') : SchedInv included' x := by
  have hkp : ∀ y, Kept included x y → Kept included' x y := fun y => Or.imp_left (@hsub y)
  exact ⟨h.infos, h.counts, h.failing, fun y hy => hkp y (h.found y hy), h.poll.mono hsub hkp⟩

/-- The worker, which has counted all it has executed, takes a step. -/
lemma Kept.work (h : Kept included x y) (how : x.worker.owes = none) (hpl : x'.poll = x.poll)
    (hcn : x.counted ⊆ x'.counted) : Kept included x' y := by
  rcases h with h | h | h | h
  · exact .inl h
  · exact .inr (.inl (hpl ▸ h))
  · exact .inr (.inr (.inl (hcn h)))
  · cases how.symm.trans h

lemma SchedInv.work (hi : SchedInv included x) (hpl : x'.poll = x.poll)
    (hkp : ∀ y, Kept included x y → Kept included x' y)
    (his : x'.proc.foundRaceToUpdate = x'.found.map Exec.info)
    (hcn : Counts x'.counted x'.proc.mempairExecInfo)
    (hfl : ∀ h info, x'.worker = .failing h info → ∀ k, countOf x'.counted h k ≤ execCount k info)
    (hfn : ∀ y ∈ x'.found, y ∈ x.found ∨ Kept included x' y) : SchedInv included x' := by
  refine ⟨his, hcn, hfl, fun y hy => ?_, hpl ▸ hi.poll.mono (Subset.refl _) hkp⟩
  rcases hfn y hy with hy | hy
  · exact hkp y (hi.found y hy)
  · exact hy

/-! ### The regions -/

lemma found_eq (isRace : Bool) (y : Exec) (x : Sched) : ∃ proc found,
    (if isRace then updateTrueRaceInfo y x else x) = { x with proc := proc, found := found } ∧
      proc.mempairExecInfo = x.proc.mempairExecInfo ∧
      (x.proc.foundRaceToUpdate = x.found.map Exec.info →
        proc.foundRaceToUpdate = found.map Exec.info) ∧
      ∀ z ∈ found, z ∈ x.found ∨ z = y := by
  cases isRace with
  | false => exact ⟨x.proc, x.found, rfl, rfl, id, fun z => .inl⟩
  | true =>
    rw [if_pos rfl]
    by_cases hy : y.hash ∈ x.proc.trueRaceHashesMap
    · refine ⟨x.proc, x.found, ?_, rfl, id, fun z => .inl⟩
      simp only [updateTrueRaceInfo, SchedulerProc.updateTrueRaceInfo, if_pos hy]
    · refine ⟨_, _, rfl, ?_, fun h => ?_, fun z hz => ?_⟩
      · simp only [SchedulerProc.updateTrueRaceInfo, if_neg hy]
      · simp only [SchedulerProc.updateTrueRaceInfo, if_neg hy, h, map_append,
          map_singleton, Exec.info]
      · rw [if_neg hy] at hz
        simpa using hz

lemma SchedInv.executeCandidate {isRace : Bool} (hi : SchedInv included x)
    (hx : executeCandidate h nr isRace x = some x') : SchedInv included x' := by
  unfold ExecCounts.executeCandidate at hx
  split at hx
  case h_2 => cases hx
  case h_1 hil =>
  obtain ⟨proc, found, heq, hif, his, hfn⟩ := found_eq isRace ⟨h, .triage, nr⟩ x
  simp only [heq] at hx
  cases hx
  have how : x.worker.owes = none := by rw [hil]; rfl
  refine hi.work rfl (fun y hy => hy.work how rfl (Subset.refl _)) (his hi.infos) (hif ▸ hi.counts)
    (fun _ _ hw => by cases hw) fun y hy => ?_
  rcases hfn y hy with hy | rfl
  · exact .inl hy
  · exact .inr (.inr (.inr (.inr rfl)))

lemma one_le_oneExec (hkn : kind ≠ .none) (isRace : Bool) :
    1 ≤ execCount kind (oneExec kind isRace) := by
  cases kind with
  | none => exact absurd rfl hkn
  | _ => exact le_refl 1

lemma SchedInv.countCandidate (hi : SchedInv included x) (hx : countCandidate x = some x') :
    SchedInv included x' := by
  unfold ExecCounts.countCandidate at hx
  split at hx
  case h_2 => cases hx
  case h_1 h nr isRace hw =>
  cases hx
  refine hi.work rfl ?_ hi.infos (hi.counts.snoc ⟨h, .triage, nr⟩ (one_le_oneExec (by simp) isRace))
    (fun _ _ hw => by cases hw) fun _ => .inl
  rintro y (hy | hy | hy | hy)
  · exact .inl hy
  · exact .inr (.inl hy)
  · exact .inr (.inr (.inl (mem_append_left _ hy)))
  · rw [hw] at hy
    cases hy
    exact .inr (.inr (.inl (mem_append_right _ mem_cons_self)))

lemma SchedInv.updateExecInfo {likely isRace : Bool} (hi : SchedInv included x)
    (hx : updateExecInfo h nr likely isRace x = some x') : SchedInv included x' := by
  unfold ExecCounts.updateExecInfo at hx
  split at hx
  case h_2 => cases hx
  case h_1 hil =>
  set y : Exec := ⟨h, if likely then .likely else .corpus, nr⟩ with hyd
  obtain ⟨proc, found, heq, hif, his, hfn⟩ := found_eq isRace y x
  simp only [heq] at hx
  cases hx
  have how : x.worker.owes = none := by rw [hil]; rfl
  have hkn : y.kind ≠ .none := by
    rw [hyd]
    cases likely <;> simp
  refine hi.work rfl (fun z hz => hz.work how rfl (subset_append_left _ _)) (his hi.infos) ?_
    (fun a info hw => ?_) fun z hz => ?_
  · exact (hif ▸ hi.counts : Counts x.counted proc.mempairExecInfo).snoc y
      (one_le_oneExec hkn isRace)
  · have hw : x.worker = .failing a info := hw
    rw [hil] at hw
    cases hw
  · rcases hfn z hz with hz | rfl
    · exact .inl hz
    · exact .inr (.inr (.inr (.inl (mem_append_right _ mem_cons_self))))

lemma SchedInv.failRead (hi : SchedInv included x) (hx : failRead h x = some x') :
    SchedInv included x' := by
  unfold ExecCounts.failRead at hx
  split at hx
  case h_2 => cases hx
  case h_1 hil =>
  cases hx
  have how : x.worker.owes = none := by rw [hil]; rfl
  refine hi.work rfl (fun y hy => hy.work how rfl (Subset.refl _)) hi.infos hi.counts
    (fun a info hw k => ?_) fun _ => .inl
  cases hw
  exact hi.counts h k

lemma SchedInv.failWrite (hi : SchedInv included x) (hx : failWrite x = some x') :
    SchedInv included x' := by
  unfold ExecCounts.failWrite at hx
  split at hx
  case h_2 => cases hx
  case h_1 h info hw =>
  cases hx
  have how : x.worker.owes = none := by rw [hw]; rfl
  refine hi.work rfl (fun y hy => hy.work how rfl (Subset.refl _)) hi.infos (fun a k => ?_)
    (fun _ _ hw => by cases hw) fun _ => .inl
  -- what is written back is at least what was counted when it was read
  rw [execInfoOf_insert]
  by_cases ha : a = h
  · rw [if_pos ha, ha]
    calc countOf x.counted h k ≤ execCount k info := hi.failing h info hw k
      _ = execCount k { info with triageFailed := info.triageFailed + 1 } := by cases k <;> rfl
  · rw [if_neg ha]
    exact hi.counts a k

lemma SchedInv.grabFoundRace (hi : SchedInv included x) (hx : grabFoundRace x = some x') :
    SchedInv included x' := by
  unfold ExecCounts.grabFoundRace at hx
  split at hx
  case h_2 => cases hx
  case h_1 hil =>
  cases hx
  refine ⟨rfl, hi.counts, hi.failing, fun y hy => (by cases hy), hi.infos, fun y hy => ?_⟩
  refine (hi.found y hy).imp_right (Or.imp_left fun hp => ?_)
  rw [hil] at hp
  cases hp

/-- The counters are taken with those of the races that were taken before, unless the worker
has yet to count one. -/
lemma SchedInv.grabExecInfo (hi : SchedInv included x) (hx : grabExecInfo x = some x')
    (her : x.early = false) : SchedInv included x' := by
  unfold ExecCounts.grabExecInfo at hx
  split at hx
  case h_2 => cases hx
  case h_1 finfos found hp =>
  cases hx
  have hpl := hi.poll
  rw [hp] at hpl
  refine ⟨hi.infos, fun h k => Nat.zero_le _, fun h info hw k => Nat.zero_le _, fun y hy => ?_,
    hpl.1, hi.counts, fun y hy => ?_⟩
  · rcases hi.found y hy with hy | hy | hy | hy
    · exact .inl hy
    · rw [hp] at hy
      cases hy
    · exact .inr (.inl hy)
    · exact .inr (.inr (.inr hy))
  · rcases hpl.2 y hy with hy' | hy' | hy' | hy'
    · exact .inl hy'
    · rw [hp] at hy'
      cases hy'
    · exact .inr hy'
    · simp [Sched.early, hp, hy', hy] at her

lemma SchedInv.finishPoll (hi : SchedInv included x) (hx : finishPoll x = some x') :
    SchedInv included x' := by
  unfold ExecCounts.finishPoll at hx
  split at hx
  case h_2 => cases hx
  case h_1 r hp =>
  cases hx
  obtain ⟨c, m, hpr⟩ := x.proc.finishPoll_eq r
  refine ⟨?_, ?_, hi.failing, fun y hy => ?_, trivial⟩
  · rw [hpr]
    exact hi.infos
  · rw [hpr]
    exact hi.counts
  · refine (hi.found y hy).imp_right (Or.imp_left fun hc => ?_)
    rw [hp] at hc
    cases hc

lemma SchedInv.answered {worker : Worker}
    (hi : SchedInv included ⟨proc, found, counted, worker, .asking a pollFound pollCounted⟩)
    (r : SchedulerPollRes) :
    SchedInv (included ++ pollCounted) ⟨proc, found, counted, worker, .answered r⟩ := by
  refine ⟨hi.infos, hi.counts, hi.failing, fun y hy => ?_, trivial⟩
  rcases hi.found y hy with hy | hy | hy | hy
  · exact .inl (mem_append_left _ hy)
  · exact .inl (mem_append_right _ hy)
  · exact .inr (.inr (.inl hy))
  · exact .inr (.inr (.inr hy))

/-! ### Runs -/

structure Inv (s : State) : Prop where
  counts : Counts s.included s.mgr.mempairExecInfo
  scheds : ∀ n x, s.scheds n = .up x → SchedInv s.included x

lemma Inv.setSched {l : Link} {mgr : Manager} {next : ℕ} (hi : Inv s)
    (hcn : Counts included mgr.mempairExecInfo) (hsub : s.included ⊆ included)
    (hl : ∀ x, l = .up x → SchedInv included x) :
    Inv ⟨mgr, (s.setSched n l).scheds, included, next⟩ := by
  refine ⟨hcn, fun k x hk => ?_⟩
  by_cases hkn : k = n
  · subst hkn
    rw [State.setSched] at hk
    simp only [update_self] at hk
    exact hl x hk
  · rw [State.setSched] at hk
    simp only [update_of_ne hkn] at hk
    exact (hi.scheds k x hk).mono hsub

lemma SchedInv.region {next : ℕ} {f : Sched → Option Sched} (hf : regionOf next e = some (n, f))
    (hn : s.scheds n = .up x) (her : takesEarly s e = false) (hi : SchedInv included x)
    (hx : f x = some x') : SchedInv included x' := by
  cases e with
  | executeCandidate k h isRace => cases hf; exact hi.executeCandidate hx
  | countCandidate k => cases hf; exact hi.countCandidate hx
  | updateExecInfo k h isLikelyCorpus isRace => cases hf; exact hi.updateExecInfo hx
  | failRead k h => cases hf; exact hi.failRead hx
  | failWrite k => cases hf; exact hi.failWrite hx
  | grabFoundRace k => cases hf; exact hi.grabFoundRace hx
  | grabExecInfo k =>
    cases hf
    exact hi.grabExecInfo hx (by simpa only [takesEarly, hn] using her)
  | finishPoll k => cases hf; exact hi.finishPoll hx
  | _ => cases hf

lemma step_schedulerPoll (h : step s (.schedulerPoll n) = some t) :
    ∃ proc found counted worker a pollFound pollCounted mgr r,
      s.scheds n = .up ⟨proc, found, counted, worker, .asking a pollFound pollCounted⟩ ∧
      schedulerPoll s.mgr n a = some (mgr, r) ∧
      t = { s.setSched n (.up ⟨proc, found, counted, worker, .answered r⟩) with
        mgr := mgr
        included := s.included ++ pollCounted } := by
  simp only [step] at h
  split at h
  case h_1 proc found counted worker a pollFound pollCounted hn =>
    obtain ⟨⟨mgr, r⟩, hp, rfl⟩ := Option.map_eq_some_iff.1 h
    exact ⟨_, _, _, _, _, _, _, _, _, hn, hp, rfl⟩
  case h_2 => cases h

lemma Inv.counts_poll (hi : Inv s) (hn : s.scheds n = .up x)
    (hp : x.poll = .asking a found counted) :
    Counts (s.included ++ counted) (addExecInfo s.mgr a.mempairExecInfo).mempairExecInfo := by
  have hpl := (hi.scheds n x hn).poll
  rw [hp] at hpl
  exact counts_addExecInfo hi.counts hpl.2.1

lemma Inv.stepRegion (hi : Inv s) (her : takesEarly s e = false) (h : stepRegion s e = some t) :
    Inv t := by
  obtain ⟨⟨n, f⟩, hf, h⟩ := Option.bind_eq_some_iff.1 h
  simp only at h
  split at h
  case h_1 x hn =>
    obtain ⟨x', hx', rfl⟩ := Option.map_eq_some_iff.1 h
    refine hi.setSched hi.counts (Subset.refl _) fun y hy => ?_
    cases hy
    exact (hi.scheds n x hn).region hf hn her hx'
  case h_2 => cases h

lemma Inv.step (hi : Inv s) (her : takesEarly s e = false) (h : step s e = some t) : Inv t := by
  cases e with
  | register n kept =>
    cases h
    exact hi.setSched hi.counts (Subset.refl _) fun x hx => by cases hx
  | reply n =>
    simp only [ExecCounts.step] at h
    split at h <;> cases h
    exact hi.setSched hi.counts (Subset.refl _) fun x hx => by cases hx
  | init n =>
    simp only [ExecCounts.step] at h
    split at h
    case h_2 => cases h
    case h_1 r hn =>
      cases h
      refine hi.setSched hi.counts (Subset.refl _) fun x hx => ?_
      cases hx
      obtain ⟨c, m, hint⟩ := schedulerInit_eq r
      rw [hint]
      exact ⟨rfl, fun h k => Nat.zero_le _, fun _ _ hw => (by cases hw),
        fun y hy => (by cases hy), trivial⟩
  | schedulerPoll n =>
    obtain ⟨proc, found, counted, worker, a, pollFound, pollCounted, mgr, r, hn, hp, rfl⟩ :=
      step_schedulerPoll h
    refine hi.setSched ?_ (subset_append_left _ _) fun x hx => ?_
    · intro b k
      rw [(schedulerPoll_infos hp).1, execCount_reportRaces]
      exact hi.counts_poll hn rfl b k
    · cases hx
      exact (hi.scheds n _ hn).answered r
  | _ => exact hi.stepRegion her h

lemma find_report (hh : ∃ f ∈ found.map Exec.info, f.mempairHash = h) :
    ∃ y ∈ found, y.hash = h ∧
      (found.map Exec.info).find? (fun f => f.mempairHash == h) = some y.info := by
  have hsm : ((found.map Exec.info).find? fun f => f.mempairHash == h).isSome := by
    rw [find?_isSome]
    simpa using hh
  obtain ⟨f, hf⟩ := Option.isSome_iff_exists.1 hsm
  obtain ⟨y, hy, rfl⟩ := mem_map.1 (mem_of_find?_eq_some hf)
  have hyh := find?_some hf
  exact ⟨y, hy, by simpa [Exec.info] using hyh, hf⟩

lemma Inv.includes (hi : Inv s) (e : Ev) : Included s e := by
  rintro n x a found counted t rfl hn hpl ht h hnew hrec
  obtain ⟨proc, found', counted', worker, a', pollFound, pollCounted, mgr, r, hn', hp, rfl⟩ :=
    step_schedulerPoll ht
  cases hn.symm.trans hn'
  cases hpl
  obtain ⟨his, hhs⟩ := schedulerPoll_infos hp
  have hinv := (hi.scheds n _ hn).poll
  have hrp : ∃ f ∈ a.foundRaceInfos, f.mempairHash = h := by
    have hrec : h ∈ mgr.trueRaceHashes := hrec
    rw [hhs] at hrec
    exact (mem_reportRaces.1 hrec).resolve_left hnew
  rw [hinv.1] at hrp
  obtain ⟨y, hy, hyh, hfn⟩ := find_report hrp
  rw [← hinv.1] at hfn
  have hmem : y ∈ s.included ++ counted := mem_append.2 (hinv.2.2 y hy)
  obtain ⟨info, hif, hkn, hcn⟩ := execInfoOf_reportRaces (m := addExecInfo s.mgr
    a.mempairExecInfo) [] hnew hfn
  have hst : execInfoOf mgr.mempairExecInfo h = info := by rw [his, hif]
  refine ⟨y, hy, hyh, hmem, ?_, ?_⟩
  · rw [hst, hkn]
    rfl
  · rw [hst, hcn]
    calc 1 ≤ countOf (s.included ++ counted) h y.kind := hyh ▸ one_le_countOf hmem
      _ ≤ _ := hi.counts_poll hn rfl h y.kind

/-- **The execution that found a race is counted.** In every run in which no scheduler takes its
counters while a race it has taken before is not counted yet: whenever a poll makes a race new,
the stored counts include the execution that found it. -/
theorem finder_counted {es : List Ev}
    (h : Meets step (fun s e => takesEarly s e = false) start es) :
    Meets step Included start es :=
  h.of_inv (I := Inv) (fun _ e hi _ => hi.includes e) (fun _ _ _ hi he ht => hi.step he ht)
    ⟨fun h k => Nat.zero_le _, fun n x hx => by cases hx⟩

def candidateRaces : List Ev :=
  [.register 0 [], .reply 0, .init 0, .executeCandidate 0 7 true]

/-- The execution is counted before the poll takes the counters. -/
theorem finder_counted_first : Meets step Included start
    (candidateRaces ++ [Ev.grabFoundRace 0, Ev.countCandidate 0, Ev.grabExecInfo 0,
      Ev.schedulerPoll 0]) :=
  finder_counted (by decide +kernel)

/-- The poll takes the race and the counters before the execution is counted: the race is
recorded as found by a candidate, after no execution at all. -/
theorem finder_not_counted : ∃ m t,
    run step start (candidateRaces ++ [Ev.grabFoundRace 0, Ev.grabExecInfo 0]) = some m ∧
    step m (.schedulerPoll 0) = some t ∧ 7 ∉ m.mgr.trueRaceHashes ∧
    7 ∈ t.mgr.trueRaceHashes ∧
    (execInfoOf t.mgr.mempairExecInfo 7).firstFoundBy = .triage ∧
    ∀ k, foundCount k (execInfoOf t.mgr.mempairExecInfo 7) = 0 := by
  have hvw : (run step start
      (candidateRaces ++ [Ev.grabFoundRace 0, Ev.grabExecInfo 0])).map (fun m =>
        (m.mgr.trueRaceHashes, (step m (.schedulerPoll 0)).map fun t =>
          (t.mgr.trueRaceHashes, (execInfoOf t.mgr.mempairExecInfo 7).firstFoundBy,
            [RaceRunKind.none, .triage, .corpus, .likely].map fun k =>
              foundCount k (execInfoOf t.mgr.mempairExecInfo 7)))) =
      some ([], some ([7], .triage, [0, 0, 0, 0])) := by
    decide +kernel
  obtain ⟨m, hm, hvw⟩ := Option.map_eq_some_iff.1 hvw
  obtain ⟨hhs, hvw⟩ := Prod.mk.inj hvw
  obtain ⟨t, ht, hvw⟩ := Option.map_eq_some_iff.1 hvw
  simp only [Prod.mk.injEq, map_cons, map_nil, cons.injEq, and_true] at hvw
  obtain ⟨hrec, hkn, hnn, htr, hcr, hlk⟩ := hvw
  refine ⟨m, t, hm, ht, by simp [hhs], by simp [hrec], hkn, fun k => ?_⟩
  cases k <;> assumption

end Razzer.ExecCounts
