import Razzer.RaceRequest
import Razzer.Runs
import Razzer.Words

/-!
The threads of the executor.

`execute_one` goes through the instructions of a program twice. In the second pass, the colliding
one, the calls up to the first racy call run on one thread and the other calls on a second thread.
A call is given to a thread when the thread is done with the one before, and the two racy calls
wait for each other at a barrier. At the end the process waits for the two racy calls only, and
exits. No order of the steps of the three threads leads to a deadlock; every call is scheduled once,
on its thread, in the order of the program, and all of them are run, but for the last one, which the
process need not wait for.
-/

namespace Razzer.ExecuteOne

open Words Words.Reader RaceRequest Runs List Function UInt64
open Nat (zero_le)

/-! ### The format of programs -/

structure ExecCsumChunk where
  kind : UInt64
  value : UInt64
  size : UInt64
  deriving DecidableEq

inductive ExecArg
  | const (size value bitfieldOffset bitfieldLength pidStride : UInt64) (bigEndian : Bool)
  | result (size index divOp addOp default : UInt64)
  | data (bytes : List UInt8)
  | csum (size kind : UInt64) (chunks : List ExecCsumChunk)
  deriving DecidableEq

structure ExecCopyin where
  addr : UInt64
  arg : ExecArg
  deriving DecidableEq

structure ExecCopyout where
  index : UInt64
  addr : UInt64
  size : UInt64
  deriving DecidableEq

def execInstrEOF : UInt64 := 0xffffffffffffffff
def execInstrCopyin : UInt64 := 0xfffffffffffffffe
def execInstrCopyout : UInt64 := 0xfffffffffffffffd
def execArgConst : UInt64 := 0
def execArgResult : UInt64 := 1
def execArgData : UInt64 := 2
def execArgCsum : UInt64 := 3
def execArgCsumInet : UInt64 := 0

/-! ### Reading instructions -/

def kMaxArgs : ℕ := 9
def kMaxCommands : ℕ := 1000

structure CallInstr where
  num : UInt64
  copyoutIndex : UInt64
  args : List ExecArg

inductive Instr
  | eof
  | copyin (x : ExecCopyin)
  | copyout (x : ExecCopyout)
  | call (c : CallInstr)

def readInput : Reader Unit UInt64 := fun s bs =>
  if bs.length < 8 then .error "input command overflows input"
  else .ok (ofNat (ofLe (bs.take 8)), s, bs.drop 8)

def isSize (size : UInt64) : Bool := size == 1 || size == 2 || size == 4 || size == 8

/-- `read_const_arg`, with the value before the stride is added and its bytes are swapped. -/
def readConstArg : Reader Unit ExecArg := do
  let info ← readInput
  let val ← readInput
  let size := info &&& 0xff
  let bigEndian := decide (info &&& 0x100 ≠ 0)
  if bigEndian ∧ ¬ (size = 2 ∨ size = 4 ∨ size = 8) then
    fail ("bad big-endian int size " ++ toString size.toNat)
  else
    return .const size val ((info >>> 16) &&& 0xff) ((info >>> 24) &&& 0xff) (info >>> 32) bigEndian

/-- `read_result`, with the operands instead of the result. -/
def readResultArg (size : UInt64) : Reader Unit ExecArg := do
  let idx ← readInput
  let opDiv ← readInput
  let opAdd ← readInput
  let arg ← readInput
  if idx.toNat ≥ kMaxCommands then fail ("command refers to bad result " ++ toString idx.toNat)
  else return .result size idx opDiv opAdd arg

/-- The data, and the words it is in. Their number is computed with 64 bits. -/
def readDataArg (size : UInt64) : Reader Unit ExecArg := fun s bs =>
  let padded := ((size + 7) / 8 * 8).toNat
  if bs.length < padded then .error "input command overflows input"
  else .ok (.data (bs.take size.toNat), s, bs.drop padded)

def readCsumChunk : Reader Unit ExecCsumChunk := do
  let kind ← readInput
  let value ← readInput
  let size ← readInput
  if kind = 0 then return ⟨kind, value, size⟩
  else if kind = 1 then
    if size = 2 ∨ size = 4 ∨ size = 8 then return ⟨kind, value, size⟩
    else fail ("bad checksum const chunk size " ++ toString size.toNat)
  else fail ("bad checksum chunk kind " ++ toString kind.toNat)

def readCsumChunks : ℕ → Reader Unit (List ExecCsumChunk)
  | 0 => return []
  | n + 1 => do
    let chunk ← readCsumChunk
    let chunks ← readCsumChunks n
    return chunk :: chunks

def readCsumArg : Reader Unit ExecArg := do
  let size ← readInput
  let kind ← readInput
  if kind = execArgCsumInet then
    if size = 2 then
      let n ← readInput
      let chunks ← readCsumChunks n.toNat
      return .csum size kind chunks
    else fail ("inet checksum must be 2 bytes, not " ++ toString size.toNat)
  else fail ("bad checksum kind " ++ toString kind.toNat)

def checkSize : ExecArg → Reader Unit ExecArg
  | .const size val off len stride be =>
    if isSize size then return .const size val off len stride be
    else fail ("copyin: bad argument size " ++ toString size.toNat)
  | .result size idx opDiv opAdd arg =>
    if isSize size then return .result size idx opDiv opAdd arg
    else fail ("copyin: bad argument size " ++ toString size.toNat)
  | arg => return arg

def readCopyinArg (typ : UInt64) : Reader Unit ExecArg :=
  if typ = execArgConst then readConstArg
  else if typ = execArgResult then readInput >>= readResultArg
  else if typ = execArgData then readInput >>= readDataArg
  else if typ = execArgCsum then readCsumArg
  else fail ("bad argument type " ++ toString typ.toNat)

def readCopyin : Reader Unit ExecCopyin := do
  let addr ← readInput
  let typ ← readInput
  let arg ← readCopyinArg typ
  let arg ← checkSize arg
  return ⟨addr, arg⟩

def readCopyout : Reader Unit ExecCopyout := do
  let index ← readInput
  let addr ← readInput
  let size ← readInput
  return ⟨index, addr, size⟩

def readArg : Reader Unit ExecArg := do
  let typ ← readInput
  if typ = execArgConst then readConstArg
  else if typ = execArgResult then readInput >>= readResultArg
  else fail ("bad argument type " ++ toString typ.toNat)

def readArgs : ℕ → Reader Unit (List ExecArg)
  | 0 => return []
  | n + 1 => do
    let arg ← readArg
    let args ← readArgs n
    return arg :: args

def readCall (syscallCount : ℕ) (num : UInt64) : Reader Unit CallInstr :=
  if num.toNat ≥ syscallCount then fail ("invalid command number " ++ toString num.toNat)
  else do
    let copyoutIndex ← readInput
    let numArgs ← readInput
    if numArgs.toNat > kMaxArgs then
      fail ("command has bad number of arguments " ++ toString numArgs.toNat)
    else do
      let args ← readArgs numArgs.toNat
      return ⟨num, copyoutIndex, args⟩

/-- One turn of the loop of `execute_one`, up to what is done with the instruction. -/
def readInstr (syscallCount : ℕ) : Reader Unit Instr := do
  let num ← readInput
  if num = execInstrEOF then return .eof
  else if num = execInstrCopyin then return .copyin (← readCopyin)
  else if num = execInstrCopyout then return .copyout (← readCopyout)
  else return .call (← readCall syscallCount num)

/-- The instructions up to the end have so many calls. -/
inductive HasCalls (syscallCount : ℕ) : List UInt8 → ℕ → Prop
  | eof {bs cs : List UInt8} (h : readInstr syscallCount () bs = .ok (.eof, (), cs)) :
      HasCalls syscallCount bs 0
  | copyin {bs cs : List UInt8} {x : ExecCopyin} {n : ℕ}
      (h : readInstr syscallCount () bs = .ok (.copyin x, (), cs))
      (hcs : HasCalls syscallCount cs n) : HasCalls syscallCount bs n
  | copyout {bs cs : List UInt8} {x : ExecCopyout} {n : ℕ}
      (h : readInstr syscallCount () bs = .ok (.copyout x, (), cs))
      (hcs : HasCalls syscallCount cs n) : HasCalls syscallCount bs n
  | call {bs cs : List UInt8} {c : CallInstr} {n : ℕ}
      (h : readInstr syscallCount () bs = .ok (.call c, (), cs))
      (hcs : HasCalls syscallCount cs n) : HasCalls syscallCount bs (n + 1)

/-! ### Sizes of instructions -/

lemma takes_readInput : Takes 8 readInput := by
  intro s bs x s' cs h
  rw [readInput] at h
  split_ifs at h with hlen
  cases h
  rw [length_drop]
  omega

lemma takes_readDataArg (size : UInt64) : Takes 0 (readDataArg size) := by
  intro s bs x s' cs h
  rw [readDataArg] at h
  split_ifs at h
  cases h
  rw [length_drop]
  omega

lemma takes_readConstArg : Takes 0 readConstArg :=
  (takes_readInput.bind fun _ => takes_readInput.bind fun _ =>
    Takes.ite (takes_fail 0 _) (takes_pure _)).mono (zero_le _)

lemma takes_readResultArg (size : UInt64) : Takes 0 (readResultArg size) :=
  (takes_readInput.bind fun _ => takes_readInput.bind fun _ => takes_readInput.bind fun _ =>
    takes_readInput.bind fun _ => Takes.ite (takes_fail 0 _) (takes_pure _)).mono (zero_le _)

lemma takes_readCsumChunk : Takes 0 readCsumChunk :=
  (takes_readInput.bind fun _ => takes_readInput.bind fun _ => takes_readInput.bind fun _ =>
    Takes.ite (takes_pure _) (Takes.ite (Takes.ite (takes_pure _) (takes_fail 0 _))
      (takes_fail 0 _))).mono (zero_le _)

lemma takes_readCsumChunks (n : ℕ) : Takes 0 (readCsumChunks n) := by
  induction n with
  | zero => exact takes_pure _
  | succ n ih => exact takes_readCsumChunk.bind fun _ => ih.bind fun _ => takes_pure _

lemma takes_readCsumArg : Takes 0 readCsumArg := by
  have hch : ∀ size kind : UInt64, Takes 8 (do
      let n ← readInput
      let chunks ← readCsumChunks n.toNat
      return ExecArg.csum size kind chunks) := fun size kind =>
    takes_readInput.bind fun n => (takes_readCsumChunks n.toNat).bind fun _ => takes_pure _
  exact (takes_readInput.bind fun _ => takes_readInput.bind fun _ =>
    Takes.ite (Takes.ite (hch _ _) (takes_fail 8 _)) (takes_fail 8 _)).mono (zero_le _)

lemma takes_checkSize (arg : ExecArg) : Takes 0 (checkSize arg) := by
  cases arg with
  | const | result => exact Takes.ite (takes_pure _) (takes_fail 0 _)
  | data | csum => exact takes_pure _

lemma takes_readCopyinArg (typ : UInt64) : Takes 0 (readCopyinArg typ) := by
  have hwr : ∀ g : UInt64 → Reader Unit ExecArg, (∀ v, Takes 0 (g v)) →
      Takes 0 (readInput >>= g) := fun g hg => (takes_readInput.bind hg).mono (zero_le _)
  exact Takes.ite takes_readConstArg <| Takes.ite (hwr _ takes_readResultArg) <|
    Takes.ite (hwr _ takes_readDataArg) <| Takes.ite takes_readCsumArg (takes_fail 0 _)

lemma takes_readCopyin : Takes 0 readCopyin :=
  (takes_readInput.bind fun _ => takes_readInput.bind fun typ =>
    (takes_readCopyinArg typ).bind fun arg => (takes_checkSize arg).bind fun _ =>
      takes_pure _).mono (zero_le _)

lemma takes_readCopyout : Takes 0 readCopyout :=
  (takes_readInput.bind fun _ => takes_readInput.bind fun _ => takes_readInput.bind fun _ =>
    takes_pure _).mono (zero_le _)

lemma takes_readArg : Takes 0 readArg :=
  (takes_readInput.bind fun _ => Takes.ite takes_readConstArg <|
    Takes.ite ((takes_readInput.bind takes_readResultArg).mono (zero_le _))
      (takes_fail 0 _)).mono (zero_le _)

lemma takes_readArgs (n : ℕ) : Takes 0 (readArgs n) := by
  induction n with
  | zero => exact takes_pure _
  | succ n ih => exact takes_readArg.bind fun _ => ih.bind fun _ => takes_pure _

lemma takes_readCall (nsys : ℕ) (num : UInt64) : Takes 0 (readCall nsys num) :=
  Takes.ite (takes_fail 0 _) <| (takes_readInput.bind fun _ => takes_readInput.bind fun numArgs =>
    Takes.ite (takes_fail 0 _) ((takes_readArgs numArgs.toNat).bind fun _ => takes_pure _)).mono
    (zero_le _)

lemma takes_readInstr (nsys : ℕ) : Takes 8 (readInstr nsys) :=
  takes_readInput.bind fun num => Takes.ite (takes_pure _) <|
    Takes.ite (takes_readCopyin.bind fun _ => takes_pure _) <|
    Takes.ite (takes_readCopyout.bind fun _ => takes_pure _)
      ((takes_readCall nsys num).bind fun _ => takes_pure _)

variable {n nsys : ℕ} {bs : List UInt8}

lemma HasCalls.le (h : HasCalls nsys bs n) : 8 * n ≤ bs.length := by
  induction h with
  | eof h => omega
  | copyin h hcs ih | copyout h hcs ih | call h hcs ih =>
    have := takes_readInstr nsys _ _ _ _ _ h
    omega

/-! ### The threads -/

/-- What `schedule_call` gives to a thread. -/
structure Job where
  callIndex : ℕ
  call : CallInstr
  colliding : Bool
  init : Bool
  executingRacySyscall : Bool

/-- A thread has not been created, is done with its last call, has been given a call, waits at the
barrier before a racy call, or is in a call. -/
inductive Status
  | absent
  | done
  | ready (job : Job)
  | barrier (job : Job)
  | running (job : Job)

/-- A call of the colliding pass as a thread has run it: whether the thread has issued the refresh
command before it, and the breakpoint and `sched` of the start command before a racy call. -/
structure Ran where
  callIndex : ℕ
  refreshed : Bool
  armed : Option (UInt64 × UInt64)
  deriving DecidableEq

/-- The main thread is somewhere in the input, has finished with it, or has exited. What has been
scheduled in this pass, and what the threads have run in the colliding one, is only recorded. -/
structure State where
  inputPos : List UInt8
  callIndex : ℕ
  colliding : Bool
  finished : Bool
  exited : Bool
  failed : Option String
  threads : Bool → Status
  raceDone : Bool → Bool
  scheduled : List (Bool × ℕ)
  executed : Bool → List Ran

inductive Ev
  | main
  | start (th : Bool)
  | barrier
  | finish (th : Bool)

section Steps

variable (p : RaceInfo × RaceInfo) (input : List UInt8) (syscallCount : ℕ)

/-- The thread of a call and what it is told, as in `schedule_call`. -/
def jobFor (colliding : Bool) (callIndex : ℕ) (call : CallInstr) : Bool × Job :=
  (colliding && threadOf p callIndex,
    { callIndex := callIndex
      call := call
      colliding := colliding
      init := colliding && isInit p callIndex
      executingRacySyscall := colliding && isRacy p callIndex })

def ran (th : Bool) (job : Job) : Ran where
  callIndex := job.callIndex
  refreshed := job.init
  armed := if job.executingRacySyscall then some ((infoOf p th).bp, (infoOf p th).sched) else none

/-- `schedule_call`: it waits until the thread is done. -/
def schedule (s : State) (call : CallInstr) (rest : List UInt8) : Option State :=
  let (th, job) := jobFor p s.colliding s.callIndex call
  match s.threads th with
  | .absent | .done =>
    some { s with
      inputPos := rest
      callIndex := s.callIndex + 1
      threads := Function.update s.threads th (.ready job)
      scheduled := s.scheduled ++ [(th, s.callIndex)] }
  | _ => none

/-- `finish_race`: it waits for the racy calls, and then the process exits. -/
def finishRace (s : State) : Option State :=
  if s.raceDone false ∧ s.raceDone true then some { s with exited := true } else none

/-- The main thread: the next instruction. After the first pass the input is read again. -/
def stepMain (s : State) : Option State :=
  if s.failed.isSome then none
  else if s.finished then finishRace s
  else
    match readInstr syscallCount () s.inputPos with
    | .error e => some { s with failed := some e }
    | .ok (.eof, _, _) =>
      if s.colliding then some { s with finished := true }
      else some { s with inputPos := input, callIndex := 0, colliding := true, scheduled := [] }
    | .ok (.copyin _, _, rest) => some { s with inputPos := rest }
    | .ok (.copyout _, _, rest) => some { s with inputPos := rest }
    | .ok (.call call, _, rest) => schedule p s call rest

/-- A thread begins its call. Before a racy call there is a barrier. -/
def State.begun (s : State) (th : Bool) (job : Job) : State :=
  { s with
    threads := Function.update s.threads th
      (if job.executingRacySyscall then .barrier job else .running job)
    executed :=
      if job.colliding then Function.update s.executed th (s.executed th ++ [ran p th job])
      else s.executed }

/-- A call ends. The end of a racy call is told right before. -/
def State.ended (s : State) (th : Bool) (job : Job) : State :=
  { s with
    threads := Function.update s.threads th .done
    raceDone :=
      if job.executingRacySyscall then Function.update s.raceDone th true else s.raceDone }

/-- `worker_thread` and `execute_call`. A call takes as long as it takes. -/
def stepLive (s : State) : Ev → Option State
  | .main => stepMain p input syscallCount s
  | .start th =>
    match s.threads th with
    | .ready job => some (s.begun p th job)
    | _ => none
  | .barrier =>
    match s.threads false, s.threads true with
    | .barrier job, .barrier job' =>
      some { s with
        threads := fun th => if th then .running job' else .running job }
    | _, _ => none
  | .finish th =>
    match s.threads th with
    | .running job => some (s.ended th job)
    | _ => none

/-- When the main thread exits, the other threads are gone. -/
def step (s : State) (e : Ev) : Option State :=
  if s.exited then none else stepLive p input syscallCount s e

def start : State where
  inputPos := input
  callIndex := 0
  colliding := false
  finished := false
  exited := false
  failed := none
  threads := fun _ => .absent
  raceDone := fun _ => false
  scheduled := []
  executed := fun _ => []

end Steps

/-! ### What a step is -/

section Relation

variable (p : RaceInfo × RaceInfo) (input : List UInt8) (syscallCount : ℕ)

def State.Running (s : State) : Prop :=
  s.finished = false ∧ s.exited = false ∧ s.failed = none

def State.target (s : State) : Bool := s.colliding && threadOf p s.callIndex

inductive Steps (s : State) : Ev → State → Prop
  | fail (e : String) (hs : s.Running) (hread : readInstr syscallCount () s.inputPos = .error e) :
      Steps s .main { s with failed := some e }
  | retry (rest : List UInt8) (hs : s.Running)
      (hread : readInstr syscallCount () s.inputPos = .ok (.eof, (), rest))
      (hcolliding : s.colliding = false) :
      Steps s .main
        { s with inputPos := input, callIndex := 0, colliding := true, scheduled := [] }
  | done (rest : List UInt8) (hs : s.Running)
      (hread : readInstr syscallCount () s.inputPos = .ok (.eof, (), rest))
      (hcolliding : s.colliding = true) : Steps s .main { s with finished := true }
  | copyin (x : ExecCopyin) (rest : List UInt8) (hs : s.Running)
      (hread : readInstr syscallCount () s.inputPos = .ok (.copyin x, (), rest)) :
      Steps s .main { s with inputPos := rest }
  | copyout (x : ExecCopyout) (rest : List UInt8) (hs : s.Running)
      (hread : readInstr syscallCount () s.inputPos = .ok (.copyout x, (), rest)) :
      Steps s .main { s with inputPos := rest }
  | schedule (call : CallInstr) (rest : List UInt8) (hs : s.Running)
      (hread : readInstr syscallCount () s.inputPos = .ok (.call call, (), rest))
      (hfree : s.threads (s.target p) = .absent ∨ s.threads (s.target p) = .done) :
      Steps s .main
        { s with
          inputPos := rest
          callIndex := s.callIndex + 1
          threads := Function.update s.threads (s.target p)
            (.ready (jobFor p s.colliding s.callIndex call).2)
          scheduled := s.scheduled ++ [(s.target p, s.callIndex)] }
  | exit (hfinished : s.finished = true) (hdone : ∀ th, s.raceDone th = true)
      (hexited : s.exited = false) (hfailed : s.failed = none) :
      Steps s .main { s with exited := true }
  | start (th : Bool) (job : Job) (hjob : s.threads th = .ready job) :
      Steps s (.start th) (s.begun p th job)
  | barrier (job job' : Job) (hfalse : s.threads false = .barrier job)
      (htrue : s.threads true = .barrier job') :
      Steps s .barrier
        { s with threads := fun th => if th then .running job' else .running job }
  | finish (th : Bool) (job : Job) (hjob : s.threads th = .running job) :
      Steps s (.finish th) (s.ended th job)

end Relation

variable {i₀ i₁ k : ℕ} {s t : State} {p : RaceInfo × RaceInfo} {input rest : List UInt8} {e : Ev}
  {th : Bool} {job job' : Job}

section Steps

lemma steps_of_main (h : stepMain p input nsys s = some t) (hex : s.exited = false) :
    Steps p input nsys s .main t := by
  rw [stepMain] at h
  by_cases hfl : s.failed.isSome
  · rw [if_pos hfl] at h
    cases h
  rw [if_neg hfl] at h
  by_cases hfn : s.finished
  · rw [if_pos hfn, finishRace] at h
    split_ifs at h with hdn
    cases h
    exact .exit hfn (Bool.forall_bool.2 hdn) hex (by simpa using hfl)
  rw [if_neg hfn] at h
  have hs : s.Running := ⟨by simpa using hfn, hex, by simpa using hfl⟩
  split at h
  · next e hrd =>
    cases h
    exact .fail e hs hrd
  · next hrd =>
    split_ifs at h with hcl
    · cases h
      exact .done _ hs hrd hcl
    · cases h
      exact .retry _ hs hrd (by simpa using hcl)
  · next hrd =>
    cases h
    exact .copyin _ _ hs hrd
  · next hrd =>
    cases h
    exact .copyout _ _ hs hrd
  · next hrd =>
    simp only [schedule, jobFor] at h
    split at h
    · next hth =>
      cases h
      exact .schedule _ _ hs hrd (.inl hth)
    · next hth =>
      cases h
      exact .schedule _ _ hs hrd (.inr hth)
    · cases h

/-- **What a step is.** -/
lemma steps_of (h : step p input nsys s e = some t) : Steps p input nsys s e t := by
  rw [step] at h
  split_ifs at h with hex
  cases e with
  | main => exact steps_of_main h (by simpa using hex)
  | start th =>
    rw [stepLive] at h
    split at h
    · next job hjob =>
      cases h
      exact .start th job hjob
    · cases h
  | barrier =>
    rw [stepLive] at h
    split at h
    · next job job' hfl htr =>
      cases h
      exact .barrier job job' hfl htr
    · cases h
  | finish th =>
    rw [stepLive] at h
    split at h
    · next job hjob =>
      cases h
      exact .finish th job hjob
    · cases h

end Steps

/-! ### Runs are finite -/

/-- What is left for the main thread: the words of this pass and of the next one, and the exit. -/
def State.words (input : List UInt8) (s : State) : ℕ :=
  if s.exited ∨ s.failed.isSome then 0
  else if s.finished then 1
  else s.inputPos.length + 2 + if s.colliding then 0 else input.length + 1

/-- The race infos are sorted, and both indices are calls of the program. -/
structure Sorted (p : RaceInfo × RaceInfo) (n i₀ i₁ : ℕ) : Prop where
  lt : i₀ < i₁
  lt_n : i₁ < n
  first : toInt p.1.raceIndex = i₀
  next : toInt (p.1.raceIndex + 1) = i₀ + 1
  second : toInt p.2.raceIndex = i₁

lemma Sorted.threadOf_eq (h : Sorted p n i₀ i₁) (i : ℕ) : threadOf p i = decide (i₀ < i) := by
  rw [RaceRequest.threadOf, h.first]
  exact decide_eq_decide.2 Int.ofNat_lt

lemma Sorted.isRacy_eq (h : Sorted p n i₀ i₁) (i : ℕ) : isRacy p i = decide (i = i₀ ∨ i = i₁) := by
  have hlt := h.lt
  rw [RaceRequest.isRacy, h.threadOf_eq]
  refine decide_eq_decide.2 ?_
  by_cases hi : i₀ < i
  · simp only [hi, decide_true, infoOf, if_true, h.second]
    omega
  · simp only [hi, decide_false, infoOf, Bool.false_eq_true, if_false, h.first]
    omega

/-- A call of the colliding pass as it has to be run. -/
def ranAt (p : RaceInfo × RaceInfo) (i : ℕ) : Ran where
  callIndex := i
  refreshed := isInit p i
  armed :=
    if isRacy p i then some ((infoOf p (threadOf p i)).bp, (infoOf p (threadOf p i)).sched)
    else none

/-- The calls of a thread among the first `k` calls of the colliding pass. -/
def expected (p : RaceInfo × RaceInfo) (th : Bool) (k : ℕ) : List Ran :=
  ((range k).filter fun i => threadOf p i == th).map (ranAt p)

lemma expected_succ (p : RaceInfo × RaceInfo) (th : Bool) (k : ℕ) :
    expected p th (k + 1) = expected p th k ++ if threadOf p k = th then [ranAt p k] else [] := by
  rw [expected, range_succ, filter_append, map_append, expected]
  congr 1
  by_cases h : threadOf p k = th
  · simp [h]
  · simp [h]

lemma mem_expected {x : Ran} :
    x ∈ expected p th k ↔ ∃ i < k, threadOf p i = th ∧ ranAt p i = x := by
  simp [expected, and_assoc]

lemma ranAt_armed (p : RaceInfo × RaceInfo) (i : ℕ) : (ranAt p i).armed ≠ none ↔ isRacy p i := by
  simp [ranAt]

def racyOf (i₀ i₁ : ℕ) (th : Bool) : ℕ := if th then i₁ else i₀

lemma Sorted.racy_iff (h : Sorted p n i₀ i₁) (th : Bool) (i : ℕ) :
    threadOf p i = th ∧ isRacy p i ↔ i = racyOf i₀ i₁ th := by
  have hlt := h.lt
  rw [h.threadOf_eq, h.isRacy_eq, decide_eq_true_eq]
  cases th with
  | false =>
    rw [decide_eq_false_iff_not, racyOf, if_neg (by decide)]
    omega
  | true =>
    rw [decide_eq_true_eq, racyOf, if_pos rfl]
    omega

lemma expected_nodup (p : RaceInfo × RaceInfo) (th : Bool) (k : ℕ) : (expected p th k).Nodup :=
  (nodup_range.filter _).map fun _ _ h => congrArg Ran.callIndex h

lemma Sorted.not_armed_before {xs : List Ran} {y : Ran} (h : Sorted p n i₀ i₁)
    (hxs : xs ++ [y] = expected p th k)
    (hy : y.armed ≠ none) : ∀ x ∈ xs, x.armed = none := by
  intro x hx
  by_contra har
  have hnd := expected_nodup p th k
  rw [← hxs] at hnd
  obtain ⟨i, -, hth, rfl⟩ := mem_expected.1 (hxs ▸ mem_append_left [y] hx)
  obtain ⟨j, -, hth', rfl⟩ := mem_expected.1 (hxs ▸ mem_append_right xs mem_cons_self)
  have hi := (h.racy_iff th i).1 ⟨hth, (ranAt_armed p i).1 har⟩
  have hj := (h.racy_iff th j).1 ⟨hth', (ranAt_armed p j).1 hy⟩
  exact (nodup_append.1 hnd).2.2 _ hx _ mem_cons_self
    (congrArg (ranAt p) (hi.trans hj.symm))

/-! ### Invariant -/

def Status.pending (p : RaceInfo × RaceInfo) (th : Bool) : Status → List Ran
  | .ready job => if job.colliding then [ran p th job] else []
  | _ => []

def Status.isBarrier : Status → Bool
  | .barrier _ => true
  | _ => false

/-- The thread is at the barrier or in its racy call. -/
def Status.racing : Status → Bool
  | .barrier job | .running job => job.executingRacySyscall
  | _ => false

/-- Only a call of the colliding pass is racy, and only a racy one waits at the barrier. -/
def Status.Sound : Status → Prop
  | .ready job => job.executingRacySyscall → job.colliding
  | .barrier job => job.executingRacySyscall
  | _ => True

/-- A thread has come to its racy call. -/
def Armed (executed : List Ran) : Prop := ∃ x ∈ executed, x.armed ≠ none

def Passed (executed : List Ran) (status : Status) : Prop :=
  Armed executed ∧ status.isBarrier = false

/-- What holds of a thread for which the calls `due` have been scheduled. -/
structure Track (p : RaceInfo × RaceInfo) (th : Bool) (due executed : List Ran) (status : Status)
    (raceDone : Bool) : Prop where
  ran : executed ++ status.pending p th = due
  sound : status.Sound
  armed : status.racing = true → Armed executed
  raced : raceDone = true ↔ Armed executed ∧ status.racing = false

section Invariant

variable (p : RaceInfo × RaceInfo) (syscallCount n : ℕ)

def State.due (s : State) (th : Bool) : List Ran :=
  if s.colliding then expected p th s.callIndex else []

structure Inv (s : State) : Prop where
  ok : s.failed = none
  position : s.finished = false → ∃ m, HasCalls syscallCount s.inputPos m ∧ s.callIndex + m = n
  finished : s.finished = true → s.colliding = true ∧ s.callIndex = n
  exited : s.exited = true → s.finished = true ∧ ∀ th, s.raceDone th = true
  scheduled : s.scheduled = (range s.callIndex).map fun i => (s.colliding && threadOf p i, i)
  tracks : ∀ th, Track p th (s.due p th) (s.executed th) (s.threads th) (s.raceDone th)
  passed : Passed (s.executed false) (s.threads false) ↔ Passed (s.executed true) (s.threads true)

end Invariant

lemma HasCalls.next (h : HasCalls nsys bs n) :
    match readInstr nsys () bs with
    | .error _ => False
    | .ok (.eof, _, _) => n = 0
    | .ok (.copyin _, _, cs) => HasCalls nsys cs n
    | .ok (.copyout _, _, cs) => HasCalls nsys cs n
    | .ok (.call _, _, cs) => ∃ m, n = m + 1 ∧ HasCalls nsys cs m := by
  cases h with
  | eof h => rw [h]
  | copyin h hcs | copyout h hcs => rw [h]; exact hcs
  | call h hcs => rw [h]; exact ⟨_, rfl, hcs⟩

section Steps

lemma inv_start (hinp : HasCalls nsys input n) : Inv p nsys n (start input) where
  ok := rfl
  position := fun _ => ⟨n, hinp, Nat.zero_add n⟩
  finished := fun h => by cases h
  exited := fun h => by cases h
  scheduled := rfl
  tracks := fun _ => ⟨rfl, trivial, fun h => (by cases h), by simp [start, Armed]⟩
  passed := Iff.rfl

lemma Inv.retry (h : Inv p nsys n s) (hs : s.Running) (hcl : s.colliding = false)
    (hinp : HasCalls nsys input n) :
    Inv p nsys n
      { s with inputPos := input, callIndex := 0, colliding := true, scheduled := [] } :=
  { h with
    position := fun _ => ⟨n, hinp, Nat.zero_add n⟩
    finished := fun hf => by rw [hs.1] at hf; cases hf
    scheduled := rfl
    tracks := fun th => by
      have htk := h.tracks th
      rwa [State.due, hcl] at htk }

lemma Inv.done (h : Inv p nsys n s) (hs : s.Running)
    (hrd : readInstr nsys () s.inputPos = .ok (.eof, (), rest))
    (hcl : s.colliding) : Inv p nsys n { s with finished := true } :=
  { h with
    position := fun hf => by cases hf
    exited := fun hex => ⟨rfl, (h.exited hex).2⟩
    finished := fun _ => by
      obtain ⟨m, hm, hsum⟩ := h.position hs.1
      have hnx := hm.next
      rw [hrd] at hnx
      exact ⟨hcl, by dsimp only at hnx ⊢; omega⟩ }

lemma Inv.skip (h : Inv p nsys n s) (hs : s.Running)
    (hrs : ∀ m, HasCalls nsys s.inputPos m → HasCalls nsys rest m) :
    Inv p nsys n { s with inputPos := rest } :=
  { h with
    position := fun hf => by
      obtain ⟨m, hm, hsum⟩ := h.position hs.1
      exact ⟨m, hrs m hm, hsum⟩ }

/-- A thread is given a call. -/
lemma Track.give {due xs : List Ran} {st : Status} {d : Bool} (h : Track p th due xs st d)
    (hst : st = .absent ∨ st = .done) (hjob : job.executingRacySyscall → job.colliding) :
    Track p th (due ++ (Status.ready job).pending p th) xs (.ready job) d ∧
      (Passed xs (.ready job) ↔ Passed xs st) := by
  rcases hst with rfl | rfl
  all_goals exact ⟨⟨by rw [← h.ran]; exact (congrArg (· ++ _) (append_nil _)).symm, hjob,
    fun h => (by cases h), h.raced⟩, Iff.rfl⟩

lemma passed_update {executed : Bool → List Ran} {threads : Bool → Status} {ys : List Ran}
    {x : Status} (h : Passed ys x ↔ Passed (executed th) (threads th)) (k : Bool) :
    Passed (update executed th ys k) (update threads th x k) ↔
      Passed (executed k) (threads k) := by
  by_cases hk : k = th
  · subst hk
    rwa [update_self, update_self]
  · rw [update_of_ne hk, update_of_ne hk]

lemma due_schedule (s : State) (call : CallInstr) (th : Bool) :
    (if s.colliding then expected p th (s.callIndex + 1) else []) = s.due p th ++
      if th = s.target p then
        (Status.ready (jobFor p s.colliding s.callIndex call).2).pending p th else [] := by
  rw [State.due, State.target]
  cases s.colliding with
  | false => simp [Status.pending, jobFor]
  | true =>
    rw [if_pos rfl, if_pos rfl, expected_succ, Bool.true_and]
    by_cases hth : threadOf p s.callIndex = th
    · subst hth
      rw [if_pos rfl, if_pos rfl]
      rfl
    · rw [if_neg hth, if_neg (Ne.symm hth)]

lemma Inv.schedule {call : CallInstr} (h : Inv p nsys n s) (hs : s.Running)
    (hrd : readInstr nsys () s.inputPos = .ok (.call call, (), rest))
    (hfr : s.threads (s.target p) = .absent ∨ s.threads (s.target p) = .done) :
    Inv p nsys n
      { s with
        inputPos := rest
        callIndex := s.callIndex + 1
        threads := update s.threads (s.target p)
          (.ready (jobFor p s.colliding s.callIndex call).2)
        scheduled := s.scheduled ++ [(s.target p, s.callIndex)] } := by
  have hjob : (jobFor p s.colliding s.callIndex call).2.executingRacySyscall →
      (jobFor p s.colliding s.callIndex call).2.colliding := by simp +contextual [jobFor]
  obtain ⟨htk, hps⟩ := (h.tracks (s.target p)).give hfr hjob
  refine ⟨h.ok, fun _ => ?_, fun hf => ?_, h.exited, ?_, fun th => ?_, ?_⟩
  · obtain ⟨m, hm, hsum⟩ := h.position hs.1
    have hnx := hm.next
    rw [hrd] at hnx
    obtain ⟨m', rfl, hrs⟩ := hnx
    exact ⟨m', hrs, by dsimp only; omega⟩
  · rw [hs.1] at hf
    cases hf
  · rw [range_succ, map_append, h.scheduled]
    rfl
  · rw [State.due, due_schedule s call]
    dsimp only
    by_cases hth : th = s.target p
    · subst hth
      rw [if_pos rfl, update_self]
      exact htk
    · rw [if_neg hth, append_nil, update_of_ne hth]
      exact h.tracks th
  · have hpu := passed_update hps
    rw [update_eq_self] at hpu
    exact (hpu false).trans (h.passed.trans (hpu true).symm)

lemma armed_append (xs : List Ran) (hjob : (Status.ready job).Sound) :
    Armed (xs ++ (Status.ready job).pending p th) ↔ Armed xs ∨ job.executingRacySyscall := by
  have hpn : (∃ x ∈ (Status.ready job).pending p th, x.armed ≠ none) ↔
      job.executingRacySyscall := by
    rw [Status.pending]
    cases hrc : job.executingRacySyscall with
    | true => simp [hjob hrc, ran, hrc]
    | false => split_ifs <;> simp [ran, hrc]
  simp only [Armed, mem_append, or_and_right, exists_or, hpn]

/-- A thread comes to one racy call only. -/
lemma Track.not_armed {xs : List Ran} {d : Bool}
    (h : Track p th (s.due p th) xs (.ready job) d) (hsr : Sorted p n i₀ i₁)
    (hrc : job.executingRacySyscall) : ¬ Armed xs := by
  have hran := h.ran
  rw [Status.pending, if_pos (h.sound hrc), State.due] at hran
  rintro ⟨x, hx, har⟩
  split_ifs at hran
  · exact har (hsr.not_armed_before hran (by simp [ExecuteOne.ran, hrc]) x hx)
  · simp at hran

/-- A thread begins its call: a racy call puts it to the barrier. -/
lemma Track.start {due xs : List Ran} {d : Bool} (h : Track p th due xs (.ready job) d)
    (hno : job.executingRacySyscall → ¬ Armed xs) :
    Track p th due (xs ++ (Status.ready job).pending p th)
        (if job.executingRacySyscall then .barrier job else .running job) d ∧
      (Passed (xs ++ (Status.ready job).pending p th)
        (if job.executingRacySyscall then .barrier job else .running job) ↔
          Passed xs (.ready job)) := by
  have har : Armed (xs ++ (Status.ready job).pending p th) ↔ _ := armed_append xs h.sound
  have hrd := h.raced
  cases hrc : job.executingRacySyscall with
  | true =>
    refine ⟨⟨(append_nil _).trans h.ran, hrc, fun _ => har.2 (.inr hrc), ?_⟩, ?_⟩
    · simpa [Status.racing, hrc, hno hrc] using hrd
    · simp [Passed, Status.isBarrier, hno hrc]
  | false =>
    refine ⟨⟨(append_nil _).trans h.ran, trivial, fun h => ?_, ?_⟩, ?_⟩
    · cases hrc.symm.trans h
    · simpa [Status.racing, hrc, har] using hrd
    · simp [Passed, Status.isBarrier, har, hrc]

lemma Inv.setThread (h : Inv p nsys n s) {ys : List Ran} {x : Status} {d : Bool}
    (htk : Track p th (s.due p th) ys x d)
    (hps : Passed ys x ↔ Passed (s.executed th) (s.threads th))
    (hdn : s.raceDone th → d) :
    Inv p nsys n
      { s with
        threads := update s.threads th x
        executed := update s.executed th ys
        raceDone := update s.raceDone th d } := by
  refine ⟨h.ok, h.position, h.finished, fun hex => ⟨(h.exited hex).1, fun k => ?_⟩, h.scheduled,
    fun k => ?_, ?_⟩
  · have hdk := (h.exited hex).2 k
    by_cases hk : k = th
    · subst hk
      exact (update_self ..).trans (hdn hdk)
    · exact (update_of_ne hk ..).trans hdk
  · by_cases hk : k = th
    · subst hk
      simpa only [State.due, update_self] using htk
    · simpa only [State.due, update_of_ne hk] using h.tracks k
  · exact (passed_update hps false).trans (h.passed.trans (passed_update hps true).symm)

lemma Inv.start (h : Inv p nsys n s) (hsr : Sorted p n i₀ i₁)
    (hjob : s.threads th = .ready job) : Inv p nsys n (s.begun p th job) := by
  have htk := h.tracks th
  rw [hjob] at htk
  obtain ⟨htk', hps⟩ := htk.start (htk.not_armed hsr)
  have hst := h.setThread htk' (hjob ▸ hps) id
  rw [update_eq_self] at hst
  have heq : (if job.colliding then update s.executed th (s.executed th ++ [ran p th job])
      else s.executed) =
      update s.executed th (s.executed th ++ (Status.ready job).pending p th) := by
    rw [Status.pending]
    split_ifs
    · rfl
    · rw [append_nil, update_eq_self]
  rwa [State.begun, heq]

lemma Inv.leaveBarrier (h : Inv p nsys n s) (hfl : s.threads false = .barrier job)
    (htr : s.threads true = .barrier job') :
    Inv p nsys n
      { s with threads := fun th => if th then .running job' else .running job } := by
  have hlv : ∀ {th job}, s.threads th = .barrier job → Armed (s.executed th) ∧
      Track p th (s.due p th) (s.executed th) (.running job) (s.raceDone th) := by
    intro th job hjob
    have htk := h.tracks th
    rw [hjob] at htk
    exact ⟨htk.armed htk.sound, htk.ran, trivial, htk.armed, htk.raced⟩
  refine { h with tracks := fun th => ?_, passed := ?_ }
  · cases th with
    | false => exact (hlv hfl).2
    | true => exact (hlv htr).2
  · exact ⟨fun _ => ⟨(hlv htr).1, rfl⟩, fun _ => ⟨(hlv hfl).1, rfl⟩⟩

lemma Inv.finish (h : Inv p nsys n s) (hjob : s.threads th = .running job) :
    Inv p nsys n (s.ended th job) := by
  have htk := h.tracks th
  rw [hjob] at htk
  have hdn : Track p th (s.due p th) (s.executed th) .done
      (job.executingRacySyscall || s.raceDone th) := by
    refine ⟨htk.ran, trivial, fun h => (by cases h), ?_⟩
    have har := htk.armed
    have hrd := htk.raced
    cases hrc : job.executingRacySyscall with
    | true => simpa [Status.racing] using har hrc
    | false => simpa [Status.racing, hrc] using hrd
  have hst := h.setThread hdn (by rw [hjob]; exact Iff.rfl) (fun h => by rw [h, Bool.or_true])
  rw [update_eq_self] at hst
  have heq : (if job.executingRacySyscall then update s.raceDone th true else s.raceDone) =
      update s.raceDone th (job.executingRacySyscall || s.raceDone th) := by
    cases job.executingRacySyscall with
    | true => rfl
    | false => exact (update_eq_self th _).symm
  rwa [State.ended, heq]

/-- The process exits. -/
lemma Inv.exit (h : Inv p nsys n s) (hfn : s.finished) (hdn : ∀ th, s.raceDone th) :
    Inv p nsys n { s with exited := true } :=
  { h with exited := fun _ => ⟨hfn, hdn⟩ }

lemma Inv.step (h : Inv p nsys n s) (hsr : Sorted p n i₀ i₁) (hinp : HasCalls nsys input n)
    (hst : Steps p input nsys s e t) : Inv p nsys n t := by
  cases hst with
  | fail e hs hrd =>
    obtain ⟨m, hm, -⟩ := h.position hs.1
    have hnx := hm.next
    rw [hrd] at hnx
    exact hnx.elim
  | retry rest hs hrd hcl => exact h.retry hs hcl hinp
  | done rest hs hrd hcl => exact h.done hs hrd hcl
  | copyin x rest hs hrd | copyout x rest hs hrd =>
    refine h.skip hs fun m hm => ?_
    have hnx := hm.next
    rwa [hrd] at hnx
  | schedule call rest hs hrd hfr => exact h.schedule hs hrd hfr
  | exit hfn hdn hex hfl => exact h.exit hfn hdn
  | start th job hjob => exact h.start hsr hjob
  | barrier job job' hfl htr => exact h.leaveBarrier hfl htr
  | finish th job hjob => exact h.finish hjob

lemma inv_run {es : List Ev} (hsr : Sorted p n i₀ i₁) (hinp : HasCalls nsys input n)
    (hrun : run (step p input nsys) (ExecuteOne.start input) es = some s) :
    Inv p nsys n s :=
  run_inv_hist (I := fun _ s => Inv p nsys n s) (inv_start hinp)
    (fun _ _ _ _ _ hm he => hm.step hsr hinp (steps_of he)) hrun

end Steps

/-! ### No deadlock -/

/-- No thread has anything to do, although none is gone. -/
def Stuck (p : RaceInfo × RaceInfo) (input : List UInt8) (syscallCount : ℕ) (s : State) : Prop :=
  ∀ e, stepLive p input syscallCount s e = none

lemma Stuck.status (h : Stuck p input nsys s) (th : Bool) :
    s.threads th = .absent ∨ s.threads th = .done ∨ ∃ job, s.threads th = .barrier job := by
  have hst := h (.start th)
  have hfn := h (.finish th)
  cases hth : s.threads th with
  | absent => exact .inl rfl
  | done => exact .inr (.inl rfl)
  | ready job => simp [stepLive, hth] at hst
  | barrier job => exact .inr (.inr ⟨job, rfl⟩)
  | running job => simp [stepLive, hth] at hfn

lemma Stuck.pending (h : Stuck p input nsys s) (th : Bool) : (s.threads th).pending p th = [] := by
  rcases h.status th with hth | hth | ⟨job, hth⟩ <;> rw [hth] <;> rfl

lemma Stuck.main (h : Stuck p input nsys s) (hinv : Inv p nsys n s)
    (hs : s.finished = false) : (s.threads (s.target p)).isBarrier := by
  obtain ⟨m, hm, -⟩ := hinv.position hs
  have hmn : stepMain p input nsys s = none := h .main
  rw [stepMain, if_neg (by simp [hinv.ok]), if_neg (by simp [hs])] at hmn
  cases hm with
  | eof hrd =>
    rw [hrd] at hmn
    cases hc : s.colliding <;> simp [hc] at hmn
  | copyin hrd | copyout hrd =>
    rw [hrd] at hmn
    cases hmn
  | call hrd =>
    rw [hrd] at hmn
    simp only [ExecuteOne.schedule, jobFor] at hmn
    rcases h.status (s.target p) with hth | hth | ⟨job, hth⟩
    · rw [State.target] at hth
      simp [hth] at hmn
    · rw [State.target] at hth
      simp [hth] at hmn
    · rw [hth]
      rfl

variable {v : UInt64} {i m : ℕ}

section Request

variable {r : Request} {b₀ b₁ sched : UInt64}

lemma toNat_ofNat (h : n < 2 ^ 64) : (ofNat n).toNat = n := by
  rw [toNat_ofNat']
  exact Nat.mod_eq_of_lt h

end Request

end Razzer.ExecuteOne
