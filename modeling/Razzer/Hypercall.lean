import Mathlib

/-!
The hypercalls of the modified hypervisor, on its two virtual CPUs.

A virtual CPU leaves the guest at the hypercall address, to have a command carried out, or
at a breakpoint or a single step, and passes through `wait_race` before it enters the guest
again. Every function here is one region that runs under `qemu_race_mutex`, or the part of
`wait_race` that follows the mutex; the condition wait inside `wait_race` gives the mutex
up, so the regions before and after it are two functions. The arrays of `hypercall.c` that
are indexed by the virtual CPU are fields of its record.
-/

namespace Razzer.Hypercall

/-- The index of a virtual CPU; the opponent of `c` is `!c`. -/
abbrev VCpu := Bool

inductive Phase
  | unreached | sleeping | passed
  deriving DecidableEq

inductive Status
  | ready | running
  deriving DecidableEq

inductive Errno
  | enobufs | eexist | enoent
  deriving DecidableEq

structure Cpu where
  status : Status
  phase : Phase
  isRefresh : Bool
  readingAddr : UInt64
  writingAddr : UInt64
  waitRace : Bool
  isRace : Bool
  goFirst : Bool
  wakeUp : Bool
  done : Bool
  skipping : Bool
  singlestep : Bool
  insertedBreakpoint : UInt64
  raceId : UInt32
  sched : UInt32
  guestTid : UInt64
  hwBps : List UInt64

structure Hv where
  cpu : VCpu → Cpu
  canGo : Bool

def Hv.set (h : Hv) (c : VCpu) (x : Cpu) : Hv := { h with cpu := Function.update h.cpu c x }

@[simp] lemma Hv.set_self (h : Hv) (c : VCpu) (x : Cpu) : (h.set c x).cpu c = x := by
  simp [Hv.set]

@[simp] lemma Hv.set_opp (h : Hv) (c : VCpu) (x : Cpu) : (h.set c x).cpu (!c) = h.cpu (!c) := by
  simp [Hv.set]

@[simp] lemma Hv.set_set (h : Hv) (c : VCpu) (x y : Cpu) : (h.set c x).set c y = h.set c y := by
  simp [Hv.set]

/-! ### The table of hardware breakpoints -/

def insertBp (bps : List UInt64) (addr : UInt64) : Except Errno (List UInt64) :=
  if bps.length = 4 then .error .enobufs
  else if addr ∈ bps then .error .eexist
  else .ok (bps ++ [addr])

/-- The last entry takes the place of the one removed. -/
def removeBp (bps : List UInt64) (addr : UInt64) : Except Errno (List UInt64) :=
  if addr ∈ bps then .ok ((bps.set (bps.idxOf addr) (bps.getLastD 0)).dropLast)
  else .error .enoent

/-- A failed insertion or removal leaves the table as it was. -/
def orKeep (bps : List UInt64) : Except Errno (List UInt64) → List UInt64
  | .ok bps' => bps'
  | .error _ => bps

/-! ### The commands -/

structure HcallArg where
  addr : UInt64
  sched : UInt32
  raceId : UInt32

def commandStart (x : Cpu) (arg : HcallArg) : Cpu × Option UInt64 :=
  match x.status with
  | .running => (x, some (-1))
  | .ready =>
    let addr := arg.addr ||| 0xffffffff00000000
    ({ x with
        isRace := false
        hwBps := orKeep x.hwBps (insertBp x.hwBps addr)
        phase := .unreached
        insertedBreakpoint := addr
        raceId := arg.raceId
        sched := arg.sched
        status := .running }, none)

/-- `CMD_END`, with the value put into `rax`. -/
def commandEnd (x : Cpu) : Cpu × UInt64 :=
  match x.status with
  | .ready => (x, -1)
  | .running =>
    ({ x with
        hwBps := orKeep x.hwBps (removeBp x.hwBps x.insertedBreakpoint)
        insertedBreakpoint := 0
        status := .ready }, if x.isRace then 1 else 0)

/-- `CMD_REFRESH`; `H` is the hypercall address. -/
def commandRefresh (H : UInt64) (x : Cpu) : Cpu :=
  { x with
    status := .ready
    guestTid := 0
    goFirst := false
    skipping := false
    waitRace := false
    wakeUp := false
    isRefresh := true
    hwBps := orKeep [] (insertBp [] H) }

inductive Cmd
  | start (arg : HcallArg)
  | fin
  | refresh

/-- `handle_hypercall_command`, for a command of the guest thread `tid`; the second
component is the value put into `rax`, if one is. -/
def handleCommand (H : UInt64) (x : Cpu) (tid : UInt64) (cmd : Cmd) : Cpu × Option UInt64 :=
  let x := { x with guestTid := tid }
  match cmd with
  | .start arg => commandStart x arg
  | .fin => ((commandEnd x).1, some (commandEnd x).2)
  | .refresh => (commandRefresh H x, none)

/-! ### A breakpoint or a single step -/

/-- `handle_hypercall_breakpoint`: the thread `tid` left the guest at `rip`, and the
random draw says to `skip` this hit. A breakpoint that cannot be removed ends the
hypervisor. -/
def handleBreakpoint (x : Cpu) (tid rip : UInt64) (skip : Bool) : Option Cpu :=
  if x.singlestep then
    if x.skipping then
      -- the address re-inserted is the flag that has just been cleared
      some { x with
        singlestep := false
        hwBps := orKeep x.hwBps (insertBp x.hwBps 0)
        skipping := false }
    else some { x with singlestep := false, wakeUp := true }
  else if x.insertedBreakpoint = rip then
    let stop := decide (tid = x.guestTid) && !skip
    let goFirst := if stop then decide (x.raceId = x.sched) else x.goFirst
    match removeBp x.hwBps rip with
    | .error _ => none
    | .ok bps =>
      some { x with
        skipping := skip
        waitRace := x.waitRace || stop
        goFirst := goFirst
        hwBps := bps
        insertedBreakpoint := if skip then x.insertedBreakpoint else 0
        singlestep := skip || goFirst
        wakeUp := if goFirst then false else x.wakeUp }
  else some x

/-! ### `wait_race` -/

inductive Access
  | read (addr : UInt64)
  | write (addr : UInt64)
  deriving DecidableEq

/-- The access the instruction makes: the first operand with an address, and the last of
the four operands is the one written. -/
def decode (ops : Fin 4 → UInt64) : Option Access :=
  if ops 0 ≠ 0 then some (.read (ops 0))
  else if ops 1 ≠ 0 then some (.read (ops 1))
  else if ops 2 ≠ 0 then some (.read (ops 2))
  else if ops 3 ≠ 0 then some (.write (ops 3))
  else none

def record (x : Cpu) : Option Access → Cpu
  | some (.read a) => { x with readingAddr := a, writingAddr := 0 }
  | some (.write a) => { x with writingAddr := a, readingAddr := 0 }
  | none => x

@[simp] lemma record_isRace (x : Cpu) (a : Option Access) : (record x a).isRace = x.isRace := by
  rcases a with _ | _ | _ <;> rfl

@[simp] lemma record_waitRace (x : Cpu) (a : Option Access) :
    (record x a).waitRace = x.waitRace := by
  rcases a with _ | _ | _ <;> rfl

@[simp] lemma record_isRefresh (x : Cpu) (a : Option Access) :
    (record x a).isRefresh = x.isRefresh := by
  rcases a with _ | _ | _ <;> rfl

@[simp] lemma record_status (x : Cpu) (a : Option Access) : (record x a).status = x.status := by
  rcases a with _ | _ | _ <;> rfl

@[simp] lemma record_inserted (x : Cpu) (a : Option Access) :
    (record x a).insertedBreakpoint = x.insertedBreakpoint := by
  rcases a with _ | _ | _ <;> rfl

def isSameAddress (x y : Cpu) : Bool :=
  (x.writingAddr != 0 && y.writingAddr != 0 && x.writingAddr == y.writingAddr) ||
  (x.writingAddr != 0 && y.readingAddr != 0 && x.writingAddr == y.readingAddr) ||
  (x.readingAddr != 0 && y.writingAddr != 0 && x.readingAddr == y.writingAddr)

lemma isSameAddress_comm (x y : Cpu) : isSameAddress x y = isSameAddress y x := by
  have hsy : ∀ a b : UInt64, (a == b) = (b == a) := fun a b => Bool.beq_comm
  simp only [isSameAddress, hsy y.writingAddr x.writingAddr, hsy y.writingAddr x.readingAddr,
    hsy y.readingAddr x.writingAddr, Bool.and_comm (y.writingAddr != 0),
    Bool.and_comm (y.readingAddr != 0)]
  rw [Bool.or_assoc, Bool.or_assoc, Bool.or_comm (_ && _ && (x.writingAddr == y.readingAddr))]

lemma isSameAddress_cpus (h : Hv) (c : VCpu) :
    isSameAddress (h.cpu false) (h.cpu true) = isSameAddress (h.cpu c) (h.cpu (!c)) := by
  cases c
  · rfl
  · exact isSameAddress_comm _ _

lemma isSameAddress_set (h : Hv) (c : VCpu) (x : Cpu) :
    isSameAddress ((h.set c x).cpu false) ((h.set c x).cpu true) =
      isSameAddress x (h.cpu (!c)) := by
  rw [isSameAddress_cpus _ c, Hv.set_self, Hv.set_opp]

def refreshed (x : Cpu) : Cpu :=
  if x.isRefresh then
    { x with
      isRefresh := false
      writingAddr := 0
      readingAddr := 0
      phase := .unreached
      done := false }
  else x

def settle (x : Cpu) (verdict : Bool) : Cpu :=
  { x with phase := .passed, waitRace := false, done := false, isRace := verdict }

@[simp] lemma settle_phase (x : Cpu) (v : Bool) : (settle x v).phase = .passed := rfl

@[simp] lemma settle_isRace (x : Cpu) (v : Bool) : (settle x v).isRace = v := rfl

@[simp] lemma settle_waitRace (x : Cpu) (v : Bool) : (settle x v).waitRace = false := rfl

@[simp] lemma isSameAddress_settle (x y : Cpu) (v : Bool) :
    isSameAddress (settle x v) y = isSameAddress x y := rfl

/-- `wait_race` up to the end of its critical region, or up to the condition wait; the
second component says that the virtual CPU now waits. -/
def waitRaceEnter (h : Hv) (c : VCpu) (ops : Fin 4 → UInt64) : Hv × Bool :=
  let x := refreshed (h.cpu c)
  if x.waitRace then
    let x := record x (decode ops)
    let h := h.set c x
    match (h.cpu (!c)).phase with
    | .sleeping =>
      ({ h.set c (settle x (isSameAddress (h.cpu false) (h.cpu true))) with canGo := false }, false)
    | .passed => (h.set c (settle x false), false)
    | .unreached => (h.set c { x with phase := .sleeping }, true)
  else (h.set c x, false)

lemma waitRaceEnter_opp (h : Hv) (c : VCpu) (ops : Fin 4 → UInt64) :
    (waitRaceEnter h c ops).1.cpu (!c) = h.cpu (!c) := by
  unfold waitRaceEnter
  simp only
  split
  · split <;> simp
  · simp

variable {h : Hv} {c : VCpu}

lemma waitRaceEnter_idle (hw : (h.cpu c).waitRace = false) (ops : Fin 4 → UInt64) :
    waitRaceEnter h c ops = (h.set c (refreshed (h.cpu c)), false) := by
  have : (refreshed (h.cpu c)).waitRace = false := by
    unfold refreshed
    split <;> exact hw
  simp [waitRaceEnter, this]

lemma waitRaceEnter_stopped (hf : (h.cpu c).isRefresh = false) (hw : (h.cpu c).waitRace)
    (ops : Fin 4 → UInt64) :
    waitRaceEnter h c ops =
      match (h.cpu (!c)).phase with
      | .sleeping =>
        ({ h.set c (settle (record (h.cpu c) (decode ops))
            (isSameAddress (record (h.cpu c) (decode ops)) (h.cpu (!c)))) with canGo := false },
          false)
      | .passed => (h.set c (settle (record (h.cpu c) (decode ops)) false), false)
      | .unreached =>
        (h.set c { record (h.cpu c) (decode ops) with phase := .sleeping }, true) := by
  have hr : refreshed (h.cpu c) = h.cpu c := by simp [refreshed, hf]
  simp only [waitRaceEnter, hr, hw, if_true, Hv.set_opp, Hv.set_set, isSameAddress_set]

/-- `wait_race` after the condition wait, which returned `signalled`. -/
def waitRaceWake (h : Hv) (c : VCpu) (signalled : Bool) : Hv :=
  let bothBpHit := signalled || decide ((h.cpu (!c)).phase = .passed)
  h.set c (settle (h.cpu c) (bothBpHit && isSameAddress (h.cpu false) (h.cpu true)))

/-- `wait_race` after the mutex: the virtual CPU that goes second waits for the futex until
it is `released` by a wake-up or a time-out, and the one that goes first wakes it. -/
def waitRaceGo (h : Hv) (c : VCpu) (released : Bool) : Option Hv :=
  let x := h.cpu c
  if x.isRace && !x.goFirst && !x.done then
    if h.canGo || released then some (h.set c { x with done := true }) else none
  else if x.isRace && x.goFirst && x.wakeUp && !x.done then
    some { h.set c { x with done := true } with canGo := true }
  else some h

def initHypercall (H : UInt64) : Cpu :=
  ⟨.ready, .unreached, false, 0, 0, false, false, false, false, false, false, false, 0, 0, 0, 0,
    orKeep [] (insertBp [] H)⟩

end Razzer.Hypercall
