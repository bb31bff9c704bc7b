import Razzer.Hypercall

/-!
A race request in the executor.

The executor receives two racy call indices, two breakpoint addresses and a `sched`, sorts
the indices, and runs the program a second time on two threads: the calls up to the smaller
index on the first thread, the rest on the second. A thread refreshes its virtual CPU before
its first call, and arms its breakpoint before its racy call. The hypervisor lets the
virtual CPU go first whose id is `sched`.
-/

namespace Razzer.RaceRequest

open Hypercall

structure Request where
  bp0 : UInt64
  bp1 : UInt64
  raceIndex0 : UInt64
  raceIndex1 : UInt64
  sched : UInt64

def Request.mirror (r : Request) : Request :=
  ⟨r.bp1, r.bp0, r.raceIndex1, r.raceIndex0, r.sched⟩

structure RaceInfo where
  bp : UInt64
  raceIndex : UInt64
  sched : UInt64

/-- `receive_execute`: the race info of the threads `0` and `1`. -/
def receive (r : Request) : RaceInfo × RaceInfo :=
  (⟨r.bp0, r.raceIndex0, r.sched⟩, ⟨r.bp1, r.raceIndex1, r.sched⟩)

/-- What a value is after it went through the `unsigned int` of `swap`. -/
def throughInt (v : UInt64) : UInt64 := v.toUInt32.toUInt64

/-- `prepare_race`: the smaller index goes to thread `0`, with its breakpoint. -/
def prepareRace (p : RaceInfo × RaceInfo) : RaceInfo × RaceInfo :=
  if p.1.raceIndex > p.2.raceIndex then
    ({ p.1 with raceIndex := p.2.raceIndex, bp := p.2.bp },
      { p.2 with raceIndex := throughInt p.1.raceIndex, bp := throughInt p.1.bp })
  else p

def toInt (v : UInt64) : ℤ := v.toUInt32.toBitVec.toInt

def infoOf (p : RaceInfo × RaceInfo) (th : Bool) : RaceInfo := if th then p.2 else p.1

/-- The thread a call of the colliding pass is scheduled on. -/
def threadOf (p : RaceInfo × RaceInfo) (callIndex : ℕ) : Bool :=
  decide ((callIndex : ℤ) > toInt p.1.raceIndex)

/-- `th->init`: the first call of its thread. -/
def isInit (p : RaceInfo × RaceInfo) (callIndex : ℕ) : Bool :=
  decide ((callIndex : ℤ) = if threadOf p callIndex then toInt (p.1.raceIndex + 1) else 0)

/-- `th->executing_racy_syscall` -/
def isRacy (p : RaceInfo × RaceInfo) (callIndex : ℕ) : Bool :=
  decide (toInt (infoOf p (threadOf p callIndex)).raceIndex = (callIndex : ℤ))

def startArg (p : RaceInfo × RaceInfo) (th : Bool) : HcallArg :=
  ⟨(infoOf p th).bp, (infoOf p th).sched.toUInt32, if th then 1 else 0⟩

/-- One call as it was run: its thread, whether the virtual CPU was refreshed before it, and
for a racy call the armed breakpoint and whether it is resumed first at the race. -/
structure Executed where
  callIndex : ℕ
  thread : Bool
  refreshed : Bool
  race : Option (UInt64 × Bool)
  deriving DecidableEq

section Pass

variable (H : UInt64) (tid : Bool → UInt64)

/-- `schedule_call` and `execute_call` in the colliding pass: the hypercalls of one call on
the virtual CPU of its thread, with a racy call that is stopped at its breakpoint. -/
def executeCall (p : RaceInfo × RaceInfo) (cpu : VCpu → Cpu) (callIndex : ℕ) :
    (VCpu → Cpu) × Executed :=
  let th := threadOf p callIndex
  let init := isInit p callIndex
  let x := if init then refreshed (handleCommand H (cpu th) (tid th) .refresh).1 else cpu th
  if isRacy p callIndex then
    let started := (handleCommand H x (tid th) (.start (startArg p th))).1
    let stopped := (handleBreakpoint started (tid th) started.insertedBreakpoint false).getD started
    (Function.update cpu th (handleCommand H stopped (tid th) .fin).1,
      ⟨callIndex, th, init, some (started.insertedBreakpoint, stopped.goFirst)⟩)
  else (Function.update cpu th x, ⟨callIndex, th, init, none⟩)

def executeCalls (p : RaceInfo × RaceInfo) (cpu : VCpu → Cpu) (callIndex : ℕ) :
    ℕ → (VCpu → Cpu) × List Executed
  | 0 => (cpu, [])
  | n + 1 =>
    let (cpu, e) := executeCall H tid p cpu callIndex
    let (cpu, es) := executeCalls p cpu (callIndex + 1) n
    (cpu, e :: es)

def executeOne (r : Request) (cpu : VCpu → Cpu) (n : ℕ) : (VCpu → Cpu) × List Executed :=
  executeCalls H tid (prepareRace (receive r)) cpu 0 n

end Pass

/-! ### What the hypervisor can tell apart -/

/-- The high half of an address is set by the start command. -/
def highHalf : UInt64 := 0xffffffff00000000

lemma throughInt_or_highHalf (v : UInt64) : throughInt v ||| highHalf = v ||| highHalf := by
  apply UInt64.toBitVec_inj.1
  have hms : highHalf.toBitVec = BitVec.allOnes 32 ++ 0#32 := by decide
  have hth : (throughInt v).toBitVec = (v.toBitVec.setWidth 32).setWidth 64 := rfl
  rw [UInt64.toBitVec_or, UInt64.toBitVec_or, hms, hth]
  apply BitVec.eq_of_getLsbD_eq
  intro i hi
  simp only [BitVec.getLsbD_or, BitVec.getLsbD_append, BitVec.getLsbD_setWidth, hi]
  by_cases h : i < 32
  · simp [h]
  · have : i - 32 < 32 := by omega
    simp only [h, if_false, BitVec.getLsbD_allOnes, this, decide_true, Bool.or_true]

lemma toInt_throughInt (v : UInt64) : toInt (throughInt v) = toInt v := by
  rw [toInt, throughInt, UInt32.toUInt32_toUInt64, toInt]

/-- Race infos that differ only in what neither program looks at: the high halves of the
second thread's index and breakpoint. -/
structure Alike (p q : RaceInfo × RaceInfo) : Prop where
  first : p.1 = q.1
  index : toInt p.2.raceIndex = toInt q.2.raceIndex
  bp : p.2.bp ||| highHalf = q.2.bp ||| highHalf
  sched : p.2.sched = q.2.sched

variable {H : UInt64} {tid : Bool → UInt64} {p q : RaceInfo × RaceInfo}

lemma Alike.threadOf (h : Alike p q) (i : ℕ) : threadOf p i = threadOf q i := by
  rw [RaceRequest.threadOf, h.first, RaceRequest.threadOf]

lemma Alike.isInit (h : Alike p q) (i : ℕ) : isInit p i = isInit q i := by
  rw [RaceRequest.isInit, h.threadOf, h.first, RaceRequest.isInit]

lemma Alike.isRacy (h : Alike p q) (i : ℕ) : isRacy p i = isRacy q i := by
  rw [RaceRequest.isRacy, RaceRequest.isRacy, h.threadOf]
  cases RaceRequest.threadOf q i with
  | false => simp [infoOf, h.first]
  | true => simp [infoOf, h.index]

variable {a b : HcallArg} {x : Cpu} {t : UInt64} {r : Request}

lemma handleCommand_start_congr (had : a.addr ||| highHalf = b.addr ||| highHalf)
    (hs : a.sched = b.sched) (hid : a.raceId = b.raceId) :
    handleCommand H x t (.start a) = handleCommand H x t (.start b) := by
  have had : a.addr ||| 0xffffffff00000000 = b.addr ||| 0xffffffff00000000 := had
  simp only [handleCommand, commandStart, had, hs, hid]

lemma Alike.start (h : Alike p q) (x : Cpu) (t : UInt64) (th : Bool) :
    handleCommand H x t (.start (startArg p th)) =
      handleCommand H x t (.start (startArg q th)) := by
  cases th with
  | false => simp [startArg, infoOf, h.first]
  | true =>
    exact handleCommand_start_congr h.bp (by simp [startArg, infoOf, h.sched]) rfl

lemma Alike.executeCall (h : Alike p q) (cpu : VCpu → Cpu) (i : ℕ) :
    executeCall H tid p cpu i = executeCall H tid q cpu i := by
  simp only [RaceRequest.executeCall, h.threadOf, h.isInit, h.isRacy, h.start]

lemma Alike.executeCalls (h : Alike p q) (cpu : VCpu → Cpu) (i n : ℕ) :
    executeCalls H tid p cpu i n = executeCalls H tid q cpu i n := by
  induction n generalizing cpu i with
  | zero => rfl
  | succ n ih => simp only [RaceRequest.executeCalls, h.executeCall, ih]

/-! ### Mirrored requests -/

lemma prepareRace_mirror (h : r.raceIndex0 < r.raceIndex1) :
    Alike (prepareRace (receive r.mirror)) (prepareRace (receive r)) := by
  have hr : ¬ r.raceIndex0 > r.raceIndex1 := UInt64.lt_asymm h
  have hm : r.raceIndex1 > r.raceIndex0 := h
  simp only [prepareRace, receive, Request.mirror, hr, hm, if_true, if_false]
  exact ⟨rfl, toInt_throughInt _, throughInt_or_highHalf _, rfl⟩

lemma executeOne_mirror_of_lt (h : r.raceIndex0 < r.raceIndex1) (cpu : VCpu → Cpu) (n : ℕ) :
    executeOne H tid r.mirror cpu n = executeOne H tid r cpu n :=
  (prepareRace_mirror h).executeCalls cpu 0 n

/-- **Mirrored requests.** A request and the one with its two sides exchanged and the same
`sched` run every call on the same thread, arm the same breakpoints, resume the same call
first and leave the virtual CPUs in the same state. -/
theorem executeOne_mirror (H : UInt64) (tid : Bool → UInt64) (r : Request)
    (h : r.raceIndex0 ≠ r.raceIndex1) (cpu : VCpu → Cpu) (n : ℕ) :
    executeOne H tid r.mirror cpu n = executeOne H tid r cpu n := by
  rcases UInt64.lt_or_lt_of_ne h with hlt | hgt
  · exact executeOne_mirror_of_lt hlt cpu n
  · exact (executeOne_mirror_of_lt (r := r.mirror) hgt cpu n).symm

theorem executeOne_mirror_two_calls :
    (executeOne 8 (fun _ => 1) ⟨32, 16, 1, 0, 0⟩ (fun _ => initHypercall 8) 2).2 =
      [⟨0, false, true, some (0xffffffff00000010, true)⟩,
        ⟨1, true, true, some (0xffffffff00000020, false)⟩] := by
  refine (congrArg Prod.snd (executeOne_mirror 8 (fun _ => 1) ⟨16, 32, 0, 1, 0⟩ ?_
    (fun _ => initHypercall 8) 2)).trans ?_
  · decide
  · decide +kernel

/-- With `sched` flipped as well, the mirrored request resumes the other call first. -/
theorem executeOne_mirror_flipped :
    (executeOne 8 (fun _ => 1) ⟨16, 32, 0, 1, 0⟩ (fun _ => initHypercall 8) 2).2.map
        Executed.race =
      [some (0xffffffff00000010, true), some (0xffffffff00000020, false)] ∧
    (executeOne 8 (fun _ => 1) { Request.mirror ⟨16, 32, 0, 1, 0⟩ with sched := 1 - 0 }
        (fun _ => initHypercall 8) 2).2.map Executed.race =
      [some (0xffffffff00000010, false), some (0xffffffff00000020, true)] := by
  constructor <;> decide +kernel

end Razzer.RaceRequest
