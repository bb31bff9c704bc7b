import Razzer.Hypercall
import Razzer.Runs

/-!
The table of hardware breakpoints, against any sequence of commands and events.

The guest chooses the addresses that are put into the table and when they are taken out, and
the address at which it issues its commands is in the same table. The order of events is not
restricted here: a virtual CPU that executes at the hypercall address issues a command, one
that executes at another address of the table, or is in a single step, causes a debug event,
and `wait_race` may run at any time.
-/

namespace Razzer.Breakpoints

open Hypercall Runs List Option Function

/-! ### The table -/

variable {a H rip tid : UInt64} {bps : List UInt64} {x x' : Cpu} {h : Hv}

variable {bps' : List UInt64} {skip : Bool} {c : VCpu} {cmd : Cmd}

lemma removeBp_perm (h : removeBp bps a = .ok bps') : a ∈ bps ∧ bps'.Perm (bps.erase a) := by
  unfold removeBp at h
  split at h
  case isFalse => cases h
  case isTrue ha =>
    cases h
    refine ⟨ha, ?_⟩
    obtain rfl | ⟨l, z, rfl⟩ := eq_nil_or_concat' bps
    · cases ha
    rw [getLastD_concat]
    by_cases hl : a ∈ l
    · have hlt : l.idxOf a < l.length := idxOf_lt_length_of_mem hl
      rw [idxOf_append_of_mem hl, set_append_left _ _ hlt, dropLast_concat,
        erase_append_left _ hl, erase_eq_eraseIdx_of_idxOf rfl]
      exact (set_perm_cons_eraseIdx hlt z).trans (perm_append_singleton z _).symm
    · have haz : a = z := by simpa [hl] using ha
      subst haz
      have hidx : (l ++ [a]).idxOf a = l.length := by
        rw [idxOf_append_of_notMem hl]
        simp
      rw [hidx, erase_append_right _ hl]
      simp

lemma removeBp_isOk (h : a ∈ bps) : ∃ bps', removeBp bps a = .ok bps' := by
  rw [removeBp, if_pos h]
  exact ⟨_, rfl⟩

/-- The table has the hypercall address, at most four entries and none of them twice. -/
structure TableOk (H : UInt64) (bps : List UInt64) : Prop where
  armed : H ∈ bps
  capacity : bps.length ≤ 4
  nodup : bps.Nodup

lemma TableOk.insert (h : TableOk H bps) (a : UInt64) :
    TableOk H (orKeep bps (insertBp bps a)) := by
  unfold insertBp
  split
  · exact h
  · split
    · exact h
    · have hlen := h.capacity
      refine ⟨mem_append_left _ h.armed, ?_, ?_⟩
      · rw [orKeep, length_append, length_singleton]
        omega
      · rw [orKeep, nodup_append_comm]
        exact nodup_cons.2 ⟨‹_›, h.nodup⟩

/-- A removal keeps the table in order unless it takes the hypercall address out. -/
lemma TableOk.remove (h : TableOk H bps) (hr : removeBp bps a = .ok bps') :
    TableOk H bps' ↔ a ≠ H := by
  obtain ⟨ha, hpr⟩ := removeBp_perm hr
  constructor
  · rintro hok rfl
    have hmem := hpr.mem_iff.1 hok.armed
    exact (h.nodup.mem_erase_iff.1 hmem).1 rfl
  · intro hne
    have hlen := hpr.length_eq
    have hcap := h.capacity
    rw [length_erase_of_mem ha] at hlen
    have har : H ∈ bps.erase a := h.nodup.mem_erase_iff.2 ⟨fun he => hne he.symm, h.armed⟩
    exact ⟨hpr.mem_iff.2 har, by omega, hpr.nodup_iff.2 (h.nodup.erase a)⟩

lemma TableOk.orKeep_remove (h : TableOk H bps) :
    TableOk H (orKeep bps (removeBp bps a)) ↔ a ≠ H := by
  cases hr : removeBp bps a with
  | ok bps' => exact h.remove hr
  | error e =>
    refine iff_of_true h ?_
    rintro rfl
    obtain ⟨bps', hok⟩ := removeBp_isOk h.armed
    rw [hok] at hr
    cases hr

/-! ### Events -/

inductive Ev
  | command (c : VCpu) (tid : UInt64) (cmd : Cmd)
  | debug (c : VCpu) (tid rip : UInt64) (skip : Bool)
  | enter (c : VCpu) (ops : Fin 4 → UInt64)
  | wake (c : VCpu) (signalled : Bool)
  | go (c : VCpu) (released : Bool)

/-- A debug exception at `rip` that is not a command. -/
def Traps (H : UInt64) (x : Cpu) (rip : UInt64) : Prop :=
  rip ≠ H ∧ (x.singlestep = true ∨ rip ∈ x.hwBps)

instance (H : UInt64) (x : Cpu) (rip : UInt64) : Decidable (Traps H x rip) :=
  inferInstanceAs (Decidable (_ ∧ _))

def step (H : UInt64) (h : Hv) : Ev → Option Hv
  | .command c tid cmd =>
    if (h.cpu c).singlestep = true ∨ H ∈ (h.cpu c).hwBps then
      some (h.set c (handleCommand H (h.cpu c) tid cmd).1)
    else none
  | .debug c tid rip skip =>
    if Traps H (h.cpu c) rip then (handleBreakpoint (h.cpu c) tid rip skip).map (h.set c) else none
  | .enter c ops => some (waitRaceEnter h c ops).1
  | .wake c signalled => some (waitRaceWake h c signalled)
  | .go c released => waitRaceGo h c released

def boot (H : UInt64) : Hv := ⟨fun _ => initHypercall H, false⟩

structure SameBps (x x' : Cpu) : Prop where
  status : x'.status = x.status
  skipping : x'.skipping = x.skipping
  singlestep : x'.singlestep = x.singlestep
  inserted : x'.insertedBreakpoint = x.insertedBreakpoint
  hwBps : x'.hwBps = x.hwBps

lemma SameBps.refl (x : Cpu) : SameBps x x := ⟨rfl, rfl, rfl, rfl, rfl⟩

lemma SameBps.trans {y z : Cpu} (h : SameBps x y) (h' : SameBps y z) : SameBps x z :=
  ⟨h'.status.trans h.status, h'.skipping.trans h.skipping, h'.singlestep.trans h.singlestep,
    h'.inserted.trans h.inserted, h'.hwBps.trans h.hwBps⟩

lemma sameBps_refreshed (x : Cpu) : SameBps x (refreshed x) := by
  unfold refreshed
  split <;> exact ⟨rfl, rfl, rfl, rfl, rfl⟩

lemma sameBps_record (x : Cpu) (a : Option Access) : SameBps x (record x a) := by
  rcases a with _ | _ | _ <;> exact ⟨rfl, rfl, rfl, rfl, rfl⟩

lemma forall_set {P : VCpu → Cpu → Prop} (hx : P c x) (h' : ∀ d, P d (h.cpu d))
    (d : VCpu) : P d ((h.set c x).cpu d) := by
  rcases Bool.eq_or_eq_not d c with rfl | rfl
  · rwa [Hv.set_self]
  · rw [Hv.set_opp]
    exact h' _

def Ev.IsWait : Ev → Prop
  | .command .. | .debug .. => False
  | .enter .. | .wake .. | .go .. => True

/-- **`wait_race` leaves the breakpoints alone.** -/
lemma waitRace_sameBps {h' : Hv} {e : Ev} (he : e.IsWait) (hs : step H h e = some h') (d : VCpu) :
    SameBps (h.cpu d) (h'.cpu d) := by
  have hset : ∀ {c : VCpu} {x : Cpu} {b : Bool}, SameBps (h.cpu c) x →
      SameBps (h.cpu d) (({ h.set c x with canGo := b } : Hv).cpu d) := fun hx =>
    forall_set (P := fun d y => SameBps (h.cpu d) y) hx (fun d => SameBps.refl _) d
  cases e with
  | command c tid cmd | debug c tid rip skip => exact he.elim
  | enter c ops =>
    cases hs
    have hrec : SameBps (h.cpu c) (record (refreshed (h.cpu c)) (decode ops)) :=
      (sameBps_refreshed _).trans (sameBps_record _ _)
    unfold waitRaceEnter
    simp only
    split
    · split
      · simp only [Hv.set_set]
        exact hset (hrec.trans ⟨rfl, rfl, rfl, rfl, rfl⟩)
      · simp only [Hv.set_set]
        exact hset (hrec.trans ⟨rfl, rfl, rfl, rfl, rfl⟩)
      · simp only [Hv.set_set]
        exact hset (hrec.trans ⟨rfl, rfl, rfl, rfl, rfl⟩)
    · exact hset (sameBps_refreshed _)
  | wake c signalled =>
    cases hs
    exact hset ⟨rfl, rfl, rfl, rfl, rfl⟩
  | go c released =>
    simp only [step, waitRaceGo] at hs
    split at hs
    · rw [ite_none_right_eq_some, some.injEq] at hs
      obtain ⟨-, rfl⟩ := hs
      exact hset ⟨rfl, rfl, rfl, rfl, rfl⟩
    · split at hs <;> cases hs
      · exact hset ⟨rfl, rfl, rfl, rfl, rfl⟩
      · exact SameBps.refl _

/-- **What a debug event does to the breakpoints.** The single step after a skipped hit inserts
address `0`, another single step changes nothing, and a hit takes the breakpoint out. -/
lemma handleBreakpoint_cases (h : handleBreakpoint x tid rip skip = some x') :
    (x.singlestep ∧ x.skipping ∧ x' = { x with
        singlestep := false, hwBps := orKeep x.hwBps (insertBp x.hwBps 0), skipping := false }) ∨
    (x.singlestep ∧ x.skipping = false ∧ x' = { x with
        singlestep := false, wakeUp := true }) ∨
    (x.singlestep = false ∧ x.insertedBreakpoint = rip ∧ removeBp x.hwBps rip = .ok x'.hwBps ∧
        x'.status = x.status ∧ x'.skipping = skip ∧ (skip → x'.singlestep) ∧
        x'.insertedBreakpoint = if skip then x.insertedBreakpoint else 0) ∨
    (x.singlestep = false ∧ x.insertedBreakpoint ≠ rip ∧ x' = x) := by
  unfold handleBreakpoint at h
  cases hs : x.singlestep with
  | true =>
    cases hk : x.skipping with
    | true =>
      simp only [hs, hk, if_true, some.injEq] at h
      exact .inl ⟨rfl, rfl, h.symm⟩
    | false =>
      simp only [hs, hk, if_true, Bool.false_eq_true, if_false, some.injEq] at h
      refine .inr (.inl ⟨rfl, rfl, h.symm.trans ?_⟩)
      rw [← hk]
  | false =>
    simp only [hs, Bool.false_eq_true, if_false] at h
    by_cases hr : x.insertedBreakpoint = rip
    · rw [if_pos hr] at h
      cases hb : removeBp x.hwBps rip with
      | error e => simp [hb] at h
      | ok bps =>
        simp only [hb, some.injEq] at h
        subst h
        exact .inr (.inr (.inl ⟨rfl, hr, rfl, rfl, rfl, fun hsk => by simp [hsk], rfl⟩))
    · rw [if_neg hr] at h
      exact .inr (.inr (.inr ⟨rfl, hr, (some.inj h).symm⟩))

/-! ### The hypercall address stays in the table -/

/-- After the event, both tables are in order; and a debug event does not make the handler
fail. -/
def Survives (H : UInt64) (h : Hv) (e : Ev) : Prop :=
  (∀ h', step H h e = some h' → ∀ d, TableOk H (h'.cpu d).hwBps) ∧
    ∀ c tid rip skip, e = .debug c tid rip skip → Traps H (h.cpu c) rip →
      (handleBreakpoint (h.cpu c) tid rip skip).isSome

/-- No end command is carried out that takes the hypercall address out. -/
def Spares (H : UInt64) (h : Hv) : Ev → Prop
  | .command c _ .fin => ¬ ((h.cpu c).status = .running ∧ (h.cpu c).insertedBreakpoint = H)
  | _ => True

lemma tableOk_command (hx : TableOk H x.hwBps) (tid : UInt64) (cmd : Cmd) :
    TableOk H (handleCommand H x tid cmd).1.hwBps ↔
      ¬ (cmd = .fin ∧ x.status = .running ∧ x.insertedBreakpoint = H) := by
  cases cmd with
  | start arg =>
    cases hs : x.status with
    | ready => simpa [handleCommand, commandStart, hs] using hx.insert _
    | running => simpa [handleCommand, commandStart, hs] using hx
  | fin =>
    cases hs : x.status with
    | ready => simpa [handleCommand, commandEnd, hs] using hx
    | running => simpa [handleCommand, commandEnd, hs] using hx.orKeep_remove
  | refresh =>
    refine iff_of_true ?_ (by simp)
    simp only [handleCommand, commandRefresh, insertBp, orKeep]
    exact ⟨by simp, by simp, by simp⟩

lemma tableOk_debug (hx : TableOk H x.hwBps) (hrip : rip ≠ H)
    (h : handleBreakpoint x tid rip skip = some x') : TableOk H x'.hwBps := by
  rcases handleBreakpoint_cases h with ⟨-, -, rfl⟩ | ⟨-, -, rfl⟩ | ⟨-, -, hr, -⟩ | ⟨-, -, rfl⟩
  · exact hx.insert 0
  · exact hx
  · exact (hx.remove hr).2 hrip
  · exact hx

lemma handleBreakpoint_isSome (h : Traps H x rip) :
    (handleBreakpoint x tid rip skip).isSome := by
  unfold handleBreakpoint
  cases hs : x.singlestep with
  | true =>
    rw [if_pos rfl]
    split <;> rfl
  | false =>
    have hmem : rip ∈ x.hwBps := h.2.resolve_left (by simp [hs])
    obtain ⟨bps, hb⟩ := removeBp_isOk hmem
    rw [if_neg (by simp)]
    split
    · simp only [hb, isSome_some]
    · rfl

lemma survives_iff (hi : ∀ d, TableOk H (h.cpu d).hwBps) (e : Ev) :
    Survives H h e ↔ Spares H h e := by
  have hset : ∀ (c : VCpu) (x : Cpu), (∀ d, TableOk H ((h.set c x).cpu d).hwBps) ↔
      TableOk H x.hwBps := by
    intro c x
    refine ⟨fun hall => ?_, fun hx => ?_⟩
    · have hc := hall c
      rwa [Hv.set_self] at hc
    · exact forall_set (P := fun _ y => TableOk H y.hwBps) hx hi
  cases e with
  | command c tid cmd =>
    have hlv : (h.cpu c).singlestep ∨ H ∈ (h.cpu c).hwBps := .inr (hi c).armed
    have hiff := tableOk_command (hi c) tid cmd
    simp only [Survives, step, if_pos hlv, some.injEq, forall_eq', hset, hiff,
      reduceCtorEq, false_implies, implies_true, and_true]
    cases cmd <;> simp [Spares]
  | debug c tid rip skip =>
    refine iff_of_true ⟨fun h' hs => ?_, ?_⟩ trivial
    · simp only [step, ite_none_right_eq_some, map_eq_some_iff] at hs
      obtain ⟨htr, x, hx, rfl⟩ := hs
      exact (hset c x).2 (tableOk_debug (hi c) htr.1 hx)
    · rintro c tid rip skip he htr
      cases he
      exact handleBreakpoint_isSome htr
  | _ =>
    refine iff_of_true ⟨fun h' hs d => ?_, fun _ _ _ _ he => by cases he⟩ trivial
    rw [(waitRace_sameBps (by exact trivial) hs d).hwBps]
    exact hi d

/-- **The hypercall breakpoint.** After every event of a run both tables have the hypercall
address, at most four entries and none of them twice, and the handler does not fail, if and
only if the guest never ends a program that it started with the hypercall address as its
breakpoint. -/
theorem table_survives_iff (H : UInt64) (es : List Ev) :
    Meets (step H) (Survives H) (boot H) es ↔ Meets (step H) (Spares H) (boot H) es := by
  refine meets_iff_of_inv (I := fun h => ∀ d, TableOk H (h.cpu d).hwBps)
    (fun h e hi => survives_iff hi e) (fun h e h' hi hsp hs => ?_) (fun d => ?_) es
  · exact ((survives_iff hi e).2 hsp).1 h' hs
  · exact ⟨mem_singleton_self H, by simp [boot, initHypercall, orKeep, insertBp],
      by simp [boot, initHypercall, orKeep, insertBp]⟩

/-- A program with the hypercall address as its breakpoint takes it out of the table. -/
theorem hypercall_disarmed :
    ¬ Meets (step 0xffffffff8117e7d1) (Survives 0xffffffff8117e7d1) (boot 0xffffffff8117e7d1)
      [.command false 1 (.start ⟨0x8117e7d1, 0, 0⟩), .command false 1 .fin] := by
  intro h
  have hend := h.2 _ rfl
  have hok := (hend.1.1 _ rfl false).armed
  exact absurd hok (by decide +kernel)

/-! ### The breakpoint of a program

From a successful start on, until the worker that issued it hits the breakpoint or an end
command comes, a *window* is open on the virtual CPU. It is no part of the hypervisor and is
kept beside it. -/

structure Window where
  addr : UInt64
  worker : UInt64
  deriving DecidableEq

structure Watch where
  hv : Hv
  window : VCpu → Option Window

variable {w : Option Window}

def windowCommand (x : Cpu) (tid : UInt64) (w : Option Window) : Cmd → Option Window
  | .start arg => if x.status = .ready then some ⟨arg.addr ||| 0xffffffff00000000, tid⟩ else w
  | .fin => none
  | .refresh => w

def windowDebug (x : Cpu) (tid rip : UInt64) (skip : Bool) (w : Option Window) : Option Window :=
  if x.singlestep = false ∧ skip = false ∧ w = some ⟨rip, tid⟩ then none else w

def Watch.windows (s : Watch) : Ev → VCpu → Option Window
  | .command c tid cmd =>
    update s.window c (windowCommand (s.hv.cpu c) tid (s.window c) cmd)
  | .debug c tid rip skip =>
    update s.window c (windowDebug (s.hv.cpu c) tid rip skip (s.window c))
  | _ => s.window

def Watch.step (H : UInt64) (s : Watch) (e : Ev) : Option Watch :=
  (Breakpoints.step H s.hv e).map fun h => ⟨h, s.windows e⟩

def Watch.boot (H : UInt64) : Watch := ⟨Breakpoints.boot H, fun _ => none⟩

/-- In a window, and not in the single step after a skipped hit, exactly the hypercall address
and the address of the program are armed. -/
def Armed (H : UInt64) (x : Cpu) (w : Option Window) : Prop :=
  ∀ v, w = some v → ¬ (x.singlestep = true ∧ x.skipping = true) →
    ∀ a, a ∈ x.hwBps ↔ a = H ∨ a = v.addr

def WindowOk (H : UInt64) (x : Cpu) : Option Window → Prop
  | none => x.hwBps = [H] ∧ x.insertedBreakpoint = 0
  | some v => x.status = .running ∧ x.insertedBreakpoint = v.addr ∧
      (x.hwBps = (if v.addr = H then [H] else [H, v.addr]) ∨
        x.singlestep = true ∧ x.skipping = true ∧ x.hwBps = [H])

lemma WindowOk.armed (h : WindowOk H x w) : Armed H x w := by
  rintro v rfl hst a
  obtain ⟨-, -, htab | ⟨hs, hk, -⟩⟩ := h
  · rw [htab]
    split
    · simp [*]
    · simp
  · exact absurd ⟨hs, hk⟩ hst

variable {s s' : Watch} {e : Ev}

end Razzer.Breakpoints
