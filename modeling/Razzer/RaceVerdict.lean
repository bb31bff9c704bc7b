import Razzer.Hypercall
import Razzer.Runs

/-!
The verdicts of the two virtual CPUs on one racy program.

Each virtual CPU is refreshed, started, passes the guest's barrier, runs its racy call and
ends it, and between any two of these steps the other one may move. Exits from the guest
go through `wait_race`, which is entered, may sleep in its condition wait and is left by a
time-out, a broadcast or a spurious wake-up. The hypervisor's state before the program is
whatever earlier programs left behind.
-/

namespace Razzer.RaceVerdict

open Hypercall Runs Option

inductive Loc
  | guest | host | waiting | leaving
  deriving DecidableEq

inductive Pc
  | fresh | refreshed | started | racing | ended (verdict : UInt64)
  deriving DecidableEq

structure St where
  hv : Hv
  loc : VCpu → Loc
  pc : VCpu → Pc

inductive Ev
  | refresh (c : VCpu) (tid : UInt64)
  | start (c : VCpu) (tid : UInt64) (arg : HcallArg)
  | barrier
  | debug (c : VCpu) (tid rip : UInt64) (skip : Bool)
  | exit (c : VCpu)
  | enter (c : VCpu) (ops : Fin 4 → UInt64)
  | wake (c : VCpu) (signalled : Bool)
  | go (c : VCpu) (released : Bool)
  | fin (c : VCpu) (tid : UInt64)

def St.move (s : St) (c : VCpu) (h : Hv) (l : Loc) (p : Pc) : St :=
  ⟨h, Function.update s.loc c l, Function.update s.pc c p⟩

/-- One step. A worker's breakpoint is hit in its racy call only; other guest threads may
run into it at any time, and the guest does not execute at address `0`. -/
def step (H : UInt64) (s : St) : Ev → Option St
  | .refresh c tid =>
    if s.loc c = .guest ∧ s.pc c = .fresh then
      some (s.move c (s.hv.set c (handleCommand H (s.hv.cpu c) tid .refresh).1) .host .refreshed)
    else none
  | .start c tid arg =>
    if s.loc c = .guest ∧ s.pc c = .refreshed then
      match handleCommand H (s.hv.cpu c) tid (.start arg) with
      | (x, none) => some (s.move c (s.hv.set c x) .host .started)
      | (_, some _) => none
    else none
  | .barrier =>
    if ∀ c, s.loc c = .guest ∧ s.pc c = .started then some { s with pc := fun _ => .racing }
    else none
  | .debug c tid rip skip =>
    if s.loc c = .guest ∧ rip ≠ H ∧ rip ≠ 0 ∧ tid ≠ 0 ∧
        ((s.hv.cpu c).singlestep ∨ rip ∈ (s.hv.cpu c).hwBps) ∧
        (s.pc c = .racing ∨ tid ≠ (s.hv.cpu c).guestTid) then
      (handleBreakpoint (s.hv.cpu c) tid rip skip).map fun x =>
        s.move c (s.hv.set c x) .host (s.pc c)
    else none
  | .exit c => if s.loc c = .guest then some (s.move c s.hv .host (s.pc c)) else none
  | .enter c ops =>
    if s.loc c = .host then
      let (h, waits) := waitRaceEnter s.hv c ops
      some (s.move c h (if waits then .waiting else .leaving) (s.pc c))
    else none
  | .wake c signalled =>
    if s.loc c = .waiting then
      some (s.move c (waitRaceWake s.hv c signalled) .leaving (s.pc c))
    else none
  | .go c released =>
    if s.loc c = .leaving then
      (waitRaceGo s.hv c released).map fun h => s.move c h .guest (s.pc c)
    else none
  | .fin c tid =>
    if s.loc c = .guest ∧ s.pc c = .racing then
      match handleCommand H (s.hv.cpu c) tid .fin with
      | (x, some v) => some (s.move c (s.hv.set c x) .host (.ended v))
      | (_, none) => none
    else none

def init (h : Hv) : St := ⟨h, fun _ => .guest, fun _ => .fresh⟩

/-! ### One virtual CPU -/

structure SameCore (x x' : Cpu) : Prop where
  phase : x'.phase = x.phase
  isRace : x'.isRace = x.isRace
  reading : x'.readingAddr = x.readingAddr
  writing : x'.writingAddr = x.writingAddr

/-- A virtual CPU between its start and its end: it has not stopped, it has stopped and not
entered `wait_race`, it sleeps there, or it has passed. -/
structure Stage (x : Cpu) (l : Loc) : Prop where
  settled : x.isRefresh = false
  sleeps : l = .waiting ↔ x.phase = .sleeping
  asleep : x.phase = .sleeping → x.waitRace = true
  pending : x.waitRace = true → x.phase ≠ .passed ∧ (x.phase = .unreached → l = .host)
  clean : x.phase = .unreached → x.readingAddr = 0 ∧ x.writingAddr = 0
  early : x.phase ≠ .passed → x.isRace = false
  disarmed : x.waitRace = true ∨ x.phase ≠ .unreached → x.insertedBreakpoint = 0

def Own (x : Cpu) (l : Loc) : Pc → Prop
  | .fresh => True
  | .refreshed => x.waitRace = false ∧ x.status = .ready ∧ l ≠ .waiting ∧
      (l = .host ∧ x.isRefresh = true ∨
        x.isRefresh = false ∧ x.readingAddr = 0 ∧ x.writingAddr = 0)
  | .started => Stage x l ∧ x.phase = .unreached ∧ x.waitRace = false ∧ x.status = .running
  | .racing => Stage x l ∧ x.status = .running
  | .ended v => Stage x l ∧ x.waitRace = false ∧ v = if x.isRace then 1 else 0

def Live : Pc → Prop
  | .racing | .ended _ => True
  | _ => False

variable {l : Loc} {p : Pc} {x x' y : Cpu} {tid : UInt64} {c : VCpu} {h : Hv} {t : St}

lemma Own.stage (h : Own x l p) (hp : Live p) : Stage x l := by
  cases p with
  | racing | ended v => exact h.1
  | fresh | refreshed | started => exact hp.elim

lemma Stage.leave {l' : Loc} (h : Stage x l) (hc : SameCore x x') (hf : x'.isRefresh = x.isRefresh)
    (hw : x'.waitRace = x.waitRace)
    (hi : x'.insertedBreakpoint = x.insertedBreakpoint ∨ x'.insertedBreakpoint = 0)
    (hl : l ≠ .waiting) (hl' : l' ≠ .waiting) (hh : l = .host → x.waitRace = false) :
    Stage x' l' := by
  have hph : x.phase ≠ .sleeping := fun e => hl (h.sleeps.2 e)
  refine ⟨hf.trans h.settled, ?_, ?_, ?_, ?_, ?_, ?_⟩
  · rw [hc.phase]
    exact ⟨fun e => absurd e hl', fun e => absurd e hph⟩
  · rw [hc.phase]
    exact fun e => absurd e hph
  · rw [hc.phase, hw]
    intro hwt
    refine ⟨(h.pending hwt).1, fun hu => ?_⟩
    have := hh ((h.pending hwt).2 hu)
    simp [this] at hwt
  · rw [hc.phase, hc.reading, hc.writing]
    exact h.clean
  · rw [hc.phase, hc.isRace]
    exact h.early
  · rw [hc.phase, hw]
    intro hd
    rcases hi with hi | hi
    · rw [hi, h.disarmed hd]
    · exact hi

lemma Own.leave {l' : Loc} (h : Own x l p) (hc : SameCore x x') (hf : x'.isRefresh = x.isRefresh)
    (hw : x'.waitRace = x.waitRace) (hs : x'.status = x.status)
    (hi : x'.insertedBreakpoint = x.insertedBreakpoint ∨ x'.insertedBreakpoint = 0)
    (hl : l = .guest ∨ l = .leaving) (hl' : l' ≠ .waiting) : Own x' l' p := by
  have hwt : l ≠ .waiting := by rcases hl with rfl | rfl <;> simp
  have hhs : l ≠ .host := by rcases hl with rfl | rfl <;> simp
  have hsg : Stage x l → Stage x' l' := fun hst =>
    hst.leave hc hf hw hi hwt hl' (fun e => absurd e hhs)
  cases p with
  | fresh => trivial
  | refreshed =>
    obtain ⟨h1, h2, -, h3⟩ := h
    rcases h3 with ⟨e, -⟩ | h3
    · exact absurd e hhs
    · exact ⟨hw.trans h1, hs.trans h2, hl', .inr ⟨hf.trans h3.1, hc.reading.trans h3.2.1,
        hc.writing.trans h3.2.2⟩⟩
  | started =>
    exact ⟨hsg h.1, hc.phase.trans h.2.1, hw.trans h.2.2.1, hs.trans h.2.2.2⟩
  | racing => exact ⟨hsg h.1, hs.trans h.2⟩
  | ended v => exact ⟨hsg h.1, hw.trans h.2.1, by rw [hc.isRace]; exact h.2.2⟩

variable {rip v w : UInt64} {skip : Bool} {arg : HcallArg} {ops : Fin 4 → UInt64} {h' : Hv}
  {u : List Ev} {m : St} {e : Ev} {a b : Option Access}

/-- **What a breakpoint or single step does.** The virtual CPU goes on, or it is stopped: then
the thread is its worker and the breakpoint, which was armed, no longer is. -/
lemma handleBreakpoint_spec (h : handleBreakpoint x tid rip skip = some x') :
    SameCore x x' ∧ x'.isRefresh = x.isRefresh ∧ x'.status = x.status ∧
      (x'.waitRace = x.waitRace ∧
          (x'.insertedBreakpoint = x.insertedBreakpoint ∨ x'.insertedBreakpoint = 0) ∨
        x'.waitRace ∧ tid = x.guestTid ∧ x.insertedBreakpoint = rip ∧
          x'.insertedBreakpoint = 0) := by
  unfold handleBreakpoint at h
  by_cases hs : x.singlestep
  · by_cases hk : x.skipping
    all_goals
      simp only [hs, hk, if_true, Bool.false_eq_true, if_false, some.injEq] at h
      subst h
      exact ⟨⟨rfl, rfl, rfl, rfl⟩, rfl, rfl, .inl ⟨rfl, .inl rfl⟩⟩
  · by_cases hr : x.insertedBreakpoint = rip
    · rw [if_neg hs, if_pos hr] at h
      cases hb : removeBp x.hwBps rip with
      | error e => simp [hb] at h
      | ok bps =>
        simp only [hb, some.injEq] at h
        subst h
        refine ⟨⟨rfl, rfl, rfl, rfl⟩, rfl, rfl, ?_⟩
        by_cases hst : tid = x.guestTid ∧ skip = false
        · exact .inr ⟨by simp [hst.1, hst.2], hst.1, hr, by simp [hst.2]⟩
        · have : (decide (tid = x.guestTid) && !skip) = false := by
            simpa using hst
          refine .inl ⟨by simp [this], ?_⟩
          cases skip
          · exact .inr rfl
          · exact .inl rfl
    · rw [if_neg hs, if_neg hr, some.injEq] at h
      subst h
      exact ⟨⟨rfl, rfl, rfl, rfl⟩, rfl, rfl, .inl ⟨rfl, .inl rfl⟩⟩

/-! ### The two virtual CPUs -/

lemma isSameAddress_clean (h : y.readingAddr = 0 ∧ y.writingAddr = 0) :
    isSameAddress x y = false := by
  simp [isSameAddress, h.1, h.2]

/-- What `x` has decided is right, as far as `y` has come. -/
structure Ahead (x y : Cpu) : Prop where
  alone : x.phase = .passed → y.phase = .unreached → x.isRace = false
  first : x.phase = .passed → y.phase = .sleeping → x.isRace = isSameAddress x y

structure Pair (x y : Cpu) : Prop where
  notBoth : x.phase = .sleeping → y.phase = .sleeping → False
  left : Ahead x y
  right : Ahead y x
  agree : x.phase = .passed → y.phase = .passed →
    x.isRace = y.isRace ∧ (x.isRace = true → isSameAddress x y = true)

lemma Pair.symm (h : Pair x y) : Pair y x := by
  refine ⟨fun hy hx => h.notBoth hx hy, h.right, h.left, fun hy hx => ?_⟩
  obtain ⟨he, hs⟩ := h.agree hx hy
  exact ⟨he.symm, fun hr => by rw [isSameAddress_comm]; exact hs (he.trans hr)⟩

lemma SameCore.isSameAddress (h : SameCore x x') (y : Cpu) :
    isSameAddress x' y = isSameAddress x y := by
  simp only [Hypercall.isSameAddress, h.reading, h.writing]

lemma Pair.congr (h : Pair x y) (hc : SameCore x x') : Pair x' y := by
  refine ⟨?_, ⟨?_, ?_⟩, ⟨?_, ?_⟩, ?_⟩
  · rw [hc.phase]
    exact h.notBoth
  · rw [hc.phase, hc.isRace]
    exact h.left.alone
  · rw [hc.phase, hc.isRace, hc.isSameAddress]
    exact h.left.first
  · rw [hc.phase]
    exact h.right.alone
  · rw [hc.phase, isSameAddress_comm, hc.isSameAddress, isSameAddress_comm]
    exact h.right.first
  · rw [hc.phase, hc.isRace, hc.isSameAddress]
    exact h.agree

lemma Pair.unreached (hx : x.phase = .unreached) (hy : y.phase = .unreached) : Pair x y := by
  refine ⟨?_, ⟨?_, ?_⟩, ⟨?_, ?_⟩, ?_⟩ <;> simp [hx, hy]

lemma Pair.sleep (hx : x.phase = .sleeping) (hy : y.phase = .unreached) : Pair x y := by
  refine ⟨?_, ⟨?_, ?_⟩, ⟨?_, ?_⟩, ?_⟩ <;> simp [hx, hy]

lemma Pair.meet (hy : y.phase = .sleeping) : Pair (settle x (isSameAddress x y)) y := by
  refine ⟨?_, ⟨?_, ?_⟩, ⟨?_, ?_⟩, ?_⟩ <;> simp [hy]

lemma Pair.late (hy : y.phase = .passed) (hr : y.isRace = false) : Pair (settle x false) y := by
  refine ⟨?_, ⟨?_, ?_⟩, ⟨?_, ?_⟩, ?_⟩ <;> simp [hy, hr]

lemma Pair.wake (h : Pair x y) (hx : x.phase = .sleeping) (b : Bool)
    (hy : y.phase = .unreached → y.readingAddr = 0 ∧ y.writingAddr = 0) :
    Pair (settle x ((b || decide (y.phase = .passed)) && isSameAddress x y)) y := by
  cases hph : y.phase with
  | sleeping => exact (h.notBoth hx hph).elim
  | unreached =>
    rw [isSameAddress_clean (hy hph), Bool.and_false]
    refine ⟨?_, ⟨?_, ?_⟩, ⟨?_, ?_⟩, ?_⟩ <;> simp [hph]
  | passed =>
    have hfr := h.right.first hph hx
    rw [isSameAddress_comm] at hfr
    refine ⟨?_, ⟨?_, ?_⟩, ⟨?_, ?_⟩, ?_⟩ <;> simp [hph, hfr]

/-! ### The invariant -/

/-- Some event was taken while both virtual CPUs were stopped at their breakpoints. -/
def BothStopped (m : St) (_ : Ev) : Prop := ∀ c, (m.hv.cpu c).waitRace = true

/-- The access of `c` was decoded, from the operands `ops`, at its stop. -/
def DecodesAt (c : VCpu) (ops : Fin 4 → UInt64) (m : St) (e : Ev) : Prop :=
  (m.hv.cpu c).waitRace = true ∧ e = .enter c ops

def Keeps (x : Cpu) : Option Access → Prop
  | some (.read a) => x.readingAddr = a ∧ x.writingAddr = 0
  | some (.write a) => x.writingAddr = a ∧ x.readingAddr = 0
  | none => x.readingAddr = 0 ∧ x.writingAddr = 0

/-- What is known about `c` has happened in the run. -/
structure Traced (H : UInt64) (s₀ : St) (es : List Ev) (c : VCpu) (x : Cpu) : Prop where
  decoded : x.phase ≠ .unreached →
    ∃ ops, Took (step H) (DecodesAt c ops) s₀ es ∧ Keeps x (decode ops)
  met : x.isRace = true → Took (step H) BothStopped s₀ es

structure Inv (H : UInt64) (s₀ : St) (es : List Ev) (s : St) : Prop where
  own : ∀ c, Own (s.hv.cpu c) (s.loc c) (s.pc c)
  together : ∀ c, Live (s.pc c) → Live (s.pc (!c))
  pair : ∀ c, Live (s.pc c) → Pair (s.hv.cpu c) (s.hv.cpu (!c))
  traced : ∀ c, Live (s.pc c) → Traced H s₀ es c (s.hv.cpu c)

variable {H : UInt64} {s₀ s : St} {es : List Ev}

lemma Traced.mono (h : Traced H s₀ es c x) (hc : SameCore x x') (e : Ev) :
    Traced H s₀ (es ++ [e]) c x' := by
  refine ⟨fun hp => ?_, fun hr => ?_⟩
  · rw [hc.phase] at hp
    obtain ⟨ops, ht, hk⟩ := h.decoded hp
    refine ⟨ops, ht.mono [e], ?_⟩
    cases hd : decode ops with
    | none => simpa [hd, Keeps, hc.reading, hc.writing] using hk
    | some a => cases a <;> simpa [hd, Keeps, hc.reading, hc.writing] using hk
  · rw [hc.isRace] at hr
    exact (h.met hr).mono [e]

lemma forall_vcpu {P : VCpu → Prop} (hc : P c) (ho : P (!c)) : ∀ d, P d := by
  intro d
  rcases Bool.eq_or_eq_not d c with rfl | rfl
  · exact hc
  · exact ho

/-- **One virtual CPU moves.** -/
lemma Inv.move (e : Ev) (hi : Inv H s₀ es s) (hcpu : h.cpu c = x)
    (hot : h.cpu (!c) = s.hv.cpu (!c)) (hp : Live p ↔ Live (s.pc c)) (hown : Own x l p)
    (hpr : Live (s.pc c) → Pair x (s.hv.cpu (!c)))
    (htr : Live (s.pc c) → Traced H s₀ (es ++ [e]) c x) :
    Inv H s₀ (es ++ [e]) (s.move c h l p) := by
  subst hcpu
  have hsl : (s.move c h l p).pc c = p := by simp [St.move]
  have hopp : (s.move c h l p).pc (!c) = s.pc (!c) := by simp [St.move]
  have hhv : (s.move c h l p).hv = h := rfl
  have htog : Live (s.pc c) ↔ Live (s.pc (!c)) :=
    ⟨hi.together c, fun h => by simpa using hi.together (!c) h⟩
  refine ⟨forall_vcpu (c := c) ?_ ?_, forall_vcpu (c := c) ?_ ?_, forall_vcpu (c := c) ?_ ?_,
    forall_vcpu (c := c) ?_ ?_⟩
  · rw [hsl, hhv]
    simpa [St.move] using hown
  · rw [hopp, hhv, hot]
    simpa [St.move] using hi.own (!c)
  · rw [hsl, hopp]
    exact fun h => htog.1 (hp.1 h)
  · rw [Bool.not_not, hsl, hopp]
    exact fun h => hp.2 (htog.2 h)
  · rw [hsl, hhv, hot]
    exact fun h => hpr (hp.1 h)
  · rw [hopp, hhv, hot, Bool.not_not]
    exact fun h => (hpr (htog.2 h)).symm
  · rw [hsl, hhv]
    exact fun h => htr (hp.1 h)
  · rw [hopp, hhv, hot]
    exact fun h => (hi.traced _ h).mono ⟨rfl, rfl, rfl, rfl⟩ e

lemma Inv.move_core (e : Ev) (hi : Inv H s₀ es s) (hcpu : h.cpu c = x)
    (hot : h.cpu (!c) = s.hv.cpu (!c)) (hp : Live p ↔ Live (s.pc c)) (hown : Own x l p)
    (hc : Live (s.pc c) → SameCore (s.hv.cpu c) x) :
    Inv H s₀ (es ++ [e]) (s.move c h l p) :=
  hi.move e hcpu hot hp hown (fun hl => (hi.pair c hl).congr (hc hl))
    (fun hl => (hi.traced c hl).mono (hc hl) e)

/-! ### The steps -/

lemma Stage.sleep (hf : x.isRefresh = false) (hw : x.waitRace) (hr : x.isRace = false)
    (hi : x.insertedBreakpoint = 0) : Stage { x with phase := .sleeping } .waiting := by
  refine ⟨hf, ?_, fun _ => hw, fun _ => ?_, ?_, fun _ => hr, fun _ => hi⟩ <;> simp

lemma Stage.settle (hf : x.isRefresh = false) (hi : x.insertedBreakpoint = 0) (v : Bool) :
    Stage (settle x v) .leaving := by
  refine ⟨hf, ?_, ?_, ?_, ?_, ?_, fun _ => hi⟩ <;> simp

lemma keeps_record (h : x.readingAddr = 0 ∧ x.writingAddr = 0) (a : Option Access) :
    Keeps (record x a) a := by
  rcases a with _ | _ | _
  · exact h
  · exact ⟨rfl, rfl⟩
  · exact ⟨rfl, rfl⟩

lemma Keeps.settle (h : Keeps x a) (v : Bool) : Keeps (settle x v) a := by
  rcases a with _ | _ | _ <;> exact h

lemma Own.waits (h : Own x l p) (hw : x.waitRace) : p = .fresh ∨ p = .racing := by
  cases p with
  | fresh => exact .inl rfl
  | racing => exact .inr rfl
  | refreshed => simp [h.1] at hw
  | started => simp [h.2.2.1] at hw
  | ended v => simp [h.2.1] at hw

lemma Own.idle (h : Own x l p) (hw : x.waitRace = false) (hl : l = .host) :
    Own (refreshed x) .leaving p := by
  have hsm : Stage x l → refreshed x = x := fun hst => by simp [refreshed, hst.settled]
  have hsg : Stage x l → Stage (refreshed x) .leaving := fun hst => by
    rw [hsm hst]
    exact hst.leave ⟨rfl, rfl, rfl, rfl⟩ rfl rfl (.inl rfl) (by simp [hl]) (by simp) (fun _ => hw)
  cases p with
  | fresh => trivial
  | refreshed =>
    obtain ⟨-, hs, -, hr⟩ := h
    by_cases hf : x.isRefresh
    · simp only [refreshed, hf, if_true]
      exact ⟨hw, hs, by simp, .inr ⟨rfl, rfl, rfl⟩⟩
    · have hr : x.isRefresh = false ∧ x.readingAddr = 0 ∧ x.writingAddr = 0 :=
        hr.resolve_left fun h => hf h.2
      simp only [refreshed, hf, Bool.false_eq_true, if_false]
      exact ⟨hw, hs, by simp, .inr hr⟩
  | started | racing | ended v => exact ⟨hsg h.1, by rw [hsm h.1]; exact h.2⟩

lemma waitRaceGo_spec {released : Bool} (hgo : waitRaceGo h c released = some h') :
    h'.cpu (!c) = h.cpu (!c) ∧ ∃ d, h'.cpu c = { h.cpu c with done := d } := by
  simp only [waitRaceGo] at hgo
  split at hgo
  · rw [ite_none_right_eq_some, some.injEq] at hgo
    obtain ⟨-, rfl⟩ := hgo
    exact ⟨by simp, true, by simp⟩
  · split at hgo
    · rw [some.injEq] at hgo
      subst hgo
      exact ⟨Hv.set_opp _ _ _, true, Hv.set_self _ _ _⟩
    · rw [some.injEq] at hgo
      subst hgo
      exact ⟨rfl, _, rfl⟩

section Steps

variable (hi : Inv H s₀ es s)
include hi

lemma inv_refresh (h : step H s (.refresh c tid) = some t) :
    Inv H s₀ (es ++ [Ev.refresh c tid]) t := by
  simp only [step, ite_none_right_eq_some, some.injEq] at h
  obtain ⟨⟨-, hpc⟩, rfl⟩ := h
  refine hi.move_core _ (Hv.set_self ..) (by simp) (by simp [hpc, Live]) ?_ (by simp [hpc, Live])
  exact ⟨rfl, rfl, by simp, .inl ⟨rfl, rfl⟩⟩

lemma inv_start (h : step H s (.start c tid arg) = some t) :
    Inv H s₀ (es ++ [Ev.start c tid arg]) t := by
  simp only [step, ite_none_right_eq_some] at h
  obtain ⟨⟨hl, hpc⟩, h⟩ := h
  have hown := hi.own c
  rw [hpc, hl] at hown
  obtain ⟨hw, hs, -, hr⟩ := hown
  simp only [reduceCtorEq, false_and, false_or] at hr
  simp only [handleCommand, commandStart, hs, some.injEq] at h
  subst h
  refine hi.move_core _ (Hv.set_self ..) (by simp) (by simp [hpc, Live]) ?_ (by simp [hpc, Live])
  refine ⟨⟨hr.1, by simp, by simp, ?_, fun _ => hr.2, fun _ => rfl, ?_⟩, rfl, hw, rfl⟩
  · simp [hw]
  · simp [hw]

lemma inv_barrier (h : step H s .barrier = some t) : Inv H s₀ (es ++ [Ev.barrier]) t := by
  simp only [step, ite_none_right_eq_some, some.injEq] at h
  obtain ⟨hg, rfl⟩ := h
  have hown : ∀ c, Stage (s.hv.cpu c) (s.loc c) ∧ (s.hv.cpu c).phase = .unreached ∧
      (s.hv.cpu c).waitRace = false ∧ (s.hv.cpu c).status = .running := by
    intro c
    have := hi.own c
    rwa [(hg c).2] at this
  refine ⟨fun c => ⟨(hown c).1, (hown c).2.2.2⟩, fun c _ => trivial, fun c _ => ?_, fun c _ => ?_⟩
  · exact .unreached (hown c).2.1 (hown (!c)).2.1
  · have hrc : (s.hv.cpu c).isRace = false := (hown c).1.early (by simp [(hown c).2.1])
    exact ⟨fun hp => absurd (hown c).2.1 hp, fun hr => by simp [hrc] at hr⟩

lemma inv_debug (h : step H s (.debug c tid rip skip) = some t) :
    Inv H s₀ (es ++ [Ev.debug c tid rip skip]) t := by
  simp only [step, ite_none_right_eq_some, map_eq_some_iff] at h
  obtain ⟨⟨hl, -, hrip, -, -, htid⟩, x, hx, rfl⟩ := h
  obtain ⟨hc, hf, hs, hcs⟩ := handleBreakpoint_spec hx
  refine hi.move_core _ (Hv.set_self ..) (by simp) Iff.rfl ?_ fun _ => hc
  rcases hcs with ⟨hw, hins⟩ | ⟨hw, hwr, hins, hdis⟩
  · exact (hi.own c).leave hc hf hw hs hins (.inl hl) (by simp)
  · -- a stop: the virtual CPU is in its racy call and has not been stopped before
    have hpc : s.pc c = .racing := htid.resolve_right fun h => h hwr
    have hown := hi.own c
    rw [hpc, hl] at hown
    rw [hpc]
    obtain ⟨hst, hrun⟩ := hown
    have hph : (s.hv.cpu c).phase = .unreached := by
      by_contra hp
      exact hrip (hins.symm.trans (hst.disarmed (.inr hp)))
    refine ⟨⟨hf.trans hst.settled, ?_, ?_, ?_, ?_, ?_, fun _ => hdis⟩, hs.trans hrun⟩
    · simp [hc.phase, hph]
    · simp [hc.phase, hph]
    · simp [hc.phase, hph]
    · rw [hc.phase, hc.reading, hc.writing]
      exact hst.clean
    · rw [hc.phase, hc.isRace]
      exact hst.early

lemma inv_exit (h : step H s (.exit c) = some t) : Inv H s₀ (es ++ [Ev.exit c]) t := by
  simp only [step, ite_none_right_eq_some, some.injEq] at h
  obtain ⟨hl, rfl⟩ := h
  have hc : SameCore (s.hv.cpu c) (s.hv.cpu c) := ⟨rfl, rfl, rfl, rfl⟩
  exact hi.move_core _ rfl rfl Iff.rfl
    ((hi.own c).leave hc rfl rfl rfl (.inl rfl) (.inl hl) (by simp)) (fun _ => hc)

/-- A stopped virtual CPU enters `wait_race`: it sleeps if the opponent has not come, decides
if the opponent sleeps, and is late if the opponent has passed. -/
lemma inv_enter_stopped (hrun : run (step H) s₀ es = some s) (hl : s.loc c = .host)
    (hpc : s.pc c = .racing) (hw : (s.hv.cpu c).waitRace) :
    Inv H s₀ (es ++ [Ev.enter c ops]) (s.move c (waitRaceEnter s.hv c ops).1
      (if (waitRaceEnter s.hv c ops).2 then .waiting else .leaving) (s.pc c)) := by
  have hlv : Live (s.pc c) := by rw [hpc]; trivial
  have hown := hi.own c
  rw [hpc, hl] at hown
  obtain ⟨hst, hss⟩ := hown
  have hph : (s.hv.cpu c).phase = .unreached := by
    cases hp : (s.hv.cpu c).phase with
    | unreached => rfl
    | sleeping => exact absurd (hst.sleeps.2 hp) (by simp)
    | passed => exact absurd hp (hst.pending hw).1
  have hrc : (s.hv.cpu c).isRace = false := hst.early (by simp [hph])
  have hdis := hst.disarmed (.inl hw)
  have hdec : Took (step H) (DecodesAt c ops) s₀ (es ++ [Ev.enter c ops]) :=
    took_last hrun ⟨hw, rfl⟩
  have hkp := keeps_record (hst.clean hph) (decode ops)
  have hset : ∀ v, Own (settle (record (s.hv.cpu c) (decode ops)) v) .leaving (s.pc c) := by
    intro v
    rw [hpc]
    exact ⟨.settle (by simp [hst.settled]) (by simp [hdis]) v, by simpa [settle] using hss⟩
  rw [waitRaceEnter_stopped hst.settled hw]
  cases hopp : (s.hv.cpu (!c)).phase with
  | unreached =>
    refine hi.move _ (Hv.set_self ..) (by simp) Iff.rfl ?_ (fun _ => .sleep rfl hopp) fun _ => ?_
    · rw [hpc]
      exact ⟨.sleep (by simp [hst.settled]) (by simp [hw]) (by simp [hrc]) (by simp [hdis]),
        by simp [hss]⟩
    · refine ⟨fun _ => ⟨ops, hdec, ?_⟩, fun hr => by simp [hrc] at hr⟩
      rcases hd : decode ops with _ | _ | _ <;> simpa [hd, Keeps] using hkp
  | sleeping =>
    have hot : (s.hv.cpu (!c)).waitRace :=
      ((hi.own (!c)).stage (hi.together c hlv)).asleep hopp
    refine hi.move _ (Hv.set_self ..) (by simp) Iff.rfl (hset _) (fun _ => .meet hopp) fun _ => ?_
    exact ⟨fun _ => ⟨ops, hdec, hkp.settle _⟩,
      fun _ => took_last hrun (forall_vcpu (c := c) hw hot)⟩
  | passed =>
    have hlate := (hi.pair c hlv).right.alone hopp hph
    refine hi.move _ (Hv.set_self ..) (by simp) Iff.rfl (hset _) (fun _ => .late hopp hlate)
      fun _ => ?_
    exact ⟨fun _ => ⟨ops, hdec, hkp.settle _⟩, fun hr => by simp at hr⟩

lemma inv_enter (hrun : run (step H) s₀ es = some s)
    (h : step H s (.enter c ops) = some t) : Inv H s₀ (es ++ [Ev.enter c ops]) t := by
  simp only [step, ite_none_right_eq_some, some.injEq] at h
  obtain ⟨hl, rfl⟩ := h
  cases hw : (s.hv.cpu c).waitRace with
  | false =>
    rw [waitRaceEnter_idle hw]
    refine hi.move_core _ (Hv.set_self ..) (by simp) Iff.rfl ((hi.own c).idle hw hl) fun hlv => ?_
    simp only [refreshed, ((hi.own c).stage hlv).settled, Bool.false_eq_true, if_false]
    exact ⟨rfl, rfl, rfl, rfl⟩
  | true =>
    rcases (hi.own c).waits hw with hpc | hpc
    · -- left over from an earlier program: nothing is claimed before the refresh
      have hdd : ¬ Live (s.pc c) := by simp [hpc, Live]
      refine hi.move_core _ rfl (waitRaceEnter_opp _ _ _) Iff.rfl ?_ fun h => absurd h hdd
      rw [hpc]
      trivial
    · exact inv_enter_stopped hi hrun hl hpc hw

lemma inv_wake {signalled : Bool} (h : step H s (.wake c signalled) = some t) :
    Inv H s₀ (es ++ [Ev.wake c signalled]) t := by
  simp only [step, ite_none_right_eq_some, some.injEq] at h
  obtain ⟨hl, rfl⟩ := h
  by_cases hlv : Live (s.pc c)
  · have hst := (hi.own c).stage hlv
    rw [hl] at hst
    have hph := hst.sleeps.1 rfl
    have hdis := hst.disarmed (.inr (by simp [hph]))
    have hpc : s.pc c = .racing :=
      ((hi.own c).waits (hst.asleep hph)).resolve_left fun h => by simp [h, Live] at hlv
    have hown := hi.own c
    rw [hpc] at hown
    have hcl := ((hi.own (!c)).stage (hi.together c hlv)).clean
    have htr := hi.traced c hlv
    have htr' := hi.traced (!c) (hi.together c hlv)
    unfold waitRaceWake
    rw [isSameAddress_cpus _ c]
    refine hi.move _ (Hv.set_self ..) (by simp) Iff.rfl ?_
      (fun _ => (hi.pair c hlv).wake hph signalled hcl) fun _ => ?_
    · rw [hpc]
      exact ⟨.settle hst.settled hdis _, hown.2⟩
    · obtain ⟨ops, hdec, hkp⟩ := htr.decoded (by simp [hph])
      refine ⟨fun _ => ⟨ops, hdec.mono _, hkp.settle _⟩, fun hr => ?_⟩
      -- a positive verdict here repeats the one the opponent has reached
      simp only [settle_isRace, Bool.and_eq_true] at hr
      cases hopp : (s.hv.cpu (!c)).phase with
      | sleeping => exact ((hi.pair c hlv).notBoth hph hopp).elim
      | unreached => simp [isSameAddress_clean (hcl hopp)] at hr
      | passed =>
        refine (htr'.met ?_).mono _
        rw [(hi.pair c hlv).right.first hopp hph, isSameAddress_comm]
        exact hr.2
  · refine hi.move_core _ rfl (by simp [waitRaceWake]) Iff.rfl ?_ fun h => absurd h hlv
    have hown := hi.own c
    rw [hl] at hown
    cases hpc : s.pc c with
    | fresh => trivial
    | refreshed => simp [hpc, Own] at hown
    | started =>
      rw [hpc] at hown
      have := hown.1.sleeps.1 rfl
      simp [hown.2.1] at this
    | racing | ended v => simp [hpc, Live] at hlv

lemma inv_go {released : Bool} (h : step H s (.go c released) = some t) :
    Inv H s₀ (es ++ [Ev.go c released]) t := by
  simp only [step, ite_none_right_eq_some, map_eq_some_iff] at h
  obtain ⟨hl, h', hgo, rfl⟩ := h
  obtain ⟨hot, d, hsl⟩ := waitRaceGo_spec hgo
  have hc : SameCore (s.hv.cpu c) { s.hv.cpu c with done := d } := ⟨rfl, rfl, rfl, rfl⟩
  exact hi.move_core _ hsl hot Iff.rfl
    ((hi.own c).leave hc rfl rfl rfl (.inl rfl) (.inr hl) (by simp)) fun _ => hc

lemma inv_fin (h : step H s (.fin c tid) = some t) :
    Inv H s₀ (es ++ [Ev.fin c tid]) t := by
  simp only [step, ite_none_right_eq_some] at h
  obtain ⟨⟨hl, hpc⟩, h⟩ := h
  have hown := hi.own c
  rw [hpc, hl] at hown
  obtain ⟨hst, hss⟩ := hown
  simp only [handleCommand, commandEnd, hss, some.injEq] at h
  subst h
  have hw : (s.hv.cpu c).waitRace = false := by
    by_contra hw
    rw [Bool.not_eq_false] at hw
    cases hp : (s.hv.cpu c).phase with
    | unreached => exact absurd ((hst.pending hw).2 hp) (by simp)
    | sleeping => exact absurd (hst.sleeps.2 hp) (by simp)
    | passed => exact (hst.pending hw).1 hp
  refine hi.move_core _ (Hv.set_self ..) (by simp) (by simp [hpc, Live]) ?_
    fun _ => ⟨rfl, rfl, rfl, rfl⟩
  exact ⟨hst.leave ⟨rfl, rfl, rfl, rfl⟩ rfl rfl (.inr rfl) (by simp) (by simp) (by simp), hw, rfl⟩

end Steps

lemma inv_step (hrun : run (step H) s₀ u = some m) (hi : Inv H s₀ u m) (h : step H m e = some t) :
    Inv H s₀ (u ++ [e]) t := by
  cases e with
  | refresh c tid => exact inv_refresh hi h
  | start c tid arg => exact inv_start hi h
  | barrier => exact inv_barrier hi h
  | debug c tid rip skip => exact inv_debug hi h
  | exit c => exact inv_exit hi h
  | enter c ops => exact inv_enter hi hrun h
  | wake c signalled => exact inv_wake hi h
  | go c released => exact inv_go hi h
  | fin c tid => exact inv_fin hi h

lemma inv_run (hrun : run (step H) (init h) es = some s) : Inv H (init h) es s := by
  refine run_inv_hist ?_ (fun u m e t hm hi he => inv_step hm hi he) hrun
  exact ⟨fun _ => trivial, fun _ h => h.elim, fun _ h => h.elim, fun _ h => h.elim⟩

/-! ### The verdicts -/

def addr : Access → UInt64
  | .read a => a
  | .write a => a

def isWrite : Access → Prop
  | .read _ => False
  | .write _ => True

/-- Two accesses to one address that is not `0`, at least one of them a write. -/
def Conflict (a b : Option Access) : Prop :=
  ∃ x y, a = some x ∧ b = some y ∧ addr x = addr y ∧ addr x ≠ 0 ∧ (isWrite x ∨ isWrite y)

lemma conflict_of_isSameAddress (ha : Keeps x a) (hb : Keeps y b) (h : isSameAddress x y) :
    Conflict a b := by
  simp only [isSameAddress, Bool.or_eq_true, Bool.and_eq_true, bne_iff_ne, ne_eq, beq_iff_eq] at h
  rcases a with _ | a | a
  · simp [Keeps] at ha
    simp [ha.1, ha.2] at h
  all_goals
    obtain ⟨ha, ha'⟩ := ha
    rcases b with _ | b | b
    · simp [Keeps] at hb
      simp [hb.1, hb.2] at h
    all_goals
      obtain ⟨hb, hb'⟩ := hb
      simp [ha, ha', hb, hb'] at h
  · exact ⟨_, _, rfl, rfl, h.2, h.1.1, .inr trivial⟩
  · exact ⟨_, _, rfl, rfl, h.2, h.1.1, .inl trivial⟩
  · exact ⟨_, _, rfl, rfl, h.2, h.1.1, .inl trivial⟩

lemma Own.ended_phase (h : Own x l (.ended v)) :
    x.phase = .passed ∨ x.phase = .unreached ∧ x.isRace = false := by
  obtain ⟨hst, hw, -⟩ := h
  cases hp : x.phase with
  | passed => exact .inl rfl
  | unreached => exact .inr ⟨rfl, hst.early (by simp [hp])⟩
  | sleeping => simp [hst.asleep hp] at hw

lemma Pair.ended {m : Loc} (h : Pair x y) (hx : Own x l (.ended v)) (hy : Own y m (.ended w)) :
    x.isRace = y.isRace ∧ (x.isRace → x.phase = .passed ∧ y.phase = .passed ∧
      isSameAddress x y) := by
  rcases hx.ended_phase with hpx | ⟨hpx, hrx⟩
  · rcases hy.ended_phase with hpy | ⟨hpy, hry⟩
    · obtain ⟨he, hs⟩ := h.agree hpx hpy
      exact ⟨he, fun hr => ⟨hpx, hpy, hs hr⟩⟩
    · have hrx := h.left.alone hpx hpy
      exact ⟨hrx.trans hry.symm, fun hr => by simp [hrx] at hr⟩
  · rcases hy.ended_phase with hpy | ⟨hpy, hry⟩
    · exact ⟨hrx.trans (h.right.alone hpy hpx).symm, fun hr => by simp [hrx] at hr⟩
    · exact ⟨hrx.trans hry.symm, fun hr => by simp [hrx] at hr⟩

/-- **The two end commands return one verdict.** It is `1` only if the virtual CPUs were
stopped at their breakpoints at the same time and the accesses decoded at these stops
conflict. -/
theorem end_verdicts_agree (H : UInt64) (h : Hv) {es : List Ev} {s : St} {v w : UInt64}
    (hrun : run (step H) (init h) es = some s) (hv : s.pc false = .ended v)
    (hw : s.pc true = .ended w) :
    v = w ∧ (v = 1 → Took (step H) BothStopped (init h) es ∧
      ∃ ops₀ ops₁, Took (step H) (DecodesAt false ops₀) (init h) es ∧
        Took (step H) (DecodesAt true ops₁) (init h) es ∧
        Conflict (decode ops₀) (decode ops₁)) := by
  have hi := inv_run hrun
  have hlv : Live (s.pc false) ∧ Live (s.pc true) := by
    rw [hv, hw]
    exact ⟨trivial, trivial⟩
  have hx := hi.own false
  have hy := hi.own true
  rw [hv] at hx
  rw [hw] at hy
  obtain ⟨he, hs⟩ := (hi.pair false hlv.1).ended hx hy
  refine ⟨?_, fun hone => ?_⟩
  · rw [hx.2.2, hy.2.2, he]
    rfl
  · have hr : (s.hv.cpu false).isRace := by
      by_contra hr
      rw [hx.2.2, if_neg hr] at hone
      exact absurd hone (by decide)
    obtain ⟨hpx, hpy, hsm⟩ := hs hr
    obtain ⟨ops₀, hd₀, hk₀⟩ := (hi.traced false hlv.1).decoded (by simp [hpx])
    obtain ⟨ops₁, hd₁, hk₁⟩ := (hi.traced true hlv.2).decoded (by
      rw [show (true : VCpu) = !false from rfl, hpy]
      simp)
    exact ⟨(hi.traced false hlv.1).met hr, ops₀, ops₁, hd₀, hd₁,
      conflict_of_isSameAddress hk₀ hk₁ hsm⟩

def meeting : List Ev :=
  [.refresh false 1, .enter false 0, .go false false, .refresh true 2, .enter true 0,
    .go true false, .start false 1 ⟨16, 0, 0⟩, .enter false 0, .go false false,
    .start true 2 ⟨32, 0, 1⟩, .enter true 0, .go true false, .barrier,
    .debug false 1 0xffffffff00000010 false, .enter false ![0, 0, 0, 7],
    .debug true 2 0xffffffff00000020 false, .enter true ![7, 0, 0, 0], .wake false false,
    .go true true, .go false false, .fin false 1, .fin true 2]

theorem end_verdicts_agree_meeting :
    ∃ s, run (step 8) (init ⟨fun _ => initHypercall 8, false⟩) meeting = some s ∧
      s.pc false = .ended 1 ∧ s.pc true = .ended 1 ∧
      Took (step 8) BothStopped (init ⟨fun _ => initHypercall 8, false⟩) meeting := by
  have hend : (run (step 8) (init ⟨fun _ => initHypercall 8, false⟩) meeting).map
      (fun s => (s.pc false, s.pc true)) = some (.ended 1, .ended 1) := by decide +kernel
  obtain ⟨s, hrun, hpc⟩ := map_eq_some_iff.1 hend
  obtain ⟨hv, hw⟩ := Prod.mk.inj hpc
  exact ⟨s, hrun, hv, hw, ((end_verdicts_agree 8 _ hrun hv hw).2 rfl).1⟩

end Razzer.RaceVerdict
