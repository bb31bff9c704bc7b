import Razzer.RaceVerdict

/-!
Which of two racing virtual CPUs goes first.

The start commands of a program name the virtual CPU that is to execute its racy instruction
first. When both have found the race, this one steps over the instruction and then sets
`can_go`; the other one waits for that before it enters the guest. The flag may be left over
from an earlier program, but whoever arrives second at its breakpoint clears it, and until the
step only the virtual CPU that goes first could set it again.
-/

namespace Razzer.RaceOrder

open Hypercall Runs RaceVerdict Function Option Bool

/-- `f` steps over the instruction it was stopped at, after it has passed `wait_race`. -/
def SingleSteps (f : VCpu) (m : St) (e : Ev) : Prop :=
  (∃ tid rip skip, e = .debug f tid rip skip) ∧ (m.hv.cpu f).singlestep = true ∧
    (m.hv.cpu f).skipping = false ∧ (m.hv.cpu f).goFirst = true ∧ (m.hv.cpu f).phase = .passed

/-- The wait of `c` for the go signal ends without one. -/
def TimesOut (c : VCpu) (m : St) (e : Ev) : Prop :=
  e = .go c true ∧ m.hv.canGo = false ∧ (m.hv.cpu c).isRace = true ∧
    (m.hv.cpu c).goFirst = false ∧ (m.hv.cpu c).done = false

/-- A start command carries the race id of its virtual CPU, and the one of `f` as `sched`. -/
def Carries (ids : VCpu → UInt32) (f : VCpu) : Ev → Prop
  | .start c _ arg => arg.raceId = ids c ∧ arg.sched = ids f
  | _ => True

def Begun : Pc → Prop
  | .started | .racing | .ended _ => True
  | _ => False

/-! ### The virtual CPU that goes first -/

structure First (stepped : Prop) (x : Cpu) (p : Pc) : Prop where
  id : Begun p → x.raceId = x.sched
  idle : p = .refreshed ∨ p = .started → x.goFirst = false
  stopped : Live p → x.goFirst = true → x.waitRace = true ∨ x.phase ≠ .unreached
  woken : Live p → x.goFirst = true → x.wakeUp = true → stepped

structure Second (released : Prop) (x : Cpu) (l : Loc) (p : Pc) : Prop where
  id : Begun p → x.raceId ≠ x.sched
  idle : p ≠ .fresh → x.goFirst = false
  waited : Live p → x.isRace = true → l = .guest ∨ l = .host → x.done = true
  released : Live p → x.isRace = true → x.done = true → released

variable {p : Pc} {q : Prop} {x x' : Cpu} {l : Loc} {rip tid : UInt64} {c : VCpu} {e : Ev} {h : Hv}
  {t : St} {ops : Fin 4 → UInt64} {released : Bool}

lemma First.mono {r : Prop} (h : First q x p) (hqr : q → r) : First r x p :=
  ⟨h.id, h.idle, h.stopped, fun hp hg hw => hqr (h.woken hp hg hw)⟩

lemma Second.mono {r : Prop} (h : Second q x l p) (hqr : q → r) : Second r x l p :=
  ⟨h.id, h.idle, h.waited, fun hp hr hd => hqr (h.released hp hr hd)⟩

lemma First.congr (h : First q x p) (hid : x'.raceId = x.raceId ∧ x'.sched = x.sched)
    (hgo : x'.goFirst = x.goFirst) (hwk : x'.wakeUp = x.wakeUp)
    (hst : x.waitRace ∨ x.phase ≠ .unreached → x'.waitRace ∨ x'.phase ≠ .unreached)
    : First q x' p := by
  refine ⟨fun hp => ?_, fun hp => ?_, fun hp hg => ?_, fun hp hg hw => ?_⟩
  · rw [hid.1, hid.2]
    exact h.id hp
  · rw [hgo]
    exact h.idle hp
  · rw [hgo] at hg
    exact hst (h.stopped hp hg)
  · rw [hgo] at hg
    rw [hwk] at hw
    exact h.woken hp hg hw

lemma Second.congr {l' : Loc} (h : Second q x l p) (hid : x'.raceId = x.raceId ∧ x'.sched = x.sched)
    (hgo : x'.goFirst = x.goFirst) (hrc : x'.isRace = x.isRace) (hdn : x'.done = x.done)
    (hl : l' = .guest ∨ l' = .host → l = .guest ∨ l = .host) : Second q x' l' p := by
  refine ⟨fun hp => ?_, fun hp => ?_, fun hp hr hl' => ?_, fun hp hr hd => ?_⟩
  · rw [hid.1, hid.2]
    exact h.id hp
  · rw [hgo]
    exact h.idle hp
  · rw [hrc] at hr
    rw [hdn]
    exact h.waited hp hr (hl hl')
  · rw [hrc] at hr
    rw [hdn] at hd
    exact h.released hp hr hd

lemma Second.settle {y : Cpu} (h : Second q x l p) (hid : y.raceId = x.raceId ∧ y.sched = x.sched)
    (hgo : y.goFirst = x.goFirst) (v : Bool) : Second q (settle y v) .leaving p := by
  refine ⟨fun hp => ?_, fun hp => ?_, fun _ _ hl => ?_, fun _ _ hd => ?_⟩
  · have hne := h.id hp
    rwa [← hid.1, ← hid.2] at hne
  · exact hgo.trans (h.idle hp)
  · simp at hl
  · simp [Hypercall.settle] at hd

variable {skip v : Bool} {arg : HcallArg} {y : Cpu} {h' : Hv} {u : List Ev} {m : St}

/-- **What a breakpoint or single step does to the order.** -/
lemma handleBreakpoint_order (h : handleBreakpoint x tid rip skip = some x') :
    x'.raceId = x.raceId ∧ x'.sched = x.sched ∧ x'.done = x.done ∧
      (x'.goFirst = x.goFirst ∧ x'.waitRace = x.waitRace ∧
          (x'.wakeUp → x.wakeUp ∨ x.singlestep ∧ x.skipping = false) ∨
        x'.waitRace ∧ tid = x.guestTid ∧ x'.goFirst = decide (x.raceId = x.sched) ∧
          (x'.goFirst → x'.wakeUp = false)) := by
  unfold handleBreakpoint at h
  by_cases hs : x.singlestep
  · rw [if_pos hs] at h
    cases hk : x.skipping
    all_goals
      simp only [hk, false_eq_true, if_true, if_false, some.injEq] at h
      subst h
      refine ⟨rfl, rfl, rfl, .inl ⟨rfl, rfl, ?_⟩⟩
    · exact fun _ => .inr ⟨hs, rfl⟩
    · exact fun hw => .inl hw
  · rw [if_neg hs] at h
    split at h
    · split at h
      · cases h
      · cases h
        refine ⟨rfl, rfl, rfl, ?_⟩
        by_cases hst : (decide (tid = x.guestTid) && !skip) = true
        · right
          have htid : tid = x.guestTid := by
            rw [and_eq_true, decide_eq_true_iff] at hst
            exact hst.1
          refine ⟨by simp [hst], htid, by simp [hst], fun hg => ?_⟩
          simp only at hg ⊢
          rw [if_pos hg]
        · left
          refine ⟨by simp [hst], by simp [hst], fun hw => .inl ?_⟩
          simp only [hst, false_eq_true, if_false] at hw
          by_cases hg : x.goFirst
          · simp [hg] at hw
          · simpa [hg] using hw
    · cases h
      exact ⟨rfl, rfl, rfl, .inl ⟨rfl, rfl, fun hw => .inl hw⟩⟩

/-! ### The invariant -/

variable {H : UInt64} {ids : VCpu → UInt32} {f : VCpu} {s₀ s : St} {es : List Ev}

def Stepped (H : UInt64) (f : VCpu) (s₀ : St) (es : List Ev) : Prop :=
  Took (step H) (SingleSteps f) s₀ es

def Released (H : UInt64) (f : VCpu) (s₀ : St) (es : List Ev) : Prop :=
  Stepped H f s₀ es ∨ Took (step H) (TimesOut (!f)) s₀ es

structure Order (H : UInt64) (f : VCpu) (s₀ : St) (es : List Ev) (s : St) : Prop where
  first : First (Stepped H f s₀ es) (s.hv.cpu f) (s.pc f)
  second : Second (Released H f s₀ es) (s.hv.cpu (!f)) (s.loc (!f)) (s.pc (!f))
  signal : ∀ c, Live (s.pc c) → (s.hv.cpu c).isRace = true → s.hv.canGo = true → Stepped H f s₀ es

lemma Order.first_snoc (ho : Order H f s₀ es s) (e : Ev) :
    First (Stepped H f s₀ (es ++ [e])) (s.hv.cpu f) (s.pc f) :=
  ho.first.mono fun ht => ht.mono [e]

lemma Order.second_snoc (ho : Order H f s₀ es s) (e : Ev) :
    Second (Released H f s₀ (es ++ [e])) (s.hv.cpu (!f)) (s.loc (!f)) (s.pc (!f)) :=
  ho.second.mono (Or.imp (fun ht => ht.mono [e]) fun ht => ht.mono [e])

/-- **One virtual CPU moves.** The order of the other one is as before. -/
lemma Order.move (ho : Order H f s₀ es s) (hcpu : h.cpu c = x) (hot : h.cpu (!c) = s.hv.cpu (!c))
    (hfr : c = f → First (Stepped H f s₀ (es ++ [e])) (s.hv.cpu c) (s.pc c) →
      First (Stepped H f s₀ (es ++ [e])) x p)
    (hsc : c = !f → Second (Released H f s₀ (es ++ [e])) (s.hv.cpu c) (s.loc c) (s.pc c) →
      Second (Released H f s₀ (es ++ [e])) x l p)
    (hsg : ∀ d, Live (update s.pc c p d) → (h.cpu d).isRace → h.canGo →
      Stepped H f s₀ (es ++ [e])) :
    Order H f s₀ (es ++ [e]) (s.move c h l p) := by
  have hfst := ho.first_snoc e
  have hsnd := ho.second_snoc e
  refine ⟨?_, ?_, hsg⟩
  · rcases eq_or_eq_not c f with rfl | rfl
    · simpa [St.move, hcpu] using hfr rfl hfst
    · have hcpu : h.cpu f = s.hv.cpu f := by simpa using hot
      simpa [St.move, hcpu] using hfst
  · rcases eq_or_eq_not c f with rfl | rfl
    · simpa [St.move, hot] using hsnd
    · simpa [St.move, hcpu] using hsc rfl hsnd

/-- The go signal after a step that does not set it: only a verdict that was not there before
has to be looked at. -/
lemma Order.signal_mono (ho : Order H f s₀ es s) (hcpu : h.cpu c = x)
    (hot : h.cpu (!c) = s.hv.cpu (!c)) (hlv : Live p → Live (s.pc c)) (hgo : h.canGo → s.hv.canGo)
    (hnew : Live (s.pc c) → x.isRace → h.canGo → ∃ d, Live (s.pc d) ∧ (s.hv.cpu d).isRace) :
    ∀ d, Live (update s.pc c p d) → (h.cpu d).isRace → h.canGo → Stepped H f s₀ (es ++ [e]) := by
  intro d hd hrc hcan
  rcases eq_or_eq_not d c with rfl | rfl
  · rw [update_self] at hd
    obtain ⟨k, hk, hkr⟩ := hnew (hlv hd) (hcpu ▸ hrc) hcan
    exact (ho.signal k hk hkr (hgo hcan)).mono [e]
  · rw [update_of_ne (by simp)] at hd
    rw [hot] at hrc
    exact (ho.signal _ hd hrc (hgo hcan)).mono [e]

/-- **One virtual CPU moves without the go signal.** -/
lemma Order.set (ho : Order H f s₀ es s) (hlv : Live p → Live (s.pc c))
    (hfr : c = f → First (Stepped H f s₀ (es ++ [e])) (s.hv.cpu c) (s.pc c) →
      First (Stepped H f s₀ (es ++ [e])) x p)
    (hsc : c = !f → Second (Released H f s₀ (es ++ [e])) (s.hv.cpu c) (s.loc c) (s.pc c) →
      Second (Released H f s₀ (es ++ [e])) x l p)
    (hrc : Live (s.pc c) → x.isRace → (s.hv.cpu c).isRace) :
    Order H f s₀ (es ++ [e]) (s.move c (s.hv.set c x) l p) :=
  ho.move (Hv.set_self ..) (Hv.set_opp ..) hfr hsc <|
    ho.signal_mono (Hv.set_self ..) (Hv.set_opp ..) hlv id fun hl hr _ => ⟨c, hl, hrc hl hr⟩

lemma order_init (h : Hv) : Order H f (init h) [] (init h) := by
  refine ⟨⟨?_, ?_, ?_, ?_⟩, ⟨?_, ?_, ?_, ?_⟩, ?_⟩ <;> simp [init, Begun, Live]

lemma Stage.passed (h : Stage x .guest) (hst : x.waitRace ∨ x.phase ≠ .unreached) :
    x.phase = .passed := by
  cases hp : x.phase with
  | passed => rfl
  | sleeping => exact absurd (h.sleeps.2 hp) (by simp)
  | unreached =>
    rcases hst with hw | hne
    · exact absurd ((h.pending hw).2 hp) (by simp)
    · exact absurd hp hne

lemma record_keeps (x : Cpu) (a : Option Access) :
    (record x a).raceId = x.raceId ∧ (record x a).sched = x.sched ∧
      (record x a).goFirst = x.goFirst ∧ (record x a).wakeUp = x.wakeUp := by
  rcases a with _ | _ | _ <;> exact ⟨rfl, rfl, rfl, rfl⟩

/-- **What `wait_race` does after the mutex.** The virtual CPU has waited, has given the go
signal, or has nothing to do. -/
lemma waitRaceGo_cases (hgo : waitRaceGo h c released = some h') :
    ((h.cpu c).isRace ∧ (h.cpu c).goFirst = false ∧ (h.cpu c).done = false ∧
        (h.canGo ∨ released) ∧ h' = h.set c { h.cpu c with done := true }) ∨
    ((h.cpu c).goFirst ∧ (h.cpu c).wakeUp ∧
        h' = { h.set c { h.cpu c with done := true } with canGo := true }) ∨
    (((h.cpu c).isRace → (h.cpu c).goFirst = false → (h.cpu c).done) ∧ h' = h) := by
  simp only [waitRaceGo] at hgo
  split at hgo
  case isTrue hwt =>
    simp only [and_eq_true, not_eq_true'] at hwt
    rw [ite_none_right_eq_some, some.injEq, or_eq_true] at hgo
    exact .inl ⟨hwt.1.1, hwt.1.2, hwt.2, hgo.1, hgo.2.symm⟩
  case isFalse hwt =>
    split at hgo
    case isTrue hsg =>
      simp only [and_eq_true, not_eq_true'] at hsg
      exact .inr (.inl ⟨hsg.1.1.2, hsg.1.2, (some.inj hgo).symm⟩)
    case isFalse =>
      refine .inr (.inr ⟨fun hr hg => ?_, (some.inj hgo).symm⟩)
      simpa [hr, hg] using hwt

section Steps

variable (hi : Inv H s₀ es s) (ho : Order H f s₀ es s)
include ho

lemma order_refresh (h : step H s (.refresh c tid) = some t) :
    Order H f s₀ (es ++ [Ev.refresh c tid]) t := by
  simp only [step, ite_none_right_eq_some, some.injEq] at h
  obtain ⟨-, rfl⟩ := h
  refine ho.set False.elim (fun _ _ => ?_) (fun _ _ => ?_) fun _ => id
  · exact ⟨False.elim, fun _ => rfl, False.elim, False.elim⟩
  · exact ⟨False.elim, fun _ => rfl, False.elim, False.elim⟩

lemma order_start (hid : ids false ≠ ids true) (hc : Carries ids f (.start c tid arg))
    (h : step H s (.start c tid arg) = some t) :
    Order H f s₀ (es ++ [Ev.start c tid arg]) t := by
  obtain ⟨hrid, hsc⟩ := hc
  simp only [step, ite_none_right_eq_some] at h
  obtain ⟨⟨-, hpc⟩, h⟩ := h
  cases hs : (s.hv.cpu c).status with
  | running => simp [handleCommand, commandStart, hs] at h
  | ready =>
    simp only [handleCommand, commandStart, hs, some.injEq] at h
    subst h
    refine ho.set False.elim (fun hcf hfr => ?_) (fun hcf hsd => ?_) (by simp [hpc, Live])
    · subst hcf
      exact ⟨fun _ => hrid.trans hsc.symm, fun _ => hfr.idle (.inl hpc), False.elim, False.elim⟩
    · subst hcf
      refine ⟨fun _ he => ?_, fun _ => hsd.idle (by simp [hpc]), False.elim, False.elim⟩
      simp only [hrid, hsc] at he
      cases f <;> simp_all

lemma order_exit (h : step H s (.exit c) = some t) : Order H f s₀ (es ++ [Ev.exit c]) t := by
  simp only [step, ite_none_right_eq_some, some.injEq] at h
  obtain ⟨hl, rfl⟩ := h
  refine ho.move rfl rfl (fun _ => id) (fun _ hsd => ?_)
    (ho.signal_mono rfl rfl id id fun hlv hrc _ => ⟨c, hlv, hrc⟩)
  exact hsd.congr ⟨rfl, rfl⟩ rfl rfl rfl (by simp [hl])

lemma order_settle (hcpu : h.cpu c = settle y v) (hot : h.cpu (!c) = s.hv.cpu (!c))
    (hkp : y.raceId = (s.hv.cpu c).raceId ∧ y.sched = (s.hv.cpu c).sched ∧
      y.goFirst = (s.hv.cpu c).goFirst ∧ y.wakeUp = (s.hv.cpu c).wakeUp)
    (hgo : h.canGo → s.hv.canGo)
    (hnew : Live (s.pc c) → v → h.canGo → ∃ d, Live (s.pc d) ∧ (s.hv.cpu d).isRace = true) :
    Order H f s₀ (es ++ [e]) (s.move c h .leaving (s.pc c)) := by
  obtain ⟨hrid, hsc, hfr, hwk⟩ := hkp
  refine ho.move hcpu hot (fun _ hf => ?_) (fun _ hs => hs.settle ⟨hrid, hsc⟩ hfr v)
    (ho.signal_mono hcpu hot id hgo hnew)
  exact hf.congr ⟨hrid, hsc⟩ hfr hwk fun _ => .inr (by simp)

lemma order_enter_sleeps (hrc : (s.hv.cpu c).isRace = false) :
    Order H f s₀ (es ++ [Ev.enter c ops])
      (s.move c (s.hv.set c { record (s.hv.cpu c) (decode ops) with phase := .sleeping }) l
        (s.pc c)) := by
  obtain ⟨hrid, hsc, hgo, hwk⟩ := record_keeps (s.hv.cpu c) (decode ops)
  refine ho.set id (fun _ hfr => ?_) (fun _ hsd => ?_) fun _ hr => by simp [hrc] at hr
  · exact hfr.congr ⟨hrid, hsc⟩ hgo hwk fun _ => .inr (by simp)
  · refine ⟨fun hp => ?_, fun hp => hgo.trans (hsd.idle hp), fun _ hr => ?_, fun _ hr => ?_⟩
    · simp only [hrid, hsc]
      exact hsd.id hp
    · simp [hrc] at hr
    · simp [hrc] at hr

lemma order_go_second (hrun : run (step H) s₀ es = some s)
    (hgo : waitRaceGo s.hv (!f) released = some h') :
    Second (Released H f s₀ (es ++ [Ev.go (!f) released])) (h'.cpu (!f)) .guest (s.pc (!f)) := by
  have hsc := ho.second_snoc (Ev.go (!f) released)
  rcases waitRaceGo_cases hgo with
    ⟨hrc, hfr, hdn, hcan, rfl⟩ | ⟨hfr, -, rfl⟩ | ⟨hdn, rfl⟩
  · rw [Hv.set_self]
    refine ⟨hsc.id, hsc.idle, fun _ _ _ => rfl, fun hp hr _ => ?_⟩
    by_cases hsig : s.hv.canGo
    · exact .inl ((ho.signal _ hp hr hsig).mono _)
    · -- without the signal the wait has ended by a time-out
      have hrel : released := hcan.resolve_left hsig
      subst hrel
      rw [not_eq_true] at hsig
      exact .inr (took_last hrun ⟨rfl, hsig, hrc, hfr, hdn⟩)
  · have hpc : s.pc (!f) = .fresh := by
      by_contra hne
      rw [ho.second.idle hne] at hfr
      cases hfr
    rw [hpc]
    exact ⟨False.elim, by simp, False.elim, False.elim⟩
  · refine ⟨hsc.id, hsc.idle, fun hp hr _ => ?_, hsc.released⟩
    have hne : s.pc (!f) ≠ .fresh := by
      intro hpc
      rw [hpc] at hp
      exact hp
    exact hdn hr (ho.second.idle hne)

lemma order_fin (h : step H s (.fin c tid) = some t) :
    Order H f s₀ (es ++ [Ev.fin c tid]) t := by
  simp only [step, ite_none_right_eq_some] at h
  obtain ⟨⟨hl, hpc⟩, h⟩ := h
  have hkp : ∃ bps ib st, (handleCommand H (s.hv.cpu c) tid .fin).1 =
      { s.hv.cpu c with
        hwBps := bps, insertedBreakpoint := ib, status := st, guestTid := tid } := by
    cases hs : (s.hv.cpu c).status <;> simp only [handleCommand, commandEnd, hs]
    · exact ⟨_, _, _, rfl⟩
    · exact ⟨_, _, _, rfl⟩
  obtain ⟨bps, ib, st, hx⟩ := hkp
  have hlv : Live (s.pc c) := by
    rw [hpc]
    trivial
  have hbg : Begun (s.pc c) := by
    rw [hpc]
    trivial
  split at h
  case h_2 => cases h
  case h_1 x v hcmd =>
    cases h
    rw [hcmd] at hx
    simp only at hx
    refine ho.set (fun _ => hlv) (fun _ hfr => ?_) (fun _ hsc => ?_) fun _ hr => by rwa [hx] at hr
    · rw [hx]
      exact ⟨fun _ => hfr.id hbg, by simp, fun _ => hfr.stopped hlv, fun _ => hfr.woken hlv⟩
    · rw [hx]
      exact ⟨fun _ => hsc.id hbg, fun _ => hsc.idle (by simp [hpc]),
        fun _ hr _ => hsc.waited hlv hr (.inl hl), fun _ => hsc.released hlv⟩

/-! The steps that need what is known about the verdicts. -/

include hi

lemma order_barrier (h : step H s .barrier = some t) : Order H f s₀ (es ++ [Ev.barrier]) t := by
  simp only [step, ite_none_right_eq_some, some.injEq] at h
  obtain ⟨hg, rfl⟩ := h
  have hrc : ∀ c, (s.hv.cpu c).isRace = false := by
    intro c
    have hown := hi.own c
    rw [(hg c).2] at hown
    exact hown.1.early (by simp [hown.2.1])
  have hbg : ∀ c, Begun (s.pc c) := by
    intro c
    rw [(hg c).2]
    trivial
  have hgo : (s.hv.cpu f).goFirst = false := ho.first.idle (.inr (hg f).2)
  refine ⟨⟨fun _ => ho.first.id (hbg f), by simp, ?_, ?_⟩,
    ⟨fun _ => ho.second.id (hbg _), fun _ => ho.second.idle (by simp [(hg (!f)).2]), ?_, ?_⟩, ?_⟩
  · simp [hgo]
  · simp [hgo]
  · simp [hrc]
  · simp [hrc]
  · simp [hrc]

/-- **The one that goes first, at a breakpoint or a single step.** If it wakes the other one up,
this event is its single step. -/
lemma first_debug (hrun : run (step H) s₀ es = some s) (hl : s.loc f = .guest)
    (htid : s.pc f = .racing ∨ tid ≠ (s.hv.cpu f).guestTid)
    (hx : handleBreakpoint (s.hv.cpu f) tid rip skip = some x) :
    First (Stepped H f s₀ (es ++ [Ev.debug f tid rip skip])) x (s.pc f) := by
  obtain ⟨hcr, -, -, -⟩ := handleBreakpoint_spec hx
  obtain ⟨hrid, hsc, hdn, hcs⟩ := handleBreakpoint_order hx
  have hfr := ho.first_snoc (Ev.debug f tid rip skip)
  rcases hcs with ⟨hgo, hwt, hwk⟩ | ⟨hwt, hwr, hgo, hwk⟩
  · refine ⟨fun hp => ?_, fun hp => ?_, fun hp hg => ?_, fun hp hg hw => ?_⟩
    · rw [hrid, hsc]
      exact hfr.id hp
    · rw [hgo]
      exact hfr.idle hp
    · rw [hwt, hcr.phase]
      exact hfr.stopped hp (hgo ▸ hg)
    · rw [hgo] at hg
      rcases hwk hw with hw | ⟨hss, hsk⟩
      · exact hfr.woken hp hg hw
      · have hst := (hi.own f).stage hp
        rw [hl] at hst
        exact took_last hrun ⟨⟨tid, rip, skip, rfl⟩, hss, hsk, hg,
          Stage.passed hst (ho.first.stopped hp hg)⟩
  · have hpc : s.pc f = .racing := htid.resolve_right fun hne => hne hwr
    refine ⟨fun hp => ?_, fun hp => ?_, fun _ _ => .inl hwt, fun _ hg hw => ?_⟩
    · rw [hrid, hsc]
      exact hfr.id hp
    · rw [hpc] at hp
      simp at hp
    · rw [hwk hg] at hw
      cases hw

lemma order_debug (hrun : run (step H) s₀ es = some s)
    (h : step H s (.debug c tid rip skip) = some t) :
    Order H f s₀ (es ++ [Ev.debug c tid rip skip]) t := by
  simp only [step, ite_none_right_eq_some, map_eq_some_iff] at h
  obtain ⟨⟨hl, -, -, -, -, htid⟩, x, hx, rfl⟩ := h
  obtain ⟨hcr, -, -, -⟩ := handleBreakpoint_spec hx
  refine ho.set id (fun hcf _ => ?_) (fun hcf hsd => ?_) fun _ hr => hcr.isRace ▸ hr
  · subst hcf
    exact first_debug hi ho hrun hl htid hx
  · subst hcf
    obtain ⟨hrid, hsc, hdn, hcs⟩ := handleBreakpoint_order hx
    refine hsd.congr ⟨hrid, hsc⟩ ?_ hcr.isRace hdn (by simp [hl])
    rcases hcs with ⟨hgo, -, -⟩ | ⟨-, hwr, hgo, -⟩
    · exact hgo
    · have hpc : s.pc (!f) = .racing := htid.resolve_right fun hne => hne hwr
      have hne := ho.second.id (by rw [hpc]; trivial)
      rw [hgo, ho.second.idle (by simp [hpc])]
      exact decide_eq_false hne

lemma order_enter_idle :
    Order H f s₀ (es ++ [Ev.enter c ops])
      (s.move c (s.hv.set c (refreshed (s.hv.cpu c))) .leaving (s.pc c)) := by
  have hsm : Live (s.pc c) → refreshed (s.hv.cpu c) = s.hv.cpu c := by
    intro hlv
    simp [refreshed, ((hi.own c).stage hlv).settled]
  have hkp : (refreshed (s.hv.cpu c)).raceId = (s.hv.cpu c).raceId ∧
      (refreshed (s.hv.cpu c)).sched = (s.hv.cpu c).sched ∧
      (refreshed (s.hv.cpu c)).goFirst = (s.hv.cpu c).goFirst := by
    unfold refreshed
    split <;> exact ⟨rfl, rfl, rfl⟩
  obtain ⟨hrid, hsd, hgo⟩ := hkp
  refine ho.set id (fun _ hfr => ?_) (fun _ hsc => ?_) fun hlv hr => hsm hlv ▸ hr
  · refine ⟨fun hp => ?_, fun hp => ?_, fun hp hg => ?_, fun hp hg hwk => ?_⟩
    · rw [hrid, hsd]
      exact hfr.id hp
    · rw [hgo]
      exact hfr.idle hp
    · rw [hsm hp] at hg ⊢
      exact hfr.stopped hp hg
    · rw [hsm hp] at hg hwk
      exact hfr.woken hp hg hwk
  · refine ⟨fun hp => ?_, fun hp => ?_, fun _ _ hl => by simp at hl, fun hp hr hd => ?_⟩
    · rw [hrid, hsd]
      exact hsc.id hp
    · rw [hgo]
      exact hsc.idle hp
    · rw [hsm hp] at hr hd
      exact hsc.released hp hr hd

lemma order_enter_fresh (hot : h.cpu (!c) = s.hv.cpu (!c)) (hpc : s.pc c = .fresh) :
    Order H f s₀ (es ++ [Ev.enter c ops]) (s.move c h l (s.pc c)) := by
  have hdd : ¬ Live (s.pc c) := by simp [hpc, Live]
  refine ho.move rfl hot (fun _ _ => ?_) (fun _ _ => ?_) fun d hd hrc hcan => ?_
  · rw [hpc]
    exact ⟨False.elim, by simp, False.elim, False.elim⟩
  · rw [hpc]
    exact ⟨False.elim, by simp, False.elim, False.elim⟩
  · rcases eq_or_eq_not d c with rfl | rfl
    · rw [update_self] at hd
      exact absurd hd hdd
    · rw [update_of_ne (by simp)] at hd
      exact absurd (by simpa using hi.together _ hd) hdd

lemma order_enter (h : step H s (.enter c ops) = some t) :
    Order H f s₀ (es ++ [Ev.enter c ops]) t := by
  simp only [step, ite_none_right_eq_some, some.injEq] at h
  obtain ⟨hl, rfl⟩ := h
  cases hw : (s.hv.cpu c).waitRace with
  | false =>
    rw [waitRaceEnter_idle hw]
    exact order_enter_idle hi ho
  | true =>
    rcases (hi.own c).waits hw with hpc | hpc
    · exact order_enter_fresh hi ho (waitRaceEnter_opp _ _ _) hpc
    · have hown := hi.own c
      rw [hpc, hl] at hown
      rw [waitRaceEnter_stopped hown.1.settled hw]
      have hkp := record_keeps (s.hv.cpu c) (decode ops)
      cases hopp : (s.hv.cpu (!c)).phase with
      | unreached =>
        exact order_enter_sleeps ho (hown.1.early fun hp => (hown.1.pending hw).1 hp)
      | sleeping =>
        refine order_settle ho (Hv.set_self _ _ _) (Hv.set_opp _ _ _) hkp ?_ ?_
        · simp
        · simp
      | passed =>
        refine order_settle ho (Hv.set_self _ _ _) (Hv.set_opp _ _ _) hkp (fun hg => hg) ?_
        simp

lemma order_wake {signalled : Bool} (h : step H s (.wake c signalled) = some t) :
    Order H f s₀ (es ++ [Ev.wake c signalled]) t := by
  simp only [step, ite_none_right_eq_some, some.injEq] at h
  obtain ⟨hl, rfl⟩ := h
  refine order_settle ho (Hv.set_self _ _ _) (Hv.set_opp _ _ _) ⟨rfl, rfl, rfl, rfl⟩
    (fun hg => hg) ?_
  intro hlv hv _
  have hst := (hi.own c).stage hlv
  rw [hl] at hst
  have hph := hst.sleeps.1 rfl
  have hlv' := hi.together c hlv
  rw [and_eq_true, isSameAddress_cpus _ c] at hv
  -- the opponent has decided before, and has found the race as well
  cases hopp : (s.hv.cpu (!c)).phase with
  | sleeping => exact ((hi.pair c hlv).notBoth hph hopp).elim
  | unreached =>
    have hcl := ((hi.own (!c)).stage hlv').clean hopp
    simp [isSameAddress_clean hcl] at hv
  | passed =>
    refine ⟨!c, hlv', ?_⟩
    rw [(hi.pair c hlv).right.first hopp hph, isSameAddress_comm]
    exact hv.2

lemma order_go (hrun : run (step H) s₀ es = some s)
    (h : step H s (.go c released) = some t) : Order H f s₀ (es ++ [Ev.go c released]) t := by
  simp only [step, ite_none_right_eq_some, map_eq_some_iff] at h
  obtain ⟨hl, h', hgo, rfl⟩ := h
  obtain ⟨hot, d, hsl⟩ := waitRaceGo_spec hgo
  have hold : h'.canGo → s.hv.canGo → ∀ k, Live (update s.pc c (s.pc c) k) →
      (h'.cpu k).isRace → Stepped H f s₀ (es ++ [Ev.go c released]) := by
    intro hcan' hcan k hk hrc
    exact ho.signal_mono hsl hot id (fun _ => hcan) (fun hlv hr _ => ⟨c, hlv, hr⟩) k hk hrc hcan'
  refine ho.move rfl hot (fun _ hfr => ?_) (fun hcf _ => ?_) fun k hk hrc hcan => ?_
  · refine hfr.congr ?_ ?_ ?_ ?_ <;> simp [hsl]
  · subst hcf
    exact order_go_second ho hrun hgo
  · rcases waitRaceGo_cases hgo with ⟨-, -, -, -, rfl⟩ | ⟨hfr, hwk, rfl⟩ | ⟨-, rfl⟩
    · exact hold hcan hcan k hk hrc
    · have hlv : Live (s.pc c) := by
        rcases eq_or_eq_not k c with rfl | rfl
        · rwa [update_self] at hk
        · rw [update_of_ne (by simp)] at hk
          simpa using hi.together _ hk
      rcases eq_or_eq_not c f with rfl | rfl
      · exact (ho.first.woken hlv hfr hwk).mono _
      · have hne : s.pc (!f) ≠ .fresh := by
          intro hpc
          rw [hpc] at hlv
          exact hlv
        rw [ho.second.idle hne] at hfr
        cases hfr
    · exact hold hcan hcan k hk hrc

end Steps

lemma order_step (hid : ids false ≠ ids true) (hc : Carries ids f e)
    (hrun : run (step H) s₀ u = some m) (hi : Inv H s₀ u m) (ho : Order H f s₀ u m)
    (h : step H m e = some t) : Order H f s₀ (u ++ [e]) t := by
  cases e with
  | refresh c tid => exact order_refresh ho h
  | start c tid arg => exact order_start ho hid hc h
  | barrier => exact order_barrier hi ho h
  | debug c tid rip skip => exact order_debug hi ho hrun h
  | exit c => exact order_exit ho h
  | enter c ops => exact order_enter hi ho h
  | wake c signalled => exact order_wake hi ho h
  | go c released => exact order_go hi ho hrun h
  | fin c tid => exact order_fin ho h

lemma order_run (hid : ids false ≠ ids true) (hc : ∀ e ∈ es, Carries ids f e)
    (hrun : run (step H) (init h) es = some s) : Order H f (init h) es s := by
  refine run_inv_hist (I := fun u m => (∀ e ∈ u, Carries ids f e) → Order H f (init h) u m)
    (fun _ => order_init h) (fun u m e t hm ho he hcar => ?_) hrun hc
  rw [List.forall_mem_append, List.forall_mem_singleton] at hcar
  exact order_step hid hcar.2 hm (inv_run hm) (ho hcar.1) he

/-! ### The order -/

/-- **The second one waits for the first.** In a program whose start commands carry different
race ids and the one of `f` as `sched`, the other virtual CPU is in the guest with the verdict
of a true race only if `f` has stepped over its racy instruction, or the wait for that has
timed out. What earlier programs have left behind does not matter. -/
theorem second_waits_for_first (H : UInt64) (h : Hv) (ids : VCpu → UInt32)
    (hid : ids false ≠ ids true) (f : VCpu) {es : List Ev} {s : St}
    (hc : ∀ e ∈ es, Carries ids f e) (hrun : run (step H) (init h) es = some s)
    (hlive : Live (s.pc (!f))) (hrace : (s.hv.cpu (!f)).isRace = true)
    (hguest : s.loc (!f) = .guest) :
    Took (step H) (SingleSteps f) (init h) es ∨ Took (step H) (TimesOut (!f)) (init h) es := by
  have ho := order_run hid hc hrun
  exact ho.second.released hlive hrace (ho.second.waited hlive hrace (.inl hguest))

def handover : List Ev :=
  [.refresh false 1, .enter false 0, .go false false, .refresh true 2, .enter true 0,
    .go true false, .start false 1 ⟨16, 0, 0⟩, .enter false 0, .go false false,
    .start true 2 ⟨32, 0, 1⟩, .enter true 0, .go true false, .barrier,
    .debug false 1 0xffffffff00000010 false, .enter false ![0, 0, 0, 7],
    .debug true 2 0xffffffff00000020 false, .enter true ![7, 0, 0, 0], .wake false true,
    .go false false, .debug false 1 0xffffffff00000014 false, .enter false 0, .go false false,
    .go true false]

/-- The go signal of an earlier program is still set when the program begins. -/
theorem second_waits_for_first_handover :
    ∃ s, run (step 8) (init ⟨fun _ => initHypercall 8, true⟩) handover = some s ∧
      s.loc true = .guest ∧ (s.hv.cpu true).isRace = true ∧
      (Took (step 8) (SingleSteps false) (init ⟨fun _ => initHypercall 8, true⟩) handover ∨
        Took (step 8) (TimesOut true) (init ⟨fun _ => initHypercall 8, true⟩) handover) := by
  have hend : (run (step 8) (init ⟨fun _ => initHypercall 8, true⟩) handover).map
      (fun s => (s.pc true, s.loc true, (s.hv.cpu true).isRace)) =
        some (.racing, .guest, true) := by decide +kernel
  obtain ⟨s, hrun, hvw⟩ := map_eq_some_iff.1 hend
  simp only [Prod.mk.injEq] at hvw
  obtain ⟨hpc, hgs, hrc⟩ := hvw
  refine ⟨s, hrun, hgs, hrc, ?_⟩
  refine second_waits_for_first 8 _ (fun c => if c then 1 else 0) (by decide) false ?_ hrun ?_
    hrc hgs
  · simp [handover, Carries]
  · simp only [Bool.not_false, hpc]
    trivial

end Razzer.RaceOrder
