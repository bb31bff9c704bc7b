import Razzer.Hypercall
import Razzer.Runs

/-!
The race verdict on its way from the hypervisor to the scheduler.

The fork server takes a request, forks a child that runs the program, waits until the child
is gone and replies. The two worker threads of the child store what the hypervisor answered
to their end-of-call hypercalls; when both have, the child puts the result into a slot it
shares with the server, and the server reads the slot whether the child has done so or not.
-/

namespace Razzer.ForkServer

open Runs Option

/-- The first values of `enum race_result`. -/
inductive RaceResult
  | noRace | trueRace | raceRetry
  deriving DecidableEq

def RaceResult.code : RaceResult → UInt32
  | .noRace => 0
  | .trueRace => 1
  | .raceRetry => 2

/-- What the hypervisor puts into `rax` for an end-of-call hypercall: -1 if the command failed, and
whether there was a race if not. -/
inductive EndAnswer
  | failed
  | verdict (isRace : Bool)

structure Flags where
  threaded : Bool
  collide : Bool
  injectFault : Bool

/-- `receive_execute`, on the flag bits of the request. -/
def receiveFlags (execFlags : UInt64) : Flags :=
  let threaded := execFlags &&& 0x10 != 0
  ⟨threaded, execFlags &&& 0x20 != 0 && threaded, execFlags &&& 0x4 != 0⟩

/-- The child: for each worker thread the verdict it has stored, whether the result has been
sent, and the exit status once it is gone. -/
structure Child where
  answer : Bool → Option Bool
  sent : Bool
  status : Option ℕ

/-- One reply as `execRace` decodes it, with the answers of the child it is about. -/
structure Report where
  answer : Bool → Option Bool
  isRace : Bool

structure Server where
  slot : UInt32
  flags : Flags
  child : Option Child
  reports : List Report

inductive Ev
  | receive (execFlags : UInt64)
  | answer (th : Bool) (a : EndAnswer)
  | send
  | gone (status : ℕ)
  | reply

def kFailStatus : ℕ := 67
def kErrorStatus : ℕ := 68
def kHypercallFail : ℕ := 70

def finishRace (r₀ r₁ : Bool) : RaceResult :=
  if r₀ ≠ r₁ then .raceRetry else if r₀ then .trueRace else .noRace

def sendRaceResult (collide : Bool) (slot : UInt32) (r : RaceResult) : UInt32 :=
  if collide then r.code else slot

def recvRaceResult (collide : Bool) (slot : UInt32) : UInt32 :=
  if collide then (if slot < 3 then slot else 0) else 0

def decodeReply (result : UInt32) : Bool := result != 0

/-- One step of the server or its child. The child may be gone at any moment: it exits when
it is done, it is killed on time-out, or the program it runs ends it. -/
def step (s : Server) : Ev → Option Server
  | .receive execFlags =>
    match s.child with
    | none =>
      some { s with flags := receiveFlags execFlags, child := some ⟨fun _ => none, false, none⟩ }
    | some _ => none
  | .answer th a =>
    match s.child with
    | some ⟨answer, sent, none⟩ =>
      -- the threads make hypercalls in the colliding pass only
      if s.flags.collide && !s.flags.injectFault && (answer th).isNone then
        match a with
        | .failed => some { s with child := some ⟨answer, sent, some kHypercallFail⟩ }
        | .verdict isRace =>
          some { s with child := some ⟨Function.update answer th (some isRace), sent, none⟩ }
      else none
    | _ => none
  | .send =>
    match s.child with
    | some ⟨answer, false, none⟩ =>
      if s.flags.collide then
        -- `finish_race` waits until both threads are done
        match answer false, answer true with
        | some r₀, some r₁ =>
          some { s with
            slot := sendRaceResult true s.slot (finishRace r₀ r₁)
            child := some ⟨answer, true, none⟩ }
        | _, _ => none
      else
        some { s with
          slot := sendRaceResult false s.slot .noRace
          child := some ⟨answer, true, none⟩ }
    | _ => none
  | .gone status =>
    match s.child with
    | some ⟨answer, sent, none⟩ => some { s with child := some ⟨answer, sent, some status⟩ }
    | _ => none
  | .reply =>
    match s.child with
    | some ⟨answer, _, some status⟩ =>
      -- the server itself exits when the child failed or errored
      if status = kFailStatus ∨ status = kErrorStatus then none
      else
        some { s with
          child := none
          reports := s.reports ++ [⟨answer, decodeReply (recvRaceResult s.flags.collide s.slot)⟩] }
    | _ => none

/-- `race_result_setup` maps a page of zeros. -/
def init : Server := ⟨0, ⟨false, false, false⟩, none, []⟩

/-! ### The slot -/

/-- A child that has sent its result has the answers of both threads, and the slot holds
what they come to. -/
structure Inv (s : Server) : Prop where
  slot : s.slot < 3
  sent : ∀ ch, s.child = some ch → ch.sent = true → s.flags.collide = true →
    ∃ r₀ r₁, ch.answer false = some r₀ ∧ ch.answer true = some r₁ ∧ s.slot = (finishRace r₀ r₁).code

lemma code_lt (r : RaceResult) : r.code < 3 := by
  cases r <;> decide

variable {s t : Server} {ch : Child} {th : Bool} {e : Ev} {es : List Ev}

lemma Inv.not_sent (hi : Inv s) (hch : s.child = some ch) (hcol : s.flags.collide)
    (hnn : ch.answer th = none) : ch.sent = false := by
  by_contra hs
  obtain ⟨r0, r1, h0, h1, -⟩ := hi.sent ch hch (by simpa using hs) hcol
  cases th <;> simp_all

lemma inv_step (hi : Inv s) (h : step s e = some t) : Inv t := by
  rcases hch : s.child with _ | ⟨answer, sent, _ | status⟩
  · cases e with
    | receive execFlags =>
      simp only [step, hch, some.injEq] at h
      subst h
      exact ⟨hi.slot, by simp⟩
    | answer th a | send | gone status | reply => simp [step, hch] at h
  · have hsn := hi.sent _ hch
    cases e with
    | receive execFlags | reply => simp [step, hch] at h
    | answer th a =>
      simp only [step, hch, ite_none_right_eq_some, Bool.and_eq_true] at h
      obtain ⟨⟨⟨hcol, -⟩, hnn⟩, h⟩ := h
      have hnot : sent = false := hi.not_sent hch hcol (by simpa using hnn)
      cases a with
      | failed | verdict isRace =>
        simp only [some.injEq] at h
        subst h
        exact ⟨hi.slot, by simp [hnot]⟩
    | send =>
      cases sent with
      | true => simp [step, hch] at h
      | false =>
        simp only [step, hch] at h
        split at h
        · split at h
          · rename_i r0 r1 h0 h1
            simp only [some.injEq] at h
            subst h
            exact ⟨code_lt _, by rintro ch ⟨⟩ - -; exact ⟨r0, r1, h0, h1, rfl⟩⟩
          · simp at h
        · rename_i hcol
          simp only [some.injEq] at h
          subst h
          exact ⟨hi.slot, by rintro ch ⟨⟩ - hc; exact absurd hc hcol⟩
    | gone status =>
      simp only [step, hch, some.injEq] at h
      subst h
      exact ⟨hi.slot, by rintro ch ⟨⟩ hs hc; exact hsn hs hc⟩
  · cases e with
    | receive execFlags | answer th a | send | gone status' => simp [step, hch] at h
    | reply =>
      simp only [step, hch, ite_none_left_eq_some, some.injEq] at h
      obtain ⟨-, rfl⟩ := h
      exact ⟨hi.slot, by simp⟩

lemma inv_init : Inv init := ⟨by decide, by simp [init]⟩

lemma inv_run (hrun : run step init es = some s) : Inv s :=
  run_inv_hist (I := fun _ => Inv) inv_init (fun _ _ _ _ _ hi h => inv_step hi h) hrun

/-! ### What is reported as a race -/

/-- Both threads of the child were answered that there is a race. -/
def BothTrue (answer : Bool → Option Bool) : Prop :=
  answer false = some true ∧ answer true = some true

/-- A race is reported only for a child whose two threads were answered so. -/
def Justified (r : Report) : Prop := r.isRace = true → BothTrue r.answer

/-- At a reply, a colliding child that has sent its result had equal answers, and after one
that has not, the slot is clear (or its answers were a race in any case). -/
def Settled (s : Server) : Ev → Prop
  | .reply => s.flags.collide = true → ∀ ch ∈ s.child,
      (ch.sent = true → ch.answer false = ch.answer true) ∧
      (ch.sent = false → s.slot = 0 ∨ BothTrue ch.answer)
  | _ => True

instance (answer : Bool → Option Bool) : Decidable (BothTrue answer) :=
  inferInstanceAs (Decidable (_ ∧ _))

instance (s : Server) : DecidablePred (Settled s)
  | .reply => inferInstanceAs (Decidable (_ → ∀ ch ∈ s.child, _))
  | .receive _ => isTrue trivial
  | .answer _ _ => isTrue trivial
  | .send => isTrue trivial
  | .gone _ => isTrue trivial

lemma decodeReply_recv (hi : Inv s) :
    decodeReply (recvRaceResult s.flags.collide s.slot) ↔ s.flags.collide ∧ s.slot ≠ 0 := by
  cases hc : s.flags.collide <;> simp [decodeReply, recvRaceResult, hi.slot]

lemma finishRace_justified (r0 r1 : Bool) : ((finishRace r0 r1).code ≠ 0 → r0 ∧ r1) ↔ r0 = r1 := by
  revert r0 r1
  decide

/-- **One reply.** The report is justified exactly when the child is settled. -/
lemma reply_justified_iff (hi : Inv s) (hch : s.child = some ch) :
    Justified ⟨ch.answer, decodeReply (recvRaceResult s.flags.collide s.slot)⟩ ↔
      Settled s .reply := by
  simp only [Justified, decodeReply_recv hi, Settled, hch, mem_def, some.injEq, forall_eq', and_imp]
  refine forall_congr' fun hcol => ?_
  cases hs : ch.sent with
  | true =>
    obtain ⟨r0, r1, h0, h1, hsl⟩ := hi.sent ch hch hs hcol
    rw [hsl]
    simpa [BothTrue, h0, h1] using finishRace_justified r0 r1
  | false => simp [or_iff_not_imp_left]

lemma step_reports (h : step s e = some t) :
    (e ≠ .reply ∧ t.reports = s.reports) ∨
    (e = .reply ∧ ∃ ch, s.child = some ch ∧ t.reports = s.reports ++
      [⟨ch.answer, decodeReply (recvRaceResult s.flags.collide s.slot)⟩]) := by
  rcases hch : s.child with _ | ⟨answer, sent, _ | status⟩ <;> cases e <;>
    simp only [step, hch, reduceCtorEq] at h
  · left
    cases h
    exact ⟨by simp, rfl⟩
  · left
    rw [ite_none_right_eq_some] at h
    obtain ⟨-, h⟩ := h
    split at h
    all_goals
      cases h
      exact ⟨by simp, rfl⟩
  · left
    split at h
    · split at h
      · split at h
        all_goals cases h
        exact ⟨by simp, rfl⟩
      · cases h
        exact ⟨by simp, rfl⟩
    · cases h
  · left
    cases h
    exact ⟨by simp, rfl⟩
  · right
    rw [ite_none_left_eq_some] at h
    obtain ⟨-, h⟩ := h
    cases h
    exact ⟨rfl, _, rfl, rfl⟩

/-- **Reported races.** Over any sequence of requests, every race that is reported was
answered to both threads of that very child, if and only if every colliding child was
settled when it was replied for. -/
theorem reports_justified_iff {es : List Ev} {s : Server} (hrun : run step init es = some s) :
    (∀ r ∈ s.reports, Justified r) ↔ Meets step Settled init es := by
  induction es using List.reverseRecOn generalizing s with
  | nil =>
    obtain rfl : init = s := by simpa using hrun
    simp [init, Meets]
  | append_singleton u e ih =>
    obtain ⟨m, hm, he⟩ := run_snoc hrun
    rw [meets_snoc hm, ← ih hm]
    rcases step_reports he with ⟨hne, hrep⟩ | ⟨rfl, ch, hch, hrep⟩
    · have hset : Settled m e := by
        cases e <;> trivial
      rw [hrep]
      exact ⟨fun h => ⟨h, hset⟩, fun h => h.1⟩
    · rw [hrep, ← reply_justified_iff (inv_run hm) hch]
      simp [or_imp, forall_and]

def raceThenKilled : List Ev :=
  [.receive 0x30, .answer false (.verdict true), .answer true (.verdict true), .send, .gone 0,
    .reply, .receive 0x30, .gone 0, .reply]

/-- The second child had no answer at all, and a race is reported for it. -/
theorem reports_stale_race :
    ∃ s, run step init raceThenKilled = some s ∧ ∃ r ∈ s.reports, ¬ Justified r := by
  have h : (run step init raceThenKilled).map (fun s => s.reports.map fun r =>
      (r.isRace, r.answer false)) = some [(true, some true), (true, none)] := by decide
  obtain ⟨s, hrun, hrep⟩ := map_eq_some_iff.1 h
  have hmem : (true, none) ∈ s.reports.map fun r => (r.isRace, r.answer false) := by
    simp [hrep]
  obtain ⟨r, hr, heq⟩ := List.mem_map.1 hmem
  obtain ⟨hrc, hnn⟩ := Prod.mk.inj heq
  exact ⟨s, hrun, r, hr, fun hj => by simpa [hnn] using (hj hrc).1⟩

theorem reports_justified_settled :
    ∃ s, run step init (raceThenKilled.take 6) = some s ∧ s.reports ≠ [] ∧
      ∀ r ∈ s.reports, Justified r := by
  have h : (run step init (raceThenKilled.take 6)).map (fun s => s.reports.map fun r =>
      (r.isRace, r.answer false)) = some [(true, some true)] := by decide
  obtain ⟨s, hrun, hrep⟩ := map_eq_some_iff.1 h
  refine ⟨s, hrun, fun hnil => by simp [hnil] at hrep, (reports_justified_iff hrun).2 ?_⟩
  decide

end Razzer.ForkServer
