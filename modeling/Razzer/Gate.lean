import Razzer.Runs

/-!
The gate in front of the executors, of `gate.go`.

The slots are used in turn. A client that has to wait gives up the lock and tests again whenever it
wakes up, so a wait changes nothing. The client that leaves slot 0 keeps the others out until all
have left, and then runs the callback.
-/

namespace Razzer.Gate

open Runs Function Finset

/-- The gate, the number of clients that wait in `Leave`, and whether there was a panic. The other
fields only record: how many entries there were, the slot each one got, which ones have not left,
and how often the callback was run. -/
structure State where
  busy : ℕ → Bool
  pos : ℕ
  running : ℤ
  stop : Bool
  parked : ℕ
  panicked : Bool
  entries : ℕ
  ticket : ℕ → ℕ
  live : Finset ℕ
  calls : ℕ

/-- A client comes to the test of `Enter`, the client of an entry calls `Leave`, or a client that
waits in `Leave` wakes up. -/
inductive Ev
  | enter
  | leave (k : ℕ)
  | wake

def start : State := ⟨fun _ => false, 0, 0, false, 0, false, 0, fun _ => 0, ∅, 0⟩

section Code

variable (c : ℕ) (f : Bool)

def enter (s : State) : State :=
  if s.busy s.pos || s.stop then s
  else
    { s with
      busy := update s.busy s.pos true
      pos := if s.pos + 1 ≥ c then 0 else s.pos + 1
      running := s.running + 1
      panicked := s.panicked || decide (s.running + 1 > c)
      entries := s.entries + 1
      ticket := update s.ticket s.entries s.pos
      live := insert s.entries s.live }

/-- The loop of `Leave`, and what comes after it. -/
def await (s : State) : State :=
  if s.running ≠ 0 then { s with parked := s.parked + 1 }
  else { s with stop := false, calls := s.calls + 1 }

def leave (k : ℕ) (s : State) : State :=
  let idx := s.ticket k
  let s := { s with
    panicked := s.panicked || !s.busy idx || decide (s.running - 1 < 0)
    busy := update s.busy idx false
    running := s.running - 1
    live := s.live.erase k }
  if idx = 0 ∧ f then await { s with panicked := s.panicked || s.stop, stop := true } else s

def step (s : State) : Ev → Option State
  | .enter => some (enter c s)
  | .leave k => if k ∈ s.live then some (leave f k s) else none
  | .wake => if s.parked = 0 then none else some (await { s with parked := s.parked - 1 })

end Code

/-! ### The invariant -/

variable {c : ℕ} {f : Bool} {s t : State} {k : ℕ}

def uses (c : ℕ) (entries : Finset ℕ) : ℕ := (entries.filter (· % c = 0)).card

variable (c f) in
structure Inv (s : State) : Prop where
  pos : s.pos = s.entries % c
  ticket : ∀ k < s.entries, s.ticket k = k % c
  window : ∀ k ∈ s.live, k < s.entries ∧ s.entries ≤ k + c
  busy : ∀ i, s.busy i ↔ ∃ k ∈ s.live, k % c = i
  running : s.running = s.live.card
  parked : s.parked = if s.stop then 1 else 0
  closed : s.stop → f ∧ ∀ k ∈ s.live, k % c ≠ 0
  panicked : s.panicked = false
  calls : if f then s.calls + s.parked + uses c s.live = uses c (range s.entries)
    else s.calls = 0

lemma uses_insert {l : Finset ℕ} (h : k ∉ l) :
    uses c (insert k l) = uses c l + if k % c = 0 then 1 else 0 := by
  rw [uses, filter_insert]
  split_ifs with hk
  · exact card_insert_of_notMem fun hmem => h (Finset.mem_filter.1 hmem).1
  · rfl

lemma card_le_of_window {l : Finset ℕ} {n : ℕ} (h : ∀ k ∈ l, k < n ∧ n ≤ k + c) : l.card ≤ c := by
  have hsub : l ⊆ Ico (n - c) n := by
    intro k hk
    have := h k hk
    rw [mem_Ico]
    omega
  have := card_le_card hsub
  rw [Nat.card_Ico] at this
  omega

namespace Inv

variable {j : ℕ}

lemma slot_inj (hi : Inv c f s) (hj : j ∈ s.live) (hk : k ∈ s.live) (h : j % c = k % c) :
    j = k := by
  have hj := hi.window j hj
  have hk := hi.window k hk
  refine Nat.ModEq.eq_of_abs_lt h (abs_lt.2 ⟨?_, ?_⟩) <;> omega

lemma busy_card (hi : Inv c f s) (hc : 1 ≤ c) :
    ((range c).filter (s.busy ·)).card = s.live.card := by
  have him : (range c).filter (s.busy ·) = s.live.image (· % c) := by
    ext i
    simp only [mem_filter, mem_range, hi.busy, mem_image]
    refine ⟨fun h => h.2, fun h => ⟨?_, h⟩⟩
    obtain ⟨k, -, rfl⟩ := h
    exact Nat.mod_lt _ hc
  rw [him, card_image_of_injOn fun j hj k hk => hi.slot_inj hj hk]

/-- The next entry finds its slot free, so the one before it in this slot has left. -/
lemma next_window (hi : Inv c f s) (hfr : s.busy s.pos = false) (hk : k ∈ s.live) :
    s.entries < k + c := by
  refine lt_of_le_of_ne (hi.window k hk).2 fun heq => ?_
  have hbs : s.busy s.pos := by
    rw [hi.busy, hi.pos, heq]
    exact ⟨k, hk, (Nat.add_mod_right k c).symm⟩
  rw [hfr] at hbs
  cases hbs

lemma enter (hi : Inv c f s) (hc : 1 ≤ c) : Inv c f (enter c s) := by
  unfold Gate.enter
  split
  case isTrue => exact hi
  case isFalse h =>
  obtain ⟨hfr, hst⟩ : s.busy s.pos = false ∧ s.stop = false := by simpa using h
  have hnew : s.entries ∉ s.live := fun hmem => lt_irrefl _ (hi.window _ hmem).1
  have hwin : ∀ k ∈ insert s.entries s.live, k < s.entries + 1 ∧ s.entries + 1 ≤ k + c := by
    intro k hk
    rcases Finset.mem_insert.1 hk with rfl | hk
    · omega
    · have := hi.next_window hfr hk
      have := hi.window k hk
      omega
  have hcr := card_insert_of_notMem hnew
  have hle := card_le_of_window hwin
  have hrun := hi.running
  refine ⟨?_, fun k hk => ?_, hwin, fun i => ?_, ?_, hi.parked, ?_, ?_, ?_⟩
  · have hlt : s.entries % c < c := Nat.mod_lt _ hc
    simp only [hi.pos, ← Nat.mod_add_mod s.entries c 1]
    split_ifs with hge
    · rw [le_antisymm hlt hge, Nat.mod_self]
    · exact (Nat.mod_eq_of_lt (by omega)).symm
  · change update s.ticket s.entries s.pos k = k % c
    by_cases heq : k = s.entries
    · rw [heq, update_self, hi.pos]
    · rw [update_of_ne heq]
      exact hi.ticket k (lt_of_le_of_ne (Nat.lt_succ_iff.1 hk) heq)
  · change update s.busy s.pos true i = true ↔ _
    rw [exists_mem_insert, ← hi.pos]
    by_cases heq : i = s.pos
    · simp [heq]
    · rw [update_of_ne heq, hi.busy]
      simp [Ne.symm heq]
  · rw [hcr]
    push_cast
    omega
  · rw [hst]
    simp
  · simp only [hi.panicked, Bool.false_or, decide_eq_false_iff_not]
    omega
  · have hcl := hi.calls
    split at hcl
    case isTrue hf =>
      simp only [hf, if_true, range_add_one, uses_insert hnew, uses_insert notMem_range_self]
      omega
    case isFalse hf =>
      simpa [hf] using hcl

lemma await (hi : Inv c f s) (hst : s.stop) (ht : t = { s with parked := 0 }) :
    Inv c f (await t) := by
  have hpr : s.parked = 1 := by rw [hi.parked, if_pos hst]
  subst ht
  unfold Gate.await
  split
  case isTrue =>
    have hs : { s with parked := 0 + 1 } = s := by rw [Nat.zero_add, ← hpr]
    exact hs ▸ hi
  case isFalse hzr =>
    have hcl := hi.calls
    rw [if_pos (hi.closed hst).1, hpr] at hcl
    refine ⟨hi.pos, hi.ticket, hi.window, hi.busy, hi.running, rfl, fun h => (by cases h),
      hi.panicked, ?_⟩
    rw [if_pos (hi.closed hst).1]
    exact hcl

lemma left (hi : Inv c f s) (hk : k ∈ s.live) (stop : Bool) {parked : ℕ}
    (hpr : parked = if stop then 1 else 0)
    (hcd : stop → f ∧ ∀ j ∈ s.live.erase k, j % c ≠ 0)
    (hsum : f → s.parked + uses c s.live = parked + uses c (s.live.erase k)) :
    Inv c f { s with
      busy := update s.busy (k % c) false
      running := s.running - 1
      live := s.live.erase k
      stop := stop
      parked := parked } := by
  have hcl := hi.calls
  refine ⟨hi.pos, hi.ticket, fun j hj => hi.window j (mem_of_mem_erase hj), fun i => ?_, ?_,
    hpr, hcd, hi.panicked, ?_⟩
  · change update s.busy (k % c) false i = true ↔ ∃ j ∈ s.live.erase k, j % c = i
    by_cases heq : i = k % c
    · rw [heq, update_self]
      simpa using fun j hne hj => mt (hi.slot_inj hj hk) hne
    · rw [update_of_ne heq, hi.busy]
      refine exists_congr fun j => and_congr_left fun hj => ?_
      rw [mem_erase, and_iff_right]
      rintro rfl
      exact heq hj.symm
  · have hcr := card_erase_add_one hk
    have hrun := hi.running
    change s.running - 1 = ((s.live.erase k).card : ℤ)
    omega
  · split
    case isTrue hf =>
      have := hsum hf
      rw [if_pos hf] at hcl
      change s.calls + parked + uses c (s.live.erase k) = uses c (range s.entries)
      omega
    case isFalse hf => simpa [hf] using hcl

lemma leave (hi : Inv c f s) (hk : k ∈ s.live) : Inv c f (leave f k s) := by
  have hidx : s.ticket k = k % c := hi.ticket k (hi.window k hk).1
  have hbs : s.busy (k % c) := (hi.busy _).2 ⟨k, hk, rfl⟩
  have hus := uses_insert (c := c) (notMem_erase k s.live)
  rw [insert_erase hk] at hus
  have hpan : (s.panicked || !s.busy (k % c) || decide (s.running - 1 < 0)) = false := by
    have := Finset.card_pos.2 ⟨k, hk⟩
    have hrun := hi.running
    rw [hi.panicked, hbs]
    exact decide_eq_false (by omega)
  simp only [Gate.leave, hidx, hpan]
  split_ifs with h
  · have hst : s.stop = false := Bool.eq_false_iff.2 fun hs => (hi.closed hs).2 k hk h.1
    have hpr : s.parked = 0 := by simp [hi.parked, hst]
    refine Inv.await (s := _)
      (hi.left hk true rfl (fun _ => ⟨h.2, fun j hj heq => ?_⟩) fun _ => ?_) rfl ?_
    · exact ne_of_mem_erase hj
        (hi.slot_inj (mem_of_mem_erase hj) hk (heq.trans h.1.symm))
    · rw [hus, if_pos h.1, hpr, if_pos rfl, Nat.zero_add, Nat.add_comm]
    · simp [hst, hpr, hi.panicked]
  · have hlf := hi.left hk s.stop hi.parked (fun hs => ⟨(hi.closed hs).1, fun j hj =>
      (hi.closed hs).2 j (mem_of_mem_erase hj)⟩) fun hf => by
        rw [hus, if_neg fun h0 => h ⟨h0, hf⟩, Nat.add_zero]
    rwa [hi.panicked] at hlf

end Inv

lemma Inv.step (hi : Inv c f s) (hc : 1 ≤ c) {e : Ev} (h : step c f s e = some t) : Inv c f t := by
  cases e with
  | enter =>
    cases h
    exact hi.enter hc
  | leave k =>
    obtain ⟨hk, h⟩ := Option.ite_none_right_eq_some.1 h
    cases h
    exact hi.leave hk
  | wake =>
    obtain ⟨hp, h⟩ := Option.ite_none_left_eq_some.1 h
    cases h
    have hst : s.stop := by
      by_contra hs
      exact hp (by simp [hi.parked, hs])
    exact hi.await hst (by simp [hi.parked, hst])

lemma await_counts (h : s.running = s.live.card) :
    ((await s).calls ≠ s.calls → (await s).calls = s.calls + 1 ∧ (await s).live = ∅) ∧
    (await s).entries = s.entries := by
  unfold await
  split
  case isTrue => exact ⟨fun h => absurd rfl h, rfl⟩
  case isFalse hzr =>
    refine ⟨fun _ => ⟨rfl, Finset.card_eq_zero.1 ?_⟩, rfl⟩
    rw [not_ne_iff.1 hzr] at h
    exact_mod_cast h.symm

lemma step_counts (hi : Inv c f s) {e : Ev} (h : step c f s e = some t) :
    (t.calls ≠ s.calls → t.calls = s.calls + 1 ∧ t.live = ∅) ∧
    (t.entries ≠ s.entries → ∀ k ∈ s.live, s.entries < k + c) := by
  cases e with
  | enter =>
    cases h
    unfold enter
    split
    case isTrue => exact ⟨fun h => absurd rfl h, fun h => absurd rfl h⟩
    case isFalse h =>
      refine ⟨fun h => absurd rfl h, fun _ k hk => hi.next_window ?_ hk⟩
      simp only [Bool.or_eq_true, not_or, Bool.not_eq_true] at h
      exact h.1
  | leave k =>
    obtain ⟨hk, h⟩ := Option.ite_none_right_eq_some.1 h
    cases h
    have hrun : s.running - 1 = ((s.live.erase k).card : ℤ) := by
      rw [hi.running, ← card_erase_add_one hk, Nat.cast_succ, add_sub_cancel_right]
    simp only [leave]
    split
    case isTrue => exact (await_counts hrun).imp_right fun heq h => absurd heq h
    case isFalse => exact ⟨fun h => absurd rfl h, fun h => absurd rfl h⟩
  | wake =>
    obtain ⟨hp, h⟩ := Option.ite_none_left_eq_some.1 h
    cases h
    have hcn := await_counts (s := { s with parked := s.parked - 1 }) hi.running
    exact hcn.imp_right fun heq h => absurd heq h

lemma inv_run (hc : 1 ≤ c) {es : List Ev} (hrun : run (step c f) start es = some s) : Inv c f s :=
  run_inv_hist (I := fun _ => Inv c f)
    ⟨rfl, by simp [start], by simp [start], by simp [start], rfl, rfl, by simp [start], rfl, by
      split <;> rfl⟩ (fun _ _ _ _ _ hi h => hi.step hc h) hrun

/-- **What the gate guarantees.** However clients enter, leave and wake up, `running` is the number
of busy slots and at most `c`, and there is no panic. The callback has been run once for each use
of slot 0 that is over, except that of the client that still waits for the others, and it runs
only when nothing is running. An activity starts only when the ones started `c` or more entries
earlier have all left. -/
theorem gate_safe (hc : 1 ≤ c) {es : List Ev} (hrun : run (step c f) start es = some s) :
    (s.running = ((range c).filter (s.busy ·)).card ∧ s.running ≤ c) ∧
    s.panicked = false ∧
    (if f then s.calls + s.parked + uses c s.live = uses c (range s.entries)
      else s.calls = 0) ∧
    ∀ e t, step c f s e = some t →
      (t.calls ≠ s.calls → t.calls = s.calls + 1 ∧ t.live = ∅) ∧
      (t.entries ≠ s.entries → ∀ k ∈ s.live, s.entries < k + c) := by
  have hi := inv_run hc hrun
  refine ⟨⟨?_, ?_⟩, hi.panicked, hi.calls, fun e t h => step_counts hi h⟩
  · rw [hi.busy_card hc, hi.running]
  · rw [hi.running]
    exact_mod_cast card_le_of_window hi.window

theorem gate_safe_two : ∃ s,
    run (step 2 true) start [.enter, .enter, .leave 0, .leave 1, .wake, .enter] = some s ∧
    s.calls = 1 ∧ s.running = 1 ∧ s.panicked = false := by
  obtain ⟨s, hs⟩ := Option.isSome_iff_exists.1
    (show (run (step 2 true) start [.enter, .enter, .leave 0, .leave 1, .wake, .enter]).isSome by
      decide)
  have hcn : (s.calls, s.running) = (1, 1) := by
    have := congrArg (Option.map fun s => (s.calls, s.running)) hs
    exact (Option.some.inj (this.symm.trans (by decide)))
  exact ⟨s, hs, congrArg Prod.fst hcn, congrArg Prod.snd hcn, (gate_safe (by decide) hs).2.1⟩

/-! ### Waking up -/

/-- A client at the test of `Enter` has to wait. -/
def blocked (s : State) : Bool := s.busy s.pos || s.stop

/-- The broadcasts of `Leave`. A client that waits in it makes them when it goes on. -/
def broadcasts (f : Bool) (s : State) : Ev → Bool
  | .enter => false
  | .leave k =>
    let idx := s.ticket k
    if idx = 0 ∧ f then decide (s.running - 1 = 0)
    else decide (idx = s.pos) && !s.stop || decide (s.running - 1 = 0) && s.stop
  | .wake => decide (s.running = 0)

/-- **No wake-up is lost.** Without a broadcast no client that waits could go on where it could not
before. When nobody is inside, clients can enter, at the latest after the one that waits in
`Leave`. -/
theorem no_wakeup_lost (hc : 1 ≤ c) {es : List Ev} (hrun : run (step c f) start es = some s) :
    (s.live = ∅ → blocked s → ∃ t, step c f s .wake = some t ∧ blocked t = false) ∧
    ∀ e t, step c f s e = some t → broadcasts f s e = false →
      (blocked s → blocked t) ∧ (s.running ≠ 0 → t.parked ≠ 0 → t.running ≠ 0) := by
  have hi := inv_run hc hrun
  refine ⟨fun hl hb => ?_, fun e t h hbr => ?_⟩
  · have hfr : s.busy s.pos = false := by simp [← Bool.not_eq_true, hi.busy, hl]
    have hst : s.stop := by simpa [blocked, hfr] using hb
    have hrn : s.running = 0 := by simp [hi.running, hl]
    exact ⟨_, if_neg (by simp [hi.parked, hst]), by simp [await, hrn, blocked, hfr]⟩
  · cases e with
    | enter =>
      cases h
      unfold enter
      split
      case isTrue => exact ⟨id, fun h _ => h⟩
      case isFalse hb =>
        have hrn := hi.running
        exact ⟨fun h => absurd h hb, fun _ _ => by dsimp only; omega⟩
    | leave k =>
      obtain ⟨hk, h⟩ := Option.ite_none_right_eq_some.1 h
      cases h
      simp only [broadcasts] at hbr
      simp only [leave]
      split_ifs at hbr ⊢ with h0
      · have hne := of_decide_eq_false hbr
        simp [await, hne, blocked]
      · have hpr := hi.parked
        cases hst : s.stop with
        | true =>
          have hne : s.running - 1 ≠ 0 := by simpa [hst] using hbr
          simp [blocked, hst, hne]
        | false =>
          have hne : s.pos ≠ s.ticket k := by simpa [hst, eq_comm] using hbr
          simp [blocked, hst, hpr, update_of_ne hne]
    | wake =>
      obtain ⟨hp, h⟩ := Option.ite_none_left_eq_some.1 h
      cases h
      have hne := of_decide_eq_false hbr
      simp [await, hne, blocked]

/-- Slot 0 is left before slot 1, so a client waits in `Leave`. -/
theorem no_wakeup_lost_two : ∃ s t,
    run (step 2 true) start [.enter, .enter, .leave 0, .leave 1] = some s ∧
      step 2 true s .wake = some t ∧ blocked t = false := by
  have hrun : run (step 2 true) start [.enter, .enter, .leave 0, .leave 1] =
      some (leave true 1 (leave true 0 (enter 2 (enter 2 start)))) := rfl
  obtain ⟨t, ht⟩ := (no_wakeup_lost (by decide) hrun).1 (by decide) (by decide)
  exact ⟨_, t, hrun, ht⟩

end Razzer.Gate
