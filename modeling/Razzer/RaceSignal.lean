import Razzer.Cluster

/-!
The signal of racy calls, tagged with the hash of their pair.

`xor` is to mix both halves of the hash into each element of a signal. The upper half is lost when
it is converted to 32 bits, so only the lower half can tell two pairs apart. The check for new
signal looks at the elements and not at their order, so even then a signal must not be moved onto
itself.
-/

namespace Razzer.RaceSignal

open Feedback SyzManager Cluster List

def xor (signals : List UInt32) (hash : MempairHash) : List UInt32 :=
  let highHash := ((hash >>> 32) <<< 32).toUInt32
  let lowHash := ((hash <<< 32) >>> 32).toUInt32
  signals.map fun signal => (signal ^^^ highHash) ^^^ lowHash

/-- What `checkNewRaceSignal` asks of a racy call. -/
def isNew (s : SchedulerProc) (sign : List UInt32) (p : ℤ) : Bool :=
  !empty (diffRaw s.raceMaxSignal sign p)

/-- The signal has other tags with the second hash, and is new after it was seen with the first. -/
def ToldApart (signals : List UInt32) (h h' : MempairHash) : Prop :=
  xor signals h ≠ xor signals h' ∧ ∀ (s : SchedulerProc) (p : ℤ), s.raceMaxSignal = ∅ →
    isNew (s.checkNewRaceSignal (xor signals h) p) (xor signals h') p

lemma xor_eq (signals : List UInt32) (hash : MempairHash) :
    xor signals hash = signals.map (· ^^^ hash.toUInt32) := by
  have hhi : ((hash >>> 32) <<< 32).toUInt32 = 0 := by
    apply UInt32.toNat_inj.1
    simp [Nat.shiftLeft_eq, Nat.shiftRight_eq_div_pow]
  have hlo : ((hash <<< 32) >>> 32).toUInt32 = hash.toUInt32 := by
    apply UInt32.toNat_inj.1
    simp [Nat.shiftLeft_eq, Nat.shiftRight_eq_div_pow]
    omega
  simp [xor, hhi, hlo]

variable {raw raw' : List UInt32} {p : ℤ} {e : UInt32}

lemma empty_diffRaw {m : Signal} : empty (diffRaw m raw p) ↔ ∀ e ∈ raw, covers m e p := by
  suffices h : ∀ res, empty (raw.foldl (fun res e => if covers m e p then res else res.insert e p)
      res) ↔ empty res ∧ ∀ e ∈ raw, covers m e p from (h ∅).trans (and_iff_right rfl)
  intro res
  induction raw generalizing res with
  | nil => simp
  | cons e raw ih =>
    rw [foldl_cons, ih, forall_mem_cons]
    by_cases hc : covers m e p
    · simp [hc]
    · simp [hc, empty]

lemma covers_diffRaw : covers (diffRaw ∅ raw p) e p ↔ e ∈ raw := by
  suffices h : ∀ res : Signal, covers (raw.foldl (fun res e => res.insert e p) res) e p ↔
      e ∈ raw ∨ covers res e p from (h ∅).trans (or_iff_left (by simp [covers]))
  intro res
  induction raw generalizing res with
  | nil => simp
  | cons x raw ih =>
    rw [foldl_cons, ih, covers_iff, prio_insert, covers_iff, mem_cons]
    by_cases he : e = x
    · simp [he]
    · simp [he]

lemma isNew_iff {s : SchedulerProc} (hs : s.raceMaxSignal = ∅) :
    isNew (s.checkNewRaceSignal raw p) raw' p ↔ ∃ e ∈ raw', e ∉ raw := by
  have hmax : (s.checkNewRaceSignal raw p).raceMaxSignal = merge ∅ (diffRaw ∅ raw p) := by
    rw [SchedulerProc.checkNewRaceSignal, hs]
    split_ifs with hd
    · rw [hs, merge_of_empty _ hd]
    · rfl
  have hcov : ∀ e, covers (merge ∅ (diffRaw ∅ raw p)) e p ↔ e ∈ raw := fun e => by
    rw [covers_iff, prio_merge, prio_empty, bot_sup_eq, ← covers_iff, covers_diffRaw]
  rw [isNew, hmax, Bool.not_eq_true', ← Bool.not_eq_true, empty_diffRaw]
  simp [hcov]

/-- **What tells two pairs apart.** Of two hashes that differ in one half only, it must be the lower
one, and the difference must not move the signal onto itself. -/
theorem toldApart_iff (signals : List UInt32) {h h' : MempairHash}
    (hhalf : h >>> 32 = h' >>> 32 ↔ h.toUInt32 ≠ h'.toUInt32) :
    ToldApart signals h h' ↔ h >>> 32 = h' >>> 32 ∧
      ∃ x ∈ signals, x ^^^ (h'.toUInt32 ^^^ h.toUInt32) ∉ signals := by
  have hmem : ∀ x, x ^^^ h'.toUInt32 ∈ xor signals h ↔
      x ^^^ (h'.toUInt32 ^^^ h.toUInt32) ∈ signals := fun x => by
    have hx : x ^^^ h'.toUInt32 = (x ^^^ (h'.toUInt32 ^^^ h.toUInt32)) ^^^ h.toUInt32 := by
      rw [← UInt32.xor_assoc, UInt32.xor_assoc, UInt32.xor_self, UInt32.xor_zero]
    rw [hx, xor_eq, mem_map_of_injective fun _ _ => (UInt32.xor_left_inj _).1]
  rw [hhalf]
  simp only [← hmem]
  constructor
  · rintro ⟨hne, hnew⟩
    refine ⟨fun heq => hne (by rw [xor_eq, xor_eq, heq]), ?_⟩
    simpa [xor_eq] using (isNew_iff rfl).1 (hnew ⟨∅, ∅, ∅, ∅, [], ∅, [], ∅, ∅, []⟩ 0 rfl)
  · rintro ⟨-, x, hx, hne⟩
    have he : x ^^^ h'.toUInt32 ∈ xor signals h' := by
      rw [xor_eq]
      exact mem_map_of_mem hx
    exact ⟨fun heq => hne (by rwa [heq]), fun s p hs => (isNew_iff hs).2 ⟨_, he, hne⟩⟩

theorem toldApart_lower_half : ToldApart [1] 1 2 :=
  (@toldApart_iff [1] 1 2 (by decide +kernel)).2 (by decide +kernel)

/-- Two hashes that differ in the upper half only. -/
theorem not_toldApart_upper_half : ¬ ToldApart [1] 0 0x100000000 :=
  fun h => h.1 (by decide +kernel)

end Razzer.RaceSignal
