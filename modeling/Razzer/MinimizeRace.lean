import Razzer.Places
import Razzer.Restarts

/-!
The calls and the indices of a minimised program.

Calls are told apart by their return values. Minimisation takes calls out of a program and
leaves the order of the others alone, and every index it keeps track of follows its call.
-/

namespace Razzer.Minimize

open Args Progs Sizes Trim List Function

/-! ### Removing calls -/

def sig (p : Prog) : List (Ref × Syscall) := p.calls.map fun c => (c.ret, c.syscall)

def sigAt (p : Prog) (k : ℤ) : Option (Ref × Syscall) :=
  if k < 0 then none else (sig p)[k.toNat]?

variable {p q : Prog} {i : ℕ} {k : ℤ} {pred : Pred} {s : Tracked}

lemma ProgTrims.sig_eq (h : ProgTrims p q) : sig q = sig p := by
  unfold sig
  unfold ProgTrims at h
  generalize p.calls = cs at h ⊢
  generalize q.calls = ds at h ⊢
  induction h with
  | nil => rfl
  | cons hc _ ih => rw [map_cons, map_cons, ih, hc.ret_eq, hc.syscall_eq]

lemma sig_mapResults (f : ResourceType → ResultNode → ResultNode) (cs : List Call) :
    ((cs.map (Call.mapResults f)).map fun c => (c.ret, c.syscall)) =
      cs.map fun c => (c.ret, c.syscall) := by
  rw [map_map]
  rfl

lemma sigAt_shiftIndex (hq : sig q = (sig p).eraseIdx i) (hk : (i : ℤ) ≠ k) :
    sigAt q (shiftIndex i k) = sigAt p k := by
  unfold sigAt
  rw [hq]
  exact Places.nth_eraseIdx _ hk

variable {k' l : ℤ} {n : ℕ} {name : Option String}

lemma shiftIndex_lt (hk : (i : ℤ) ≠ k) (hl : (i : ℤ) ≠ l) (h : k < l) :
    shiftIndex i k < shiftIndex i l :=
  Places.pastErase_lt hk hl h

/-- What the loop that removes calls does to the program, the indices and the log. -/
structure Removal (pred : Pred) (s s' : Tracked) : Prop where
  good : Good s'.p0
  sub : (sig s'.p0).Sublist (sig s.p0)
  calls : ∀ c' ∈ s'.p0.calls, ∃ c ∈ s.p0.calls, ∃ f, Resets f ∧ c' = c.mapResults f
  indices : ∃ φ : ℤ → ℤ, s'.callIndex = φ s.callIndex ∧ s'.index = s.index.map φ ∧
    (∀ k < 0, φ k = k) ∧
    (∀ k ∈ s.callIndex :: s.index, ∀ l ∈ s.callIndex :: s.index, k < l → φ k < φ l) ∧
    ∀ k ∈ s.callIndex :: s.index, sigAt s'.p0 (φ k) = sigAt s.p0 k
  log : ∃ new, s'.log = s.log ++ new ∧ (∀ x ∈ new, ∃ log, pred log x.1 = x.2) ∧
    ((∀ x ∈ new, x.2 = false) ∧ s'.p0 = s.p0 ∨ ∃ q, (q, true) ∈ new ∧ q.prog = s'.p0)

lemma Removal.rejected (h : Good s.p0) (new : Log) (hans : ∀ x ∈ new, ∃ log, pred log x.1 = x.2)
    (hnew : ∀ x ∈ new, x.2 = false) : Removal pred s { s with log := s.log ++ new } := by
  refine ⟨h, List.Sublist.refl _, fun c hc => ⟨c, hc, _, resets_id, ?_⟩, ⟨id, rfl, by simp, ?_⟩,
    new, rfl, hans, .inl ⟨hnew, rfl⟩⟩
  · have := map_mapResults_id [c]
    simpa using this.symm
  · exact ⟨fun _ _ => rfl, fun _ _ _ _ h => h, fun _ _ => rfl⟩

lemma Removal.trans {s' s'' : Tracked} (h : Removal pred s s') (h' : Removal pred s' s'') :
    Removal pred s s'' := by
  refine ⟨h'.good, h'.sub.trans h.sub, fun c'' hc'' => ?_, ?_, ?_⟩
  · obtain ⟨c', hc', g, hg, rfl⟩ := h'.calls c'' hc''
    obtain ⟨c, hc, f, hf, rfl⟩ := h.calls c' hc'
    refine ⟨c, hc, _, hf.comp hg, ?_⟩
    simpa using map_mapResults f g [c]
  · obtain ⟨φ, hci, hidx, hneg, hlt, hsig⟩ := h.indices
    obtain ⟨ψ, hci', hidx', hneg', hlt', hsig'⟩ := h'.indices
    have hmem : ∀ k ∈ s.callIndex :: s.index, φ k ∈ s'.callIndex :: s'.index := by
      rw [hci, hidx, ← map_cons]
      exact fun k hk => mem_map_of_mem hk
    refine ⟨ψ ∘ φ, by rw [hci', hci, comp_apply], by rw [hidx', hidx, map_map],
      fun k hk => ?_, fun k hk l hl hkl => ?_, fun k hk => ?_⟩
    · rw [comp_apply, hneg k hk, hneg' k hk]
    · exact hlt' _ (hmem k hk) _ (hmem l hl) (hlt k hk l hl hkl)
    · exact (hsig' _ (hmem k hk)).trans (hsig k hk)
  · obtain ⟨new, hlog, hans, hnew⟩ := h.log
    obtain ⟨new', hlog', hans', hnew'⟩ := h'.log
    refine ⟨new ++ new', by rw [hlog', hlog, append_assoc], forall_mem_append.2 ⟨hans, hans'⟩, ?_⟩
    rcases hnew' with ⟨hfl', hp'⟩ | ⟨q, hq, hpr⟩
    · rcases hnew with ⟨hfl, hp⟩ | ⟨q, hq, hpr⟩
      · exact .inl ⟨forall_mem_append.2 ⟨hfl, hfl'⟩, hp'.trans hp⟩
      · exact .inr ⟨q, mem_append_left _ hq, hpr.trans hp'.symm⟩
    · exact .inr ⟨q, mem_append_right _ hq, hpr⟩

lemma removal_accepted (pred : Pred) (h : Good s.p0) (hi : i < s.p0.calls.length)
    (htr : ¬ ((i : ℤ) = s.callIndex ∨ (i : ℤ) ∈ s.index)) :
    ∃ q, (s.p0.clone.bind fun p => p.removeCall i) = some q ∧
      q.calls.length + 1 = s.p0.calls.length ∧
      ∀ query : Query, query.prog = q → pred s.log query →
        Removal pred s ⟨q, shiftIndex i s.callIndex, s.index.map (shiftIndex i),
          s.log ++ [(query, true)]⟩ := by
  obtain ⟨p, hp, hcl, hgd, hl⟩ := h.clone
  obtain ⟨q, f, hq, hgd', hf, hqc⟩ := hgd.removeCall hl (hcl ▸ hi)
  rw [hcl] at hqc
  have hsig : sig q = (sig s.p0).eraseIdx i := by
    rw [sig, hqc, ← eraseIdx_map, sig_mapResults, sig]
  have hne : ∀ k ∈ s.callIndex :: s.index, (i : ℤ) ≠ k := by
    rintro k hk rfl
    exact htr (by simpa using hk)
  refine ⟨q, by rw [hp, Option.bind_some, hq], ?_, fun query hqr hans => ⟨hgd', ?_, ?_, ?_, ?_⟩⟩
  · rw [hqc, length_eraseIdx_of_lt (by simpa using hi), length_map]
    omega
  · rw [hsig]
    exact eraseIdx_sublist ..
  · intro c' hc'
    rw [hqc] at hc'
    obtain ⟨c, hc, rfl⟩ := mem_map.1 (mem_of_mem_eraseIdx hc')
    exact ⟨c, hc, f, hf, rfl⟩
  · refine ⟨shiftIndex i, rfl, rfl, fun k hk => ?_, fun k hk l hl => ?_, fun k hk => ?_⟩
    · exact if_neg (by omega)
    · exact shiftIndex_lt (hne k hk) (hne l hl)
    · exact sigAt_shiftIndex hsig (hne k hk)
  · exact ⟨[(query, true)], rfl, forall_mem_singleton.2 ⟨_, hans⟩, .inr ⟨query, by simp, hqr⟩⟩

/-- **The loop that removes calls** succeeds, and the indices follow the calls. -/
theorem removeCalls_total (pred : Pred) (h : Good s.p0) (hn : n ≤ s.p0.calls.length) :
    ∃ s', removeCalls pred n s = some s' ∧ Removal pred s s' := by
  induction n generalizing s with
  | zero => exact ⟨s, rfl, by simpa using Removal.rejected h [] (by simp) (by simp)⟩
  | succ i ih =>
    rw [removeCalls]
    split
    · exact ih h (by omega)
    case isFalse htr =>
      obtain ⟨q, hq, hlen, hac⟩ := removal_accepted pred h hn htr
      simp only [hq]
      split
      case isTrue hans =>
        have hst := hac ⟨q, shiftIndex i s.callIndex, s.index.map (shiftIndex i)⟩ rfl hans
        rw [hans]
        obtain ⟨s', hs', h'⟩ := ih hst.good (by simp only; omega)
        exact ⟨s', hs', hst.trans h'⟩
      case isFalse hans =>
        rw [Bool.not_eq_true] at hans
        have hst := Removal.rejected h
          [(⟨q, shiftIndex i s.callIndex, s.index.map (shiftIndex i)⟩, false)]
          (forall_mem_singleton.2 ⟨_, hans⟩) (by simp)
        rw [hans]
        obtain ⟨s', hs', h'⟩ := ih hst.good (by simp only; omega)
        exact ⟨s', hs', hst.trans h'⟩

/-! ### The whole minimisation -/

lemma sigAt_eq_some {x : Ref × Syscall} :
    sigAt p k = some x ↔ ∃ n : ℕ, k = n ∧ ∃ c, p.calls[n]? = some c ∧ x = (c.ret, c.syscall) := by
  unfold sigAt sig
  constructor
  · intro h
    split at h
    · cases h
    · obtain ⟨c, hc, rfl⟩ := Option.map_eq_some_iff.1 (getElem?_map ▸ h)
      exact ⟨k.toNat, by omega, c, hc, rfl⟩
  · rintro ⟨n, rfl, c, hc, rfl⟩
    rw [if_neg (by omega), Int.toNat_natCast, getElem?_map, hc, Option.map_some]

lemma trackedName_congr (hneg : k < 0 → k' = k) (hsig : sigAt q k' = sigAt p k)
    (h : trackedName p k = some name) : trackedName q k' = some name := by
  unfold trackedName at h ⊢
  by_cases hk : k = -1
  · rw [if_pos hk] at h
    rw [if_pos (by omega), h]
  · rw [if_neg hk] at h
    split at h
    · cases h
    · obtain ⟨c, hc, rfl⟩ := Option.map_eq_some_iff.1 h
      obtain ⟨n, rfl, c', hc', hx⟩ := sigAt_eq_some.1
        (hsig.trans (sigAt_eq_some.2 ⟨k.toNat, by omega, c, hc, rfl⟩))
      rw [if_neg (by omega), if_neg (by omega), Int.toNat_natCast, hc', Option.map_some]
      simp only [Prod.mk.injEq] at hx
      rw [hx.2]

lemma minimizeWith_phases (h : Good p) {fuel : ℕ} {ci : ℤ} {index : List ℤ} {crash : Bool}
    (hrun : minimizeWith fuel p ci index crash pred = some s) :
    ∃ t w, Removal pred ⟨p, ci, index, []⟩ t ∧
      minimizeCalls ⟨pred, crash, t.callIndex, t.index, 0⟩ fuel t.p0.calls.length 0
        ⟨t.p0, t.p0, false, [], t.log⟩ = some w ∧ s.p0 = w.p0 ∧ s.log = w.log := by
  obtain ⟨name, -, hrun⟩ := Option.bind_eq_some_iff.1 hrun
  obtain ⟨t, ht, hrun⟩ := Option.bind_eq_some_iff.1 hrun
  obtain ⟨w, hw, hrun⟩ := Option.bind_eq_some_iff.1 hrun
  obtain ⟨t', ht', hrem⟩ := removeCalls_total pred (s := ⟨p, ci, index, []⟩) h le_rfl
  cases ht.symm.trans ht'
  split at hrun <;> cases hrun
  exact ⟨t, w, hrem, hw, rfl, rfl⟩

/-- **Minimisation returns**, and the indices follow the calls. -/
theorem minimizeWith_total (h : Good p) (ci : ℤ)
    (hci : ci = -1 ∨ 0 ≤ ci ∧ ci < p.calls.length) (index : List ℤ)
    (crash : Bool) (pred : Pred) :
    ∃ N s, (∀ fuel, N ≤ fuel → minimizeWith fuel p ci index crash pred = some s) ∧
      (sig s.p0).Sublist (sig p) ∧
      ∃ φ : ℤ → ℤ, s.callIndex = φ ci ∧ s.index = index.map φ ∧
        (∀ k ∈ ci :: index, ∀ l ∈ ci :: index, k < l → φ k < φ l) ∧
        ∀ k ∈ ci :: index, sigAt s.p0 (φ k) = sigAt p k := by
  obtain ⟨name, hnm⟩ : ∃ name, trackedName p ci = some name := by
    unfold trackedName
    rcases hci with rfl | ⟨hle, hlt⟩
    · exact ⟨none, if_pos rfl⟩
    · rw [if_neg (by omega), if_neg (by omega), getElem?_eq_getElem (by omega)]
      exact ⟨_, rfl⟩
  obtain ⟨s, hs, hrem⟩ := removeCalls_total pred (s := ⟨p, ci, index, []⟩) h le_rfl
  have hn : 0 + s.p0.calls.length ≤ s.p0.calls.length := by omega
  obtain ⟨N, w, hw⟩ := minimizeCalls_total ⟨pred, crash, s.callIndex, s.index, 0⟩
    (w := ⟨s.p0, s.p0, false, [], s.log⟩) hrem.good hn
  have ht : ProgTrims s.p0 w.p0 :=
    (minimizeCalls_leads (w := ⟨s.p0, s.p0, false, [], s.log⟩) hrem.good hn (hw N le_rfl)).trims
  obtain ⟨φ, hφ, hidx, hneg, hlt, hsig⟩ := hrem.indices
  have hsig' : ∀ k ∈ ci :: index, sigAt w.p0 (φ k) = sigAt p k := by
    intro k hk
    rw [← hsig k hk]
    unfold sigAt
    rw [ht.sig_eq]
  refine ⟨N, ⟨w.p0, s.callIndex, s.index, w.log⟩, fun fuel hfl => ?_, ?_, φ, hφ, hidx, hlt, hsig'⟩
  · have hend : trackedName w.p0 s.callIndex = some name :=
      trackedName_congr (fun hk => hφ.trans (hneg _ hk))
        (hφ ▸ hsig' ci (mem_cons_self ..)) hnm
    simp only [minimizeWith, hnm, hs, hw fuel hfl, Option.bind_some, if_pos hend]
  · rw [ht.sig_eq]
    exact hrem.sub

/-- Index `k'` of `q` designates the copy of call `k` of `p`. -/
def SameCall (p q : Prog) (k k' : ℕ) : Prop :=
  ∃ (h : k < p.calls.length) (h' : k' < q.calls.length),
    q.calls[k'].ret = p.calls[k].ret ∧ q.calls[k'].syscall = p.calls[k].syscall

lemma exists_sameCall {k : ℕ} (hk : k < p.calls.length) (h : sigAt q l = sigAt p k) :
    ∃ k' : ℕ, l = k' ∧ SameCall p q k k' := by
  obtain ⟨k', rfl, c, hc, hx⟩ := sigAt_eq_some.1
    (h.trans (sigAt_eq_some.2 ⟨k, rfl, _, getElem?_eq_getElem hk, rfl⟩))
  obtain ⟨hk', rfl⟩ := List.getElem?_eq_some_iff.1 hc
  simp only [Prod.mk.injEq] at hx
  exact ⟨k', rfl, hk, hk', hx.1.symm, hx.2.symm⟩

/-- **`MinimizeRace` keeps the calls it tracks.** Whatever the predicate answers, it returns a
program whose calls are a subsequence of the input's, with indices in range that keep their
order and designate the copies of the same two racy calls and of the same tracked call. -/
theorem minimizeRace_keeps_calls {p : Prog} (h : Good p) {callIndex i j : ℕ}
    (hcall : callIndex < p.calls.length) (hi : i < p.calls.length) (hj : j < p.calls.length)
    (hij : i ≠ j) (crash : Bool) (pred : Pred) :
    ∃ N s, (∀ fuel, N ≤ fuel → minimizeRace fuel p callIndex crash pred (i, j) = some s) ∧
      (s.p0.calls.map Call.syscall).Sublist (p.calls.map Call.syscall) ∧
      ∃ callIndex' i' j' : ℕ, s.callIndex = callIndex' ∧ s.index = [(i' : ℤ), (j' : ℤ)] ∧
        SameCall p s.p0 callIndex callIndex' ∧ SameCall p s.p0 i i' ∧ SameCall p s.p0 j j' ∧
        (i < j ↔ i' < j') ∧ i' ≠ j' := by
  obtain ⟨N, s, hs, hsub, φ, hφ, hidx, hlt, hsig⟩ :=
    minimizeWith_total h callIndex (.inr ⟨by omega, by omega⟩) [(i : ℤ), (j : ℤ)] crash pred
  obtain ⟨k, hk, hsm⟩ := exists_sameCall hcall (hsig callIndex (by simp))
  obtain ⟨i', hi', hsm₁⟩ := exists_sameCall hi (hsig i (by simp))
  obtain ⟨j', hj', hsm₂⟩ := exists_sameCall hj (hsig j (by simp))
  have hij' := hlt i (by simp) j (by simp)
  have hji' := hlt j (by simp) i (by simp)
  rw [hi', hj'] at hij' hji'
  refine ⟨N, s, hs, ?_, k, i', j', hφ.trans hk, by simp [hidx, hi', hj'], hsm, hsm₁, hsm₂, ?_, ?_⟩
  · have := hsub.map Prod.snd
    simpa only [sig, map_map, comp_def] using this
  · omega
  · omega

/-- `open`, `write` with the file descriptor, a buffer and its length, and `close`. -/
def sampleProg : Prog :=
  let common (name : String) (size : ℕ) (varlen : Bool) : TypeCommon :=
    ⟨name, name, size, .dirIn, false, varlen⟩
  let fd (id : Ref) : Arg := .result ⟨common "fd" 4 false, 0xffffffffffffffff⟩ ⟨id, some 0, 0, 0, 0⟩
  let buf : Arg := .ptr ⟨common "buf" 8 false, false⟩ 0
    (.data ⟨common "data" 0 true, .blobRand, 0⟩ [1, 2, 3] 0)
  let count : Arg := .const ⟨common "count" 8 false, .len 0 "buf", false, {}⟩ 3
  ⟨[⟨⟨0, "open"⟩, [], 0⟩, ⟨⟨1, "write"⟩, [fd 2, buf, count], 1⟩, ⟨⟨2, "close"⟩, [fd 4], 3⟩],
    {(0, 2), (0, 4)}⟩

lemma sampleProg_good : Good sampleProg :=
  ⟨by decide +kernel, by decide +kernel, by decide +kernel, by decide +kernel⟩

/-- The first and the last call are tracked; `write` is not, and is removed. -/
theorem minimizeRace_keeps_calls_sample :
    ∃ N s, (∀ fuel, N ≤ fuel →
        minimizeRace fuel sampleProg 2 false (fun _ _ => true) (0, 2) = some s) ∧
      (s.p0.calls.map Call.syscall).Sublist (sampleProg.calls.map Call.syscall) ∧
      ∃ callIndex' i' j' : ℕ, s.callIndex = callIndex' ∧ s.index = [(i' : ℤ), (j' : ℤ)] ∧
        SameCall sampleProg s.p0 2 callIndex' ∧ SameCall sampleProg s.p0 0 i' ∧
        SameCall sampleProg s.p0 2 j' ∧ (0 < 2 ↔ i' < j') ∧ i' ≠ j' :=
  minimizeRace_keeps_calls sampleProg_good (by decide) (by decide) (by decide) (by decide) false _

example : (minimizeRace 20 sampleProg 2 false (fun _ _ => true) (0, 2)).map (fun s =>
    (s.p0.calls.map fun c => c.syscall.name, s.callIndex, s.index)) =
      some (["open", "close"], 1, [0, 1]) := by
  decide +kernel

end Razzer.Minimize
