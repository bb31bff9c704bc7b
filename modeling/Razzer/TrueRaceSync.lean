import Razzer.Cluster

/-!
The race hashes that schedulers find.

A scheduler keeps every hash it knows once: the list of hashes grows only by hashes the map
does not have, or by hashes of a reply. The manager never puts a hash into the list of a
scheduler's record, so no poll reply carries any, and what another scheduler has found
arrives with the next connect reply only.
-/

namespace Razzer.TrueRaceSync

open SyzManager Cluster Runs Function List

/-! ### One scheduler -/

/-- Every hash is in the list once and in the map, and what is to be reported is known. -/
structure Known (x : SchedulerProc) : Prop where
  nodup : x.trueRaceHashes.Nodup
  map_eq : x.trueRaceHashesMap = x.trueRaceHashes.toFinset
  found : ∀ f ∈ x.foundRaceToUpdate, f.mempairHash ∈ x.trueRaceHashes

variable {x : SchedulerProc} {e : Ev} {n : Name} {s : State} {recs : Name → Option Scheduler}

variable {h : MempairHash} {t : State}

lemma Known.holds_once (hx : Known x) (hmem : h ∈ x.trueRaceHashes) :
    x.trueRaceHashes.count h = 1 ∧ h ∈ x.trueRaceHashesMap := by
  rw [hx.map_eq, mem_toFinset]
  exact ⟨count_eq_one_of_mem hx.nodup hmem, hmem⟩

lemma known_schedulerInit {r : SchedulerConnectRes} (hr : r.trueRaceHashes.Nodup) :
    Known (schedulerInit r) := by
  obtain ⟨c, m, h⟩ := schedulerInit_eq r
  rw [h]
  exact ⟨hr, rfl, by simp⟩

lemma Known.finishPoll {r : SchedulerPollRes} (hx : Known x) (hr : r.trueRaceHashes = []) :
    Known (x.finishPoll r) ∧ (x.finishPoll r).trueRaceHashes = x.trueRaceHashes := by
  obtain ⟨c, m, h⟩ := x.finishPoll_eq r
  rw [h, hr]
  refine ⟨⟨?_, ?_, ?_⟩, append_nil _⟩
  · simpa using hx.nodup
  · simpa using hx.map_eq
  · simpa using hx.found

lemma Known.updateTrueRaceInfo (hx : Known x) (hsh : MempairHash) (kind : RaceRunKind) :
    Known (x.updateTrueRaceInfo hsh kind) := by
  unfold SchedulerProc.updateTrueRaceInfo
  by_cases hmem : hsh ∈ x.trueRaceHashesMap
  · rwa [if_pos hmem]
  · rw [if_neg hmem]
    rw [hx.map_eq, mem_toFinset] at hmem
    refine ⟨?_, ?_, fun f hf => ?_⟩
    · rw [nodup_append_comm]
      exact List.nodup_cons.2 ⟨hmem, hx.nodup⟩
    · ext h
      simp [hx.map_eq]
    · rcases List.mem_append.1 hf with hf | hf
      · exact mem_append_left _ (hx.found f hf)
      · obtain rfl := List.mem_singleton.1 hf
        exact mem_append_right _ (List.mem_singleton.2 rfl)

lemma mem_updateTrueRaceInfo (hsh : MempairHash) (kind : RaceRunKind)
    (hmem : h ∈ x.trueRaceHashes) :
    h ∈ (x.updateTrueRaceInfo hsh kind).trueRaceHashes := by
  unfold SchedulerProc.updateTrueRaceInfo
  split
  · exact hmem
  · exact mem_append_left _ hmem

variable {f : SchedulerProc → SchedulerProc}

lemma Known.work (hx : Known x)
    (hf : schedWorkOf e = some (n, f)) : Known (f x) ∧ x.trueRaceHashes ⊆ (f x).trueRaceHashes := by
  unfold schedWorkOf at hf
  split at hf <;> cases hf
  case h_1 raw p =>
    rw [x.checkNewRaceSignal_eq]
    exact ⟨⟨hx.nodup, hx.map_eq, hx.found⟩, Subset.refl _⟩
  case h_2 => exact ⟨⟨hx.nodup, hx.map_eq, hx.found⟩, Subset.refl _⟩
  case h_3 hsh kind =>
    exact ⟨hx.updateTrueRaceInfo hsh kind, fun _ => mem_updateTrueRaceInfo hsh kind⟩
  case h_4 => exact ⟨⟨hx.nodup, hx.map_eq, hx.found⟩, Subset.refl _⟩
  case h_5 sign =>
    obtain ⟨c, m, h⟩ := x.addRaceInput_eq sign
    simp only [h]
    exact ⟨⟨hx.nodup, hx.map_eq, hx.found⟩, Subset.refl _⟩
  case h_6 rinp =>
    obtain ⟨c, l, h⟩ := x.finishLikely_eq rinp
    rw [h]
    exact ⟨⟨hx.nodup, hx.map_eq, hx.found⟩, Subset.refl _⟩

/-! ### The invariant -/

/-- A link to a scheduler whose last poll reported `reported`. -/
def LinkOk (reported : List MempairHash) : SchedLink → Prop
  | .down | .registered => True
  | .welcomed r => r.trueRaceHashes.Nodup
  | .running x => Known x
  | .asking x a => Known x ∧ ∀ f ∈ a.foundRaceInfos, f.mempairHash ∈ x.trueRaceHashes
  | .answered x r => Known x ∧ r.trueRaceHashes = [] ∧ reported ⊆ x.trueRaceHashes

lemma LinkOk.work {rep : List MempairHash}
    {l l' : SchedLink} (hok : LinkOk rep l)
    (hf : ∀ x, Known x → Known (f x) ∧ x.trueRaceHashes ⊆ (f x).trueRaceHashes)
    (hl : l.work f = some l') : LinkOk rep l' := by
  cases l with
  | down | registered | welcomed r => simp [Link.work] at hl
  | running x =>
    cases hl
    exact (hf x hok).1
  | asking x a =>
    cases hl
    obtain ⟨hx, ha⟩ := hok
    exact ⟨(hf x hx).1, fun g hg => (hf x hx).2 (ha g hg)⟩
  | answered x r =>
    cases hl
    obtain ⟨hx, hr, hrep⟩ := hok
    exact ⟨(hf x hx).1, hr, Subset.trans hrep (hf x hx).2⟩

structure Inv (s : State) : Prop where
  nodup : s.mgr.trueRaceHashes.Nodup
  pending : ∀ n, ∀ x ∈ s.mgr.schedulers n, x.trueRaceHashes = []
  links : ∀ n, LinkOk (s.reported n) (s.scheds n)

lemma inv_init : Inv Cluster.init := ⟨nodup_nil, by simp [Cluster.init, SyzManager.init],
  fun _ => trivial⟩

lemma Inv.setSched {l : SchedLink} (hi : Inv s) (hl : LinkOk (s.reported n) l) :
    Inv (s.setSched n l) := by
  refine ⟨hi.nodup, hi.pending, ?_⟩
  exact (forall_update_iff _ fun k l => LinkOk (s.reported k) l).2
    ⟨hl, fun k _ => hi.links k⟩

/-! ### Steps -/

lemma pending_congr {recs' : Name → Option Scheduler} {k : Name}
    (h : ∀ k, ∀ x ∈ recs k, x.trueRaceHashes = [])
    (heq : (recs' k).map Scheduler.trueRaceHashes = (recs k).map Scheduler.trueRaceHashes) :
    ∀ x ∈ recs' k, x.trueRaceHashes = [] := by
  intro x hx
  rw [Option.mem_def.1 hx, Option.map_some, eq_comm, Option.map_eq_some_iff] at heq
  obtain ⟨y, hy, heq⟩ := heq
  rw [← heq]
  exact h k y hy

lemma pending_others {f : Scheduler → Scheduler} (hf : ∀ x, (f x).trueRaceHashes = x.trueRaceHashes)
    (h : ∀ k, ∀ x ∈ recs k, x.trueRaceHashes = []) (k : Name) :
    ∀ x ∈ others n f recs k, x.trueRaceHashes = [] := by
  exact pending_congr h (map_others hf n recs k)

lemma pending_update {x : Scheduler} (hx : x.trueRaceHashes = [])
    (h : ∀ k, ∀ y ∈ recs k, y.trueRaceHashes = []) :
    ∀ k, ∀ y ∈ update recs n (some x) k, y.trueRaceHashes = [] :=
  (forall_update_iff recs fun _ (o : Option Scheduler) =>
    ∀ y ∈ o, y.trueRaceHashes = []).2 ⟨by simpa using hx, fun k _ => h k⟩

lemma inv_schedPoll {mgr : Manager} {a : SchedulerPollArgs} {r : SchedulerPollRes} (hi : Inv s)
    (hl : s.scheds n = .asking x a) (h : schedulerPoll s.mgr n a = some (mgr, r))
    (owed due : Name → List MempairHash) :
    Inv { s.setSched n (.answered x r) with
      mgr := mgr
      schedSeen := update s.schedSeen n mgr
      owed := owed
      due := due
      reported := update s.reported n (newlyFound s.mgr a) } := by
  obtain ⟨f, infos, new, hf, hnd, rfl, rfl⟩ := schedulerPoll_eq h
  have hn := hi.links n
  rw [hl] at hn
  obtain ⟨hx, ha⟩ := hn
  refine ⟨hnd hi.nodup, ?_, fun k => ?_⟩
  · exact pending_update rfl (pending_others (fun _ => rfl) hi.pending)
  · by_cases hk : k = n
    · subst hk
      simp only [State.setSched, update_self]
      refine ⟨hx, hi.pending k f hf, fun g hg => ?_⟩
      -- what is newly found is among the hashes the poll reports
      obtain ⟨finfo, hfn, rfl⟩ := List.mem_map.1 (List.mem_filter.1 hg).1
      exact ha finfo hfn
    · simpa only [State.setSched, update_of_ne hk] using hi.links k

lemma inv_schedStep (hi : Inv s) (h : SchedStep s e t) : Inv t := by
  cases h with
  | register n kept =>
    have hreg := hi.setSched (n := n) (l := .registered) trivial
    exact ⟨hi.nodup, pending_update rfl hi.pending, hreg.links⟩
  | reply n hl =>
    have hrep := hi.setSched (n := n) (l := .welcomed (schedulerConnectReply s.mgr)) hi.nodup
    refine ⟨hi.nodup, fun k x hx => ?_, hrep.links⟩
    exact pending_congr hi.pending (map_update (by exact fun _ => rfl) n _ k) x hx
  | init n r hl =>
    have hn := hi.links n
    rw [hl] at hn
    exact hi.setSched (known_schedulerInit hn)
  | initPoll n x hl =>
    have hn := hi.links n
    rw [hl] at hn
    exact hi.setSched ⟨⟨hn.nodup, hn.map_eq, by simp [SchedulerProc.initPoll]⟩, hn.found⟩
  | poll n x a mgr r hl hp => exact inv_schedPoll hi hl hp _ _
  | finishPoll n x r hl =>
    have hn := hi.links n
    rw [hl] at hn
    obtain ⟨hx, hr, -⟩ := hn
    exact hi.setSched (hx.finishPoll hr).1
  | work e n f l hf hl => exact hi.setSched ((hi.links n).work (fun _ hx => hx.work hf) hl)

lemma inv_managerStep (hi : Inv s) (h : ManagerStep s e t) : Inv t := by
  cases h with
  | updateSuppPairs drops dels adds new hm =>
    refine ⟨hi.nodup, fun k x hx => ?_, hi.links⟩
    obtain ⟨y, hy, rfl⟩ := Option.map_eq_some_iff.1 hx
    exact hi.pending k y hy
  | newRaceInput n sig rinp corpus signal rinputs hm =>
    exact ⟨hi.nodup, pending_others (fun _ => rfl) hi.pending, hi.links⟩
  | newLikelyRaceInput n rinp coin l mgr hl hm =>
    have hset := hi.setSched ((hi.links n).work (by
      exact fun x hx => ⟨⟨hx.nodup, hx.map_eq, hx.found⟩, Subset.refl _⟩) hl)
    rcases newLikelyRaceInput_eq hm with ⟨-, rfl⟩ | ⟨-, rfl⟩
    · exact hset
    · exact ⟨hset.nodup, pending_others (fun _ => rfl) hset.pending, hset.links⟩
  | _ => exact ⟨hi.nodup, hi.pending, hi.links⟩

lemma inv_step (s : State) (e : Ev) (t : State) (hi : Inv s) (h : step s e = some t) : Inv t := by
  rcases step_cases h with h | h | h
  · cases h <;> exact ⟨hi.nodup, hi.pending, hi.links⟩
  · exact inv_schedStep hi h
  · exact inv_managerStep hi h

/-! ### Delivery -/

/-- The poll reply that scheduler `n` applies carries the hashes the others had reported, and
the scheduler then has these and its own ones once. -/
def Delivered (s : State) : Ev → Prop
  | .schedFinishPoll n => ∀ x r, s.scheds n = .answered x r →
      s.due n ⊆ r.trueRaceHashes ∧
      ∀ h ∈ s.due n ++ s.reported n,
        (x.finishPoll r).trueRaceHashes.count h = 1 ∧ h ∈ (x.finishPoll r).trueRaceHashesMap
  | _ => True

/-- The others had reported nothing new since scheduler `n` connected or polled before. -/
def NothingDue (s : State) : Ev → Prop
  | .schedFinishPoll n => ∀ x r, s.scheds n = .answered x r → s.due n = []
  | _ => True

lemma delivered_iff (e : Ev) (hi : Inv s) : Delivered s e ↔ NothingDue s e := by
  cases e with
  | schedFinishPoll n =>
    simp only [Delivered, NothingDue]
    refine forall₃_congr fun x r hl => ?_
    have hn := hi.links n
    rw [hl] at hn
    obtain ⟨hx, hr, hrep⟩ := hn
    rw [hr, subset_nil]
    refine ⟨fun h => h.1, fun hdue => ⟨hdue, fun h hmem => ?_⟩⟩
    rw [hdue, nil_append] at hmem
    obtain ⟨hx', heq⟩ := hx.finishPoll hr
    exact hx'.holds_once (heq ▸ hrep hmem)
  | _ => exact Iff.rfl

/-- **When race hashes are delivered.** In a run from the empty system, every poll reply that
a scheduler applies carries what the other schedulers had newly reported since its last
reply, and leaves these hashes and its own ones in its list and map once, if and only if the
others never had reported anything. -/
theorem races_delivered_iff (es : List Ev) :
    Meets step Delivered Cluster.init es ↔ Meets step NothingDue Cluster.init es :=
  meets_iff_of_inv (I := Inv) (fun _ e hi => delivered_iff e hi)
    (fun s e t hi _ h => inv_step s e t hi h) inv_init es

def raceFoundElsewhere : List Ev :=
  [.schedRegister 0 [], .schedReply 0, .schedInit 0, .schedRegister 1 [], .schedReply 1,
    .schedInit 1, .schedFound 0 7 .triage, .schedInitPoll 0, .schedPoll 0, .schedFinishPoll 0,
    .schedInitPoll 1, .schedPoll 1]

def hashesOf : SchedLink → Option (List MempairHash × List MempairHash)
  | .answered x r => some (r.trueRaceHashes, (x.finishPoll r).trueRaceHashes)
  | _ => none

lemma raceFoundElsewhere_state :
    (run step Cluster.init raceFoundElsewhere).map (fun t =>
      (t.mgr.trueRaceHashes, t.due 1, hashesOf (t.scheds 1))) =
    some ([7], [7], some ([], [])) := by
  decide +kernel

/-- The hash that one scheduler has found does not reach the other. -/
theorem race_not_delivered :
    ¬ Meets step Delivered Cluster.init (raceFoundElsewhere ++ [.schedFinishPoll 1]) := by
  obtain ⟨m, hm, hvw⟩ := Option.map_eq_some_iff.1 raceFoundElsewhere_state
  simp only [Prod.mk.injEq] at hvw
  obtain ⟨-, hdue, hhs⟩ := hvw
  rw [meets_snoc hm]
  rintro ⟨-, hdel⟩
  unfold hashesOf at hhs
  split at hhs
  case h_2 => cases hhs
  case h_1 x r hl =>
    simp only [Option.some.injEq, Prod.mk.injEq] at hhs
    have hsub := (hdel x r hl).1
    rw [hdue, hhs.1] at hsub
    simp at hsub

end Razzer.TrueRaceSync
