import Razzer.Mailbox

/-!
The programs of the corpus on their way to the schedulers.

A scheduler is meant to have every program the manager accepts from a fuzzer, to splice it
into others. It gets the corpus in its connect reply, and its polls empty a list of further
inputs. Nothing is ever added to this list: `NewInput` sends a new program to the other
fuzzers only. The feed beside the system notes, for every scheduler and since it registered,
which programs were added to the corpus and what the scheduler was sent.
-/

namespace Razzer.CorpusFeed

open Feedback SyzManager Cluster Mailbox Runs Function List

/-- The programs added, the corpus of the connect reply, and the inputs of poll replies. -/
structure Feed where
  sys : State
  added : Name → List RPCInput
  welcome : Name → List RPCInput
  got : Name → List RPCInput

/-- `NewInput` adds the input to the corpus: the program parses, is new and adds signal. -/
def Adds (m : Manager) (sig : Sig) (inp : RPCInput) : Prop :=
  inp.prog.parses = true ∧ empty (diff m.corpusSignal inp.signal) = false ∧
    ∀ x ∈ m.corpus, x.1 ≠ sig

instance (m : Manager) (sig : Sig) (inp : RPCInput) : Decidable (Adds m sig inp) :=
  inferInstanceAs (Decidable (_ ∧ _))

namespace Feed

def addedAfter (F : Feed) : Ev → Name → List RPCInput
  | .schedRegister n _ => update F.added n []
  | .newInput _ sig inp => fun k =>
    if Adds F.sys.mgr sig inp ∧ (F.sys.mgr.schedulers k).isSome then F.added k ++ [inp]
    else F.added k
  | _ => F.added

def welcomeAfter (F : Feed) : Ev → Name → List RPCInput
  | .schedRegister n _ => update F.welcome n []
  | .schedReply n => update F.welcome n (schedulerConnectReply F.sys.mgr).corpus
  | _ => F.welcome

def gotAfter (F : Feed) : Ev → Name → List RPCInput
  | .schedRegister n _ => update F.got n []
  | .schedFinishPoll n => update F.got n (F.got n ++ (underWay (F.sys.scheds n)).plain)
  | _ => F.got

def step (F : Feed) (e : Ev) : Option Feed :=
  (Cluster.step F.sys e).map fun sys => ⟨sys, F.addedAfter e, F.welcomeAfter e, F.gotAfter e⟩

def init : Feed := ⟨Cluster.init, fun _ => [], fun _ => [], fun _ => []⟩

end Feed

def HasProg (inputs : List RPCInput) (inp : RPCInput) : Prop :=
  ∃ y ∈ inputs, y.prog.bytes = inp.prog.bytes

/-- Once its connect reply is built, every program added since scheduler `k` registered is in
the connect reply, in a poll reply or queued. -/
def Served (F : Feed) (k : Name) : Prop :=
  (F.sys.scheds k).Replied → ∀ inp ∈ F.added k,
    HasProg (F.welcome k ++ F.got k ++ (underWay (F.sys.scheds k)).plain ++
      (queued F.sys.mgr k).plain) inp

def AllServed (F : Feed) (e : Ev) : Prop := ∀ F', F.step e = some F' → ∀ k, Served F' k

/-- A program that is added is in the connect reply of every scheduler that has one, and what
was added before a connect reply is built is still in the corpus. -/
def Foreseen (F : Feed) : Ev → Prop
  | .newInput n sig inp => (F.sys.mgr.fuzzers n).isSome → Adds F.sys.mgr sig inp → ∀ k,
      (F.sys.mgr.schedulers k).isSome → (F.sys.scheds k).Replied → HasProg (F.welcome k) inp
  | .schedReply n => F.sys.scheds n = .registered →
      ∀ inp ∈ F.added n, HasProg (F.sys.mgr.corpus.map Prod.snd) inp
  | _ => True

/-! ### Nothing is sent by polls -/

/-- No input is queued, under way or has come in a poll reply. -/
structure Idle (F : Feed) (k : Name) : Prop where
  got : F.got k = []
  underWay : (underWay (F.sys.scheds k)).plain = []
  queued : (queued F.sys.mgr k).plain = []

variable {F F' : Feed} {k n : Name} {e : Ev} {s t : State} {sig : Sig} {inp : RPCInput}

lemma served_iff (h : Idle F k) :
    Served F k ↔ ((F.sys.scheds k).Replied → ∀ inp ∈ F.added k, HasProg (F.welcome k) inp) := by
  rw [Served, h.got, h.underWay, h.queued, append_nil, append_nil, append_nil]

lemma sent_plain (s : State) (k : Name) (e : Ev) : (sent s k e).plain = [] := by
  cases e <;> simp only [sent] <;> first | rfl | (split <;> rfl)

lemma gotAfter_eq (he : ¬ Empties k e) : F.gotAfter e k = F.got k := by
  cases e with
  | schedRegister n kept | schedFinishPoll n => exact update_of_ne (fun h => he h.symm) _ _
  | _ => rfl

lemma idle_step (h : Idle F k) (hs : F.step e = some F') : Idle F' k := by
  obtain ⟨t, ht, rfl⟩ := Option.map_eq_some_iff.1 hs
  cases moved_step ht k with
  | register kept hu hq =>
    exact ⟨update_self .., by simp only [hu, plain_empty], by simp only [hq, plain_empty]⟩
  | poll hu hp =>
    simp only [Box.pop, Prod.mk.injEq] at hp
    obtain ⟨hu', hq'⟩ := hp
    refine ⟨h.got, ?_, ?_⟩
    · simp only [← hu', h.queued]
      rfl
    · simp only [← hq', h.queued]
      rfl
  | finishPoll hu hq =>
    refine ⟨?_, by simp only [hu, plain_empty], by simp only [hq, h.queued]⟩
    simp only [Feed.gotAfter, update_self, h.got, h.underWay, append_nil]
  | other _ he hu hq =>
    refine ⟨by simp only [gotAfter_eq he, h.got], by simp only [hu, h.underWay], ?_⟩
    simp only [hq, plain_append, h.queued, sent_plain, append_nil]

/-! ### Connect replies -/

lemma replied_back (he : ∀ n, e ≠ .schedReply n) (h : step s e = some t)
    (hk : (t.scheds k).Replied) : (s.scheds k).Replied := by
  have hset : ∀ {n : Name} {l : SchedLink}, (l.Replied → (s.scheds n).Replied) →
      ((s.setSched n l).scheds k).Replied → (s.scheds k).Replied := by
    intro n l hl hk
    by_cases hkn : k = n
    · subst hkn
      simp only [State.setSched, update_self] at hk
      exact hl hk
    · simpa only [State.setSched, update_of_ne hkn] using hk
  rcases step_cases h with h | h | h
  · cases h <;> exact hk
  · cases h with
    | register n kept => exact hset (fun h => absurd h id) hk
    | reply n hl => exact absurd rfl (he n)
    | init n r hl | initPoll n x hl | poll n x a mgr r hl hp | finishPoll n x r hl =>
      exact hset (fun _ => by rw [hl]; trivial) hk
    | work e n f l hf hl => exact hset (fun _ => Link.replied_work hl) hk
  · cases h with
    | newLikelyRaceInput n rinp coin l mgr hl hm =>
      exact hset (fun _ => Link.replied_work hl) hk
    | _ => exact hk

def Feed.after (F : Feed) (e : Ev) (t : State) : Feed :=
  ⟨t, F.addedAfter e, F.welcomeAfter e, F.gotAfter e⟩

lemma feed_step : F.step e = some F' ↔ ∃ t, Cluster.step F.sys e = some t ∧ F.after e t = F' :=
  Option.map_eq_some_iff

structure Inv (F : Feed) : Prop where
  idle : ∀ k, Idle F k
  served : ∀ k, Served F k

lemma inv_init : Inv Feed.init :=
  ⟨fun _ => ⟨rfl, rfl, rfl⟩, fun _ h => absurd h id⟩

lemma Inv.served_same (hi : Inv F) (ht : Cluster.step F.sys e = some t)
    (had : F.addedAfter e k = F.added k) (hwl : F.welcomeAfter e k = F.welcome k)
    (hrp : (t.scheds k).Replied → (F.sys.scheds k).Replied) : Served (F.after e t) k := by
  rw [served_iff (idle_step (hi.idle k) (feed_step.2 ⟨t, ht, rfl⟩))]
  simp only [Feed.after, had, hwl]
  exact fun h => (served_iff (hi.idle k)).1 (hi.served k) (hrp h)

variable {m m' : Manager} {x : RPCInput} {kept : List (Sig × RPCRaceInput)}

lemma newInput_isSome (sig : Sig) (inp : RPCInput) (h : (m.fuzzers n).isSome) :
    ∃ m', newInput m n sig inp = some m' := by
  obtain ⟨f, hf⟩ := Option.isSome_iff_exists.1 h
  unfold newInput
  rw [hf]
  simp only
  split
  · exact ⟨_, rfl⟩
  · split
    · exact ⟨_, rfl⟩
    · split <;> exact ⟨_, rfl⟩

lemma newInput_fuzzer (h : newInput m n sig inp = some m') : (m.fuzzers n).isSome := by
  cases hf : m.fuzzers n with
  | none =>
    unfold newInput at h
    rw [hf] at h
    cases h
  | some f => rfl

lemma step_newInput :
    Cluster.step s (.newInput n sig inp) = some t ↔
      ∃ mgr, newInput s.mgr n sig inp = some mgr ∧ { s with mgr := mgr } = t := by
  simp [Cluster.step, stepFuzzer, fuzzerWorkOf, stepSched, schedWorkOf, stepManager]

lemma step_schedReply :
    Cluster.step s (.schedReply n) = some t ↔ s.scheds n = .registered ∧
      { s.setSched n (.welcomed (schedulerConnectReply s.mgr)) with
        mgr := queueLikely s.mgr n
        schedSeen := update s.schedSeen n s.mgr } = t := by
  cases hl : s.scheds n <;>
    simp [Cluster.step, stepFuzzer, fuzzerWorkOf, stepSched, stepManager, hl]

lemma addedAfter_newInput (n : Name) :
    x ∈ F.addedAfter (.newInput n sig inp) k ↔
      x ∈ F.added k ∨ x = inp ∧ Adds F.sys.mgr sig inp ∧ (F.sys.mgr.schedulers k).isSome := by
  simp only [Feed.addedAfter]
  split
  case isTrue h => simp [h.1, h.2]
  case isFalse h => simp [h]

/-! ### Which steps leave every scheduler served -/

lemma served_newInput_iff (hi : Inv F) :
    AllServed F (.newInput n sig inp) ↔ Foreseen F (.newInput n sig inp) := by
  have hil : ∀ {t k}, Cluster.step F.sys (.newInput n sig inp) = some t →
      Idle (F.after (.newInput n sig inp) t) k :=
    fun ht => idle_step (hi.idle _) (feed_step.2 ⟨_, ht, rfl⟩)
  constructor
  · intro hall hfz had k hrec hrep
    obtain ⟨mgr, hmgr⟩ := newInput_isSome sig inp hfz
    have ht := step_newInput.2 ⟨mgr, hmgr, rfl⟩
    have hsr := hall _ (feed_step.2 ⟨_, ht, rfl⟩) k
    rw [served_iff (hil ht)] at hsr
    exact hsr hrep inp
      ((addedAfter_newInput n).2 (.inr ⟨rfl, had, hrec⟩))
  · intro hfr F' hF' k
    obtain ⟨t, ht, rfl⟩ := feed_step.1 hF'
    rw [served_iff (hil ht)]
    obtain ⟨mgr, hmgr, rfl⟩ := step_newInput.1 ht
    intro hrep x hx
    rcases (addedAfter_newInput n).1 hx with hx | ⟨rfl, had, hrec⟩
    · exact (served_iff (hi.idle k)).1 (hi.served k) hrep x hx
    · exact hfr (newInput_fuzzer hmgr) had k hrec hrep

lemma served_schedReply_iff (hi : Inv F) :
    AllServed F (.schedReply n) ↔ Foreseen F (.schedReply n) := by
  have hn : ∀ {t}, Cluster.step F.sys (.schedReply n) = some t →
      (Served (F.after (.schedReply n) t) n ↔
        ((t.scheds n).Replied →
          ∀ inp ∈ F.added n, HasProg (F.sys.mgr.corpus.map Prod.snd) inp)) := by
    intro t ht
    rw [served_iff (idle_step (hi.idle n) (feed_step.2 ⟨_, ht, rfl⟩))]
    simp only [Feed.after, Feed.welcomeAfter, Feed.addedAfter, update_self, schedulerConnectReply]
  constructor
  · intro hall hl
    have ht := step_schedReply.2 ⟨hl, rfl⟩
    refine (hn ht).1 (hall _ (feed_step.2 ⟨_, ht, rfl⟩) n) ?_
    simp only [State.setSched, update_self]
    trivial
  · intro hfr F' hF' k
    obtain ⟨t, ht, rfl⟩ := feed_step.1 hF'
    by_cases hk : k = n
    · subst hk
      exact (hn ht).2 fun _ => hfr (step_schedReply.1 ht).1
    · refine hi.served_same ht rfl (update_of_ne hk _ _) ?_
      obtain ⟨-, rfl⟩ := step_schedReply.1 ht
      simp only [State.setSched, update_of_ne hk]
      exact id

lemma served_schedRegister (hi : Inv F) : AllServed F (.schedRegister n kept) := by
  intro F' hF' k
  obtain ⟨t, ht, rfl⟩ := feed_step.1 hF'
  by_cases hk : k = n
  · intro _ inp hinp
    simp [Feed.after, Feed.addedAfter, hk] at hinp
  · exact hi.served_same ht (update_of_ne hk _ _) (update_of_ne hk _ _)
      (replied_back (fun _ => by simp) ht)

lemma allServed_iff (e : Ev) (hi : Inv F) : AllServed F e ↔ Foreseen F e := by
  cases e with
  | newInput n sig inp => exact served_newInput_iff hi
  | schedReply n => exact served_schedReply_iff hi
  | schedRegister n kept => exact iff_of_true (served_schedRegister hi) trivial
  | _ =>
    refine iff_of_true (fun F' hF' k => ?_) trivial
    obtain ⟨t, ht, rfl⟩ := feed_step.1 hF'
    exact hi.served_same ht rfl rfl (replied_back (fun _ => by simp) ht)

lemma inv_step (hi : Inv F) (hf : Foreseen F e) (h : F.step e = some F') : Inv F' :=
  ⟨fun k => idle_step (hi.idle k) h, (allServed_iff e hi).2 hf F' h⟩

/-- **Programs reach the schedulers by connect replies only.** After every step of a run
each program added since a scheduler registered is in what the scheduler was sent or is
queued for it, if and only if no program is added that is not already in the connect reply of
every scheduler that has one, and what was added before a reply is in the corpus when the
reply is built. -/
theorem programs_served_iff (es : List Ev) :
    Meets Feed.step AllServed Feed.init es ↔ Meets Feed.step Foreseen Feed.init es :=
  meets_iff_of_inv (I := Inv) (fun _ e hi => allServed_iff e hi)
    (fun _ _ _ hi hf h => inv_step hi hf h) inv_init es

/-! ### A program that no scheduler is sent -/

def missedRun : List Ev :=
  [.fuzzerRegister 0, .schedRegister 1 [], .schedReply 1,
    .newInput 0 7 ⟨⟨"open()", true⟩, (∅ : Signal).insert 5 1⟩]

lemma missedRun_feed : (run Feed.step Feed.init missedRun).map (fun F =>
    (F.sys.mgr.corpus.length, decide (F.sys.scheds 1).Replied, (F.added 1).length,
      (F.welcome 1 ++ F.got 1 ++ (underWay (F.sys.scheds 1)).plain ++
        (queued F.sys.mgr 1).plain).length)) = some (1, true, 1, 0) := by
  decide +kernel

/-- The program is in the corpus, and it is neither sent to the scheduler nor queued. -/
theorem program_not_served : ∃ F, run Feed.step Feed.init missedRun = some F ∧
    F.sys.mgr.corpus.length = 1 ∧ ¬ Served F 1 := by
  obtain ⟨F, hF, hvw⟩ := Option.map_eq_some_iff.1 missedRun_feed
  simp only [Prod.mk.injEq, decide_eq_true_eq] at hvw
  obtain ⟨hcr, hrep, had, hsn⟩ := hvw
  refine ⟨F, hF, hcr, fun hsr => ?_⟩
  obtain ⟨inp, hinp⟩ := exists_mem_of_length_pos (had ▸ Nat.one_pos)
  obtain ⟨y, hy, -⟩ := hsr hrep inp hinp
  exact absurd hsn (length_pos_of_mem hy).ne'

end Razzer.CorpusFeed
