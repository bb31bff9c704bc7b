import Razzer.Mailbox
import Razzer.Replicas

/-!
The likely inputs of the manager and of the schedulers.

The manager holds one likely input for a pair of memory accesses, and a scheduler may replace
it. Every scheduler keeps a copy: it is sent all likely inputs when it connects, the first 99
in the reply and the others by polls, and each stored input of another scheduler by a poll. A
poll takes the inputs off the end of the queue, so an older input for a pair may come after a
newer one, and the scheduler takes over whatever comes.
-/

namespace Razzer.LikelySync

open Feedback SyzManager Cluster Mailbox Replicas Runs List Function Option

/-- The schedulers that have registered, and the hashes for which a scheduler has sent an input
since it registered. -/
structure Uploads where
  sys : State
  names : List Name
  uploaded : Name → List MempairHash

namespace Uploads

def namesAfter (U : Uploads) : Ev → List Name
  | .schedRegister n _ => n :: U.names
  | _ => U.names

def uploadedAfter (U : Uploads) : Ev → Name → List MempairHash
  | .schedRegister n _ => update U.uploaded n []
  | .newLikelyRaceInput n rinp _ =>
    update U.uploaded n (rinp.raceInfo.hash :: U.uploaded n)
  | _ => U.uploaded

def step (U : Uploads) (e : Ev) : Option Uploads :=
  (Cluster.step U.sys e).map fun sys => ⟨sys, U.namesAfter e, U.uploadedAfter e⟩

def init : Uploads := ⟨Cluster.init, [], fun _ => []⟩

end Uploads

/-- The state of a scheduler that has applied the last reply it was given. -/
def applied : SchedLink → Option SchedulerProc
  | .running x | .asking x _ => some x
  | _ => none

/-- Nothing is queued for scheduler `k` and it has applied its last reply: then it holds, for
every pair it has sent nothing for, the input that the manager holds. -/
def Agrees (U : Uploads) (k : Name) : Prop :=
  ∀ x, applied (U.sys.scheds k) = some x → (queued U.sys.mgr k).likely = [] →
    ∀ h inp, U.sys.mgr.likelyRaceCorpus.lookup h = some inp → h ∉ U.uploaded k →
      x.likelyRaceCorpus.lookup h = some inp

/-- An input that is stored parses, and for no other scheduler an input for the same pair is
still queued. -/
def Spaced (U : Uploads) : Ev → Prop
  | .newLikelyRaceInput n rinp coin => StoresLikely U.sys.mgr rinp coin →
      rinp.raceProg.parses = true ∧ ∀ k ∈ U.names, k ≠ n →
        ∀ r ∈ (queued U.sys.mgr k).likely, r.raceInfo.hash ≠ rinp.raceInfo.hash
  | _ => True

instance (U : Uploads) : DecidablePred (Spaced U) := fun e => by
  cases e with
  | newLikelyRaceInput n rinp coin => exact inferInstanceAs (Decidable (_ → _))
  | _ => exact isTrue trivial

/-! ### The copy of one scheduler -/

def hashOf (rinp : RPCLikelyRaceInput) : MempairHash := rinp.raceInfo.hash

def flight : SchedLink → List RPCLikelyRaceInput
  | .welcomed r => r.likelyRaceInputs
  | l => (underWay l).likely

def held : SchedLink → LikelyCorpus
  | .running x | .asking x _ | .answered x _ => x.likelyRaceCorpus
  | _ => ∅

def outgoing : SchedLink → List RPCLikelyRaceInput
  | .running x | .asking x _ | .answered x _ => x.likelySent
  | _ => []

lemma addLikelyInputs_eq (corpus : LikelyCorpus) (rinps : List RPCLikelyRaceInput) :
    addLikelyInputs corpus rinps = absorb hashOf (fun r => r.raceProg.parses) corpus rinps := rfl

structure Tracks (U : Uploads) (k : Name) : Prop where
  recorded : U.sys.scheds k ≠ .down → (U.sys.mgr.schedulers k).isSome
  sending : ∀ r ∈ outgoing (U.sys.scheds k), hashOf r ∈ U.uploaded k
  uniform : ∀ h inp, U.sys.mgr.likelyRaceCorpus.lookup h = some inp → h ∉ U.uploaded k →
    Uniform hashOf h inp (queued U.sys.mgr k).likely
  fed : (U.sys.scheds k).Replied → ∀ h inp, U.sys.mgr.likelyRaceCorpus.lookup h = some inp →
    h ∉ U.uploaded k →
    Fed hashOf h inp (queued U.sys.mgr k).likely (flight (U.sys.scheds k)) (held (U.sys.scheds k))

structure Inv (U : Uploads) : Prop where
  named : ∀ k, (U.sys.mgr.schedulers k).isSome → k ∈ U.names
  keyed : ∀ h inp, U.sys.mgr.likelyRaceCorpus.lookup h = some inp →
    hashOf inp = h ∧ inp.raceProg.parses = true
  tracks : ∀ k, Tracks U k

lemma inv_init : Inv Uploads.init where
  named k h := by cases h
  keyed h inp hl := by cases hl
  tracks _ := ⟨fun h => absurd rfl h, fun _ hr => absurd hr not_mem_nil,
    fun h inp hl => (by cases hl), fun h => absurd h id⟩

variable {l l' : SchedLink} {x : SchedulerProc} {U : Uploads} {k n : Name} {a : MempairHash}
  {e : Ev} {inp r rinp : RPCLikelyRaceInput} {s t : State} {f : SchedulerProc → SchedulerProc}
  {coin : Bool}

lemma applied_eq (h : applied l = some x) :
    l.Replied ∧ flight l = [] ∧ held l = x.likelyRaceCorpus := by
  cases l <;> cases h <;> exact ⟨trivial, rfl, rfl⟩

lemma agrees_of_tracks (h : Tracks U k) : Agrees U k := by
  intro x hx hq a inp hl ha
  obtain ⟨hrep, hfl, hhl⟩ := applied_eq hx
  have hfed := h.fed hrep a inp hl ha
  rw [hq, hfl, hhl] at hfed
  exact hfed.settled

/-! ### The corpus of the manager -/

def Uploading (e : Ev) : Prop := ∃ n rinp coin, e = .newLikelyRaceInput n rinp coin

lemma lookup_step (h : Cluster.step s e = some t) (he : ¬ Uploading e)
    (hl : t.mgr.likelyRaceCorpus.lookup a = some inp) :
    s.mgr.likelyRaceCorpus.lookup a = some inp := by
  rcases step_cases h with h | h | h
  · cases h <;> exact hl
  · cases h with
    | register n kept => exact (lookup_dropTrue hl).2
    | poll n x a mgr r hln hp =>
      obtain ⟨rec, infos, new, -, -, rfl, rfl⟩ := schedulerPoll_eq hp
      exact (lookup_eraseAll hl).2
    | _ => exact hl
  · cases h with
    | minimizeRaceCorpus kept => exact (lookup_dropTrue hl).2
    | newLikelyRaceInput n rinp coin l mgr hln hm => exact absurd ⟨n, rinp, coin, rfl⟩ he
    | reorderLikely corpus hp => exact (AList.perm_lookup hp).symm.trans hl
    | _ => exact hl

/-! ### Steps -/

def actor : Ev → Option Name
  | .schedRegister n _ | .schedReply n | .schedInit n | .schedInitPoll n | .schedPoll n
  | .schedFinishPoll n | .schedSignal n _ _ | .schedMerge n _ | .schedFound n _ _
  | .schedExecs n _ _ | .schedTriaged n _ | .schedLikely n _ | .newLikelyRaceInput n _ _ => some n
  | _ => none

lemma setSched_of_ne (h : some n ≠ some k) : (s.setSched n l).scheds k = s.scheds k :=
  update_of_ne (fun hk => h (congrArg some hk.symm)) _ _

lemma scheds_of_ne (h : Cluster.step s e = some t) (he : actor e ≠ some k) :
    t.scheds k = s.scheds k := by
  rcases step_cases h with h | h | h
  · cases h <;> rfl
  · cases h with
    | work e n f l hf hl =>
      cases e <;> cases hf <;> exact setSched_of_ne he
    | _ => exact setSched_of_ne he
  · cases h with
    | newLikelyRaceInput n rinp coin l mgr hl hm => exact setSched_of_ne he
    | _ => rfl

lemma isSome_step_iff (h : Cluster.step s e = some t) (k : Name) :
    (t.mgr.schedulers k).isSome ↔
      (s.mgr.schedulers k).isSome ∨ ∃ kept, e = .schedRegister k kept := by
  rcases step_cases h with h | h | h
  · cases h with
    | work e n f l hf hl => cases e <;> cases hf <;> simp [State.setFuzzer]
    | _ => simp [State.setFuzzer, SyzManager.register, polled]
  · cases h with
    | register n kept =>
      by_cases hkn : k = n
      · simp [schedulerRegister, hkn]
      · simp [schedulerRegister, minimizeRaceCorpus, update_of_ne hkn, Ne.symm hkn]
    | reply n hl =>
      by_cases hkn : k = n
      · simp [queueLikely, hkn]
      · simp [queueLikely, update_of_ne hkn]
    | poll n x a mgr r hln hp =>
      obtain ⟨rec, infos, new, hrec, -, rfl, rfl⟩ := schedulerPoll_eq hp
      by_cases hkn : k = n
      · simp [hkn, hrec]
      · simp [update_of_ne hkn, isSome_others]
    | work e n f l hf hl => cases e <;> cases hf <;> simp [State.setSched]
    | _ => simp [State.setSched]
  · cases h with
    | newRaceInput n sig rinp corpus signal rinputs hm => simp [sharingRace, isSome_others]
    | newLikelyRaceInput n rinp coin l mgr hl hm =>
      rcases newLikelyRaceInput_eq hm with ⟨-, rfl⟩ | ⟨-, rfl⟩
      · simp
      · simp [isSome_others]
    | _ => simp [SyzManager.minimizeRaceCorpus, SyzManager.minimizeCorpus, suppressing, sharing]

lemma isSome_step (h : Cluster.step s e = some t) (hk : (s.mgr.schedulers k).isSome) :
    (t.mgr.schedulers k).isSome :=
  (isSome_step_iff h k).2 (.inl hk)

lemma named_of_mem (hi : Inv U) (hr : r ∈ (queued U.sys.mgr k).likely) : k ∈ U.names := by
  refine hi.named k ?_
  cases hrec : U.sys.mgr.schedulers k with
  | some rec => rfl
  | none =>
    rw [queued, hrec] at hr
    cases hr

def Uploads.after (U : Uploads) (e : Ev) (t : State) : Uploads :=
  ⟨t, U.namesAfter e, U.uploadedAfter e⟩

lemma uploadedAfter_of_ne (he : actor e ≠ some k) : U.uploadedAfter e k = U.uploaded k := by
  cases e with
  | schedRegister n kept | newLikelyRaceInput n rinp coin =>
    exact update_of_ne (fun h => he (congrArg some h.symm)) _ _
  | _ => rfl

/-- The link of a scheduler changes, and its copy stays in step with the manager: nothing is
sent to it, and its copy changes only for pairs it has sent an input for. -/
structure Still (s t : State) (ups : List MempairHash) (k : Name) : Prop where
  queue : (queued t.mgr k).likely = (queued s.mgr k).likely
  down : t.scheds k ≠ .down → s.scheds k ≠ .down
  sending : ∀ r ∈ outgoing (t.scheds k), r ∈ outgoing (s.scheds k)
  replied : (t.scheds k).Replied → (s.scheds k).Replied
  flight : flight (t.scheds k) = flight (s.scheds k)
  held : ∀ a, a ∉ ups → (held (t.scheds k)).lookup a = (held (s.scheds k)).lookup a

lemma Tracks.still (h : Tracks U k) (ht : Cluster.step U.sys e = some t) (he : ¬ Uploading e)
    (hup : U.uploadedAfter e k = U.uploaded k) (hs : Still U.sys t (U.uploaded k) k) :
    Tracks (U.after e t) k := by
  refine ⟨fun hd => isSome_step ht (h.recorded (hs.down hd)), fun r hr => ?_, ?_, ?_⟩
  · simp only [Uploads.after, hup]
    exact h.sending r (hs.sending r hr)
  · intro a inp hl ha
    simp only [Uploads.after, hup, hs.queue] at ha ⊢
    exact h.uniform a inp (lookup_step ht he hl) ha
  · intro hrep a inp hl ha
    simp only [Uploads.after, hup, hs.queue, hs.flight] at ha ⊢
    exact (h.fed (hs.replied hrep) a inp (lookup_step ht he hl) ha).congr (hs.held a ha)

lemma queued_of_still (h : Cluster.step s e = some t) (he : ¬ Empties k e)
    (hsn : (sent s k e).likely = []) : (queued t.mgr k).likely = (queued s.mgr k).likely := by
  cases moved_step h k with
  | register kept hu hq | poll hu hp | finishPoll hu hq => exact absurd rfl he
  | other _ _ hu hq => rw [hq, likely_append, hsn, append_nil]

lemma empties_actor (h : Empties k e) : actor e = some k := by
  cases e <;> first | exact absurd h id | exact congrArg some h

lemma Tracks.frame (h : Tracks U k) (ht : Cluster.step U.sys e = some t) (he : ¬ Uploading e)
    (hk : actor e ≠ some k) : Tracks (U.after e t) k := by
  have hln := scheds_of_ne ht hk
  have hsn : (sent U.sys k e).likely = [] := by
    cases e with
    | newLikelyRaceInput n rinp coin => exact absurd ⟨n, rinp, coin, rfl⟩ he
    | schedReply n =>
      simp only [sent]
      rw [if_neg fun h => hk (congrArg some h.1.symm), likely_empty]
    | newRaceInput n sig rinp =>
      simp only [sent]
      split <;> rfl
    | _ => rfl
  refine h.still ht he (uploadedAfter_of_ne hk)
    ⟨queued_of_still ht (fun h => hk (empties_actor h)) hsn, ?_, ?_, ?_, ?_, ?_⟩ <;>
    rw [hln]
  · exact id
  · exact fun _ => id
  · exact id
  · exact fun _ _ => rfl

lemma flight_work (h : l.work f = some l') : flight l' = flight l := by
  cases l <;> cases h <;> rfl

lemma sending_work (h : l.work f = some l') (hf : ∀ x, ∀ r ∈ (f x).likelySent, r ∈ x.likelySent) :
    ∀ r ∈ outgoing l', r ∈ outgoing l := by
  cases l <;> cases h <;> exact hf _

variable {ups : List MempairHash}

lemma held_work (h : l.work f = some l')
    (hups : ∀ r ∈ outgoing l, hashOf r ∈ ups)
    (hf : ∀ x, (∀ r ∈ x.likelySent, hashOf r ∈ ups) → ∀ a, a ∉ ups → (f x).likelyRaceCorpus.lookup a
      = x.likelyRaceCorpus.lookup a) : ∀ a, a ∉ ups → (held l').lookup a = (held l).lookup a := by
  cases l <;> cases h <;> exact hf _ hups

lemma not_down_work (h : l.work f = some l') : l ≠ .down := by
  rintro rfl
  cases h

lemma work_likely (hf : schedWorkOf e = some (n, f)) (x : SchedulerProc) :
    (∃ rinp, f x = x.finishLikely rinp) ∨
      (f x).likelySent = x.likelySent ∧ (f x).likelyRaceCorpus = x.likelyRaceCorpus := by
  cases e <;> cases hf
  case schedSignal raw p =>
    rw [x.checkNewRaceSignal_eq]
    exact .inr ⟨rfl, rfl⟩
  case schedMerge d => exact .inr ⟨rfl, rfl⟩
  case schedFound hsh kind =>
    obtain ⟨l, m, q, heq⟩ := x.updateTrueRaceInfo_eq hsh kind
    exact .inr (by simp only [heq, and_self])
  case schedExecs hsh execs => exact .inr ⟨rfl, rfl⟩
  case schedTriaged sign =>
    obtain ⟨c, m, heq⟩ := x.addRaceInput_eq sign
    exact .inr (by simp only [heq, and_self])
  case schedLikely rinp => exact .inl ⟨rinp, rfl⟩

lemma finishLikely_sent (hr : r ∈ (x.finishLikely rinp).likelySent) : r ∈ x.likelySent := by
  unfold SchedulerProc.finishLikely at hr
  split at hr
  · exact mem_of_mem_erase hr
  · exact hr

lemma finishLikely_lookup (hups : ∀ r ∈ x.likelySent, hashOf r ∈ ups)
    (ha : a ∉ ups) :
    (x.finishLikely rinp).likelyRaceCorpus.lookup a = x.likelyRaceCorpus.lookup a := by
  unfold SchedulerProc.finishLikely
  split
  case isFalse => rfl
  case isTrue hmem =>
  have hne : a ≠ hashOf rinp := fun h => ha (h ▸ hups rinp hmem)
  simp only [addToLikelyRaceCorpus]
  split
  · exact AList.lookup_insert_ne hne
  · rfl

lemma Tracks.work (h : Tracks U k) (hf : schedWorkOf e = some (k, f))
    (hl : (U.sys.scheds k).work f = some l)
    (ht : Cluster.step U.sys e = some (U.sys.setSched k l)) :
    Tracks (U.after e (U.sys.setSched k l)) k := by
  have hln : (U.sys.setSched k l).scheds k = l := update_self ..
  have hup : U.uploadedAfter e k = U.uploaded k := by
    cases e <;> cases hf <;> rfl
  refine h.still ht (by rintro ⟨n, rinp, coin, rfl⟩; cases hf) hup ⟨rfl, ?_, ?_, ?_, ?_, ?_⟩ <;>
    rw [hln]
  · exact fun _ => not_down_work hl
  · refine sending_work hl fun x r hr => ?_
    rcases work_likely hf x with ⟨rinp, heq⟩ | ⟨heq, -⟩
    · exact finishLikely_sent (heq ▸ hr)
    · exact heq ▸ hr
  · exact fun _ => Link.replied_work hl
  · exact flight_work hl
  · refine held_work hl h.sending fun x hups a ha => ?_
    rcases work_likely hf x with ⟨rinp, heq⟩ | ⟨-, heq⟩
    · rw [heq]
      exact finishLikely_lookup hups ha
    · rw [heq]

/-! ### The steps of one scheduler -/

lemma Tracks.register {kept : List (Sig × RPCRaceInput)}
    (ht : Cluster.step U.sys (.schedRegister k kept) = some t) (hln : t.scheds k = .registered)
    (hrec : (t.mgr.schedulers k).isSome) : Tracks (U.after (.schedRegister k kept) t) k := by
  have hq : (queued t.mgr k).likely = [] := by
    cases moved_step ht k with
    | register _ hu hq => rw [hq, likely_empty]
    | other _ he => exact absurd rfl he
  refine ⟨fun _ => hrec, ?_, ?_, ?_⟩
  · simp only [Uploads.after, hln]
    exact fun r hr => absurd hr not_mem_nil
  · intro a inp _ _
    simp only [Uploads.after, hq]
    exact fun v hv => absurd hv not_mem_nil
  · simp only [Uploads.after, hln]
    exact fun h => absurd h id

lemma uniform_likelyInputs {corpus : LikelyCorpus}
    (hky : ∀ h inp, corpus.lookup h = some inp → hashOf inp = h ∧ inp.raceProg.parses)
    (hl : corpus.lookup a = some inp) :
    Uniform hashOf a inp (likelyInputs corpus) ∧ Has hashOf a (likelyInputs corpus) := by
  constructor
  · intro v hv ha
    obtain ⟨⟨b, w⟩, hmem, rfl⟩ := mem_map.1 hv
    have hb : corpus.lookup b = some w := AList.mem_lookup_iff.2 hmem
    obtain rfl : b = a := (hky b w hb).1.symm.trans ha
    exact some.inj (hb.symm.trans hl)
  · exact ⟨inp, mem_map.2 ⟨⟨a, inp⟩, AList.mem_lookup_iff.1 hl, rfl⟩, (hky a inp hl).1⟩

lemma Tracks.reply (hi : Inv U) (ht : Cluster.step U.sys (.schedReply k) = some t)
    (hs : U.sys.scheds k = .registered)
    (hln : t.scheds k = .welcomed (schedulerConnectReply U.sys.mgr)) :
    Tracks (U.after (.schedReply k) t) k := by
  have h := hi.tracks k
  have hrec : (U.sys.mgr.schedulers k).isSome := h.recorded (by rw [hs]; simp)
  have hq : (queued t.mgr k).likely =
      (queued U.sys.mgr k).likely ++ (likelyInputs U.sys.mgr.likelyRaceCorpus).drop 99 := by
    cases moved_step ht k with
    | other _ _ hu hq =>
      rw [hq, likely_append, sent, if_pos ⟨rfl, hrec⟩]
  have hne : ¬ Uploading (.schedReply k) := by simp [Uploading]
  refine ⟨fun _ => isSome_step ht hrec, ?_, ?_, ?_⟩
  · simp only [Uploads.after, hln]
    exact fun r hr => absurd hr not_mem_nil
  · intro a inp hl ha
    have hl := lookup_step ht hne hl
    simp only [Uploads.after, hq]
    exact uniform_append (h.uniform a inp hl ha)
      ((uniform_likelyInputs hi.keyed hl).1.mono (drop_subset _ _))
  · intro _ a inp hl ha
    have hl := lookup_step ht hne hl
    simp only [Uploads.after, hq, hln]
    exact Fed.split 99 (uniform_likelyInputs hi.keyed hl).1 (uniform_likelyInputs hi.keyed hl).2

lemma Tracks.applied (hi : Inv U) (hup : U.uploadedAfter e k = U.uploaded k)
    (hrep : (U.sys.scheds k).Replied) (hsn : outgoing l = outgoing (U.sys.scheds k))
    (hfl : flight l = [])
    (hhl : held l = addLikelyInputs (held (U.sys.scheds k)) (flight (U.sys.scheds k))) :
    Tracks (U.after e (U.sys.setSched k l)) k := by
  have h := hi.tracks k
  have hln : (U.sys.setSched k l).scheds k = l := update_self ..
  have hdw : U.sys.scheds k ≠ .down := by
    intro hd
    rw [hd] at hrep
    exact hrep
  refine ⟨fun _ => h.recorded hdw, ?_, ?_, ?_⟩
  · simp only [Uploads.after, hln, hsn, hup]
    exact h.sending
  · simp only [Uploads.after, hup]
    exact h.uniform
  · intro _ a inp hl ha
    simp only [Uploads.after, hup] at ha
    simp only [Uploads.after, hln, hfl, hhl, addLikelyInputs_eq]
    exact (h.fed hrep a inp hl ha).absorb (hi.keyed a inp hl).2

lemma Tracks.poll {a : SchedulerPollArgs} {r : SchedulerPollRes} (h : Tracks U k)
    (ht : Cluster.step U.sys (.schedPoll k) = some t) (hs : U.sys.scheds k = .asking x a)
    (hln : t.scheds k = .answered x r) : Tracks (U.after (.schedPoll k) t) k := by
  have hne : ¬ Uploading (.schedPoll k) := by simp [Uploading]
  have hpr : (flight (t.scheds k) ++ (queued t.mgr k).likely).Perm
      (queued U.sys.mgr k).likely := by
    cases moved_step ht k with
    | poll hu hp =>
      simp only [Box.pop, Prod.mk.injEq] at hp
      have hfl : flight (t.scheds k) = (underWay (t.scheds k)).likely := by rw [hln]; rfl
      rw [hfl, ← hp.1, ← hp.2]
      exact popInputs_perm _
    | other _ he => exact absurd rfl he
  have hdw : U.sys.scheds k ≠ .down := by rw [hs]; simp
  refine ⟨fun _ => isSome_step ht (h.recorded hdw), ?_, ?_, ?_⟩
  · have hsn : outgoing (t.scheds k) = outgoing (U.sys.scheds k) := by rw [hln, hs]; rfl
    simp only [Uploads.after, hsn]
    exact h.sending
  · intro b inp hl hb
    have huni := h.uniform b inp (lookup_step ht hne hl) hb
    exact huni.mono fun v hv => hpr.subset (mem_append_right _ hv)
  · intro _ b inp hl hb
    have hl := lookup_step ht hne hl
    have hfed := h.fed (by rw [hs]; trivial) b inp hl hb
    have hhl : held (t.scheds k) = held (U.sys.scheds k) := by rw [hln, hs]; rfl
    have hfl : flight (U.sys.scheds k) = [] := by rw [hs]; rfl
    rw [hfl] at hfed
    simp only [Uploads.after, hhl]
    exact hfed.pop (h.uniform b inp hl hb) hpr

/-! ### Stored inputs -/

lemma newLikelyRaceInput_inv (h : Cluster.step s (.newLikelyRaceInput n rinp coin) = some t) :
    ∃ l mgr, (s.scheds n).work (SchedulerProc.sendLikely rinp) = some l ∧
      newLikelyRaceInput s.mgr n rinp coin = some mgr ∧
      t = { s.setSched n l with mgr := mgr } := by
  rcases step_cases h with h | h | h
  · cases h with | work e m f l hf hl => cases hf
  · cases h with | work e m f l hf hl => cases hf
  · cases h with | newLikelyRaceInput _ _ _ l mgr hl hm => exact ⟨l, mgr, hl, hm, rfl⟩

lemma outgoing_sendLikely (h : l.work (SchedulerProc.sendLikely rinp) = some l')
    (hr : r ∈ outgoing l') : r ∈ outgoing l ∨ r = rinp := by
  cases l <;> cases h <;> simpa [outgoing, SchedulerProc.sendLikely] using hr

lemma held_sendLikely (h : l.work (SchedulerProc.sendLikely rinp) = some l') :
    held l' = held l := by
  cases l <;> cases h <;> rfl

variable {mgr : Manager} {U' : Uploads}

lemma Tracks.upload (h : Tracks U k)
    (hl : (U.sys.scheds k).work (SchedulerProc.sendLikely rinp) = some l)
    (hm : newLikelyRaceInput U.sys.mgr k rinp coin = some mgr)
    (ht : Cluster.step U.sys (.newLikelyRaceInput k rinp coin) = some { U.sys.setSched k l with mgr
      := mgr }) :
    Tracks (U.after (.newLikelyRaceInput k rinp coin) { U.sys.setSched k l with mgr := mgr })
      k := by
  have hln : (U.sys.setSched k l).scheds k = l := update_self ..
  have hq : queued mgr k = queued U.sys.mgr k := by
    rw [queued_newLikelyRaceInput hm k, if_neg fun hst => hst.2.1 rfl, append_empty]
  have hup : U.uploadedAfter (.newLikelyRaceInput k rinp coin) k = hashOf rinp :: U.uploaded k :=
    update_self ..
  have hbc : ∀ {a inp}, mgr.likelyRaceCorpus.lookup a = some inp →
      a ∉ hashOf rinp :: U.uploaded k → U.sys.mgr.likelyRaceCorpus.lookup a = some inp := by
    intro a inp hlk ha
    rcases lookup_newLikelyRaceInput hm hlk with ⟨hlk, -⟩ | ⟨-, rfl, -⟩
    · exact hlk
    · exact absurd mem_cons_self ha
  refine ⟨fun _ => isSome_step ht (h.recorded (not_down_work hl)), ?_, ?_, ?_⟩
  · simp only [Uploads.after, hln, hup]
    intro r hr
    rcases outgoing_sendLikely hl hr with hr | rfl
    · exact mem_cons_of_mem _ (h.sending r hr)
    · exact mem_cons_self
  · intro a inp hlk ha
    simp only [Uploads.after, hup] at ha
    simp only [Uploads.after, hq]
    exact h.uniform a inp (hbc hlk ha) (not_mem_of_not_mem_cons ha)
  · intro _ a inp hlk ha
    simp only [Uploads.after, hup] at ha
    simp only [Uploads.after, hq, hln, flight_work hl, held_sendLikely hl]
    exact h.fed (Link.replied_work hl) a inp (hbc hlk ha) (not_mem_of_not_mem_cons ha)

lemma Tracks.store (hi : Inv U) (hk : k ≠ n)
    (hsp : Spaced U (.newLikelyRaceInput n rinp coin))
    (hm : newLikelyRaceInput U.sys.mgr n rinp coin = some mgr)
    (ht : Cluster.step U.sys (.newLikelyRaceInput n rinp coin) = some { U.sys.setSched n l with mgr
      := mgr }) :
    Tracks (U.after (.newLikelyRaceInput n rinp coin) { U.sys.setSched n l with mgr := mgr })
      k := by
  have h := hi.tracks k
  have hln : (U.sys.setSched n l).scheds k = U.sys.scheds k := update_of_ne hk _ _
  have hup : U.uploadedAfter (.newLikelyRaceInput n rinp coin) k = U.uploaded k :=
    update_of_ne hk _ _
  have hq := congrArg Box.likely (queued_newLikelyRaceInput hm k)
  have hrec : U.sys.scheds k ≠ .down → (mgr.schedulers k).isSome :=
    fun hd => isSome_step ht (h.recorded hd)
  refine ⟨?_, ?_, ?_, ?_⟩ <;> simp only [Uploads.after, hln, hup]
  · exact hrec
  · exact h.sending
  · intro a inp hlk ha
    rw [hq, likely_append]
    rcases lookup_newLikelyRaceInput hm hlk with ⟨hlk, hne⟩ | ⟨hst, rfl, rfl⟩
    · refine uniform_append (h.uniform a inp hlk ha) ?_
      split
      case isTrue hst =>
        intro v hv hva
        rw [mem_singleton.1 hv] at hva
        exact absurd hva.symm (hne hst.1)
      case isFalse => exact fun v hv => absurd hv not_mem_nil
    · refine uniform_append (fun v hv hvr => absurd hvr
        ((hsp hst).2 k (named_of_mem hi hv) hk v hv)) ?_
      split
      · exact fun v hv _ => mem_singleton.1 hv
      · exact fun v hv => absurd hv not_mem_nil
  · intro hrep a inp hlk ha
    rw [hq, likely_append]
    rcases lookup_newLikelyRaceInput hm hlk with ⟨hlk, -⟩ | ⟨hst, rfl, rfl⟩
    · exact (h.fed hrep a inp hlk ha).append _
    · have hsm : (U.sys.mgr.schedulers k).isSome := h.recorded (by
        intro hd
        rw [hd] at hrep
        exact hrep)
      rw [if_pos ⟨hst, hk, hsm⟩]
      exact Fed.store rfl

/-! ### Runs -/

lemma tracks_schedStep (hi : Inv U) (ht : Cluster.step U.sys e = some t) (h : SchedStep U.sys e t)
    (hk : actor e = some k) : Tracks (U.after e t) k := by
  cases h with
  | register n kept =>
    cases hk
    refine .register ht (update_self ..) ?_
    simp only [schedulerRegister, update_self, isSome_some]
  | reply n hl =>
    cases hk
    exact .reply hi ht hl (update_self ..)
  | init n r hl =>
    cases hk
    obtain ⟨c, m, heq⟩ := schedulerInit_eq r
    refine .applied hi rfl (by rw [hl]; trivial) ?_ rfl ?_ <;> rw [hl, heq] <;> rfl
  | initPoll n x hl =>
    cases hk
    refine (hi.tracks k).still ht (by simp [Uploading]) rfl ⟨rfl, ?_, ?_, ?_, ?_, ?_⟩ <;>
      rw [hl, State.setSched] <;> simp only [update_self]
    · exact fun _ => by simp
    · exact fun _ => id
    · exact id
    · rfl
    · exact fun _ _ => rfl
  | poll n x a mgr r hl hp =>
    cases hk
    exact (hi.tracks k).poll ht hl (update_self ..)
  | finishPoll n x r hl =>
    cases hk
    obtain ⟨c, m, heq⟩ := x.finishPoll_eq r
    refine .applied hi rfl (by rw [hl]; trivial) ?_ rfl ?_ <;> rw [hl, heq] <;> rfl
  | work e n f l hf hl =>
    have hn : n = k := by
      cases e <;> cases hf <;> exact some.inj hk
    subst hn
    exact (hi.tracks n).work hf hl ht

lemma actor_fuzzerStep (h : FuzzerStep s e t) : actor e = none := by
  cases h with
  | work e n f l hf hl => cases e <;> cases hf <;> rfl
  | _ => rfl

lemma tracks_step (hi : Inv U) (hsp : Spaced U e) (ht : Cluster.step U.sys e = some t) (k : Name) :
    Tracks (U.after e t) k := by
  by_cases hup : Uploading e
  · obtain ⟨n, rinp, coin, rfl⟩ := hup
    obtain ⟨l, mgr, hl, hm, rfl⟩ := newLikelyRaceInput_inv ht
    by_cases hk : k = n
    · subst hk
      exact (hi.tracks k).upload hl hm ht
    · exact .store hi hk hsp hm ht
  · by_cases hk : actor e = some k
    · rcases step_cases ht with h | h | h
      · rw [actor_fuzzerStep h] at hk
        cases hk
      · exact tracks_schedStep hi ht h hk
      · cases h with
        | newLikelyRaceInput n rinp coin => exact absurd ⟨n, rinp, coin, rfl⟩ hup
        | _ => cases hk
    · exact (hi.tracks k).frame ht hup hk

lemma keyed_step (hi : Inv U) (hsp : Spaced U e) (ht : Cluster.step U.sys e = some t)
    (hl : t.mgr.likelyRaceCorpus.lookup a = some inp) :
    hashOf inp = a ∧ inp.raceProg.parses := by
  by_cases hup : Uploading e
  · obtain ⟨n, rinp, coin, rfl⟩ := hup
    obtain ⟨l, mgr, -, hm, rfl⟩ := newLikelyRaceInput_inv ht
    rcases lookup_newLikelyRaceInput hm hl with ⟨hl, -⟩ | ⟨hst, rfl, rfl⟩
    · exact hi.keyed a inp hl
    · exact ⟨rfl, (hsp hst).1⟩
  · exact hi.keyed a inp (lookup_step ht hup hl)

lemma named_step (hi : Inv U) (ht : Cluster.step U.sys e = some t)
    (hk : (t.mgr.schedulers k).isSome) : k ∈ U.namesAfter e := by
  rcases (isSome_step_iff ht k).1 hk with hk | ⟨kept, rfl⟩
  · cases e with
    | schedRegister n kept => exact mem_cons_of_mem _ (hi.named k hk)
    | _ => exact hi.named k hk
  · exact mem_cons_self

lemma inv_step (hi : Inv U) (hsp : Spaced U e) (hs : U.step e = some U') : Inv U' := by
  obtain ⟨t, ht, rfl⟩ := Option.map_eq_some_iff.1 hs
  exact ⟨fun k => named_step hi ht, fun a inp => keyed_step hi hsp ht, tracks_step hi hsp ht⟩

/-- **The copies of likely inputs.** In every run in which no input is stored while an older one
for the same pair is queued for another scheduler, and only inputs that parse are stored: a
scheduler that has applied its last reply, and for which nothing is queued, holds for every
pair it has sent nothing for the input that the manager holds. -/
theorem likely_inputs_agree (es : List Ev) {U : Uploads}
    (hsp : Meets Uploads.step Spaced Uploads.init es)
    (hrun : run Uploads.step Uploads.init es = some U) (k : Name) : Agrees U k :=
  agrees_of_tracks ((run_inv (I := Inv) (fun _ _ _ hi hsp hs => inv_step hi hsp hs) inv_init hsp
    hrun).tracks k)

/-! ### Replaced inputs -/

def likely (text : String) : RPCLikelyRaceInput :=
  ⟨⟨text, true⟩, ⟨(1, 2), (3, 4), (0, 1), 0, 7, ("x", "y")⟩⟩

def threeUp : List Ev :=
  [.schedRegister 0 [], .schedReply 0, .schedInit 0, .schedRegister 1 [], .schedReply 1,
    .schedInit 1, .schedRegister 2 [], .schedReply 2, .schedInit 2]

/-- Scheduler 1 polls after an input of scheduler 0 and after one of scheduler 2 that replaces
it, and scheduler 2 has polled before it sends its own. -/
def polledBetween : List Ev :=
  threeUp ++ ([.newLikelyRaceInput 0 (likely "a") true, .schedInitPoll 1, .schedPoll 1,
    .schedFinishPoll 1, .schedInitPoll 2, .schedPoll 2, .newLikelyRaceInput 2 (likely "b") true,
    .schedInitPoll 1, .schedPoll 1, .schedFinishPoll 1] : List Ev)

def textsOf (U : Uploads) : Option String × Option (Option String) :=
  ((U.sys.mgr.likelyRaceCorpus.lookup 7).map fun r => r.raceProg.bytes,
    if (queued U.sys.mgr 1).likely.isEmpty then
      (applied (U.sys.scheds 1)).map fun x =>
        (x.likelyRaceCorpus.lookup 7).map fun r => r.raceProg.bytes
    else none)

lemma polledBetween_texts : Meets Uploads.step Spaced Uploads.init polledBetween ∧
    (run Uploads.step Uploads.init polledBetween).map (fun U => (textsOf U, U.uploaded 1)) =
      some ((some "b", some (some "b")), []) := by
  decide +kernel

/-- Scheduler 1 has the input of scheduler 2. -/
theorem likely_inputs_agree_replaced : ∃ U, run Uploads.step Uploads.init polledBetween = some U ∧
    textsOf U = (some "b", some (some "b")) ∧ Agrees U 1 := by
  obtain ⟨U, hU, hvw⟩ := Option.map_eq_some_iff.1 polledBetween_texts.2
  exact ⟨U, hU, (Prod.mk.inj hvw).1, likely_inputs_agree polledBetween polledBetween_texts.1 hU 1⟩

/-- Scheduler 2 replaces the input of scheduler 0 before scheduler 1 polls. -/
def bothQueued : List Ev :=
  threeUp ++ ([.newLikelyRaceInput 0 (likely "a") true, .newLikelyRaceInput 2 (likely "b") true,
    .schedInitPoll 1, .schedPoll 1, .schedFinishPoll 1] : List Ev)

lemma bothQueued_texts :
    (run Uploads.step Uploads.init bothQueued).map (fun U => (textsOf U, U.uploaded 1)) =
      some ((some "b", some (some "a")), []) := by
  decide +kernel

/-- Scheduler 1 is sent the newer input before the older one and keeps the older one. -/
theorem older_input_wins : ∃ U, run Uploads.step Uploads.init bothQueued = some U ∧
    ¬ Agrees U 1 := by
  obtain ⟨U, hU, hvw⟩ := Option.map_eq_some_iff.1 bothQueued_texts
  simp only [textsOf, Prod.mk.injEq] at hvw
  obtain ⟨⟨hmgr, hcp⟩, hups⟩ := hvw
  refine ⟨U, hU, fun hag => ?_⟩
  split at hcp
  case isFalse => cases hcp
  case isTrue hq =>
  obtain ⟨x, hx, hcp⟩ := Option.map_eq_some_iff.1 hcp
  obtain ⟨inp, hinp, hb⟩ := Option.map_eq_some_iff.1 hmgr
  have h := hag x hx (isEmpty_iff.1 hq) 7 inp hinp (by rw [hups]; exact not_mem_nil)
  rw [h, map_some, hb] at hcp
  exact absurd hcp (by decide)

end Razzer.LikelySync
