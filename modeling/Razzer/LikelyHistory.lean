import Razzer.LikelyDB

/-!
The records of the likely database over several runs of the manager.

Within a run the likely inputs in memory say which record is replaced. When the manager starts
again it has no likely inputs in memory, since what it loads goes to the race queue, and the
records are still there. A true race is dropped from memory only.

A record belongs to the pair whose hash is in its race info.
-/

namespace Razzer.LikelyHistory

open Journal Database SyzManager ManagerDB RaceSig LoadDB LikelyDB Runs Option

/-! ### Records of a pair -/

def InfoOf (text : String) (h : MempairHash) : Prop :=
  ∃ ri : RaceInfo, RaceInfo.toBytes ri = text ∧ ri.hash = h

variable {h a : MempairHash} {D D' : DBTy} {aux : DB String String} {k : String}
  {inp : RPCLikelyRaceInput}

lemma InfoOf.unique {text : String} {h' : MempairHash} (hi : InfoOf text h) (hi' : InfoOf text h') :
    h = h' := by
  obtain ⟨ri, hri, rfl⟩ := hi
  obtain ⟨ri', hri', rfl⟩ := hi'
  have htx : "" ++ RaceInfo.toBytes ri = "" ++ RaceInfo.toBytes ri' := by rw [hri, hri']
  exact hash_of_text htx

/-- There is a record under `k`, and its race info is one of the pair `h`. -/
def RecordAt (programs infos : String → Option (Record String)) (h : MempairHash) (k : String) :
    Prop :=
  (programs k).isSome ∧ ∃ info, infos k = some info ∧ InfoOf info.val h

def InMemory (D : DBTy) : MempairHash → String → Prop :=
  RecordAt D.primaryDB.records.lookup fun k => D.auxiliaryDB.bind fun aux => aux.records.lookup k

def OnDisk (D : DBTy) : MempairHash → String → Prop :=
  RecordAt D.primaryDB.onDisk fun k => D.auxiliaryDB.bind fun aux => aux.onDisk k

def OneEach (R : MempairHash → String → Prop) : Prop := ∀ h k k', R h k → R h k' → k = k'

/-! ### Histories -/

inductive Ev
  | handle (e : LikelyDB.Ev)
  | restart (L : Loader) (disabledHashes : List String)

/-- The manager starts: it loads the files, and has neither likely inputs nor true races. -/
def restart (s : State) (L : Loader) (disabledHashes : List String) : Option State :=
  (loadDB L .likelycorpus s.db.primaryDB.file (s.db.auxiliaryDB.map DB.file)
    disabledHashes).toOption.map fun S => ⟨SyzManager.init, S.db⟩

def step (H : Hash) (fromBytes : String → Option RaceInfo) (disabledHashes : List String)
    (s : State) : Ev → Option State
  | .handle e => LikelyDB.step H fromBytes disabledHashes s e
  | .restart L hashes => restart s L hashes

/-- Files with at most one record for each pair. -/
structure LikelyFiles where
  programs : File String String
  infos : File String String
  distinct : OneEach (RecordAt (recordsOf programs).lookup (recordsOf infos).lookup)

def start (files : LikelyFiles) : State :=
  ⟨SyzManager.init, opened .likelycorpus files.programs (some files.infos)⟩

/-- The database has at most one record for each pair, and none for a true race. -/
def Tidy (s : State) : Prop :=
  OneEach (InMemory s.db) ∧ ∀ h ∈ s.mgr.trueRaceHashes, ∀ k, ¬ InMemory s.db h k

/-- An input is stored while its pair has another record but no input in memory, or a race
becomes true whose pair has a record. -/
def Untidies (H : Hash) (s : State) : Ev → Prop
  | .handle (.newLikelyRaceInput n inp coin) =>
    (s.mgr.schedulers n).isSome ∧ StoresLikely s.mgr inp coin ∧
      s.mgr.likelyRaceCorpus.lookup inp.raceInfo.hash = none ∧
      ∃ k, InMemory s.db inp.raceInfo.hash k ∧ k ≠ sigOf H inp
  | .handle (.schedulerPoll n a) => (s.mgr.schedulers n).isSome ∧
      ∃ f ∈ a.foundRaceInfos, f.mempairHash ∉ s.mgr.trueRaceHashes ∧
        ∃ k, InMemory s.db f.mempairHash k
  | _ => False

/-! ### What the operations do to the records -/

lemma inMemory_iff (haux : D.auxiliaryDB = some aux) : InMemory D h k ↔
      RecordAt D.primaryDB.records.lookup aux.records.lookup h k := by
  simp only [InMemory, haux, bind_some]

lemma onDisk_iff (haux : D.auxiliaryDB = some aux) : OnDisk D h k ↔
      RecordAt D.primaryDB.onDisk aux.onDisk h k := by
  simp only [OnDisk, haux, bind_some]

lemma onDisk_of_flushed (haux : D.auxiliaryDB = some aux) (hpr : D.primaryDB.pending = [])
    (hif : aux.pending = []) : OnDisk D h k ↔ InMemory D h k := by
  rw [onDisk_iff haux, inMemory_iff haux, RecordAt, RecordAt, DB.onDisk_of_pending hpr,
    DB.onDisk_of_pending hif]

variable {H : Hash} {L : Loader} {m mgr : Manager} {e : Ev}

lemma save_records (h : saveToDB H D inp = .ok D') :
    (OnDisk D' a k ↔ InMemory D' a k) ∧
      (InMemory D' a k ↔ k = sigOf H inp ∧ a = inp.raceInfo.hash ∨
        k ≠ sigOf H inp ∧ InMemory D a k) := by
  cases haux : D.auxiliaryDB with
  | none => simp [saveToDB, DBTy.save, DBTy.saveAuxiliary, DBTy.savePrimary, haux] at h
  | some aux =>
    simp only [saveToDB, DBTy.save, DBTy.saveAuxiliary, DBTy.savePrimary, haux] at h
    cases h
    refine ⟨onDisk_of_flushed rfl (DB.pending_flush _) (DB.pending_flush _), ?_⟩
    rw [inMemory_iff rfl, inMemory_iff haux, RecordAt, RecordAt]
    simp only [DB.records_flush, DB.lookup_save]
    by_cases hk : k = sigOf H inp
    · simp only [hk, if_true, isSome_some, some.injEq, exists_eq_left', true_and,
        ne_eq, not_true_eq_false, false_and, or_false]
      constructor
      · exact fun hi => hi.unique ⟨_, rfl, rfl⟩
      · rintro rfl
        exact ⟨_, rfl, rfl⟩
    · simp only [hk, if_false, false_and, ne_eq, not_false_eq_true, true_and, false_or]

lemma remove_records (h : removeFromDB H D inp = .ok D') :
    InMemory D' a k ↔ k ≠ sigOf H inp ∧ InMemory D a k := by
  cases haux : D.auxiliaryDB with
  | none =>
    simp only [removeFromDB, DBTy.remove, DBTy.removeAuxiliary, DBTy.removePrimary, haux] at h
    cases h
    simp [InMemory, RecordAt, haux]
  | some aux =>
    simp only [removeFromDB, DBTy.remove, DBTy.removeAuxiliary, DBTy.removePrimary, haux] at h
    split at h <;> cases h
    rw [inMemory_iff rfl, inMemory_iff haux, RecordAt, RecordAt]
    simp only [DB.records_flush, DB.lookup_delete]
    by_cases hk : k = sigOf H inp
    · simp [hk]
    · simp [hk]

variable {s : State}

/-- **What storing an input does to the records**: its own is there, and the record of the input it
replaces is not. -/
lemma replace_records (h : replaceInDB H s inp = .ok D') :
    (OnDisk D' a k ↔ InMemory D' a k) ∧
      (InMemory D' a k ↔ k = sigOf H inp ∧ a = inp.raceInfo.hash ∨
        k ≠ sigOf H inp ∧ InMemory s.db a k ∧
          ∀ old, s.mgr.likelyRaceCorpus.lookup inp.raceInfo.hash = some old → k ≠ sigOf H old) := by
  unfold replaceInDB at h
  cases hold : s.mgr.likelyRaceCorpus.lookup inp.raceInfo.hash with
  | none =>
    simp only [hold] at h
    have hsv : saveToDB H s.db inp = .ok D' := h
    simpa using save_records hsv
  | some old =>
    simp only [hold] at h
    obtain ⟨D₁, hD₁, hsv⟩ := bind_eq_ok.1 h
    obtain ⟨hds, hmem⟩ := save_records hsv (a := a) (k := k)
    refine ⟨hds, hmem.trans (or_congr_right (and_congr_right fun _ => ?_))⟩
    rw [remove_records hD₁]
    simp [and_comm]

/-! ### Restarts -/

lemma onDisk_foldl_deleteKey {keys : List String} :
    OnDisk (keys.foldl DBTy.deleteKey D) h k ↔ OnDisk D h k := by
  induction keys generalizing D with
  | nil => rfl
  | cons key keys ih =>
    rw [List.foldl_cons, ih]
    simp only [OnDisk, RecordAt, DBTy.deleteKey, DB.onDisk_delete]
    cases D.auxiliaryDB with
    | none => rfl
    | some aux => simp only [map_some, bind_some, DB.onDisk_delete]

variable {t : State}

/-- **What a restart does to the records**: those in memory are some of those in the files, which
stay as they are. -/
lemma restart_records {hs : List String} (haux : s.db.auxiliaryDB.isSome)
    (h : restart s L hs = some t) :
    t.mgr = SyzManager.init ∧ t.db.name = .likelycorpus ∧ t.db.auxiliaryDB.isSome ∧
      ∀ a k, (OnDisk t.db a k ↔ OnDisk s.db a k) ∧ (InMemory t.db a k → OnDisk s.db a k) := by
  obtain ⟨aux, haux⟩ := isSome_iff_exists.1 haux
  obtain ⟨S, hS, rfl⟩ := map_eq_some_iff.1 h
  rw [haux, map_some] at hS
  rcases loadDB_cases L .likelycorpus s.db.primaryDB.file (some aux.file) hs with
    ⟨-, S', hS', hld⟩ | ⟨x, -, e, -, herr⟩
  · rw [hS'] at hS
    obtain rfl : S' = S := some.inj hS
    have hfr := loadedFrom_of_loads hld fun _ _ => rfl
    obtain ⟨aux', haux', his⟩ := hfr.infos aux.file rfl
    obtain ⟨keys, -, hdb⟩ := hld.db
    have hnm : S'.db.name = .likelycorpus := by rw [hdb, foldl_deleteKey]; rfl
    refine ⟨rfl, hnm, by rw [haux']; rfl, fun a k => ⟨?_, fun hmem => ?_⟩⟩
    · have hop : OnDisk (opened .likelycorpus s.db.primaryDB.file (some aux.file)) a k ↔
          OnDisk s.db a k := by
        rw [onDisk_iff rfl, onDisk_iff haux, RecordAt, RecordAt]
        simp only [opened, DB.onDisk_openFile]
        rfl
      rw [hdb, onDisk_foldl_deleteKey, hop]
    · rw [inMemory_iff haux', RecordAt, hfr.programs, his] at hmem
      rw [onDisk_iff haux]
      by_cases hb : brokenAt L s.db.primaryDB.file k
      · rw [if_pos hb] at hmem
        cases hmem.1
      · rw [if_neg hb, if_neg hb] at hmem
        exact hmem
  · rw [herr] at hS
    cases hS

/-! ### The invariant -/

structure HInv (H : Hash) (s : State) : Prop where
  likely : LikelyDB.Inv H s
  saved : ∀ h inp, s.mgr.likelyRaceCorpus.lookup h = some inp → InMemory s.db h (sigOf H inp)
  tidy : Tidy s
  disk : OneEach (OnDisk s.db)
  flushed : ∀ h k, InMemory s.db h k → OnDisk s.db h k

lemma hinv_start (fs : LikelyFiles) : HInv H (start fs) := by
  have hds : ∀ h k, OnDisk (start fs).db h k ↔
      RecordAt (recordsOf fs.programs).lookup (recordsOf fs.infos).lookup h k := by
    intro h k
    rw [onDisk_iff rfl, RecordAt, RecordAt]
    simp only [start, opened, DB.onDisk_openFile]
    rfl
  have hmem : ∀ h k, InMemory (start fs).db h k ↔ OnDisk (start fs).db h k := by
    intro h k
    rw [onDisk_of_flushed rfl (DB.pending_openFile _) (DB.pending_openFile _)]
  refine ⟨⟨rfl, rfl, fun _ _ h => (by cases h), fun _ _ h => (by cases h),
    fun _ _ h => (by cases h)⟩, fun _ _ h => (by cases h), ⟨fun h k k' hk hk' => ?_,
    fun h hh => (by cases hh)⟩, fun h k k' hk hk' => ?_, fun h k hk => (hmem h k).1 hk⟩
  · exact fs.distinct h k k' ((hds h k).1 ((hmem h k).1 hk))
      ((hds h k').1 ((hmem h k').1 hk'))
  · exact fs.distinct h k k' ((hds h k).1 hk) ((hds h k').1 hk')

section Steps

variable {H : Hash} {fromBytes : String → Option RaceInfo} {disabledHashes : List String}
  {s : State}

lemma HInv.shrink (hi : HInv H s) (hinv : LikelyDB.Inv H { s with mgr := mgr })
    (hsub : ∀ h inp, mgr.likelyRaceCorpus.lookup h = some inp →
      s.mgr.likelyRaceCorpus.lookup h = some inp)
    (htr : ∀ h ∈ mgr.trueRaceHashes, h ∉ s.mgr.trueRaceHashes → ∀ k, ¬ InMemory s.db h k) :
    HInv H { s with mgr := mgr } := by
  refine ⟨hinv, fun h inp hl => hi.saved h inp (hsub h inp hl), ⟨hi.tidy.1, fun h hh k => ?_⟩,
    hi.disk, hi.flushed⟩
  by_cases hold : h ∈ s.mgr.trueRaceHashes
  · exact hi.tidy.2 h hold k
  · exact htr h hh hold k

variable {coin : Bool} {n : Name} {t : State}

lemma HInv.store (hi : HInv H s)
    (hmgr : SyzManager.newLikelyRaceInput s.mgr n inp coin = some mgr)
    (hst : StoresLikely s.mgr inp coin) (hD : replaceInDB H s inp = .ok D)
    (hinv : LikelyDB.Inv H ⟨mgr, D⟩)
    (hon : s.mgr.likelyRaceCorpus.lookup inp.raceInfo.hash = none → ∀ k, InMemory s.db
      inp.raceInfo.hash k → k = sigOf H inp) : HInv H ⟨mgr, D⟩ := by
  have hrec := fun a k => (replace_records hD (a := a) (k := k)).2
  have hds := fun a k => (replace_records hD (a := a) (k := k)).1
  have htr : mgr.trueRaceHashes = s.mgr.trueRaceHashes := by
    rcases newLikelyRaceInput_eq hmgr with ⟨-, rfl⟩ | ⟨-, rfl⟩ <;> rfl
  -- the records of the pair itself
  have hown : ∀ k, InMemory D inp.raceInfo.hash k → k = sigOf H inp := by
    intro k hk
    rcases (hrec _ k).1 hk with ⟨hk, -⟩ | ⟨-, hmem, hne⟩
    · exact hk
    · cases hold : s.mgr.likelyRaceCorpus.lookup inp.raceInfo.hash with
      | none => exact hon hold k hmem
      | some old =>
        have hrc := hi.saved _ old hold
        exact absurd (hi.tidy.1 _ _ _ hmem hrc) (hne old hold)
  -- the records of the others are what they were
  have hot : ∀ a k, a ≠ inp.raceInfo.hash → InMemory D a k → InMemory s.db a k := by
    intro a k ha hk
    rcases (hrec a k).1 hk with ⟨-, heq⟩ | ⟨-, hmem, -⟩
    · exact absurd heq ha
    · exact hmem
  have hone : OneEach (InMemory D) := by
    intro a k k' hk hk'
    by_cases ha : a = inp.raceInfo.hash
    · subst ha
      exact (hown k hk).trans (hown k' hk').symm
    · exact hi.tidy.1 a k k' (hot a k ha hk) (hot a k' ha hk')
  refine ⟨hinv, fun a x hl => ?_, ⟨hone, fun a ha k hk => ?_⟩, ?_, fun a k => (hds a k).2⟩
  · rcases lookup_newLikelyRaceInput hmgr hl with ⟨hl, hne⟩ | ⟨-, rfl, rfl⟩
    · -- an input of another pair has another signature, and so has what is replaced
      have hsig : ∀ y : RPCLikelyRaceInput, y.raceInfo.hash = inp.raceInfo.hash →
          sigOf H x ≠ sigOf H y := by
        intro y hy heq
        exact hne hst ((hi.likely.keyed a x hl).symm.trans ((hash_of_sigOf heq).trans hy))
      exact (hrec a _).2 (.inr ⟨hsig inp rfl, hi.saved a x hl,
        fun old hold => hsig old (hi.likely.keyed _ old hold)⟩)
    · exact (hrec _ _).2 (.inl ⟨rfl, rfl⟩)
  · have ha : a ∈ s.mgr.trueRaceHashes := htr ▸ ha
    by_cases hah : a = inp.raceInfo.hash
    · exact hst.1 (hah ▸ ha)
    · exact hi.tidy.2 a ha k (hot a k hah hk)
  · exact fun a k k' hk hk' => hone a k k' ((hds a k).1 hk) ((hds a k').1 hk')

lemma newLikelyRaceInput_ok (h : newLikelyRaceInput H s n inp coin = .ok t) :
    ∃ mgr, SyzManager.newLikelyRaceInput s.mgr n inp coin = some mgr ∧
      (StoresLikely s.mgr inp coin ∧ (∃ D, replaceInDB H s inp = .ok D ∧ t = ⟨mgr, D⟩) ∨
        ¬ StoresLikely s.mgr inp coin ∧ t = s) := by
  unfold LikelyDB.newLikelyRaceInput at h
  split at h
  case h_1 => cases h
  case h_2 mgr hmgr =>
  refine ⟨mgr, hmgr, ?_⟩
  by_cases hst : StoresLikely s.mgr inp coin
  · rw [if_pos hst] at h
    cases hD : replaceInDB H s inp with
    | error a => rw [hD] at h; cases h
    | ok D =>
      rw [hD] at h
      cases h
      exact .inl ⟨hst, D, rfl, rfl⟩
  · rw [if_neg hst] at h
    cases h
    rcases newLikelyRaceInput_eq hmgr with ⟨-, rfl⟩ | ⟨hst', -⟩
    · exact .inr ⟨hst, rfl⟩
    · exact absurd hst' hst

lemma newLikelyRaceInput_some (h : (m.schedulers n).isSome) (inp : RPCLikelyRaceInput)
    (coin : Bool) :
    ∃ mgr, SyzManager.newLikelyRaceInput m n inp coin = some mgr := by
  obtain ⟨x, hx⟩ := isSome_iff_exists.1 h
  unfold SyzManager.newLikelyRaceInput
  simp only [hx]
  split
  · exact ⟨_, rfl⟩
  · split <;> exact ⟨_, rfl⟩

lemma schedulers_of_newLikelyRaceInput (h : SyzManager.newLikelyRaceInput m n inp coin = some mgr) :
    (m.schedulers n).isSome := by
  unfold SyzManager.newLikelyRaceInput at h
  cases hn : m.schedulers n with
  | none => simp [hn] at h
  | some x => rfl

lemma ok_of_step {e : LikelyDB.Ev}
    (h : step H fromBytes disabledHashes s (.handle e) = some t) :
    LikelyDB.handle H fromBytes disabledHashes s e = .ok t := by
  have h : (LikelyDB.handle H fromBytes disabledHashes s e).toOption = some t := h
  cases hh : LikelyDB.handle H fromBytes disabledHashes s e with
  | error a => rw [hh] at h; cases h
  | ok t' => rw [hh] at h; cases h; rfl

/-- **A step keeps the records tidy**, unless it is one of those that do not. -/
lemma HInv.step (hi : HInv H s) (hsf : ¬ Untidies H s e)
    (h : step H fromBytes disabledHashes s e = some t) : HInv H t := by
  cases e with
  | restart L hashes =>
    obtain ⟨hmgr, hnm, haux, hrec⟩ := restart_records hi.likely.paired h
    have hem : ∀ a, t.mgr.likelyRaceCorpus.lookup a = none := fun a => by rw [hmgr]; rfl
    refine ⟨⟨hnm, haux, ?_, ?_, ?_⟩, ?_, ⟨fun a k k' hk hk' => ?_, fun a ha => ?_⟩,
      fun a k k' hk hk' => ?_, fun a k hk => (hrec a k).1.2 ((hrec a k).2 hk)⟩
    · exact fun a inp hl => by cases (hem a).symm.trans hl
    · exact fun a inp hl => by cases (hem a).symm.trans hl
    · exact fun a inp hl => by cases (hem a).symm.trans hl
    · exact fun a inp hl => by cases (hem a).symm.trans hl
    · exact hi.disk a k k' ((hrec a k).2 hk) ((hrec a k').2 hk')
    · rw [hmgr] at ha
      cases ha
    · exact hi.disk a k k' ((hrec a k).1.1 hk) ((hrec a k').1.1 hk')
  | handle e =>
    have hinv : LikelyDB.Inv H t := inv_step H fromBytes disabledHashes hi.likely h
    have hok := ok_of_step h
    cases e with
    | newLikelyRaceInput n inp coin =>
      obtain ⟨mgr, hmgr, ⟨hst, D, hD, rfl⟩ | ⟨-, rfl⟩⟩ := newLikelyRaceInput_ok hok
      · refine hi.store hmgr hst hD hinv fun hnn k hk => ?_
        by_contra hne
        exact hsf ⟨schedulers_of_newLikelyRaceInput hmgr, hst, hnn, k, hk, hne⟩
      · exact hi
    | schedulerPoll n a =>
      simp only [LikelyDB.handle] at hok
      split at hok
      case h_1 => cases hok
      case h_2 mgr r hp =>
      cases hok
      obtain ⟨rec, infos, new, hn, -, heq, -⟩ := schedulerPoll_eq hp
      refine hi.shrink hinv (fun b inp hl => ?_) fun b hb hnew k hk => ?_
      · rw [heq] at hl
        exact (lookup_eraseAll hl).2
      · obtain ⟨f, hf, rfl⟩ := ((mem_true_schedulerPoll hp).1 hb).resolve_left hnew
        exact hsf ⟨by rw [hn]; rfl, f, hf, hnew, k, hk⟩
    | minimizeRaceCorpus kept done elapsed | schedulerConnect n kept done elapsed =>
      rw [LikelyDB.handle, cleanUp_eq] at hok
      cases hok
      exact hi.shrink hinv (fun a inp hl => (lookup_dropTrue hl).2) fun a ha hnew => absurd ha hnew
    | reorder corpus =>
      simp only [LikelyDB.handle] at hok
      split at hok
      case isTrue hpr =>
        cases hok
        exact hi.shrink hinv (fun a inp hl => (AList.perm_lookup hpr).symm.trans hl)
          fun a ha hnew => absurd ha hnew
      case isFalse =>
        cases hok
        exact hi

lemma HInv.untidies (hi : HInv H s) (h : Untidies H s e) :
    ∃ t, LikelyHistory.step H fromBytes disabledHashes s e = some t ∧ ¬ Tidy t := by
  cases e with
  | restart L hashes => cases h
  | handle e =>
    cases e with
    | newLikelyRaceInput n inp coin =>
      obtain ⟨hn, hst, hnn, k, hk, hne⟩ := h
      obtain ⟨mgr, hmgr⟩ := newLikelyRaceInput_some hn inp coin
      obtain ⟨D, hD, -⟩ := replaceInDB_ok hi.likely inp
      refine ⟨⟨mgr, D⟩, ?_, fun htd => hne (htd.1 inp.raceInfo.hash k (sigOf H inp) ?_ ?_)⟩
      · simp only [LikelyHistory.step, LikelyDB.step, LikelyDB.handle,
          LikelyDB.newLikelyRaceInput, hmgr, if_pos hst, hD]
        rfl
      · refine (replace_records hD).2.2 (.inr ⟨hne, hk, fun old hold => ?_⟩)
        cases hnn.symm.trans hold
      · exact (replace_records hD).2.2 (.inl ⟨rfl, rfl⟩)
    | schedulerPoll n a =>
      obtain ⟨hn, f, hf, -, k, hk⟩ := h
      obtain ⟨mgr, r, hp⟩ := schedulerPoll_some hn a
      have htr := (mem_true_schedulerPoll hp).2 (.inr ⟨f, hf, rfl⟩)
      refine ⟨{ s with mgr := mgr }, ?_, fun htd => htd.2 _ htr k hk⟩
      simp only [LikelyHistory.step, LikelyDB.step, LikelyDB.handle, hp]
      rfl
    | _ => cases h

end Steps

/-- **One record for each pair.** Over every history of runs of the manager: after every event the
likely database has at most one record for each pair and none for a race that is true in the
present run, if and only if no event stores an input whose pair has another record but no input in
memory, or makes a race true whose pair has a record. -/
theorem one_record_each_iff (H : Hash) (fromBytes : String → Option RaceInfo)
    (disabledHashes : List String) (files : LikelyFiles) (es : List Ev) :
    Meets (step H fromBytes disabledHashes)
        (fun s e => ∀ t, step H fromBytes disabledHashes s e = some t → Tidy t) (start files) es ↔
      Meets (step H fromBytes disabledHashes) (fun s e => ¬ Untidies H s e) (start files) es := by
  refine meets_iff_of_inv (I := HInv H) (fun s e hi => ⟨fun htd h => ?_, fun hsf t ht => ?_⟩)
    (fun s e t hi hsf ht => hi.step hsf ht) (hinv_start files) es
  · obtain ⟨t, ht, hnot⟩ := hi.untidies h
    exact hnot (htd t ht)
  · exact (hi.step hsf ht).tidy

/-! ### Two records, and a record of a true race -/

def noFiles : LikelyFiles := ⟨noRecords, noRecords, fun _ _ _ hk => by cases hk.1⟩

def hasRecord (D : DBTy) (inp : RPCLikelyRaceInput) : Bool :=
  (D.primaryDB.records.lookup (sigOf plainHash inp)).isSome &&
    (D.auxiliaryDB.bind fun aux => (aux.records.lookup (sigOf plainHash inp)).map Record.val) =
      some (RaceInfo.toBytes inp.raceInfo)

lemma inMemory_of_hasRecord (h : hasRecord D inp) :
    InMemory D inp.raceInfo.hash (sigOf plainHash inp) := by
  simp only [hasRecord, Bool.and_eq_true, decide_eq_true_eq] at h
  obtain ⟨hpr, hif⟩ := h
  obtain ⟨aux, haux, hif⟩ := bind_eq_some_iff.1 hif
  obtain ⟨info, hif, hval⟩ := map_eq_some_iff.1 hif
  exact (inMemory_iff haux).2 ⟨hpr, info, hif, inp.raceInfo, hval.symm, rfl⟩

def sends (text : String) : List Ev :=
  [.handle (.schedulerConnect 0 [] false 0), .handle (.newLikelyRaceInput 0 (likely text) true)]

def afterRestart : List Ev := sends "a" ++ [.restart demoLoader []] ++ sends "b"
def thenTrue : List Ev := sends "a" ++ [.handle (.schedulerPoll 0 ⟨∅, [⟨7, .likely⟩], ∅⟩)]

/-- After the first history the pair 7 has two records, and after the second one it is a true race
with a record. -/
theorem likely_database_untidy :
    (∃ s, run (step plainHash (fun _ => none) []) (start noFiles) afterRestart = some s ∧
      ∃ k k', k ≠ k' ∧ InMemory s.db 7 k ∧ InMemory s.db 7 k') ∧
    ∃ s, run (step plainHash (fun _ => none) []) (start noFiles) thenTrue = some s ∧
      7 ∈ s.mgr.trueRaceHashes ∧ ∃ k, InMemory s.db 7 k := by
  have htwo : (run (step plainHash (fun _ => none) []) (start noFiles) afterRestart).map (fun s =>
      (hasRecord s.db (likely "a"), hasRecord s.db (likely "b"))) = some (true, true) := by
    decide +kernel
  have htr : (run (step plainHash (fun _ => none) []) (start noFiles) thenTrue).map (fun s =>
      (s.mgr.trueRaceHashes, hasRecord s.db (likely "a"))) = some ([7], true) := by
    decide +kernel
  obtain ⟨s, hs, hvw⟩ := map_eq_some_iff.1 htwo
  obtain ⟨t, ht, hvw'⟩ := map_eq_some_iff.1 htr
  obtain ⟨ha, hb⟩ := Prod.mk.inj hvw
  obtain ⟨hsv, ha'⟩ := Prod.mk.inj hvw'
  refine ⟨⟨s, hs, sigOf plainHash (likely "a"), sigOf plainHash (likely "b"), by decide +kernel,
    inMemory_of_hasRecord ha, inMemory_of_hasRecord hb⟩, t, ht, by simp [hsv],
    sigOf plainHash (likely "a"), inMemory_of_hasRecord ha'⟩

end Razzer.LikelyHistory
