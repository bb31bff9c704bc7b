import Razzer.LoadDB
import Razzer.Runs

/-!
Databases whose process may stop between two flushes.

A pair of databases is changed by `Save`, `Remove` and `clearDB`, and each of them flushes the
programs first and the race infos afterwards. The process may stop at any time and start again
with what is in the files. The loader panics about a program without a race info, so the
files must never have one. Programs are removed before their race infos, but they are
also saved before them.
-/

namespace Razzer.DBStops

open Journal Database ManagerDB LoadDB Runs Option

/-- What is left to do of the operation that is going on. -/
inductive Phase
  | idle
  | saving (sig raceinfo : String)
  | removing (sig : String)
  | clearing
  | stopped

structure Sys where
  db : DBTy
  phase : Phase

inductive Ev
  | save (sig prog raceinfo : String)
  | finishSave
  | remove (sig : String)
  | finishRemove
  | clear (corpus : CorpusMap) (disabledHashes : List String)
  | finishClear
  | reorder (records : Records String String)
  | restart

def reload (L : Loader) (D : DBTy) : Except Abort Loaded :=
  loadDB L D.name D.primaryDB.file (D.auxiliaryDB.map DB.file) []

def reopened (D : DBTy) : DBTy := opened D.name D.primaryDB.file (D.auxiliaryDB.map DB.file)

/-- A step of the process. What ends it leaves the files as they are. -/
def step (L : Loader) (s : Sys) (e : Ev) : Option Sys :=
  match e, s.phase with
  | .save sig prog raceinfo, .idle => some ⟨s.db.savePrimary sig prog, .saving sig raceinfo⟩
  | .finishSave, .saving sig raceinfo =>
    match s.db.saveAuxiliary sig (some raceinfo) with
    | .ok db => some ⟨db, .idle⟩
    | .error _ => some ⟨s.db, .stopped⟩
  | .remove sig, .idle => some ⟨s.db.removePrimary sig, .removing sig⟩
  | .finishRemove, .removing sig =>
    match s.db.removeAuxiliary sig with
    | .ok db => some ⟨db, .idle⟩
    | .error _ => some ⟨s.db, .stopped⟩
  | .clear corpus disabledHashes, .idle =>
    match clearRecords L.hash L.fromBytes corpus disabledHashes s.db with
    | .ok db => some ⟨db.flushPrimary, .clearing⟩
    | .error _ => some ⟨s.db, .stopped⟩
  | .finishClear, .clearing => some ⟨s.db.flushAuxiliary, .idle⟩
  | .reorder records, phase =>
    if h : records.entries.Perm s.db.primaryDB.records.entries then
      some ⟨{ s.db with primaryDB := s.db.primaryDB.reorder records h }, phase⟩
    else none
  | .restart, _ =>
    match reload L s.db with
    | .ok S => some ⟨S.db, .idle⟩
    | .error _ => some ⟨reopened s.db, .stopped⟩
  | _, _ => none

/-- A pair of files in which every program has a race info. -/
structure PairedFiles where
  programs : File String String
  infos : File String String
  matched : ∀ key, ((recordsOf programs).lookup key).isSome → ((recordsOf infos).lookup key).isSome

def start (name : DBName) (files : PairedFiles) : Sys :=
  ⟨opened name files.programs (some files.infos), .stopped⟩

def Matched (D : DBTy) : Prop :=
  ∀ aux, D.auxiliaryDB = some aux → ∀ key, (D.primaryDB.onDisk key).isSome → (aux.onDisk key).isSome

/-- When the process starts, every program on disk has a race info, and the loader does not
panic about a broken database. -/
def NotBroken (L : Loader) (s : Sys) : Ev → Prop
  | .restart => Matched s.db ∧ reload L s.db ≠ .error (.panic "Broken DB")
  | _ => True

/-- When the process stops in the middle of a `Save`, there is a race info under the key on
disk, from an earlier one. -/
def Spared (s : Sys) : Ev → Prop
  | .restart => ∀ sig raceinfo, s.phase = .saving sig raceinfo →
      ∀ aux, s.db.auxiliaryDB = some aux → (aux.onDisk sig).isSome
  | _ => True

/-! ### The invariant -/

/-- A program in memory has its race info in memory and on disk, but for the key that is being
saved. -/
def Covered (D : DBTy) (exempt : Option String) : Prop :=
  ∀ aux, D.auxiliaryDB = some aux → ∀ k, exempt ≠ some k → D.primaryDB.Held k →
    aux.Held k ∧ aux.Stored k

variable {D D' : DBTy} {L : Loader} {s : Sys} {k prog raceinfo sig : String}
  {aux : DB String String}

lemma Covered.info (hc : Covered D none)
    (haux : D.auxiliaryDB = some aux) (hk : D.primaryDB.Held k) : aux.Held k ∧ aux.Stored k :=
  hc aux haux k (by simp) hk

def Flushed (D : DBTy) : Prop := ∀ k, D.primaryDB.Stored k → D.primaryDB.Held k

lemma matched_of_flushed (hf : Flushed D) (hc : Covered D none) : Matched D :=
  fun _ haux k hk => (hc.info haux (hf k hk)).2

def Inv (s : Sys) : Prop :=
  match s.phase with
  | .idle => Matched s.db ∧ Covered s.db none
  | .saving sig _ => Flushed s.db ∧ Covered s.db (some sig) ∧ s.db.primaryDB.Stored sig
  | .removing sig => Flushed s.db ∧ Covered s.db none ∧ ¬ s.db.primaryDB.Held sig
  | .clearing => Flushed s.db ∧ Covered s.db none
  | .stopped => Matched s.db

lemma inv_start (name : DBName) (fs : PairedFiles) : Inv (start name fs) := by
  intro aux haux k hk
  cases haux
  exact DB.stored_openFile.2 (fs.matched k (DB.stored_openFile.1 hk))

/-! ### Operations -/

lemma inv_save (hc : Covered D none) :
    Inv ⟨D.savePrimary sig prog, .saving sig raceinfo⟩ := by
  refine ⟨fun k hk => ?_, fun aux haux k hne hk => ?_, ?_⟩
  · exact DB.held_flush.2 (DB.stored_flush.1 hk)
  · rcases DB.held_save.1 (DB.held_flush.1 hk) with rfl | hk
    · exact absurd rfl hne
    · exact hc.info haux hk
  · exact DB.stored_flush.2 (DB.held_save.2 (.inl rfl))

lemma inv_flushInfos (hf : Flushed D)
    (hcov : ∀ k, D.primaryDB.Held k → aux.Held k) :
    Inv ⟨{ D with auxiliaryDB := some aux.flush }, .idle⟩ := by
  refine ⟨fun aux' haux' k hk => ?_, fun aux' haux' k _ hk => ?_⟩
  · cases haux'
    exact DB.stored_flush.2 (hcov k (hf k hk))
  · cases haux'
    exact ⟨DB.held_flush.2 (hcov k hk), DB.stored_flush.2 (hcov k hk)⟩

lemma inv_finishSave (hf : Flushed D) (hc : Covered D (some sig))
    (h : D.saveAuxiliary sig (some raceinfo) = .ok D') : Inv ⟨D', .idle⟩ := by
  cases haux : D.auxiliaryDB with
  | none =>
    simp only [DBTy.saveAuxiliary, haux] at h
    cases h
  | some aux =>
    simp only [DBTy.saveAuxiliary, haux] at h
    cases h
    refine inv_flushInfos hf fun k hk => DB.held_save.2 ?_
    by_cases hks : k = sig
    · exact .inl hks
    · exact .inr (hc aux haux k (fun h => hks (some.inj h).symm) hk).1

lemma inv_remove (hc : Covered D none) : Inv ⟨D.removePrimary sig, .removing sig⟩ := by
  refine ⟨fun k hk => ?_, fun aux haux k _ hk => ?_, fun hk => ?_⟩
  · exact DB.held_flush.2 (DB.stored_flush.1 hk)
  · exact hc.info haux (DB.held_delete.1 (DB.held_flush.1 hk)).2
  · exact (DB.held_delete.1 (DB.held_flush.1 hk)).1 rfl

lemma inv_finishRemove (hf : Flushed D) (hc : Covered D none)
    (hsig : ¬ D.primaryDB.Held sig) (h : D.removeAuxiliary sig = .ok D') : Inv ⟨D', .idle⟩ := by
  cases haux : D.auxiliaryDB with
  | none =>
    simp only [DBTy.removeAuxiliary, haux] at h
    cases h
    exact ⟨matched_of_flushed hf hc, hc⟩
  | some aux =>
    simp only [DBTy.removeAuxiliary, haux] at h
    split at h <;> cases h
    exact inv_flushInfos hf fun k hk =>
      DB.held_delete.2 ⟨fun hks => hsig (hks ▸ hk), (hc.info haux hk).1⟩

lemma covered_deleteKey (key : String) (hc : Covered D none) : Covered (D.deleteKey key) none := by
  intro aux haux k _ hk
  obtain ⟨aux0, haux0, rfl⟩ := Option.map_eq_some_iff.1 haux
  obtain ⟨hne, hk⟩ := DB.held_delete.1 hk
  have hcov := hc.info haux0 hk
  exact ⟨DB.held_delete.2 ⟨hne, hcov.1⟩, DB.stored_delete.2 hcov.2⟩

lemma covered_clearRecords {H : Hash} {fromBytes : String → Option SyzManager.RaceInfo}
    {corpus : CorpusMap}
    {dhs : List String} {es : List ManagerDB.Entry} (hc : Covered D none)
    (h : es.foldlM (clearRecord H fromBytes corpus dhs) D = .ok D') :
    Covered D' none := by
  induction es generalizing D with
  | nil =>
    cases h
    exact hc
  | cons x es ih =>
    rw [List.foldlM_cons] at h
    obtain ⟨D1, h1, h⟩ := bind_eq_ok.1 h
    refine ih ?_ h
    unfold clearRecord at h1
    cases hrep : represented H fromBytes D corpus x.1 x.2.val with
    | error a =>
      rw [hrep] at h1
      cases h1
    | ok ok1 =>
      rw [hrep] at h1
      cases h1
      beta_reduce
      split
      · exact covered_deleteKey x.1 hc
      · exact hc

lemma inv_clear (hc : Covered D none) : Inv ⟨D.flushPrimary, .clearing⟩ :=
  ⟨fun _ hk => DB.held_flush.2 (DB.stored_flush.1 hk),
    fun _ haux _ _ hk => hc.info haux (DB.held_flush.1 hk)⟩

lemma inv_finishClear (hf : Flushed D) (hc : Covered D none) : Inv ⟨D.flushAuxiliary, .idle⟩ := by
  refine ⟨fun aux haux k hk => ?_, fun aux haux k _ hk => ?_⟩
  · obtain ⟨aux0, haux0, rfl⟩ := Option.map_eq_some_iff.1 haux
    exact DB.stored_flush.2 (hc.info haux0 (hf k hk)).1
  · obtain ⟨aux0, haux0, rfl⟩ := Option.map_eq_some_iff.1 haux
    have hhl := (hc.info haux0 hk).1
    exact ⟨DB.held_flush.2 hhl, DB.stored_flush.2 hhl⟩

/-! ### Restarts -/

lemma matched_deleteKey (key : String) (h : Matched D) : Matched (D.deleteKey key) := by
  intro aux haux k hk
  obtain ⟨aux0, haux0, rfl⟩ := Option.map_eq_some_iff.1 haux
  exact DB.stored_delete.2 (h aux0 haux0 k (DB.stored_delete.1 hk))

lemma inv_deleteKeys (keys : List String) (h : Inv ⟨D, .idle⟩) :
    Inv ⟨keys.foldl DBTy.deleteKey D, .idle⟩ := by
  induction keys generalizing D with
  | nil => exact h
  | cons key keys ih => exact ih ⟨matched_deleteKey key h.1, covered_deleteKey key h.2⟩

lemma inv_reopened (h : Matched D) : Inv ⟨reopened D, .idle⟩ := by
  have hrec : ∀ aux, (reopened D).auxiliaryDB = some aux → ∀ k, D.primaryDB.Stored k →
      aux.Held k ∧ aux.Stored k := by
    intro aux haux k hk
    obtain ⟨file, hfl, rfl⟩ := Option.map_eq_some_iff.1 haux
    obtain ⟨aux0, haux0, rfl⟩ := Option.map_eq_some_iff.1 hfl
    have hif := h aux0 haux0 k hk
    exact ⟨DB.held_openFile.2 hif, DB.stored_openFile.2 hif⟩
  exact ⟨fun aux haux k hk => (hrec aux haux k (DB.stored_openFile.1 hk)).2,
    fun aux haux k _ hk => hrec aux haux k (DB.held_openFile.1 hk)⟩

variable {S : Loaded} {e : Ev} {s' : Sys}

lemma inv_reload (h : Matched D) (hS : reload L D = .ok S) : Inv ⟨S.db, .idle⟩ := by
  rcases loadDB_cases L D.name D.primaryDB.file (D.auxiliaryDB.map DB.file) [] with
    ⟨-, S', hS', hld⟩ | ⟨x, hx, a, -, herr⟩
  · cases hS.symm.trans hS'
    obtain ⟨keys, -, hdb⟩ := hld.db
    rw [hdb]
    exact inv_deleteKeys keys (inv_reopened h)
  · cases hS.symm.trans herr

/-- **A pair of files without a gap is not broken.** -/
lemma reload_ne_broken (L : Loader) (h : Matched D) : reload L D ≠ .error (.panic "Broken DB") := by
  intro hbr
  rcases loadDB_cases L D.name D.primaryDB.file (D.auxiliaryDB.map DB.file) [] with
    ⟨-, S, hS, -⟩ | ⟨x, hx, a, ha, herr⟩
  · cases hbr.symm.trans hS
  · cases hbr.symm.trans herr
    -- only the scan of a missing race info ends in this panic
    have hst : D.primaryDB.Stored x.1 := by
      rw [DB.Stored, DB.onDisk, ← recordsOf, AList.mem_lookup_iff.2 hx]
      rfl
    unfold classify at ha
    split at ha
    · cases ha
    · split at ha <;> cases ha
    · split at ha
      · cases ha
      · cases haux : D.auxiliaryDB with
        | none =>
          rw [haux] at ha
          cases ha
        | some aux =>
          rw [haux, map_some, raceInfoOf_opened] at ha
          obtain ⟨info, hif⟩ := Option.isSome_iff_exists.1 (h aux haux x.1 hst)
          rw [recordsOf, ← DB.onDisk, hif, scanRaceInfo] at ha
          split at ha <;> cases ha

/-! ### Runs -/

lemma matched_of_inv (hi : Inv s) (hs : Spared s .restart) : Matched s.db := by
  unfold Inv at hi
  split at hi
  case h_1 => exact hi.1
  case h_2 sig raceinfo hph =>
    intro aux haux k hk
    by_cases hks : k = sig
    · exact hks ▸ hs sig raceinfo hph aux haux
    · exact (hi.2.1 aux haux k (fun h => hks (some.inj h).symm) (hi.1 k hk)).2
  case h_3 => exact matched_of_flushed hi.1 hi.2.1
  case h_4 => exact matched_of_flushed hi.1 hi.2
  case h_5 => exact hi

lemma spared_of_matched (hi : Inv s) (hm : Matched s.db) : Spared s .restart := by
  intro sig raceinfo hph aux haux
  unfold Inv at hi
  rw [hph] at hi
  exact hm aux haux sig hi.2.2

lemma notBroken_iff (e : Ev) (hi : Inv s) : NotBroken L s e ↔ Spared s e := by
  cases e with
  | restart =>
    constructor
    · exact fun h => spared_of_matched hi h.1
    · intro hs
      have hm := matched_of_inv hi hs
      exact ⟨hm, reload_ne_broken L hm⟩
  | _ => exact Iff.rfl

lemma inv_reorder {rs : Records String String}
    (h : rs.entries.Perm s.db.primaryDB.records.entries) (hi : Inv s) :
    Inv ⟨{ s.db with primaryDB := s.db.primaryDB.reorder rs h }, s.phase⟩ := by
  have hhl : ∀ k, (s.db.primaryDB.reorder rs h).Held k ↔ s.db.primaryDB.Held k := by
    intro k
    rw [DB.Held, DB.Held, ← AList.perm_lookup h]
    rfl
  unfold Inv at hi ⊢
  simp only [Covered, Flushed, Matched, hhl] at hi ⊢
  exact hi

lemma inv_step (hi : Inv s) (hs : Spared s e) (h : step L s e = some s') : Inv s' := by
  obtain ⟨D, phase⟩ := s
  unfold step at h
  simp only at h
  split at h
  case h_1 =>
    cases h
    exact inv_save hi.2
  case h_2 sig raceinfo =>
    split at h <;> cases h
    case h_1 D' hsv => exact inv_finishSave hi.1 hi.2.1 hsv
    case h_2 a hsv =>
      intro aux haux
      have haux : D.auxiliaryDB = some aux := haux
      simp only [DBTy.saveAuxiliary, haux] at hsv
      cases hsv
  case h_3 =>
    cases h
    exact inv_remove hi.2
  case h_4 =>
    split at h <;> cases h
    case h_1 D' hrm => exact inv_finishRemove hi.1 hi.2.1 hi.2.2 hrm
    case h_2 => exact matched_of_flushed hi.1 hi.2.1
  case h_5 =>
    split at h <;> cases h
    case h_1 D' hcl => exact inv_clear (covered_clearRecords hi.2 hcl)
    case h_2 => exact hi.1
  case h_6 =>
    cases h
    exact inv_finishClear hi.1 hi.2
  case h_7 =>
    split at h <;> cases h
    exact inv_reorder _ hi
  case h_8 =>
    have hm := matched_of_inv hi hs
    split at h <;> cases h
    case h_1 S hS => exact inv_reload hm hS
    case h_2 => exact (inv_reopened hm).1
  case h_9 => cases h

/-- **When a stopped process can start again.** In every run from a pair of files without a gap,
every start finds a race info for each program on disk and does not panic about a broken
database, if and only if the process is never stopped between the two flushes of a `Save` under
a key for which there is no race info on disk. -/
theorem restarts_load_iff (L : Loader) (name : DBName) (files : PairedFiles) (es : List Ev) :
    Meets (step L) (NotBroken L) (start name files) es ↔
      Meets (step L) Spared (start name files) es :=
  meets_iff_of_inv (I := Inv) (fun _ e hi => notBroken_iff e hi)
    (fun _ _ _ hi hs h => inv_step hi hs h) (inv_start name files) es

/-! ### A stop between two flushes -/

def noFiles : PairedFiles := ⟨noRecords, noRecords, fun _ h => by cases h⟩

def stoppedInSave : List Ev := [.restart, .save "k" "p" "r", .restart]

lemma stoppedInSave_files : (run (step demoLoader) (start .likelycorpus noFiles)
    [.restart, .save "k" "p" "r"]).map (fun s =>
      match reload demoLoader s.db with
      | .error (.panic text) => text
      | _ => "") = some "Broken DB" := by
  decide +kernel

/-- The next start panics. -/
theorem stop_in_save_breaks :
    ¬ Meets (step demoLoader) (NotBroken demoLoader) (start .likelycorpus noFiles)
      stoppedInSave := by
  obtain ⟨s, hs, htx⟩ := Option.map_eq_some_iff.1 stoppedInSave_files
  intro hmt
  have hsp : stoppedInSave = [.restart, .save "k" "p" "r"] ++ [.restart] := rfl
  rw [hsp, meets_snoc hs] at hmt
  refine hmt.2.2 ?_
  split at htx
  · rw [← htx]
    assumption
  · exact absurd htx (by decide)

end Razzer.DBStops
