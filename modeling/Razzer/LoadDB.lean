import Razzer.ManagerDB

/-!
Loading the databases of the manager.

The loop of `loadDB` deletes records from the map it walks, but only the one it is at. So what
it decides about a record depends on the databases as they were opened, and the result of the
loop is that of the single records put together.
-/

namespace Razzer.LoadDB

open Journal Database SyzManager ManagerDB List Option
open TextParser (Stop panics rejects)

inductive Verdict
  | broken
  | disabled
  | unknown
  | good (ri : RaceInfo)

def classify (L : Loader) (D : DBTy) (x : Entry) : Except Abort Verdict :=
  match L.deserialize x.2.val with
  | .error (.panic text) => .error (.badProgram text)
  | .error (.error _) => if D.auxiliaryDB.isSome then .ok .broken else .error .nilDereference
  | .ok calls =>
    if calls.any fun c => !L.syscalls c then .ok .disabled
    else
      (raceInfoOf L D x.1).map fun
        | none => .unknown
        | some ri => .good ri

def take (H : Hash) (S : Loaded) (x : Entry) : Verdict → Loaded
  | .broken => { S with db := S.db.deleteKey x.1 }
  | .disabled => { S with disabledHashes := S.disabledHashes.insert (H.string x.2.val) }
  | .unknown => S
  | .good ri => { S with handed := S.handed ++ [(x.2.val, ri)] }

lemma loadRecord_eq (L : Loader) (S : Loaded) (x : Entry) :
    loadRecord L S x = (classify L S.db x).map (take L.hash S x) := by
  unfold loadRecord classify
  rcases L.deserialize x.2.val with (e | e) | calls
  case error.error =>
    simp only [deleteBroken]
    cases S.db.auxiliaryDB <;> rfl
  case error.panic => rfl
  case ok =>
    simp only
    split
    · rfl
    · cases raceInfoOf L S.db x.1 with
      | error a => rfl
      | ok o => cases o <;> rfl

/-! ### What a verdict depends on -/

variable {L : Loader} {x : Entry} {S : Loaded} {file primary : File String String}

variable {k key : String} {D : DBTy} {y : Entry} {name : DBName}

lemma classify_deleteKey (h : x.1 ≠ key) : classify L (D.deleteKey key) x = classify L D x := by
  have hif : raceInfoOf L (D.deleteKey key) x.1 = raceInfoOf L D x.1 := by
    unfold raceInfoOf DBTy.deleteKey
    cases D.auxiliaryDB with
    | none => rfl
    | some aux =>
      simp only [map_some, DB.lookup_delete, if_neg h]
  have haux : (D.deleteKey key).auxiliaryDB.isSome = D.auxiliaryDB.isSome := isSome_map ..
  rw [classify, classify, hif, haux]

lemma classify_take (h : y.1 ≠ x.1) (v : Verdict) :
    classify L (take L.hash S x v).db y = classify L S.db y := by
  cases v with
  | broken => exact classify_deleteKey h
  | disabled | unknown | good ri => rfl

/-- What is done about a record with the verdict on the databases as they were opened. -/
def takeOf (L : Loader) (D : DBTy) (S : Loaded) (x : Entry) : Loaded :=
  match classify L D x with
  | .ok v => take L.hash S x v
  | .error _ => S

/-- **The loop of `loadDB`.** Every record has a verdict and they are carried out one after the
other, or some record ends the process. -/
theorem loadRecords_cases (L : Loader) (D : DBTy) {es : List Entry}
    (hnd : es.NodupKeys) (S : Loaded)
    (hD : ∀ x ∈ es, classify L S.db x = classify L D x) :
    ((∀ x ∈ es, ∃ v, classify L D x = .ok v) ∧
      es.foldlM (loadRecord L) S = .ok (es.foldl (takeOf L D) S)) ∨
    ∃ x ∈ es, ∃ a, classify L D x = .error a ∧
      es.foldlM (loadRecord L) S = .error a := by
  induction es generalizing S with
  | nil => exact .inl ⟨fun x hx => absurd hx not_mem_nil, rfl⟩
  | cons x es ih =>
    rw [nodupKeys_cons] at hnd
    have hx := hD x mem_cons_self
    rw [foldlM_cons, loadRecord_eq, hx]
    cases hv : classify L D x with
    | error a => exact .inr ⟨x, mem_cons_self, a, hv, rfl⟩
    | ok v =>
      -- the records to come are others, so their verdicts are the same as before
      have hD' : ∀ y ∈ es, classify L (take L.hash S x v).db y = classify L D y := by
        intro y hy
        have hne : y.1 ≠ x.1 := fun h => hnd.1 (h ▸ mem_keys_of_mem hy)
        rw [classify_take hne, hD y (mem_cons_of_mem _ hy)]
      have hst : takeOf L D S x = take L.hash S x v := by simp only [takeOf, hv]
      rcases ih hnd.2 (take L.hash S x v) hD' with ⟨hall, heq⟩ | ⟨y, hy, a, hya, heq⟩
      · refine .inl ⟨?_, ?_⟩
        · intro y hy
          rcases mem_cons.1 hy with rfl | hy
          · exact ⟨v, hv⟩
          · exact hall y hy
        · rw [foldl_cons, hst]
          exact heq
      · exact .inr ⟨y, mem_cons_of_mem _ hy, a, hya, heq⟩

/-! ### What the loop leaves -/

variable (L) (D)

def goodOf (x : Entry) : Option (String × RaceInfo) :=
  match classify L D x with
  | .ok (.good ri) => some (x.2.val, ri)
  | _ => none

def brokenOf (x : Entry) : Option String :=
  match classify L D x with
  | .ok .broken => some x.1
  | _ => none

lemma handed_takeOf (S : Loaded) (x : Entry) :
    (takeOf L D S x).handed = S.handed ++ (goodOf L D x).toList := by
  unfold takeOf goodOf
  cases classify L D x with
  | error a => simp
  | ok v => cases v <;> simp [take]

lemma handed_foldl (es : List Entry) (S : Loaded) :
    (es.foldl (takeOf L D) S).handed = S.handed ++ es.filterMap (goodOf L D) := by
  induction es generalizing S with
  | nil => simp
  | cons x es ih =>
    rw [foldl_cons, ih, handed_takeOf, append_assoc, filterMap_cons]
    cases goodOf L D x <;> rfl

lemma db_takeOf (S : Loaded) (x : Entry) :
    (takeOf L D S x).db = (brokenOf L D x).toList.foldl DBTy.deleteKey S.db := by
  unfold takeOf brokenOf
  cases classify L D x with
  | error a => rfl
  | ok v => cases v <;> rfl

lemma db_foldl (es : List Entry) (S : Loaded) :
    (es.foldl (takeOf L D) S).db =
      (es.filterMap (brokenOf L D)).foldl DBTy.deleteKey S.db := by
  induction es generalizing S with
  | nil => rfl
  | cons x es ih =>
    rw [foldl_cons, ih, db_takeOf, filterMap_cons]
    cases brokenOf L D x <;> rfl

lemma foldl_deleteKey (D : DBTy) (keys : List String) :
    keys.foldl DBTy.deleteKey D =
      { D with
        primaryDB := D.primaryDB.deleteAll keys
        auxiliaryDB := D.auxiliaryDB.map fun aux => aux.deleteAll keys } := by
  induction keys generalizing D with
  | nil => simp [DB.deleteAll]
  | cons key keys ih =>
    rw [foldl_cons, ih]
    simp only [DBTy.deleteKey, DB.deleteAll, foldl_cons, Option.map_map]
    rfl

def opened (name : DBName) (primary : File String String)
    (auxiliary : Option (File String String)) : DBTy :=
  ⟨DB.openFile primary, auxiliary.map DB.openFile, name⟩

def recordsOf (file : File String String) : Records String String := replay file.log

/-- The records are dealt with one after the other, in some order. -/
def Loads (entries : List Entry) (dis : List String) (S : Loaded) : Prop :=
  ∃ es : List Entry, es.Perm entries ∧ S = es.foldl (takeOf L D) ⟨D, [], dis⟩

variable {L D} {entries : List Entry} {dis : List String}

/-- The good records are handed over, each once. -/
lemma Loads.handed (h : Loads L D entries dis S) :
    S.handed.Perm (entries.filterMap (goodOf L D)) := by
  obtain ⟨es, hpr, rfl⟩ := h
  rw [handed_foldl, nil_append]
  exact hpr.filterMap _

/-- The broken records are deleted. -/
lemma Loads.db (h : Loads L D entries dis S) :
    ∃ keys : List String, (∀ k, k ∈ keys ↔ ∃ x ∈ entries, brokenOf L D x = some k) ∧
      S.db = keys.foldl DBTy.deleteKey D := by
  obtain ⟨es, hpr, rfl⟩ := h
  refine ⟨_, fun k => ?_, db_foldl ..⟩
  rw [mem_filterMap]
  exact exists_congr fun x => and_congr_left' hpr.mem_iff

variable (L)

/-- **What `loadDB` does.** It deals with all records, or some record ends the process. -/
theorem loadDB_cases (name : DBName) (pri : File String String)
    (aux : Option (File String String)) (dis : List String) :
    ((∀ x ∈ (recordsOf pri).entries,
        ∃ v, classify L (opened name pri aux) x = .ok v) ∧
      ∃ S, loadDB L name pri aux dis = .ok S ∧
        Loads L (opened name pri aux) (recordsOf pri).entries dis S) ∨
    ∃ x ∈ (recordsOf pri).entries, ∃ a,
      classify L (opened name pri aux) x = .error a ∧
      loadDB L name pri aux dis = .error a := by
  have hen : (opened name pri aux).primaryDB.records.entries = (recordsOf pri).entries := by
    rw [opened, DB.records_openFile, recordsOf]
  have hpr := L.walk_perm (recordsOf pri).entries
  have hnd := (perm_nodupKeys hpr).2 (recordsOf pri).nodupKeys
  have hld : loadDB L name pri aux dis =
      (L.walk (recordsOf pri).entries).foldlM (loadRecord L)
        ⟨opened name pri aux, [], dis⟩ := by
    rw [← hen]
    rfl
  rcases loadRecords_cases L (opened name pri aux) hnd
      ⟨opened name pri aux, [], dis⟩ (fun _ _ => rfl) with
    ⟨hall, heq⟩ | ⟨x, hx, a, hxa, heq⟩
  · exact .inl ⟨fun x hx => hall x (hpr.mem_iff.2 hx), _, hld.trans heq, _, hpr, rfl⟩
  · exact .inr ⟨x, hpr.mem_iff.1 hx, a, hxa, hld.trans heq⟩

/-! ### In terms of the files -/

/-- What the consumer should be given for a record, by the race infos of the second file. -/
def expected (auxiliary : Option (File String String)) (x : Entry) :
    Option (String × RaceInfo) :=
  (L.deserialize x.2.val).toOption.bind fun calls =>
    if calls.all L.syscalls then
      match auxiliary with
      | none => some (x.2.val, noRaceInfo)
      | some file =>
        (((recordsOf file).lookup x.1).bind fun info => L.fromBytes info.val).bind fun ri =>
          if L.mempairHash ri.hash then some (x.2.val, ri) else none
    else none

/-- Every record of the first file has a race info in the second one that can be scanned. -/
def Paired (primary auxiliary : File String String) : Prop :=
  ∀ key rec, (recordsOf primary).lookup key = some rec →
    ∃ info, (recordsOf auxiliary).lookup key = some info ∧ (L.fromBytes info.val).isSome

def Parses (file : File String String) : Prop :=
  ∀ key rec, (recordsOf file).lookup key = some rec → (L.deserialize rec.val).toOption.isSome

/-- The parser panics on no record of the file. -/
def Calm (file : File String String) : Prop :=
  ∀ key rec, (recordsOf file).lookup key = some rec → panics (L.deserialize rec.val) = false

def brokenAt (file : File String String) (k : String) : Bool :=
  ((recordsOf file).lookup k).any fun rec => rejects (L.deserialize rec.val)

/-- A database is loaded from its files: the records that do not deserialise are gone from it and
from the paired one, and the consumer was given the expected records, each once. -/
structure LoadedFrom (primary : File String String)
    (auxiliary : Option (File String String)) (db : DBTy) (handed : List (String × RaceInfo)) :
    Prop where
  programs : ∀ k, db.primaryDB.records.lookup k =
    if brokenAt L primary k then none else (recordsOf primary).lookup k
  infos : ∀ file, auxiliary = some file → ∃ aux, db.auxiliaryDB = some aux ∧
    ∀ k, aux.records.lookup k = if brokenAt L primary k then none else (recordsOf file).lookup k
  handed : handed.Perm ((recordsOf primary).entries.filterMap (expected L auxiliary))

lemma raceInfoOf_opened (name : DBName) (pri file : File String String)
    (key : String) : raceInfoOf L (opened name pri (some file)) key =
      scanRaceInfo L ((recordsOf file).lookup key) := by
  simp only [raceInfoOf, opened, map_some, DB.records_openFile, recordsOf]

lemma goodOf_opened (name : DBName) (pri : File String String)
    (aux : Option (File String String)) (x : Entry) :
    goodOf L (opened name pri aux) x = expected L aux x := by
  unfold goodOf classify expected
  rcases L.deserialize x.2.val with (e | e) | calls
  case error.error => cases aux <;> rfl
  case error.panic => rfl
  case ok =>
    simp only [Except.toOption, bind_some]
    by_cases hcl : calls.all L.syscalls
    case neg =>
      have hany : (calls.any fun c => !L.syscalls c) = true := by
        rw [← not_all_eq_any_not]
        simpa using hcl
      rw [if_pos hany, if_neg hcl]
    case pos =>
    have hany : ¬ (calls.any fun c => !L.syscalls c) = true := by
      rw [← not_all_eq_any_not, hcl]
      decide
    rw [if_neg hany, if_pos hcl]
    cases aux with
    | none => rfl
    | some file =>
      rw [raceInfoOf_opened]
      simp only
      cases (recordsOf file).lookup x.1 with
      | none => rfl
      | some info =>
        simp only [bind_some, scanRaceInfo]
        cases L.fromBytes info.val with
        | none => rfl
        | some ri =>
          simp only [bind_some]
          cases L.mempairHash ri.hash <;> rfl

lemma brokenOf_opened (name : DBName) (pri : File String String)
    (aux : Option (File String String)) (x : Entry) :
    brokenOf L (opened name pri aux) x =
      if rejects (L.deserialize x.2.val) ∧ aux.isSome then some x.1 else none := by
  unfold brokenOf classify
  rcases L.deserialize x.2.val with (e | e) | calls
  case error.error => cases aux <;> rfl
  case error.panic => rfl
  case ok =>
    simp only [rejects, Bool.false_eq_true, false_and, if_false]
    by_cases hany : (calls.any fun c => !L.syscalls c) = true
    · rw [if_pos hany]
    · rw [if_neg hany]
      cases raceInfoOf L (opened name pri aux) x.1 with
      | error a => rfl
      | ok o => cases o <;> rfl

variable {L}

lemma brokenAt_iff :
    brokenAt L file k ↔
      ∃ rec, (recordsOf file).lookup k = some rec ∧ rejects (L.deserialize rec.val) := by
  simp [brokenAt, Option.any_eq_true]

variable {aux : Option (File String String)}

lemma broken_iff :
    (∃ x ∈ (recordsOf primary).entries, brokenOf L (opened name primary aux) x = some k) ↔
      brokenAt L primary k ∧ aux.isSome := by
  rw [brokenAt_iff]
  constructor
  · rintro ⟨⟨key, rec⟩, hx, hbr⟩
    rw [brokenOf_opened] at hbr
    split at hbr
    case isFalse => cases hbr
    case isTrue h =>
    cases hbr
    exact ⟨⟨rec, AList.mem_lookup_iff.2 hx, h.1⟩, h.2⟩
  · rintro ⟨⟨rec, hrec, hnn⟩, haux⟩
    refine ⟨⟨k, rec⟩, AList.mem_lookup_iff.1 hrec, ?_⟩
    rw [brokenOf_opened, if_pos ⟨hnn, haux⟩]

lemma loadedFrom_of_loads
    (h : Loads L (opened name primary aux) (recordsOf primary).entries dis S)
    (haux : ∀ k, brokenAt L primary k → aux.isSome) :
    LoadedFrom L primary aux S.db S.handed := by
  obtain ⟨keys, hky, hdb⟩ := h.db
  have hmem : ∀ k, k ∈ keys ↔ brokenAt L primary k := fun k =>
    (hky k).trans (broken_iff.trans ⟨And.left, fun hb => ⟨hb, haux k hb⟩⟩)
  rw [foldl_deleteKey] at hdb
  refine ⟨fun k => ?_, fun file hfl => ?_, ?_⟩
  · rw [hdb]
    simp only [DB.lookup_deleteAll, hmem, opened, DB.records_openFile, recordsOf]
  · subst hfl
    refine ⟨(DB.openFile file).deleteAll keys, by rw [hdb]; rfl, fun k => ?_⟩
    simp only [DB.lookup_deleteAll, hmem, DB.records_openFile, recordsOf]
  · have hgd := funext (goodOf_opened L name primary aux)
    rw [← hgd]
    exact h.handed

/-! ### When the loader returns -/

lemma classify_plain :
    (∃ v, classify L (opened name primary none) x = .ok v) ↔
      (L.deserialize x.2.val).toOption.isSome := by
  unfold classify
  rcases L.deserialize x.2.val with (e | e) | calls
  case error.error => simp [opened, Except.toOption]
  case error.panic => simp [Except.toOption]
  case ok =>
    simp only [Except.toOption, isSome_some, iff_true]
    by_cases hany : (calls.any fun c => !L.syscalls c) = true
    · exact ⟨_, if_pos hany⟩
    · exact ⟨_, if_neg hany⟩

lemma classify_paired (h : Paired L primary file) (hx : x ∈ (recordsOf primary).entries) :
    (∃ v, classify L (opened name primary (some file)) x = .ok v) ↔
      panics (L.deserialize x.2.val) = false := by
  obtain ⟨info, hif, hsc⟩ := h x.1 x.2 (AList.mem_lookup_iff.2 hx)
  obtain ⟨ri, hri⟩ := isSome_iff_exists.1 hsc
  unfold classify
  rcases L.deserialize x.2.val with (e | e) | calls
  case error.error => exact iff_of_true ⟨_, rfl⟩ rfl
  case error.panic => simp [panics]
  case ok =>
    simp only [panics, iff_true]
    by_cases hany : (calls.any fun c => !L.syscalls c) = true
    · exact ⟨_, if_pos hany⟩
    · rw [if_neg hany, raceInfoOf_opened, hif]
      simp only [scanRaceInfo, hri]
      exact ⟨_, rfl⟩

lemma loadDB_paired (h : Paired L primary file) (hcalm : Calm L primary) (name : DBName)
    (dis : List String) : ∃ S, loadDB L name primary (some file) dis = .ok S ∧
      LoadedFrom L primary (some file) S.db S.handed := by
  rcases loadDB_cases L name primary (some file) dis with
    ⟨-, S, hS, hld⟩ | ⟨x, hx, a, ha, -⟩
  · exact ⟨S, hS, loadedFrom_of_loads hld fun _ _ => rfl⟩
  · obtain ⟨v, hv⟩ := (classify_paired h hx).2 (hcalm x.1 x.2 (AList.mem_lookup_iff.2 hx))
    rw [hv] at ha
    cases ha

lemma calm_of_loadDB {dis : List String} (hp : Paired L primary file)
    (h : loadDB L name primary (some file) dis = .ok S) : Calm L primary := by
  rcases loadDB_cases L name primary (some file) dis with ⟨hall, -⟩ | ⟨x, hx, a, -, herr⟩
  · intro key rec hrec
    have hmem := AList.mem_lookup_iff.1 hrec
    exact (classify_paired hp hmem).1 (hall ⟨key, rec⟩ hmem)
  · rw [herr] at h
    cases h

lemma loadDB_plain (h : Parses L primary) (name : DBName) (dis : List String) :
    ∃ S, loadDB L name primary none dis = .ok S ∧ LoadedFrom L primary none S.db S.handed := by
  rcases loadDB_cases L name primary none dis with ⟨-, S, hS, hld⟩ | ⟨x, hx, a, ha, -⟩
  · refine ⟨S, hS, loadedFrom_of_loads hld fun k hk => ?_⟩
    obtain ⟨rec, hrec, hnn⟩ := brokenAt_iff.1 hk
    have hsm := h k rec hrec
    generalize L.deserialize rec.val = r at hnn hsm
    rcases r with e | calls
    · cases hsm
    · cases hnn
  · obtain ⟨v, hv⟩ := classify_plain.2 (h x.1 x.2 (AList.mem_lookup_iff.2 hx))
    rw [hv] at ha
    cases ha

lemma parses_of_loadDB {dis : List String} (h : loadDB L name primary none dis = .ok S) :
    Parses L primary := by
  rcases loadDB_cases L name primary none dis with ⟨hall, -⟩ | ⟨x, hx, a, -, herr⟩
  · exact fun key rec hrec => classify_plain.1 (hall ⟨key, rec⟩ (AList.mem_lookup_iff.1 hrec))
  · rw [herr] at h
    cases h

/-- All three databases are loaded from their files, the programs of the corpus are candidates
for fuzzers, and those of the other two are in the race queue. -/
def LoadsAll (L : Loader) (files : Files) (r : Init) : Prop :=
  ∃ corpus race likely hc hr hl, r.dbs = [corpus, race, likely] ∧
    LoadedFrom L files.corpus none corpus hc ∧
    LoadedFrom L files.raceCorpus (some files.raceInfo) race hr ∧
    LoadedFrom L files.likelyCorpus (some files.likelyRaceInfo) likely hl ∧
    r.rpcCands = hc.map pushToRPCCand ∧
    r.raceQueue = hr.map pushToRaceQueue ++ hl.map pushToRaceQueue

lemma bind_eq_ok {α β : Type} {x : Except Abort α} {f : α → Except Abort β} {b : β} :
    (x >>= f) = .ok b ↔ ∃ a, x = .ok a ∧ f a = .ok b := by
  cases x with
  | error e => exact iff_of_false (fun h => by cases h) (fun ⟨_, h, _⟩ => by cases h)
  | ok a =>
    refine ⟨fun h => ⟨a, rfl, h⟩, ?_⟩
    rintro ⟨_, h, hf⟩
    cases h
    exact hf

lemma initDBs_eq_ok {fs : Files} {r : Init} :
    initDBs L fs = .ok r ↔ ∃ corpus race likely,
      loadDB L .corpus fs.corpus none [] = .ok corpus ∧
      loadDB L .racecorpus fs.raceCorpus (some fs.raceInfo) corpus.disabledHashes = .ok race ∧
      loadDB L .likelycorpus fs.likelyCorpus (some fs.likelyRaceInfo) race.disabledHashes =
        .ok likely ∧
      setUp corpus race likely = r := by
  simp only [initDBs, bind_eq_ok, pure, Except.pure, Except.ok.injEq]
  constructor
  · rintro ⟨corpus, hc, race, hr, likely, hl, rfl⟩
    exact ⟨corpus, race, likely, hc, hr, hl, rfl⟩
  · rintro ⟨corpus, race, likely, hc, hr, hl, rfl⟩
    exact ⟨corpus, hc, race, hr, likely, hl, rfl⟩

/-- **When the databases are loaded.** If every program of the two pairs has a race info that can
be scanned, then `initDBs` returns with everything loaded if and only if all programs of the
plain corpus deserialise and the parser panics on none of the other two. -/
theorem initDBs_iff (L : Loader) (files : Files)
    (hrace : Paired L files.raceCorpus files.raceInfo)
    (hlikely : Paired L files.likelyCorpus files.likelyRaceInfo) :
    (∃ r, initDBs L files = .ok r ∧ LoadsAll L files r) ↔
      Parses L files.corpus ∧ Calm L files.raceCorpus ∧ Calm L files.likelyCorpus := by
  constructor
  · rintro ⟨r, hr, -⟩
    obtain ⟨corpus, race, likely, hcr, hrc, hlk, -⟩ := initDBs_eq_ok.1 hr
    exact ⟨parses_of_loadDB hcr, calm_of_loadDB hrace hrc, calm_of_loadDB hlikely hlk⟩
  · rintro ⟨hpr, hcr, hcl⟩
    obtain ⟨corpus, hco, hc⟩ := loadDB_plain hpr .corpus []
    obtain ⟨race, hrace, hr⟩ := loadDB_paired hrace hcr .racecorpus corpus.disabledHashes
    obtain ⟨likely, hlikely, hl⟩ := loadDB_paired hlikely hcl .likelycorpus race.disabledHashes
    exact ⟨setUp corpus race likely,
      initDBs_eq_ok.2 ⟨corpus, race, likely, hco, hrace, hlikely, rfl⟩,
      corpus.db, race.db, likely.db, _, _, _, rfl, hc, hr, hl, rfl, rfl⟩

/-! ### A program that does not deserialise -/

def demoLoader : Loader where
  hash := plainHash
  deserialize text := if text = "bad" then .error (.error "unknown syscall") else .ok []
  syscalls _ := true
  fromBytes _ := some noRaceInfo
  mempairHash _ := true
  walk entries := entries
  walk_perm _ := .refl _

def noRecords : File String String := ⟨0, []⟩

def oneRecord (text : String) : File String String := ⟨0, [.save "k" ⟨text, Seq.zero⟩]⟩

/-- The same program that does not deserialise, in the race corpus or in the corpus. -/
def badRace : Files := ⟨oneRecord "good", oneRecord "bad", oneRecord "info", noRecords, noRecords⟩
def badCorpus : Files := ⟨oneRecord "bad", noRecords, noRecords, noRecords, noRecords⟩

lemma lookup_oneRecord {text : String} {rec : Record String}
    (h : (recordsOf (oneRecord text)).lookup key = some rec) : key = "k" ∧ rec.val = text := by
  have hmem := AList.mem_lookup_iff.1 h
  have heq := mem_singleton.1 hmem
  cases heq
  exact ⟨rfl, rfl⟩

/-- In the race corpus it is deleted. -/
theorem initDBs_badRace :
    ∃ r, initDBs demoLoader badRace = .ok r ∧ LoadsAll demoLoader badRace r := by
  refine (initDBs_iff demoLoader badRace ?_ ?_).2 ?_
  · intro key rec h
    obtain ⟨rfl, -⟩ := lookup_oneRecord h
    exact ⟨⟨"info", Seq.zero⟩, rfl, rfl⟩
  · intro key rec h
    cases h
  · refine ⟨fun key rec h => ?_, fun key rec h => ?_, fun key rec h => ?_⟩
    · rw [(lookup_oneRecord h).2]
      rfl
    · rw [(lookup_oneRecord h).2]
      rfl
    · cases h

/-- In the corpus it ends the process. -/
theorem initDBs_badCorpus : Paired demoLoader badCorpus.raceCorpus badCorpus.raceInfo ∧
    Paired demoLoader badCorpus.likelyCorpus badCorpus.likelyRaceInfo ∧
    initDBs demoLoader badCorpus = .error .nilDereference :=
  ⟨fun _ _ h => (by cases h), fun _ _ h => (by cases h), rfl⟩

end Razzer.LoadDB
