import Razzer.LoadDB

/-!
What `clearDB` deletes.

The loader sets a program aside if one of its calls is disabled, and remembers the hash of its
text. The clean-up is to delete the records that are not in the corpus, but not the programs
that were set aside. It looks the key of a record up among the hashes, and the keys of the race
corpus and of the likely corpus are hashes of the text together with the race info.
-/

namespace Razzer.ClearDB

open Database SyzManager ManagerDB LoadDB

/-! ### The loop -/

variable {k key p : String} {rec : Record String} {x : Entry} {S : Loaded} {name : DBName}
  {r : Init}

section Loop

variable {H : Hash} {fromBytes : String → Option RaceInfo} {corpus : CorpusMap}
  {disabledHashes : List String}

variable {D : DBTy}

lemma represented_deleteKey (h : k ≠ key) :
    represented H fromBytes (D.deleteKey key) corpus k p =
      represented H fromBytes D corpus k p := by
  cases corpus with
  | bySig sigs => rfl
  | byHash likely =>
    unfold represented DBTy.deleteKey
    cases D.auxiliaryDB with
    | none => rfl
    | some aux => simp only [Option.map_some, DB.lookup_delete, if_neg h]

def deletes (H : Hash) (fromBytes : String → Option RaceInfo) (corpus : CorpusMap)
    (disabledHashes : List String) (D : DBTy) (x : Entry) : Bool :=
  match represented H fromBytes D corpus x.1 x.2.val with
  | .ok ok1 => !ok1 && decide (x.1 ∉ disabledHashes)
  | .error _ => false

/-- **The loop of `clearDB`.** If it can tell for every record whether it is in the corpus, it
deletes the keys one after the other. -/
theorem clearRecords_loop (D : DBTy) {es : List Entry} (hnd : es.NodupKeys)
    (hok : ∀ x ∈ es, ∃ b, represented H fromBytes D corpus x.1 x.2.val = .ok b) (D' : DBTy)
    (hD : ∀ x ∈ es, represented H fromBytes D' corpus x.1 x.2.val =
      represented H fromBytes D corpus x.1 x.2.val) :
    es.foldlM (clearRecord H fromBytes corpus disabledHashes) D' =
      .ok (((es.filter (deletes H fromBytes corpus disabledHashes D)).map Sigma.fst).foldl
        DBTy.deleteKey D') := by
  induction es generalizing D' with
  | nil => rfl
  | cons x es ih =>
    rw [List.nodupKeys_cons] at hnd
    obtain ⟨b, hb⟩ := hok x List.mem_cons_self
    have hne : ∀ y ∈ es, y.1 ≠ x.1 := fun y hy h => hnd.1 (h ▸ List.mem_keys_of_mem hy)
    have ih := ih hnd.2 fun y hy => hok y (List.mem_cons_of_mem _ hy)
    have hD' := fun y hy => hD y (List.mem_cons_of_mem x hy)
    rw [List.foldlM_cons, clearRecord, hD x List.mem_cons_self, hb, List.filter_cons]
    simp only [deletes, hb]
    by_cases hdel : b = false ∧ x.1 ∉ disabledHashes
    · -- the keys to come are others, so it is told of them what was told before
      have hdel' : (!b && decide (x.1 ∉ disabledHashes)) := by simpa using hdel
      rw [if_pos hdel', List.map_cons, List.foldl_cons, Except.map, if_pos hdel]
      exact ih (D'.deleteKey x.1) fun y hy =>
        (represented_deleteKey (hne y hy)).trans (hD' y hy)
    · have hdel' : ¬ (!b && decide (x.1 ∉ disabledHashes)) := by simpa using hdel
      rw [if_neg hdel', Except.map, if_neg hdel]
      exact ih D' hD'

end Loop

/-! ### What is left -/

/-- A database without some keys. What is left is in memory and in the file. -/
structure Erases (db db' : DB String String) (gone : String → Prop) : Prop where
  erased : ∀ k, gone k → db'.records.lookup k = none
  kept : ∀ k, ¬ gone k → db'.records.lookup k = db.records.lookup k
  flushed : ∀ k, db'.onDisk k = db'.records.lookup k

structure ErasesBoth (D D' : DBTy) (gone : String → Prop) : Prop where
  primary : Erases D.primaryDB D'.primaryDB gone
  auxiliary : ∀ aux, D.auxiliaryDB = some aux →
    ∃ aux', D'.auxiliaryDB = some aux' ∧ Erases aux aux' gone

lemma erases_deleteAll (db : DB String String) (keys : List String) :
    Erases db (db.deleteAll keys).flush (· ∈ keys) := by
  refine ⟨fun k hk => ?_, fun k hk => ?_, fun k => ?_⟩
  · rw [DB.records_flush, DB.lookup_deleteAll, if_pos hk]
  · rw [DB.records_flush, DB.lookup_deleteAll, if_neg hk]
  · rw [DB.onDisk_flush, DB.records_flush]

/-- The record under a key is not in the corpus, as far as the clean-up can tell. -/
def Missing (H : Hash) (fromBytes : String → Option RaceInfo) (corpus : CorpusMap) (D : DBTy)
    (k : String) : Prop :=
  ∃ rec, D.primaryDB.records.lookup k = some rec ∧
    represented H fromBytes D corpus k rec.val = .ok false

/-- The race infos that the clean-up scans can be scanned. -/
def Scannable (fromBytes : String → Option RaceInfo) (D : DBTy) : CorpusMap → Prop
  | .bySig _ => True
  | .byHash _ => ∃ aux, D.auxiliaryDB = some aux ∧
      ∀ k rec, D.primaryDB.records.lookup k = some rec →
        ∃ info, aux.records.lookup k = some info ∧ (fromBytes info.val).isSome

variable {D : DBTy} {L : Loader} {t : String}

lemma represented_ok {H : Hash} {fromBytes : String → Option RaceInfo} {corpus : CorpusMap}
    (h : Scannable fromBytes D corpus) (hk : D.primaryDB.records.lookup k = some rec) :
    ∃ b, represented H fromBytes D corpus k rec.val = .ok b := by
  cases corpus with
  | bySig sigs => exact ⟨_, rfl⟩
  | byHash likely =>
    obtain ⟨aux, haux, his⟩ := h
    obtain ⟨info, hif, hsc⟩ := his k rec hk
    obtain ⟨ri, hri⟩ := Option.isSome_iff_exists.1 hsc
    simp only [represented, haux, hif, Option.map_some, Option.getD_some, hri]
    split <;> exact ⟨_, rfl⟩

/-- **What `clearDB` does**: it deletes the records that are missing from the corpus and whose keys
are not among the hashes. -/
theorem clearDB_eq {H : Hash} {fromBytes : String → Option RaceInfo} {corpus : CorpusMap}
    (h : Scannable fromBytes D corpus) (disabledHashes : List String) :
    ∃ D', clearDB H fromBytes corpus disabledHashes D = .ok D' ∧
      ErasesBoth D D' fun k => Missing H fromBytes corpus D k ∧ k ∉ disabledHashes := by
  set keys := (D.primaryDB.records.entries.filter
    (deletes H fromBytes corpus disabledHashes D)).map Sigma.fst with hky
  have hlp : clearRecords H fromBytes corpus disabledHashes D = .ok (keys.foldl DBTy.deleteKey D) :=
    clearRecords_loop D D.primaryDB.records.nodupKeys
      (fun x hx => represented_ok h (AList.mem_lookup_iff.2 hx)) D fun _ _ => rfl
  have hmem : (· ∈ keys) = fun k => Missing H fromBytes corpus D k ∧ k ∉ disabledHashes := by
    funext k
    rw [hky, List.mem_map, eq_iff_iff]
    constructor
    · rintro ⟨⟨key, rec⟩, hx, rfl⟩
      obtain ⟨hx, hdel⟩ := List.mem_filter.1 hx
      have hlk := AList.mem_lookup_iff.2 hx
      obtain ⟨b, hb⟩ := represented_ok (H := H) h hlk
      simp only [deletes, hb, Bool.and_eq_true, Bool.not_eq_true', decide_eq_true_iff] at hdel
      exact ⟨⟨rec, hlk, hdel.1 ▸ hb⟩, hdel.2⟩
    · rintro ⟨⟨rec, hlk, hrep⟩, hnot⟩
      refine ⟨⟨k, rec⟩, List.mem_filter.2 ⟨AList.mem_lookup_iff.1 hlk, ?_⟩, rfl⟩
      simp [deletes, hrep, hnot]
  refine ⟨_, by rw [clearDB, hlp]; rfl, ?_⟩
  rw [foldl_deleteKey, ← hmem]
  refine ⟨erases_deleteAll D.primaryDB keys, fun aux haux => ?_⟩
  refine ⟨(aux.deleteAll keys).flush, ?_, erases_deleteAll aux keys⟩
  simp only [DBTy.flushAuxiliary, DBTy.flushPrimary, haux, Option.map_some]

/-! ### What was set aside -/

def Disabled (L : Loader) (text : String) : Prop :=
  ∃ calls, L.deserialize text = .ok calls ∧ (calls.any fun c => !L.syscalls c) = true

def primaryFile (files : Files) : DBName → File String String
  | .corpus => files.corpus
  | .racecorpus => files.raceCorpus
  | .likelycorpus => files.likelyCorpus

/-- The loader sets the record under a key aside. -/
def SetAside (L : Loader) (file : File String String) (k : String) : Prop :=
  ∃ rec, (recordsOf file).lookup k = some rec ∧ Disabled L rec.val

lemma classify_disabled : classify L D x = .ok .disabled ↔ Disabled L x.2.val := by
  unfold classify Disabled
  rcases L.deserialize x.2.val with (e | e) | calls
  case error.error =>
    simp only [reduceCtorEq, false_and, exists_false, iff_false]
    split <;> simp
  case error.panic => simp
  case ok =>
    simp only [Except.ok.injEq, exists_eq_left']
    by_cases hany : (calls.any fun c => !L.syscalls c) = true
    · rw [if_pos hany]
      exact iff_of_true rfl hany
    · rw [if_neg hany]
      refine iff_of_false ?_ hany
      cases raceInfoOf L D x.1 with
      | error a => simp [Except.map]
      | ok o => cases o <;> simp [Except.map]

lemma mem_disabled_foldl {es : List Entry} :
    t ∈ (es.foldl (takeOf L D) S).disabledHashes ↔
      t ∈ S.disabledHashes ∨ ∃ x ∈ es, Disabled L x.2.val ∧ L.hash.string x.2.val = t := by
  induction es generalizing S with
  | nil => simp
  | cons x es ih =>
    have htk : t ∈ (takeOf L D S x).disabledHashes ↔
        t ∈ S.disabledHashes ∨ Disabled L x.2.val ∧ L.hash.string x.2.val = t := by
      by_cases hdis : classify L D x = .ok .disabled
      · simp only [takeOf, hdis, take, List.mem_insert_iff, classify_disabled.1 hdis, true_and]
        rw [or_comm, eq_comm]
      · have hsm : (takeOf L D S x).disabledHashes = S.disabledHashes := by
          unfold takeOf
          cases hv : classify L D x with
          | error a => rfl
          | ok v =>
            cases v with
            | disabled => exact absurd hv hdis
            | _ => rfl
        have hnot : ¬ Disabled L x.2.val := fun h => hdis (classify_disabled.2 h)
        simp [hsm, hnot]
    rw [List.foldl_cons, ih, htk, or_assoc]
    simp only [List.mem_cons, exists_eq_or_imp]

lemma mem_disabled_loadDB {pri : File String String} {auxiliary : Option (File String String)}
    {dis : List String} (h : loadDB L name pri auxiliary dis = .ok S) :
    t ∈ S.disabledHashes ↔ t ∈ dis ∨
      ∃ k rec, (recordsOf pri).lookup k = some rec ∧ Disabled L rec.val ∧
        L.hash.string rec.val = t := by
  rcases loadDB_cases L name pri auxiliary dis with ⟨-, S', heq, es, hpr, rfl⟩ | ⟨x, -, a, -, heq⟩
  · cases h.symm.trans heq
    rw [mem_disabled_foldl]
    refine or_congr Iff.rfl ⟨?_, ?_⟩
    · rintro ⟨⟨k, rec⟩, hx, hdis⟩
      exact ⟨k, rec, AList.mem_lookup_iff.2 (hpr.mem_iff.1 hx), hdis⟩
    · rintro ⟨k, rec, hk, hdis⟩
      exact ⟨⟨k, rec⟩, hpr.mem_iff.2 (AList.mem_lookup_iff.1 hk), hdis⟩
  · cases h.symm.trans heq

lemma mem_disabled_initDBs {fs : Files} (h : initDBs L fs = .ok r) :
    t ∈ r.disabledHashes ↔
      ∃ name k rec, (recordsOf (primaryFile fs name)).lookup k = some rec ∧
        Disabled L rec.val ∧ L.hash.string rec.val = t := by
  obtain ⟨corpus, race, likely, hcr, hrc, hlk, rfl⟩ := initDBs_eq_ok.1 h
  have hmem : t ∈ (setUp corpus race likely).disabledHashes ↔ t ∈ likely.disabledHashes := Iff.rfl
  rw [hmem, mem_disabled_loadDB hlk, mem_disabled_loadDB hrc, mem_disabled_loadDB hcr]
  constructor
  · rintro (((hnil | h) | h) | h)
    · cases hnil
    · exact ⟨.corpus, h⟩
    · exact ⟨.racecorpus, h⟩
    · exact ⟨.likelycorpus, h⟩
  · rintro ⟨name, h⟩
    cases name with
    | corpus => exact .inl (.inl (.inr h))
    | racecorpus => exact .inl (.inr h)
    | likelycorpus => exact .inr h

/-! ### When the clean-up spares what was set aside -/

/-- `clearDB` deletes exactly the records that were not set aside and are not in the corpus. -/
def ClearsExactly (L : Loader) (file : File String String) (corpus : CorpusMap)
    (disabledHashes : List String) (D : DBTy) : Prop :=
  ∃ D', clearDB L.hash L.fromBytes corpus disabledHashes D = .ok D' ∧
    ErasesBoth D D' fun k => Missing L.hash L.fromBytes corpus D k ∧ ¬ SetAside L file k

/-- **What the clean-up spares.** After the databases were loaded, and whatever happened to a
database and its corpus since: the clean-up deletes exactly the records that were not set aside and
are not in the corpus if and only if the keys of the records that are not in the corpus are hashes
of programs that were set aside exactly for those that were. -/
theorem clearDB_exact_iff {L : Loader} {files : Files} {r : Init} (h : initDBs L files = .ok r)
    (name : DBName) (D : DBTy) (corpus : CorpusMap) (hscan : Scannable L.fromBytes D corpus) :
    ClearsExactly L (primaryFile files name) corpus r.disabledHashes D ↔
      ∀ k, Missing L.hash L.fromBytes corpus D k →
        ((∃ name' k' rec, (recordsOf (primaryFile files name')).lookup k' = some rec ∧
          Disabled L rec.val ∧ L.hash.string rec.val = k) ↔
            SetAside L (primaryFile files name) k) := by
  obtain ⟨D₁, hD₁, her⟩ := clearDB_eq hscan r.disabledHashes
  have hmem := fun k => mem_disabled_initDBs (t := k) h
  constructor
  · rintro ⟨D₂, hD₂, het⟩ k hk
    cases hD₁.symm.trans hD₂
    have hrec : D.primaryDB.records.lookup k ≠ none := by
      obtain ⟨rec, hrec, -⟩ := hk
      simp [hrec]
    rw [← hmem k]
    -- the record is gone by both accounts or by none
    constructor
    · intro hdis
      by_contra had
      have hgn := het.primary.erased k ⟨hk, had⟩
      exact hrec ((her.primary.kept k fun hg => hg.2 hdis).symm.trans hgn)
    · intro had
      by_contra hdis
      have hgn := her.primary.erased k ⟨hk, hdis⟩
      exact hrec ((het.primary.kept k fun hg => hg.2 had).symm.trans hgn)
  · intro hky
    refine ⟨D₁, hD₁, ?_⟩
    have hsm : (fun k => Missing L.hash L.fromBytes corpus D k ∧ k ∉ r.disabledHashes) =
        fun k =>
          Missing L.hash L.fromBytes corpus D k ∧ ¬ SetAside L (primaryFile files name) k := by
      funext k
      exact propext (and_congr_right fun hk => not_congr ((hmem k).trans (hky k hk)))
    exact hsm ▸ her

/-! ### A program of the race corpus -/

def oneOff : Loader where
  hash := plainHash
  deserialize text := .ok (if text = "off" then [1] else [0])
  syscalls c := c == 0
  fromBytes _ := some noRaceInfo
  mempairHash _ := true
  walk entries := entries
  walk_perm _ := .refl _

def offUnder (key : String) : File String String := ⟨0, [.save key ⟨"off", Seq.zero⟩]⟩

def offInRaceCorpus : Files :=
  let key := computeSig oneOff.hash "off" "info"
  ⟨noRecords, offUnder key, ⟨0, [.save key ⟨"info", Seq.zero⟩]⟩, noRecords, noRecords⟩

/-- It is set aside when the databases are loaded, and deleted by the clean-up. -/
theorem clearDB_deletes_set_aside : ∃ r D D', initDBs oneOff offInRaceCorpus = .ok r ∧
    D ∈ r.dbs ∧ D.name = .racecorpus ∧
    SetAside oneOff offInRaceCorpus.raceCorpus (computeSig oneOff.hash "off" "info") ∧
    (D.primaryDB.records.lookup (computeSig oneOff.hash "off" "info")).isSome ∧
    clearDB oneOff.hash oneOff.fromBytes (.bySig []) r.disabledHashes D = .ok D' ∧
    D'.primaryDB.records.lookup (computeSig oneOff.hash "off" "info") = none := by
  refine ⟨_, _, _, rfl, List.mem_cons_of_mem _ List.mem_cons_self, rfl,
    ⟨⟨"off", Seq.zero⟩, rfl, [1], rfl, rfl⟩, rfl, rfl, rfl⟩

def offInCorpus : Files :=
  ⟨offUnder (oneOff.hash.string "off"), noRecords, noRecords, noRecords, noRecords⟩

/-- There the clean-up spares it. -/
theorem clearDB_exact_corpus : ∃ r, initDBs oneOff offInCorpus = .ok r ∧
    ClearsExactly oneOff offInCorpus.corpus (.bySig []) r.disabledHashes
      (opened .corpus offInCorpus.corpus none) := by
  obtain ⟨r, hr⟩ : ∃ r, initDBs oneOff offInCorpus = .ok r := ⟨_, rfl⟩
  refine ⟨r, hr, (clearDB_exact_iff hr .corpus _ (.bySig []) trivial).2 fun k hk => ?_⟩
  obtain ⟨rec, hrec, -⟩ := hk
  have hmem := List.mem_singleton.1 (AList.mem_lookup_iff.1 hrec)
  cases hmem
  have had : Disabled oneOff "off" := ⟨[1], rfl, rfl⟩
  exact iff_of_true ⟨.corpus, "off", ⟨"off", Seq.zero⟩, rfl, had, rfl⟩
    ⟨⟨"off", Seq.zero⟩, rfl, had⟩

end Razzer.ClearDB
