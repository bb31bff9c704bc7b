import Razzer.DBFormat

/-!
A database and the bytes of its file.

The operations are those of the database on a journal, with bytes in the place of the journal and
of the buffer. While the file holds a journal, each of them does to the bytes what it does to the
journal. A file may have something else at its end: the record that was being written when the
process stopped. What is appended then is behind it, and is not read before the file is written
anew.
-/

namespace Razzer.DBFile

open Journal Database DBFormat List
open Words (leBytes)

/-! ### Operations -/

/-- The order in which a map is walked, which may be another one each time. -/
structure Walk where
  order : Records Bytes Bytes → Records Bytes Bytes
  perm : ∀ records, (order records).entries.Perm records.entries

/-- `DB`. A buffer that is nil is `none`. -/
structure Store where
  version : UInt64
  records : Records Bytes Bytes
  uncompacted : ℕ
  pending : Option Bytes
  file : Bytes

namespace Store

variable (F : Flate)

def compact (w : Walk) (db : Store) : Store :=
  { db with
    file := serializeHeader db.version ++
      (w.order db.records).entries.flatMap fun x => serializeRecord F x.1 x.2.val x.2.seq
    uncompacted := db.records.entries.length
    pending := none }

def outdated (db : Store) : Bool :=
  decide (db.uncompacted / 10 * 9 > db.records.entries.length)

/-- What `Open` has read before it decides whether to write the file anew. -/
def read (bytes : Bytes) : Store :=
  let r := deserializeDB F bytes
  { version := r.1, records := r.2.1, uncompacted := r.2.2, pending := none, file := bytes }

def opensAnew (bytes : Bytes) : Bool :=
  decide ((read F bytes).records.entries.length = 0) || (read F bytes).outdated

def openFile (w : Walk) (bytes : Bytes) : Store :=
  if opensAnew F bytes then (read F bytes).compact F w else read F bytes

def serialize (db : Store) (key val : Bytes) (seq : UInt64) : Store :=
  { db with pending := some (db.pending.getD [] ++ serializeRecord F key val seq) }

def save (db : Store) (key val : Bytes) (seq : Seq) : Store :=
  if db.records.lookup key = some ⟨val, seq⟩ then db
  else
    let db := { db with records := db.records.insert key ⟨val, seq⟩ }
    let db := db.serialize F key val seq
    { db with uncompacted := db.uncompacted + 1 }

def delete (db : Store) (key : Bytes) : Store :=
  if key ∈ db.records then
    let db := { db with records := db.records.erase key }
    let db := db.serialize F key [] seqDeleted
    { db with uncompacted := db.uncompacted + 1 }
  else db

def flush (w : Walk) (db : Store) : Store :=
  if db.outdated then db.compact F w
  else
    match db.pending with
    | none => db
    | some pending => { db with file := db.file ++ pending, pending := none }

def bumpVersion (w : Walk) (version : UInt64) (db : Store) : Store :=
  if db.version = version then db.flush F w
  else compact F w { db with version := version }

end Store

inductive Op
  | save (key val : Bytes) (seq : Seq)
  | delete (key : Bytes)
  | flush (w : Walk)
  | bumpVersion (w : Walk) (version : UInt64)

def step (F : Flate) (db : Store) : Op → Store
  | .save key val seq => db.save F key val seq
  | .delete key => db.delete F key
  | .flush w => db.flush F w
  | .bumpVersion w version => db.bumpVersion F w version

def run (F : Flate) (db : Store) (ops : List Op) : Store := ops.foldl (step F) db

def Op.compacts (db : Store) : Op → Bool
  | .flush _ => db.outdated
  | .bumpVersion _ version => decide (db.version ≠ version) || db.outdated
  | _ => false

def runCompacts (F : Flate) : Store → List Op → Bool
  | _, [] => false
  | db, op :: ops => op.compacts db || runCompacts F (step F db op) ops

def Op.appends (db : Store) : Op → Bool
  | .flush _ => db.pending.isSome && !db.outdated
  | .bumpVersion _ version => decide (db.version = version) && (db.pending.isSome && !db.outdated)
  | _ => false

def runAppends (F : Flate) : Store → List Op → Bool
  | _, [] => false
  | db, op :: ops => op.appends db || runAppends F (step F db op) ops

/-- The lengths of keys and compressed values have 32 bits. -/
def Op.Fits (F : Flate) : Op → Prop
  | .save key val _ => DBFormat.Fits F key val
  | _ => True

def RecordsFit (F : Flate) (records : Records Bytes Bytes) : Prop :=
  ∀ key rec, records.lookup key = some rec → Fits F key rec.val

/-! ### Refinement -/

section Mirrors

variable {F : Flate}

/-- The bytes hold what the database on a journal holds. -/
structure Mirrors (F : Flate) (s : Store) (db : DB Bytes Bytes) : Prop where
  version : s.version = db.version
  records : s.records.entries.Perm db.records.entries
  uncompacted : s.uncompacted = db.uncompacted
  pending : s.pending = if db.pending = [] then none else some (db.pending.flatMap (entryBytes F))
  pendingFits : ∀ e ∈ db.pending, EntryFits F e
  file : Holds F s.file db.file

variable {s : Store} {db : DB Bytes Bytes}

lemma Mirrors.lookup (h : Mirrors F s db) (key : Bytes) :
    s.records.lookup key = db.records.lookup key := same_of_perm h.records key

lemma Mirrors.length (h : Mirrors F s db) :
    s.records.entries.length = db.records.entries.length := h.records.length_eq

lemma Mirrors.mem_iff (h : Mirrors F s db) (key : Bytes) : key ∈ s.records ↔ key ∈ db.records := by
  rw [← AList.lookup_isSome, ← AList.lookup_isSome, h.lookup]

lemma fits_dump {rs : Records Bytes Bytes} (h : RecordsFit F rs) :
    ∀ e ∈ dump rs, EntryFits F e := by
  intro e he
  obtain ⟨⟨key, rec⟩, hx, rfl⟩ := mem_map.1 he
  exact h key rec (AList.mem_lookup_iff.2 hx)

lemma mirrors_compact (w : Walk) (hfit : RecordsFit F s.records) :
    Mirrors F (s.compact F w) (.ofRecords s.version (w.order s.records)) := by
  have hpr := w.perm s.records
  have hfit' : RecordsFit F (w.order s.records) := by
    intro key rec hrec
    exact hfit key rec ((same_of_perm hpr key).symm.trans hrec)
  constructor
  case version => rfl
  case records => exact hpr.symm
  case uncompacted => exact hpr.length_eq.symm
  case pending => rfl
  case pendingFits => exact fun e he => by cases he
  case file =>
    have hdm : (w.order s.records).entries.flatMap
        (fun x => serializeRecord F x.1 x.2.val x.2.seq) =
        (dump (w.order s.records)).flatMap (entryBytes F) := by
      rw [dump, flatMap_map]
      rfl
    have hnew := holds_new s.version (fits_dump hfit')
    rwa [← hdm] at hnew

variable {buf : Option (List UInt8)} {key val : Bytes} {file : File Bytes Bytes}

lemma pending_snoc {pending : List (Entry Bytes (Record Bytes))}
    (h : buf = if pending = [] then none else some (pending.flatMap (entryBytes F)))
    (e : Entry Bytes (Record Bytes)) :
    some (buf.getD [] ++ entryBytes F e) =
      if pending ++ [e] = [] then none else some ((pending ++ [e]).flatMap (entryBytes F)) := by
  rw [if_neg (by simp), flatMap_append, flatMap_singleton, h]
  split_ifs with hnil
  · rw [hnil]
    rfl
  · rfl

lemma forall_mem_snoc {α : Type} {p : α → Prop} {l : List α} {a : α} (h : ∀ x ∈ l, p x)
    (ha : p a) : ∀ x ∈ l ++ [a], p x := by
  intro x hx
  rcases mem_append.1 hx with hx | hx
  · exact h x hx
  · rwa [mem_singleton.1 hx]

lemma Mirrors.save (h : Mirrors F s db) (seq : Seq) (hfit : Fits F key val) :
    Mirrors F (s.save F key val seq) (db.save key val seq) := by
  unfold Store.save DB.save
  rw [h.lookup]
  split
  · exact h
  · exact {
      version := h.version
      records := AList.perm_insert h.records
      uncompacted := congrArg (· + 1) h.uncompacted
      pending := pending_snoc h.pending (.save key ⟨val, seq⟩)
      pendingFits := forall_mem_snoc h.pendingFits hfit
      file := h.file }

lemma Mirrors.delete (h : Mirrors F s db) (hfit : RecordsFit F s.records) (key : Bytes) :
    Mirrors F (s.delete F key) (db.delete key) := by
  unfold Store.delete DB.delete
  by_cases hmem : key ∈ s.records
  · obtain ⟨rec, hrec⟩ := Option.isSome_iff_exists.1 (AList.lookup_isSome.2 hmem)
    rw [if_pos hmem, if_pos ((h.mem_iff key).1 hmem)]
    exact {
      version := h.version
      records := AList.perm_erase h.records
      uncompacted := congrArg (· + 1) h.uncompacted
      pending := pending_snoc h.pending (.delete key)
      pendingFits := forall_mem_snoc h.pendingFits (hfit key rec hrec).1
      file := h.file }
  · rw [if_neg hmem, if_neg (mt (h.mem_iff key).2 hmem)]
    exact h

lemma Mirrors.reorder (h : Mirrors F s db) (w : Walk) :
    Mirrors F s (db.reorder (w.order s.records) ((w.perm _).trans h.records)) :=
  ⟨h.version, (w.perm _).symm, h.uncompacted, h.pending, h.pendingFits, h.file⟩

variable {w : Walk} {op : Op} {ops : List Op}

/-- **Flushing refines flushing** of the records in the same order. -/
lemma Mirrors.flush (h : Mirrors F s db) (hfit : RecordsFit F s.records)
    (hw : db.records = w.order s.records) : Mirrors F (s.flush F w) db.flush := by
  unfold Store.flush DB.flush
  rw [Store.outdated, h.uncompacted, h.length]
  by_cases hcm : db.uncompacted / 10 * 9 > db.records.entries.length
  · rw [if_pos (decide_eq_true hcm), if_pos hcm]
    have hnew := mirrors_compact w hfit
    rwa [h.version, ← hw] at hnew
  · rw [if_neg (by simpa using hcm), if_neg hcm, h.pending]
    by_cases hnil : db.pending = []
    · rw [if_pos hnil, if_pos hnil]
      exact h
    · rw [if_neg hnil, if_neg hnil]
      exact ⟨h.version, h.records, rfl, rfl, (fun e he => by cases he), h.file.append h.pendingFits⟩

lemma mirrors_read {bs : Bytes} (h : Holds F bs file) :
    ∃ db, Mirrors F (Store.read F bs) db := by
  have hrd := deserializeDB_of_holds h
  refine ⟨{
    version := file.version
    records := replay file.log
    uncompacted := file.log.length
    pending := []
    file := file
    mirrored := by
      rw [append_nil]
      exact fun _ => rfl
    versioned := rfl }, ?_⟩
  rw [Store.read, hrd]
  exact ⟨rfl, .refl _, rfl, rfl, (fun e he => by cases he), h⟩

/-! ### Runs -/

lemma lookup_save (s : Store) (key val : Bytes) (seq : Seq) (k : Bytes) :
    (s.save F key val seq).records.lookup k =
      if k = key then some ⟨val, seq⟩ else s.records.lookup k := by
  unfold Store.save
  split
  case isTrue h =>
    split
    · rwa [‹k = key›]
    · rfl
  case isFalse h => exact lookup_insert_eq ..

lemma lookup_delete (s : Store) (key k : Bytes) :
    (s.delete F key).records.lookup k = if k = key then none else s.records.lookup k := by
  unfold Store.delete
  split
  case isTrue h => exact lookup_erase_eq ..
  case isFalse h =>
    split
    · rw [‹k = key›]
      exact AList.lookup_eq_none.2 h
    · rfl

lemma records_flush (s : Store) (w : Walk) : (s.flush F w).records = s.records := by
  unfold Store.flush
  split_ifs
  · rfl
  · split <;> rfl

lemma records_bumpVersion (s : Store) (w : Walk) (ver : UInt64) :
    (s.bumpVersion F w ver).records = s.records := by
  unfold Store.bumpVersion
  split_ifs
  · exact records_flush s w
  · rfl

def Op.change (key : Bytes) : Op → Option (Option (Record Bytes))
  | .save k val seq => if key = k then some (some ⟨val, seq⟩) else none
  | .delete k => if key = k then some none else none
  | .flush _ => none
  | .bumpVersion _ _ => none

lemma lookup_step (s : Store) (op : Op) (key : Bytes) :
    (step F s op).records.lookup key = (op.change key).getD (s.records.lookup key) := by
  cases op with
  | save k val seq =>
    rw [step, lookup_save, Op.change]
    split_ifs <;> rfl
  | delete k =>
    rw [step, lookup_delete, Op.change]
    split_ifs <;> rfl
  | flush w => rw [step, records_flush, Op.change, Option.getD_none]
  | bumpVersion w version => rw [step, records_bumpVersion, Op.change, Option.getD_none]

lemma recordsFit_step (hfit : RecordsFit F s.records) (hop : op.Fits F) :
    RecordsFit F (step F s op).records := by
  intro key rec hrec
  rw [lookup_step] at hrec
  cases op with
  | save k val seq =>
    rw [Op.change] at hrec
    split_ifs at hrec with hk
    · cases hrec
      rw [hk]
      exact hop
    · exact hfit key rec hrec
  | delete k =>
    rw [Op.change] at hrec
    split_ifs at hrec
    · cases hrec
    · exact hfit key rec hrec
  | flush w | bumpVersion w version => exact hfit key rec hrec

lemma exists_mirrors_of_compacts (hfit : RecordsFit F s.records) (h : op.compacts s) :
    ∃ db, Mirrors F (step F s op) db := by
  cases op with
  | save key val seq | delete key => cases h
  | flush w =>
    have hout : s.outdated := h
    rw [step, Store.flush, if_pos hout]
    exact ⟨_, mirrors_compact w hfit⟩
  | bumpVersion w version =>
    rw [step, Store.bumpVersion]
    by_cases hver : s.version = version
    · have hout : s.outdated := by simpa [Op.compacts, hver] using h
      rw [if_pos hver, Store.flush, if_pos hout]
      exact ⟨_, mirrors_compact w hfit⟩
    · rw [if_neg hver]
      exact ⟨_, mirrors_compact (s := { s with version := version }) w hfit⟩

lemma exists_mirrors_step (h : ∃ db, Mirrors F s db) (hfit : RecordsFit F s.records)
    (hop : op.Fits F) : ∃ db, Mirrors F (step F s op) db := by
  obtain ⟨db, h⟩ := h
  have hfl := fun w => (h.reorder w).flush hfit (w := w) rfl
  cases op with
  | save key val seq => exact ⟨_, h.save seq hop⟩
  | delete key => exact ⟨_, h.delete hfit key⟩
  | flush w => exact ⟨_, hfl w⟩
  | bumpVersion w version =>
    rw [step, Store.bumpVersion]
    split_ifs
    · exact ⟨_, hfl w⟩
    · exact ⟨_, mirrors_compact (s := { s with version := version }) w hfit⟩

/-- **After a run the file is well formed**, if it was before or has been written anew. -/
theorem exists_mirrors_run (h : (∃ db, Mirrors F s db) ∨ runCompacts F s ops)
    (hfit : RecordsFit F s.records) (hops : ∀ op ∈ ops, op.Fits F) :
    ∃ db, Mirrors F (run F s ops) db := by
  induction ops generalizing s with
  | nil =>
    rcases h with h | h
    · exact h
    · cases h
  | cons op ops ih =>
    obtain ⟨hop, hops⟩ := forall_mem_cons.1 hops
    refine ih ?_ (recordsFit_step hfit hop) hops
    rcases h with h | h
    · exact Or.inl (exists_mirrors_step h hfit hop)
    · rw [runCompacts, Bool.or_eq_true] at h
      exact h.imp_left (exists_mirrors_of_compacts hfit)

/-! ### Opening again -/

lemma records_openFile (w : Walk) (bs : Bytes) :
    (Store.openFile F w bs).records = (Store.read F bs).records := by
  unfold Store.openFile
  split_ifs <;> rfl

lemma version_openFile (w : Walk) (bs : Bytes) :
    (Store.openFile F w bs).version = (Store.read F bs).version := by
  unfold Store.openFile
  split_ifs <;> rfl

lemma pending_flush (s : Store) (w : Walk) : (s.flush F w).pending = none := by
  unfold Store.flush
  split_ifs
  · rfl
  · split
    · assumption
    · rfl

lemma Mirrors.reopen (h : Mirrors F s db) (hpn : s.pending = none) (w : Walk) :
    (Store.openFile F w s.file).version = s.version ∧
      Same (Store.openFile F w s.file).records s.records := by
  have hnil : db.pending = [] := by
    by_contra hne
    have hsm := h.pending
    rw [hpn, if_neg hne] at hsm
    cases hsm
  rw [version_openFile, records_openFile, Store.read, deserializeDB_of_holds h.file]
  refine ⟨?_, fun key => ?_⟩
  · rw [h.version]
    exact db.versioned
  · rw [h.lookup]
    exact db.onDisk_of_pending hnil key

lemma reopen_run_flush (h : (∃ db, Mirrors F s db) ∨ runCompacts F s (ops ++ [.flush w]))
    (hfit : RecordsFit F s.records) (hops : ∀ op ∈ ops, op.Fits F) (w' : Walk) :
    (Store.openFile F w' ((run F s ops).flush F w).file).version =
        ((run F s ops).flush F w).version ∧
      Same (Store.openFile F w' ((run F s ops).flush F w).file).records
        ((run F s ops).flush F w).records := by
  obtain ⟨db, hdb⟩ := exists_mirrors_run h hfit (forall_mem_snoc hops trivial)
  rw [run, foldl_append] at hdb
  exact Mirrors.reopen hdb (pending_flush _ w) w'

lemma exists_mirrors_openFile {bs : Bytes}
    (h : (bs = [] ∨ ∃ file, Holds F bs file) ∨ Store.opensAnew F bs)
    (hfit : RecordsFit F (Store.openFile F w bs).records) :
    ∃ db, Mirrors F (Store.openFile F w bs) db := by
  rw [records_openFile] at hfit
  by_cases hnew : Store.opensAnew F bs
  · rw [Store.openFile, if_pos hnew]
    exact ⟨_, mirrors_compact w hfit⟩
  · rw [Store.openFile, if_neg hnew]
    rcases h with (rfl | ⟨file, hfl⟩) | h
    · exact absurd rfl hnew
    · exact mirrors_read hfl
    · exact absurd h hnew

/-- **A flushed database is found again.** -/
theorem reopen_after_flush (F : Flate) (w₀ : Walk) (bytes : Bytes)
    (hbytes : bytes = [] ∨ ∃ file, Holds F bytes file) (ops : List Op)
    (hfit : RecordsFit F (Store.openFile F w₀ bytes).records) (hops : ∀ op ∈ ops, op.Fits F)
    (w w' : Walk) :
    let db := (run F (Store.openFile F w₀ bytes) ops).flush F w
    (Store.openFile F w' db.file).version = db.version ∧
      Same (Store.openFile F w' db.file).records db.records := by
  exact reopen_run_flush (Or.inl (exists_mirrors_openFile (Or.inl hbytes) hfit)) hfit hops w'

/-! ### Torn files -/

def lastChange (key : Bytes) : List Op → Option (Option (Record Bytes))
  | [] => none
  | op :: ops => (lastChange key ops).or (op.change key)

lemma lookup_run (s : Store) (ops : List Op) (key : Bytes) :
    (run F s ops).records.lookup key = (lastChange key ops).getD (s.records.lookup key) := by
  induction ops generalizing s with
  | nil => rfl
  | cons op ops ih =>
    rw [run, foldl_cons, ← run, ih, lookup_step, lastChange]
    cases lastChange key ops <;> rfl

def Op.inMemory : Op → Bool
  | .save _ _ _ => true
  | .delete _ => true
  | .flush _ => false
  | .bumpVersion _ _ => false

lemma file_step (h : op.inMemory) : (step F s op).file = s.file := by
  cases op with
  | save key val seq =>
    rw [step, Store.save]
    split <;> rfl
  | delete key =>
    rw [step, Store.delete]
    split <;> rfl
  | flush w | bumpVersion w version => cases h

lemma file_run (h : ∀ op ∈ ops, op.inMemory) : (run F s ops).file = s.file := by
  induction ops generalizing s with
  | nil => rfl
  | cons op ops ih =>
    obtain ⟨hop, hops⟩ := forall_mem_cons.1 h
    rw [run, foldl_cons, ← run, ih hops, file_step hop]

lemma flush_of_pending_none (hpn : s.pending = none) (ho : s.outdated = false) (w : Walk) :
    s.flush F w = s := by
  rw [Store.flush, ho, hpn]
  rfl

/-- **A run that does not write to the file changes nothing.** -/
lemma run_of_not_writes (ha : runAppends F s (ops ++ [.flush w]) = false)
    (hc : runCompacts F s (ops ++ [.flush w]) = false) :
    s.pending = none ∧ run F s (ops ++ [.flush w]) = s := by
  induction ops generalizing s with
  | nil =>
    simp only [nil_append, runAppends, runCompacts, Op.appends, Op.compacts, Bool.or_false] at ha hc
    have hpn : s.pending = none := by simpa [hc] using ha
    exact ⟨hpn, flush_of_pending_none hpn hc w⟩
  | cons op ops ih =>
    rw [cons_append, runAppends, Bool.or_eq_false_iff] at ha
    rw [cons_append, runCompacts, Bool.or_eq_false_iff] at hc
    obtain ⟨hpn, hrun⟩ := ih ha.2 hc.2
    rw [cons_append, run, foldl_cons, ← run, hrun]
    -- something pending would be written by the flush at the end, so the step did nothing
    suffices hst : step F s op = s from ⟨by rwa [hst] at hpn, hst⟩
    cases op with
    | save key val seq =>
      rw [step, Store.save] at hpn ⊢
      split at hpn
      case isTrue h => exact if_pos h
      case isFalse => cases hpn
    | delete key =>
      rw [step, Store.delete] at hpn ⊢
      split at hpn
      case isTrue => cases hpn
      case isFalse h => exact if_neg h
    | flush w =>
      simp only [Op.appends, Op.compacts] at ha hc
      exact flush_of_pending_none (by simpa [hc.1] using ha.1) hc.1 w
    | bumpVersion w version =>
      simp only [Op.appends, Op.compacts, Bool.or_eq_false_iff, decide_eq_false_iff_not,
        not_not] at ha hc
      rw [step, Store.bumpVersion, if_pos hc.1.1]
      exact flush_of_pending_none (by simpa [hc.1] using ha.1) hc.1.2 w

/-- The file after a crash during an append: of the new records only the first `cut` bytes are in
it. -/
def tornFile (F : Flate) (base : Bytes) (es : List (Entry Bytes (Record Bytes))) (cut : ℕ) :
    Bytes :=
  base ++ (es.flatMap (entryBytes F)).take cut

/-- **What is flushed behind a torn tail is found**, if the tail ends with a whole record, the
file has been written anew before the last flush, or nothing is appended to it. -/
theorem flushed_after_torn (F : Flate) (base : Bytes) (file : File Bytes Bytes)
    (hbase : Holds F base file) (es : List (Entry Bytes (Record Bytes)))
    (hes : ∀ e ∈ es, EntryFits F e) (cut : ℕ) (w₀ w w' : Walk) (before after : List Op)
    (hfit : RecordsFit F (Store.openFile F w₀ (tornFile F base es cut)).records)
    (hops : ∀ op ∈ before, op.Fits F) (hafter : ∀ op ∈ after, op.inMemory = true)
    (h : runAppends F (Store.openFile F w₀ (tornFile F base es cut)) (before ++ [.flush w]) = true →
      (∃ n, (es.flatMap (entryBytes F)).take cut = (es.take n).flatMap (entryBytes F)) ∨
      Store.opensAnew F (tornFile F base es cut) = true ∨
      runCompacts F (Store.openFile F w₀ (tornFile F base es cut)) (before ++ [.flush w]) = true)
    (key : Bytes) :
    let opened := Store.openFile F w₀ (tornFile F base es cut)
    let db := run F opened (before ++ .flush w :: after)
    (Store.openFile F w' db.file).records.lookup key =
      (lastChange key before).getD (opened.records.lookup key) := by
  intro opened db
  have hfl : db.file = ((run F opened before).flush F w).file := by
    have hrun : db = run F ((run F opened before).flush F w) after := by
      simp only [db, run, foldl_append, foldl_cons]
      rfl
    rw [hrun, file_run hafter]
  have hlk : ((run F opened before).flush F w).records.lookup key =
      (lastChange key before).getD (opened.records.lookup key) := by
    rw [records_flush, lookup_run]
  by_cases hst : (∃ db, Mirrors F opened db) ∨ runCompacts F opened (before ++ [.flush w])
  case pos => rw [hfl, (reopen_run_flush hst hfit hops w').2, hlk]
  case neg =>
  rw [not_or, Bool.not_eq_true] at hst
  have hanew : ¬ Store.opensAnew F (tornFile F base es cut) = true := fun hnew =>
    hst.1 (exists_mirrors_openFile (Or.inr hnew) hfit)
  -- so the file ends in a part of a record, and nothing is written to it
  have hap : runAppends F opened (before ++ [.flush w]) = false := by
    by_contra hap
    rcases h (by simpa using hap) with ⟨n, hn⟩ | h | h
    · have hwh : Holds F (tornFile F base es cut) ⟨file.version, file.log ++ es.take n⟩ := by
        rw [tornFile, hn]
        exact hbase.append fun e he => hes e (mem_of_mem_take he)
      exact hst.1 (exists_mirrors_openFile (Or.inl (Or.inr ⟨_, hwh⟩)) hfit)
    · exact hanew h
    · exact absurd h (by rw [hst.2]; decide)
  have hrun : (run F opened before).flush F w = opened := by
    have hend := (run_of_not_writes hap hst.2).2
    rwa [run, foldl_append] at hend
  have hop : opened = Store.read F (tornFile F base es cut) := if_neg hanew
  rw [← hlk, hfl, hrun, records_openFile, hop]
  rfl

end Mirrors

/-! ### Two files that are not read back -/

def stored : Flate where
  compress val := 0 :: val
  inflate limit bs :=
    if limit = 0 ∨ bs.length < limit then none else some ((bs.take limit).tail, bs.drop limit)
  inflate_compress val rest := by
    rw [if_neg (by simp), take_left' rfl, drop_left' rfl]
    rfl
  compress_ne_nil val := by simp
  inflate_le h := by
    split_ifs at h
    cases h
    simp

def inOrder : Walk := ⟨id, fun _ => .refl _⟩

/-- Two keys are saved, one of them is deleted, and the version changes. -/
theorem reopen_after_flush_two_keys :
    let db := (run stored (Store.openFile stored inOrder [])
      [.save [1] [7, 7] Seq.zero, .bumpVersion inOrder 3, .save [2] [] Seq.zero,
        .delete [1]]).flush stored inOrder
    (Store.openFile stored inOrder db.file).version = db.version ∧
      Same (Store.openFile stored inOrder db.file).records db.records :=
  reopen_after_flush stored inOrder [] (Or.inl rfl) _ (fun key rec h => by cases h)
    (by simp [Op.Fits, DBFormat.Fits, stored]) inOrder inOrder

/-- The first record of a new file is cut; a file without records is written anew when it is
opened. -/
theorem flushed_after_torn_first_record :
    let opened := Store.openFile stored inOrder
      (tornFile stored (serializeHeader 0) [.save [2] ⟨[], Seq.zero⟩] 1)
    let db := run stored opened ([.save [3] [5] Seq.zero] ++ .flush inOrder :: [])
    (Store.openFile stored inOrder db.file).records.lookup [3] =
      (lastChange [3] [.save [3] [5] Seq.zero]).getD (opened.records.lookup [3]) :=
  flushed_after_torn stored (serializeHeader 0) ⟨0, []⟩
    ⟨serializeHeader 0, [], by simp, deserializeHeader_append 0, .nil⟩
    [.save [2] ⟨[], Seq.zero⟩] (by simp [EntryFits, DBFormat.Fits, stored]) 1 inOrder inOrder
    inOrder
    [.save [3] [5] Seq.zero] [] (fun key rec h => by cases h)
    (by simp [Op.Fits, DBFormat.Fits, stored]) (by simp)
    (fun _ => Or.inr (Or.inl (by decide +kernel))) [3]

lemma deserializeRecord_zeros (F : Flate) (m : ℕ) (rest : Bytes) :
    deserializeRecord F (leBytes 4 recMagic ++ (leBytes 4 0 ++
      (replicate (8 + (4 + m)) 0 ++ rest))) =
      .ok (([], [], 0), replicate m 0 ++ rest) := by
  have h8 : replicate 8 (0 : UInt8) = leBytes 8 0 := by decide
  have h4 : replicate 4 (0 : UInt8) = leBytes 4 0 := by decide
  rw [replicate_add, replicate_add, h8, h4, append_assoc, append_assoc]
  unfold deserializeRecord
  rw [readNumber_append (v := recMagic) (by decide)]
  simp only [Bind.bind, Except.bind, ne_eq, not_true_eq_false, if_false]
  rw [readNumber_append (v := 0) (by decide)]
  have hkey := fun bs => readFull_append [] bs
  simp only [nil_append, length_nil] at hkey
  simp only [hkey]
  rw [readNumber_append (v := 0) (by decide)]
  simp only
  rw [if_neg (by decide), deserializeValue, readNumber_append (v := 0) (by decide)]
  rfl

lemma deserializeRecord_zero (F : Flate) (m : ℕ) (rest : Bytes) :
    deserializeRecord F (replicate (4 + m) 0 ++ rest) = .error (.badRecord 0) := by
  have h4 : replicate 4 (0 : UInt8) = leBytes 4 0 := by decide
  rw [replicate_add, h4, append_assoc, deserializeRecord, readNumber_append (v := 0) (by decide)]
  rfl

lemma run_save_flush (key : Bytes) :
    (run stored (Store.openFile stored inOrder []) [.save key [] Seq.zero]).flush stored inOrder =
      ⟨0, AList.insert key ⟨[], Seq.zero⟩ ∅, 1, none,
        serializeHeader 0 ++ serializeRecord stored key [] 0⟩ := by
  have hop : Store.openFile stored inOrder [] = ⟨0, ∅, 0, none, serializeHeader 0⟩ := rfl
  have hsv : run stored (Store.openFile stored inOrder []) [.save key [] Seq.zero] =
      ⟨0, AList.insert key ⟨[], Seq.zero⟩ ∅, 1, some (serializeRecord stored key [] 0),
        serializeHeader 0⟩ := by
    rw [hop, run, foldl_cons, foldl_nil, step, Store.save, if_neg (by simp)]
    rfl
  rw [hsv, Store.flush, if_neg (by simp [Store.outdated])]

variable {m n : ℕ}

lemma zeros_not_found (hn : n = 8 + (4 + (4 + m))) (hwr : leBytes 4 n = leBytes 4 0) :
    let key : Bytes := replicate n 0
    let db := (run stored (Store.openFile stored inOrder [])
      [.save key [] Seq.zero]).flush stored inOrder
    db.records.lookup key = some ⟨[], Seq.zero⟩ ∧
      (Store.openFile stored inOrder db.file).records.lookup key = none := by
  intro key db
  have hlen : key.length = n := length_replicate
  have hdb : db = _ := run_save_flush key
  have hrec : serializeRecord stored key [] 0 = leBytes 4 recMagic ++ (leBytes 4 0 ++
      (replicate (8 + (4 + (4 + m))) 0 ++ (leBytes 8 0 ++ leBytes 4 0))) := by
    rw [serializeRecord, if_neg (by decide), hlen, hwr, ← hn]
    simp only [append_assoc]
    rfl
  obtain ⟨fuel, hfl⟩ : ∃ k, (serializeRecord stored key [] 0).length = k + 2 := by
    refine ⟨(serializeRecord stored key [] 0).length - 2, ?_⟩
    rw [hrec]
    simp only [length_append, Words.length_leBytes]
    omega
  have hrd : deserializeDB stored db.file = (0, AList.insert [] ⟨[], Seq.zero⟩ ∅, 1) := by
    rw [hdb, deserializeDB, deserializeHeader_append]
    simp only
    rw [hfl, hrec, deserializeRecords, deserializeRecord_zeros]
    simp only
    rw [deserializeRecords, deserializeRecord_zero]
    rfl
  have hne : key ≠ [] := by
    rw [← length_pos_iff, hlen, hn]
    omega
  constructor
  · rw [hdb]
    exact AList.lookup_insert _
  · rw [records_openFile, Store.read, hrd]
    exact AList.lookup_insert_ne hne

/-- **A key with a length of more than 32 bits is not found again.** Its length is written as 0,
and the key that is read is empty. -/
theorem long_key_not_found :
    let key : Bytes := replicate (2 ^ 32) 0
    let db := (run stored (Store.openFile stored inOrder [])
      [.save key [] Seq.zero]).flush stored inOrder
    db.records.lookup key = some ⟨[], Seq.zero⟩ ∧
      (Store.openFile stored inOrder db.file).records.lookup key = none :=
  zeros_not_found (m := 2 ^ 32 - 16) (by norm_num) (by decide)

/-- **A torn tail hides what is written later.** The second record is cut after its first byte;
the third one is flushed after the file has been opened again, and is not found. -/
theorem torn_tail_hides_record :
    let base := ((run stored (Store.openFile stored inOrder [])
      [.save [1] [] Seq.zero]).flush stored inOrder).file
    let torn := tornFile stored base [.save [2] ⟨[], Seq.zero⟩] 1
    let db := run stored (Store.openFile stored inOrder torn)
      [.save [3] [] Seq.zero, .flush inOrder]
    (Store.openFile stored inOrder torn).records.lookup [1] = some ⟨[], Seq.zero⟩ ∧
      db.pending = none ∧ db.records.lookup [3] = some ⟨[], Seq.zero⟩ ∧
      (Store.openFile stored inOrder db.file).records.lookup [3] = none := by
  decide +kernel

end Razzer.DBFile
