import Razzer.Journal

/-!
The database of `pkg/db`.

The records are held in memory and mirrored in a file, which is a journal: a change is first
put into a buffer, and a flush appends the buffer to the file. When too many of the entries in
the file are outdated, the file is written anew from the records instead. A file is its version
and its entries here; how they are laid out in bytes is left out.
-/

namespace Razzer.Database

open Journal List

def seqDeleted : UInt64 := 0 - 1

abbrev Seq := { seq : UInt64 // seq ≠ seqDeleted }

def Seq.zero : Seq := ⟨0, by decide⟩

structure Record (V : Type*) where
  val : V
  seq : Seq
  deriving DecidableEq

abbrev Records (K V : Type*) := Table K (Record V)

structure File (K V : Type*) where
  version : UInt64
  log : List (Entry K (Record V))

variable {K V : Type*} [DecidableEq K]

/-- A database with its file. What is in the file and in the buffer gives the records. -/
structure DB (K V : Type*) [DecidableEq K] where
  version : UInt64
  records : Records K V
  uncompacted : ℕ
  pending : List (Entry K (Record V))
  file : File K V
  mirrored : Same (replay (file.log ++ pending)) records
  versioned : file.version = version

namespace DB

variable {log : List (Entry K (Record V))} {key : K}

lemma mirrored_snoc {rs : Records K V} (h : Same (replay log) rs) (e : Entry K (Record V)) :
    Same (replay (log ++ [e])) (e.apply rs) := by
  rw [replay_snoc]
  cases e with
  | save key rec => exact h.insert key rec
  | delete key => exact h.erase key

def compact (db : DB K V) : DB K V :=
  { db with
    uncompacted := db.records.entries.length
    pending := []
    file := ⟨db.version, dump db.records⟩
    mirrored := by
      rw [append_nil]
      exact same_replay_dump db.records
    versioned := rfl }

def ofRecords (version : UInt64) (records : Records K V) : DB K V where
  version := version
  records := records
  uncompacted := records.entries.length
  pending := []
  file := ⟨version, dump records⟩
  mirrored := by
    rw [append_nil]
    exact same_replay_dump records
  versioned := rfl

def openFile (file : File K V) : DB K V :=
  let db : DB K V :=
    { version := file.version
      records := replay file.log
      uncompacted := file.log.length
      pending := []
      file := file
      mirrored := by
        rw [append_nil]
        exact fun _ => rfl
      versioned := rfl }
  if db.records.entries.length = 0 ∨ db.uncompacted / 10 * 9 > db.records.entries.length then
    db.compact
  else db

def save [DecidableEq V] (db : DB K V) (key : K) (val : V) (seq : Seq) : DB K V :=
  if db.records.lookup key = some ⟨val, seq⟩ then db
  else
    { db with
      records := db.records.insert key ⟨val, seq⟩
      pending := db.pending ++ [.save key ⟨val, seq⟩]
      uncompacted := db.uncompacted + 1
      mirrored := by
        rw [← append_assoc]
        exact mirrored_snoc db.mirrored (.save key ⟨val, seq⟩) }

def delete (db : DB K V) (key : K) : DB K V :=
  if key ∈ db.records then
    { db with
      records := db.records.erase key
      pending := db.pending ++ [.delete key]
      uncompacted := db.uncompacted + 1
      mirrored := by
        rw [← append_assoc]
        exact mirrored_snoc db.mirrored (.delete key) }
  else db

def deleteAll (db : DB K V) (keys : List K) : DB K V := keys.foldl delete db

def flush (db : DB K V) : DB K V :=
  if db.uncompacted / 10 * 9 > db.records.entries.length then db.compact
  else if db.pending = [] then db
  else
    { db with
      pending := []
      file := ⟨db.file.version, db.file.log ++ db.pending⟩
      mirrored := by
        rw [append_nil]
        exact db.mirrored }

/-- The records may be walked in another order at any time. -/
def reorder (db : DB K V) (records : Records K V)
    (h : records.entries.Perm db.records.entries) : DB K V :=
  { db with
    records := records
    mirrored := db.mirrored.trans (same_of_perm h).symm }

def onDisk (db : DB K V) (key : K) : Option (Record V) := (replay db.file.log).lookup key

/-! ### In memory -/

lemma lookup_save [DecidableEq V] (db : DB K V) (key : K) (val : V) (seq : Seq) (k : K) :
    (db.save key val seq).records.lookup k =
      if k = key then some ⟨val, seq⟩ else db.records.lookup k := by
  unfold save
  split
  case isTrue h =>
    split
    · rwa [‹k = key›]
    · rfl
  case isFalse h => exact lookup_insert_eq ..

lemma lookup_delete (db : DB K V) (key k : K) :
    (db.delete key).records.lookup k = if k = key then none else db.records.lookup k := by
  unfold delete
  split
  case isTrue h => exact lookup_erase_eq ..
  case isFalse h =>
    split
    · rw [‹k = key›]
      exact AList.lookup_eq_none.2 h
    · rfl

lemma lookup_deleteAll (db : DB K V) (keys : List K) (k : K) :
    (db.deleteAll keys).records.lookup k = if k ∈ keys then none else db.records.lookup k := by
  induction keys generalizing db with
  | nil => simp [deleteAll]
  | cons key keys ih =>
    rw [deleteAll, foldl_cons, ← deleteAll, ih, lookup_delete]
    by_cases hk : k = key
    · simp [hk]
    · simp [hk, mem_cons]

@[simp] lemma records_flush (db : DB K V) : db.flush.records = db.records := by
  unfold flush compact
  split
  · rfl
  · split <;> rfl

@[simp] lemma records_openFile (file : File K V) :
    (openFile file).records = replay file.log := by
  simp only [openFile, compact]
  split <;> rfl

/-! ### On disk -/

@[simp] lemma onDisk_delete (db : DB K V) (key k : K) : (db.delete key).onDisk k = db.onDisk k := by
  unfold delete onDisk
  split <;> rfl

variable {db : DB K V} {k : K}

lemma onDisk_of_pending (h : db.pending = []) (k : K) : db.onDisk k = db.records.lookup k := by
  have hm := db.mirrored
  rw [h, append_nil] at hm
  exact hm k

@[simp] lemma pending_flush (db : DB K V) : db.flush.pending = [] := by
  unfold flush compact
  split
  · rfl
  · split
    · assumption
    · rfl

@[simp] lemma pending_openFile (file : File K V) : (openFile file).pending = [] := by
  simp only [openFile, compact]
  split <;> rfl

/-- **A flush puts the records into the file.** -/
theorem onDisk_flush (db : DB K V) (k : K) : db.flush.onDisk k = db.records.lookup k := by
  rw [onDisk_of_pending db.pending_flush, records_flush]

theorem onDisk_openFile (file : File K V) (k : K) :
    (openFile file).onDisk k = (replay file.log).lookup k := by
  rw [onDisk_of_pending (pending_openFile file), records_openFile]

/-! ### Keys in memory and on disk -/

def Held (db : DB K V) (k : K) : Prop := (db.records.lookup k).isSome

def Stored (db : DB K V) (k : K) : Prop := (db.onDisk k).isSome

lemma held_save [DecidableEq V] {val : V} {seq : Seq} :
    (db.save key val seq).Held k ↔ k = key ∨ db.Held k := by
  unfold Held
  rw [lookup_save]
  split
  · simp [*]
  · simp [*]

lemma held_delete : (db.delete key).Held k ↔ k ≠ key ∧ db.Held k := by
  unfold Held
  rw [lookup_delete]
  split
  · simp [*]
  · simp [*]

lemma held_flush : db.flush.Held k ↔ db.Held k := by
  rw [Held, records_flush, Held]

lemma stored_flush : db.flush.Stored k ↔ db.Held k := by
  rw [Stored, onDisk_flush, Held]

lemma stored_delete : (db.delete key).Stored k ↔ db.Stored k := by
  rw [Stored, onDisk_delete, Stored]

lemma held_openFile {file : File K V} :
    (openFile file).Held k ↔ ((replay file.log).lookup k).isSome := by
  rw [Held, records_openFile]

lemma stored_openFile {file : File K V} :
    (openFile file).Stored k ↔ ((replay file.log).lookup k).isSome := by
  rw [Stored, onDisk_openFile]

end DB

end Razzer.Database
