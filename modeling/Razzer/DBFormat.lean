import Razzer.Database
import Razzer.Words

/-!
The bytes of a database file.

A file is a header and a sequence of records. There is nothing between them and nothing says how
many there are, so a reader goes on until the bytes end or are not a record. Lengths have 32 bits:
longer keys and values are written in full, with the lowest bits of their length before them.
-/

namespace Razzer.DBFormat

open Journal Database Words List

abbrev Bytes := List UInt8

/-- `compress/flate`. A stream is read from its first bytes and with a limit on how many of them
may be used; there is no more to it than that a compressed value can be read back. -/
structure Flate where
  compress : Bytes → Bytes
  inflate : ℕ → Bytes → Option (Bytes × Bytes)
  inflate_compress : ∀ val rest,
    inflate (compress val).length (compress val ++ rest) = some (val, rest)
  compress_ne_nil : ∀ val, compress val ≠ []
  inflate_le : ∀ {limit bs val rest}, inflate limit bs = some (val, rest) → rest.length ≤ bs.length

/-! ### Writing -/

def dbMagic : ℕ := 0xbaddb
def recMagic : ℕ := 0xfee1bad
def curVersion : ℕ := 2

def serializeHeader (version : UInt64) : Bytes :=
  leBytes 4 dbMagic ++ leBytes 4 curVersion ++ leBytes 8 version.toNat

section Serialize

variable (F : Flate)

def serializeRecord (key val : Bytes) (seq : UInt64) : Bytes :=
  leBytes 4 recMagic ++ leBytes 4 key.length ++ key ++ leBytes 8 seq.toNat ++
    if seq = seqDeleted then []
    else if val.length = 0 then leBytes 4 val.length
    else leBytes 4 (F.compress val).length ++ F.compress val

def entryBytes : Entry Bytes (Record Bytes) → Bytes
  | .save key rec => serializeRecord F key rec.val rec.seq
  | .delete key => serializeRecord F key [] seqDeleted

end Serialize

/-! ### Reading -/

inductive ReadError
  | eof
  | unexpectedEOF
  | badHeader (magic : ℕ)
  | badVersion (ver : ℕ)
  | badRecord (magic : ℕ)
  | badValue
  deriving DecidableEq

def readFull (n : ℕ) (bs : Bytes) : Except ReadError (Bytes × Bytes) :=
  if n ≤ bs.length then .ok (bs.take n, bs.drop n)
  else if bs.length = 0 then .error .eof
  else .error .unexpectedEOF

def readNumber (n : ℕ) (bs : Bytes) : Except ReadError (ℕ × Bytes) :=
  (readFull n bs).map fun r => (ofLe r.1, r.2)

/-- An empty file has no header and is of version 0. -/
def deserializeHeader (bs : Bytes) : Except ReadError (UInt64 × Bytes) :=
  match readNumber 4 bs with
  | .error .eof => .ok (0, bs)
  | .error e => .error e
  | .ok (magic, bs) =>
    if magic ≠ dbMagic then .error (.badHeader magic)
    else do
      let (ver, bs) ← readNumber 4 bs
      if ver = 0 ∨ ver > curVersion then .error (.badVersion ver)
      else if ver ≥ 2 then do
        let (userVer, bs) ← readNumber 8 bs
        return (UInt64.ofNat userVer, bs)
      else return (0, bs)

section Deserialize

variable (F : Flate)

def deserializeValue (bs : Bytes) : Except ReadError (Bytes × Bytes) := do
  let (valLen, bs) ← readNumber 4 bs
  if valLen ≠ 0 then
    match F.inflate valLen bs with
    | none => .error .badValue
    | some (val, bs) => return (val, bs)
  else return ([], bs)

def deserializeRecord (bs : Bytes) : Except ReadError ((Bytes × Bytes × UInt64) × Bytes) := do
  let (magic, bs) ← readNumber 4 bs
  if magic ≠ recMagic then .error (.badRecord magic)
  else do
    let (keyLen, bs) ← readNumber 4 bs
    let (key, bs) ← readFull keyLen bs
    let (seq, bs) ← readNumber 8 bs
    let seq := UInt64.ofNat seq
    if seq = seqDeleted then return ((key, [], seq), bs)
    else do
      let (val, bs) ← deserializeValue F bs
      return ((key, val, seq), bs)

def toEntry (r : Bytes × Bytes × UInt64) : Entry Bytes (Record Bytes) :=
  if h : r.2.2 = seqDeleted then .delete r.1 else .save r.1 ⟨r.2.1, r.2.2, h⟩

/-- The loop of `deserializeDB`; the end of the file and an error end it in the same way. -/
def deserializeRecords : ℕ → Bytes → Records Bytes Bytes → ℕ → Records Bytes Bytes × ℕ
  | 0, _, records, uncompacted => (records, uncompacted)
  | fuel + 1, bs, records, uncompacted =>
    match deserializeRecord F bs with
    | .error _ => (records, uncompacted)
    | .ok (r, bs) =>
      deserializeRecords fuel bs ((toEntry r).apply records) (uncompacted + 1)

/-- `deserializeDB`: the version, the records and how many of them were read. Every record has some
bytes, so there are not more records than bytes. -/
def deserializeDB (bs : Bytes) : UInt64 × Records Bytes Bytes × ℕ :=
  match deserializeHeader bs with
  | .error _ => (0, ∅, 0)
  | .ok (version, bs) => (version, deserializeRecords F bs.length bs ∅ 0)

end Deserialize

/-! ### What is written can be read -/

lemma readFull_append (xs rest : Bytes) : readFull xs.length (xs ++ rest) = .ok (xs, rest) := by
  rw [readFull, if_pos (by rw [length_append]; exact Nat.le_add_right _ _), take_left', drop_left']
  · rfl
  · rfl

variable {fuel n v : ℕ} {key rest val : Bytes} {seq : UInt64} {e : Entry Bytes (Record Bytes)}
  {file : File Bytes Bytes}

lemma readNumber_append (hv : v < 256 ^ n) (rest : Bytes) :
    readNumber n (leBytes n v ++ rest) = .ok (v, rest) := by
  have h := readFull_append (leBytes n v) rest
  rw [length_leBytes] at h
  rw [readNumber, h, Except.map, ofLe_leBytes, Nat.mod_eq_of_lt hv]

def Fits (F : Flate) (key val : Bytes) : Prop :=
  key.length < 2 ^ 32 ∧ (F.compress val).length < 2 ^ 32

lemma deserializeHeader_append (ver : UInt64) (rest : Bytes) :
    deserializeHeader (serializeHeader ver ++ rest) = .ok (ver, rest) := by
  have hmg := readNumber_append (n := 4) (v := dbMagic) (by decide)
    (leBytes 4 curVersion ++ leBytes 8 ver.toNat ++ rest)
  have hver := readNumber_append (n := 4) (v := curVersion) (by decide)
    (leBytes 8 ver.toNat ++ rest)
  have hus := readNumber_append (n := 8) ver.toNat_lt rest
  rw [append_assoc] at hmg
  rw [deserializeHeader, serializeHeader, append_assoc, append_assoc, hmg]
  simp only [ne_eq, not_true_eq_false, if_false, hver, Bind.bind, Except.bind]
  rw [if_neg (by decide), if_pos (by decide), hus]
  simp only [UInt64.ofNat_toNat]
  rfl

section Records

variable {F : Flate}

lemma deserializeValue_append (hval : (F.compress val).length < 2 ^ 32) (rest : Bytes) :
    deserializeValue F ((if val.length = 0 then leBytes 4 val.length
      else leBytes 4 (F.compress val).length ++ F.compress val) ++ rest) = .ok (val, rest) := by
  unfold deserializeValue
  by_cases hnil : val.length = 0
  · rw [if_pos hnil, hnil, readNumber_append (by decide)]
    rw [List.length_eq_zero_iff.1 hnil]
    rfl
  · have hne : (F.compress val).length ≠ 0 := fun h =>
      F.compress_ne_nil val (List.length_eq_zero_iff.1 h)
    rw [if_neg hnil, append_assoc, readNumber_append hval]
    simp only [Bind.bind, Except.bind, ne_eq, hne, not_false_eq_true, if_true,
      F.inflate_compress val rest]
    rfl

/-- **A record is read back**, whatever follows it. -/
theorem deserializeRecord_append {val : List UInt8} (hkey : key.length < 2 ^ 32)
    (hval : seq = seqDeleted ∧ val = [] ∨ seq ≠ seqDeleted ∧ (F.compress val).length < 2 ^ 32)
    (rest : Bytes) :
    deserializeRecord F (serializeRecord F key val seq ++ rest) = .ok ((key, val, seq), rest) := by
  unfold serializeRecord deserializeRecord
  simp only [append_assoc]
  rw [readNumber_append (v := recMagic) (by decide)]
  simp only [Bind.bind, Except.bind, ne_eq, not_true_eq_false, if_false]
  rw [readNumber_append hkey]
  simp only
  rw [readFull_append]
  simp only
  rw [readNumber_append seq.toNat_lt]
  simp only [UInt64.ofNat_toNat]
  rcases hval with ⟨hseq, rfl⟩ | ⟨hseq, hval⟩
  · rw [if_pos hseq, if_pos hseq]
    rfl
  · rw [if_neg hseq, if_neg hseq, deserializeValue_append hval]
    rfl

def EntryFits (F : Flate) : Entry Bytes (Record Bytes) → Prop
  | .save key rec => Fits F key rec.val
  | .delete key => key.length < 2 ^ 32

/-- The bytes are a record with the change, whatever follows them. -/
def IsRecord (F : Flate) (e : Entry Bytes (Record Bytes)) (bs : Bytes) : Prop :=
  ∀ rest, ∃ r, deserializeRecord F (bs ++ rest) = .ok (r, rest) ∧ toEntry r = e

lemma isRecord_entryBytes (h : EntryFits F e) : IsRecord F e (entryBytes F e) := by
  intro rest
  cases e with
  | save key rec =>
    refine ⟨_, deserializeRecord_append h.1 (Or.inr ⟨rec.seq.2, h.2⟩) rest, ?_⟩
    exact dif_neg rec.seq.2
  | delete key =>
    exact ⟨_, deserializeRecord_append h (Or.inl ⟨rfl, rfl⟩) rest, dif_pos rfl⟩

/-- The bytes are records with the changes of a journal. -/
inductive Logs (F : Flate) : List (Entry Bytes (Record Bytes)) → Bytes → Prop
  | nil : Logs F [] []
  | cons {e : Entry Bytes (Record Bytes)} {es : List (Entry Bytes (Record Bytes))} {b bs : Bytes}
      (he : IsRecord F e b) (h : Logs F es bs) : Logs F (e :: es) (b ++ bs)

variable {bs bs' : Bytes} {es : List (Entry Bytes (Record Bytes))}

lemma Logs.append {es' : List (Entry Bytes (Record Bytes))} (h : Logs F es bs)
    (h' : Logs F es' bs') : Logs F (es ++ es') (bs ++ bs') := by
  induction h with
  | nil => exact h'
  | cons he _ ih =>
    rw [append_assoc]
    exact .cons he ih

lemma logs_entryBytes (h : ∀ e ∈ es, EntryFits F e) : Logs F es (es.flatMap (entryBytes F)) := by
  induction es with
  | nil => exact .nil
  | cons e es ih =>
    obtain ⟨he, hes⟩ := List.forall_mem_cons.1 h
    exact .cons (isRecord_entryBytes he) (ih hes)

/-! ### The loop -/

lemma length_of_readFull {xs : Bytes} (h : readFull n bs = .ok (xs, bs')) :
    bs'.length + n = bs.length := by
  unfold readFull at h
  split_ifs at h with hn
  cases h
  rw [length_drop]
  omega

lemma exists_of_bind {α β : Type} {x : Except ReadError α} {k : α → Except ReadError β} {b : β}
    (h : (x >>= k) = .ok b) : ∃ a, x = .ok a ∧ k a = .ok b := by
  cases x with
  | error e => cases h
  | ok a => exact ⟨a, rfl, h⟩

lemma length_of_readNumber {r : ℕ × Bytes} (h : readNumber n bs = .ok r) :
    r.2.length + n = bs.length := by
  unfold readNumber at h
  cases hrd : readFull n bs with
  | error e =>
    rw [hrd] at h
    cases h
  | ok r =>
    rw [hrd] at h
    cases h
    exact length_of_readFull hrd

lemma length_of_deserializeValue {r : Bytes × Bytes} (h : deserializeValue F bs = .ok r) :
    r.2.length ≤ bs.length := by
  obtain ⟨r1, hlen, h⟩ := exists_of_bind h
  have h1 := length_of_readNumber hlen
  simp only at h
  split_ifs at h with hzr
  · split at h
    · cases h
    case h_2 hinf =>
      cases h
      have h2 := F.inflate_le hinf
      dsimp only
      omega
  · cases h
    dsimp only
    omega

lemma length_of_deserializeRecord {r : Bytes × Bytes × UInt64}
    (h : deserializeRecord F bs = .ok (r, bs')) : bs'.length < bs.length := by
  obtain ⟨r1, hmg, h⟩ := exists_of_bind h
  have h1 := length_of_readNumber hmg
  simp only at h
  split_ifs at h
  obtain ⟨r2, hlen, h⟩ := exists_of_bind h
  have h2 := length_of_readNumber hlen
  obtain ⟨r3, hkey, h⟩ := exists_of_bind h
  have h3 := length_of_readFull hkey
  obtain ⟨r4, hseq, h⟩ := exists_of_bind h
  have h4 := length_of_readNumber hseq
  split_ifs at h
  · cases h
    omega
  · obtain ⟨r5, hval, h⟩ := exists_of_bind h
    have h5 := length_of_deserializeValue hval
    cases h
    omega

/-- The loop reads all records and stops behind them. It does not depend on the fuel, as there
are not more records than bytes. -/
lemma deserializeRecords_append (h : Logs F es bs) (hrs : ∀ r, deserializeRecord F rest ≠ .ok r)
    (hfl : (bs ++ rest).length ≤ fuel) (rs : Records Bytes Bytes) (n : ℕ) :
    deserializeRecords F fuel (bs ++ rest) rs n =
      (es.foldl Entry.apply rs, n + es.length) := by
  induction h generalizing fuel rs n with
  | nil =>
    cases fuel with
    | zero => rfl
    | succ fuel =>
      rw [nil_append, deserializeRecords]
      split
      · rfl
      case h_2 r hr => exact absurd hr (hrs _)
  | @cons e es b bs he _ ih =>
    obtain ⟨r, hr, rfl⟩ := he (bs ++ rest)
    rw [← append_assoc] at hr
    have hlt := length_of_deserializeRecord hr
    obtain ⟨fuel, rfl⟩ : ∃ m, fuel = m + 1 := ⟨fuel - 1, by omega⟩
    rw [deserializeRecords, hr]
    simp only
    rw [ih (by omega), foldl_cons, length_cons, Nat.add_assoc, Nat.add_comm 1]

lemma deserializeRecord_nil : ∀ r, deserializeRecord F [] ≠ .ok r := fun _ h => by cases h

/-! ### Files -/

def IsHeader (version : UInt64) (head : Bytes) : Prop :=
  ∀ rest, deserializeHeader (head ++ rest) = .ok (version, rest)

/-- A file with a header and the records of a journal, and nothing else. -/
def Holds (F : Flate) (bytes : Bytes) (file : File Bytes Bytes) : Prop :=
  ∃ head body, bytes = head ++ body ∧ IsHeader file.version head ∧ Logs F file.log body

/-- **What is read from a file** are the records of its journal. -/
theorem deserializeDB_of_holds {bytes : Bytes} (h : Holds F bytes file) :
    deserializeDB F bytes = (file.version, replay file.log, file.log.length) := by
  obtain ⟨head, body, rfl, hhd, hlg⟩ := h
  have hlp := deserializeRecords_append hlg deserializeRecord_nil le_rfl ∅ 0
  rw [append_nil] at hlp
  rw [deserializeDB, hhd body]
  simp only
  rw [hlp, Nat.zero_add, replay]

lemma Holds.append {bytes : Bytes} (h : Holds F bytes file)
    (hes : ∀ e ∈ es, EntryFits F e) :
    Holds F (bytes ++ es.flatMap (entryBytes F)) ⟨file.version, file.log ++ es⟩ := by
  obtain ⟨head, body, rfl, hhd, hlg⟩ := h
  exact ⟨head, _, append_assoc .., hhd, hlg.append (logs_entryBytes hes)⟩

lemma holds_new (ver : UInt64) (hes : ∀ e ∈ es, EntryFits F e) :
    Holds F (serializeHeader ver ++ es.flatMap (entryBytes F)) ⟨ver, es⟩ :=
  ⟨_, _, rfl, deserializeHeader_append ver, logs_entryBytes hes⟩

end Records

end Razzer.DBFormat
