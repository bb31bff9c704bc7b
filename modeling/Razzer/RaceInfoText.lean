import Razzer.Runes
import Razzer.Scanf

/-!
The text of a race info, of `raceinfo.go`: how it is printed and how it is scanned again.

A string of the source is a list of bytes, and `fmt.Sscanf` reads the characters of it. A location
is stored in the likely database and sent to the fuzzers in this form. Every race info with
locations that a scan can tell apart is scanned without a panic, and all of it but the locations
comes back as it was. A location comes back as what was read of it, which is the location itself if
it is valid UTF-8 and another text if it is not.
-/

namespace Razzer.RaceInfoText

open Scanf Runes Digits Nat UInt32 List

abbrev GoString := List UInt8

structure RaceInfo where
  cov : UInt32 × UInt32
  addr : UInt32 × UInt32
  idx : Int64 × Int64
  sched : Int64
  hash : UInt64
  mempair : GoString × GoString
  deriving DecidableEq

/-! ### Printing -/

def label (name : String) : List Char := name.toList ++ [' ']

def separator (name : String) : List Char := [' ', ',', ' '] ++ label name

/-- `Cov %x , Addr %x , Idx %d`. -/
def covText (cov addr : UInt32) (idx : Int64) : List Char :=
  label "Cov" ++ (toDigits 16 cov.toNat ++ (separator "Addr" ++
    (toDigits 16 addr.toNat ++ (separator "Idx" ++ decText idx.toInt))))

/-- `Loc0 %s , Loc1 %s`. -/
def locLine (loc0 loc1 : GoString) : GoString :=
  encode (label "Loc0") ++ (loc0 ++ (encode (separator "Loc1") ++ loc1))

namespace MempairHash

def toString (hash : UInt64) : List Char := toDigits 16 hash.toNat

end MempairHash

/-- `Hash %s , Sched %d`. -/
def hashText (hash : UInt64) (sched : Int64) : List Char :=
  label "Hash" ++ (MempairHash.toString hash ++ (separator "Sched" ++ decText sched.toInt))

def newline : UInt8 := 10

def RaceInfo.toBytes (raceInfo : RaceInfo) : GoString :=
  encode (covText raceInfo.cov.1 raceInfo.addr.1 raceInfo.idx.1) ++ [newline] ++
  (encode (covText raceInfo.cov.2 raceInfo.addr.2 raceInfo.idx.2) ++ [newline]) ++
  (locLine raceInfo.mempair.1 raceInfo.mempair.2 ++ [newline]) ++
  (encode (hashText raceInfo.hash raceInfo.sched) ++ [newline])

/-! ### Scanning -/

inductive Fault
  | index
  | scan (e : Scanf.Fault)
  deriving DecidableEq

def index {α : Type} (xs : List α) (i : ℕ) : Except Fault α :=
  match xs[i]? with
  | some x => .ok x
  | none => .error .index

def sscanf {α : Type} (format : Scan α) (s : GoString) : Except Fault α :=
  match format (runes s) with
  | .ok (a, _) => .ok a
  | .error e => .error (.scan e)

def scanLabel (name : String) : Scan Unit := do
  literal name.toList
  blank

def scanSeparator (name : String) : Scan Unit := do
  blank
  literal [',']
  blank
  scanLabel name

def scanCov : Scan (ℕ × ℕ × ℤ) := do
  scanLabel "Cov"
  let cov ← hex 32
  scanSeparator "Addr"
  let addr ← hex 32
  scanSeparator "Idx"
  let idx ← dec
  pure (cov, addr, idx)

def scanLocs : Scan (List Char × List Char) := do
  scanLabel "Loc0"
  let loc0 ← word
  scanSeparator "Loc1"
  let loc1 ← word
  pure (loc0, loc1)

def scanHash : Scan (List Char × ℤ) := do
  scanLabel "Hash"
  let hashStr ← word
  scanSeparator "Sched"
  let sched ← dec
  pure (hashStr, sched)

def comma : UInt8 := 44

/-- What is left of a text that ends in a comma. The slice is up to its length, so it is the
text. -/
def trimComma (s : GoString) : Except Fault GoString :=
  match s.getLast? with
  | none => .error .index
  | some b => .ok (if b = comma then s.take s.length else s)

/-- The error of the scan is not looked at: the hash is then zero. -/
def getMempairHashFromHashStr (hashStr : GoString) : UInt64 :=
  match sscanf (hex 64) hashStr with
  | .ok hashVal => UInt64.ofNat hashVal
  | .error _ => 0

def fromBytes (bytes : GoString) : Except Fault RaceInfo := do
  let strs := bytes.splitOn newline
  let (cov0, addr0, idx0) ← index strs 0 >>= sscanf scanCov
  let (cov1, addr1, idx1) ← index strs 1 >>= sscanf scanCov
  let (loc0, loc1) ← index strs 2 >>= sscanf scanLocs
  let loc0 ← trimComma (encode loc0)
  let (hashStr, sched) ← index strs 3 >>= sscanf scanHash
  let hashStr ← trimComma (encode hashStr)
  pure
    { cov := (ofNat cov0, ofNat cov1)
      addr := (ofNat addr0, ofNat addr1)
      idx := (Int64.ofInt idx0, Int64.ofInt idx1)
      sched := Int64.ofInt sched
      hash := getMempairHashFromHashStr hashStr
      mempair := (loc0, encode loc1) }

/-! ### The pieces of a line -/

abbrev Solid (text : List Char) : Prop := Begins (fun c => !isSpace c) text

variable {rest : List Char} {loc s : GoString}

lemma reads_label (name : String) (h : Solid rest) :
    Reads (scanLabel name) (label name ++ rest) () rest := by
  rw [label, append_assoc]
  exact (reads_literal name.toList (' ' :: rest)).bind (reads_blank h)

variable {name : String} {p : Char → Bool} {b : ℕ} {loc0 loc1 : GoString}

lemma reads_separator (hnm : Solid (label name)) (h : Solid rest) :
    Reads (scanSeparator name) (separator name ++ rest) () rest := by
  have hlb : Solid (label name ++ rest) := by
    rw [label, append_assoc] at *
    cases hcs : name.toList with
    | nil =>
      rw [hcs] at hnm
      exact absurd (hnm ' ' rfl) (by decide)
    | cons c cs =>
      rw [hcs] at hnm
      exact begins_cons (hnm c rfl) _
  have hcm : Solid (',' :: ' ' :: (label name ++ rest)) := begins_cons (by decide) _
  refine (reads_blank hcm).bind ?_
  refine (reads_literal [','] (' ' :: (label name ++ rest))).bind ?_
  exact (reads_blank hlb).bind (reads_label name h)

lemma begins_separator (h : p ' ') (name : String) (rest : List Char) :
    Begins p (separator name ++ rest) :=
  begins_cons h _

lemma solid_toDigits (hb : 1 < b) (hb' : b ≤ 16) (n : ℕ) (rest : List Char) :
    Solid (toDigits b n ++ rest) := by
  obtain ⟨c, cs, hcs, hc⟩ := exists_cons_toDigits hb hb' n
  rw [hcs]
  exact begins_cons (by simp [hc]) _

lemma solid_decText (z : ℤ) : Solid (decText z) := by
  cases z with
  | ofNat n =>
    have h := solid_toDigits (b := 10) (by omega) (by omega) n []
    rwa [append_nil] at h
  | negSucc n => exact begins_cons (by decide) _

lemma reads_decText (z : Int64) : Reads dec (decText z.toInt) z.toInt [] := by
  have hend : Begins (fun c => !isDec c) [] := by simp [Begins]
  have h := reads_dec ⟨z.le_toInt, z.toInt_lt⟩ hend
  rwa [append_nil] at h

/-! ### The lines -/

lemma reads_covText (cov addr : UInt32) (idx : Int64) :
    Reads scanCov (covText cov addr idx) (cov.toNat, addr.toNat, idx.toInt) [] := by
  have hnm : Solid (label "Addr") ∧ Solid (label "Idx") :=
    ⟨begins_cons (by decide) _, begins_cons (by decide) _⟩
  refine (reads_label "Cov" (solid_toDigits (by omega) le_rfl _ _)).bind ?_
  refine (reads_hex cov.toNat_lt (begins_separator (by decide) "Addr" _)).bind ?_
  refine (reads_separator hnm.1 (solid_toDigits (by omega) le_rfl _ _)).bind ?_
  refine (reads_hex addr.toNat_lt (begins_separator (by decide) "Idx" _)).bind ?_
  refine (reads_separator hnm.2 (solid_decText _)).bind ?_
  exact (reads_decText idx).bind (reads_pure _ [])

lemma reads_hashText (hash : UInt64) (sched : Int64) :
    Reads scanHash (hashText hash sched) (MempairHash.toString hash, sched.toInt) [] := by
  have hsp := forall_mem_toDigits (b := 16) (by omega) (p := fun c => isSpace c = false)
    (by decide) hash.toNat
  refine (reads_label "Hash" (solid_toDigits (by omega) le_rfl _ _)).bind ?_
  refine (reads_word toDigits_ne_nil hsp (begins_separator (by decide) "Sched" _)).bind ?_
  refine (reads_separator (begins_cons (by decide) _) (solid_decText _)).bind ?_
  exact (reads_decText sched).bind (reads_pure _ [])

/-- A location that is not empty and has no white space in it. -/
structure Plain (loc : GoString) : Prop where
  nonempty : loc ≠ []
  noSpace : ∀ c ∈ runes loc, isSpace c = false

lemma Plain.solid (h : Plain loc) (rest : List Char) : Solid (runes loc ++ rest) :=
  begins_append (runes_ne_nil h.nonempty) (by simpa using h.noSpace) rest

lemma runes_locLine (loc0 loc1 : GoString) :
    runes (locLine loc0 loc1) =
      label "Loc0" ++ (runes loc0 ++ (separator "Loc1" ++ runes loc1)) := by
  have hap : Apart (encode (separator "Loc1") ++ loc1) := by
    intro b hb
    rw [← Option.some.inj hb]
    decide
  rw [locLine, runes_encode_append, runes_append loc0 hap, runes_encode_append]

lemma reads_locLine (h0 : Plain loc0) (h1 : Plain loc1) :
    Reads scanLocs (runes (locLine loc0 loc1)) (runes loc0, runes loc1) [] := by
  have hend : Reads word (runes loc1) (runes loc1) [] := by
    have hnil : Begins isSpace [] := by simp [Begins]
    have h := reads_word (runes_ne_nil h1.nonempty) h1.noSpace hnil
    rwa [append_nil] at h
  have hsl : Solid (runes loc1) := by
    have h := h1.solid []
    rwa [append_nil] at h
  rw [runes_locLine]
  refine (reads_label "Loc0" (h0.solid _)).bind ?_
  refine (reads_word (runes_ne_nil h0.nonempty) h0.noSpace
    (begins_separator (by decide) "Loc1" _)).bind ?_
  refine (reads_separator (begins_cons (by decide) _) hsl).bind ?_
  exact hend.bind (reads_pure _ [])

lemma sscanf_of_reads {α : Type} {format : Scan α} {a : α} (h : Reads format (runes s) a rest) :
    sscanf format s = .ok a := by
  rw [sscanf, h]

lemma sscanf_encode {α : Type} {format : Scan α} {text : List Char} {a : α}
    (h : Reads format text a rest) : sscanf format (encode text) = .ok a := by
  rw [← runes_encode text] at h
  exact sscanf_of_reads h

/-! ### Splitting into lines -/

lemma newline_notMem (h : '\n' ∉ runes s) : newline ∉ s :=
  fun hmem => h (mem_runes_of_mem (c := '\n') (by decide) hmem)

lemma newline_notMem_toDigits (hb : 1 < b) (hb' : b ≤ 16) (n : ℕ) : '\n' ∉ toDigits b n := by
  have hdg : ∀ d < 16, digitChar d ≠ '\n' := by decide
  intro hmem
  exact forall_mem_toDigits hb (p := fun c => c ≠ '\n')
    (fun d hd => hdg d (hd.trans_le hb')) n _ hmem rfl

lemma newline_notMem_decText (z : ℤ) : '\n' ∉ decText z := by
  cases z with
  | ofNat n => exact newline_notMem_toDigits (by omega) (by omega) n
  | negSucc n =>
    intro hmem
    rcases List.mem_cons.1 hmem with h | h
    · exact absurd h (by decide)
    · exact newline_notMem_toDigits (by omega) (by omega) (n + 1) h

lemma Plain.newline_notMem (h : Plain loc) : '\n' ∉ runes loc :=
  fun hmem => absurd (h.noSpace _ hmem) (by decide)

lemma newline_notMem_covText (cov addr : UInt32) (idx : Int64) :
    newline ∉ encode (covText cov addr idx) := by
  refine RaceInfoText.newline_notMem ?_
  rw [runes_encode]
  simp [covText, newline_notMem_toDigits, newline_notMem_decText, label, separator]

lemma newline_notMem_hashText (hash : UInt64) (sched : Int64) :
    newline ∉ encode (hashText hash sched) := by
  refine RaceInfoText.newline_notMem ?_
  rw [runes_encode]
  simp [hashText, MempairHash.toString, newline_notMem_toDigits, newline_notMem_decText, label,
    separator]

lemma newline_notMem_locLine (h0 : Plain loc0) (h1 : Plain loc1) : newline ∉ locLine loc0 loc1 := by
  refine RaceInfoText.newline_notMem ?_
  rw [runes_locLine]
  simp [h0.newline_notMem, h1.newline_notMem, label, separator]

/-- The lines of the text. Behind the last newline there is an empty one. -/
def RaceInfo.lines (raceInfo : RaceInfo) : List GoString :=
  [encode (covText raceInfo.cov.1 raceInfo.addr.1 raceInfo.idx.1),
    encode (covText raceInfo.cov.2 raceInfo.addr.2 raceInfo.idx.2),
    locLine raceInfo.mempair.1 raceInfo.mempair.2,
    encode (hashText raceInfo.hash raceInfo.sched), []]

lemma splitOn_toBytes {raceInfo : RaceInfo} (h0 : Plain raceInfo.mempair.1)
    (h1 : Plain raceInfo.mempair.2) : raceInfo.toBytes.splitOn newline = raceInfo.lines := by
  have hby : raceInfo.toBytes = [newline].intercalate raceInfo.lines := by
    simp [RaceInfo.toBytes, RaceInfo.lines, intercalate]
  rw [hby]
  refine splitOn_intercalate newline (fun line hln => ?_) (cons_ne_nil _ _)
  simp only [RaceInfo.lines, mem_cons, not_mem_nil, or_false] at hln
  rcases hln with rfl | rfl | rfl | rfl | rfl
  · exact newline_notMem_covText _ _ _
  · exact newline_notMem_covText _ _ _
  · exact newline_notMem_locLine h0 h1
  · exact newline_notMem_hashText _ _
  · exact not_mem_nil

/-! ### The round trip -/

lemma trimComma_eq (h : s ≠ []) : trimComma s = .ok s := by
  rw [trimComma, getLast?_eq_some_getLast h]
  simp

lemma getMempairHashFromHashStr_toString (hash : UInt64) :
    getMempairHashFromHashStr (encode (MempairHash.toString hash)) = hash := by
  have hend : Begins (fun c => !isHex c) [] := by simp [Begins]
  have h := reads_hex hash.toNat_lt hend
  rw [append_nil] at h
  rw [getMempairHashFromHashStr, MempairHash.toString, sscanf_encode h]
  exact UInt64.ofNat_toNat

def reread (s : GoString) : GoString := encode (runes s)

lemma fromBytes_toBytes {raceInfo : RaceInfo} (h0 : Plain raceInfo.mempair.1)
    (h1 : Plain raceInfo.mempair.2) :
    fromBytes raceInfo.toBytes =
      .ok { raceInfo with
        mempair := (reread raceInfo.mempair.1, reread raceInfo.mempair.2) } := by
  have hloc : trimComma (encode (runes raceInfo.mempair.1)) = .ok (reread raceInfo.mempair.1) :=
    trimComma_eq (encode_ne_nil (runes_ne_nil h0.nonempty))
  have hhs : trimComma (encode (MempairHash.toString raceInfo.hash)) =
      .ok (encode (MempairHash.toString raceInfo.hash)) :=
    trimComma_eq (encode_ne_nil toDigits_ne_nil)
  unfold fromBytes
  rw [splitOn_toBytes h0 h1]
  simp only [RaceInfo.lines, index, getElem?_cons_zero, getElem?_cons_succ, bind,
    Except.bind, sscanf_encode (reads_covText _ _ _), sscanf_of_reads (reads_locLine h0 h1), hloc,
    sscanf_encode (reads_hashText _ _), hhs, getMempairHashFromHashStr_toString, pure,
    Except.pure, UInt32.ofNat_toNat, Int64.ofInt_toInt, reread]

/-- **A race info is scanned from its own text.** For locations that are not empty and have no
white space there is no panic, and the race info is the one that was printed exactly if both
locations are valid UTF-8. -/
theorem fromBytes_toBytes_eq_iff (raceInfo : RaceInfo) (h0 : Plain raceInfo.mempair.1)
    (h1 : Plain raceInfo.mempair.2) :
    ∃ scanned, fromBytes raceInfo.toBytes = .ok scanned ∧
      (scanned = raceInfo ↔ Valid raceInfo.mempair.1 ∧ Valid raceInfo.mempair.2) := by
  refine ⟨_, fromBytes_toBytes h0 h1, ?_⟩
  rw [← valid_iff, ← valid_iff]
  obtain ⟨cov, addr, idx, sched, hash, loc0, loc1⟩ := raceInfo
  simp [reread]

def ascii (s : String) : GoString := encode s.toList

def netRace : RaceInfo :=
  { cov := (0x1234, 0xffffffff), addr := (0xdead, 0), idx := (-1, 5), sched := -9223372036854775808
    hash := 0xcbf29ce484222325, mempair := (ascii "net/foo.c:10:0", ascii "net/bar.c:21:0,") }

lemma plain_of_runes (h : loc ≠ [] ∧ (runes loc).all fun c => !isSpace c) : Plain loc :=
  ⟨h.1, by simpa using h.2⟩

theorem fromBytes_toBytes_netRace : fromBytes netRace.toBytes = .ok netRace := by
  obtain ⟨scanned, hsc, hiff⟩ := fromBytes_toBytes_eq_iff netRace
    (plain_of_runes (by decide +kernel)) (plain_of_runes (by decide +kernel))
  rw [hsc, hiff.2 ⟨⟨_, rfl⟩, ⟨_, rfl⟩⟩]

/-- A race info with a location that ends in a byte at which no character begins. -/
def latinRace : RaceInfo :=
  { netRace with mempair := (ascii "net/foo" ++ [0xff], ascii "net/bar.c:21:0") }

/-- The byte is read as the replacement character, which is written as three bytes. -/
theorem invalid_location_changed :
    Plain latinRace.mempair.1 ∧ Plain latinRace.mempair.2 ∧
      fromBytes latinRace.toBytes = .ok { latinRace with
        mempair := (ascii "net/foo" ++ [0xef, 0xbf, 0xbd], ascii "net/bar.c:21:0") } ∧
      fromBytes latinRace.toBytes ≠ .ok latinRace := by
  refine ⟨plain_of_runes (by decide +kernel), plain_of_runes (by decide +kernel), ?_, ?_⟩
  · decide +kernel
  · decide +kernel

end Razzer.RaceInfoText
