import Razzer.Database
import Razzer.SyzManager
import Razzer.TextParser

/-!
The databases of the manager, of `managerdb.go`.

There are three of them: the corpus, the race corpus and the likely corpus. The last two are
pairs, of a database of programs and one of race infos under the same keys, and the corpus has
no second database. What each operation does up to the first flush and what it does
afterwards are functions of their own, since the process may stop in between. A pointer to a
database that is nil is `none`, and what ends the process is an `Abort`.
-/

namespace Razzer.ManagerDB

open Database SyzManager String
open TextParser (Stop panics)

/-- How the process ends: by `Fatalf`, by a panic, by a nil pointer that is dereferenced, by the
panic of `FromBytes` about a race info it cannot scan, or by a panic of `Deserialize`. -/
inductive Abort
  | fatal (text : String)
  | panic (text : String)
  | nilDereference
  | badRaceInfo
  | badProgram (text : String)
  deriving DecidableEq

inductive DBName
  | corpus | racecorpus | likelycorpus
  deriving DecidableEq

def DBName.text : DBName → String
  | .corpus => "corpus"
  | .racecorpus => "racecorpus"
  | .likelycorpus => "likelycorpus"

/-! ### Signatures -/

def hexText (n : ℕ) : String := ofList (Nat.toDigits 16 n)

def decText : ℤ → String
  | .ofNat n => ofList (Nat.toDigits 10 n)
  | .negSucc n => "-" ++ ofList (Nat.toDigits 10 (n + 1))

def RaceInfo.line (cov addr : UInt32) (idx : ℤ) : String :=
  "Cov " ++ hexText cov.toNat ++ " , Addr " ++ hexText addr.toNat ++ " , Idx " ++ decText idx ++
    "\n"

def RaceInfo.toBytes (ri : RaceInfo) : String :=
  line ri.cov.1 ri.addr.1 ri.idx.1 ++ line ri.cov.2 ri.addr.2 ri.idx.2 ++
    ("Loc0 " ++ ri.mempair.1 ++ " , Loc1 " ++ ri.mempair.2 ++ "\n") ++
    ("Hash " ++ hexText ri.hash.toNat ++ " , Sched " ++ decText ri.sched ++ "\n")

/-- `hash.String`, which is taken to have no collisions. -/
structure Hash where
  string : String → String
  injective : Function.Injective string

/-- Texts as their own hashes. -/
def plainHash : Hash := ⟨id, Function.injective_id⟩

def computeSig (H : Hash) (p ri : String) : String := H.string (p ++ ri)

/-! ### Pairs of databases -/

structure DBTy where
  primaryDB : DB String String
  auxiliaryDB : Option (DB String String)
  name : DBName

namespace DBTy

def savePrimary (D : DBTy) (sig prog : String) : DBTy :=
  { D with primaryDB := (D.primaryDB.save sig prog Seq.zero).flush }

def saveAuxiliary (D : DBTy) (sig : String) (raceinfo : Option String) : Except Abort DBTy :=
  match raceinfo, D.auxiliaryDB with
  | none, _ => .ok D
  | some _, none =>
    -- `Assert` hands its arguments on as one slice, which is printed in brackets
    .error (.fatal ("Trying to save raceinfo into nil auxiliaryDB ([" ++ D.name.text ++ "])"))
  | some raceinfo, some aux =>
    .ok { D with auxiliaryDB := some (aux.save sig raceinfo Seq.zero).flush }

def save (D : DBTy) (sig prog : String) (raceinfo : Option String) : Except Abort DBTy :=
  (D.savePrimary sig prog).saveAuxiliary sig raceinfo

def removePrimary (D : DBTy) (sig : String) : DBTy :=
  { D with primaryDB := (D.primaryDB.delete sig).flush }

/-- The fatal end when there is no race info to remove. -/
def wrongRaceinfo (name : DBName) : Abort :=
  .fatal ("Trying to remove the wrong raceinfo from auxilityDB (" ++ name.text ++ ")")

def removeAuxiliary (D : DBTy) (sig : String) : Except Abort DBTy :=
  match D.auxiliaryDB with
  | none => .ok D
  | some aux =>
    if sig ∈ aux.records then .ok { D with auxiliaryDB := some (aux.delete sig).flush }
    else .error (wrongRaceinfo D.name)

def remove (D : DBTy) (sig : String) : Except Abort DBTy :=
  (D.removePrimary sig).removeAuxiliary sig

def deleteKey (D : DBTy) (key : String) : DBTy :=
  { D with
    primaryDB := D.primaryDB.delete key
    auxiliaryDB := D.auxiliaryDB.map fun aux => aux.delete key }

def flushPrimary (D : DBTy) : DBTy := { D with primaryDB := D.primaryDB.flush }

def flushAuxiliary (D : DBTy) : DBTy := { D with auxiliaryDB := D.auxiliaryDB.map DB.flush }

end DBTy

/-! ### Clean-up -/

inductive CorpusMap
  | bySig (sigs : List String)
  | byHash (corpus : LikelyCorpus)

abbrev Entry := Sigma fun _ : String => Record String

section Clear

variable (H : Hash) (fromBytes : String → Option RaceInfo)

/-- Whether a record of the database is in the corpus. A race info that is missing reads as the
empty text. -/
def represented (D : DBTy) (corpus : CorpusMap) (key p : String) : Except Abort Bool :=
  match corpus, D.auxiliaryDB with
  | .bySig sigs, _ => .ok (decide (key ∈ sigs))
  | .byHash _, none => .error .nilDereference
  | .byHash corpus, some aux =>
    let rawRaceInfo := ((aux.records.lookup key).map Record.val).getD ""
    match fromBytes rawRaceInfo with
    | none => .error .badRaceInfo
    | some ri =>
      match corpus.lookup ri.hash with
      | none => .ok false
      | some likelyRinp =>
        let sig1 := computeSig H p rawRaceInfo
        let sig2 := computeSig H likelyRinp.raceProg.bytes (RaceInfo.toBytes likelyRinp.raceInfo)
        .ok (decide (sig1 = sig2))

def clearRecord (corpus : CorpusMap) (disabledHashes : List String) (D : DBTy)
    (x : Entry) : Except Abort DBTy :=
  (represented H fromBytes D corpus x.1 x.2.val).map fun ok1 =>
    if ok1 = false ∧ x.1 ∉ disabledHashes then D.deleteKey x.1 else D

def clearRecords (corpus : CorpusMap) (disabledHashes : List String) (D : DBTy) :
    Except Abort DBTy :=
  D.primaryDB.records.entries.foldlM (clearRecord H fromBytes corpus disabledHashes) D

def clearDB (corpus : CorpusMap) (disabledHashes : List String) (D : DBTy) : Except Abort DBTy :=
  (clearRecords H fromBytes corpus disabledHashes D).map fun D => D.flushPrimary.flushAuxiliary

end Clear

/-! ### Loading -/

/-- What the loader is given: the hash, the calls of a program that deserialises, the calls that
are enabled, race infos as they are scanned, and the hashes of the pairs the manager knows. The
order in which a map is walked is any. -/
structure Loader where
  hash : Hash
  deserialize : String → Except Stop (List ℕ)
  syscalls : ℕ → Bool
  fromBytes : String → Option RaceInfo
  mempairHash : MempairHash → Bool
  walk : List Entry → List Entry
  walk_perm : ∀ entries, (walk entries).Perm entries

/-- The databases so far, what was handed to the consumer, and the programs set aside. -/
structure Loaded where
  db : DBTy
  handed : List (String × RaceInfo)
  disabledHashes : List String

def noRaceInfo : RaceInfo := ⟨(0, 0), (0, 0), (0, 0), 0, 0, ("", "")⟩

/-- The race info in a record of the second database, if its pair is known. -/
def scanRaceInfo (L : Loader) : Option (Record String) → Except Abort (Option RaceInfo)
  | none => .error (.panic "Broken DB")
  | some infoRec =>
    match L.fromBytes infoRec.val with
    | none => .error .badRaceInfo
    | some ri => .ok (if L.mempairHash ri.hash then some ri else none)

def raceInfoOf (L : Loader) (D : DBTy) (key : String) : Except Abort (Option RaceInfo) :=
  match D.auxiliaryDB with
  | none => .ok (some noRaceInfo)
  | some aux => scanRaceInfo L (aux.records.lookup key)

/-- A program that does not deserialise. The second database is not checked for nil. -/
def deleteBroken (D : DBTy) (key : String) : Except Abort DBTy :=
  match D.auxiliaryDB with
  | none => .error .nilDereference
  | some _ => .ok (D.deleteKey key)

def loadRecord (L : Loader) (S : Loaded) (x : Entry) : Except Abort Loaded :=
  match L.deserialize x.2.val with
  | .error (.panic text) => .error (.badProgram text)
  | .error (.error _) => (deleteBroken S.db x.1).map fun db => { S with db := db }
  | .ok calls =>
    if calls.any fun c => !L.syscalls c then
      .ok { S with disabledHashes := S.disabledHashes.insert (L.hash.string x.2.val) }
    else
      (raceInfoOf L S.db x.1).map fun
        | none => S
        | some ri => { S with handed := S.handed ++ [(x.2.val, ri)] }

def loadDB (L : Loader) (name : DBName) (primary : File String String)
    (auxiliary : Option (File String String)) (disabledHashes : List String) :
    Except Abort Loaded :=
  let db : DBTy := ⟨DB.openFile primary, auxiliary.map DB.openFile, name⟩
  (L.walk db.primaryDB.records.entries).foldlM (loadRecord L) ⟨db, [], disabledHashes⟩

def Loaded.empty (S : Loaded) : Bool := S.handed.isEmpty

/-! ### The three databases -/

structure RPCCandidate where
  prog : String
  minimized : Bool

structure RaceProgCand where
  prog : String
  raceInfos : List RaceInfo
  fromDB : Bool

structure Files where
  corpus : File String String
  raceCorpus : File String String
  raceInfo : File String String
  likelyCorpus : File String String
  likelyRaceInfo : File String String

structure Init where
  dbs : List DBTy
  rpcCands : List RPCCandidate
  raceQueue : List RaceProgCand
  disabledHashes : List String
  corpusDBDone : Bool
  raceCorpusDBDone : Bool

def pushToRPCCand (data : String × RaceInfo) : RPCCandidate := ⟨data.1, true⟩

def pushToRaceQueue (data : String × RaceInfo) : RaceProgCand := ⟨data.1, [data.2], true⟩

def setUp (corpus race likely : Loaded) : Init where
  dbs := [corpus.db, race.db, likely.db]
  rpcCands := corpus.handed.map pushToRPCCand
  raceQueue := race.handed.map pushToRaceQueue ++ likely.handed.map pushToRaceQueue
  disabledHashes := likely.disabledHashes
  corpusDBDone := corpus.empty
  raceCorpusDBDone := race.empty && likely.empty

def initDBs (L : Loader) (files : Files) : Except Abort Init := do
  let corpus ← loadDB L .corpus files.corpus none []
  let race ← loadDB L .racecorpus files.raceCorpus (some files.raceInfo) corpus.disabledHashes
  let likely ←
    loadDB L .likelycorpus files.likelyCorpus (some files.likelyRaceInfo) race.disabledHashes
  return setUp corpus race likely

end Razzer.ManagerDB
