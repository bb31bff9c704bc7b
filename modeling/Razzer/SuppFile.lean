import Razzer.Lines
import Razzer.SyzManager

/-!
The file of suppressed pairs.

The manager loads a list of pairs when it starts and removes those whose hashes are in a file of
its working directory. Every minute it writes the file anew, from the hashes of the pairs it has
left. It skips the suppressed ones there, so the file has the hashes of the pairs that are not
suppressed.
-/

namespace Razzer.SuppFile

open SyzManager Lines Nat List

/-! ### Lines of decimal numbers -/

def parseUint (line : List Char) : Option UInt64 :=
  if line.isEmpty || line.any fun c => !c.isDigit then none
  else if ofDigitChars 10 line 0 < 2 ^ 64 then some (UInt64.ofNat (ofDigitChars 10 line 0))
  else none

def digits (n : UInt64) : List Char := toDigits 10 n.toNat

variable {n : UInt64} {c : Char}

lemma isDigit_of_mem_digits (h : c ∈ digits n) : c.isDigit :=
  isDigit_of_mem_toDigits (by omega) (by omega) h

lemma parseUint_digits (n : UInt64) : parseUint (digits n) = some n := by
  have hne : (digits n).isEmpty = false := by simp [digits, toDigits_ne_nil]
  have hall : ((digits n).any fun c => !c.isDigit) = false := by
    simpa using fun c hc => isDigit_of_mem_digits hc
  have hval : ofDigitChars 10 (digits n) 0 = n.toNat :=
    ofDigitChars_toDigits (by omega) (by omega)
  rw [parseUint, hne, hall, hval, Bool.or_self, if_neg (by simp), if_pos n.toNat_lt,
    UInt64.ofNat_toNat]

lemma dropCR_digits (n : UInt64) : dropCR (digits n) = digits n := by
  refine if_neg fun h => ?_
  have hdg := isDigit_of_mem_digits (mem_of_getLast? h)
  exact absurd hdg (by decide)

def lines (ns : List UInt64) : List Char := ns.flatMap fun n => digits n ++ ['\n']

lemma scanLines_lines (ns : List UInt64) : scanLines [] (lines ns) = ns.map digits := by
  induction ns with
  | nil => rfl
  | cons n ns ih =>
    have hln : ∀ c ∈ digits n, c ≠ '\n' := by
      intro c hc heq
      have hdg := isDigit_of_mem_digits hc
      rw [heq] at hdg
      exact absurd hdg (by decide)
    have hcn : lines (n :: ns) = digits n ++ '\n' :: lines ns := by simp [lines]
    rw [hcn, scanLines_line hln, nil_append, dropCR_digits, ih, map_cons]

/-! ### Pairs -/

/-- A pair of locations, with a tag for each. The hash of a list with less than two locations
panics. -/
structure Mempair where
  locs : List String
  tags : List String
  two : 2 ≤ locs.length

def sortedConcate (s : List String) : String :=
  match s.mergeSort fun a b => decide (a ≤ b) with
  | d0 :: d1 :: _ => d0 ++ " " ++ d1
  | _ => ""

def fnv64a (bytes : List UInt8) : UInt64 :=
  bytes.foldl (fun h b => (h ^^^ b.toUInt64) * 1099511628211) 14695981039346656037

def getMempairHashFromLocs (locs : List String) : MempairHash :=
  fnv64a (sortedConcate locs).toUTF8.toList

def Mempair.hash (p : Mempair) : MempairHash := getMempairHashFromLocs p.locs

/-! ### The file -/

/-- The hashes in the file. There are none if there is no file, and a line that is not a number
panics. -/
def loadSuppMempair (file : Option String) : Option (List MempairHash) :=
  match file with
  | none => some []
  | some text => (scanLines [] text.toList).mapM parseUint

/-- The pairs of the list whose hashes are not in the file. -/
def removeSuppMempair (mempair : List Mempair) (file : Option String) : Option (List Mempair) :=
  (loadSuppMempair file).map fun suppMempair => mempair.filter fun p => p.hash ∉ suppMempair

/-- The hashes `initMempair` collects, in an order in which the map is walked. -/
structure MempairHashes (mempair : List Mempair) where
  hashes : List MempairHash
  nodup : hashes.Nodup
  mem_iff : ∀ h, h ∈ hashes ↔ ∃ p ∈ mempair, p.hash = h

/-- The text the loop of `startLoggingSuppressedMempair` writes. -/
def logSuppressed {mempair : List Mempair} (m : MempairHashes mempair)
    (suppressedPairs : Finset MempairHash) : String :=
  String.ofList (lines (m.hashes.filter fun hsh => !decide (hsh ∈ suppressedPairs)))

/-- The pairs after the manager has written the file and started again. -/
def afterRestart (loaded : List Mempair) {mempair : List Mempair} (m : MempairHashes mempair)
    (suppressedPairs : Finset MempairHash) : Option (List Mempair) :=
  removeSuppMempair loaded (some (logSuppressed m suppressedPairs))

variable {loaded mp : List Mempair}

lemma load_logSuppressed (m : MempairHashes mp)
    (supp : Finset MempairHash) : loadSuppMempair (some (logSuppressed m supp)) =
      some (m.hashes.filter fun hsh => !decide (hsh ∈ supp)) := by
  have hpr : ∀ ns : List UInt64, (ns.map digits).mapM parseUint = some ns := by
    intro ns
    induction ns with
    | nil => rfl
    | cons n ns ih => simp [mapM_cons, parseUint_digits, ih]
  rw [loadSuppMempair, logSuppressed]
  simp only [String.toList_ofList, scanLines_lines, hpr]

/-- **What remains**: the pairs that were suppressed, and those the manager did not have. -/
lemma afterRestart_eq (loaded : List Mempair)
    (m : MempairHashes mp) (supp : Finset MempairHash) :
    afterRestart loaded m supp =
      some (loaded.filter fun p => p.hash ∈ supp ∨ p.hash ∉ m.hashes) := by
  rw [afterRestart, removeSuppMempair, load_logSuppressed, Option.map_some]
  refine congrArg some (filter_congr fun p _ => ?_)
  simp only [mem_filter, Bool.not_eq_true', decide_eq_false_iff_not, not_and, not_not,
    decide_eq_decide]
  tauto

/-! ### Restarts -/

/-- The pairs of a manager that has started from a list of pairs. -/
structure Running (loaded : List Mempair) where
  mempair : List Mempair
  file : Option String
  started : removeSuppMempair loaded file = some mempair

lemma Running.mem_iff (R : Running loaded) (m : MempairHashes R.mempair)
    {p : Mempair} (hp : p ∈ loaded) : p.hash ∈ m.hashes ↔ p ∈ R.mempair := by
  obtain ⟨supp, -, hfl⟩ := Option.map_eq_some_iff.1 R.started
  have hmem : ∀ q, q ∈ R.mempair ↔ q ∈ loaded ∧ q.hash ∉ supp := by
    intro q
    rw [← hfl, mem_filter, decide_eq_true_iff]
  rw [m.mem_iff]
  constructor
  · rintro ⟨q, hq, heq⟩
    exact (hmem p).2 ⟨hp, heq ▸ ((hmem q).1 hq).2⟩
  · exact fun hp => ⟨p, hp, rfl⟩

lemma filter_eq_filter_iff {α : Type*} {p q : α → Bool} {l : List α} :
    l.filter p = l.filter q ↔ ∀ x ∈ l, p x = q x := by
  refine ⟨fun h x hx => ?_, filter_congr⟩
  have hiff : x ∈ l.filter p ↔ x ∈ l.filter q := by rw [h]
  simp only [mem_filter, hx, true_and] at hiff
  exact Bool.eq_iff_iff.2 hiff

/-- After the file was written and the manager has started again from the same list, the pairs that
were not suppressed remain, in their order; and a pair that was removed is removed after
the file is written once more as well. -/
def KeepsUnsuppressed {loaded : List Mempair} (R : Running loaded) (m : MempairHashes R.mempair)
    (supp : Finset MempairHash) : Prop :=
  ∃ rest, afterRestart loaded m supp = some rest ∧ rest = loaded.filter (fun p => p.hash ∉ supp) ∧
    ∀ (m' : MempairHashes rest) (supp' : Finset MempairHash),
      ∃ rest', afterRestart loaded m' supp' = some rest' ∧ ∀ p ∈ loaded, p ∉ rest → p ∉ rest'

/-- **The file has the wrong pairs.** The pairs that were not suppressed remain if and only if there
is no suppressed pair in the list, and none that the manager has not removed before. -/
theorem keeps_unsuppressed_iff {loaded : List Mempair} (R : Running loaded)
    (m : MempairHashes R.mempair) (supp : Finset MempairHash) :
    KeepsUnsuppressed R m supp ↔ ∀ p ∈ loaded, p.hash ∉ supp ∧ p ∉ R.mempair := by
  have haf := afterRestart_eq loaded m supp
  constructor
  · rintro ⟨rest, hrs, heq, -⟩ p hp
    rw [haf, Option.some.injEq] at hrs
    have hkp := filter_eq_filter_iff.1 (hrs.trans heq) p hp
    rw [decide_eq_decide, R.mem_iff m hp] at hkp
    tauto
  · intro hnn
    -- nothing is removed, so nothing has to stay removed
    have hall : ∀ p ∈ loaded, p.hash ∈ supp ∨ p.hash ∉ m.hashes := fun p hp =>
      .inr fun hm => (hnn p hp).2 ((R.mem_iff m hp).1 hm)
    refine ⟨_, haf, filter_eq_filter_iff.2 fun p hp => ?_, fun m' supp' => ?_⟩
    · rw [decide_eq_true (hall p hp), decide_eq_true (hnn p hp).1]
    · refine ⟨_, afterRestart_eq loaded m' supp', fun p hp hnot => absurd ?_ hnot⟩
      exact List.mem_filter.2 ⟨hp, decide_eq_true (hall p hp)⟩

/-! ### A list of one pair -/

def onePair : Mempair := ⟨["fs/a.c:1", "fs/b.c:2"], ["W", "R"], by decide⟩

def onePairHashes : MempairHashes [onePair] :=
  ⟨[onePair.hash], nodup_singleton _, fun h => by simp [eq_comm]⟩

def noHashes : MempairHashes [] := ⟨[], nodup_nil, fun h => by simp⟩

/-- A pair that is not suppressed is removed by the restart and one that is suppressed remains. The
pair that was removed is back after the file is written again. -/
theorem unsuppressed_pair_removed :
    afterRestart [onePair] onePairHashes ∅ = some [] ∧
    afterRestart [onePair] onePairHashes {onePair.hash} = some [onePair] ∧
    afterRestart [onePair] noHashes ∅ = some [onePair] := by
  refine ⟨?_, ?_, ?_⟩ <;> rw [afterRestart_eq]
  · simp [onePairHashes]
  · simp
  · simp [noHashes]

end Razzer.SuppFile
