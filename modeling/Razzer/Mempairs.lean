import Razzer.Loops
import Razzer.SuppFile

/-!
The pairs of locations of the static analysis, of `racecandpairs.go`.

A line of the file has one or two locations and tags. The same loader reads the file of the
disabled pairs, where a line with one location disables every pair with it. The loader accepts
any number of tokens, so what follows it may index a list of locations or tags that is too short:
this is a `Fault` of its own, next to the errors that are returned and the panics of the source.
-/

namespace Razzer.Mempairs

open SyzManager Lines Loops List

structure Mempair where
  locs : List String
  tags : List String
  deriving DecidableEq

/-- How loading ends without a table: an error that is returned, `Fatalf`, a panic of the source, or
an index out of range. -/
inductive Fault
  | error (text : String)
  | fatal (text : String)
  | panic (text : String)
  | outOfRange
  deriving DecidableEq

def index {α : Type*} (l : List α) (i : ℕ) : Except Fault α :=
  match l[i]? with
  | some a => .ok a
  | none => .error .outOfRange

/-! ### Hashes -/

def sortedConcate (s : List String) : Except Fault String :=
  if s.length < 2 then .error .outOfRange else .ok (SuppFile.sortedConcate s)

def hashOf (sorted : String) : MempairHash := SuppFile.fnv64a sorted.toUTF8.data.toList

def getMempairHashFromLocs (locs : List String) : Except Fault MempairHash :=
  (sortedConcate locs).map hashOf

def tokens (line : List Char) : List String := (line.splitOn ' ').map String.ofList

def getMempairHashFromStr (s : String) : Except Fault MempairHash :=
  (sortedConcate (tokens s.toList)).map hashOf

/-! ### Loading -/

def mempairOfTokens (toks : List String) : Mempair :=
  if toks.length < 2 ∨ toks[1]? = some "R" ∨ toks[1]? = some "W" then ⟨toks.take 1, []⟩
  else ⟨toks.take 2, toks.drop 2⟩

/-- Without tags, both accesses are writes. -/
def defaultTags (memp : Mempair) : Mempair :=
  if memp.tags.isEmpty then { memp with tags := ["w", "w"] } else memp

def upperTags (memp : Mempair) : Mempair := { memp with tags := memp.tags.map String.toUpper }

def skipped (line : List Char) : Bool := line.isEmpty || line.head? == some '#'

def mempairOfLine (line : List Char) : Option Mempair :=
  if skipped line then none
  else some (upperTags (defaultTags (mempairOfTokens (tokens line))))

/-- The lines of a file. A line that does not fit into the buffer of the scanner is an error. -/
def scanFile (text : String) : Except String (List (List Char)) :=
  if (rawLines [] text.toList).any fun line => decide (65536 ≤ (String.ofList line).utf8ByteSize)
  then .error "bufio.Scanner: token too long"
  else .ok (scanLines [] text.toList)

/-- A file is the error of opening it, or its text. -/
def loadMempair (file : Except String String) : Except String (List Mempair) :=
  file.bind fun text => (scanFile text).map fun lines => lines.filterMap mempairOfLine

/-- It is okay if there is no file of disabled pairs. -/
def loadDisabled (file : Except String String) : Except String (List Mempair) :=
  match loadMempair file with
  | .ok disabledMempair => .ok disabledMempair
  | .error err => if err.startsWith "open : no such file or directory" then .ok [] else .error err

/-! ### Removing disabled pairs -/

/-- The hashes and the single locations that are disabled. -/
structure Disabled where
  tmpHash : List MempairHash
  singleLoc : List String

def addDisabled (s : Disabled) (m : Mempair) : Except Fault Disabled :=
  if m.locs.length < 2 then
    (index m.locs 0).map fun loc => { s with singleLoc := loc :: s.singleLoc }
  else
    (getMempairHashFromLocs m.locs).map fun hsh => { s with tmpHash := hsh :: s.tmpHash }

def isEnabled (s : Disabled) (m : Mempair) : Except Fault Bool := do
  let hsh ← getMempairHashFromLocs m.locs
  let loc0 ← index m.locs 0
  let loc1 ← index m.locs 1
  return decide (hsh ∉ s.tmpHash ∧ loc0 ∉ s.singleLoc ∧ loc1 ∉ s.singleLoc)

def enabled (s : Disabled) : List Mempair → Except Fault (List Mempair)
  | [] => .ok []
  | m :: mempair => do
    let keep ← isEnabled s m
    let newMempair ← enabled s mempair
    return if keep then m :: newMempair else newMempair

def removeDisabledMempair (mempair disabledMempair : List Mempair) : Except Fault (List Mempair) :=
  (disabledMempair.foldlM addDisabled ⟨[], []⟩).bind fun s => enabled s mempair

/-! ### The text that is hashed -/

lemma sort_perm {s s' : List String} (h : s.Perm s') :
    (s.mergeSort fun a b => decide (a ≤ b)) = s'.mergeSort fun a b => decide (a ≤ b) := by
  have hsr : ∀ l : List String, (l.mergeSort fun a b => decide (a ≤ b)).Pairwise (· ≤ ·) := by
    intro l
    have h := @List.pairwise_mergeSort String (fun a b => decide (a ≤ b))
      (by simpa using fun a b c => le_trans) (by simpa using fun a b => le_total a b) l
    simpa using h
  refine List.Perm.eq_of_pairwise' (hsr s) (hsr s') ?_
  exact (mergeSort_perm s _).trans (h.trans (mergeSort_perm s' _).symm)

lemma sortedConcate_perm {s s' : List String} (h : s.Perm s') :
    SuppFile.sortedConcate s = SuppFile.sortedConcate s' := by
  rw [SuppFile.sortedConcate, SuppFile.sortedConcate, sort_perm h]

variable {a b : String} {l : List Mempair} {m : Mempair} {s : Disabled}

lemma sortedConcate_of_le (h : a ≤ b) : SuppFile.sortedConcate [a, b] = a ++ " " ++ b := by
  have hsr : ([a, b].mergeSort fun a b => decide (a ≤ b)) = [a, b] :=
    mergeSort_of_pairwise (by simpa using h)
  rw [SuppFile.sortedConcate, hsr]

lemma exists_le_perm (a b : String) : ∃ c d, c ≤ d ∧ [a, b].Perm [c, d] := by
  rcases le_total a b with h | h
  · exact ⟨a, b, h, .refl _⟩
  · exact ⟨b, a, h, .swap ..⟩

def NoBlank (loc : String) : Prop := ' ' ∉ loc.toList

instance (loc : String) : Decidable (NoBlank loc) := inferInstanceAs (Decidable (' ' ∉ loc.toList))

variable {c d : String} {locs : List String}

lemma concate_inj (ha : NoBlank a) (hb : NoBlank b) (h : a ++ " " ++ b = c ++ " " ++ d) :
    a = c ∧ b = d := by
  have hls : a.toList ++ ' ' :: b.toList = c.toList ++ ' ' :: d.toList := by
    have := congrArg String.toList h
    simpa using this
  obtain ⟨hac, -, hbd⟩ := (append_cons_inj_of_notMem ha hb).1 hls
  exact ⟨String.toList_injective hac, String.toList_injective hbd⟩

lemma sortedConcate_inj (ha : NoBlank a) (hb : NoBlank b)
    (h : SuppFile.sortedConcate [a, b] = SuppFile.sortedConcate [c, d]) : [a, b].Perm [c, d] := by
  obtain ⟨x, y, hxy, hp⟩ := exists_le_perm a b
  obtain ⟨z, w, hzw, hq⟩ := exists_le_perm c d
  have hall : ∀ loc ∈ [x, y], NoBlank loc := by
    intro loc hloc
    have hmem := hp.mem_iff.2 hloc
    simp only [mem_cons, not_mem_nil, or_false] at hmem
    rcases hmem with rfl | rfl
    · exact ha
    · exact hb
  rw [sortedConcate_perm hp, sortedConcate_perm hq, sortedConcate_of_le hxy,
    sortedConcate_of_le hzw] at h
  obtain ⟨rfl, rfl⟩ := concate_inj (hall x (by simp)) (hall y (by simp)) h
  exact hp.trans hq.symm

lemma tokens_pair (ha : NoBlank a) (hb : NoBlank b) : tokens (a ++ " " ++ b).toList = [a, b] := by
  have htx : (a ++ " " ++ b).toList = [' '].intercalate [a.toList, b.toList] := by
    simp [intercalate, intersperse]
  have hsp : ([' '].intercalate [a.toList, b.toList]).splitOn ' ' = [a.toList, b.toList] := by
    refine splitOn_intercalate ' ' (fun l hl => ?_) (by simp)
    simp only [mem_cons, not_mem_nil, or_false] at hl
    rcases hl with rfl | rfl
    · exact ha
    · exact hb
  rw [tokens, htx, hsp]
  simp

/-! ### What is removed -/

def hashAt (locs : List String) : MempairHash := hashOf (SuppFile.sortedConcate locs)

lemma getMempairHashFromLocs_of_le (h : 2 ≤ locs.length) :
    getMempairHashFromLocs locs = .ok (hashAt locs) := by
  rw [getMempairHashFromLocs, sortedConcate, if_neg (by omega)]
  rfl

lemma getMempairHashFromLocs_of_lt (h : locs.length < 2) :
    getMempairHashFromLocs locs = .error .outOfRange := by
  rw [getMempairHashFromLocs, sortedConcate, if_pos h]
  rfl

structure Collected (l : List Mempair) (s : Disabled) : Prop where
  tmpHash : ∀ hsh, hsh ∈ s.tmpHash ↔ ∃ d ∈ l, 2 ≤ d.locs.length ∧ hashAt d.locs = hsh
  singleLoc : ∀ loc, loc ∈ s.singleLoc ↔ ∃ d ∈ l, d.locs = [loc]

lemma addDisabled_collected (h : Collected l s) (hm : m.locs ≠ []) :
    ∃ s', addDisabled s m = .ok s' ∧ Collected (l ++ [m]) s' := by
  obtain ⟨htmp, hsn⟩ := h
  rw [addDisabled]
  by_cases hlt : m.locs.length < 2
  · obtain ⟨loc, hloc⟩ : ∃ loc, m.locs = [loc] := by
      have hpos := length_pos_iff.2 hm
      exact length_eq_one_iff.1 (by omega)
    refine ⟨{ s with singleLoc := loc :: s.singleLoc }, by simp [hloc, index, Except.map], ?_, ?_⟩
    · intro hsh
      rw [htmp]
      simp [hloc, or_and_right, exists_or]
    · intro loc'
      simp [hsn, hloc, or_and_right, exists_or, or_comm, eq_comm]
  · rw [if_neg hlt, getMempairHashFromLocs_of_le (not_lt.1 hlt)]
    refine ⟨_, rfl, fun hsh => ?_, fun loc => ?_⟩
    · simp [htmp, or_and_right, exists_or, or_comm, not_lt.1 hlt, eq_comm]
    · have hne : m.locs ≠ [loc] := fun heq => hlt (by simp [heq])
      simp [hsn, hne, or_and_right, exists_or]

lemma foldlM_addDisabled {dis : List Mempair} (h : ∀ d ∈ dis, d.locs ≠ []) :
    ∃ s, dis.foldlM addDisabled ⟨[], []⟩ = .ok s ∧ Collected dis s := by
  induction dis using reverseRecOn with
  | nil => exact ⟨⟨[], []⟩, rfl, by simp, by simp⟩
  | append_singleton l m ih =>
    obtain ⟨s, hs, hcol⟩ := ih fun d hd => h d (mem_append_left _ hd)
    obtain ⟨s', hs', hcol'⟩ := addDisabled_collected hcol (h m (by simp))
    refine ⟨s', ?_, hcol'⟩
    rw [foldlM_append, hs]
    show [m].foldlM addDisabled s = .ok s'
    rw [foldlM_cons, hs']
    rfl

def Keeps (s : Disabled) (m : Mempair) : Prop :=
  hashAt m.locs ∉ s.tmpHash ∧ ∀ loc ∈ m.locs.take 2, loc ∉ s.singleLoc

instance (s : Disabled) (m : Mempair) : Decidable (Keeps s m) :=
  inferInstanceAs (Decidable (_ ∧ _))

lemma isEnabled_of_le (h : 2 ≤ m.locs.length) : isEnabled s m = .ok (decide (Keeps s m)) := by
  obtain ⟨a, b, rest, hlc⟩ : ∃ a b rest, m.locs = a :: b :: rest := by
    match hm : m.locs with
    | [] => simp [hm] at h
    | [a] => simp [hm] at h
    | a :: b :: rest => exact ⟨a, b, rest, rfl⟩
  rw [isEnabled, getMempairHashFromLocs_of_le h]
  simp [index, hlc, Keeps, bind, Except.bind, pure, Except.pure]

lemma isEnabled_of_lt (h : m.locs.length < 2) : isEnabled s m = .error .outOfRange := by
  rw [isEnabled, getMempairHashFromLocs_of_lt h]
  rfl

lemma enabled_of_le (h : ∀ m ∈ l, 2 ≤ m.locs.length) :
    enabled s l = .ok (l.filter fun m => decide (Keeps s m)) := by
  induction l with
  | nil => rfl
  | cons m l ih =>
    obtain ⟨hm, hl⟩ := forall_mem_cons.1 h
    rw [enabled, isEnabled_of_le hm, ih hl, filter_cons]
    rfl

lemma enabled_of_lt (h : ∃ m ∈ l, m.locs.length < 2) : enabled s l = .error .outOfRange := by
  induction l with
  | nil => simp at h
  | cons m l ih =>
    by_cases hm : m.locs.length < 2
    · rw [enabled, isEnabled_of_lt hm]
      rfl
    · have hl : ∃ m ∈ l, m.locs.length < 2 := by
        obtain ⟨m', hm', hlt⟩ := h
        rcases mem_cons.1 hm' with rfl | hm'
        · exact absurd hlt hm
        · exact ⟨m', hm', hlt⟩
      rw [enabled, isEnabled_of_le (not_lt.1 hm), ih hl]
      rfl

/-- The disabled entry removes the pair: it is the same pair, in either order, or a location of
it. -/
def Removes (d m : Mempair) : Prop :=
  d.locs.length = 2 ∧ d.locs.Perm m.locs ∨ d.locs.length = 1 ∧ ∀ loc ∈ d.locs, loc ∈ m.locs

instance (d m : Mempair) : Decidable (Removes d m) := inferInstanceAs (Decidable (_ ∨ _))

/-- The texts that are hashed have hashes of their own. -/
def CollisionFree (pairs : List Mempair) : Prop :=
  ∀ m ∈ pairs, ∀ d ∈ pairs, m.locs.length = 2 → d.locs.length = 2 →
    hashAt m.locs = hashAt d.locs → SuppFile.sortedConcate m.locs = SuppFile.sortedConcate d.locs

lemma keeps_iff {mp dis : List Mempair} (hcol : Collected dis s)
    (hd : ∀ d ∈ dis, d.locs.length = 1 ∨ d.locs.length = 2)
    (hcf : CollisionFree (mp ++ dis)) (hm : m ∈ mp) (hlen : m.locs.length = 2)
    (hbl : ∀ loc ∈ m.locs, NoBlank loc) : Keeps s m ↔ ∀ d ∈ dis, ¬ Removes d m := by
  obtain ⟨a, b, hab⟩ := length_eq_two.1 hlen
  have htk : m.locs.take 2 = m.locs := take_of_length_le hlen.le
  rw [Keeps, hcol.tmpHash, htk]
  constructor
  · rintro ⟨hhs, hsn⟩ d hmem (⟨hlen', hpr⟩ | ⟨hlen', hloc⟩)
    · refine hhs ⟨d, hmem, hlen'.ge, ?_⟩
      rw [hashAt, hashAt, sortedConcate_perm hpr]
    · obtain ⟨loc, hd'⟩ := length_eq_one_iff.1 hlen'
      exact hsn loc (hloc loc (by simp [hd'])) ((hcol.singleLoc loc).2 ⟨d, hmem, hd'⟩)
  · intro hno
    refine ⟨?_, fun loc hloc hsn => ?_⟩
    · rintro ⟨d, hmem, hle, heq⟩
      have hlen' : d.locs.length = 2 := by
        rcases hd d hmem with h | h
        · omega
        · exact h
      obtain ⟨c, e, hce⟩ := length_eq_two.1 hlen'
      -- the hashes agree, so the texts do, so the pairs do
      have htx := hcf m (mem_append_left _ hm) d (mem_append_right _ hmem) hlen hlen'
        heq.symm
      rw [hab, hce] at htx
      have hpr := sortedConcate_inj (hbl a (by simp [hab])) (hbl b (by simp [hab])) htx
      exact hno d hmem (.inl ⟨hlen', by rw [hab, hce]; exact hpr.symm⟩)
    · obtain ⟨d, hmem, hd'⟩ := (hcol.singleLoc loc).1 hsn
      exact hno d hmem (.inr ⟨by simp [hd'], by simpa [hd'] using hloc⟩)

/-- **Removing disabled pairs.** What is left are the pairs that no disabled entry removes, in
their order; the hash that is compared does not depend on the order of the two locations, and it
is the same for a list of them and for the text of both. -/
theorem removeDisabledMempair_eq {mempair disabled : List Mempair}
    (hm : ∀ m ∈ mempair, m.locs.length = 2 ∧ ∀ loc ∈ m.locs, NoBlank loc)
    (hd : ∀ d ∈ disabled, d.locs.length = 1 ∨ d.locs.length = 2)
    (hcf : CollisionFree (mempair ++ disabled)) :
    removeDisabledMempair mempair disabled =
        .ok (mempair.filter fun m => decide (∀ d ∈ disabled, ¬ Removes d m)) ∧
      (∀ a b, getMempairHashFromLocs [a, b] = getMempairHashFromLocs [b, a]) ∧
      ∀ a b, NoBlank a → NoBlank b →
        getMempairHashFromStr (a ++ " " ++ b) = getMempairHashFromLocs [a, b] := by
  refine ⟨?_, fun a b => ?_, fun a b ha hb => ?_⟩
  · have hne : ∀ d ∈ disabled, d.locs ≠ [] := by
      intro d hmem heq
      rcases hd d hmem with h | h <;> simp [heq] at h
    obtain ⟨s, hs, hcol⟩ := foldlM_addDisabled hne
    have hkp : (mempair.filter fun m => decide (Keeps s m)) =
        mempair.filter fun m => decide (∀ d ∈ disabled, ¬ Removes d m) := by
      refine filter_congr fun m hmem => ?_
      rw [decide_eq_decide]
      exact keeps_iff hcol hd hcf hmem (hm m hmem).1 (hm m hmem).2
    rw [removeDisabledMempair, hs, ← hkp]
    exact enabled_of_le fun m hmem => (hm m hmem).1.ge
  · have hsw : [a, b].Perm [b, a] := .swap ..
    rw [getMempairHashFromLocs_of_le (by simp), getMempairHashFromLocs_of_le (by simp), hashAt,
      hashAt, sortedConcate_perm hsw]
  · rw [getMempairHashFromStr, tokens_pair ha hb]
    rfl

/-- A pair that is disabled in the other order, one with a disabled location, and one that is
left. -/
theorem removeDisabledMempair_eq_three :
    removeDisabledMempair [⟨["a", "b"], ["R", "W"]⟩, ⟨["c", "d"], ["W", "W"]⟩, ⟨["b", "e"], []⟩]
      [⟨["b", "a"], []⟩, ⟨["e"], []⟩] = .ok [⟨["c", "d"], ["W", "W"]⟩] := by
  have hab : SuppFile.sortedConcate ["a", "b"] = "a b" := sortedConcate_of_le (by decide)
  have hba : SuppFile.sortedConcate ["b", "a"] = "a b" := hab ▸ sortedConcate_perm (.swap ..)
  have hcd : SuppFile.sortedConcate ["c", "d"] = "c d" := sortedConcate_of_le (by decide)
  have hbe : SuppFile.sortedConcate ["b", "e"] = "b e" := sortedConcate_of_le (by decide)
  have hne : hashOf "a b" ≠ hashOf "c d" ∧ hashOf "a b" ≠ hashOf "b e" ∧
      hashOf "c d" ≠ hashOf "b e" := by decide +kernel
  refine (removeDisabledMempair_eq (by decide) (by decide) ?_).1
  simp [CollisionFree, hashAt, hab, hba, hcd, hbe, hne.1, hne.2.1, hne.2.2, hne.1.symm,
    hne.2.1.symm, hne.2.2.symm]

end Razzer.Mempairs
