import Razzer.Buckets
import Razzer.Mempairs
import Razzer.PrintedText
import Razzer.RaceCand
import Razzer.RaceQueue

/-!
The table of race candidates, from the pairs of locations and the addresses of each location.

An entry of the mapping file has the addresses of a location and how they are accessed, one
character for each way. An address is in the basic block with the last coverage point that is not
behind it. The blocks of a location are collected for each way it is accessed, and the addresses
under the location and the block. The table has an entry for each two blocks of a pair, both ways
round.
-/

namespace Razzer.RaceTables

open SyzManager ManagerDB Buckets Loops Mempairs RaceQueue List Prod Except
open RaceCand (EntryTy RawCover mayRace shuffle isSupp mayRace_walked)

structure Mapping where
  loc : String
  tag : String
  item : List UInt64

structure LocTy where
  sourceLoc : String
  tag : String
  deriving DecidableEq

/-! ### Coverage points -/

/-- The loop of `findItem`. The last branch would set `right` to -1, which ends it. -/
def findLoop (allCoverPCs : List UInt64) (item : UInt64) : ℕ → ℕ → ℕ → Except Fault UInt64
  | 0, _, _ => .error (.error "Error")
  | fuel + 1, left, right =>
    if left ≤ right then
      if allCoverPCs.getD right 0 ≤ item then .ok (allCoverPCs.getD right 0)
      else
        let mid := (left + right) / 2
        if allCoverPCs.getD mid 0 ≤ item then
          if left = mid then .ok (allCoverPCs.getD mid 0)
          else findLoop allCoverPCs item fuel mid right
        else if mid = 0 then .error (.error "Error")
        else findLoop allCoverPCs item fuel left (mid - 1)
    else .error (.error "Error")

def findItem (allCoverPCs : List UInt64) (item : UInt64) : Except Fault UInt64 :=
  match allCoverPCs with
  | [] => .error .outOfRange
  | pc :: _ =>
    if item < pc then .error (.error "Error")
    else findLoop allCoverPCs item (allCoverPCs.length + 1) 0 (allCoverPCs.length - 1)

/-- The basic block of an address. The coverage point is recorded as the address behind the call
that is there. -/
def blockOf (allCoverPCs : List UInt64) (item : UInt64) : Except Fault UInt32 :=
  (findItem allCoverPCs item).map fun bb => bb.toUInt32 + 5

/-! ### The addresses of locations -/

def tagsOf (tag : String) : List String :=
  tag.toUTF8.data.toList.map fun b => String.singleton (Char.ofNat b.toNat)

def addrKey (H : Hash) (sourceLoc : String) (bb : UInt32) : String :=
  H.string (sourceLoc ++ hexText bb.toNat)

/-- The blocks of locations, and the addresses of locations in blocks. -/
structure Cover where
  locToBB : Table LocTy UInt32
  srcBBtoPC : Table String ItemTy

def noCover : Cover := ⟨fun _ => [], fun _ => []⟩

/-- One address, with the blocks that were met before for the tag. -/
def recordItem (H : Hash) (allCoverPCs : List UInt64) (sourceLoc tag : String)
    (s : Cover × List UInt32) (item : UInt64) : Except Fault (Cover × List UInt32) :=
  (blockOf allCoverPCs item).map fun bb =>
    let srcBBtoPC := add s.1.srcBBtoPC (addrKey H sourceLoc bb) ⟨item.toUInt32, tag⟩
    if bb ∈ s.2 then (⟨s.1.locToBB, srcBBtoPC⟩, s.2)
    else (⟨add s.1.locToBB ⟨sourceLoc, tag⟩ bb, srcBBtoPC⟩, bb :: s.2)

def recordTag (H : Hash) (allCoverPCs : List UInt64) (sourceLoc : String) (items : List UInt64)
    (s : Cover) (tag : String) : Except Fault Cover :=
  (items.foldlM (recordItem H allCoverPCs sourceLoc tag) (s, [])).map fst

def getCoverPerMapping (H : Hash) (allCoverPCs : List UInt64) (m : Mapping) : Except Fault Cover :=
  (tagsOf m.tag).foldlM (recordTag H allCoverPCs m.loc m.item) noCover

/-- One entry of the mapping. An error that is returned is fatal here. -/
def addMapping (H : Hash) (allCoverPCs : List UInt64) (s : Cover) (m : Mapping) :
    Except Fault Cover :=
  match getCoverPerMapping H allCoverPCs m with
  | .ok c => .ok ⟨merge s.locToBB c.locToBB, merge s.srcBBtoPC c.srcBBtoPC⟩
  | .error (.error err) => .error (.fatal err)
  | .error fault => .error fault

def initMapping (H : Hash) (allCoverPCs : List UInt64) (mapping : List Mapping) :
    Except Fault Cover :=
  mapping.foldlM (addMapping H allCoverPCs) noCover

/-- The entries of the mapping file as they are left by `loadMapping`. Its loop sets the tag of the
variable it runs with, which is a copy of the entry. -/
def loadMapping (mapping : List Mapping) : List Mapping :=
  (mapping.foldl (fun (s : List Mapping × Mapping) mapp =>
    (s.1, if mapp.tag = "" then { mapp with tag := "w" } else mapp)) (mapping, ⟨"", "", []⟩)).1

def getAddr (H : Hash) (c : Cover) (loc : String) (bb : UInt32) : List ItemTy :=
  c.srcBBtoPC (addrKey H loc bb)

/-! ### The table -/

abbrev RaceTable := Table UInt32 EntryTy

section Build

variable (locToBB : Table LocTy UInt32) (m : Mempair)

def addEntry (i : ℕ) (bb : UInt32) (table : RaceTable) (bb2 : UInt32) :
    Except Fault RaceTable := do
  let hsh ← getMempairHashFromLocs m.locs
  let loc ← index m.locs i
  let loc2 ← index m.locs (1 - i)
  return add table bb ⟨bb2, hsh, (loc, loc2)⟩

def addPartners (i : ℕ) (table : RaceTable) (bb : UInt32) : Except Fault RaceTable := do
  let loc2 ← index m.locs (1 - i)
  let tag2 ← index m.tags (1 - i)
  (locToBB ⟨loc2, tag2⟩).foldlM (addEntry m i bb) table

def addEntries (i : ℕ) (table : RaceTable) : Except Fault RaceTable := do
  let loc ← index m.locs i
  let tag ← index m.tags i
  (locToBB ⟨loc, tag⟩).foldlM (addPartners locToBB m i) table

def sameTags : Except Fault Bool := do
  let tag0 ← index m.tags 0
  let tag1 ← index m.tags 1
  return decide (tag0 = tag1)

/-- The loop over the two locations ends early. The tags are compared only if the locations are
the same. -/
def isSelfPair : Except Fault Bool := do
  let loc0 ← index m.locs 0
  let loc1 ← index m.locs 1
  if loc0 = loc1 then sameTags m else .ok false

def addMempair (table : RaceTable) : Except Fault RaceTable :=
  if m.locs.length ≠ 2 then .error (.panic "Broken static analysis result")
  else do
    let table ← addEntries locToBB m 0 table
    let stop ← isSelfPair m
    if stop then .ok table else addEntries locToBB m 1 table

end Build

def initSparseRaceCandPairs (mempair : List Mempair) (locToBB : Table LocTy UInt32) :
    Except Fault RaceTable :=
  mempair.foldlM (fun table m => addMempair locToBB m table) fun _ => []

/-! ### The coverage point of an address -/

/-- The last coverage point that is not behind the address. -/
def IsLast (pcs : List UInt64) (item : UInt64) (r : Except Fault UInt64) : Prop :=
  ∃ k < pcs.length, r = .ok (pcs.getD k 0) ∧ pcs.getD k 0 ≤ item ∧
    ∀ k', k < k' → k' < pcs.length → item < pcs.getD k' 0

variable {item : UInt64} {pcs : List UInt64} {s c : Cover} {locToBB : Table LocTy UInt32}

lemma findLoop_isLast (hs : pcs.Pairwise (· ≤ ·)) {fuel left right : ℕ}
    (hrg : right < pcs.length) (hle : left ≤ right) (hfl : right - left < fuel)
    (hlf : pcs.getD left 0 ≤ item)
    (hab : ∀ k, right < k → k < pcs.length → item < pcs.getD k 0) :
    IsLast pcs item (findLoop pcs item fuel left right) := by
  induction fuel generalizing left right with
  | zero => omega
  | succ fuel ih =>
    rw [findLoop, if_pos hle]
    by_cases hr : pcs.getD right 0 ≤ item
    · rw [if_pos hr]
      exact ⟨right, hrg, rfl, hr, hab⟩
    · have hlt : left < right := by
        rcases hle.eq_or_lt with rfl | hlt
        · exact absurd hlf hr
        · exact hlt
      rw [if_neg hr]
      by_cases hmid : pcs.getD ((left + right) / 2) 0 ≤ item
      · simp only [if_pos hmid]
        split_ifs with heq
        · -- `right` is the next index
          refine ⟨_, by omega, rfl, hmid, fun k' hk' hk'l => ?_⟩
          by_cases hk : right < k'
          · exact hab k' hk hk'l
          · obtain rfl : k' = right := by omega
            exact UInt64.not_le.1 hr
        · exact ih hrg (by omega) (by omega) hmid hab
      · have hne : (left + right) / 2 ≠ left := fun heq => hmid (by rw [heq]; exact hlf)
        simp only [if_neg hmid]
        rw [if_neg (by omega)]
        refine ih (by omega) (by omega) (by omega) hlf fun k hk hkl => ?_
        have hm : (left + right) / 2 < pcs.length := by omega
        have hmk : pcs.getD ((left + right) / 2) 0 ≤ pcs.getD k 0 := by
          rcases Nat.eq_or_lt_of_le (show (left + right) / 2 ≤ k by omega) with heq | hlt
          · rw [heq]
            exact UInt64.le_refl _
          · rw [getD_eq_getElem _ _ hm, getD_eq_getElem _ _ hkl]
            exact pairwise_iff_getElem.1 hs _ _ hm hkl hlt
        exact UInt64.lt_of_lt_of_le (UInt64.not_le.1 hmid) hmk

/-- **The coverage point of an address.** If there is one that is not behind the address, the
search finds the last one. -/
theorem findItem_isLast (hs : pcs.Pairwise (· ≤ ·)) (h : ∃ pc ∈ pcs, pc ≤ item) :
    IsLast pcs item (findItem pcs item) := by
  obtain ⟨pc, hpc, hle⟩ := h
  cases pcs with
  | nil => simp at hpc
  | cons pc₀ pcs =>
    have hfr : pc₀ ≤ item := by
      rcases mem_cons.1 hpc with rfl | hmem
      · exact hle
      · exact UInt64.le_trans ((pairwise_cons.1 hs).1 pc hmem) hle
    rw [findItem, if_neg (UInt64.not_lt.2 hfr)]
    refine findLoop_isLast hs (by simp) (Nat.zero_le _) (by simp) hfr fun k hk hkl => ?_
    simp only [length_cons] at hk hkl
    omega

/-- The block of the address starts at the greatest coverage point that is not behind it. -/
def Starts (pcs : List UInt64) (item pc : UInt64) : Prop :=
  pc ∈ pcs ∧ pc ≤ item ∧ ∀ q ∈ pcs, q ≤ item → q ≤ pc

lemma IsLast.starts {r : Except Fault UInt64} (hs : pcs.Pairwise (· ≤ ·)) (h : IsLast pcs item r) :
    ∃ pc, r = .ok pc ∧ Starts pcs item pc := by
  obtain ⟨k, hk, rfl, hle, hab⟩ := h
  rw [getD_eq_getElem _ _ hk] at hle ⊢
  refine ⟨_, rfl, getElem_mem hk, hle, fun q hq hqi => ?_⟩
  obtain ⟨j, hj, rfl⟩ := mem_iff_getElem.1 hq
  rcases Nat.lt_trichotomy j k with hlt | rfl | hgt
  · exact pairwise_iff_getElem.1 hs _ _ hj hk hlt
  · exact UInt64.le_refl _
  · have hlt := hab j hgt hj
    rw [getD_eq_getElem _ _ hj] at hlt
    exact absurd hqi (UInt64.not_le.2 hlt)

lemma blockOf_starts {pc : UInt64} (hs : pcs.Pairwise (· ≤ ·)) (h : Starts pcs item pc) :
    blockOf pcs item = .ok (pc.toUInt32 + 5) := by
  obtain ⟨pc', hpc', hmem, hle, hmax⟩ := (findItem_isLast hs ⟨pc, h.1, h.2.1⟩).starts hs
  rw [blockOf, hpc', UInt64.le_antisymm (h.2.2 _ hmem hle) (hmax _ h.1 h.2.1)]
  rfl

/-! ### What is recorded -/

structure Record where
  loc : String
  tag : String
  item : UInt64
  bb : UInt32

def Record.key (r : Record) : LocTy := ⟨r.loc, r.tag⟩

def Record.access (r : Record) : ItemTy := ⟨r.item.toUInt32, r.tag⟩

def Record.addr (H : Hash) (r : Record) : String × ItemTy := (addrKey H r.loc r.bb, r.access)

def recordOf (pcs : List UInt64) (loc tag : String) (item : UInt64) : List Record :=
  match blockOf pcs item with
  | .ok bb => [⟨loc, tag, item, bb⟩]
  | .error _ => []

/-- The records of an entry of the mapping: each address once for each way of access. -/
def recordsOf (pcs : List UInt64) (m : Mapping) : List Record :=
  (tagsOf m.tag).flatMap fun tag => m.item.flatMap (recordOf pcs m.loc tag)

def allRecords (pcs : List UInt64) (mapping : List Mapping) : List Record :=
  mapping.flatMap (recordsOf pcs)

/-- The blocks and the addresses are those of the records. -/
structure Shows (H : Hash) (rs : List Record) (c : Cover) : Prop where
  addr : c.srcBBtoPC = addAll (fun _ => []) (rs.map (Record.addr H))
  block : ∀ k b, b ∈ c.locToBB k ↔ ∃ r ∈ rs, r.key = k ∧ r.bb = b

variable {H : Hash} {rs : List Record} {s' : Cover} {b : UInt32} {e : EntryTy}
  {hsh : MempairHash}

lemma shows_noCover : Shows H [] noCover := ⟨rfl, by simp [noCover]⟩

/-- While the addresses of one tag are recorded, a block that was met is one of the location. -/
def ShowsTag (H : Hash) (key : LocTy) (rs : List Record) (s : Cover × List UInt32) : Prop :=
  Shows H rs s.1 ∧ ∀ b ∈ s.2, ∃ r ∈ rs, r.key = key ∧ r.bb = b

lemma addAll_snoc_addr (rs : List Record) (r : Record) :
    addAll (fun _ => []) ((rs ++ [r]).map (Record.addr H)) =
      add (addAll (fun _ => []) (rs.map (Record.addr H))) (addrKey H r.loc r.bb) r.access := by
  rw [map_append, addAll_append]
  rfl

lemma recordItem_shows {loc tag : String} {s s' : Cover × List UInt32}
    (h : ShowsTag H ⟨loc, tag⟩ rs s) (hs : recordItem H pcs loc tag s item = .ok s') :
    ShowsTag H ⟨loc, tag⟩ (rs ++ recordOf pcs loc tag item) s' := by
  obtain ⟨⟨had, hbl⟩, hmet⟩ := h
  rw [recordItem] at hs
  rw [recordOf]
  cases hbb : blockOf pcs item with
  | error e =>
    rw [hbb] at hs
    cases hs
  | ok bb =>
    rw [hbb] at hs
    have hadd := addAll_snoc_addr (H := H) rs ⟨loc, tag, item, bb⟩
    rw [← had] at hadd
    simp only [Except.map, ok.injEq] at hs
    by_cases hmem : bb ∈ s.2
    · rw [if_pos hmem] at hs
      subst hs
      obtain ⟨r, hr, hkey, hrbb⟩ := hmet bb hmem
      refine ⟨⟨hadd.symm, fun k b => ?_⟩, fun b hb => ?_⟩
      · simp only [hbl, mem_append, mem_singleton]
        constructor
        · rintro ⟨r', hr', h⟩
          exact ⟨r', .inl hr', h⟩
        · rintro ⟨r', hr' | rfl, hk, hb⟩
          · exact ⟨r', hr', hk, hb⟩
          · exact ⟨r, hr, hkey.trans hk, hrbb.trans hb⟩
      · obtain ⟨r', hr', h⟩ := hmet b hb
        exact ⟨r', mem_append_left _ hr', h⟩
    · rw [if_neg hmem] at hs
      subst hs
      refine ⟨⟨hadd.symm, fun k b => ?_⟩, fun b hb => ?_⟩
      · simp only [mem_add, hbl, mem_append, mem_singleton]
        constructor
        · rintro (⟨r', hr', h⟩ | ⟨rfl, rfl⟩)
          · exact ⟨r', .inl hr', h⟩
          · exact ⟨_, .inr rfl, rfl, rfl⟩
        · rintro ⟨r', hr' | rfl, hk, hb⟩
          · exact .inl ⟨r', hr', hk, hb⟩
          · exact .inr ⟨hk.symm, hb.symm⟩
      · rcases mem_cons.1 hb with rfl | hb
        · exact ⟨_, mem_append_right _ (mem_singleton_self _), rfl, rfl⟩
        · obtain ⟨r', hr', h⟩ := hmet b hb
          exact ⟨r', mem_append_left _ hr', h⟩

lemma recordTag_shows {loc : String} {items : List UInt64} {tag : String}
    (h : Shows H rs s) (hs : recordTag H pcs loc items s tag = .ok s') :
    Shows H (rs ++ items.flatMap (recordOf pcs loc tag)) s' := by
  rw [recordTag] at hs
  cases hfl : items.foldlM (recordItem H pcs loc tag) (s, []) with
  | error e =>
    rw [hfl] at hs
    cases hs
  | ok r =>
    rw [hfl] at hs
    obtain rfl : r.1 = s' := ok.inj hs
    exact (foldlM_collects (I := ShowsTag H ⟨loc, tag⟩)
      (fun _ _ _ _ h hx => recordItem_shows h hx) ⟨h, by simp⟩ hfl).1

variable {m : Mapping}

lemma getCoverPerMapping_shows (h : getCoverPerMapping H pcs m = .ok c) :
    Shows H (recordsOf pcs m) c :=
  foldlM_collects (I := Shows H) (fun _ _ _ _ h hx => recordTag_shows h hx) shows_noCover h

/-- **Basic blocks.** The search fails if the address is before all coverage points, and finds the
greatest one that is not behind it if not. Each address is recorded under the block it is in. -/
theorem getCoverPerMapping_starts (H : Hash) (hne : pcs ≠ []) (hs : pcs.Pairwise (· ≤ ·)) :
    (∀ item, if item < pcs.head hne then findItem pcs item = .error (.error "Error")
      else ∃ pc, findItem pcs item = .ok pc ∧ Starts pcs item pc) ∧
    ∀ (m : Mapping) (start : UInt64 → UInt64), (∀ item ∈ m.item, Starts pcs item (start item)) →
      ∃ c, getCoverPerMapping H pcs m = .ok c ∧
        Shows H ((tagsOf m.tag).flatMap fun tag => m.item.map fun item =>
          ⟨m.loc, tag, item, (start item).toUInt32 + 5⟩) c := by
  refine ⟨fun item => ?_, fun m start h => ?_⟩
  · split_ifs with hlt
    · cases pcs with
      | nil => exact absurd rfl hne
      | cons pc pcs => exact if_pos hlt
    · exact (findItem_isLast hs ⟨_, head_mem hne, UInt64.not_lt.1 hlt⟩).starts hs
  · have hbl := fun item hi => blockOf_starts hs (h item hi)
    have hok : ∀ tag s, ∃ s', recordTag H pcs m.loc m.item s tag = .ok s' := fun tag s => by
      rw [recordTag, foldlM_ok fun item hi s => by rw [recordItem, hbl item hi]; rfl]
      exact ⟨_, rfl⟩
    choose g hg using hok
    have hc := foldlM_ok (fun tag (_ : tag ∈ tagsOf m.tag) s => hg tag s) noCover
    have hrc : ∀ tag, m.item.flatMap (recordOf pcs m.loc tag) = m.item.map fun item =>
        ⟨m.loc, tag, item, (start item).toUInt32 + 5⟩ := fun tag => by
      rw [map_eq_flatMap]
      exact flatMap_congr fun item hi => by rw [recordOf, hbl item hi]
    simp only [← hrc]
    exact ⟨_, hc, getCoverPerMapping_shows hc⟩

theorem getCoverPerMapping_starts_twice :
    (∃ pc, findItem [4, 4, 9] 7 = .ok pc ∧ Starts [4, 4, 9] 7 pc) ∧
      ∃ c, getCoverPerMapping plainHash [4, 4, 9] ⟨"f.c:1", "R", [7]⟩ = .ok c :=
  have h := @getCoverPerMapping_starts [4, 4, 9] plainHash (by simp) (by decide)
  ⟨h.1 7, (h.2 _ (fun _ => 4) (by simp [Starts])).imp fun _ => And.left⟩

lemma Shows.merge {rs' : List Record} (h : Shows H rs s) (h' : Shows H rs' c) :
    Shows H (rs ++ rs')
      ⟨Buckets.merge s.locToBB c.locToBB, Buckets.merge s.srcBBtoPC c.srcBBtoPC⟩ := by
  refine ⟨?_, fun k b => ?_⟩
  · show Buckets.merge s.srcBBtoPC c.srcBBtoPC = _
    rw [h.addr, h'.addr, merge_addAll, map_append, addAll_append]
  · show b ∈ s.locToBB k ++ c.locToBB k ↔ _
    simp only [mem_append, h.block, h'.block, or_and_right, exists_or]

lemma addMapping_shows (h : Shows H rs s) (hs : addMapping H pcs s m = .ok s') :
    Shows H (rs ++ recordsOf pcs m) s' := by
  rw [addMapping] at hs
  split at hs
  · next c hc =>
    obtain rfl := ok.inj hs
    exact h.merge (getCoverPerMapping_shows hc)
  · cases hs
  · cases hs

/-- **The mapping.** If it is initialised, it has the records of all its entries. -/
theorem initMapping_shows {ms : List Mapping} (h : initMapping H pcs ms = .ok c) :
    Shows H (allRecords pcs ms) c :=
  foldlM_collects (I := Shows H) (fun _ _ _ _ h hx => addMapping_shows h hx) shows_noCover h

/-! ### What the table has -/

section Build

variable {m : Mempair}

/-- The entries that the blocks of a tagged location get for those of another one. -/
def entriesOf (locToBB : Table LocTy UInt32) (hsh : MempairHash) (k k' : LocTy) :
    List (UInt32 × EntryTy) :=
  (locToBB k).flatMap fun bb =>
    (locToBB k').map fun bb2 => (bb, ⟨bb2, hsh, (k.sourceLoc, k'.sourceLoc)⟩)

variable {k k' : LocTy} {i : ℕ}

lemma mem_entriesOf :
    (b, e) ∈ entriesOf locToBB hsh k k' ↔
      b ∈ locToBB k ∧ e.cover ∈ locToBB k' ∧ e.mempair = (k.sourceLoc, k'.sourceLoc) ∧
        e.hash = hsh := by
  simp only [entriesOf, mem_flatMap, mem_map, mk.injEq]
  constructor
  · rintro ⟨bb, hbb, bb2, hbb2, rfl, rfl⟩
    exact ⟨hbb, hbb2, rfl, rfl⟩
  · rintro ⟨hb, hcov, hmp, rfl⟩
    exact ⟨b, hb, e.cover, hcov, rfl, by rw [← hmp]⟩

def LocAt (m : Mempair) (i : ℕ) (k : LocTy) : Prop :=
  index m.locs i = .ok k.sourceLoc ∧ index m.tags i = .ok k.tag

lemma addEntry_eq (h2 : 2 ≤ m.locs.length) (hk : LocAt m i k) (hk' : LocAt m (1 - i) k')
    (bb bb2 : UInt32) (tab : RaceTable) :
    addEntry m i bb tab bb2 =
      .ok (add tab bb ⟨bb2, hashAt m.locs, (k.sourceLoc, k'.sourceLoc)⟩) := by
  rw [addEntry, getMempairHashFromLocs_of_le h2, hk.1, hk'.1]
  rfl

lemma addPartners_eq (h2 : 2 ≤ m.locs.length) (hk : LocAt m i k) (hk' : LocAt m (1 - i) k')
    (bb : UInt32) (tab : RaceTable) :
    addPartners locToBB m i tab bb =
      .ok (addAll tab ((locToBB k').map fun bb2 =>
        (bb, ⟨bb2, hashAt m.locs, (k.sourceLoc, k'.sourceLoc)⟩))) := by
  rw [addPartners, hk'.1, hk'.2]
  refine (foldlM_ok (fun bb2 _ t => addEntry_eq h2 hk hk' bb bb2 t) tab).trans ?_
  rw [addAll, foldl_map]

lemma addEntries_eq (h2 : 2 ≤ m.locs.length) (hk : LocAt m i k) (hk' : LocAt m (1 - i) k')
    (tab : RaceTable) :
    addEntries locToBB m i tab = .ok (addAll tab (entriesOf locToBB (hashAt m.locs) k k')) := by
  rw [addEntries, hk.1, hk.2]
  refine (foldlM_ok (fun bb _ t => addPartners_eq h2 hk hk' bb t) tab).trans ?_
  rw [addAll, entriesOf, foldl_flatMap]
  rfl

def ends (m : Mempair) : Option (LocTy × LocTy) :=
  match m.locs, m.tags with
  | [l0, l1], t0 :: t1 :: _ => some (⟨l0, t0⟩, ⟨l1, t1⟩)
  | _, _ => none

lemma ends_isSome (hlc : m.locs.length = 2) (htg : 2 ≤ m.tags.length) :
    ∃ k k', ends m = some (k, k') := by
  obtain ⟨l0, l1, hl⟩ := length_eq_two.1 hlc
  match ht : m.tags with
  | [] => simp [ht] at htg
  | [t] => simp [ht] at htg
  | t0 :: t1 :: rest => exact ⟨⟨l0, t0⟩, ⟨l1, t1⟩, by simp [ends, hl, ht]⟩

lemma ends_spec (h : ends m = some (k, k')) :
    m.locs = [k.sourceLoc, k'.sourceLoc] ∧ LocAt m 0 k ∧ LocAt m 1 k' ∧
      isSelfPair m = .ok (decide (k = k')) := by
  rw [ends] at h
  split at h
  · next l0 l1 t0 t1 rest hl ht =>
    obtain ⟨rfl, rfl⟩ := mk.inj (Option.some.inj h)
    refine ⟨hl, by simp [LocAt, index, hl, ht], by simp [LocAt, index, hl, ht], ?_⟩
    simp only [isSelfPair, sameTags, index, hl, ht, bind, Except.bind, pure, Except.pure,
      getElem?_cons_zero, getElem?_cons_succ, LocTy.mk.injEq]
    split_ifs with heq
    · simp [heq]
    · simp [heq]
  · cases h

/-- The entries of a pair, both ways round. If both tagged locations are the same, once is both. -/
def pairEntries (locToBB : Table LocTy UInt32) (m : Mempair) : List (UInt32 × EntryTy) :=
  match ends m with
  | some (k, k') =>
    entriesOf locToBB (hashAt m.locs) k k' ++
      if k = k' then [] else entriesOf locToBB (hashAt m.locs) k' k
  | none => []

lemma addMempair_eq (h : ends m = some (k, k')) (tab : RaceTable) :
    addMempair locToBB m tab = .ok (addAll tab (pairEntries locToBB m)) := by
  obtain ⟨hlc, hk, hk', hsl⟩ := ends_spec h
  have hlen : m.locs.length = 2 := by rw [hlc]; rfl
  rw [addMempair, if_neg (by simpa using hlen), addEntries_eq hlen.ge hk hk', hsl, pairEntries, h]
  by_cases heq : k = k'
  · simp only [heq, decide_true, if_true, append_nil]
    rfl
  · simp only [heq, decide_false, if_false, addAll_append]
    exact addEntries_eq hlen.ge hk' hk _

end Build

lemma initSparseRaceCandPairs_eq {mp : List Mempair}
    (h : ∀ m ∈ mp, ∃ k k', ends m = some (k, k')) :
    initSparseRaceCandPairs mp locToBB =
      .ok (addAll (fun _ => []) (mp.flatMap (pairEntries locToBB))) := by
  rw [initSparseRaceCandPairs]
  refine (foldlM_ok (g := fun t m => addAll t (pairEntries locToBB m))
    (fun m hm t => ?_) _).trans ?_
  · obtain ⟨k, k', hen⟩ := h m hm
    exact addMempair_eq hen t
  · rw [addAll, foldl_flatMap]
    rfl

/-- The pair has these tagged locations, in one of the two orders. -/
def Joins (m : Mempair) (k k' : LocTy) : Prop := ends m = some (k, k') ∨ ends m = some (k', k)

lemma Joins.hash {m : Mempair} {k k' : LocTy} (h : Joins m k k') :
    hashAt m.locs = hashAt [k.sourceLoc, k'.sourceLoc] := by
  rcases h with h | h
  · rw [(ends_spec h).1]
  · rw [(ends_spec h).1, hashAt, hashAt, sortedConcate_perm (.swap ..)]

lemma mem_pairEntries {m : Mempair} :
    (b, e) ∈ pairEntries locToBB m ↔ ∃ k k', Joins m k k' ∧ b ∈ locToBB k ∧
      e.cover ∈ locToBB k' ∧ e.mempair = (k.sourceLoc, k'.sourceLoc) ∧
        e.hash = hashAt [k.sourceLoc, k'.sourceLoc] := by
  rw [pairEntries]
  constructor
  · intro h
    split at h
    · next k k' hes =>
      rcases mem_append.1 h with h | h
      · have hj : Joins m k k' := .inl hes
        exact ⟨k, k', hj, hj.hash ▸ mem_entriesOf.1 h⟩
      · split_ifs at h with heq
        · cases h
        · have hj : Joins m k' k := .inr hes
          exact ⟨k', k, hj, hj.hash ▸ mem_entriesOf.1 h⟩
    · cases h
  · rintro ⟨k, k', hj, hen⟩
    rw [← hj.hash, ← mem_entriesOf] at hen
    rcases hj with hes | hes
    · simp only [hes]
      exact mem_append_left _ hen
    · simp only [hes]
      by_cases heq : k' = k
      · subst heq
        exact mem_append_left _ hen
      · rw [if_neg heq]
        exact mem_append_right _ hen

lemma mem_table {mp : List Mempair} :
    e ∈ addAll (fun _ => []) (mp.flatMap (pairEntries locToBB)) b ↔
      ∃ m ∈ mp, ∃ k k', Joins m k k' ∧ b ∈ locToBB k ∧ e.cover ∈ locToBB k' ∧
        e.mempair = (k.sourceLoc, k'.sourceLoc) ∧
          e.hash = hashAt [k.sourceLoc, k'.sourceLoc] := by
  simp only [mem_addAll, not_mem_nil, false_or, mem_flatMap, mem_pairEntries]

/-- **The table is the symmetric closure of the pairs.** An entry is under a block exactly if a pair
has tagged locations with the block and the block of the entry, and the other block has the entry
for the two the other way round. -/
theorem initSparseRaceCandPairs_symmetric (mempair : List Mempair)
    (locToBB : Table LocTy UInt32)
    (h : ∀ m ∈ mempair, m.locs.length = 2 ∧ m.tags.length = 2) :
    ∃ table, initSparseRaceCandPairs mempair locToBB = .ok table ∧
      (∀ b e, e ∈ table b ↔ ∃ m ∈ mempair, ∃ l t l' t',
        (m = ⟨[l, l'], [t, t']⟩ ∨ m = ⟨[l', l], [t', t]⟩) ∧ b ∈ locToBB ⟨l, t⟩ ∧
          e.cover ∈ locToBB ⟨l', t'⟩ ∧ e.mempair = (l, l') ∧
            getMempairHashFromLocs [l, l'] = .ok e.hash) ∧
      ∀ b e, e ∈ table b → ⟨b, e.hash, e.mempair.swap⟩ ∈ table e.cover := by
  have hen : ∀ m ∈ mempair, ∀ k k', ends m = some (k, k') ↔
      m = ⟨[k.sourceLoc, k'.sourceLoc], [k.tag, k'.tag]⟩ := by
    intro m hm k k'
    obtain ⟨hlc, htg⟩ := h m hm
    obtain ⟨l0, l1, hl⟩ := length_eq_two.1 hlc
    obtain ⟨t0, t1, ht⟩ := length_eq_two.1 htg
    obtain ⟨locs, tags⟩ := m
    obtain rfl : locs = [l0, l1] := hl
    obtain rfl : tags = [t0, t1] := ht
    obtain ⟨kl, kt⟩ := k
    obtain ⟨kl', kt'⟩ := k'
    simp only [ends, Option.some.injEq, mk.injEq, LocTy.mk.injEq, Mempair.mk.injEq,
      cons.injEq, and_true]
    tauto
  refine ⟨_, initSparseRaceCandPairs_eq fun m hm => ?_, fun b e => ?_, fun b e he => ?_⟩
  · exact ends_isSome (h m hm).1 (h m hm).2.ge
  · rw [mem_table]
    refine exists_congr fun m => and_congr_right fun hm => ?_
    constructor
    · rintro ⟨k, k', hj, hb, hcov, hmp, hhs⟩
      refine ⟨k.sourceLoc, k.tag, k'.sourceLoc, k'.tag, ?_, hb, hcov, hmp, ?_⟩
      · exact hj.imp (hen m hm k k').1 (hen m hm k' k).1
      · rw [getMempairHashFromLocs_of_le (by simp), hhs]
    · rintro ⟨l, t, l', t', hj, hb, hcov, hmp, hhs⟩
      refine ⟨⟨l, t⟩, ⟨l', t'⟩, ?_, hb, hcov, hmp, ?_⟩
      · exact hj.imp (hen m hm ⟨l, t⟩ ⟨l', t'⟩).2 (hen m hm ⟨l', t'⟩ ⟨l, t⟩).2
      · rw [getMempairHashFromLocs_of_le (by simp)] at hhs
        exact (ok.inj hhs).symm
  · obtain ⟨m, hm, k, k', hj, hb, hcov, hmp, hhs⟩ := mem_table.1 he
    refine mem_table.2 ⟨m, hm, k', k, hj.symm, hcov, hb, ?_, ?_⟩
    · simp [hmp]
    · show e.hash = _
      rw [hhs, hashAt, hashAt, sortedConcate_perm (.swap ..)]

/-- A pair, and a location that races with itself. -/
theorem initSparseRaceCandPairs_symmetric_two :
    ∃ table, initSparseRaceCandPairs [⟨["a", "b"], ["W", "R"]⟩, ⟨["a", "a"], ["W", "W"]⟩]
        (fun k => if k = ⟨"a", "W"⟩ then [1, 2] else if k = ⟨"b", "R"⟩ then [3] else []) =
        .ok table ∧
      ∀ b e, e ∈ table b → ⟨b, e.hash, e.mempair.swap⟩ ∈ table e.cover := by
  obtain ⟨table, htb, -, hsy⟩ := initSparseRaceCandPairs_symmetric
    [⟨["a", "b"], ["W", "R"]⟩, ⟨["a", "a"], ["W", "W"]⟩]
    (fun k => if k = ⟨"a", "W"⟩ then [1, 2] else if k = ⟨"b", "R"⟩ then [3] else []) (by decide)
  exact ⟨table, htb, hsy⟩

variable {fz : RaceCand.Fuzzer} {mempair : List Mempair} {cov1 cov2 : RawCover}

lemma mayRace_ne_nil (hm : ∀ m ∈ mempair, m.locs.length = 2 ∧ 2 ≤ m.tags.length)
    (htb : initSparseRaceCandPairs mempair locToBB = .ok fz.sparseRaceCandPairs)
    (h2 : cov2.Pairwise (· < ·)) (i j : ℕ) (perm : Equiv.Perm (Fin cov1.length)) :
    mayRace fz i j (shuffle cov1 perm) cov2 ≠ [] ↔ ∃ m ∈ mempair,
      (fz.doSuppFreq → hashAt m.locs ∉ fz.suppressedPairs) ∧
      ∃ k k', Joins m k k' ∧ (∃ b ∈ cov1, b ∈ locToBB k) ∧ ∃ b ∈ cov2, b ∈ locToBB k' := by
  rw [initSparseRaceCandPairs_eq fun m h => ends_isSome (hm m h).1 (hm m h).2] at htb
  rw [(mayRace_walked fz i j cov1 cov2 perm h2).some, ← ok.inj htb]
  constructor
  · rintro (h | ⟨b, hb, e, he, hcov, hsp⟩)
    · exact absurd rfl h
    obtain ⟨m, hm, k, k', hj, hbk, hck, -, hhs⟩ := mem_table.1 he
    exact ⟨m, hm, by simpa [isSupp, hhs, hj.hash] using hsp, k, k', hj, ⟨b, hb, hbk⟩, _, hcov, hck⟩
  · rintro ⟨m, hm, hsp, k, k', hj, ⟨b, hb, hbk⟩, b', hb', hbk'⟩
    exact .inr ⟨b, hb, ⟨b', hashAt m.locs, k.sourceLoc, k'.sourceLoc⟩,
      mem_table.2 ⟨m, hm, k, k', hj, hbk, hbk', rfl, hj.hash⟩, hb', by simpa [isSupp] using hsp⟩

/-- **Two calls may race in either order.** With the table of the static analysis a candidate is
found for two covers exactly if one is found for them the other way round. -/
theorem mayRace_swap (hm : ∀ m ∈ mempair, m.locs.length = 2 ∧ 2 ≤ m.tags.length)
    (htb : initSparseRaceCandPairs mempair locToBB = .ok fz.sparseRaceCandPairs)
    (h1 : cov1.Pairwise (· < ·)) (h2 : cov2.Pairwise (· < ·)) (i j : ℕ)
    (perm : Equiv.Perm (Fin cov1.length)) (perm' : Equiv.Perm (Fin cov2.length)) :
    mayRace fz i j (shuffle cov1 perm) cov2 ≠ [] ↔
      mayRace fz j i (shuffle cov2 perm') cov1 ≠ [] := by
  rw [mayRace_ne_nil hm htb h2, mayRace_ne_nil hm htb h1]
  constructor <;>
  · rintro ⟨m, hm, hsp, k, k', hj, hb, hb'⟩
    exact ⟨m, hm, hsp, k', k, hj.symm, hb', hb⟩

theorem mayRace_swap_pair : ∃ fz : RaceCand.Fuzzer,
    initSparseRaceCandPairs [⟨["a", "b"], ["W", "R"]⟩] (fun _ => [1, 2]) =
      .ok fz.sparseRaceCandPairs ∧
    (mayRace fz 0 1 (shuffle [1] 1) [2] ≠ [] ↔ mayRace fz 1 0 (shuffle [2] 1) [1] ≠ []) := by
  obtain ⟨table, h⟩ : ∃ table, initSparseRaceCandPairs [⟨["a", "b"], ["W", "R"]⟩]
      (fun _ => [1, 2]) = .ok table := ⟨_, initSparseRaceCandPairs_eq (by simp [ends])⟩
  exact ⟨⟨table, [], false, false, []⟩, h, mayRace_swap (by decide) h (by decide) (by decide) ..⟩

/-- **From the pairs to the candidates.** A candidate is found for two covers exactly if a pair
that is neither disabled nor suppressed has one location in a block of each of them. -/
theorem mayRace_iff_pair {pairs disabled : List Mempair}
    (hp : ∀ m ∈ pairs, m.locs.length = 2 ∧ 2 ≤ m.tags.length ∧ ∀ loc ∈ m.locs, NoBlank loc)
    (hd : ∀ d ∈ disabled, d.locs.length = 1 ∨ d.locs.length = 2)
    (hcf : CollisionFree (pairs ++ disabled))
    (hrm : removeDisabledMempair pairs disabled = .ok mempair)
    (htb : initSparseRaceCandPairs mempair locToBB = .ok fz.sparseRaceCandPairs)
    (h2 : cov2.Pairwise (· < ·)) (i j : ℕ) (perm : Equiv.Perm (Fin cov1.length)) :
    mayRace fz i j (shuffle cov1 perm) cov2 ≠ [] ↔ ∃ m ∈ pairs, (∀ d ∈ disabled, ¬ Removes d m) ∧
      (fz.doSuppFreq → hashAt m.locs ∉ fz.suppressedPairs) ∧
      ∃ k k', Joins m k k' ∧ (∃ b ∈ cov1, b ∈ locToBB k) ∧ ∃ b ∈ cov2, b ∈ locToBB k' := by
  obtain ⟨s, hs, hcol⟩ := foldlM_addDisabled fun d (hm : d ∈ disabled) heq => by
    simpa [heq] using hd d hm
  rw [removeDisabledMempair, hs] at hrm
  have hen := enabled_of_le (s := s) fun m hm => (hp m hm).1.ge
  obtain rfl := ok.inj (hen.symm.trans hrm)
  rw [mayRace_ne_nil (fun m hm => ?_) htb h2]
  · simp only [mem_filter, decide_eq_true_eq, and_assoc]
    refine exists_congr fun m => and_congr_right fun hm => ?_
    rw [keeps_iff hcol hd hcf hm (hp m hm).1 (hp m hm).2.2]
  · have hm := hp m (mem_filter.1 hm).1
    exact ⟨hm.1, hm.2.1⟩

/-- A disabled location that the pair does not have. -/
theorem mayRace_iff_pair_enabled : ∃ (fz : RaceCand.Fuzzer) (mempair : List Mempair),
    removeDisabledMempair [⟨["a", "b"], ["W", "R"]⟩] [⟨["c"], []⟩] = .ok mempair ∧
    initSparseRaceCandPairs mempair (fun _ => [1, 2]) = .ok fz.sparseRaceCandPairs ∧
    mayRace fz 0 1 (shuffle [1] 1) [2] ≠ [] := by
  have hrm : removeDisabledMempair [⟨["a", "b"], ["W", "R"]⟩] [⟨["c"], []⟩] =
    .ok [⟨["a", "b"], ["W", "R"]⟩] := by decide +kernel
  obtain ⟨table, h⟩ : ∃ table, initSparseRaceCandPairs [⟨["a", "b"], ["W", "R"]⟩]
      (fun _ => [1, 2]) = .ok table := ⟨_, initSparseRaceCandPairs_eq (by simp [ends])⟩
  refine ⟨⟨table, [], false, false, []⟩, _, hrm, h, ?_⟩
  rw [mayRace_iff_pair (by decide) (by decide) (by simp [CollisionFree]) hrm h (by decide)]
  exact ⟨_, mem_singleton_self _, by decide, by simp, _, _, .inl rfl, ⟨1, by simp⟩, 2, by simp⟩

end Razzer.RaceTables
