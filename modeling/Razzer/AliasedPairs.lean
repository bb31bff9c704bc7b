import Razzer.Dicts
import Razzer.Loops

/-!
The pairs of locations that may access the same memory, of `get_aliased_pair.py`.

The points-to analysis has for each instruction the memory locations it may load from and store
to. The source locations of the instructions are collected for each memory location and type of
the pointer. From two of them a pair is made if one of them is a store, with the types of both
accesses. All pairs go into one dictionary under the two locations, so of several types that a
pair has only the last one is printed. With `--aset` the locations of a memory location are stored
as a set instead, unless they are in the set of another one.
-/

namespace Razzer.AliasedPairs

open Dicts Loops Function List

inductive Access
  | W | R
  deriving DecidableEq

def Access.text : Access → String
  | .W => "W"
  | .R => "R"

/-- An instruction, with its sets in the order in which they are walked. -/
structure Instruction where
  loadFrom : List ℤ
  storeTo : List ℤ
  sourceLoc : String
  pointerType : String

/-! ### Source locations -/

/-- `strip_start`. All of the text is left if there is nothing behind the directory. -/
def stripStart (text dir : List Char) : List Char :=
  if dir.isPrefixOf text then
    let ret := if text.length = dir.length then text else text.drop dir.length
    if ['.', '/'].isPrefixOf ret then ret.drop 2 else ret
  else text

/-- `remove_column`: the third part becomes a zero. It is an error if there is none. -/
def removeColumn (text : List Char) : Except String (List Char) :=
  let toks := text.splitOn ':'
  if toks.length < 3 then .error "IndexError: list assignment index out of range"
  else .ok ([':'].intercalate (toks.set 2 ['0']))

def getSourceLocation (dir : String) (insn : Instruction) : Except String String :=
  (removeColumn (stripStart insn.sourceLoc.toList dir.toList)).map String.ofList

def getAccessedMemoryLocation (insn : Instruction) : List (ℤ × Bool) :=
  insn.storeTo.map (fun loc => (loc, true)) ++ insn.loadFrom.map fun loc => (loc, false)

/-! ### Memory locations -/

/-- The source locations of the loads and stores of a memory location. -/
structure MemoryLocation where
  loadInsn : Finset String
  storeInsn : Finset String

abbrev Key := ℤ × String

structure Memory where
  keys : Finset Key
  loc : Key → MemoryLocation

def Memory.empty : Memory := ⟨∅, fun _ => ⟨∅, ∅⟩⟩

def addInstruction (m : MemoryLocation) (source : String) (isWrite : Bool) : MemoryLocation :=
  if isWrite then { m with storeInsn := insert source m.storeInsn }
  else { m with loadInsn := insert source m.loadInsn }

/-- One accessed memory location. The one with the number one is left out. -/
def addAccess (dir : String) (insn : Instruction) (m : Memory) (a : ℤ × Bool) :
    Except String Memory :=
  if a.1 = 1 then .ok m
  else
    let key : Key := (a.1, insn.pointerType)
    (getSourceLocation dir insn).map fun source =>
      ⟨insert key m.keys, update m.loc key (addInstruction (m.loc key) source a.2)⟩

def addInsn (dir : String) (m : Memory) (insn : Instruction) : Except String Memory :=
  (getAccessedMemoryLocation insn).foldlM (addAccess dir insn) m

def loadDump (dir : String) (dump : List Instruction) : Except String Memory :=
  dump.foldlM (addInsn dir) Memory.empty

/-! ### Pairs -/

abbrev Pair := String ×ₗ String

/-- `__sort`: the smaller location first, with its type. -/
def sortPair (mempair : String × String) (typ : Access × Access) : Pair × (Access × Access) :=
  if mempair.2 < mempair.1 then (toLex (mempair.2, mempair.1), (typ.2, typ.1))
  else (toLex mempair, typ)

/-- `__generate_mempair`, on the sets in the order in which they are walked. -/
def generateMempair (stores loads : List String) : List ((String × String) × (Access × Access)) :=
  (stores ×ˢ stores).map (fun p => (p, (Access.W, Access.W))) ++
    (stores ×ˢ loads).map fun p => (p, (Access.W, Access.R))

/-- An order in which the memory locations and their sets are walked. -/
structure Walk (m : Memory) where
  keys : List Key
  keys_nodup : keys.Nodup
  mem_keys : ∀ k, k ∈ keys ↔ k ∈ m.keys
  stores : Key → List String
  stores_nodup : ∀ k, (stores k).Nodup
  mem_stores : ∀ k s, s ∈ stores k ↔ s ∈ (m.loc k).storeInsn
  loads : Key → List String
  loads_nodup : ∀ k, (loads k).Nodup
  mem_loads : ∀ k s, s ∈ loads k ↔ s ∈ (m.loc k).loadInsn

def Walk.puts {m : Memory} (w : Walk m) : List (Pair × (Access × Access)) :=
  w.keys.flatMap fun k =>
    (generateMempair (w.stores k) (w.loads k)).map fun p => sortPair p.1 p.2

def Walk.output {m : Memory} (w : Walk m) : List (Pair × (Access × Access)) :=
  sortedItems (fill w.puts)

def lineOf (item : Pair × (Access × Access)) : String :=
  (ofLex item.1).1 ++ " " ++ (ofLex item.1).2 ++ " " ++ item.2.1.text ++ " " ++ item.2.2.text

def Walk.printed {m : Memory} (w : Walk m) : List String := w.output.map lineOf

/-! ### What is collected -/

/-- A memory location, whether it is stored to, and from where. -/
structure Record where
  key : Key
  isWrite : Bool
  source : String
  deriving DecidableEq

def recordOf (dir : String) (insn : Instruction) (a : ℤ × Bool) : List Record :=
  match getSourceLocation dir insn with
  | .ok source => if a.1 = 1 then [] else [⟨(a.1, insn.pointerType), a.2, source⟩]
  | .error _ => []

def records (dir : String) (dump : List Instruction) : List Record :=
  dump.flatMap fun insn => (getAccessedMemoryLocation insn).flatMap (recordOf dir insn)

/-- The memory is what the records say. -/
structure Shows (rs : List Record) (m : Memory) : Prop where
  keys : ∀ k, k ∈ m.keys ↔ ∃ r ∈ rs, r.key = k
  stores : ∀ k s, s ∈ (m.loc k).storeInsn ↔ ⟨k, true, s⟩ ∈ rs
  loads : ∀ k s, s ∈ (m.loc k).loadInsn ↔ ⟨k, false, s⟩ ∈ rs

lemma shows_empty : Shows [] Memory.empty := by
  constructor <;> simp [Memory.empty]

variable {dir : String} {m : Memory}

variable {rs : List Record} {insn : Instruction} {a : ℤ × Bool} {m' : Memory}
  {dump : List Instruction} {item : Pair × Access × Access}

lemma addAccess_shows (h : Shows rs m) (hm : addAccess dir insn m a = .ok m') :
    Shows (rs ++ recordOf dir insn a) m' := by
  rw [addAccess] at hm
  rw [recordOf]
  by_cases ha : a.1 = 1
  · rw [if_pos ha] at hm
    obtain rfl := Except.ok.inj hm
    split
    · rw [if_pos ha, append_nil]
      exact h
    · rw [append_nil]
      exact h
  · rw [if_neg ha] at hm
    cases hs : getSourceLocation dir insn with
    | error e =>
      rw [hs] at hm
      cases hm
    | ok source =>
      rw [hs] at hm
      obtain rfl := Except.ok.inj hm
      simp only [if_neg ha]
      set key : Key := (a.1, insn.pointerType)
      refine ⟨fun k => ?_, fun k s => ?_, fun k s => ?_⟩
      · simp only [Finset.mem_insert, h.keys, mem_append, mem_singleton, or_and_right,
          exists_or, exists_eq_left]
        exact ⟨fun hk => hk.elim (fun hk => .inr hk.symm) .inl,
          fun hk => hk.elim .inr fun hk => .inl hk.symm⟩
      all_goals
        rw [mem_append, mem_singleton, Record.mk.injEq]
        dsimp only
        by_cases hk : k = key
        · subst hk
          rw [update_self]
          cases hw : a.2 <;> simp [addInstruction, h.stores, h.loads, or_comm]
        · rw [update_of_ne hk]
          simp [h.stores, h.loads, hk]

/-- **The collected source locations** are those of the records of all instructions. -/
lemma loadDump_shows (h : loadDump dir dump = .ok m) : Shows (records dir dump) m := by
  refine foldlM_collects (I := Shows) (fun rs s insn s' hs hins => ?_) shows_empty h
  exact foldlM_collects (I := Shows) (fun _ _ _ _ hr ha => addAccess_shows hr ha) hs hins

/-- An instruction of the dump at this source location accesses the memory location in this way,
through a pointer of this type. -/
def AccessIn (dir : String) (dump : List Instruction) (k : Key) (source : String)
    (t : Access) : Prop :=
  ∃ insn ∈ dump, insn.pointerType = k.2 ∧ getSourceLocation dir insn = .ok source ∧
    match t with
    | .W => k.1 ∈ insn.storeTo
    | .R => k.1 ∈ insn.loadFrom

variable {r : Record}

lemma mem_recordOf :
    r ∈ recordOf dir insn a ↔ a.1 ≠ 1 ∧ r.key = (a.1, insn.pointerType) ∧ r.isWrite = a.2 ∧
      getSourceLocation dir insn = .ok r.source := by
  obtain ⟨key, isWrite, source⟩ := r
  rw [recordOf]
  split
  · next src hs =>
    split_ifs with ha
    · simp [ha]
    · simp [ha, hs, eq_comm]
  · next e hs => simp [hs]

lemma mem_records :
    r ∈ records dir dump ↔
      r.key.1 ≠ 1 ∧ AccessIn dir dump r.key r.source (if r.isWrite then .W else .R) := by
  obtain ⟨⟨loc, typ⟩, isWrite, source⟩ := r
  have hacc : ∀ insn : Instruction, (loc, isWrite) ∈ getAccessedMemoryLocation insn ↔
      match (if isWrite then Access.W else Access.R) with
      | .W => loc ∈ insn.storeTo
      | .R => loc ∈ insn.loadFrom := by
    intro insn
    cases isWrite <;> simp [getAccessedMemoryLocation]
  simp only [records, mem_flatMap, mem_recordOf, AccessIn, ← hacc]
  constructor
  · rintro ⟨insn, hins, ⟨loc', isWrite'⟩, ha, hne, hkey, rfl, hsr⟩
    obtain ⟨rfl, rfl⟩ := Prod.mk.inj hkey
    exact ⟨hne, insn, hins, rfl, hsr, ha⟩
  · rintro ⟨hne, insn, hins, rfl, hsr, ha⟩
    exact ⟨insn, hins, (loc, isWrite), ha, hne, rfl, rfl, hsr⟩

/-! ### What occurs -/

/-- Two source locations access a memory location, the first one with a store, and this is their
sorted pair with the types of both accesses. -/
def Occurs (dir : String) (dump : List Instruction) (item : Pair × (Access × Access)) : Prop :=
  ∃ k : Key, k.1 ≠ 1 ∧ ∃ x y t, AccessIn dir dump k x .W ∧ AccessIn dir dump k y t ∧
    item = sortPair (x, y) (.W, t)

lemma mem_generateMempair {stores loads : List String} :
    item ∈ ((generateMempair stores loads).map fun p => sortPair p.1 p.2) ↔
      ∃ x ∈ stores, ∃ y, (y ∈ stores ∧ item = sortPair (x, y) (.W, .W) ∨
        y ∈ loads ∧ item = sortPair (x, y) (.W, .R)) := by
  simp only [generateMempair, map_append, map_map, mem_append, mem_map,
    comp, Prod.exists, mem_product]
  constructor
  · rintro (⟨x, y, ⟨hx, hy⟩, rfl⟩ | ⟨x, y, ⟨hx, hy⟩, rfl⟩)
    · exact ⟨x, hx, y, .inl ⟨hy, rfl⟩⟩
    · exact ⟨x, hx, y, .inr ⟨hy, rfl⟩⟩
  · rintro ⟨x, hx, y, ⟨hy, rfl⟩ | ⟨hy, rfl⟩⟩
    · exact .inl ⟨x, y, ⟨hx, hy⟩, rfl⟩
    · exact .inr ⟨x, y, ⟨hx, hy⟩, rfl⟩

lemma mem_puts (h : loadDump dir dump = .ok m) (w : Walk m) :
    item ∈ w.puts ↔ Occurs dir dump item := by
  obtain ⟨hky, hst, hld⟩ := loadDump_shows h
  simp only [Walk.puts, mem_flatMap, mem_generateMempair, w.mem_keys, w.mem_stores,
    w.mem_loads, hky, hst, hld, mem_records, if_true, Bool.false_eq_true, if_false]
  constructor
  · rintro ⟨k, -, x, ⟨hne, hx⟩, y, ⟨⟨-, hy⟩, rfl⟩ | ⟨⟨-, hy⟩, rfl⟩⟩
    · exact ⟨k, hne, x, y, .W, hx, hy, rfl⟩
    · exact ⟨k, hne, x, y, .R, hx, hy, rfl⟩
  · rintro ⟨k, hne, x, y, t, hx, hy, rfl⟩
    refine ⟨k, ⟨⟨k, true, x⟩, ⟨hne, hx⟩, rfl⟩, x, ⟨hne, hx⟩, y, ?_⟩
    cases t with
    | W => exact .inl ⟨⟨hne, hy⟩, rfl⟩
    | R => exact .inr ⟨⟨hne, hy⟩, rfl⟩

/-! ### Lines -/

/-- No blank in the name of a source file, so that a line can be taken apart again. -/
def NoBlanks (dump : List Instruction) : Prop := ∀ insn ∈ dump, ' ' ∉ insn.sourceLoc.toList

lemma mem_intercalate {c sep : Char} (hne : c ≠ sep) (toks : List (List Char)) :
    c ∈ [sep].intercalate toks ↔ ∃ tok ∈ toks, c ∈ tok := by
  induction toks with
  | nil => simp [intercalate]
  | cons tok toks ih =>
    cases toks with
    | nil => simp [intercalate]
    | cons tok' toks =>
      rw [intercalate, intersperse_cons_cons, flatten_cons, flatten_cons, mem_append, mem_append,
        ← intercalate, ih, exists_mem_cons_iff]
      simp [hne]

lemma noBlank_removeColumn {text source : List Char} (h : ' ' ∉ text)
    (hs : removeColumn text = .ok source) : ' ' ∉ source := by
  have hjn : [':'].intercalate (text.splitOn ':') = text := intercalate_splitOn ':'
  have htk : ∀ tok ∈ text.splitOn ':', ' ' ∉ tok := fun tok htok hc => h <| by
    rw [← hjn]
    exact (mem_intercalate (by decide) _).2 ⟨tok, htok, hc⟩
  unfold removeColumn at hs
  simp only at hs
  split at hs
  · cases hs
  · obtain rfl := Except.ok.inj hs
    rw [mem_intercalate (by decide)]
    rintro ⟨tok, htok, hc⟩
    rcases mem_or_eq_of_mem_set htok with htok | rfl
    · exact htk tok htok hc
    · simp at hc

lemma noBlank_source {source : String} (h : ' ' ∉ insn.sourceLoc.toList)
    (hs : getSourceLocation dir insn = .ok source) : ' ' ∉ source.toList := by
  have hst : ' ' ∉ stripStart insn.sourceLoc.toList dir.toList := by
    have hdr : ∀ {l : List Char} (n : ℕ), ' ' ∉ l → ' ' ∉ l.drop n :=
      fun n hl hm => hl (mem_of_mem_drop hm)
    unfold stripStart
    simp only
    split_ifs
    · exact hdr 2 h
    · exact h
    · exact hdr 2 (hdr _ h)
    · exact hdr _ h
    · exact h
  cases hrc : removeColumn (stripStart insn.sourceLoc.toList dir.toList) with
  | error e =>
    rw [getSourceLocation, hrc] at hs
    cases hs
  | ok text =>
    rw [getSourceLocation, hrc] at hs
    rw [← Except.ok.inj hs, String.toList_ofList]
    exact noBlank_removeColumn hst hrc

/-- The parts of a line, if the locations have no blanks. -/
lemma splitOn_lineOf {item : Pair × (Access × Access)} (hx : ' ' ∉ (ofLex item.1).1.toList)
    (hy : ' ' ∉ (ofLex item.1).2.toList) : (lineOf item).toList.splitOn ' ' =
      [(ofLex item.1).1.toList, (ofLex item.1).2.toList, item.2.1.text.toList,
        item.2.2.text.toList] := by
  have hty : ∀ t : Access, ' ' ∉ t.text.toList := fun t => by cases t <;> decide
  have hln : (lineOf item).toList = [' '].intercalate [(ofLex item.1).1.toList,
      (ofLex item.1).2.toList, item.2.1.text.toList, item.2.2.text.toList] := by
    simp [lineOf, intercalate]
  rw [hln]
  refine splitOn_intercalate ' ' (fun l hl => ?_) (by simp)
  simp only [mem_cons, not_mem_nil, or_false] at hl
  rcases hl with rfl | rfl | rfl | rfl
  · exact hx
  · exact hy
  · exact hty _
  · exact hty _

lemma noBlank_occurs {item : Pair × (Access × Access)}
    (hnb : NoBlanks dump) (h : Occurs dir dump item) :
    ' ' ∉ (ofLex item.1).1.toList ∧ ' ' ∉ (ofLex item.1).2.toList := by
  obtain ⟨k, -, x, y, t, ⟨insn, hins, -, hsx, -⟩, ⟨insn', hins', -, hsy, -⟩, rfl⟩ := h
  have hx := noBlank_source (hnb insn hins) hsx
  have hy := noBlank_source (hnb insn' hins') hsy
  rw [sortPair]
  split_ifs
  · exact ⟨hy, hx⟩
  · exact ⟨hx, hy⟩

lemma lineOf_inj {item item' : Pair × (Access × Access)}
    (hnb : NoBlanks dump) (h : Occurs dir dump item) (h' : Occurs dir dump item')
    (heq : lineOf item = lineOf item') : item = item' := by
  have hsp := splitOn_lineOf (noBlank_occurs hnb h).1 (noBlank_occurs hnb h).2
  rw [heq, splitOn_lineOf (noBlank_occurs hnb h').1 (noBlank_occurs hnb h').2] at hsp
  simp only [cons.injEq, String.toList_inj, and_true] at hsp
  obtain ⟨hx, hy, ht, ht'⟩ := hsp
  have hty : ∀ t t' : Access, t.text = t'.text → t = t' := by
    rintro (_ | _) (_ | _) h
    all_goals first | rfl | exact absurd h (by decide)
  exact Prod.ext (ofLex.injective (Prod.ext hx.symm hy.symm))
    (Prod.ext (hty _ _ ht.symm) (hty _ _ ht'.symm))

/-- Every pair has one type only. -/
def Unambiguous (dir : String) (dump : List Instruction) : Prop :=
  ∀ p t t', Occurs dir dump (p, t) → Occurs dir dump (p, t') → t = t'

/-- Whatever order the memory locations and their sets are walked in, all pairs that occur are
printed with all their types, and the same is printed. -/
structure PrintsAll (dir : String) (dump : List Instruction) (m : Memory) : Prop where
  complete : ∀ w : Walk m, ∀ item, Occurs dir dump item → item ∈ w.output
  same : ∀ w w' : Walk m, w.output = w'.output

/-- The same of the lines. -/
structure PrintsLines (dir : String) (dump : List Instruction) (m : Memory) : Prop where
  complete : ∀ w : Walk m, ∀ item, Occurs dir dump item → lineOf item ∈ w.printed
  same : ∀ w w' : Walk m, w.printed = w'.printed

noncomputable def someWalk (m : Memory) : Walk m where
  keys := m.keys.toList
  keys_nodup := m.keys.nodup_toList
  mem_keys _ := Finset.mem_toList
  stores k := (m.loc k).storeInsn.toList
  stores_nodup _ := Finset.nodup_toList _
  mem_stores _ _ := Finset.mem_toList
  loads k := (m.loc k).loadInsn.toList
  loads_nodup _ := Finset.nodup_toList _
  mem_loads _ _ := Finset.mem_toList

lemma mem_output_iff (w : Walk m) (item : Pair × (Access × Access)) :
    item ∈ w.output ↔ item ∈ fill w.puts := mem_sortedItems

lemma occurs_of_mem_output (h : loadDump dir dump = .ok m) (w : Walk m) (hi : item ∈ w.output) :
    Occurs dir dump item :=
  (mem_puts h w).1 (mem_of_mem_fill ((mem_output_iff w item).1 hi))

lemma printsAll_iff_unambiguous (h : loadDump dir dump = .ok m) :
    PrintsAll dir dump m ↔ Unambiguous dir dump := by
  have hfun : ∀ w : Walk m, Functional w.puts ↔ Unambiguous dir dump := by
    intro w
    simp only [Functional, mem_puts h w]
    rfl
  constructor
  · intro hall
    rw [← hfun (someWalk m), ← fill_complete_iff]
    intro item him
    exact (mem_output_iff _ _).1 (hall.complete _ item ((mem_puts h _).1 him))
  · intro hone
    have hfl : ∀ (w : Walk m) item, item ∈ fill w.puts ↔ Occurs dir dump item := by
      intro w item
      rw [← mem_puts h w]
      exact ⟨mem_of_mem_fill, fill_complete_iff.2 ((hfun w).2 hone) item⟩
    refine ⟨fun w item him => (mem_output_iff w item).2 ((hfl w item).2 him), fun w w' => ?_⟩
    exact sortedItems_congr (nodup_keys_fill _) (nodup_keys_fill _) fun item =>
      (hfl w item).trans (hfl w' item).symm

lemma printsLines_iff (h : loadDump dir dump = .ok m) (hnb : NoBlanks dump) :
    PrintsLines dir dump m ↔ PrintsAll dir dump m := by
  have hinj : ∀ (w : Walk m) {item}, Occurs dir dump item →
      (lineOf item ∈ w.printed ↔ item ∈ w.output) := by
    intro w item him
    constructor
    · intro hln
      obtain ⟨item', hi', heq⟩ := mem_map.1 hln
      exact lineOf_inj hnb (occurs_of_mem_output h w hi') him heq ▸ hi'
    · exact mem_map_of_mem
  constructor
  · intro hls
    refine (printsAll_iff_unambiguous h).2 ?_
    have hall : ∀ item, Occurs dir dump item → item ∈ fill (someWalk m).puts := fun item him =>
      (mem_output_iff _ _).1 ((hinj _ him).1 (hls.complete _ item him))
    have hfun : Functional (someWalk m).puts :=
      fill_complete_iff.1 fun item him => hall item ((mem_puts h _).1 him)
    simp only [Functional, mem_puts h] at hfun
    exact hfun
  · exact fun hall => ⟨fun w item him => (hinj w him).2 (hall.complete w item him),
      fun w w' => congrArg (map lineOf) (hall.same w w')⟩

/-- **The printed pairs.** All types of all pairs are printed, in every order, if and only if no
pair has two types. If there are no blanks in file names, this is so of the printed lines. -/
theorem printsAll_iff {dir : String} {dump : List Instruction} {m : Memory}
    (h : loadDump dir dump = .ok m) :
    (PrintsAll dir dump m ↔ Unambiguous dir dump) ∧
      (NoBlanks dump → (PrintsLines dir dump m ↔ Unambiguous dir dump)) :=
  ⟨printsAll_iff_unambiguous h,
    fun hnb => (printsLines_iff h hnb).trans (printsAll_iff_unambiguous h)⟩

/-! Two instructions at the memory location 2. The first one stores to it and the second one loads
from it, or both do both. -/

def twoInsns (both : Bool) : List Instruction :=
  [⟨if both then [2] else [], [2], "a.c:1:2", "i32*"⟩,
    ⟨[2], if both then [2] else [], "b.c:3:4", "i32*"⟩]

lemma exists_loadDump (both : Bool) : ∃ m, loadDump "" (twoInsns both) = .ok m := by
  have hok : (loadDump "" (twoInsns both)).toBool := by
    cases both <;> decide +kernel
  cases hm : loadDump "" (twoInsns both) with
  | error e =>
    rw [hm] at hok
    cases hok
  | ok m => exact ⟨m, rfl⟩

def twoWalk {both : Bool} {m : Memory} (h : loadDump "" (twoInsns both) = .ok m)
    (stores loads : List String) (hs : stores.Nodup) (hl : loads.Nodup)
    (hstores : ∀ k s, ⟨k, true, s⟩ ∈ records "" (twoInsns both) ↔ k = (2, "i32*") ∧ s ∈ stores)
    (hloads : ∀ k s, ⟨k, false, s⟩ ∈ records "" (twoInsns both) ↔ k = (2, "i32*") ∧ s ∈ loads)
    (hne : stores ≠ []) : Walk m where
  keys := [(2, "i32*")]
  keys_nodup := nodup_singleton _
  mem_keys k := by
    rw [mem_singleton, (loadDump_shows h).keys]
    constructor
    · rintro rfl
      obtain ⟨s, hmem⟩ := exists_mem_of_ne_nil _ hne
      exact ⟨_, (hstores _ s).2 ⟨rfl, hmem⟩, rfl⟩
    · rintro ⟨⟨key, isWrite, source⟩, hr, rfl⟩
      cases isWrite with
      | true => exact ((hstores _ _).1 hr).1
      | false => exact ((hloads _ _).1 hr).1
  stores k := if k = (2, "i32*") then stores else []
  stores_nodup k := by
    split_ifs
    · exact hs
    · exact nodup_nil
  mem_stores k s := by
    rw [(loadDump_shows h).stores, hstores]
    split_ifs with hk <;> simp [hk]
  loads k := if k = (2, "i32*") then loads else []
  loads_nodup k := by
    split_ifs
    · exact hl
    · exact nodup_nil
  mem_loads k s := by
    rw [(loadDump_shows h).loads, hloads]
    split_ifs with hk <;> simp [hk]

lemma records_load_store : records "" (twoInsns false) =
    [⟨(2, "i32*"), true, "a.c:1:0"⟩, ⟨(2, "i32*"), false, "b.c:3:0"⟩] := by
  decide +kernel

theorem printsAll_iff_load_store :
    ∃ m, loadDump "" (twoInsns false) = .ok m ∧ PrintsAll "" (twoInsns false) m ∧
      PrintsLines "" (twoInsns false) m := by
  obtain ⟨m, h⟩ := exists_loadDump false
  suffices hone : Unambiguous "" (twoInsns false) from
    ⟨m, h, (printsAll_iff h).1.2 hone,
      ((printsAll_iff h).2 (by decide : ∀ insn ∈ twoInsns false, _)).2 hone⟩
  let w := twoWalk h ["a.c:1:0"] ["b.c:3:0"] (by decide) (by decide)
    (by simp [records_load_store]) (by simp [records_load_store]) (by decide)
  have hpt : w.puts = [(toLex ("a.c:1:0", "a.c:1:0"), (.W, .W)),
      (toLex ("a.c:1:0", "b.c:3:0"), (.W, .R))] := by
    show (generateMempair ["a.c:1:0"] ["b.c:3:0"]).map (fun p => sortPair p.1 p.2) ++ [] = _
    decide +kernel
  intro p t t' ht ht'
  rw [← mem_puts h w, hpt] at ht ht'
  simp only [mem_cons, Prod.mk.injEq, not_mem_nil, or_false] at ht ht'
  rcases ht with ⟨rfl, rfl⟩ | ⟨rfl, rfl⟩ <;> rcases ht' with ⟨hp, rfl⟩ | ⟨hp, rfl⟩
  · rfl
  · exact absurd hp (by decide)
  · exact absurd hp (by decide)
  · rfl

lemma records_both : records "" (twoInsns true) =
    [⟨(2, "i32*"), true, "a.c:1:0"⟩, ⟨(2, "i32*"), false, "a.c:1:0"⟩,
      ⟨(2, "i32*"), true, "b.c:3:0"⟩, ⟨(2, "i32*"), false, "b.c:3:0"⟩] := by
  decide +kernel

lemma puts_both (h : loadDump "" (twoInsns true) = .ok m) :
    (∃ w : Walk m, fill w.puts = [(toLex ("a.c:1:0", "a.c:1:0"), (.W, .R)),
      (toLex ("a.c:1:0", "b.c:3:0"), (.R, .W)), (toLex ("b.c:3:0", "b.c:3:0"), (.W, .R))]) ∧
    ∃ w : Walk m, fill w.puts = [(toLex ("b.c:3:0", "b.c:3:0"), (.W, .R)),
      (toLex ("a.c:1:0", "b.c:3:0"), (.W, .R)), (toLex ("a.c:1:0", "a.c:1:0"), (.W, .R))] := by
  constructor
  · refine ⟨twoWalk h ["a.c:1:0", "b.c:3:0"] ["a.c:1:0", "b.c:3:0"] (by decide) (by decide)
      (by simp [records_both, and_or_left]) (by simp [records_both, and_or_left]) (by decide), ?_⟩
    show fill ((generateMempair ["a.c:1:0", "b.c:3:0"] ["a.c:1:0", "b.c:3:0"]).map
      (fun p => sortPair p.1 p.2) ++ []) = _
    decide +kernel
  · refine ⟨twoWalk h ["b.c:3:0", "a.c:1:0"] ["a.c:1:0", "b.c:3:0"] (by decide) (by decide)
      (by simp [records_both, and_or_left, or_comm]) (by simp [records_both, and_or_left])
      (by decide), ?_⟩
    show fill ((generateMempair ["b.c:3:0", "a.c:1:0"] ["a.c:1:0", "b.c:3:0"]).map
      (fun p => sortPair p.1 p.2) ++ []) = _
    decide +kernel

/-- The two writes race, but no line says so, and which of the other two types of the pair is
printed depends on the order in which the stores are walked. -/
theorem type_of_pair_lost :
    ∃ m, loadDump "" (twoInsns true) = .ok m ∧
      Occurs "" (twoInsns true) (toLex ("a.c:1:0", "b.c:3:0"), (.W, .W)) ∧
      ∃ w w' : Walk m, (toLex ("a.c:1:0", "b.c:3:0"), (.W, .W)) ∉ w.output ∧
        (toLex ("a.c:1:0", "b.c:3:0"), (.W, .W)) ∉ w'.output ∧ w.output ≠ w'.output := by
  obtain ⟨m, h⟩ := exists_loadDump true
  obtain ⟨⟨w, hw⟩, w', hw'⟩ := puts_both h
  refine ⟨m, h, ?_, w, w', ?_, ?_, fun heq => ?_⟩
  · refine ⟨(2, "i32*"), by decide, "a.c:1:0", "b.c:3:0", .W, ?_, ?_, by decide +kernel⟩
    · exact ⟨⟨[2], [2], "a.c:1:2", "i32*"⟩, by simp [twoInsns], rfl, by decide +kernel, by simp⟩
    · exact ⟨⟨[2], [2], "b.c:3:4", "i32*"⟩, by simp [twoInsns], rfl, by decide +kernel, by simp⟩
  · rw [Walk.output, mem_sortedItems, hw]
    decide
  · rw [Walk.output, mem_sortedItems, hw']
    decide
  · have hmem : (toLex ("a.c:1:0", "b.c:3:0"), (Access.R, Access.W)) ∈ w'.output := by
      rw [← heq, Walk.output, mem_sortedItems, hw]
      decide
    rw [Walk.output, mem_sortedItems, hw'] at hmem
    exact absurd hmem (by decide)

/-! ### Sets of aliased locations -/

structure Addition where
  memlocid : Key
  aliasedSet : List String
  types : List Access

abbrev SetResult := AList fun _ : Key => Finset (String × Access)

/-- `AliasedSet`. Its constructor reads the global `types`, which are those of the addition. -/
def Addition.set (a : Addition) : Finset (String × Access) := (a.aliasedSet.zip a.types).toFinset

def isSubset (r : SetResult) (sub super : Key) : Bool :=
  decide ((r.lookup sub).getD ∅ ⊆ (r.lookup super).getD ∅)

def removeSubsets (memlocid : Key) : List Key → SetResult → SetResult
  | [], r => r
  | other :: others, r => removeSubsets memlocid others
      (if other ≠ memlocid ∧ isSubset r other memlocid then r.erase other else r)

def removeDuplicate (memlocid : Key) (r : SetResult) : SetResult :=
  if r.keys.any fun other => other ≠ memlocid && isSubset r memlocid other then r.erase memlocid
  else removeSubsets memlocid r.keys r

def addSet (r : SetResult) (a : Addition) : SetResult :=
  if a.aliasedSet.length = 1 then r else removeDuplicate a.memlocid (r.insert a.memlocid a.set)

variable {r r' : SetResult} {added : List Addition} {a : Addition}

lemma lookup_removeSubsets (ks : List Key) (r : SetResult) (id k : Key) :
    (removeSubsets id ks r).lookup k =
      if k ∈ ks ∧ k ≠ id ∧ isSubset r k id then none else r.lookup k := by
  induction ks generalizing r with
  | nil => simp [removeSubsets]
  | cons other ks ih =>
    rw [removeSubsets, ih]
    by_cases her : other ≠ id ∧ isSubset r other id
    · rw [if_pos her]
      -- `other` is taken out, which no test for another key notices
      have hid : (r.erase other).lookup id = r.lookup id := AList.lookup_erase_ne (Ne.symm her.1)
      by_cases hk : k = other
      · subst hk
        simp [her, AList.lookup_erase]
      · simp only [isSubset, hid, AList.lookup_erase_ne hk, mem_cons, hk, false_or]
    · rw [if_neg her]
      by_cases hk : k = other
      · subst hk
        simp [her]
      · simp [hk]

/-- What is stored after some additions. -/
structure Maximal (added : List Addition) (r : SetResult) : Prop where
  antichain : ∀ i j S T, r.lookup i = some S → r.lookup j = some T → S ⊆ T → i = j
  covers : ∀ a ∈ added, ∃ i T, r.lookup i = some T ∧ a.set ⊆ T
  ids : ∀ i S, r.lookup i = some S → i ∈ added.map Addition.memlocid

lemma Maximal.skip (h : Maximal added r) (hr : ∀ i, r'.lookup i = r.lookup i)
    (hsub : ∃ i T, r.lookup i = some T ∧ a.set ⊆ T) : Maximal (added ++ [a]) r' := by
  refine ⟨?_, ?_, fun i S hi => ?_⟩
  · simpa only [hr] using h.antichain
  · simp only [hr]
    exact List.forall_mem_append.2 ⟨h.covers, by simpa using hsub⟩
  · rw [map_append]
    exact mem_append_left _ (h.ids i S (hr i ▸ hi))

lemma Maximal.replace (h : Maximal added r) (hnn : ∀ i T, r.lookup i = some T → ¬ a.set ⊆ T)
    (hr : ∀ i T, r'.lookup i = some T ↔
      i = a.memlocid ∧ T = a.set ∨ r.lookup i = some T ∧ ¬ T ⊆ a.set) :
    Maximal (added ++ [a]) r' := by
  refine ⟨fun i j S T hi hj hST => ?_, fun b hb => ?_, fun i S hi => ?_⟩
  · rcases (hr i S).1 hi with ⟨rfl, rfl⟩ | ⟨hi, hS⟩ <;>
      rcases (hr j T).1 hj with ⟨rfl, rfl⟩ | ⟨hj, -⟩
    · rfl
    · exact absurd hST (hnn j T hj)
    · exact absurd hST hS
    · exact h.antichain i j S T hi hj hST
  · have hnew := (hr a.memlocid a.set).2 (.inl ⟨rfl, rfl⟩)
    rcases List.mem_append.1 hb with hb | hb
    · obtain ⟨i, T, hi, hbT⟩ := h.covers b hb
      by_cases hT : T ⊆ a.set
      · exact ⟨_, _, hnew, hbT.trans hT⟩
      · exact ⟨i, T, (hr i T).2 (.inr ⟨hi, hT⟩), hbT⟩
    · exact ⟨_, _, hnew, (List.mem_singleton.1 hb ▸ subset_rfl)⟩
  · rw [map_append, mem_append]
    rcases (hr i S).1 hi with ⟨rfl, rfl⟩ | ⟨hi, -⟩
    · exact .inr (List.mem_singleton.2 rfl)
    · exact .inl (h.ids i S hi)

lemma Maximal.removeDuplicate (h : Maximal added r)
    (hid : a.memlocid ∉ added.map Addition.memlocid) (hmn : r'.lookup a.memlocid = some a.set)
    (hot : ∀ i ≠ a.memlocid, r'.lookup i = r.lookup i) :
    Maximal (added ++ [a]) (removeDuplicate a.memlocid r') := by
  have hfr : r.lookup a.memlocid = none :=
    Option.eq_none_iff_forall_ne_some.2 fun T hT => hid (h.ids _ T hT)
  have hne : ∀ i T, r.lookup i = some T → i ≠ a.memlocid := by
    rintro i T hi rfl
    cases hfr.symm.trans hi
  have hmem : ∀ i T, r.lookup i = some T → i ∈ r'.keys := by
    intro i T hi
    rw [← AList.mem_keys, ← AList.lookup_isSome, hot i (hne i T hi), hi]
    rfl
  have hsub : ∀ i T, r.lookup i = some T → isSubset r' a.memlocid i = decide (a.set ⊆ T) ∧
      isSubset r' i a.memlocid = decide (T ⊆ a.set) := by
    intro i T hi
    simp only [isSubset, hmn, hot i (hne i T hi), hi, Option.getD_some, and_self]
  rw [AliasedPairs.removeDuplicate]
  split
  case isTrue hany =>
    obtain ⟨other, hkey, hin⟩ := List.any_eq_true.1 hany
    obtain ⟨hoth, hin⟩ := Bool.and_eq_true_iff.1 hin
    have hoth : other ≠ a.memlocid := of_decide_eq_true hoth
    rw [← AList.mem_keys, ← AList.lookup_isSome, hot other hoth] at hkey
    obtain ⟨T, hT⟩ := Option.isSome_iff_exists.1 hkey
    refine h.skip (fun i => ?_) ⟨other, T, hT, of_decide_eq_true ((hsub other T hT).1 ▸ hin)⟩
    by_cases hi : i = a.memlocid
    · rw [hi, AList.lookup_erase, hfr]
    · rw [AList.lookup_erase_ne hi, hot i hi]
  case isFalse hany =>
    refine h.replace (fun i T hi hin => hany ?_) fun i T => ?_
    · refine List.any_eq_true.2 ⟨i, hmem i T hi, ?_⟩
      rw [(hsub i T hi).1, decide_eq_true hin, decide_eq_true (hne i T hi)]
      rfl
    · rw [lookup_removeSubsets]
      by_cases hi : i = a.memlocid
      · subst hi
        simp [hmn, hfr, @eq_comm _ T]
      · cases hT : r.lookup i with
        | none => simp [hi, hot i hi, hT]
        | some T' =>
          rw [hot i hi, hT, (hsub i T' hT).2]
          by_cases hin : T' ⊆ a.set
          · have hnot : ∀ h : T' = T, T ⊆ a.set := fun h => h ▸ hin
            simpa [hi, hmem i T' hT, hin] using hnot
          · have hnot : ∀ h : T' = T, ¬ T ⊆ a.set := fun h => h ▸ hin
            simpa [hi, hin] using hnot

/-- **The stored sets are the maximal ones.** -/
theorem stored_sets_maximal (added : List Addition) (hids : (added.map Addition.memlocid).Nodup)
    (hlen : ∀ a ∈ added, 2 ≤ a.aliasedSet.length) : Maximal added (added.foldl addSet ∅) := by
  induction added using reverseRecOn with
  | nil => exact ⟨by simp, by simp, by simp⟩
  | append_singleton added a ih =>
    rw [map_append, nodup_append] at hids
    obtain ⟨hlen, ha⟩ := List.forall_mem_append.1 hlen
    have ha := ha a mem_cons_self
    rw [foldl_append, foldl_cons, foldl_nil, addSet, if_neg (by omega)]
    exact (ih hids.1 hlen).removeDuplicate
      (fun hmem => hids.2.2 _ hmem _ mem_cons_self rfl) (AList.lookup_insert _)
      fun i hi => AList.lookup_insert_ne hi

/-- The second set includes the first one, and the third one is a part of the second one. -/
theorem stored_sets_maximal_three : Maximal
    [⟨(2, "i32*"), ["a.c:1:0", "b.c:3:0"], [.R, .W]⟩,
      ⟨(3, "i32*"), ["a.c:1:0", "c.c:5:0", "b.c:3:0"], [.R, .W, .W]⟩,
      ⟨(4, "i32*"), ["c.c:5:0", "b.c:3:0"], [.W, .W]⟩]
    (foldl addSet ∅ [⟨(2, "i32*"), ["a.c:1:0", "b.c:3:0"], [.R, .W]⟩,
      ⟨(3, "i32*"), ["a.c:1:0", "c.c:5:0", "b.c:3:0"], [.R, .W, .W]⟩,
      ⟨(4, "i32*"), ["c.c:5:0", "b.c:3:0"], [.W, .W]⟩]) :=
  stored_sets_maximal _ (by decide) (by decide)

end Razzer.AliasedPairs
