import Mathlib

/-!
Merging files of pairs, of `merge-mempairs.py`.

A line has two locations, and behind them the kinds of the two accesses if these are known. The
locations of a line are sorted, and the kinds along with them, but not by the kinds: where a
location races with itself, the kinds stay in the order they have in the line.
-/

namespace Razzer.MergeMempairs

open List Option

section Script

variable (ws : Char → Bool)

def strip (cs : List Char) : List Char := ((cs.dropWhile ws).reverse.dropWhile ws).reverse

def join (mps : List (List Char)) : List Char := [' '].intercalate mps

/-- One line of `load_mempair`. The assertion fails for another number of parts. -/
def loadLine (line : List Char) : Option (List Char) :=
  match (strip ws line).splitOn ' ' with
  | [a, b] => some (if b < a then join [b, a] else join [a, b])
  | [a, b, x, y] => some (if b < a then join [b, a, y, x] else join [a, b, x, y])
  | _ => none

def loadMempair (file : List (List Char)) : Option (List (List Char)) := file.mapM (loadLine ws)

def mergeMempairs (files : List (List (List Char))) : Option (Finset (List Char)) :=
  files.foldlM (fun merged file => (loadMempair ws file).map (merged ∪ ·.toFinset)) ∅

end Script

/-! ### Lines -/

variable {ws : Char → Bool}

variable (ws) in
abbrev Token := { cs : List Char // cs ≠ [] ∧ ∀ c ∈ cs, ws c = false ∧ c ≠ ' ' }

variable (ws) in
inductive Line
  | pair (a b : Token ws)
  | tagged (a b x y : Token ws)

def Line.parts : Line ws → List (Token ws)
  | pair a b => [a, b]
  | tagged a b x y => [a, b, x, y]

def Line.text (l : Line ws) : List Char := join (l.parts.map Subtype.val)

def Line.accesses : Line ws → Sym2 (Token ws × Option (Token ws))
  | pair a b => s((a, none), (b, none))
  | tagged a b x y => s((a, some x), (b, some y))

def Line.sorted : Line ws → Line ws
  | pair a b => if b.1 < a.1 then pair b a else pair a b
  | tagged a b x y => if b.1 < a.1 then tagged b a y x else tagged a b x y

variable {l l' : Line ws} {lines : List (Line ws)} {files : List (List (Line ws))}

lemma strip_text : strip ws l.text = l.text := by
  have hst : ∀ (a z : Token ws) (mid : List Char),
      strip ws (a.1 ++ (mid ++ z.1)) = a.1 ++ (mid ++ z.1) := by
    intro a z mid
    obtain ⟨c, t, ha⟩ := exists_cons_of_ne_nil a.2.1
    obtain ⟨t', d, hz⟩ := (eq_nil_or_concat z.1).resolve_left z.2.1
    have hc : ws c = false := (a.2.2 c (by simp [ha])).1
    have hd : ws d = false := (z.2.2 d (by simp [hz])).1
    simp [strip, ha, hz, hc, hd]
  cases l with
  | pair a b => simpa [Line.text, Line.parts, join] using hst a b [' ']
  | tagged a b x y =>
    simpa [Line.text, Line.parts, join] using hst a y (' ' :: (b.1 ++ ' ' :: (x.1 ++ [' '])))

lemma splitOn_text : l.text.splitOn ' ' = l.parts.map Subtype.val := by
  refine splitOn_intercalate ' ' (fun cs hcs hbl => ?_) (by cases l <;> simp [Line.parts])
  obtain ⟨t, -, rfl⟩ := mem_map.1 hcs
  exact (t.2.2 ' ' hbl).2 rfl

lemma text_injective : Function.Injective (@Line.text ws) := by
  intro l l' h
  have hpr := splitOn_text (l := l)
  rw [h, splitOn_text] at hpr
  have hpr := map_injective_iff.2 Subtype.val_injective hpr
  cases l <;> cases l' <;> simp_all [Line.parts]

lemma loadLine_text : loadLine ws l.text = some l.sorted.text := by
  rw [loadLine, strip_text, splitOn_text]
  cases l <;> simp only [Line.parts, map_cons, map_nil, Line.sorted] <;> split_ifs <;> rfl

lemma sorted_sorted : l.sorted.sorted = l.sorted := by
  cases l with
  | pair a b | tagged a b x y =>
    by_cases h : b.1 < a.1
    · simp [Line.sorted, h, h.not_gt]
    · simp [Line.sorted, h]

lemma accesses_sorted : l.sorted.accesses = l.accesses := by
  cases l <;> simp only [Line.sorted] <;> split_ifs <;>
    simp only [Line.accesses, Sym2.eq_swap]

/-! ### Merging -/

/-- There is one line for each two accesses. -/
def OneLine (lines : List (Line ws)) : Prop :=
  ∀ l ∈ lines, ∀ l' ∈ lines, l.sorted.text = l'.sorted.text ↔ l.accesses = l'.accesses

/-- No two lines have the kinds of a location that races with itself in different orders. -/
def NoSwap (lines : List (Line ws)) : Prop :=
  ∀ a x y, Line.tagged a a x y ∈ lines → Line.tagged a a y x ∈ lines → x = y

def texts (files : List (List (Line ws))) : List (List (List Char)) := files.map (map Line.text)

def written (files : List (List (Line ws))) : Finset (List Char) :=
  (files.flatten.map fun l => l.sorted.text).toFinset

lemma loadMempair_text : loadMempair ws (lines.map Line.text) =
    some (lines.map fun l => l.sorted.text) := by
  rw [loadMempair, mapM_map]
  induction lines with
  | nil => rfl
  | cons l lines ih => simp [loadLine_text, ih]

lemma mergeMempairs_texts (fs : List (List (Line ws))) :
    mergeMempairs ws (texts fs) = some (written fs) := by
  suffices h : ∀ merged : Finset (List Char), (texts fs).foldlM (fun merged file =>
      (loadMempair ws file).map (merged ∪ ·.toFinset)) merged = some (merged ∪ written fs) by
    simpa [mergeMempairs] using h ∅
  induction fs with
  | nil => simp [texts, written]
  | cons file fs ih =>
    intro merged
    rw [texts, map_cons, foldlM_cons, loadMempair_text]
    simp only [map_some, bind_eq_bind, bind_some]
    rw [← texts, ih]
    simp [written, Finset.union_assoc]

variable {out : List (List Char)}

lemma loadMempair_written (hout : ∀ line ∈ out, line ∈ written files) :
    loadMempair ws out = some out := by
  have hln : ∀ line ∈ out, loadLine ws line = some line := by
    intro line hln
    obtain ⟨l, -, rfl⟩ := mem_map.1 (mem_toFinset.1 (hout line hln))
    rw [loadLine_text, sorted_sorted]
  rw [loadMempair]
  clear hout
  induction out with
  | nil => rfl
  | cons line out ih =>
    obtain ⟨hhd, htl⟩ := forall_mem_cons.1 hln
    simp [hhd, ih htl]

lemma sorted_eq_of_accesses (hsw : NoSwap lines) (hl : l ∈ lines) (hl' : l' ∈ lines)
    (h : l.accesses = l'.accesses) : l.sorted = l'.sorted := by
  cases l with
  | pair a b =>
    cases l' with
    | tagged a' b' x' y' => simp [Line.accesses] at h
    | pair a' b' =>
      rcases Sym2.eq_iff.1 h with ⟨h1, h2⟩ | ⟨h1, h2⟩ <;> cases h1 <;> cases h2
      · rfl
      · rcases lt_trichotomy a.1 b.1 with hlt | heq | hlt
        · simp [Line.sorted, hlt, hlt.not_gt]
        · rw [Subtype.ext heq]
        · simp [Line.sorted, hlt, hlt.not_gt]
  | tagged a b x y =>
    cases l' with
    | pair a' b' => simp [Line.accesses] at h
    | tagged a' b' x' y' =>
      rcases Sym2.eq_iff.1 h with ⟨h1, h2⟩ | ⟨h1, h2⟩ <;> cases h1 <;> cases h2
      · rfl
      · rcases lt_trichotomy a.1 b.1 with hlt | heq | hlt
        · simp [Line.sorted, hlt, hlt.not_gt]
        · obtain rfl := Subtype.ext heq
          rw [hsw a x y hl hl']
        · simp [Line.sorted, hlt, hlt.not_gt]

lemma oneLine_iff : OneLine lines ↔ NoSwap lines := by
  constructor
  · intro h a x y hl hl'
    have htx := (h _ hl _ hl').2 Sym2.eq_swap
    simp only [Line.sorted, lt_irrefl, if_false] at htx
    cases text_injective htx
    rfl
  · intro hsw l hl l' hl'
    refine ⟨fun h => ?_, fun h => by rw [sorted_eq_of_accesses hsw hl hl' h]⟩
    rw [← accesses_sorted, text_injective h, accesses_sorted]

/-- **Merging files of pairs.** The order of files and lines does not matter, and merging the merged
file again changes nothing. There is one line for each two accesses if and only if no two lines have
the kinds of a location that races with itself in different orders. -/
theorem mergeMempairs_spec (files : List (List (Line ws))) :
    mergeMempairs ws (texts files) = some (written files) ∧
    (∀ files', files'.flatten.Perm files.flatten →
      mergeMempairs ws (texts files') = mergeMempairs ws (texts files)) ∧
    (∀ out, out.toFinset = written files →
      mergeMempairs ws (texts files ++ [out]) = some (written files)) ∧
    (OneLine files.flatten ↔ NoSwap files.flatten) := by
  refine ⟨mergeMempairs_texts files, fun files' hpr => ?_, fun out hout => ?_, oneLine_iff⟩
  · rw [mergeMempairs_texts, mergeMempairs_texts, written, toFinset_eq_of_perm _ _ (hpr.map _)]
    rfl
  · have hld : loadMempair ws out = some out :=
      loadMempair_written fun line hln => hout ▸ mem_toFinset.2 hln
    have hmr := mergeMempairs_texts files
    rw [mergeMempairs] at hmr ⊢
    rw [foldlM_append, hmr]
    simp [hld, hout]

/-- A location is read and written, and the two lines about it name its kinds in different orders.
Both are kept. -/
theorem swapped_kinds_kept : ∃ a x y : Token (· == ' '),
    (Line.tagged a a x y).accesses = (Line.tagged a a y x).accesses ∧
    mergeMempairs (· == ' ') (texts [[Line.tagged a a x y, Line.tagged a a y x]]) =
      some {"a.c:1 a.c:1 R W".toList, "a.c:1 a.c:1 W R".toList} := by
  refine ⟨⟨['a', '.', 'c', ':', '1'], by simp⟩, ⟨['R'], by simp⟩, ⟨['W'], by simp⟩,
    Sym2.eq_swap, ?_⟩
  decide +kernel

end Razzer.MergeMempairs
