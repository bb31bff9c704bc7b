import Mathlib

/-!
The lines of a text, as a scanner returns them.
-/

namespace Razzer.Lines

open List

def dropCR (line : List Char) : List Char :=
  if line.getLast? = some '\r' then line.dropLast else line

/-- The lines of a text, as a scanner returns them, after the characters `acc` of the first one. -/
def scanLines : List Char → List Char → List (List Char)
  | acc, [] => if acc.isEmpty then [] else [dropCR acc]
  | acc, c :: cs => if c = '\n' then dropCR acc :: scanLines [] cs else scanLines (acc ++ [c]) cs

def unlines (lines : List (List Char)) : List Char := lines.flatMap (· ++ ['\n'])

lemma unlines_cons (line : List Char) (lines : List (List Char)) :
    unlines (line :: lines) = line ++ '\n' :: unlines lines := by
  simp [unlines]

lemma unlines_append (ls lines' : List (List Char)) :
    unlines (ls ++ lines') = unlines ls ++ unlines lines' := flatMap_append

/-- The lines with their carriage returns, as they are in the buffer of the scanner. -/
def rawLines : List Char → List Char → List (List Char)
  | acc, [] => if acc.isEmpty then [] else [acc]
  | acc, c :: cs => if c = '\n' then acc :: rawLines [] cs else rawLines (acc ++ [c]) cs

variable {acc line text : List Char}

lemma rawLines_line (h : ∀ c ∈ line, c ≠ '\n') (acc rest : List Char) :
    rawLines acc (line ++ '\n' :: rest) = (acc ++ line) :: rawLines [] rest := by
  induction line generalizing acc with
  | nil => simp [rawLines]
  | cons c line ih =>
    have hc : c ≠ '\n' := h c mem_cons_self
    rw [cons_append, rawLines, if_neg hc, ih fun d hd => h d (mem_cons_of_mem _ hd)]
    simp

lemma rawLines_unlines {lines : List (List Char)} (h : ∀ line ∈ lines, ∀ c ∈ line, c ≠ '\n') :
    rawLines [] (unlines lines) = lines := by
  induction lines with
  | nil => rfl
  | cons line lines ih =>
    obtain ⟨hli, hln⟩ := List.forall_mem_cons.1 h
    rw [unlines_cons, rawLines_line hli, nil_append, ih hln]

lemma ne_of_mem_rawLines (hacc : ∀ c ∈ acc, c ≠ '\n')
    (h : line ∈ rawLines acc text) : ∀ c ∈ line, c ≠ '\n' := by
  induction text generalizing acc with
  | nil =>
    rw [rawLines] at h
    split_ifs at h
    · cases h
    · rwa [mem_singleton.1 h]
  | cons d text ih =>
    rw [rawLines] at h
    split_ifs at h with hd
    · rcases mem_cons.1 h with rfl | h
      · exact hacc
      · exact ih (by simp) h
    · exact ih (forall_mem_append.2 ⟨hacc, by simpa using hd⟩) h

/-- A text that ends with a line feed is the text of its lines. -/
lemma unlines_rawLines (hacc : ∀ c ∈ acc, c ≠ '\n')
    (h : ∀ c ∈ (acc ++ text).getLast?, c = '\n') :
    unlines (rawLines acc text) = acc ++ text := by
  induction text generalizing acc with
  | nil =>
    cases acc with
    | nil => rfl
    | cons d acc =>
      rw [append_nil] at h
      exact absurd (h _ (getLast?_eq_some_getLast (cons_ne_nil d acc)))
        (hacc _ (getLast_mem (cons_ne_nil d acc)))
  | cons c text ih =>
    rw [rawLines]
    split_ifs with hc
    · subst hc
      have hls : ∀ c ∈ ([] ++ text).getLast?, c = '\n' := fun c hc => h c (by
        rw [nil_append] at hc
        rw [getLast?_append, getLast?_cons, Option.mem_def.1 hc]
        rfl)
      rw [unlines_cons, ih (by simp) hls, nil_append]
    · rw [ih (forall_mem_append.2 ⟨hacc, by simpa using hc⟩) (by simpa using h)]
      simp

lemma scanLines_eq (acc text : List Char) :
    scanLines acc text = (rawLines acc text).map dropCR := by
  induction text generalizing acc with
  | nil =>
    rw [scanLines, rawLines]
    split_ifs <;> rfl
  | cons c text ih =>
    rw [scanLines, rawLines]
    split_ifs <;> simp [ih]

lemma scanLines_line (h : ∀ c ∈ line, c ≠ '\n') (acc rest : List Char) :
    scanLines acc (line ++ '\n' :: rest) = dropCR (acc ++ line) :: scanLines [] rest := by
  rw [scanLines_eq, rawLines_line h, map_cons, scanLines_eq]

lemma scanLines_unlines {lines : List (List Char)} (h : ∀ line ∈ lines, ∀ c ∈ line, c ≠ '\n')
    (hcr : ∀ line ∈ lines, dropCR line = line) : scanLines [] (unlines lines) = lines := by
  rw [scanLines_eq, rawLines_unlines h, map_congr_left hcr, map_id']

/-- The parts of a text between its line feeds, after the characters `acc` of the first one. -/
def splitLines : List Char → List Char → List (List Char)
  | acc, [] => [acc]
  | acc, c :: cs => if c = '\n' then acc :: splitLines [] cs else splitLines (acc ++ [c]) cs

lemma ne_of_mem_splitLines (hacc : ∀ c ∈ acc, c ≠ '\n') (h : line ∈ splitLines acc text) :
    ∀ c ∈ line, c ≠ '\n' := by
  induction text generalizing acc with
  | nil =>
    rw [List.mem_singleton.1 h]
    exact hacc
  | cons d text ih =>
    rw [splitLines] at h
    split_ifs at h with hd
    · rcases List.mem_cons.1 h with rfl | h
      · exact hacc
      · exact ih (by simp) h
    · refine ih (fun c hc => ?_) h
      rcases List.mem_append.1 hc with hc | hc
      · exact hacc c hc
      · rwa [List.mem_singleton.1 hc]

end Razzer.Lines
