import Razzer.Digits

/-!
Formatted input: literal characters, blanks, numbers and words that are read from a text.

A format is a program of such steps. What each of them leaves of the text is described for a text
that begins with what the step expects, so that a printed text is scanned step by step.
-/

namespace Razzer.Scanf

open Digits Nat List

inductive Fault
  | mismatch
  | noSpace
  | newline
  | eof
  | noInteger
  | range
  deriving DecidableEq

abbrev Scan := StateT (List Char) (Except Fault)

def isSpace (c : Char) : Bool :=
  let n := c.toNat
  (9 ≤ n && n ≤ 13) || n == 0x20 || n == 0x85 || n == 0xa0 || n == 0x1680 ||
    (0x2000 ≤ n && n ≤ 0x200a) || n == 0x2028 || n == 0x2029 || n == 0x202f || n == 0x205f ||
      n == 0x3000

def isHex (c : Char) : Bool :=
  ('0' ≤ c && c ≤ '9') || ('a' ≤ c && c ≤ 'f') || ('A' ≤ c && c ≤ 'F')

def isDec (c : Char) : Bool := '0' ≤ c && c ≤ '9'

/-! ### Steps of a format -/

/-- White space in front of a number or a word. A line must not end there. -/
def skipSpace : List Char → Except Fault (List Char)
  | [] => .ok []
  | c :: cs =>
    if c = '\n' then .error .newline
    else if isSpace c then skipSpace cs
    else .ok (c :: cs)

def literal : List Char → Scan Unit
  | [] => pure ()
  | c :: cs => fun input =>
    match input with
    | [] => .error .eof
    | d :: input => if d = c then literal cs input else .error .mismatch

/-- A blank of the format is one blank or more. -/
def blank : Scan Unit := fun input =>
  match input with
  | [] => .ok ((), [])
  | c :: cs =>
    if !isSpace c then .error .noSpace
    else if c = '\n' then .error .newline
    else .ok ((), cs.dropWhile fun c => isSpace c && c ≠ '\n')

def digits (isDigit : Char → Bool) (b : ℕ) : Scan ℕ := fun input =>
  if input.isEmpty then .error .eof
  else if (input.takeWhile isDigit).isEmpty then .error .noInteger
  else .ok (ofDigits b (input.takeWhile isDigit), input.dropWhile isDigit)

def start : Scan Unit := fun input =>
  match skipSpace input with
  | .error e => .error e
  | .ok [] => .error .eof
  | .ok (c :: cs) => .ok ((), c :: cs)

/-- `%x` of an unsigned integer of so many bits. -/
def hex (bits : ℕ) : Scan ℕ := do
  start
  let n ← digits isHex 16
  if n < 2 ^ bits then pure n else fun _ => .error .range

def sign : Scan Bool := fun input =>
  match input with
  | '-' :: cs => .ok (true, cs)
  | '+' :: cs => .ok (false, cs)
  | cs => .ok (false, cs)

/-- `%d` of an integer of 64 bits. -/
def dec : Scan ℤ := do
  start
  let negative ← sign
  let n ← digits isDec 10
  let z : ℤ := if negative then -n else n
  if -2 ^ 63 ≤ z ∧ z < 2 ^ 63 then pure z else fun _ => .error .range

/-- `%s`. -/
def word : Scan (List Char) := do
  start
  fun input => .ok (input.takeWhile fun c => !isSpace c, input.dropWhile fun c => !isSpace c)

/-! ### What is left of a text -/

variable {α β : Type}

/-- The step reads `a` from the text and leaves the rest. -/
def Reads (p : Scan α) (text : List Char) (a : α) (rest : List Char) : Prop :=
  p text = .ok (a, rest)

variable {rest cs : List Char} {p : Char → Bool} {b : ℕ} {f : α → Scan β} {rest' text : List Char}

lemma Reads.bind_eq {p : Scan α} {a : α}
    (h : Reads p text a rest) : (p >>= f) text = f a rest := by
  show (StateT.bind p f) text = _
  rw [StateT.bind, h]
  rfl

lemma Reads.bind {p : Scan α} {a : α} {b : β}
    (h : Reads p text a rest) (h' : Reads (f a) rest b rest') : Reads (p >>= f) text b rest' :=
  h.bind_eq.trans h'

lemma bind_error {p : Scan α} {e : Fault}
    (h : p text = .error e) : (p >>= f) text = .error e := by
  show (StateT.bind p f) text = _
  rw [StateT.bind, h]
  rfl

lemma reads_pure (a : α) (text : List Char) : Reads (pure a : Scan α) text a text := rfl

lemma reads_literal (cs rest : List Char) : Reads (literal cs) (cs ++ rest) () rest := by
  induction cs with
  | nil => rfl
  | cons c cs ih =>
    show (if c = c then literal cs (cs ++ rest) else _) = _
    rw [if_pos rfl]
    exact ih

/-- The first character of a text, if there is one. -/
def Begins (p : Char → Bool) (text : List Char) : Prop := ∀ c ∈ text.head?, p c = true

variable {c : Char} {z : ℤ}

lemma begins_cons (h : p c) (rest : List Char) : Begins p (c :: rest) := by
  intro d hd
  rwa [← Option.some.inj hd]

lemma begins_append (hne : cs ≠ []) (h : ∀ c ∈ cs, p c) (rest : List Char) :
    Begins p (cs ++ rest) := by
  cases cs with
  | nil => exact absurd rfl hne
  | cons c cs => exact begins_cons (h c mem_cons_self) _

lemma reads_blank (h : Begins (fun c => !isSpace c) rest) : Reads blank (' ' :: rest) () rest := by
  have hdr : rest.dropWhile (fun c => isSpace c && c ≠ '\n') = rest := by
    cases rest with
    | nil => rfl
    | cons c rest =>
      have hc : isSpace c = false := by simpa using h c rfl
      exact dropWhile_cons_of_neg (by simp [hc])
  show Except.ok ((), rest.dropWhile fun c => isSpace c && c ≠ '\n') = _
  rw [hdr]

lemma reads_start (h : isSpace c = false) (rest : List Char) :
    Reads start (c :: rest) () (c :: rest) := by
  have hne : c ≠ '\n' := by
    rintro rfl
    exact absurd h (by decide)
  have hsk : skipSpace (c :: rest) = .ok (c :: rest) := by simp [skipSpace, hne, h]
  rw [Reads, start, hsk]

lemma span_append (h : ∀ c ∈ cs, p c) (hrs : Begins (fun c => !p c) rest) :
    (cs ++ rest).takeWhile p = cs ∧ (cs ++ rest).dropWhile p = rest := by
  have hnil : rest.takeWhile p = [] ∧ rest.dropWhile p = rest := by
    cases rest with
    | nil => exact ⟨rfl, rfl⟩
    | cons c rest =>
      have hc : p c = false := by simpa using hrs c rfl
      simp [hc]
  rw [takeWhile_append_of_pos h, dropWhile_append_of_pos h, hnil.1, hnil.2, append_nil]
  exact ⟨rfl, rfl⟩

lemma digits_toDigits {isDigit : Char → Bool} {b' : ℕ} (hb : 1 < b)
    (hdg : ∀ d < b, isDigit (digitChar d)) (n : ℕ) (hrs : Begins (fun c => !isDigit c) rest) :
    Reads (digits isDigit b') (toDigits b n ++ rest) (ofDigits b' (toDigits b n)) rest := by
  obtain ⟨htk, hdr⟩ := span_append (forall_mem_toDigits hb hdg n) hrs
  have hne : toDigits b n ≠ [] := toDigits_ne_nil
  rw [Reads, digits, htk, hdr, if_neg (by simp [hne]), if_neg (by simp [hne])]

lemma reads_digits {isDigit : Char → Bool} (hb : 1 < b) (hb' : b ≤ 16)
    (hdg : ∀ d < b, isDigit (digitChar d)) (n : ℕ)
    (hrs : Begins (fun c => !isDigit c) rest) :
    Reads (digits isDigit b) (toDigits b n ++ rest) n rest := by
  have h : Reads (digits isDigit b) _ _ _ := digits_toDigits hb hdg n hrs
  rwa [ofDigits_toDigits hb hb'] at h

lemma isHex_digitChar : ∀ d < 16, isHex (digitChar d) := by decide

lemma isDec_digitChar : ∀ d < 10, isDec (digitChar d) := by decide

lemma exists_cons_toDigits (hb : 1 < b) (hb' : b ≤ 16) (n : ℕ) :
    ∃ c cs, toDigits b n = c :: cs ∧ isSpace c = false := by
  have hsp : ∀ d < 16, isSpace (digitChar d) = false := by decide
  have hall := forall_mem_toDigits hb (p := fun c => isSpace c = false)
    (fun d hd => hsp d (hd.trans_le hb')) n
  cases hds : toDigits b n with
  | nil => exact absurd hds toDigits_ne_nil
  | cons c cs => exact ⟨c, cs, rfl, hall c (by simp [hds])⟩

lemma reads_start_toDigits (hb : 1 < b) (hb' : b ≤ 16) (n : ℕ) (rest : List Char) :
    Reads start (toDigits b n ++ rest) () (toDigits b n ++ rest) := by
  obtain ⟨c, cs, hcs, hc⟩ := exists_cons_toDigits hb hb' n
  rw [hcs]
  exact reads_start hc (cs ++ rest)

/-- The digits may be those of another base. -/
lemma hex_toDigits (bits : ℕ) (hb : 1 < b) (hb' : b ≤ 16) (n : ℕ)
    (hrs : Begins (fun c => !isHex c) rest) :
    hex bits (toDigits b n ++ rest) =
      if ofDigits 16 (toDigits b n) < 2 ^ bits then .ok (ofDigits 16 (toDigits b n), rest)
      else .error .range := by
  have hdg : ∀ d < b, isHex (digitChar d) := fun d hd => isHex_digitChar d (hd.trans_le hb')
  rw [hex, (reads_start_toDigits hb hb' n rest).bind_eq, (digits_toDigits hb hdg n hrs).bind_eq]
  split_ifs <;> rfl

lemma reads_hex {bits n : ℕ} (h : n < 2 ^ bits) (hrs : Begins (fun c => !isHex c) rest) :
    Reads (hex bits) (toDigits 16 n ++ rest) n rest := by
  have hval : ofDigits 16 (toDigits 16 n) = n := ofDigits_toDigits (by omega) le_rfl n
  rw [Reads, hex_toDigits bits (by omega) le_rfl n hrs, hval, if_pos h]

def decText : ℤ → List Char
  | .ofNat n => toDigits 10 n
  | .negSucc n => '-' :: toDigits 10 (n + 1)

lemma reads_dec (h : -2 ^ 63 ≤ z ∧ z < 2 ^ 63) (hrs : Begins (fun c => !isDec c) rest) :
    Reads dec (decText z ++ rest) z rest := by
  cases z with
  | ofNat n =>
    have hsg : Reads sign (toDigits 10 n ++ rest) false (toDigits 10 n ++ rest) := by
      have hall := forall_mem_toDigits (b := 10) (by omega)
        (p := fun c => c ≠ '-' ∧ c ≠ '+') (by decide) n
      cases hds : toDigits 10 n with
      | nil => exact absurd hds toDigits_ne_nil
      | cons c cs =>
        obtain ⟨hmn, hpl⟩ := hall c (by simp [hds])
        simp [Reads, sign, hmn, hpl]
    refine (reads_start_toDigits (by omega) (by omega) n rest).bind (hsg.bind ?_)
    refine (reads_digits (by omega) (by omega) isDec_digitChar n hrs).bind ?_
    simp only [Bool.false_eq_true, if_false]
    rw [if_pos (by simpa using h)]
    exact reads_pure _ rest
  | negSucc n =>
    have hz : Int.negSucc n = -((n + 1 : ℕ) : ℤ) := rfl
    refine (reads_start (by decide) (toDigits 10 (n + 1) ++ rest)).bind ?_
    have hsg : Reads sign ('-' :: (toDigits 10 (n + 1) ++ rest)) true
        (toDigits 10 (n + 1) ++ rest) := rfl
    refine hsg.bind ?_
    refine (reads_digits (by omega) (by omega) isDec_digitChar (n + 1) hrs).bind ?_
    simp only [if_true]
    rw [hz] at h ⊢
    rw [if_pos h]
    exact reads_pure _ rest

lemma reads_word (hne : cs ≠ []) (h : ∀ c ∈ cs, isSpace c = false) (hrs : Begins isSpace rest) :
    Reads word (cs ++ rest) cs rest := by
  have hcs : ∀ c ∈ cs, (!isSpace c) := by simpa using h
  obtain ⟨htk, hdr⟩ := span_append hcs (by simpa using hrs)
  have hst : Reads start (cs ++ rest) () (cs ++ rest) := by
    cases cs with
    | nil => exact absurd rfl hne
    | cons c cs => exact reads_start (h c mem_cons_self) _
  refine hst.bind ?_
  show Except.ok _ = _
  rw [htk, hdr]

end Razzer.Scanf
