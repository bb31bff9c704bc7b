import Razzer.Scanners

/-!
The address of a memory operand, of `include/race/utils.h` in the emulator.

When a breakpoint is hit, the instruction is disassembled and the address it accesses is computed
from the text of its operand. The text is read character by character. A register is read from its
name, of which two characters behind the `r` are skipped, so the names `r8` and `r9` take the
character behind them along.
-/

namespace Razzer.MemOperand

open Except

open Scanners List UInt64 Nat

/-! ### Registers -/

/-- `struct kvm_regs`, as far as it is read. -/
structure Regs where
  rax : UInt64
  rbx : UInt64
  rcx : UInt64
  rdx : UInt64
  rsi : UInt64
  rdi : UInt64
  rsp : UInt64
  rbp : UInt64
  r8 : UInt64
  r9 : UInt64
  r10 : UInt64
  r11 : UInt64
  r12 : UInt64
  r13 : UInt64
  r14 : UInt64
  r15 : UInt64
  rip : UInt64

/-- How the text cannot be read: by a panic of the source, or by a read behind its end. -/
inductive Fault
  | panic (text : String)
  | overrun
  deriving DecidableEq

/-- The character at an offset; behind the last one there is a zero. -/
def charAt (fmt : List Char) (i : ℕ) : Char := fmt.getD i '\x00'

/-- The mask of a register by its size, and the text behind the letter of the size. -/
def sizeMask (fmt : List Char) : Except Fault (UInt64 × List Char) :=
  if charAt fmt 0 = 'r' then .ok (0xffffffffffffffff, fmt.drop 1)
  else if charAt fmt 0 = 'e' then .ok (0x00000000ffffffff, fmt.drop 1)
  else if fmt.getLast? = some 'x' then .ok (0x000000000000ffff, fmt)
  else if fmt.getLast? = some 'l' then .ok (0x00000000000000ff, fmt)
  else if fmt.getLast? = some 'h' then .ok (0x000000000000ff00, fmt)
  else .error (.panic ("Wrong reg name: " ++ String.ofList fmt))

def readReg (regs : Regs) (insn_size : UInt64) (fmt : List Char) : Except Fault UInt64 :=
  if charAt fmt 0 = 'a' then .ok regs.rax
  else if charAt fmt 0 = 'b' ∧ charAt fmt 1 ≠ 'p' then .ok regs.rbx
  else if charAt fmt 0 = 'c' then .ok regs.rcx
  else if charAt fmt 0 = 'd' ∧ charAt fmt 1 ≠ 'i' then .ok regs.rdx
  else if charAt fmt 0 = 's' ∧ charAt fmt 1 = 'i' then .ok regs.rsi
  else if charAt fmt 0 = 'd' ∧ charAt fmt 1 = 'i' then .ok regs.rdi
  else if charAt fmt 0 = 's' ∧ charAt fmt 1 = 'p' then .ok regs.rsp
  else if charAt fmt 0 = 'b' ∧ charAt fmt 1 = 'p' then .ok regs.rbp
  else if charAt fmt 0 = 'i' ∧ charAt fmt 1 = 'p' then .ok (regs.rip + insn_size)
  else if charAt fmt 0 = '8' then .ok regs.r8
  else if charAt fmt 0 = '9' then .ok regs.r9
  else if charAt fmt 0 = '1' ∧ charAt fmt 1 = '0' then .ok regs.r10
  else if charAt fmt 0 = '1' ∧ charAt fmt 1 = '1' then .ok regs.r11
  else if charAt fmt 0 = '1' ∧ charAt fmt 1 = '2' then .ok regs.r12
  else if charAt fmt 0 = '1' ∧ charAt fmt 1 = '3' then .ok regs.r13
  else if charAt fmt 0 = '1' ∧ charAt fmt 1 = '4' then .ok regs.r14
  else if charAt fmt 0 = '1' ∧ charAt fmt 1 = '5' then .ok regs.r15
  else .error (.panic ("Wrong reg name: " ++ String.ofList fmt))

/-- `get_reg_val`: the value of a register, and the text behind the two characters that are skipped.
A zero behind the text may be skipped, but nothing behind it. -/
def getRegVal (regs : Regs) (insn_size : UInt64) (fmt : List Char) :
    Except Fault (UInt64 × List Char) := do
  let (mask, fmt) ← sizeMask fmt
  let reg_val ← readReg regs insn_size fmt
  if fmt.length < 2 then .error .overrun else .ok (reg_val &&& mask, fmt.drop 2)

/-! ### Operands -/

def isHexDigit (c : Char) : Bool := ('0' ≤ c && c ≤ '9') || ('a' ≤ c && c ≤ 'f')

def decVal (c : Char) : UInt64 :=
  if '0' ≤ c ∧ c ≤ '9' then ofNat (c.toNat - '0'.toNat)
  else ofNat (c.toNat - 'a'.toNat + 10)

/-- The value of digits, modulo 2^64. -/
def hexVal (ds : List Char) : UInt64 := ds.foldl (fun val c => val * 16 + decVal c) 0

/-- The variables of the loop. The sign is that of the next number. -/
structure St where
  val : UInt64
  off : UInt64
  reg : UInt64
  base : UInt64
  baseFlag : Bool
  idx : UInt64
  negative : Bool

def St.start : St := ⟨0, 0, 0, 0, false, 1, false⟩

/-- A number. Behind the first comma it is the scale. -/
def readNumber (s : St) (fmt : List Char) : St × List Char :=
  let fmt := if charAt fmt 0 = '0' ∧ charAt fmt 1 = 'x' then fmt.drop 2 else fmt
  let abs := hexVal (fmt.takeWhile isHexDigit)
  let val := if s.negative then 0 - abs else abs
  ({ s with val := val, negative := false, idx := if s.baseFlag then val else s.idx },
    fmt.dropWhile isHexDigit)

def step (orig : String) (regs : Regs) (insn_size : UInt64) (s : St) (fmt : List Char) :
    Turn St Char (Except Fault UInt64) :=
  match fmt with
  | [] => .stop (.ok s.val)
  | c :: rest =>
    if c = '-' then .next { s with negative := true } rest
    else if isHexDigit c then
      .next (readNumber s fmt).1 (readNumber s fmt).2
    else if c = '(' then .next { s with off := s.val, val := 0 } rest
    else if c = '%' then
      match getRegVal regs insn_size rest with
      | .ok (reg, rest) => .next { s with reg := reg } rest
      | .error e => .stop (.error e)
    else if c = ')' then .stop (.ok (s.base + s.reg * s.idx + s.off))
    else if c = ',' then
      .next (if s.baseFlag then s else { s with base := s.reg, baseFlag := true }) rest
    else .stop (.error (.panic ("Wrong format: " ++ orig)))

def getMemAddr (fmt : String) (regs : Regs) (insn_size : UInt64) : Except Fault UInt64 :=
  let text := if charAt fmt.toList 0 = '*' then fmt.toList.drop 1 else fmt.toList
  if charAt text 0 = '%' ∨ charAt text 0 = '$' then .ok 0
  else eval (step fmt regs insn_size) (.error .overrun) .start text

/-! ### What the disassembler prints -/

inductive Reg
  | rax | rbx | rcx | rdx | rsi | rdi | rsp | rbp | r8 | r9 | r10 | r11 | r12 | r13 | r14 | r15
  deriving DecidableEq

def Reg.name : Reg → List Char
  | .rax => ['r', 'a', 'x']
  | .rbx => ['r', 'b', 'x']
  | .rcx => ['r', 'c', 'x']
  | .rdx => ['r', 'd', 'x']
  | .rsi => ['r', 's', 'i']
  | .rdi => ['r', 'd', 'i']
  | .rsp => ['r', 's', 'p']
  | .rbp => ['r', 'b', 'p']
  | .r8 => ['r', '8']
  | .r9 => ['r', '9']
  | .r10 => ['r', '1', '0']
  | .r11 => ['r', '1', '1']
  | .r12 => ['r', '1', '2']
  | .r13 => ['r', '1', '3']
  | .r14 => ['r', '1', '4']
  | .r15 => ['r', '1', '5']

/-- The two registers with names of two characters. -/
def Reg.short : Reg → Bool
  | .r8 | .r9 => true
  | _ => false

def Regs.get (regs : Regs) : Reg → UInt64
  | .rax => regs.rax
  | .rbx => regs.rbx
  | .rcx => regs.rcx
  | .rdx => regs.rdx
  | .rsi => regs.rsi
  | .rdi => regs.rdi
  | .rsp => regs.rsp
  | .rbp => regs.rbp
  | .r8 => regs.r8
  | .r9 => regs.r9
  | .r10 => regs.r10
  | .r11 => regs.r11
  | .r12 => regs.r12
  | .r13 => regs.r13
  | .r14 => regs.r14
  | .r15 => regs.r15

/-- A base is a register or the address of the next instruction. -/
inductive Base
  | reg (r : Reg)
  | rip
  deriving DecidableEq

def Base.name : Base → List Char
  | .reg r => r.name
  | .rip => ['r', 'i', 'p']

def Base.short : Base → Bool
  | .reg r => r.short
  | .rip => false

def Base.value (regs : Regs) (insn_size : UInt64) : Base → UInt64
  | .reg r => regs.get r
  | .rip => regs.rip + insn_size

inductive Scale
  | one | two | four | eight
  deriving DecidableEq

def Scale.digit : Scale → Char
  | .one => '1'
  | .two => '2'
  | .four => '4'
  | .eight => '8'

def Scale.value : Scale → UInt64
  | .one => 1
  | .two => 2
  | .four => 4
  | .eight => 8

/-- A memory operand: a displacement, a base, an index, and the scale of the index. -/
structure Operand where
  disp : Option ℤ
  base : Option Base
  index : Option Reg
  scale : Scale

def dispText (d : ℤ) : List Char :=
  (if d < 0 then ['-'] else []) ++ '0' :: 'x' :: toDigits 16 d.natAbs

def Operand.dispPart (op : Operand) : List Char := op.disp.elim [] dispText

def Operand.basePart (op : Operand) : List Char := op.base.elim [] fun b => '%' :: b.name

def Operand.indexPart (op : Operand) : List Char := op.index.elim [] fun r => ',' :: '%' :: r.name

/-- The scale is printed behind an index, and if it is not one. -/
def Operand.scalePart (op : Operand) : List Char :=
  if op.scale = .one ∧ op.index = none then [] else [',', op.scale.digit]

/-- The operand as `OP_E` prints it. -/
def Operand.text (op : Operand) : String :=
  String.ofList (op.dispPart ++ if op.base = none ∧ op.index = none ∧ op.scale = .one then []
    else '(' :: (op.basePart ++ op.indexPart ++ op.scalePart ++ [')']))

def Operand.value (op : Operand) (regs : Regs) (insn_size : UInt64) : UInt64 :=
  ofInt (op.disp.getD 0) + op.base.elim 0 (Base.value regs insn_size) +
    op.index.elim 0 regs.get * op.scale.value

/-! ### A turn at a time -/

lemma hexVal_toDigits (n : ℕ) : hexVal (toDigits 16 n) = ofNat n := by
  induction n using Nat.strong_induction_on with
  | _ n ih =>
    have hdg : ∀ d : Fin 16, decVal (digitChar d) = ofNat d.1 := by decide
    by_cases hn : n < 16
    · have hd := hdg ⟨n, hn⟩
      rw [toDigits_of_lt_base hn]
      simpa [hexVal] using hd
    · have hd := hdg ⟨n % 16, mod_lt _ (by omega)⟩
      rw [toDigits_of_base_le (by omega) (Nat.le_of_not_lt hn), hexVal, foldl_append,
        ← hexVal, ih _ (div_lt_self (by omega) (by omega))]
      simp only [foldl_cons, foldl_nil]
      rw [hd]
      show ofNat (n / 16) * ofNat 16 + ofNat (n % 16) = ofNat n
      rw [← ofNat_mul, ← ofNat_add, mul_comm, div_add_mod]

lemma isHexDigit_toDigits (n : ℕ) : ∀ c ∈ toDigits 16 n, isHexDigit c := by
  induction n using Nat.strong_induction_on with
  | _ n ih =>
    have hdg : ∀ d : Fin 16, isHexDigit (digitChar d) := by decide
    intro c hc
    by_cases hn : n < 16
    · rw [toDigits_of_lt_base hn, mem_singleton] at hc
      exact hc ▸ hdg ⟨n, hn⟩
    · rw [toDigits_of_base_le (by omega) (Nat.le_of_not_lt hn), mem_append,
        mem_singleton] at hc
      rcases hc with hc | rfl
      · exact ih _ (div_lt_self (by omega) (by omega)) c hc
      · exact hdg ⟨n % 16, mod_lt _ (by omega)⟩

variable {regs : Regs} {fmt rest : List Char} {v : UInt64} {c : Char} {s : St}

lemma getRegVal_length {sz : UInt64} (h : getRegVal regs sz fmt = .ok (v, rest)) :
    rest.length ≤ fmt.length := by
  rw [getRegVal] at h
  cases hm : sizeMask fmt with
  | error e =>
    rw [hm] at h
    cases h
  | ok r =>
    have hlen : r.2.length ≤ fmt.length := by
      rw [sizeMask] at hm
      split_ifs at hm <;> obtain rfl := ok.inj hm <;> simp
    rw [hm] at h
    cases hr : readReg regs sz r.2 with
    | error e =>
      simp only [bind, Except.bind, hr] at h
      cases h
    | ok v =>
      simp only [bind, Except.bind, hr] at h
      split_ifs at h
      obtain ⟨-, rfl⟩ := Prod.mk.inj (ok.inj h)
      simp only [length_drop]
      omega

lemma readNumber_length (h : isHexDigit c) :
    (readNumber s (c :: rest)).2.length < (c :: rest).length := by
  rw [readNumber]
  simp only
  split_ifs with hx
  · have hle := length_dropWhile_le isHexDigit ((c :: rest).drop 2)
    simp only [length_drop, length_cons] at hle ⊢
    omega
  · have hle := length_dropWhile_le isHexDigit rest
    rw [dropWhile_cons_of_pos h, length_cons]
    omega

section Turns

variable (orig : String) (regs : Regs) (insn_size : UInt64)

lemma consumes_step : Consumes (step orig regs insn_size) := by
  intro s cs s' rest h
  unfold step at h
  split at h
  · cases h
  · next c tail =>
    split_ifs at h with h1 h2 h3 h4
    · obtain ⟨-, rfl⟩ := h
      exact lt_succ_self _
    · obtain ⟨-, rfl⟩ := h
      exact readNumber_length h2
    · obtain ⟨-, rfl⟩ := h
      exact lt_succ_self _
    · split at h
      · next reg rest' hreg =>
        obtain ⟨-, rfl⟩ := h
        exact lt_succ_of_le (getRegVal_length hreg)
      · cases h
    all_goals
      obtain ⟨-, rfl⟩ := h
      exact lt_succ_self _

def run (s : St) (cs : List Char) : Except Fault UInt64 :=
  eval (step orig regs insn_size) (.error .overrun) s cs

variable {orig regs insn_size} {cs ds rest : List Char}

lemma run_turn {s' : St}
    (h : step orig regs insn_size s cs = .next s' rest) :
    run orig regs insn_size s cs = run orig regs insn_size s' rest :=
  eval_next (consumes_step orig regs insn_size) h

lemma run_nil (s : St) : run orig regs insn_size s [] = .ok s.val := eval_stop rfl

lemma run_close (s : St) (rest : List Char) :
    run orig regs insn_size s (')' :: rest) = .ok (s.base + s.reg * s.idx + s.off) :=
  eval_stop rfl

lemma run_minus (s : St) (rest : List Char) :
    run orig regs insn_size s ('-' :: rest) =
      run orig regs insn_size { s with negative := true } rest := run_turn rfl

lemma run_open (s : St) (rest : List Char) :
    run orig regs insn_size s ('(' :: rest) =
      run orig regs insn_size { s with off := s.val, val := 0 } rest := run_turn rfl

lemma run_comma (s : St) (rest : List Char) :
    run orig regs insn_size s (',' :: rest) = run orig regs insn_size
      (if s.baseFlag then s else { s with base := s.reg, baseFlag := true }) rest := run_turn rfl

def St.withNumber (s : St) (abs : UInt64) : St :=
  let val := if s.negative then 0 - abs else abs
  { s with val := val, negative := false, idx := if s.baseFlag then val else s.idx }

lemma takeWhile_digits (h : ∀ c ∈ ds, isHexDigit c)
    (hrs : ∀ c ∈ rest.head?, isHexDigit c = false) :
    (ds ++ rest).takeWhile isHexDigit = ds ∧ (ds ++ rest).dropWhile isHexDigit = rest := by
  have hnil : rest.takeWhile isHexDigit = [] ∧ rest.dropWhile isHexDigit = rest := by
    cases rest with
    | nil => exact ⟨rfl, rfl⟩
    | cons c rest =>
      have hc : isHexDigit c = false := hrs c rfl
      simp [hc]
  rw [takeWhile_append_of_pos h, dropWhile_append_of_pos h, hnil.1, hnil.2, append_nil]
  exact ⟨rfl, rfl⟩

lemma run_hex (s : St) (n : ℕ)
    (hrs : ∀ c ∈ rest.head?, isHexDigit c = false) :
    run orig regs insn_size s ('0' :: 'x' :: (toDigits 16 n ++ rest)) =
      run orig regs insn_size (s.withNumber (ofNat n)) rest := by
  have hnm : readNumber s ('0' :: 'x' :: (toDigits 16 n ++ rest)) =
      (s.withNumber (ofNat n), rest) := by
    obtain ⟨htk, hdr⟩ := takeWhile_digits (isHexDigit_toDigits n) hrs
    rw [readNumber]
    simp only [charAt, getD_cons_zero, getD_cons_succ, true_and, if_true, drop_succ_cons,
      drop_zero, htk, hdr, hexVal_toDigits]
    rfl
  refine run_turn ?_
  show Turn.next _ _ = _
  rw [hnm]

lemma run_scale (s : St) (scale : Scale)
    (hrs : ∀ c ∈ rest.head?, isHexDigit c = false) :
    run orig regs insn_size s (scale.digit :: rest) =
      run orig regs insn_size (s.withNumber scale.value) rest := by
  have hnm : readNumber s (scale.digit :: rest) = (s.withNumber scale.value, rest) := by
    have hdg : ∀ c ∈ [scale.digit], isHexDigit c := by
      intro c hc
      rw [mem_singleton.1 hc]
      cases scale <;> decide
    obtain ⟨htk, hdr⟩ := takeWhile_digits hdg hrs
    have hzr : scale.digit ≠ '0' := by cases scale <;> decide
    have hval : hexVal [scale.digit] = scale.value := by cases scale <;> decide +kernel
    rw [readNumber]
    simp only [singleton_append] at htk hdr
    simp only [charAt, getD_cons_zero, hzr, false_and, if_false, htk, hdr, hval]
    rfl
  have hst : step orig regs insn_size s (scale.digit :: rest) =
      .next (readNumber s (scale.digit :: rest)).1 (readNumber s (scale.digit :: rest)).2 := by
    cases scale <;> rfl
  rw [hnm] at hst
  exact run_turn hst

/-- A register is read with the character behind a short name. -/
lemma run_reg (s : St) (r : Reg) (c : Char) (rest : List Char) :
    run orig regs insn_size s ('%' :: (r.name ++ c :: rest)) =
      run orig regs insn_size { s with reg := regs.get r }
        (if r.short then rest else c :: rest) := by
  have hms : ∀ v : UInt64, v &&& 0xffffffffffffffff = v := fun v => by
    have := and_neg_one (a := v)
    exact this
  have hval : getRegVal regs insn_size (r.name ++ c :: rest) =
      .ok (regs.get r, if r.short then rest else c :: rest) := by
    cases r <;> exact congrArg (fun v => ok (v, _)) (hms _)
  refine run_turn ?_
  show (match getRegVal regs insn_size (r.name ++ c :: rest) with
    | .ok (reg, rest) => Turn.next { s with reg := reg } rest
    | .error e => Turn.stop (error e)) = _
  rw [hval]

lemma run_base (s : St) (b : Base) (c : Char) (rest : List Char) :
    run orig regs insn_size s ('%' :: (b.name ++ c :: rest)) =
      run orig regs insn_size { s with reg := b.value regs insn_size }
        (if b.short then rest else c :: rest) := by
  cases b with
  | reg r => exact run_reg s r c rest
  | rip =>
    have hms : (regs.rip + insn_size) &&& 0xffffffffffffffff = regs.rip + insn_size :=
      and_neg_one (a := regs.rip + insn_size)
    refine run_turn ?_
    show Turn.next { s with reg := (regs.rip + insn_size) &&& 0xffffffffffffffff } (c :: rest) = _
    rw [hms]
    rfl

lemma ofInt_natCast (n : ℕ) : ofInt n = ofNat n := by
  apply UInt64.toNat_inj.1
  simp only [ofInt, toNat_ofNat']
  omega

lemma run_disp (d : ℤ) (hrs : ∀ c ∈ rest.head?, isHexDigit c = false) :
    run orig regs insn_size .start (dispText d ++ rest) =
      run orig regs insn_size { St.start with val := ofInt d } rest := by
  have hnat : ofNat d.natAbs = ofInt d.natAbs := (ofInt_natCast _).symm
  by_cases hd : d < 0
  · have hneg : 0 - ofNat d.natAbs = ofInt d := by
      have habs : d = -(d.natAbs : ℤ) := by omega
      conv_rhs => rw [habs]
      rw [UInt64.ofInt_neg, ← hnat, UInt64.zero_sub]
    rw [dispText, if_pos hd]
    simp only [cons_append, nil_append]
    rw [run_minus, run_hex _ _ hrs]
    show run orig regs insn_size { St.start with val := 0 - ofNat d.natAbs } rest = _
    rw [hneg]
  · have habs : ofNat d.natAbs = ofInt d := by
      conv_rhs => rw [show d = (d.natAbs : ℤ) by omega]
      exact hnat
    rw [dispText, if_neg hd]
    simp only [cons_append, nil_append]
    rw [run_hex _ _ hrs]
    show run orig regs insn_size { St.start with val := ofNat d.natAbs } rest = _
    rw [habs]

lemma head_close (rest : List Char) : ∀ c ∈ (')' :: rest).head?, isHexDigit c = false := by
  intro c hc
  rw [← Option.some.inj hc]
  decide

/-- The index and the scale. If there was no comma before the index, the one behind it makes the
index the base; behind a short name there is none, and the scale is not used. -/
lemma run_index (s : St) (hneg : s.negative = false) (hidx : s.idx = 1) (r : Reg) (scale : Scale) :
    run orig regs insn_size s ('%' :: (r.name ++ [',', scale.digit, ')'])) =
      .ok (if s.baseFlag then s.base + regs.get r * scale.value + s.off
        else if r.short then s.base + regs.get r + s.off
        else regs.get r + regs.get r * scale.value + s.off) := by
  rw [run_reg]
  cases hfl : s.baseFlag <;> cases r.short
  all_goals
    simp only [Bool.false_eq_true, if_true, if_false, run_comma]
    rw [run_scale _ _ (head_close []), run_close]
    simp [St.withNumber, hneg, hidx]

end Turns

/-! ### Printed operands -/

/-- The address that the evaluator gives for an operand. -/
def Operand.computed (op : Operand) (regs : Regs) (insn_size : UInt64) : UInt64 :=
  let off := ofInt (op.disp.getD 0)
  match op.base, op.index with
  | none, none => off
  | none, some r => regs.get r * op.scale.value + off
  | some b, none =>
    let base := b.value regs insn_size
    if b.short then if op.scale = .one then 0 else base + off
    else if op.scale = .one then base + off else base + base * op.scale.value + off
  | some b, some r =>
    if b.short then
      if r.short then regs.get r + off else regs.get r + regs.get r * op.scale.value + off
    else b.value regs insn_size + regs.get r * op.scale.value + off

lemma run_parens {orig : String} {sz : UInt64} (op : Operand) :
    run orig regs sz { St.start with val := ofInt (op.disp.getD 0) }
        ('(' :: (op.basePart ++ op.indexPart ++ op.scalePart ++ [')'])) =
      .ok (op.computed regs sz) := by
  obtain ⟨disp, base, index, scale⟩ := op
  rw [run_open]
  cases base with
  | some b =>
    simp only [Operand.basePart, Option.elim_some, cons_append, append_assoc]
    cases index with
    | some r =>
      simp only [Operand.indexPart, Operand.scalePart, Option.elim_some, reduceCtorEq, and_false,
        if_false, cons_append, nil_append, run_base, Operand.computed]
      cases hb : b.short
      · simp only [Bool.false_eq_true, if_false, run_comma, St.start]
        rw [run_index _ rfl rfl]
        simp
      · rw [if_pos rfl, run_index _ rfl rfl]
        simp [St.start]
    | none =>
      simp only [Operand.indexPart, Operand.scalePart, Option.elim_none, nil_append, and_true,
        Operand.computed]
      split_ifs with hs hb hb
      · simp [run_base, hb, run_nil, St.start]
      · simp [run_base, hb, run_close, St.start]
      · simp only [cons_append, nil_append, run_base, if_pos hb]
        rw [run_scale _ _ (head_close []), run_close]
        simp [St.start, St.withNumber]
      · simp only [cons_append, nil_append, run_base, if_neg hb, run_comma]
        rw [run_scale _ _ (head_close []), run_close]
        simp [St.start, St.withNumber]
  | none =>
    simp only [Operand.basePart, Option.elim_none, nil_append]
    cases index with
    | some r =>
      simp only [Operand.indexPart, Operand.scalePart, Option.elim_some, reduceCtorEq, and_false,
        if_false, cons_append, append_assoc, nil_append, run_comma, St.start]
      rw [run_index _ rfl rfl]
      simp [Operand.computed]
    | none =>
      simp only [Operand.indexPart, Operand.scalePart, Option.elim_none, nil_append, and_true]
      split_ifs
      · refine (run_close _ []).trans ?_
        simp [St.start, Operand.computed]
      · rw [cons_append, singleton_append, run_comma, run_scale _ _ (head_close []), run_close]
        simp [St.start, St.withNumber, Operand.computed]

/-- **What the evaluator computes.** On every operand it ends without a panic. -/
theorem getMemAddr_text (op : Operand) (regs : Regs) (insn_size : UInt64) :
    getMemAddr op.text regs insn_size = .ok (op.computed regs insn_size) := by
  set tail : List Char := if op.base = none ∧ op.index = none ∧ op.scale = .one then []
    else '(' :: (op.basePart ++ op.indexPart ++ op.scalePart ++ [')']) with htl
  have hhd : ∀ c ∈ tail.head?, isHexDigit c = false := by
    rw [htl]
    split_ifs
    · simp
    · simp only [head?_cons, Option.mem_def, Option.some.injEq]
      rintro c rfl
      decide
  -- the text begins with a sign, a digit or a parenthesis
  have hst : getMemAddr op.text regs insn_size =
      run op.text regs insn_size .start (op.dispPart ++ tail) := by
    have htx : op.text.toList = op.dispPart ++ tail := by simp [Operand.text, htl]
    have hfr : charAt (op.dispPart ++ tail) 0 ∈ ['-', '0', '(', '\x00'] := by
      rw [Operand.dispPart]
      cases op.disp with
      | some d =>
        rw [Option.elim_some, dispText]
        split_ifs <;> simp [charAt]
      | none =>
        rw [Option.elim_none, nil_append, htl]
        split_ifs <;> simp [charAt]
    have hot : ∀ c ∈ ['-', '0', '(', '\x00'], c ≠ '*' ∧ c ≠ '%' ∧ c ≠ '$' := by simp
    obtain ⟨hsr, hpt, hdl⟩ := hot _ hfr
    rw [getMemAddr, htx]
    simp only [hsr, if_false, hpt, hdl, or_self]
    rfl
  have hds : run op.text regs insn_size .start (op.dispPart ++ tail) =
      run op.text regs insn_size { St.start with val := ofInt (op.disp.getD 0) } tail := by
    rw [Operand.dispPart]
    cases op.disp with
    | none => rfl
    | some d => exact run_disp d hhd
  rw [hst, hds, htl]
  split_ifs with hpr
  · obtain ⟨hb, hi, hs⟩ := hpr
    rw [run_nil, Operand.computed, hb, hi]
  · exact run_parens op

/-- Where the evaluator is right: the base has a long name, with a scale only behind an index; or
there is a scale, which no index uses, for the short name to take the comma of. -/
def Operand.Readable (op : Operand) : Prop :=
  if op.index = none then ∀ b ∈ op.base, op.scale = .one ↔ b.short = false
  else ∀ b ∈ op.base, b.short = false

lemma Operand.computed_eq {op : Operand} (h : op.Readable) (regs : Regs) (insn_size : UInt64) :
    op.computed regs insn_size = op.value regs insn_size := by
  obtain ⟨disp, base, index, scale⟩ := op
  unfold Readable at h
  cases base <;> cases index
  · simp [computed, value]
  · simp [computed, value, add_comm]
  · rename_i b
    have hsc : scale = .one ↔ b.short = false := by simpa using h
    cases hb : b.short
    · simp [computed, value, hb, hsc.2 hb, add_comm]
    · have hne : scale ≠ .one := by simp [hsc, hb]
      simp [computed, value, hb, hne, add_comm]
  · rename_i b r
    have hb : b.short = false := by simpa using h
    simp only [computed, value, hb, Bool.false_eq_true, if_false, Option.elim_some]
    rw [add_comm, add_assoc]

lemma Base.exists_reg (b : Base) (h : b.short = true) : ∃ q, b = .reg q := by
  cases b with
  | reg q => exact ⟨q, rfl⟩
  | rip => cases h

/-- Registers by their values. -/
def Regs.of (f : Reg → UInt64) (rip : UInt64) : Regs :=
  ⟨f .rax, f .rbx, f .rcx, f .rdx, f .rsi, f .rdi, f .rsp, f .rbp, f .r8, f .r9, f .r10, f .r11,
    f .r12, f .r13, f .r14, f .r15, rip⟩

@[simp] lemma Regs.get_of (f : Reg → UInt64) (rip : UInt64) (r : Reg) : (of f rip).get r = f r := by
  cases r <;> rfl

/-- **The address of an operand.** The evaluator gives it, whatever is in the registers, if and only
if the operand is readable. -/
theorem getMemAddr_text_iff (op : Operand) :
    (∀ regs insn_size, getMemAddr op.text regs insn_size = .ok (op.value regs insn_size)) ↔
      op.Readable := by
  simp only [getMemAddr_text, ok.injEq]
  refine ⟨fun h => ?_, fun h => op.computed_eq h⟩
  obtain ⟨disp, base, index, scale⟩ := op
  have hsv : scale.value ≠ 0 := by cases scale <;> decide
  unfold Operand.Readable
  cases base <;> cases index
  · simp
  · simp
  · rename_i b
    suffices hsc : scale = .one ↔ b.short = false by simpa using hsc
    cases hb : b.short with
    | false =>
      by_contra hne
      have hone : b.value (.of (fun _ => 1) 1) 0 = 1 := by
        cases b with
        | reg q => exact Regs.get_of _ _ q
        | rip => rfl
      -- the scale is applied to the base
      have hsm := h (.of (fun _ => 1) 1) 0
      simp only [Operand.computed, Operand.value, hb, hone] at hsm
      exact hsv (by grind)
    | true =>
      obtain ⟨q, rfl⟩ := b.exists_reg hb
      -- the closing parenthesis is lost, and with it the address
      have hsm := h (.of (fun _ => 1 - ofInt (disp.getD 0)) 0) 0
      simpa [Operand.computed, Operand.value, hb, Base.value] using hsm
  · rename_i b r
    suffices hb : b.short = false by simpa using hb
    by_contra hb
    rw [Bool.not_eq_false] at hb
    obtain ⟨q, rfl⟩ := b.exists_reg hb
    -- the base is lost
    have hsm := h (.of (fun x => if x = q then 1 else 0) 0) 0
    simp only [Operand.computed, Operand.value, hb, if_true, Base.value, Regs.get_of,
      Option.elim_some] at hsm
    by_cases hr : r = q
    · obtain rfl : r = q := hr
      have hrs : r.short = true := hb
      simp only [hrs, if_true] at hsm
      exact hsv (by grind)
    · simp only [hr, if_false] at hsm
      grind

def someRegs : Regs where
  rax := 0x10000
  rbx := 0x20000
  rcx := 0x30000
  rdx := 0x40000
  rsi := 0x50000
  rdi := 0x60000
  rsp := 0x70000
  rbp := 0x80000
  r8 := 0x90000
  r9 := 0xa0000
  r10 := 0xb0000
  r11 := 0xc0000
  r12 := 0xd0000
  r13 := 0xe0000
  r14 := 0xf0000
  r15 := 0x100000
  rip := 0xffffffff81000000

/-- The name of `r8` takes the closing parenthesis along, or the comma, so that the base is lost.
And a scale without an index is applied to the base. -/
theorem short_name_wrong_address :
    getMemAddr "(%r8)" someRegs 3 = .ok 0 ∧
      Operand.text ⟨none, some (.reg .r8), none, .one⟩ = "(%r8)" ∧
      Operand.value ⟨none, some (.reg .r8), none, .one⟩ someRegs 3 = 0x90000 ∧
    getMemAddr "0x10(%r9,%rax,2)" someRegs 3 = .ok 0x30010 ∧
      Operand.text ⟨some 16, some (.reg .r9), some .rax, .two⟩ = "0x10(%r9,%rax,2)" ∧
      Operand.value ⟨some 16, some (.reg .r9), some .rax, .two⟩ someRegs 3 = 0xc0010 ∧
    getMemAddr "(%rsp,2)" someRegs 3 = .ok 0x150000 ∧
      Operand.text ⟨none, some (.reg .rsp), none, .two⟩ = "(%rsp,2)" ∧
      Operand.value ⟨none, some (.reg .rsp), none, .two⟩ someRegs 3 = 0x70000 := by
  decide +kernel

end Razzer.MemOperand
