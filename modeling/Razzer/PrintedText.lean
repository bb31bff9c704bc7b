import Razzer.DecodeTypes
import Razzer.Digits

/-!
Numbers, addresses and data in the text of a program.

What is printed is taken by its parser again, and nothing more: numbers, addresses and names end
where a character comes that cannot be part of them, data at its quote.
-/

namespace Razzer.Decoding

open Args Progs Encoding TextParser List Nat
open String (toList_append)

/-- What can follow a name or a number. -/
def endsIdent (c : Char) : Bool := !isIdent c && !isWs c

def endsArg (c : Char) : Bool := c == ',' || c == ')' || c == '\x7d' || c == ']'

variable {c : Char} {d n : ℕ} {T : Target} {address : UInt64}

lemma endsArg_cases (h : endsArg c) : c = ',' ∨ c = ')' ∨ c = '\x7d' ∨ c = ']' := by
  simpa [endsArg, or_assoc] using h

lemma endsIdent_of_endsArg (h : endsArg c) : endsIdent c := by
  rcases endsArg_cases h with rfl | rfl | rfl | rfl <;> decide

lemma not_isWs_of_endsArg (h : endsArg c) : (!isWs c) := by
  rcases endsArg_cases h with rfl | rfl | rfl | rfl <;> decide

lemma not_isWs_of_isIdent (h : isIdent c) : (!isWs c) := by
  simp only [isWs, Bool.not_or, Bool.and_eq_true, Bool.not_eq_true', beq_eq_false_iff_ne]
  constructor
  all_goals
    rintro rfl
    exact absurd h (by decide)

/-! ### Numbers -/

lemma digitVal_digitChar (h : d < 16) : digitVal (digitChar d) = some d := by
  have hall : ∀ d : Fin 16, digitVal (digitChar d) = some d.1 := by decide
  exact hall ⟨d, h⟩

lemma isIdent_digitChar (h : d < 16) : isIdent (digitChar d) := by
  have hall : ∀ d : Fin 16, isIdent (digitChar d) := by decide
  exact hall ⟨d, h⟩

lemma readDigits_append (base : ℕ) (xs ys : List Char) (acc : ℕ) :
    readDigits base (xs ++ ys) acc = (readDigits base xs acc).bind (readDigits base ys) := by
  induction xs generalizing acc with
  | nil => rfl
  | cons x xs ih =>
    simp only [cons_append, readDigits]
    cases digitVal x with
    | none => rfl
    | some d =>
      simp only [Option.bind_some]
      split_ifs
      · exact ih _
      · rfl

variable {b base : ℕ} {v : UInt64} {cs : List Char}

lemma readDigits_digitChar (hb : base ≤ 16) (hd : d < base) (acc : ℕ) :
    readDigits base [digitChar d] acc = some (acc * base + d) := by
  simp [readDigits, digitVal_digitChar (hd.trans_le hb), hd]

lemma readDigits_toDigits (hb : 1 < b) (hb' : b ≤ 16) (n : ℕ) :
    readDigits b (toDigits b n) 0 = some n := by
  refine Digits.toDigits_rec hb (P := fun n ds => readDigits b ds 0 = some n) (fun d hd => ?_)
    (fun n d ds hd ih => ?_) n
  · rw [readDigits_digitChar hb' hd, zero_mul, zero_add]
  · rw [readDigits_append, ih, Option.bind_some, readDigits_digitChar hb' hd]

lemma isIdent_toDigits (hb : 1 < b) (hb' : b ≤ 16) (n : ℕ) : ∀ c ∈ toDigits b n, isIdent c :=
  Digits.forall_mem_toDigits hb (fun _ hd => isIdent_digitChar (hd.trans_le hb')) n

lemma head_toDigits (hn : 0 < n) : (toDigits 10 n).head? ≠ some '0' := by
  induction n using Nat.strong_induction_on with
  | _ n ih =>
    by_cases hlt : n < 10
    · rw [toDigits_of_lt_base hlt]
      have hall : ∀ d : Fin 10, 0 < d.1 → [digitChar d].head? ≠ some '0' := by decide
      exact hall ⟨n, hlt⟩ hn
    · rw [Nat.toDigits_of_base_le (by omega) (Nat.le_of_not_lt hlt),
        head?_append_of_ne_nil _ (toDigits_ne_nil)]
      exact ih _ (by omega) (by omega)

lemma parseUint_hex (h : n < 2 ^ 64) : parseUint (hex n).toList = some (UInt64.ofNat n) := by
  have hne : (toDigits 16 n).isEmpty = false := by simp [toDigits_ne_nil]
  simpa [hex, parseUint, hne, readDigits_toDigits] using h

lemma parseUint_toDigits (h : n < 2 ^ 64) : parseUint (toDigits 10 n) = some (UInt64.ofNat n) := by
  have hrd := readDigits_toDigits (b := 10) (by omega) (by omega) n
  by_cases hlt : n < 10
  · rw [toDigits_of_lt_base hlt] at hrd ⊢
    simpa [parseUint, hrd] using h
  · have hhd := head_toDigits (n := n) (by omega)
    cases hds : toDigits 10 n with
    | nil => exact absurd hds toDigits_ne_nil
    | cons c ds =>
      rw [hds] at hrd hhd
      have hc : c ≠ '0' := fun hc => hhd (by rw [hc]; rfl)
      simpa [parseUint, hrd, hc] using h

lemma takes_number {digits : List Char} (hne : digits ≠ []) (hidn : ∀ c ∈ digits, isIdent c)
    (hval : parseUint digits = some v) (msg : String) (s : St) :
    Takes (number msg) s digits v s endsIdent := by
  exact (takes_ident hne hidn s).bind_pure (by rw [hval])

lemma toList_hex (n : ℕ) : (hex n).toList = '0' :: 'x' :: toDigits 16 n := by
  simp [hex]

lemma takes_hex (v : UInt64) (msg : String) (s : St) :
    Takes (number msg) s (hex v.toNat).toList v s endsIdent := by
  refine takes_number (by simp [toList_hex]) ?_ ?_ msg s
  · rw [toList_hex]
    simpa using ⟨by decide, by decide, isIdent_toDigits (by omega) (by omega) _⟩
  · rw [parseUint_hex v.toNat_lt, UInt64.ofNat_toNat]

lemma toList_toString (n : ℕ) : (toString n).toList = toDigits 10 n := by
  simp [toString]

lemma takes_decimal (h : n < 2 ^ 64) (msg : String) (s : St) :
    Takes (number msg) s (toString n).toList (UInt64.ofNat n) s endsIdent := by
  rw [toList_toString]
  exact takes_number toDigits_ne_nil (isIdent_toDigits (by omega) (by omega) n)
    (parseUint_toDigits h) msg s

/-! ### Addresses -/

lemma toNat_addr (hT : T.wf) (h : address.toNat ≤ T.maxMem.toNat) :
    encodingAddrBase ≤ encodingAddrBase + address ∧
      encodingAddrBase + address - encodingAddrBase = address := by
  have hlt := maxMem_lt hT
  refine ⟨?_, by rw [UInt64.add_comm, UInt64.add_sub_cancel]⟩
  rw [UInt64.le_iff_toNat_le, UInt64.toNat_add, mod_eq_of_lt (by omega)]
  exact le_add_right _ _

lemma takes_parseOffset (addr : UInt64) (s : St) :
    Takes (parseOffset addr) s [] addr s fun c => c == '/' || c == ')' := by
  refine takes_char_bind_nil fun c hc => ?_
  have hne : ¬ (c = '+' ∨ c = '-') := by
    simp only [Bool.or_eq_true, beq_iff_eq] at hc
    rcases hc with rfl | rfl <;> decide
  rw [if_neg hne]
  exact takes_pure addr s _

lemma takes_parseSize (hT : T.wf) {vmaSize : UInt64}
    (h : vmaSize = 0 ∨ Paged T address vmaSize) (s : St) :
    Takes (parseSize T address) s
      (if vmaSize ≠ 0 then "/" ++ hex vmaSize.toNat else "").toList (address, vmaSize) s
      fun c => c == ')' := by
  by_cases hsz : vmaSize = 0
  · rw [if_neg (not_not.2 hsz), hsz]
    refine takes_char_bind_nil fun c hc => ?_
    rw [if_neg (by rw [beq_iff_eq.1 hc]; decide)]
    exact takes_pure _ s _
  · have hsl : "/".toList = ['/'] := rfl
    rw [if_pos hsz, toList_append, hsl]
    refine takes_char_bind ?_
    rw [if_pos rfl]
    refine (takes_parse '/' s).bind (v := (hex vmaSize.toNat).toList) ?_ fun c _ => by
      rw [toList_hex]
      rfl
    refine (takes_hex vmaSize _ s).bind_nil ?_ fun c hc => by
      rw [beq_iff_eq.1 hc]
      decide
    rw [alignVma_of_paged hT (h.resolve_left hsz)]
    exact takes_pure _ s _

/-- **Addresses are read back.** -/
theorem takes_parseAddr (hT : T.wf) {vmaSize : UInt64}
    (had : address.toNat ≤ T.maxMem.toNat) (h : vmaSize = 0 ∨ Paged T address vmaSize) (s : St) :
    Takes (parseAddr T) s (serializeAddr address vmaSize).toList (address, vmaSize) s
      fun c => !isWs c := by
  obtain ⟨hle, hsub⟩ := toNat_addr hT had
  have hsz := takes_parseSize hT h s
  unfold serializeAddr
  generalize hssize : (if vmaSize ≠ 0 then "/" ++ hex vmaSize.toNat else "") = ssize at hsz ⊢
  have hhd : ∀ c : Char, c = ')' → (ssize.toList.headD c == '/' || ssize.toList.headD c == ')') =
      true := by
    rintro c rfl
    rw [← hssize]
    split_ifs <;> simp
  simp only [toList_append, append_assoc]
  refine (takes_parse '(' s).bind ?_ fun c _ => by
    rw [toList_hex]
    rfl
  refine (takes_hex _ _ s).bind (q := fun c => !isWs c) (v := ssize.toList ++ [')']) ?_ ?_
  · rw [if_neg (UInt64.not_lt.2 hle), hsub]
    refine (takes_parseOffset address s).bind (u := []) ?_ ?_
    · refine hsz.bind (v := [')']) ?_ fun c _ => rfl
      exact (takes_parse ')' s).bind_pure rfl
    · intro c _
      cases hs : ssize.toList with
      | nil => rfl
      | cons d ds =>
        have := hhd ')' rfl
        rwa [hs] at this
  · intro c _
    cases hs : ssize.toList with
    | nil => rfl
    | cons d ds =>
      have := hhd ')' rfl
      rw [hs] at this
      simp only [headD_cons, Bool.or_eq_true, beq_iff_eq] at this
      rcases this with rfl | rfl <;> rfl

/-! ### Data -/

def hexPair (b : UInt8) : List Char := [(b.toNat / 16).digitChar, (b.toNat % 16).digitChar]

lemma decodeString_hexPairs (bytes : List UInt8) :
    decodeString (bytes.flatMap hexPair) = some bytes := by
  induction bytes with
  | nil => rfl
  | cons b bytes ih =>
    have hlt := b.toNat_lt
    have hhi : b.toNat / 16 < 16 := by omega
    have hlo : b.toNat % 16 < 16 := mod_lt _ (by omega)
    have hby : UInt8.ofNat (b.toNat / 16 * 16 + b.toNat % 16) = b := by
      rw [div_add_mod', UInt8.ofNat_toNat]
    rw [flatMap_cons, hexPair]
    simp only [cons_append, nil_append, decodeString, digitVal_digitChar hhi,
      digitVal_digitChar hlo, Option.bind_some, hhi, hlo, and_self, if_true, ih, Option.map_some,
      hby]

lemma isIdent_hexPairs (bs : List UInt8) : ∀ c ∈ bs.flatMap hexPair, isIdent c := by
  intro c hc
  obtain ⟨b, -, hb⟩ := mem_flatMap.1 hc
  have hlt := b.toNat_lt
  simp only [hexPair, mem_cons, not_mem_nil, or_false] at hb
  rcases hb with rfl | rfl
  · exact isIdent_digitChar (by omega)
  · exact isIdent_digitChar (mod_lt _ (by omega))

lemma unquote_ofNat {b : UInt8} (hlo : 0x20 ≤ b.toNat) (hhi : b.toNat < 0x7f) (hqt : b.toNat ≠ 39)
    (hbc : b.toNat ≠ 92) (t : List Char) :
    unquote .plain (Char.ofNat b.toNat :: t) = (unquote .plain t).map fun r => (b :: r.1, r.2) := by
  have htN : (Char.ofNat b.toNat).toNat = b.toNat := by
    rw [Char.toNat_ofNat, if_pos (.inl (by omega))]
  have hne : ∀ d : Char, d.toNat ≠ b.toNat → Char.ofNat b.toNat ≠ d :=
    fun d hd h => hd (by rw [← h, htN])
  have hc : ¬ (Char.ofNat b.toNat = '\'' ∨ Char.ofNat b.toNat = '\x00') := by
    rintro (h | h)
    · exact hne '\'' (Ne.symm hqt) h
    · exact hne '\x00' (by show 0 ≠ _; omega) h
  rw [unquote, if_neg hc, if_neg (hne '\\' (Ne.symm hbc)), htN, UInt8.ofNat_toNat]

lemma unquote_escape {b : UInt8} (hb : readable b) (t : List Char) :
    unquote .plain ((escape b).toList ++ t) = (unquote .plain t).map fun r => (b :: r.1, r.2) := by
  unfold escape
  split
  case h_11 =>
    have hrn : 0x20 ≤ b.toNat ∧ b.toNat < 0x7f := by
      simp only [readable, Bool.or_eq_true, decide_eq_true_eq, contains_iff_mem] at hb
      rcases hb with hb | hb
      · exact ⟨UInt8.le_iff_toNat_le.1 hb.1, UInt8.lt_iff_toNat_lt.1 hb.2⟩
      · simp only [mem_cons, not_mem_nil, or_false] at hb
        rcases hb with rfl | rfl | rfl | rfl | rfl | rfl | rfl | rfl <;> simp at *
    rw [String.toList_ofList]
    exact unquote_ofNat hrn.1 hrn.2 ‹_› ‹_› t
  all_goals
    -- The other characters are escaped one by one.
    rename_i h
    rw [← UInt8.ofNat_toNat (x := b), h]
    rfl

lemma unquote_escapes {bs : List UInt8} (h : ∀ b ∈ bs, readable b) (t : List Char) :
    unquote .plain (bs.flatMap (fun b => (escape b).toList) ++ '\'' :: t) =
      .ok (bs, ⟨'\'' :: t, none⟩) := by
  induction bs with
  | nil => simp [unquote]
  | cons b bs ih =>
    obtain ⟨hb, hby⟩ := forall_mem_cons.1 h
    rw [flatMap_cons, append_assoc, unquote_escape hb, ih hby]
    rfl

lemma takes_parseHex (bs : List UInt8) (s : St) :
    Takes parseHex s (bs.flatMap hexPair) (bs.flatMap hexPair) s fun c => c == '"' := by
  cases bs with
  | nil =>
    refine takes_char_bind_nil fun c hc => ?_
    rw [if_pos (beq_iff_eq.1 hc)]
    exact takes_pure _ s _
  | cons b bs =>
    have hidn := isIdent_hexPairs (b :: bs)
    have htk := takes_ident (by simp [hexPair]) hidn s
    rw [List.flatMap_cons, hexPair] at hidn htk ⊢
    have hne : (b.toNat / 16).digitChar ≠ '"' := by
      intro h
      have := hidn _ mem_cons_self
      rw [h] at this
      exact absurd this (by decide)
    refine takes_char_bind ?_
    rw [if_neg hne]
    exact htk.mono fun c hc => by
      rw [beq_iff_eq.1 hc]
      decide

/-- **Data is read back**, up to its closing quote. -/
theorem takes_deserializeData (bs : List UInt8) (s : St) :
    Takes deserializeData s (serializeData bs).toList bs s fun c => !isWs c := by
  unfold serializeData
  split_ifs with hhex
  · have hpr : (encodeToString bs).toList = bs.flatMap hexPair := String.toList_ofList
    have hqt : "\"".toList = ['"'] := rfl
    rw [String.toList_append, String.toList_append, hqt, hpr, List.append_assoc]
    refine takes_char_bind ?_
    rw [if_pos rfl]
    refine (takes_parse '"' s).bind ?_ fun c _ => ?_
    · refine (takes_parseHex bs s).bind (v := ['"']) ?_ fun c _ => rfl
      exact (takes_parse '"' s).bind_pure (by rw [decodeString_hexPairs])
    · cases bs with
      | nil => rfl
      | cons b bs => exact not_isWs_of_isIdent (isIdent_hexPairs (b :: bs) _ (by simp [hexPair]))
  · have hrd : ∀ b ∈ bs, readable b := by
      simp only [Bool.or_eq_true, Bool.not_eq_true', not_or] at hhex
      simpa using hhex.1
    have hqt : "'".toList = ['\''] := rfl
    rw [toList_append, toList_append, hqt, String.toList_join, flatMap_map,
      append_assoc]
    have htx : Takes parseQuoted s
        (['\''] ++ bs.flatMap fun b => (escape b).toList) bs s fun c => c == '\'' := by
      intro c t hc
      have hun := unquote_escapes hrd t
      rw [← beq_iff_eq.1 hc] at hun
      simp [parseQuoted, hun]
    refine takes_char_bind ?_
    rw [if_neg (by decide)]
    refine htx.bind (v := ['\'']) ?_ fun c _ => rfl
    exact (takes_parse '\'' s).bind_pure rfl

lemma stripZeros_append (bytes : List UInt8) : ∃ k, stripZeros bytes ++ replicate k 0 = bytes := by
  induction bytes with
  | nil => exact ⟨0, rfl⟩
  | cons b bytes ih =>
    obtain ⟨k, hk⟩ := ih
    unfold stripZeros
    split
    case h_1 hzr =>
      rw [hzr] at hk
      split_ifs with hb
      · exact ⟨k + 1, by rw [← hk, hb]; rfl⟩
      · exact ⟨k, by rw [← hk]; rfl⟩
    case h_2 => exact ⟨k, by rw [cons_append, hk]⟩

/-! ### Lines -/

def Inline (cs : List Char) : Prop := ∀ c ∈ cs, c ≠ '\n'

lemma Inline.append {u v : List Char} (h : Inline u) (h' : Inline v) : Inline (u ++ v) :=
  fun c hc => (mem_append.1 hc).elim (h c) (h' c)

lemma inline_of_isIdent (h : ∀ c ∈ cs, isIdent c) : Inline cs := by
  rintro c hc rfl
  exact absurd (h _ hc) (by decide)

lemma inline_hex (n : ℕ) : Inline (hex n).toList := by
  rw [toList_hex]
  exact Inline.append (u := ['0', 'x']) (by simp [Inline])
    (inline_of_isIdent (isIdent_toDigits (by omega) (by omega) n))

lemma inline_decimal (n : ℕ) : Inline (toString n).toList := by
  rw [toList_toString]
  exact inline_of_isIdent (isIdent_toDigits (by omega) (by omega) n)

lemma inline_serializeAddr (adr vmaSize : UInt64) :
    Inline (serializeAddr adr vmaSize).toList := by
  have hsz : Inline (if vmaSize ≠ 0 then "/" ++ hex vmaSize.toNat else "").toList := by
    split_ifs
    · rw [toList_append]
      exact Inline.append (by simp [Inline]) (inline_hex _)
    · exact fun c hc => by simp at hc
  simp only [serializeAddr, toList_append]
  exact ((Inline.append (by simp [Inline]) (inline_hex _)).append hsz).append (by simp [Inline])

lemma inline_escape (b : UInt8) : Inline (escape b).toList := by
  unfold escape
  split
  case h_11 =>
    have htN : (Char.ofNat b.toNat).toNat = b.toNat := by
      have := b.toNat_lt
      rw [Char.toNat_ofNat, if_pos (.inl (by omega))]
    rw [String.toList_ofList]
    rintro c hc rfl
    rw [← mem_singleton.1 hc] at htN
    exact absurd htN.symm ‹_›
  all_goals simp [Inline]

lemma inline_serializeData (bs : List UInt8) : Inline (serializeData bs).toList := by
  unfold serializeData
  split_ifs
  · simp only [toList_append]
    refine (Inline.append (by simp [Inline]) ?_).append (by simp [Inline])
    have hpr : (encodeToString bs).toList = bs.flatMap hexPair := String.toList_ofList
    rw [hpr]
    exact inline_of_isIdent (isIdent_hexPairs bs)
  · simp only [toList_append, String.toList_join, flatMap_map]
    refine (Inline.append (by simp [Inline]) fun c hc => ?_).append (by simp [Inline])
    obtain ⟨b, -, hc⟩ := mem_flatMap.1 hc
    exact inline_escape b c hc

end Razzer.Decoding
