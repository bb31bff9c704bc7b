import Mathlib

/-!
Text as bytes, and the characters that are read from it.

A text need not be valid UTF-8. A byte at which no character begins is read as the replacement
character, so that what is read and written again is the text exactly when it was valid. An ASCII
byte is never inside of another character, and a text may be read piece by piece around it.
-/

namespace Razzer.Runes

open List Option
open String (utf8EncodeChar)

def decode (bs : List UInt8) : Option Char := bs.toByteArray.utf8DecodeChar? 0

/-- The character that stands for a byte at which none begins. -/
def replacement : Char := '\uFFFD'

/-- The characters of a text, of which the first bytes have been read already. -/
def runesFrom : ℕ → List UInt8 → List Char
  | _, [] => []
  | skip + 1, _ :: bs => runesFrom skip bs
  | 0, b :: bs =>
    match decode (b :: bs) with
    | some c => c :: runesFrom (c.utf8Size - 1) bs
    | none => replacement :: runesFrom 0 bs

def runes (bs : List UInt8) : List Char := runesFrom 0 bs

def encode (cs : List Char) : List UInt8 := cs.flatMap String.utf8EncodeChar

def Valid (bs : List UInt8) : Prop := ∃ cs, encode cs = bs

/-! ### One character -/

variable {bs : List UInt8} {c : Char}

lemma decode_eq_some_iff : decode bs = some c ↔ utf8EncodeChar c <+: bs := by
  constructor
  · intro h
    obtain ⟨rest, hrs⟩ := ByteArray.exists_of_utf8DecodeChar?_eq_some h
    refine ⟨rest.data.toList, ?_⟩
    have hdt := congrArg (fun b => b.data.toList) hrs
    simpa using hdt.symm
  · rintro ⟨rest, rfl⟩
    rw [decode, toByteArray_append]
    exact ByteArray.utf8DecodeChar?_utf8EncodeChar_append

lemma utf8EncodeChar_ne_nil (c : Char) : utf8EncodeChar c ≠ [] := by
  intro h
  have hlen := String.length_utf8EncodeChar c
  rw [h] at hlen
  exact absurd hlen.symm c.utf8Size_pos.ne'

lemma le_of_mem_tail_utf8EncodeChar (c : Char) :
    ∀ b ∈ (utf8EncodeChar c).tail, 128 ≤ b.toNat := by
  unfold utf8EncodeChar
  simp only
  split_ifs <;> simp <;> omega

lemma decode_nil : decode [] = none := by
  rw [eq_none_iff_forall_ne_some]
  intro c hc
  exact utf8EncodeChar_ne_nil c (prefix_nil.1 (decode_eq_some_iff.1 hc))

/-- The text is empty or begins with an ASCII byte. -/
def Apart (bs : List UInt8) : Prop := ∀ b ∈ bs.head?, b.toNat < 128

variable {rest : List UInt8} {b : UInt8}

/-- **What follows does not matter.** No character reaches into a text that begins with an ASCII
byte. -/
theorem decode_append (hne : bs ≠ []) (hrs : Apart rest) : decode (bs ++ rest) = decode bs := by
  refine ext fun c => ?_
  rw [decode_eq_some_iff, decode_eq_some_iff]
  refine ⟨fun h => ?_, fun h => h.trans (prefix_append bs rest)⟩
  rcases prefix_or_prefix_of_prefix h (prefix_append bs rest) with h' | ⟨t, hc⟩
  · exact h'
  · -- the character is all of `bs` and a part `t` of what follows
    cases t with
    | nil =>
      rw [← hc, append_nil]
    | cons b t =>
      rw [← hc, prefix_append_right_inj] at h
      obtain ⟨u, rfl⟩ := h
      obtain ⟨a, as, rfl⟩ := exists_cons_of_ne_nil hne
      have hmem : b ∈ (utf8EncodeChar c).tail := by simp [← hc]
      have hhg := le_of_mem_tail_utf8EncodeChar c b hmem
      have hlow := hrs b rfl
      omega

/-! ### A whole text -/

lemma runesFrom_eq (k : ℕ) (bs : List UInt8) : runesFrom k bs = runes (bs.drop k) := by
  induction bs generalizing k with
  | nil => cases k <;> rfl
  | cons b bs ih =>
    cases k with
    | zero => rfl
    | succ k => exact ih k

lemma runes_of_decode (h : decode bs = some c) : runes bs = c :: runes (bs.drop c.utf8Size) := by
  cases bs with
  | nil => simp [decode_nil] at h
  | cons b bs =>
    have hsz : c.utf8Size = c.utf8Size - 1 + 1 := by
      have := c.utf8Size_pos
      omega
    rw [hsz, drop_succ_cons, ← runesFrom_eq]
    simp only [runes, runesFrom, h]

lemma runes_of_not_decode (h : decode (b :: bs) = none) :
    runes (b :: bs) = replacement :: runes bs := by
  simp only [runes, runesFrom, h]

lemma runes_utf8EncodeChar_append (c : Char) (bs : List UInt8) :
    runes (utf8EncodeChar c ++ bs) = c :: runes bs := by
  rw [runes_of_decode (decode_eq_some_iff.2 (prefix_append _ bs)),
    ← String.length_utf8EncodeChar, drop_left]

lemma runes_encode_append (cs : List Char) (bs : List UInt8) :
    runes (encode cs ++ bs) = cs ++ runes bs := by
  induction cs with
  | nil => rfl
  | cons c cs ih =>
    have hcn : encode (c :: cs) = utf8EncodeChar c ++ encode cs := rfl
    rw [hcn, append_assoc, runes_utf8EncodeChar_append, ih, cons_append]

/-- **A text is read piece by piece.** -/
theorem runes_append (bs : List UInt8) (hrs : Apart rest) :
    runes (bs ++ rest) = runes bs ++ runes rest := by
  induction hn : bs.length using Nat.strong_induction_on generalizing bs with
  | _ n ih =>
    subst hn
    cases hbs : bs with
    | nil => rfl
    | cons b tail =>
      have hne : bs ≠ [] := by simp [hbs]
      have hap := decode_append hne hrs
      rw [← hbs]
      cases hc : decode bs with
      | some c =>
        rw [hc] at hap
        have hle : c.utf8Size ≤ bs.length := by
          have := (decode_eq_some_iff.1 hc).length_le
          rwa [String.length_utf8EncodeChar] at this
        have hpos := c.utf8Size_pos
        rw [runes_of_decode hap, runes_of_decode hc, drop_append_of_le_length hle,
          ih _ (by simp; omega) _ rfl, cons_append]
      | none =>
        rw [hc] at hap
        rw [hbs] at hc hap ⊢
        rw [cons_append] at hap ⊢
        rw [runes_of_not_decode hap, runes_of_not_decode hc,
          ih tail.length (by simp [hbs]) tail rfl, cons_append]

lemma mem_runes_of_mem (hc : c.toNat < 128) (h : UInt8.ofNat c.toNat ∈ bs) : c ∈ runes bs := by
  have hsn : utf8EncodeChar c = [UInt8.ofNat c.toNat] :=
    if_pos (show c.val.toNat ≤ 127 from Nat.le_of_lt_succ hc)
  obtain ⟨before, after, rfl⟩ := append_of_mem h
  have hap : Apart (UInt8.ofNat c.toNat :: after) := by
    intro b hb
    rw [← some.inj hb, UInt8.toNat_ofNat']
    omega
  have haf := runes_utf8EncodeChar_append c after
  rw [hsn, singleton_append] at haf
  rw [runes_append before hap, haf]
  simp

/-! ### Validity -/

lemma runes_encode (cs : List Char) : runes (encode cs) = cs := by
  have h := runes_encode_append cs []
  rwa [append_nil, show runes [] = [] from rfl, append_nil] at h

lemma encode_ne_nil {cs : List Char} (h : cs ≠ []) : encode cs ≠ [] := by
  intro henc
  have hcs := runes_encode cs
  rw [henc] at hcs
  exact h hcs.symm

lemma valid_iff : encode (runes bs) = bs ↔ Valid bs := by
  constructor
  · exact fun h => ⟨runes bs, h⟩
  · rintro ⟨cs, rfl⟩
    rw [runes_encode]

lemma runes_ne_nil (h : bs ≠ []) : runes bs ≠ [] := by
  obtain ⟨b, bs, rfl⟩ := exists_cons_of_ne_nil h
  cases hc : decode (b :: bs) with
  | some c =>
    rw [runes_of_decode hc]
    exact cons_ne_nil _ _
  | none =>
    rw [runes_of_not_decode hc]
    exact cons_ne_nil _ _

end Razzer.Runes
