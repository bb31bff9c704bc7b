import Razzer.ManagerDB

/-!
What the signature of a race input tells about it.

The signature is computed from the text of the program followed by that of the race info, so
two inputs with one signature have the same text in all, though it may be divided
differently. The last line of the text has the hash of the pair, and neither the program nor
the other lines can hide where it is. So inputs for different pairs have different signatures.
-/

namespace Razzer.RaceSig

open SyzManager ManagerDB List Nat

/-! ### Digits -/

lemma digitChar_inj : ∀ a < 16, ∀ b < 16, digitChar a = digitChar b → a = b := by
  decide

lemma digitChar_ne_space : ∀ d < 16, digitChar d ≠ ' ' := by
  decide

variable {b m n : ℕ}

lemma toDigits_ne_space (hb : 1 < b) (hb' : b ≤ 16) (n : ℕ) : ∀ c ∈ toDigits b n, c ≠ ' ' := by
  induction n using Nat.strongRecOn with
  | ind n ih =>
    intro c hc
    rcases lt_or_ge n b with hn | hn
    · rw [toDigits_of_lt_base hn, mem_singleton] at hc
      rw [hc]
      exact digitChar_ne_space n (by omega)
    · rw [toDigits_of_base_le hb hn, mem_append, mem_singleton] at hc
      have hmod : n % b < b := mod_lt n (by omega)
      rcases hc with hc | hc
      · exact ih (n / b) (div_lt_self (by omega) hb) c hc
      · rw [hc]
        exact digitChar_ne_space (n % b) (by omega)

lemma toDigits_inj (h : toDigits 16 n = toDigits 16 m) : n = m := by
  induction n using Nat.strongRecOn generalizing m with
  | ind n ih =>
    have hln : ∀ {k : ℕ} {c : Char}, toDigits 16 (k / 16) ++ [(k % 16).digitChar] ≠ [c] := by
      intro k c heq
      have hlen := congrArg length heq
      have hpos := length_pos_iff.2 (toDigits_ne_nil (n := k / 16) (b := 16))
      simp only [length_append, length_singleton] at hlen
      omega
    rcases lt_or_ge n 16 with hn | hn <;> rcases lt_or_ge m 16 with hm | hm
    · rw [toDigits_of_lt_base hn, toDigits_of_lt_base hm] at h
      exact digitChar_inj n hn m hm (singleton_inj.1 h)
    · rw [toDigits_of_lt_base hn, toDigits_of_base_le (by omega) hm] at h
      exact absurd h.symm hln
    · rw [toDigits_of_base_le (by omega) hn, toDigits_of_lt_base hm] at h
      exact absurd h hln
    · rw [toDigits_of_base_le (by omega) hn, toDigits_of_base_le (by omega) hm] at h
      obtain ⟨hdiv, hmod⟩ := append_inj' h rfl
      have hdiv := ih (n / 16) (by omega) hdiv
      have hmod := digitChar_inj _ (mod_lt _ (by omega)) _ (mod_lt _ (by omega))
        (singleton_inj.1 hmod)
      omega

lemma decText_ne_space (i : ℤ) : ∀ c ∈ (decText i).toList, c ≠ ' ' := by
  cases i with
  | ofNat n =>
    rw [decText, String.toList_ofList]
    exact toDigits_ne_space (by omega) (by omega) n
  | negSucc n =>
    rw [decText, String.toList_append]
    intro c hc
    rcases mem_append.1 hc with hc | hc
    · rw [mem_singleton.1 hc]
      decide
    · rw [String.toList_ofList] at hc
      exact toDigits_ne_space (by omega) (by omega) (n + 1) c hc

/-! ### The hash in a text -/

/-- The word that stands before the last nine characters that are before the last word, from
its end. -/
def hashPart (text : List Char) : List Char :=
  (((text.reverse.drop 1).dropWhile (· ≠ ' ')).drop 9).takeWhile (· ≠ ' ')

lemma hashPart_eq (front hex dec : List Char) (hhex : ∀ c ∈ hex, c ≠ ' ')
    (hdec : ∀ c ∈ dec, c ≠ ' ') :
    hashPart (front ++ "Hash ".toList ++ hex ++ " , Sched ".toList ++ dec ++ ['\n']) =
      hex.reverse := by
  have hrev : (front ++ "Hash ".toList ++ hex ++ " , Sched ".toList ++ dec ++ ['\n']).reverse =
      '\n' :: (dec.reverse ++ (" dehcS , ".toList ++ (hex.reverse ++
        (" hsaH".toList ++ front.reverse)))) := by
    simp
  have hdec' : ∀ c ∈ dec.reverse, decide (c ≠ ' ') :=
    fun c hc => decide_eq_true (hdec c (mem_reverse.1 hc))
  have hhex' : ∀ c ∈ hex.reverse, decide (c ≠ ' ') :=
    fun c hc => decide_eq_true (hhex c (mem_reverse.1 hc))
  rw [hashPart, hrev, drop_one, tail_cons, dropWhile_append_of_pos hdec']
  have hdr : ((" dehcS , ".toList ++ (hex.reverse ++ (" hsaH".toList ++ front.reverse))).dropWhile
      (fun c => decide (c ≠ ' '))).drop 9 = hex.reverse ++ (" hsaH".toList ++ front.reverse) := by
    rfl
  rw [hdr, takeWhile_append_of_pos hhex']
  simp

lemma toBytes_toList (p : String) (ri : RaceInfo) : ∃ front,
    (p ++ RaceInfo.toBytes ri).toList = front ++ "Hash ".toList ++ toDigits 16 ri.hash.toNat ++
      " , Sched ".toList ++ (decText ri.sched).toList ++ ['\n'] := by
  refine ⟨p.toList ++ (RaceInfo.line ri.cov.1 ri.addr.1 ri.idx.1 ++
    RaceInfo.line ri.cov.2 ri.addr.2 ri.idx.2 ++
    ("Loc0 " ++ ri.mempair.1 ++ " , Loc1 " ++ ri.mempair.2 ++ "\n")).toList, ?_⟩
  simp only [RaceInfo.toBytes, hexText, String.toList_append, String.toList_ofList, append_assoc]
  rfl

/-- **The text of a program and a race info tells the pair.** -/
theorem hash_of_text {p p' : String} {ri ri' : RaceInfo}
    (h : p ++ RaceInfo.toBytes ri = p' ++ RaceInfo.toBytes ri') : ri.hash = ri'.hash := by
  obtain ⟨front, hf⟩ := toBytes_toList p ri
  obtain ⟨front', hf'⟩ := toBytes_toList p' ri'
  have hsp : ∀ hash : MempairHash, ∀ c ∈ toDigits 16 hash.toNat, c ≠ ' ' :=
    fun hash => toDigits_ne_space (by omega) (by omega) hash.toNat
  have hpr := congrArg hashPart (congrArg String.toList h)
  rw [hf, hf', hashPart_eq _ _ _ (hsp _) (decText_ne_space _),
    hashPart_eq _ _ _ (hsp _) (decText_ne_space _)] at hpr
  exact UInt64.toNat_inj.1 (toDigits_inj (reverse_inj.1 hpr))

def sigOf (H : Hash) (inp : RPCLikelyRaceInput) : String :=
  computeSig H inp.raceProg.bytes (RaceInfo.toBytes inp.raceInfo)

/-- **Inputs with the same signature are for the same pair.** -/
theorem hash_of_sigOf {H : Hash} {inp inp' : RPCLikelyRaceInput} (h : sigOf H inp = sigOf H inp') :
    inp.raceInfo.hash = inp'.raceInfo.hash :=
  hash_of_text (H.injective h)

end Razzer.RaceSig
