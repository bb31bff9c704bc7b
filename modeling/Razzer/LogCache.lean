import Mathlib

/-!
The cache of recent messages of `log.go`.

The lines of the cache form a ring. A message takes the place of the oldest line, and after that
lines are emptied, from the oldest one on, until the cache is small enough or only the message is
left. A Go string is a list of bytes here, and `cacheMem`, which counts bytes that are in memory,
does not overflow.
-/

namespace Razzer.LogCache

open List

/-! ### Rings -/

section Rings

variable {α : Type*} {l : List α} {pos i k n : ℕ}

lemma rotate_set_succ (h : pos < l.length) (x : α) :
    (l.set pos x).rotate (pos + 1) = (l.rotate pos).tail ++ [x] := by
  have hset : l.set pos x = l.take pos ++ [x] ++ l.drop (pos + 1) := by
    rw [set_eq_take_append_cons_drop, if_pos h, append_assoc, singleton_append]
  have hlen : (l.take pos ++ [x]).length = pos + 1 := by
    rw [length_append, length_take, min_eq_left h.le, length_singleton]
  have hold : l.rotate pos = l[pos] :: (l.drop (pos + 1) ++ l.take pos) := by
    rw [rotate_eq_drop_append_take h.le, drop_eq_getElem_cons h, cons_append]
  rw [hset, ← hlen, rotate_append_length_eq, hold, hlen, tail_cons, append_assoc]

lemma add_mod_eq_iff (hi : i < n) (hk : k < n) : (pos + i) % n = (k + pos) % n ↔ i = k := by
  constructor
  · intro h
    rw [add_comm k] at h
    exact Nat.ModEq.eq_of_lt_of_lt (Nat.ModEq.add_left_cancel' pos h) hi hk
  · rintro rfl
    rw [add_comm]

lemma rotate_set_add (h : i < l.length) (x : α) :
    (l.set ((pos + i) % l.length) x).rotate pos = (l.rotate pos).set i x := by
  apply ext_getElem
  · simp
  · intro k hk _
    have hk : k < l.length := by simpa using hk
    simp only [getElem_rotate, getElem_set, length_set, add_mod_eq_iff h hk]

end Rings

/-! ### The cache -/

/-- The variables of the package. `cacheEntries` is nil while there is no cache. -/
structure Cache where
  cacheMem : ℤ
  cacheMaxMem : ℤ
  cachePos : ℕ
  cacheEntries : List (List UInt8)

def init : Cache := ⟨0, 0, 0, []⟩

def enableLogCaching (maxLines maxMem : ℤ) (s : Cache) : Except String Cache :=
  if s.cacheEntries ≠ [] then .error "log caching is already enabled"
  else if maxLines < 1 ∨ maxMem < 1 then .error "invalid maxLines/maxMem"
  else .ok { s with cacheMaxMem := maxMem, cacheEntries := replicate maxLines.toNat [] }

/-- The body of the loop of `Logf`. The position is always one of the ring. -/
def emptyLine (i : ℕ) (s : Cache) : Cache :=
  let pos := (s.cachePos + i) % s.cacheEntries.length
  { s with
    cacheMem := s.cacheMem - (s.cacheEntries.getD pos []).length
    cacheEntries := s.cacheEntries.set pos [] }

/-- The loop from `i` on, with the number of turns that are left. -/
def evict : ℕ → ℕ → Cache → Cache
  | 0, _, s => s
  | left + 1, i, s =>
    if s.cacheMem > s.cacheMaxMem then evict left (i + 1) (emptyLine i s) else s

/-- The message takes the place of the oldest line. -/
def write (old text : List UInt8) (s : Cache) : Cache :=
  { s with
    cacheMem := s.cacheMem - old.length + text.length
    cachePos := if s.cachePos + 1 = s.cacheEntries.length then 0 else s.cachePos + 1
    cacheEntries := s.cacheEntries.set s.cachePos text }

/-- `Logf`, with the message as it is formatted, and without what is printed. -/
def logf (v : ℤ) (text : List UInt8) (s : Cache) : Except String Cache :=
  if s.cacheEntries ≠ [] ∧ v ≤ 1 then
    match s.cacheEntries[s.cachePos]? with
    | none => .error "index out of range"
    | some old =>
      if s.cacheMem - old.length < 0 then .error "log cache size underflow"
      else
        let t := evict (s.cacheEntries.length - 1) 0 (write old text s)
        if t.cacheMem < 0 then .error "log cache size underflow" else .ok t
  else .ok s

def logAll (calls : List (ℤ × List UInt8)) (s : Cache) : Except String Cache :=
  calls.foldlM (fun s c => logf c.1 c.2 s) s

/-- The lines in the order `CachedLogOutput` goes through them. -/
def slots (s : Cache) : List (List UInt8) :=
  (range s.cacheEntries.length).map fun i =>
    s.cacheEntries.getD ((s.cachePos + i) % s.cacheEntries.length) []

def cachedLogOutput (s : Cache) : List UInt8 :=
  (slots s).flatMap fun e => if e = [] then [] else e ++ [0x0a]

/-- The messages that are in the cache. -/
def cached (s : Cache) : List (List UInt8) := (slots s).filter (· ≠ [])

/-- The messages of a sequence of calls that are cached. -/
def messages (calls : List (ℤ × List UInt8)) : List (List UInt8) :=
  (calls.filter fun c => c.1 ≤ 1).map Prod.snd

/-! ### The lines oldest first -/

lemma slots_eq (s : Cache) : slots s = s.cacheEntries.rotate s.cachePos := by
  apply ext_getElem
  · simp [slots]
  · intro i hi _
    have hlt : (i + s.cachePos) % s.cacheEntries.length < s.cacheEntries.length :=
      Nat.mod_lt _ (by simp [slots] at hi; omega)
    simp only [slots, getElem_map, getElem_range, getElem_rotate, add_comm s.cachePos,
      getD_eq_getElem _ _ hlt]

lemma sum_entries (s : Cache) : (s.cacheEntries.map length).sum = ((slots s).map length).sum := by
  rw [slots_eq]
  exact ((rotate_perm _ _).map _).sum_eq.symm

lemma cachedLogOutput_eq (s : Cache) : cachedLogOutput s = (cached s).flatMap (· ++ [0x0a]) := by
  unfold cachedLogOutput cached
  induction slots s with
  | nil => rfl
  | cons e es ih =>
    rw [flatMap_cons, ih]
    by_cases he : e = []
    · simp [he]
    · simp [he]

/-- The position is one of the ring, and the counter is right. -/
structure Counts (s : Cache) : Prop where
  pos : s.cachePos < s.cacheEntries.length
  mem : s.cacheMem = ((slots s).map length).sum

variable {s : Cache} {t : List (List UInt8)} {x old : List UInt8} {i : ℕ}

lemma length_slots (s : Cache) : (slots s).length = s.cacheEntries.length := by
  simp [slots]

lemma emptyLine_spec (h : Counts s) (hs : slots s = replicate i [] ++ x :: t) :
    Counts (emptyLine i s) ∧ slots (emptyLine i s) = replicate (i + 1) [] ++ t := by
  have hi : i < s.cacheEntries.length := by
    rw [← length_slots, hs]
    simp
  have hx : s.cacheEntries.getD ((s.cachePos + i) % s.cacheEntries.length) [] = x := by
    have hget : (slots s)[i]? = some x := by
      rw [hs]
      simp
    simpa [slots, hi] using hget
  have hslots : slots (emptyLine i s) = replicate (i + 1) [] ++ t := by
    rw [slots_eq, emptyLine, rotate_set_add hi, ← slots_eq, hs, replicate_succ']
    simp
  refine ⟨⟨by simpa [emptyLine] using h.pos, ?_⟩, hslots⟩
  have hmem := h.mem
  rw [hs] at hmem
  rw [hslots, emptyLine, hx]
  simp at hmem ⊢
  omega

/-- **What is emptied** are the oldest lines, all but the newest one if the cache stays too
large. -/
lemma evict_spec (left : ℕ) (h : Counts s) (hs : slots s = replicate i [] ++ t)
    (ht : t.length = left + 1) :
    Counts (evict left i s) ∧ (evict left i s).cacheMaxMem = s.cacheMaxMem ∧
      ∃ k, slots (evict left i s) = replicate (i + k) [] ++ t.drop k ∧
        ((evict left i s).cacheMem ≤ s.cacheMaxMem ∨ k = left) := by
  induction left generalizing i s t with
  | zero => exact ⟨h, rfl, 0, hs, .inr rfl⟩
  | succ left ih =>
    rw [evict]
    split_ifs with hmem
    · obtain ⟨x, t, rfl⟩ := exists_cons_of_length_eq_add_one ht
      obtain ⟨hc, hslots⟩ := emptyLine_spec h hs
      obtain ⟨hc, hmax, k, hsl, hor⟩ := ih hc hslots (by simpa using ht)
      refine ⟨hc, hmax, k + 1, ?_, hor.imp_right (congrArg Nat.succ)⟩
      rw [hsl, drop_succ_cons, add_assoc, add_comm 1]
    · exact ⟨h, rfl, 0, hs, .inl (by omega)⟩

lemma write_spec (h : Counts s) (hs : slots s = old :: t) (text : List UInt8) :
    Counts (write old text s) ∧ slots (write old text s) = t ++ [text] := by
  have hslots : slots (write old text s) = t ++ [text] := by
    have hrot := rotate_set_succ h.pos text
    rw [← slots_eq, hs, tail_cons] at hrot
    rw [slots_eq, write, ← hrot]
    dsimp only
    split_ifs with hlast
    · rw [hlast, rotate_zero]
      simpa using (rotate_length (s.cacheEntries.set s.cachePos text)).symm
    · rfl
  have hpos := h.pos
  have hmem := h.mem
  rw [hs] at hmem
  refine ⟨⟨?_, ?_⟩, hslots⟩
  · simp only [write, length_set]
    split_ifs with hlast <;> omega
  · rw [hslots, write]
    simp at hmem ⊢
    omega

/-! ### Messages -/

/-- What the cache holds after some messages. -/
structure Inv (maxMem : ℤ) (msgs : List (List UInt8)) (s : Cache) : Prop extends Counts s where
  max : s.cacheMaxMem = maxMem
  suffix : cached s <:+ msgs.filter (· ≠ [])
  bound : s.cacheMem ≤ maxMem ∨ ∃ m, msgs.getLast? = some m ∧ cached s = [m]

variable {maxMem : ℤ} {msgs : List (List UInt8)}

variable {v : ℤ}

lemma Inv.logf (h : Inv maxMem msgs s) (hmax : 1 ≤ maxMem) (hv : v ≤ 1) (text : List UInt8) :
    ∃ s', logf v text s = .ok s' ∧ Inv maxMem (msgs ++ [text]) s' := by
  have hpos := h.pos
  have hne : s.cacheEntries ≠ [] := ne_nil_of_length_pos (by omega)
  obtain ⟨t, hs⟩ : ∃ t, slots s = s.cacheEntries[s.cachePos] :: t := by
    rw [slots_eq, rotate_eq_drop_append_take hpos.le, drop_eq_getElem_cons hpos]
    exact ⟨_, rfl⟩
  have hlen : t.length = s.cacheEntries.length - 1 := by
    rw [← length_slots, hs]
    rfl
  obtain ⟨hw, hwrite⟩ := write_spec h.toCounts hs text
  obtain ⟨hc, hm, k, hsl, hor⟩ := evict_spec (i := 0) (t := t ++ [text])
    (s.cacheEntries.length - 1) hw hwrite (by simp [hlen])
  obtain ⟨s', hs'⟩ : ∃ s', evict (s.cacheEntries.length - 1) 0
      (write s.cacheEntries[s.cachePos] text s) = s' := ⟨_, rfl⟩
  rw [hs'] at hc hm hsl hor
  have hcached : cached s' = ((t ++ [text]).drop k).filter (· ≠ []) := by
    rw [cached, hsl, filter_append]
    simp
  refine ⟨s', ?_, hc, hm.trans h.max, ?_, ?_⟩
  · have hunder : ¬ s.cacheMem - (s.cacheEntries[s.cachePos]).length < 0 := by
      rw [h.mem, hs, map_cons, sum_cons]
      omega
    rw [LogCache.logf, if_pos ⟨hne, hv⟩, getElem?_eq_getElem hpos]
    dsimp only
    rw [if_neg hunder, hs', if_neg]
    rw [hc.mem]
    omega
  · -- the lines but the oldest one, and then the message
    have hold : t.filter (· ≠ []) <:+ msgs.filter (· ≠ []) := by
      refine IsSuffix.trans ?_ h.suffix
      rw [cached, hs]
      exact (suffix_cons _ t).filter _
    obtain ⟨u, hu⟩ := hold
    rw [hcached]
    refine ((drop_suffix k _).filter _).trans ⟨u, ?_⟩
    rw [filter_append, ← append_assoc, hu, filter_append]
  · rcases hor with hle | hk
    · exact .inl (hle.trans h.max.le)
    · rw [hk, ← hlen, drop_left] at hcached hsl
      by_cases htext : text = []
      · left
        rw [hc.mem, hsl, htext]
        simp
        omega
      · refine .inr ⟨text, getLast?_concat, hcached.trans ?_⟩
        simp [htext]

lemma inv_enable (maxLines : ℤ) (hl : 1 ≤ maxLines) (hm : 1 ≤ maxMem) :
    ∃ s, enableLogCaching maxLines maxMem init = .ok s ∧ Inv maxMem [] s := by
  refine ⟨⟨0, maxMem, 0, replicate maxLines.toNat []⟩, ?_, ⟨?_, ?_⟩, rfl, ?_, .inl ?_⟩
  · rw [enableLogCaching, if_neg (by simp [init]), if_neg (by omega)]
    rfl
  · simp
    omega
  · simp [slots_eq]
  · simp [cached, slots_eq]
  · exact hm.trans' (by simp)

lemma Inv.logAll (h : Inv maxMem msgs s) (hmax : 1 ≤ maxMem) (cs : List (ℤ × List UInt8)) :
    ∃ s', logAll cs s = .ok s' ∧ Inv maxMem (msgs ++ messages cs) s' := by
  induction cs generalizing s msgs with
  | nil => exact ⟨s, rfl, by simpa [messages] using h⟩
  | cons c cs ih =>
    by_cases hv : c.1 ≤ 1
    · obtain ⟨s1, hs1, h1⟩ := h.logf hmax hv c.2
      obtain ⟨s', hs', h'⟩ := ih h1
      refine ⟨s', ?_, ?_⟩
      · rw [LogCache.logAll, foldlM_cons, hs1]
        exact hs'
      · simpa [messages, hv] using h'
    · obtain ⟨s', hs', h'⟩ := ih h
      refine ⟨s', ?_, ?_⟩
      · rw [LogCache.logAll, foldlM_cons, LogCache.logf, if_neg (by simp [hv])]
        exact hs'
      · simpa [messages, hv] using h'

/-- **The cache of messages.** With limits of at least one line and one byte, no sequence of calls
of `Logf` panics. After it the counter is the number of bytes in the cache, what is in the cache is
the end of the sequence of messages that are not empty, the oldest one first, and the counter is
within the limit or only the newest message is in the cache. -/
theorem cache_holds_newest (maxLines maxMem : ℤ) (hl : 1 ≤ maxLines) (hm : 1 ≤ maxMem)
    (calls : List (ℤ × List UInt8)) :
    ∃ s, (enableLogCaching maxLines maxMem init).bind (logAll calls) = .ok s ∧
      s.cacheMem = (s.cacheEntries.map length).sum ∧
      cachedLogOutput s = (cached s).flatMap (· ++ [0x0a]) ∧
      cached s <:+ (messages calls).filter (· ≠ []) ∧
      (s.cacheMem ≤ maxMem ∨
        ∃ m, (messages calls).getLast? = some m ∧ cached s = [m]) := by
  obtain ⟨s₀, hs₀, h₀⟩ := inv_enable maxLines hl hm
  obtain ⟨s, hs, h⟩ := h₀.logAll hm calls
  rw [nil_append] at h
  refine ⟨s, ?_, ?_, cachedLogOutput_eq s, h.suffix, h.bound⟩
  · rw [hs₀]
    exact hs
  · rw [sum_entries]
    exact h.mem

def threeMessages : List (ℤ × List UInt8) := [(0, [1, 2]), (1, [3, 4]), (2, [5]), (0, [6, 7, 8])]

/-- The first message goes for the number of lines and the second one for the number of bytes. The
one of level two is not cached. -/
theorem cache_holds_newest_two_lines :
    ∃ s, (enableLogCaching 2 4 init).bind (logAll threeMessages) = .ok s ∧
      s.cacheMem = (s.cacheEntries.map length).sum ∧ s.cacheMem = 3 ∧
      cachedLogOutput s = [6, 7, 8, 0x0a] := by
  obtain ⟨s, hs, hmem, -⟩ := cache_holds_newest 2 4 (by decide) (by decide) threeMessages
  refine ⟨s, hs, hmem, ?_⟩
  cases hs
  decide

end Razzer.LogCache
