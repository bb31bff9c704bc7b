import Razzer.TextRoundTrip

/-!
Programs with different texts.

An argument is compared with the one that was read from its text and sanitised. If both have the
same text, then no null region was read as the default one: the texts agree character by
character, and an argument is followed by the same as the other one.
-/

namespace Razzer.Decoding

open Args Progs Encoding TextParser Minimize List Bool
open String (toList_append)
open Printer (print)

variable {T : Target} {e e' : Encoder} {a b : Arg} {as bs : List Arg} {st st' st₁ st₁' : Printer}
  {r r' : List Char} {i n n' : ℕ} {close : Char}

lemma text_print (st : Printer) (s : String) : (st.print s).text = st.text ++ s.toList := rfl

/-! ### Printing appends -/

/-- The text of the argument is put behind what has been printed. -/
def Appends (e : Encoder) (a : Arg) : Prop :=
  ∀ st st', serializeArg e a st = some st' → ∃ cs, st'.text = st.text ++ cs ∧ Starts cs

lemma appends_inner (has : ∀ a ∈ as, Appends e a) (h : serializeInner e i n as st = some st') :
    ∃ cs, st'.text = st.text ++ cs ∧ (∀ c ∈ cs.head?, c = ',' ∨ i = 0 ∧ startsArg c = true) ∧
      ((∃ a ∈ as.take n, a.isPad = false) → cs ≠ []) := by
  induction as generalizing i n st with
  | nil =>
    rw [serializeInner] at h
    cases h
    exact ⟨[], by simp, by simp, by simp⟩
  | cons a as ih =>
    obtain ⟨ha, has⟩ := forall_mem_cons.1 has
    cases n with
    | zero =>
      rw [serializeInner] at h
      cases h
      exact ⟨[], by simp, by simp, by simp⟩
    | succ n =>
      rw [serializeInner] at h
      by_cases hpad : a.isPad
      · rw [if_pos hpad] at h
        obtain ⟨cs, htx, hhd, hne⟩ := ih has h
        refine ⟨cs, htx, fun c hc => (hhd c hc).imp_right fun hi => absurd hi.1 (by omega), ?_⟩
        rintro ⟨b, hb, hnp⟩
        rcases mem_cons.1 hb with rfl | hb
        · exact absurd (hpad.symm.trans hnp) (by simp)
        · exact hne ⟨b, hb, hnp⟩
      · rw [if_neg hpad] at h
        obtain ⟨st₁, hst, h⟩ := Option.bind_eq_some_iff.1 h
        obtain ⟨cs, htx, c, t, rfl, hc⟩ := ha _ _ hst
        obtain ⟨cs', htx', -, -⟩ := ih has h
        split_ifs at htx with hi
        · exact ⟨',' :: ' ' :: c :: (t ++ cs'), by rw [htx', htx, text_print]; simp, by simp,
            by simp⟩
        · refine ⟨c :: (t ++ cs'), by rw [htx', htx]; simp, ?_, by simp⟩
          simpa using Or.inr ⟨not_not.1 hi, hc⟩

lemma starts_append {cs : List Char} (h : Starts cs) (ds : List Char) : Starts (cs ++ ds) := by
  obtain ⟨c, t, rfl, hc⟩ := h
  exact ⟨c, t ++ ds, rfl, hc⟩

lemma appends_of_print {s : String} (hst : Starts s.toList) :
    ∃ cs, (st.print s).text = st.text ++ cs ∧ Starts cs := ⟨s.toList, rfl, hst⟩

lemma Appends.after (h : Appends e a) {s s' : String}
    (hpr : serializeArg e a ((st.print s).print s') = some st') :
    ∃ cs, st'.text = st.text ++ (s.toList ++ (s'.toList ++ cs)) := by
  obtain ⟨cs, htx, -⟩ := h _ _ hpr
  exact ⟨cs, by rw [htx, text_print, text_print, append_assoc, append_assoc]⟩

lemma appends_group (has : ∀ a ∈ as, Appends e a) {op cl : String} (hst : Starts op.toList)
    (h : (serializeInner e 0 n as (st.print op)).map (fun st => st.print cl) = some st') :
    ∃ cs, st'.text = st.text ++ cs ∧ Starts cs := by
  obtain ⟨st₁, hpr, rfl⟩ := Option.map_eq_some_iff.1 h
  obtain ⟨cs, htx, -⟩ := appends_inner has hpr
  refine ⟨op.toList ++ (cs ++ cl.toList), ?_, starts_append hst _⟩
  rw [text_print, htx, text_print]
  simp

lemma starts_and (c : Char) (s : String) (h : startsArg c) :
    Starts (String.ofList [c] ++ s).toList := by
  rw [toList_append, String.toList_ofList]
  exact ⟨c, s.toList, rfl, h⟩

lemma print_of_serializeResult {n : ResultNode} (h : serializeResult n st = some st') :
    ∃ s, st' = st.print s ∧ Starts s.toList := by
  unfold serializeResult at h
  split at h
  · cases h
    exact ⟨_, rfl, starts_hex _⟩
  · obtain ⟨k, -, rfl⟩ := Option.map_eq_some_iff.1 h
    refine ⟨_, rfl, ?_⟩
    rw [String.append_assoc, String.append_assoc]
    exact starts_and 'r' _ (by decide)

lemma appends (e : Encoder) (a : Arg) : Appends e a := by
  induction a with
  | const t val =>
    intro st st' h
    cases h
    exact appends_of_print (starts_hex _)
  | null t ho =>
    intro st st' h
    cases h
    exact appends_of_print ⟨'0', _, rfl, by decide⟩
  | ptr t address res ih =>
    intro st st' h
    have hst : Starts ("&" ++ serializeAddr address 0).toList := starts_and '&' _ (by decide)
    rw [serializeArg] at h
    split_ifs at h
    all_goals first
      | cases h
        exact appends_of_print hst
      | obtain ⟨cs, htx⟩ := ih.after h
        exact ⟨_, htx, starts_append hst _⟩
  | vma t address vmaSize =>
    intro st st' h
    rw [serializeArg] at h
    split_ifs at h
    · cases h
      exact appends_of_print ⟨'0', _, rfl, by decide⟩
    · cases h
      rw [String.append_assoc]
      exact appends_of_print (starts_and '&' _ (by decide))
  | data t bytes outSize =>
    intro st st' h
    rw [serializeArg] at h
    split_ifs at h
    · cases h
      exact appends_of_print (by rw [toList_append]; exact ⟨'"', _, rfl, by decide⟩)
    all_goals
      cases h
      obtain ⟨c, t, hcs, hc⟩ := starts_serializeData _
      exact appends_of_print ⟨c, t, hcs, by rcases hc with rfl | rfl <;> decide⟩
  | struct t inner ih => exact fun st st' h => appends_group ih ⟨'\x7b', [], rfl, by decide⟩ h
  | array t inner ih => exact fun st st' h => appends_group ih ⟨'[', [], rfl, by decide⟩ h
  | union t option ih =>
    intro st st' h
    have hst : Starts ("@" ++ option.fieldName).toList := starts_and '@' _ (by decide)
    rw [serializeArg] at h
    split_ifs at h
    · obtain ⟨cs, htx⟩ := ih.after h
      exact ⟨_, htx, starts_append hst _⟩
    · cases h
      exact appends_of_print hst
  | result t n =>
    intro st st' h
    rw [serializeArg] at h
    obtain ⟨s, rfl, hst⟩ := print_of_serializeResult h
    split_ifs
    · refine ⟨("<r" ++ toString st.varSeq ++ "=>").toList ++ s.toList, ?_, ?_⟩
      · rw [text_print, Printer.bindVar, text_print, append_assoc]
      · rw [String.append_assoc]
        exact starts_append (by rw [toList_append]; exact ⟨'<', _, rfl, by decide⟩) _
    · exact appends_of_print hst

/-! ### Two arguments with one text -/

def Ends (r : List Char) : Prop := ∃ c t, r = c :: t ∧ endsArg c = true

/-- If both arguments are printed as the same text, the first one has no null region that is not
optional. -/
def Parallel (e e' : Encoder) (a b : Arg) : Prop :=
  ∀ st st₁ st₁' r r', serializeArg e a st = some st₁ → serializeArg e' b st = some st₁' →
    Ends r → Ends r' → st₁.text ++ r = st₁'.text ++ r' → nullsOptional a = true ∧ st₁ = st₁'

lemma getLast?_of_take_cons
    (h : ∀ x, ((a :: as).take (n + 1)).getLast? = some x → x.isPad = false) :
    ∀ x, (as.take n).getLast? = some x → x.isPad = false := by
  intro x hx
  refine h x ?_
  rw [take_succ_cons, getLast?_cons, hx]
  rfl

/-- Of two lists that are printed alike up to here, one does not end before the other. -/
lemma not_ends_inner (hcl : endsArg close) (hcm : close ≠ ',') (hne : as.take n ≠ [])
    (hls : ∀ a, (as.take n).getLast? = some a → a.isPad = false)
    (h : serializeInner e i n as st = some st') :
    st.text ++ close :: r ≠ st'.text ++ r' := by
  obtain ⟨cs, htx, hhd, hcs⟩ := appends_inner (fun a _ => appends e a) h
  have hnn := hcs ⟨_, getLast_mem hne, hls _ (getLast?_eq_some_getLast hne)⟩
  obtain ⟨c, t, rfl⟩ := exists_cons_of_ne_nil hnn
  rw [htx, append_assoc]
  intro heq
  obtain ⟨rfl, -⟩ := cons.inj (append_cancel_left heq)
  rcases hhd close rfl with hc | ⟨-, hc⟩
  · exact hcm hc
  · exact absurd (hc.symm.trans (startsArg_of_endsArg hcl)) (by simp)

lemma ends_inner (hcl : endsArg close) (h : serializeInner e (i + 1) n as st = some st') :
    ∃ cs, st'.text = st.text ++ cs ∧ ∀ r, Ends (cs ++ close :: r) := by
  obtain ⟨cs, htx, hhd, -⟩ := appends_inner (fun a _ => appends e a) h
  refine ⟨cs, htx, fun r => ?_⟩
  cases cs with
  | nil => exact ⟨close, r, rfl, hcl⟩
  | cons c t =>
    obtain rfl := (hhd c rfl).resolve_right fun hi => absurd hi.1 (by omega)
    exact ⟨',', t ++ close :: r, rfl, by decide⟩

lemma parallel_inner (hcl : endsArg close) (hcm : close ≠ ',')
    (hR : Forall₂ (fun a b => a.isPad = b.isPad ∧ Parallel e e' a b) as bs)
    (hn : n ≤ as.length) (hn' : n' ≤ bs.length)
    (hls : n ≠ n' → (∀ a, (as.take n).getLast? = some a → a.isPad = false) ∧
      ∀ b, (bs.take n').getLast? = some b → b.isPad = false)
    (h : serializeInner e i n as st = some st₁) (h' : serializeInner e' i n' bs st = some st₁')
    (heq : st₁.text ++ close :: r = st₁'.text ++ close :: r') :
    (∀ a ∈ as.take n, nullsOptional a = true) ∧ st₁ = st₁' := by
  induction hR generalizing i n n' st with
  | nil =>
    rw [serializeInner] at h h'
    cases h
    cases h'
    exact ⟨by simp, rfl⟩
  | @cons a b as bs hab hR ih =>
    cases n with
    | zero =>
      rw [serializeInner] at h
      cases h
      cases n' with
      | zero =>
        rw [serializeInner] at h'
        cases h'
        exact ⟨by simp, rfl⟩
      | succ n' => exact absurd heq (not_ends_inner hcl hcm (by simp) (hls (by omega)).2 h')
    | succ n =>
      cases n' with
      | zero =>
        rw [serializeInner] at h'
        cases h'
        exact absurd heq.symm (not_ends_inner hcl hcm (by simp) (hls (by omega)).1 h)
      | succ n' =>
        have hls' : n ≠ n' → (∀ a, (as.take n).getLast? = some a → a.isPad = false) ∧
            ∀ b, (bs.take n').getLast? = some b → b.isPad = false := fun hne =>
          (hls (by omega)).imp getLast?_of_take_cons getLast?_of_take_cons
        have hn := Nat.le_of_succ_le_succ hn
        have hn' := Nat.le_of_succ_le_succ hn'
        rw [serializeInner] at h h'
        rw [take_succ_cons, forall_mem_cons]
        by_cases hpad : a.isPad
        · rw [if_pos hpad] at h
          rw [if_pos (hab.1 ▸ hpad)] at h'
          have hnl : nullsOptional a := by
            cases a with
            | const t val => rfl
            | _ => cases hpad
          exact (ih hn hn' hls' h h').imp_left fun hall => ⟨hnl, hall⟩
        · rw [if_neg hpad] at h
          rw [if_neg (hab.1 ▸ hpad)] at h'
          obtain ⟨sa, ha, h⟩ := Option.bind_eq_some_iff.1 h
          obtain ⟨sb, hb, h'⟩ := Option.bind_eq_some_iff.1 h'
          obtain ⟨cs, htx, hen⟩ := ends_inner hcl h
          obtain ⟨cs', htx', hen'⟩ := ends_inner hcl h'
          have heq' := heq
          rw [htx, htx', append_assoc, append_assoc] at heq'
          obtain ⟨hnl, rfl⟩ := hab.2 _ _ _ _ _ ha hb (hen r) (hen' r') heq'
          exact (ih hn hn' hls' h h').imp_left fun hall => ⟨hnl, hall⟩

lemma printedLen_le (fixed : Bool) (inner : List Arg) :
    printedLen e fixed inner ≤ inner.length := by
  obtain ⟨as, rest, rfl, hlen, -⟩ := exists_printed (e := e) fixed inner
  rw [← hlen, length_append]
  exact Nat.le_add_right _ _

lemma isPad_of_printed (h : (as.take (printedLen e true as)).getLast? = some a) :
    a.isPad = false := by
  obtain ⟨as, rest, rfl, hlen, -, -, hls⟩ := exists_printed (e := e) true as
  rw [← hlen, take_left] at h
  by_contra hpad
  have hdf := isDefaultArg_of_isPad (e := e) (eq_true_of_not_eq_false hpad)
  exact absurd (hdf.symm.trans (hls a rfl h)) (by simp)

lemma nullsOptional_of_printed (hpg : e.pageSize ≠ 0) {fixed : Bool}
    (h : ∀ a ∈ as.take (printedLen e fixed as), nullsOptional a = true) :
    allNullsOptional as := by
  obtain ⟨as, rest, rfl, hlen, hrs, -⟩ := exists_printed (e := e) fixed as
  rw [← hlen, take_left] at h
  rw [allNullsOptional_eq, all_append, and_eq_true, all_eq_true, all_eq_true]
  exact ⟨h, fun a ha => nullsOptional_of_isDefaultArg hpg (hrs a ha)⟩

lemma parallel_group (hpg : e.pageSize ≠ 0) {fixed : Bool} {op cl : String} (hcl : endsArg close)
    (hcm : close ≠ ',') (hct : cl.toList = [close])
    (hR : Forall₂ (fun a b => a.isPad = b.isPad ∧ Parallel e e' a b) as bs)
    (h : (serializeInner e 0 (printedLen e fixed as) as (st.print op)).map
      (fun st => st.print cl) = some st₁)
    (h' : (serializeInner e' 0 (printedLen e' fixed bs) bs (st.print op)).map
      (fun st => st.print cl) = some st₁')
    (heq : st₁.text ++ r = st₁'.text ++ r') : allNullsOptional as = true ∧ st₁ = st₁' := by
  obtain ⟨sa, hsa, rfl⟩ := Option.map_eq_some_iff.1 h
  obtain ⟨sb, hsb, rfl⟩ := Option.map_eq_some_iff.1 h'
  rw [text_print, text_print, hct, append_assoc, append_assoc] at heq
  have hls : printedLen e fixed as ≠ printedLen e' fixed bs →
      (∀ a, (as.take (printedLen e fixed as)).getLast? = some a → a.isPad = false) ∧
        ∀ b, (bs.take (printedLen e' fixed bs)).getLast? = some b → b.isPad = false := by
    cases fixed with
    | false => exact fun hne => absurd hR.length_eq hne
    | true => exact fun _ => ⟨fun a => isPad_of_printed, fun b => isPad_of_printed⟩
  obtain ⟨hnl, rfl⟩ :=
    parallel_inner hcl hcm hR (printedLen_le _ _) (printedLen_le _ _) hls hsa hsb heq
  exact ⟨nullsOptional_of_printed hpg hnl, rfl⟩

lemma not_ends_print {s : String} {t : List Char} (hs : s.toList = '=' :: t) (hr : Ends r)
    (h : serializeArg e a (st.print s) = some st') : st.text ++ r ≠ st'.text ++ r' := by
  obtain ⟨cs, htx, -⟩ := appends e a _ _ h
  obtain ⟨c, u, rfl, hc⟩ := hr
  rw [htx, text_print, hs, append_assoc, append_assoc]
  intro heq
  rw [(cons.inj (append_cancel_left heq)).1] at hc
  exact absurd hc (by decide)

/-- A default argument is left out behind what is printed in both cases. -/
lemma parallel_optional (hpg : e.pageSize ≠ 0) (hab : Parallel e e' a b) {s : String}
    {t : List Char} (hs : s.toList = '=' :: t) {p q : Bool}
    (hp : p = false → isDefaultArg e a = true)
    (h : (if p then serializeArg e a (st.print s) else some st) = some st₁)
    (h' : (if q then serializeArg e' b (st.print s) else some st) = some st₁')
    (hr : Ends r) (hr' : Ends r') (heq : st₁.text ++ r = st₁'.text ++ r') :
    nullsOptional a = true ∧ st₁ = st₁' := by
  cases p with
  | true =>
    cases q with
    | true => exact hab _ _ _ _ _ h h' hr hr' heq
    | false =>
      cases h'
      exact absurd heq.symm (not_ends_print hs hr' h)
  | false =>
    cases h
    cases q with
    | true => exact absurd heq (not_ends_print hs hr h')
    | false =>
      cases h'
      exact ⟨nullsOptional_of_isDefaultArg hpg (hp rfl), rfl⟩

lemma ident_append_inj {us vs x y : List Char} {c d : Char} (hus : ∀ u ∈ us, isIdent u = true)
    (hvs : ∀ v ∈ vs, isIdent v = true) (hc : isIdent c = false) (hd : isIdent d = false)
    (h : us ++ c :: x = vs ++ d :: y) : us = vs ∧ c = d := by
  have htk := congrArg (takeWhile isIdent) h
  rw [takeWhile_append_of_pos hus, takeWhile_append_of_pos hvs,
    takeWhile_cons_of_neg (by simp [hc]), takeWhile_cons_of_neg (by simp [hd]), append_nil,
    append_nil] at htk
  subst htk
  exact ⟨rfl, (cons.inj (append_cancel_left h)).1⟩

lemma isIdent_of_endsArg {c : Char} (h : endsArg c) : isIdent c = false := by
  rcases endsArg_cases h with rfl | rfl | rfl | rfl <;> decide

lemma parallel_const (t t' : ConstType) (val val' : UInt64) :
    Parallel e e' (.const t val) (.const t' val') := by
  intro st st₁ st₁' r r' h h' hr hr' heq
  cases h
  cases h'
  have hid : ∀ v : UInt64, ∀ c ∈ (hex v.toNat).toList, isIdent c = true := by
    intro v
    rw [toList_hex]
    exact forall_mem_cons.2 ⟨by decide, forall_mem_cons.2 ⟨by decide,
      isIdent_toDigits (by omega) (by omega) _⟩⟩
  obtain ⟨c, t, rfl, hc⟩ := hr
  obtain ⟨c', t', rfl, hc'⟩ := hr'
  rw [text_print, text_print, append_assoc, append_assoc] at heq
  obtain ⟨htx, -⟩ := ident_append_inj (hid val) (hid val') (isIdent_of_endsArg hc)
    (isIdent_of_endsArg hc') (append_cancel_left heq)
  refine ⟨rfl, ?_⟩
  rw [print, print, htx]

lemma parallel_self (hnl : nullsOptional a)
    (h : ∀ st, serializeArg e' a st = serializeArg e a st) : Parallel e e' a a := by
  intro st st₁ st₁' r r' ha ha' _ _ _
  rw [h, ha] at ha'
  exact ⟨hnl, Option.some.inj ha'⟩

lemma forall₂_of_erased (h : bs.map eraseConsts = (as.map (readBack T)).map eraseConsts) :
    Forall₂ (fun a b => eraseConsts b = eraseConsts (readBack T a)) as bs := by
  rw [map_map] at h
  have hfa : Forall₂ Eq (as.map (eraseConsts ∘ readBack T)) (bs.map eraseConsts) := by
    rw [forall₂_eq_eq_eq, h]
  rw [forall₂_map_left_iff, forall₂_map_right_iff] at hfa
  exact hfa.imp fun _ _ h => h.symm

lemma isPad_of_erased (h : eraseConsts b = eraseConsts (readBack T a)) : a.isPad = b.isPad := by
  have herase : ∀ x, (eraseConsts x).isPad = x.isPad := by
    intro x
    cases x <;> rfl
  have hback : (readBack T a).isPad = a.isPad := by
    cases a with
    | vma t address vmaSize =>
      obtain ⟨address', vmaSize', h⟩ := readBack_vma T t address vmaSize
      rw [h]
      rfl
    | _ => rfl
  rw [← herase b, h, herase, hback]

/-- **Arguments with one text.** An argument and what was read from its text and sanitised have
the same text only if the argument has no null region that is not optional. -/
theorem parallel (hpg : e.pageSize ≠ 0) (hps : T.pageSize ≠ 0)
    (hab : eraseConsts b = eraseConsts (readBack T a))
    (hus : ∀ n ∈ argNodes a, e'.isUsed n.1 = e.isUsed n.1) : Parallel e e' a b := by
  induction a generalizing b with
  | const t val =>
    cases b <;> simp only [readBack, eraseConsts, reduceCtorEq] at hab
    exact parallel_const _ _ _ _
  | null t h =>
    cases b <;> simp only [readBack, eraseConsts, reduceCtorEq] at hab
    obtain ⟨rfl, -⟩ := Arg.null.inj hab
    exact parallel_self rfl fun st => rfl
  | ptr t address res ih =>
    cases b <;> simp only [readBack, eraseConsts, reduceCtorEq, Arg.ptr.injEq] at hab
    case ptr t' address' res' =>
      obtain ⟨rfl, rfl, hres⟩ := hab
      intro st st₁ st₁' r r' h h' hr hr' heq
      rw [serializeArg] at h h'
      have hs : (if t'.isAny then "=ANY=" else "=").toList =
          '=' :: if t'.isAny then ['A', 'N', 'Y', '='] else [] := by
        split_ifs <;> rfl
      refine parallel_optional (a := res) hpg (ih hres hus) hs (fun hpr => ?_) h h' hr hr' heq
      simpa using (or_eq_false_iff.1 hpr).1
  | vma t address vmaSize =>
    by_cases hnl : nullsOptional (.vma t address vmaSize)
    · rw [readBack_eq hnl] at hab
      cases b <;> simp only [eraseConsts, reduceCtorEq] at hab
      rw [hab]
      exact parallel_self hnl fun st => rfl
    · -- The null region is printed as a number, and the one that is read as an address.
      rw [nullsOptional] at hnl
      have hzr : vmaIsNull address vmaSize := by
        by_contra hz
        exact hnl (by simp [hz])
      rw [readBack, if_neg hnl] at hab
      cases b <;> simp only [eraseConsts, reduceCtorEq] at hab
      rw [hab]
      intro st st₁ st₁' r r' h h' hr hr' heq
      rw [serializeArg, if_pos hzr] at h
      rw [serializeArg, if_neg (by simp [vmaIsNull, hps])] at h'
      cases h
      cases h'
      rw [text_print, text_print, append_assoc, append_assoc, toList_append, toList_append] at heq
      exact absurd (cons.inj (append_cancel_left heq)).1 (by decide)
  | data t bytes outSize =>
    cases b <;> simp only [readBack, eraseConsts, reduceCtorEq] at hab
    rw [hab]
    exact parallel_self rfl fun st => rfl
  | struct t inner ih | array t inner ih =>
    cases b <;>
      simp only [readBack, eraseConsts, reduceCtorEq, Arg.struct.injEq, Arg.array.injEq] at hab
    obtain ⟨rfl, hir⟩ := hab
    rw [eraseAllConsts_eq, eraseAllConsts_eq, readAllBack_eq] at hir
    simp only [argNodes_struct, argNodes_array] at hus
    intro st st₁ st₁' r r' h h' hr hr' heq
    refine parallel_group hpg (by decide) (by decide) rfl ?_ h h' heq
    exact forall₂_imp_of_mem (forall₂_of_erased hir) fun a ha b _ hab =>
      ⟨isPad_of_erased hab, ih a ha hab fun n hn => hus n (mem_flatMap_of_mem ha hn)⟩
  | union t option ih =>
    cases b <;> simp only [readBack, eraseConsts, reduceCtorEq, Arg.union.injEq] at hab
    case union t' option' =>
      obtain ⟨rfl, hop⟩ := hab
      have hfn : option'.fieldName = option.fieldName := by
        rw [Arg.fieldName, ← type_eraseConsts, hop, type_eraseConsts, type_readBack]
        rfl
      intro st st₁ st₁' r r' h h' hr hr' heq
      rw [serializeArg] at h h'
      rw [hfn] at h'
      refine parallel_optional (a := option) hpg (ih hop hus) (t := []) rfl (fun hpr => ?_) h h'
        hr hr' heq
      simpa using hpr
  | result t n =>
    cases b <;> simp only [readBack, eraseConsts, reduceCtorEq] at hab
    rw [hab]
    refine parallel_self rfl fun st => ?_
    rw [serializeArg, serializeArg, hus (n.id, n.res) (by simp [argNodes, Arg.results])]

/-! ### Calls -/

/-- The second call is what was read from the text of the first one, with other constants. -/
structure CallTwin (T : Target) (c c' : Call) : Prop where
  syscall : c'.syscall = c.syscall
  ret : c'.ret = c.ret
  args : c'.args.map eraseConsts = (c.args.map (readBack T)).map eraseConsts

variable {c c' : Call}

lemma serializeCall_eq (e : Encoder) (c : Call) (st : Printer) :
    serializeCall e c st = (serializeInner e 0 c.args.length c.args (callPrinter e c st)).map
      fun st => st.print ")\n" := rfl

lemma appends_call (h : serializeCall e c st = some st') :
    ∃ cs, st'.text =
      st.text ++ (headText (e.isUsed c.ret) st.varSeq c.syscall.name ++ '(' :: cs) := by
  rw [serializeCall_eq] at h
  obtain ⟨st₁, hin, rfl⟩ := Option.map_eq_some_iff.1 h
  obtain ⟨cs, htx, -⟩ := appends_inner (fun a _ => appends e a) hin
  refine ⟨cs ++ ")\n".toList, ?_⟩
  rw [text_print, htx, text_callPrinter]
  simp

lemma headText_inj {name : String} (hnm : isIdentifier name.toList) {used used' : Bool} {k : ℕ}
    {x y : List Char} (h : headText used k name ++ '(' :: x = headText used' k name ++ '(' :: y) :
    used = used' := by
  simp only [isIdentifier, and_eq_true, all_eq_true] at hnm
  -- The name of the call ends at the bracket, the one of the result at a blank.
  have hne : ∀ z : List Char, varName k ++ ' ' :: z ≠ name.toList ++ '(' :: x ∧
      varName k ++ ' ' :: z ≠ name.toList ++ '(' :: y := by
    refine fun z => ⟨fun heq => ?_, fun heq => ?_⟩
    all_goals
      have hch := (ident_append_inj (isIdent_varName k) hnm.2 (by decide) (by decide) heq).2
      exact absurd hch (by decide)
  cases used <;> cases used'
  · rfl
  · refine absurd h.symm ?_
    simpa [headText] using (hne _).1
  · refine absurd h ?_
    simpa [headText] using (hne _).2
  · rfl

lemma parallel_call (hpg : e.pageSize ≠ 0) (hps : T.pageSize ≠ 0) (htw : CallTwin T c c')
    (hnm : isIdentifier c.syscall.name.toList)
    (hus : ∀ n ∈ c.args.flatMap argNodes, e'.isUsed n.1 = e.isUsed n.1)
    (h : serializeCall e c st = some st₁) (h' : serializeCall e' c' st = some st₁')
    (heq : st₁.text ++ r = st₁'.text ++ r') :
    (e.isUsed c.ret = e'.isUsed c.ret ∧ ∀ a ∈ c.args, nullsOptional a = true) ∧ st₁ = st₁' := by
  obtain ⟨cs, htx⟩ := appends_call h
  obtain ⟨cs', htx'⟩ := appends_call h'
  have hret : e.isUsed c.ret = e'.isUsed c.ret := by
    have hhd := heq
    rw [htx, htx', htw.syscall, htw.ret] at hhd
    simp only [append_assoc, cons_append] at hhd
    exact headText_inj hnm (append_cancel_left hhd)
  have hpr : callPrinter e' c' st = callPrinter e c st := by
    rw [callPrinter, callPrinter, htw.syscall, htw.ret, hret]
  rw [serializeCall_eq] at h h'
  rw [hpr] at h'
  obtain ⟨sa, hsa, rfl⟩ := Option.map_eq_some_iff.1 h
  obtain ⟨sb, hsb, rfl⟩ := Option.map_eq_some_iff.1 h'
  have hR := forall₂_imp_of_mem (forall₂_of_erased htw.args) fun a ha b _ hab =>
    show a.isPad = b.isPad ∧ Parallel e e' a b from ⟨isPad_of_erased hab,
      parallel hpg hps hab fun n hn => hus n (mem_flatMap_of_mem ha hn)⟩
  rw [text_print, text_print, append_assoc, append_assoc] at heq
  obtain ⟨hnl, rfl⟩ := parallel_inner (show endsArg ')' by decide) (by decide) hR le_rfl le_rfl
    (fun hne => absurd hR.length_eq hne) hsa hsb heq
  rw [take_length] at hnl
  exact ⟨⟨hret, hnl⟩, rfl⟩

variable {cs cs' : List Call}

lemma appends_calls (h : serializeCalls e cs st = some st') : ∃ x, st'.text = st.text ++ x := by
  induction cs generalizing st with
  | nil =>
    cases h
    exact ⟨[], by simp⟩
  | cons c cs ih =>
    obtain ⟨st₁, hc, h⟩ := Option.bind_eq_some_iff.1 h
    obtain ⟨x, htx⟩ := appends_call hc
    obtain ⟨y, hty⟩ := ih h
    exact ⟨_, by rw [hty, htx, append_assoc]⟩

/-- **Programs with one text.** If the calls and those that were read from their text are printed
alike, the same results are used, and no null region was read as the default one. -/
theorem parallel_calls (hpg : e.pageSize ≠ 0) (hps : T.pageSize ≠ 0)
    (hR : Forall₂ (CallTwin T) cs cs') (hnm : ∀ c ∈ cs, isIdentifier c.syscall.name.toList = true)
    (hus : ∀ c ∈ cs, ∀ n ∈ c.args.flatMap argNodes, e'.isUsed n.1 = e.isUsed n.1)
    (h : serializeCalls e cs st = some st₁) (h' : serializeCalls e' cs' st = some st₁')
    (heq : st₁.text = st₁'.text) :
    ∀ c ∈ cs, e.isUsed c.ret = e'.isUsed c.ret ∧ ∀ a ∈ c.args, nullsOptional a = true := by
  induction hR generalizing st with
  | nil => simp
  | @cons c c' cs cs' hcc _ ih =>
    obtain ⟨hnm, hnms⟩ := forall_mem_cons.1 hnm
    obtain ⟨hus, huss⟩ := forall_mem_cons.1 hus
    obtain ⟨sa, hca, h⟩ := Option.bind_eq_some_iff.1 h
    obtain ⟨sb, hcb, h'⟩ := Option.bind_eq_some_iff.1 h'
    obtain ⟨x, hx⟩ := appends_calls h
    obtain ⟨y, hy⟩ := appends_calls h'
    obtain ⟨hc, rfl⟩ := parallel_call hpg hps hcc hnm hus hca hcb (by rw [← hx, ← hy, heq])
    exact forall_mem_cons.2 ⟨hc, ih hnms huss h h'⟩

end Razzer.Decoding
