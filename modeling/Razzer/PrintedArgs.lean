import Razzer.ReadBack

/-!
Every argument is read back from its text.

One lemma says what printing and parsing do with a list of inner arguments; the theorem about
arguments is then by induction on the argument, one case for each kind of type.
-/

namespace Razzer.Decoding

open Args Progs Encoding TextParser Minimize List Nat Bool
open String (toList_append)
open Option (map_some)
open Printer (print)
open Inline (append)

def startsArg (c : Char) : Bool :=
  ['0', 'r', '&', '"', '\'', '\x7b', '[', '@', '<'].contains c

def Starts (cs : List Char) : Prop := ∃ c t, cs = c :: t ∧ startsArg c = true

variable {c : Char} {cs : List Char} {s s' : St} {x : Parsed} {T : Target} {fuel : ℕ} {a : Arg}
  {p : Char → Bool} {α : Type} {y : α}

lemma startsArg_ne {d : Char} (h : startsArg c) (hd : startsArg d = false) : c ≠ d := by
  rintro rfl
  exact absurd (h.symm.trans hd) (by simp)

lemma not_isWs_of_startsArg (h : startsArg c) : (!isWs c) := by
  simp only [isWs, Bool.not_or, Bool.and_eq_true, Bool.not_eq_true', beq_eq_false_iff_ne]
  exact ⟨startsArg_ne h (by decide), startsArg_ne h (by decide)⟩

lemma startsArg_of_endsArg (h : endsArg c) : startsArg c = false := by
  rcases endsArg_cases h with rfl | rfl | rfl | rfl <;> decide

variable {d : Char} {k : Option (List Char) → Parser St Parsed} {i j : ℕ} {op : String}
  {r : Option (List Char)}

lemma endsArg_ne (h : endsArg c) (hd : endsArg d = false) : c ≠ d := by
  rintro rfl
  exact absurd (h.symm.trans hd) (by simp)

lemma Starts.ne_nil (h : Starts cs) : cs ≠ [] := by
  obtain ⟨c, t, rfl, -⟩ := h
  exact cons_ne_nil c t

/-- Printing the argument and parsing its text go together: whatever has been printed before, the
parser takes exactly what is printed now. -/
def Reparses (T : Target) (ρ : Ref → Ref) (e : Encoder) (p : P Parsed) (a : Arg) : Prop :=
  ∀ k₀ seen st s, Ready ρ e k₀ seen (argNodes a) st s →
    ∃ cs st' s', serializeArg e a st = some st' ∧ st'.text = st.text ++ cs ∧ Starts cs ∧
      Inline cs ∧ After ρ e k₀ seen (argNodes a) st st' s s' ∧
      Takes p s cs (.ofArg (reparse T ρ a)) s' endsArg

/-! ### Parsing what has no name -/

lemma takes_parseName (hc : c ≠ '<') (hk : Takes (k none) s (c :: cs) x s' endsArg) :
    Takes (parseName >>= k) s (c :: cs) x s' endsArg := by
  intro d t hd
  have hnm : parseName s ⟨c :: cs ++ d :: t, none⟩ = .ok (none, s, ⟨c :: cs ++ d :: t, none⟩) := by
    simp [parseName, Bind.bind, char, scan, hc, pure]
  simp only [Bind.bind, hnm]
  exact hk d t hd

lemma takes_parseArg {typ : Option TypeId} (hnm : cs.head? ≠ some '<') (hne : cs ≠ [])
    (h : Takes (parseValue T fuel (parseArg T fuel) typ none) s cs x s' endsArg) :
    Takes (parseArg T (fuel + 1) typ) s cs x s' endsArg := by
  obtain ⟨c, cs, rfl⟩ := exists_cons_of_ne_nil hne
  have hc : c ≠ '<' := fun hc => hnm (by rw [hc]; rfl)
  exact takes_parseName hc (h.bind_pure rfl)

variable {e : Encoder} {ρ : Ref → Ref}

lemma reparses_leaf {id : TypeId} (text : String) (hnd : argNodes a = [])
    (hpr : ∀ st, serializeArg e a st = some (st.print text))
    (hst : Starts text.toList) (hnm : text.toList.head? ≠ some '<')
    (hinl : Inline text.toList)
    (htk : ∀ s, Takes (parseValue T fuel (parseArg T fuel) (some id) none) s text.toList
      (.ofArg (reparse T ρ a)) s endsArg) :
    Reparses T ρ e (parseArg T (fuel + 1) (some id)) a := by
  intro k₀ seen st s hrd
  rw [hnd] at hrd
  refine ⟨text.toList, st.print text, s, hpr st, rfl, hst, hinl, ?_, ?_⟩
  · rw [hnd]
    exact hrd.nil.print text
  · exact takes_parseArg hnm hst.ne_nil (htk s)

lemma starts_hex (n : ℕ) : Starts (hex n).toList :=
  ⟨'0', _, toList_hex n, by decide⟩

lemma takes_value_hex {parseArg : Option TypeId → P Parsed} {typ : Option TypeId}
    {v : UInt64}
    (h : Takes (parseConst T typ) s (hex v.toNat).toList x s' endsArg) :
    Takes (parseValue T fuel parseArg typ r) s (hex v.toNat).toList x s' endsArg := by
  rw [toList_hex] at h ⊢
  refine takes_char_bind ?_
  rwa [if_pos rfl]

/-! ### Lists of arguments -/

/-- The place of a list takes the argument; padding is not in the text. -/
def SlotReparses (T : Target) (ρ : Ref → Ref) (e : Encoder) (slot : Option Slot) (a : Arg) : Prop :=
  if a.isPad then slot = some (.pad (pure (.ofArg a)))
  else ∃ p, slot = some (.text p) ∧ Reparses T ρ e p a

lemma argNodes_of_isPad (h : a.isPad) : argNodes a = [] := by
  cases a with
  | const t val => rfl
  | _ => cases h

def separator (more : Bool) : List Char := if more then [',', ' '] else []

lemma takes_parseComma_end {close : Char} (s : St) :
    Takes (parseComma close) s [] () s fun c => c == close := by
  refine takes_char_bind_nil fun c hc => ?_
  rw [if_pos (beq_iff_eq.1 hc)]
  exact takes_pure () s _

lemma takes_parseComma {close : Char} (hcl : close ≠ ',') (s : St) :
    Takes (parseComma close) s [',', ' '] () s fun c => !isWs c := by
  refine takes_char_bind ?_
  rw [if_neg (Ne.symm hcl)]
  exact takes_parse_blank ',' s

variable {ρ : Ref → Ref} {e : Encoder} {id : TypeId}

variable {as : List Arg} {k₀ : Option ℕ} {seen : List Ref} {st : Printer}

section Lists

variable {close : Char} {slot : ℕ → Option Slot}

/-- What is known after the inner arguments from number `i` on have been printed and parsed. -/
structure Listed (T : Target) (ρ : Ref → Ref) (e : Encoder) (k₀ : Option ℕ) (close : Char)
    (slot : ℕ → Option Slot) (i fuel : ℕ) (seen : List Ref) (as : List Arg) (st st' : Printer)
    (s s' : St) (cs : List Char) : Prop where
  text : st'.text = st.text ++ separator (decide (i ≠ 0) && !as.isEmpty) ++ cs
  empty : as = [] → cs = []
  starts : as ≠ [] → Starts cs
  inline : Inline cs
  after : After ρ e k₀ seen (as.flatMap argNodes) st st' s s'
  takes : Takes (parseSeq close slot fuel i) s cs (as.map fun a => .ofArg (reparse T ρ a)) s'
    fun c => c == close

/-- **The inner arguments of a list are read back**, up to the last one that is printed. -/
theorem exists_listed (hcl : endsArg close) (hcm : close ≠ ',') (hfl : as.length < fuel)
    (hsl : ∀ j a, as[j]? = some a → SlotReparses T ρ e (slot (i + j)) a)
    (hfr : i = 0 → ∀ a, as.head? = some a → a.isPad = false)
    (hls : ∀ a, as.getLast? = some a → a.isPad = false) (rest : List Arg)
    (hrd : Ready ρ e k₀ seen (as.flatMap argNodes) st s) :
    ∃ cs st' s', serializeInner e i as.length (as ++ rest) st = some st' ∧
      Listed T ρ e k₀ close slot i fuel seen as st st' s s' cs := by
  induction as generalizing i fuel seen st s with
  | nil =>
    obtain ⟨fuel, rfl⟩ := exists_eq_add_one.2 hfl
    refine ⟨[], st, s, ?_, ?_⟩
    · cases rest <;> simp [serializeInner]
    · refine ⟨by simp [separator], fun _ => rfl, fun h => absurd rfl h, by simp [Inline], hrd.nil,
        ?_⟩
      refine takes_char_bind_nil fun c hc => ?_
      rw [if_pos (beq_iff_eq.1 hc)]
      exact takes_pure _ s _
  | cons a as ih =>
    obtain ⟨fuel, rfl⟩ := exists_eq_add_one.2 (zero_lt_of_lt hfl)
    have hsl' : ∀ j b, as[j]? = some b → SlotReparses T ρ e (slot (i + 1 + j)) b := by
      intro j b hb
      rw [add_assoc, add_comm 1]
      exact hsl (j + 1) b hb
    have hls' : ∀ b, as.getLast? = some b → b.isPad = false := by
      intro b hb
      refine hls b ?_
      rw [getLast?_cons, hb]
      rfl
    have hlen : as.length < fuel := lt_of_succ_lt_succ hfl
    have hfr' : i + 1 = 0 → ∀ b, as.head? = some b → b.isPad = false := by omega
    have hth := hsl 0 a rfl
    rw [add_zero, SlotReparses] at hth
    rw [flatMap_cons] at hrd
    by_cases hpad : a.isPad
    · -- Padding is neither printed nor looked for, and something follows it.
      rw [if_pos hpad] at hth
      have has : as ≠ [] := by
        rintro rfl
        exact absurd (hpad.symm.trans (hls a rfl)) (by simp)
      have hi : i ≠ 0 := fun hi => absurd (hpad.symm.trans (hfr hi a rfl)) (by simp)
      rw [argNodes_of_isPad hpad, nil_append] at hrd
      obtain ⟨cs, st', s', hpr, h⟩ := ih hlen hsl' hfr' hls' hrd
      obtain ⟨c, t, rfl, hc⟩ := h.starts has
      refine ⟨c :: t, st', s', ?_, ?_⟩
      · rw [cons_append, length_cons, serializeInner, if_pos hpad]
        exact hpr
      · refine ⟨?_, by simp, fun _ => ⟨c, t, rfl, hc⟩, h.inline, ?_, ?_⟩
        · have hmr : as.isEmpty = false := by simpa using has
          rw [h.text]
          simp [hi, hmr]
        · rw [flatMap_cons, argNodes_of_isPad hpad]
          exact h.after
        · refine takes_char_bind ?_
          rw [if_neg (startsArg_ne hc (startsArg_of_endsArg hcl)), hth, map_cons,
            reparse_of_isPad hpad]
          exact h.takes.bind_pure rfl
    · rw [if_neg hpad] at hth
      obtain ⟨p, hp, hrp⟩ := hth
      -- The comma is printed before the argument, and taken after the one in front of it.
      have hbf : ∃ st₀, st₀ = (if i ≠ 0 then st.print ", " else st) ∧
          st₀.text = st.text ++ separator (decide (i ≠ 0)) ∧
          Ready ρ e k₀ seen (argNodes a) st₀ s ∧ ∀ st₁ s₁,
            After ρ e k₀ seen (argNodes a) st₀ st₁ s s₁ →
              After ρ e k₀ seen (argNodes a) st st₁ s s₁ := by
        refine ⟨_, rfl, ?_⟩
        split_ifs with hi
        · exact ⟨by simp [hi, separator, print], hrd.left.print _, fun _ _ h => h.of_print⟩
        · exact ⟨by simp [hi, separator], hrd.left, fun _ _ h => h⟩
      obtain ⟨st₀, hst₀, htx₀, hrd₀, hbc⟩ := hbf
      obtain ⟨ca, st₁, s₁, hser, htx, ⟨c, t, rfl, hc⟩, hinl, haf, htk⟩ :=
        hrp k₀ seen st₀ s hrd₀
      have haf := hbc st₁ s₁ haf
      obtain ⟨cs, st', s', hpr, h⟩ := ih hlen hsl' hfr' hls' (hrd.right haf)
      refine ⟨c :: t ++ (separator (!as.isEmpty) ++ cs), st', s', ?_, ?_⟩
      · rw [cons_append, length_cons, serializeInner, if_neg hpad, ← hst₀, hser]
        exact hpr
      · refine ⟨?_, by simp, fun _ => ⟨c, _, rfl, hc⟩, ?_, ?_, ?_⟩
        · rw [h.text, htx, htx₀]
          simp
        · refine hinl.append (append ?_ h.inline)
          unfold separator
          split_ifs <;> simp [Inline]
        · rw [flatMap_cons]
          exact haf.append h.after
        · refine takes_char_bind ?_
          rw [if_neg (startsArg_ne hc (startsArg_of_endsArg hcl)), hp]
          have hrs : Takes (do
              let xs ← parseSeq close slot fuel (i + 1)
              return .ofArg (reparse T ρ a) :: xs) s₁ cs
              ((a :: as).map fun a => .ofArg (reparse T ρ a)) s' fun c => c == close :=
            h.takes.bind_pure rfl
          by_cases has : as = []
          · have hmr : (!as.isEmpty) = false := by simp [has]
            rw [hmr]
            refine htk.bind ((takes_parseComma_end s₁).bind hrs ?_) ?_
            · intro d hd
              rw [h.empty has]
              exact hd
            · intro d hd
              rw [h.empty has]
              exact beq_iff_eq.1 hd ▸ hcl
          · have hmr : (!as.isEmpty) := by simp [has]
            obtain ⟨c', t', rfl, hc'⟩ := h.starts has
            rw [hmr]
            exact htk.bind ((takes_parseComma hcm s₁).bind hrs fun _ _ =>
              not_isWs_of_startsArg hc') fun _ _ => rfl

end Lists

/-! ### Results -/

lemma takes_parse_decimal {k : Unit → Parser St α} (n : ℕ)
    (hk : Takes (k ()) s (toString n).toList y s' p) :
    Takes (parse d >>= k) s (d :: (toString n).toList) y s' p := by
  have hidn := isIdent_toDigits (b := 10) (by omega) (by omega) n
  rw [toList_toString] at hk ⊢
  obtain ⟨c, t, hc⟩ := exists_cons_of_ne_nil (toDigits_ne_nil (n := n) (b := 10))
  rw [hc] at hk hidn ⊢
  exact takes_parse_bind (not_isWs_of_isIdent (hidn c mem_cons_self)) hk

def opText (op : String) (v : UInt64) : String := if v ≠ 0 then op ++ toString v.toNat else ""

lemma toList_opText (op : String) (v : UInt64) :
    (opText op v).toList = if v ≠ 0 then op.toList ++ toDigits 10 v.toNat else [] := by
  unfold opText
  split_ifs
  · rw [toList_append, toList_toString]
  · rfl

lemma inline_opText (hop : Inline op.toList) (v : UInt64) : Inline (opText op v).toList := by
  unfold opText
  split_ifs
  · rw [toList_append]
    exact hop.append (inline_decimal _)
  · simp [Inline]

lemma takes_parseOp (op : Char) (v : UInt64) (msg : String) (s : St) :
    Takes (parseOp op msg) s (opText (String.ofList [op]) v).toList v s
      fun c => endsIdent c && c != op := by
  unfold opText
  split_ifs with hv
  · rw [toList_append, String.toList_ofList]
    refine takes_char_bind ?_
    rw [if_pos rfl]
    have htk := takes_decimal v.toNat_lt msg s
    rw [UInt64.ofNat_toNat] at htk
    refine takes_parse_decimal v.toNat ?_
    exact htk.mono fun c hc => (and_eq_true_iff.1 hc).1
  · obtain rfl : v = 0 := not_not.1 hv
    refine takes_char_bind_nil fun c hc => ?_
    have hne : c ≠ op := by simpa using (and_eq_true_iff.1 hc).2
    rw [if_neg hne]
    exact takes_pure 0 s _

lemma takes_fresh_bind {k : Ref → P α}
    (hk : Takes (k s.next) { s with next := s.next + 1 } cs y s' p) :
    Takes (fresh >>= k) s cs y s' p := hk

lemma takes_addUse_bind {k : Unit → P α} {x z : Ref}
    (hk : Takes (k ()) { s with uses := s.uses ++ [(x, z)] } cs y s' p) :
    Takes (addUse x z >>= k) s cs y s' p := hk

lemma takes_bindName_bind {k : Unit → P α} {name : List Char} {x : Option Ref}
    (hk : Takes (k ()) { s with vars := (name, x) :: s.vars } cs y s' p) :
    Takes (bindName (some name) x >>= k) s cs y s' p := hk

lemma lookup_cons_of_ne {β : Type} [BEq α] [LawfulBEq α] {a k : α} {v : β} {l : List (α × β)}
    (h : a ≠ k) : ((k, v) :: l).lookup a = l.lookup a := by
  rw [lookup_cons, beq_false_of_ne h]

section Results

variable {t : ResourceType} {n : ResultNode}

/-- The state after a result has been parsed, before it gets its name. -/
def withResult (ρ : Ref → Ref) (s : St) (n : ResultNode) : St :=
  { s with next := s.next + 1, uses := s.uses ++ newUses ρ [(n.id, n.res)] }

lemma takes_parseResult (hds : T.desc id = .resource t) {x : Ref} {k : ℕ}
    (hres : n.res = some x) (hval : n.val = 0) (hid : ρ n.id = s.next)
    (hk : s.vars.lookup (varName k) = some (some (ρ x))) :
    Takes (parseResult T (some id)) s
      (varName k ++ ((opText "/" n.opDiv).toList ++ (opText "+" n.opAdd).toList))
      (.ofArg (.result t (renameNode ρ n))) (withResult ρ s n) endsArg := by
  have hidn := takes_ident (by simp [varName]) (isIdent_varName k) s
  have hdiv := takes_parseOp '/' n.opDiv "wrong result div op" s
  have hadd := takes_parseOp '+' n.opAdd "wrong result add op" s
  have haf : ∀ c, endsArg c → (endsIdent c && c != '+') := by
    intro c hc
    rcases endsArg_cases hc with rfl | rfl | rfl | rfl <;> decide
  have hpl : ∀ c, endsArg c →
      (endsIdent ((opText "+" n.opAdd).toList.headD c) &&
        (opText "+" n.opAdd).toList.headD c != '/') := by
    intro c hc
    rw [toList_opText]
    split_ifs
    · rfl
    · rcases endsArg_cases hc with rfl | rfl | rfl | rfl <;> decide
  have hsl : ∀ c, endsArg c →
      endsIdent (((opText "/" n.opDiv).toList ++ (opText "+" n.opAdd).toList).headD c) := by
    intro c hc
    have h := (and_eq_true_iff.1 (hpl c hc)).1
    rw [toList_opText "/"]
    split_ifs
    · rfl
    · exact h
  refine hidn.bind (hdiv.bind (hadd.bind_nil (takes_state_bind ?_) haf) hpl) hsl
  rw [hk]
  refine takes_fresh_bind (takes_addUse_bind ?_)
  simp only [map_some, hds]
  have hnew : newUses ρ [(n.id, some x)] = [(ρ x, s.next)] := by simp [newUses, hid]
  rw [withResult, renameNode, hres, hval, hid, hnew]
  exact takes_pure _ _ _

/-- **A result is read back**, without its name. -/
lemma takes_result (hds : T.desc id = .resource t) (hval : n.res.isSome → n.val = 0)
    (hop : n.res = none → n.opDiv = 0 ∧ n.opAdd = 0) (hid : ρ n.id = s.next) (st : Printer)
    (hbn : ∀ x, n.res = some x → ∃ k, st.vars.lookup x = some k ∧
      s.vars.lookup (varName k) = some (some (ρ x))) :
    ∃ text, serializeResult n st = some (st.print text) ∧ Starts text.toList ∧
      text.toList.head? ≠ some '<' ∧ Inline text.toList ∧
      ∀ fuel r, Takes (parseValue T fuel (parseArg T fuel) (some id) r) s text.toList
        (.ofArg (.result t (renameNode ρ n))) (withResult ρ s n) endsArg := by
  cases hres : n.res with
  | none =>
    obtain ⟨hdiv, hadd⟩ := hop hres
    refine ⟨hex n.val.toNat, by rw [serializeResult, hres], starts_hex _, by simp [toList_hex],
      inline_hex _, fun fuel r => takes_value_hex ?_⟩
    refine (takes_hex n.val _ s).bind_nil ?_ fun c => endsIdent_of_endsArg
    simp only [map_some, hds]
    refine takes_fresh_bind ?_
    rw [withResult, renameNode, hres, hdiv, hadd, hid, newUses, filterMap_cons_none rfl,
      filterMap_nil, append_nil]
    exact takes_pure _ _ _
  | some x =>
    obtain ⟨k, hlk, hk⟩ := hbn x hres
    have htx : ("r" ++ toString k ++ opText "/" n.opDiv ++ opText "+" n.opAdd).toList =
        varName k ++ ((opText "/" n.opDiv).toList ++ (opText "+" n.opAdd).toList) := by
      simp only [toList_append, toList_toString, varName, append_assoc]
      rfl
    refine ⟨"r" ++ toString k ++ opText "/" n.opDiv ++ opText "+" n.opAdd, ?_, ?_, ?_, ?_, ?_⟩
    · rw [serializeResult, hres]
      simp only [hlk, map_some]
      rfl
    · rw [htx]
      exact ⟨'r', _, rfl, by decide⟩
    · rw [htx]
      simp [varName]
    · rw [htx]
      exact (inline_of_isIdent (isIdent_varName k)).append
        ((inline_opText (by simp [Inline]) _).append (inline_opText (by simp [Inline]) _))
    · intro fuel r
      rw [htx]
      refine takes_char_bind ?_
      rw [if_neg (by decide), if_pos rfl]
      exact takes_parseResult hds hres (hval (by simp [hres])) hid hk

lemma takes_name (k : ℕ) (s : St) :
    Takes parseName s ("<r" ++ toString k ++ "=>").toList (some (varName k)) s
      fun c => !isWs c := by
  have htx : ("<r" ++ toString k ++ "=>").toList = ['<'] ++ (varName k ++ (['='] ++ ['>'])) := by
    simp only [toList_append, toList_toString, varName]
    rfl
  rw [htx]
  refine takes_char_bind ?_
  rw [if_pos rfl]
  refine takes_parse_bind rfl ?_
  refine (takes_ident (by simp [varName]) (isIdent_varName k) s).bind
    (q := fun c => !isWs c) (v := ['='] ++ ['>']) ?_ fun c _ => rfl
  exact takes_parse_bind rfl ((takes_parse '>' s).bind_pure rfl)

lemma inline_name (k : ℕ) : Inline ("<r" ++ toString k ++ "=>").toList := by
  simp only [toList_append]
  exact (append (by simp [Inline]) (inline_decimal k)).append (by simp [Inline])

variable {k₀ : Option ℕ} {seen : List Ref} {st : Printer}

lemma ready_result (h : Ready ρ e k₀ seen [(n.id, n.res)] st s) :
    ρ n.id = s.next ∧ n.id ∉ seen ∧ ∀ x, n.res = some x → x ∈ seen ∧ e.isUsed x := by
  refine ⟨by simpa [NumberedFrom] using h.numbered, h.new _ (mem_singleton_self _),
    fun x hx => ⟨?_, h.used n.id x (by simp [hx])⟩⟩
  have hor := h.order
  rw [hx, cloneable, and_eq_true, decide_eq_true_eq] at hor
  exact hor.1

lemma Ready.bindResult (h : Ready ρ e k₀ seen [(n.id, n.res)] st s) (text : String) :
    After ρ e k₀ seen [(n.id, n.res)] st ((st.bindVar "<r" "=>" n.id).print text) s
      { withResult ρ s n with vars := (varName st.varSeq, some s.next) :: s.vars } := by
  obtain ⟨hid, hnew, -⟩ := ready_result h
  refine ⟨⟨fun k hk => (h.ctx.reserved k hk).trans (lt_succ_self _), fun x hx hus => ?_⟩, rfl,
    rfl, fun x hx => ?_⟩
  · rcases mem_cons.1 hx with rfl | hx
    · refine ⟨st.varSeq, lookup_cons_self, lt_succ_self _, fun hk => ?_, ?_⟩
      · exact absurd (h.ctx.reserved _ hk) (lt_irrefl _)
      · rw [hid]
        exact lookup_cons_self
    · obtain ⟨k, hlk, hlt, hk0, hnm⟩ := h.ctx.bound x hx hus
      have hne : x ≠ n.id := fun hx' => hnew (hx' ▸ hx)
      have hnN : varName k ≠ varName st.varSeq := fun h => hlt.ne (varName_injective h)
      refine ⟨k, ?_, hlt.trans (lt_succ_self _), hk0, ?_⟩
      · exact (lookup_cons_of_ne hne).trans hlk
      · exact (lookup_cons_of_ne hnN).trans hnm
  · exact lookup_cons_of_ne fun hx' => hx (by simp [hx'])

lemma Ready.skipResult (h : Ready ρ e k₀ seen [(n.id, n.res)] st s) (hus : e.isUsed n.id = false)
    (text : String) :
    After ρ e k₀ seen [(n.id, n.res)] st (st.print text) s (withResult ρ s n) := by
  refine ⟨⟨h.ctx.reserved, fun x hx hx' => ?_⟩, rfl, rfl, fun x hx => rfl⟩
  rcases mem_cons.1 hx with rfl | hx
  · exact absurd (hus.symm.trans hx') (by simp)
  · exact h.ctx.bound x hx hx'

/-- **A result is read back**, with its name if it is used. -/
lemma reparses_result (hds : T.desc id = .resource t) (hval : n.res.isSome → n.val = 0)
    (hop : n.res = none → n.opDiv = 0 ∧ n.opAdd = 0) (fuel : ℕ) :
    Reparses T ρ e (parseArg T (fuel + 1) (some id)) (.result t n) := by
  intro k₀ seen st s hrd
  have hnd : argNodes (.result t n) = [(n.id, n.res)] := rfl
  rw [hnd] at hrd ⊢
  obtain ⟨hid, hnew, hres⟩ := ready_result hrd
  have hbn := fun x hx => hrd.ctx.bound x (hres x hx).1 (hres x hx).2
  by_cases hus : e.isUsed n.id
  · -- The name is bound after the value has been parsed.
    obtain ⟨text, hpr, ⟨c, cs, hcs, hc⟩, hnm, hinl, htk⟩ :=
      takes_result hds hval hop hid (st.bindVar "<r" "=>" n.id) fun x hx => by
        obtain ⟨k, hlk, -, -, hk⟩ := hbn x hx
        have hne : x ≠ n.id := fun hx' => hnew (hx' ▸ (hres x hx).1)
        exact ⟨k, (lookup_cons_of_ne hne).trans hlk, hk⟩
    refine ⟨("<r" ++ toString st.varSeq ++ "=>").toList ++ text.toList, _, _, ?_, ?_, ?_,
      (inline_name _).append hinl, hrd.bindResult text, ?_⟩
    · rw [serializeArg, if_pos hus, hpr]
    · simp [print, Printer.bindVar]
    · refine ⟨'<', _, by simp only [toList_append]; rfl, by decide⟩
    · refine (takes_name st.varSeq s).bind ?_ fun d _ => ?_
      · have href : (Parsed.ofArg (.result t (renameNode ρ n))).ref = some s.next :=
          congrArg some hid
        refine (htk fuel _).bind_nil (takes_bindName_bind ?_) fun c hc => hc
        rw [href]
        exact takes_pure _ _ _
      · rw [hcs]
        exact not_isWs_of_startsArg hc
  · obtain ⟨text, hpr, hst, hnm, hinl, htk⟩ :=
      takes_result hds hval hop hid st fun x hx => by
        obtain ⟨k, hlk, -, -, hk⟩ := hbn x hx
        exact ⟨k, hlk, hk⟩
    refine ⟨text.toList, st.print text, withResult ρ s n, ?_, rfl, hst, hinl,
      hrd.skipResult (by simpa using hus) text, ?_⟩
    · rw [serializeArg, if_neg hus, hpr]
    · exact takes_parseArg hnm hst.ne_nil (htk fuel none)

end Results

/-! ### Constants, regions and data -/

lemma reparses_const {t : ConstType} (hds : T.desc id = .const t) (val : UInt64) (fuel : ℕ) :
    Reparses T ρ e (parseArg T (fuel + 1) (some id)) (.const t val) := by
  refine reparses_leaf (hex val.toNat) rfl (fun st => rfl) (starts_hex _)
    (by simp [toList_hex]) (inline_hex _) fun s => takes_value_hex ?_
  refine (takes_hex val _ s).bind_nil ?_ fun c => endsIdent_of_endsArg
  simp only [map_some, hds]
  exact takes_pure _ s _

lemma reparses_zero (hnd : argNodes a = [])
    (hpr : ∀ st, serializeArg e a st = some (st.print "0x0"))
    (htk : ∀ s, Takes (parseConst T (some id)) s (hex (0 : UInt64).toNat).toList
      (.ofArg (reparse T ρ a)) s endsArg) : Reparses T ρ e (parseArg T (fuel + 1) (some id)) a := by
  have htx : "0x0" = hex (0 : UInt64).toNat := by decide
  refine reparses_leaf "0x0" hnd hpr ⟨'0', _, rfl, by decide⟩ (by decide)
    (by simp [Inline]) fun s => ?_
  rw [htx]
  exact takes_value_hex (htk s)

variable {t : PtrType}

lemma reparses_null {elem : TypeId} (hds : T.desc id = .ptr t elem)
    (h : t.optional) (fuel : ℕ) :
    Reparses T ρ e (parseArg T (fuel + 1) (some id)) (.null t h) := by
  refine reparses_zero rfl (fun st => rfl) fun s => ?_
  refine (takes_hex 0 _ s).bind_nil ?_ fun c => endsIdent_of_endsArg
  simp only [map_some, hds, h, dite_true]
  exact takes_pure _ s _

variable {elem typ : Option TypeId} {tc : TypeCommon}

lemma takes_pointee {parseArg : Option TypeId → P Parsed}
    (hws : (!isWs c)) (hc : c ≠ 'A')
    (h : Takes (parseArg elem) s (c :: cs) x s' endsArg) :
    Takes (parsePointee T parseArg tc elem) s ('=' :: c :: cs) (some (none, x)) s' endsArg := by
  refine takes_char_bind ?_
  rw [if_pos rfl]
  refine takes_parse_bind hws (takes_char_bind ?_)
  rw [if_neg hc]
  exact h.bind_pure rfl

variable {address vmaSize : UInt64}

lemma takes_region (hT : T.wf) {t : VmaType} (hds : T.desc id = .vma t)
    (hal : address % 1024 = 0)
    (hrg : vmaSize = 0 ∨ Paged T address vmaSize) (had : address.toNat ≤ T.maxMem.toNat)
    (fuel : ℕ) (s : St) :
    Takes (parsePointer T (parseArg T (fuel + 1)) (some id)) s
      ("&" ++ serializeAddr address vmaSize ++ "=nil").toList
      (.ofArg (.vma t address vmaSize)) s endsArg := by
  have htx : ("&" ++ serializeAddr address vmaSize ++ "=nil").toList =
      ['&'] ++ ((serializeAddr address vmaSize).toList ++ ['=', 'n', 'i', 'l']) := by
    simp only [toList_append]
    rfl
  have hnil : Takes (parseNil T none none) s ['n', 'i', 'l'] ⟨.error .nil, none⟩ s endsArg := by
    refine takes_parse_bind rfl (takes_parse_bind rfl ?_)
    exact (takes_parse 'l' s).bind_nil (takes_pure _ s _) fun c hc => not_isWs_of_endsArg hc
  have hvl : Takes (parseArg T (fuel + 1) none) s ['n', 'i', 'l'] ⟨.error .nil, none⟩ s endsArg :=
    takes_parseArg (by decide) (by simp) hnil
  rw [htx]
  simp only [parsePointer, map_some, hds]
  refine (takes_parse '&' s).bind ?_ fun c _ => ?_
  · refine (takes_parseAddr hT had hrg s).bind ?_ fun c _ => rfl
    refine (takes_pointee rfl (by decide) hvl).bind_nil ?_ fun c hc => hc
    simp only [hal, ne_eq, not_true_eq_false, if_false]
    exact takes_pure _ s _
  · simp only [serializeAddr, toList_append]
    rfl

lemma reparses_vma (hT : T.wf) {t : VmaType} (hds : T.desc id = .vma t)
    (hal : address % 1024 = 0)
    (hrg : vmaSize = 0 ∨ Paged T address vmaSize)
    (hch : checkArg T (.vma t address vmaSize)) (fuel : ℕ) :
    Reparses T ρ e (parseArg T (fuel + 2) (some id)) (.vma t address vmaSize) := by
  by_cases hzr : vmaIsNull address vmaSize
  · refine reparses_zero rfl (fun st => ?_) fun s => ?_
    · rw [serializeArg, if_pos hzr]
    · refine (takes_hex 0 _ s).bind_nil ?_ fun c => endsIdent_of_endsArg
      simp only [map_some, hds]
      split_ifs with hopt
      · have hrb : reparse T ρ (.vma t address vmaSize) = .vma t 0 0 := by
          simp only [vmaIsNull, and_eq_true, beq_iff_eq] at hzr
          rw [reparse, readBack_eq (by simp [nullsOptional, hopt]), hzr.1, hzr.2, rename_vma]
        rw [hrb]
        exact takes_pure _ s _
      · have hrb : reparse T ρ (.vma t address vmaSize) = .vma t 0 T.pageSize := by
          rw [reparse, readBack, if_neg (by simp [hopt, hzr]), rename_vma]
        have hdf : defaultArg T id s.next = (.vma t 0 T.pageSize, s.next) := by
          simp [defaultArg, defaultOf, hds, hopt]
        refine takes_state_bind (takes_setState_bind ?_)
        rw [hrb, hdf]
        exact takes_pure _ _ _
  · have had : address.toNat ≤ T.maxMem.toNat := by
      simp only [checkArg, inMemory, and_eq_true, decide_eq_true_eq] at hch
      exact (UInt64.lt_iff_toNat_lt.1 hch.1.1).le
    have hst : ("&" ++ serializeAddr address vmaSize ++ "=nil").toList =
        '&' :: ((serializeAddr address vmaSize).toList ++ "=nil".toList) := by
      simp only [toList_append]
      rfl
    have hrb : reparse T ρ (.vma t address vmaSize) = .vma t address vmaSize := by
      rw [reparse, readBack_eq (by simp [nullsOptional, hzr]), rename_vma]
    refine reparses_leaf ("&" ++ serializeAddr address vmaSize ++ "=nil") rfl
      (fun st => ?_) ⟨'&', _, hst, by decide⟩ (by simp [hst]) ?_ fun s => ?_
    · rw [serializeArg, if_neg hzr]
    · simp only [toList_append]
      exact (append (by simp [Inline]) (inline_serializeAddr _ _)).append (by simp [Inline])
    · have htk := takes_region hT hds hal hrg had fuel s
      rw [hst] at htk ⊢
      refine takes_char_bind ?_
      rw [if_neg (by decide), if_neg (by decide), if_pos rfl, hrb]
      exact htk

lemma starts_serializeData (bs : List UInt8) :
    ∃ c t, (serializeData bs).toList = c :: t ∧ (c = '"' ∨ c = '\'') := by
  unfold serializeData
  split_ifs
  · exact ⟨'"', _, by simp only [toList_append]; rfl, .inl rfl⟩
  · exact ⟨'\'', _, by simp only [toList_append]; rfl, .inr rfl⟩

lemma takes_value_data {parseArg : Option TypeId → P Parsed}
    (hc : c = '"' ∨ c = '\'') (h : Takes (parseBuffer T typ) s (c :: cs) x s' endsArg) :
    Takes (parseValue T fuel parseArg typ r) s (c :: cs) x s' endsArg := by
  refine takes_char_bind ?_
  have hne : c ≠ '0' ∧ c ≠ 'r' ∧ c ≠ '&' := by rcases hc with rfl | rfl <;> decide
  rwa [if_neg hne.1, if_neg hne.2.1, if_neg hne.2.2, if_pos hc]

lemma takes_noSize (s : St) : Takes parseBufferSize s [] 0xffffffffffffffff s endsArg := by
  refine takes_char_bind_nil fun c hc => ?_
  rw [if_neg (endsArg_ne hc (by decide))]
  exact takes_pure _ s _

variable {n : ℕ}

lemma takes_size (h : n < 2 ^ 64) (s : St) :
    Takes parseBufferSize s ('/' :: toDigits 10 n) (UInt64.ofNat n) s endsArg := by
  refine takes_char_bind ?_
  rw [if_pos rfl, ← toList_toString]
  refine takes_parse_decimal n ?_
  exact (takes_decimal h _ s).mono fun c => endsIdent_of_endsArg

lemma reparses_dataOut {t : BufferType} (hds : T.desc id = .buffer t) (hdir : t.dir = .dirOut)
    {outSize : ℕ} (hdt : DataOf t [] outSize) (fuel : ℕ) :
    Reparses T ρ e (parseArg T (fuel + 1) (some id)) (.data t [] outSize) := by
  rw [DataOf, if_pos hdir] at hdt
  obtain ⟨-, hmax, hfx⟩ := hdt
  have hst : ("\"\"/" ++ toString outSize).toList =
      '"' :: (['"'] ++ '/' :: toDigits 10 outSize) := by
    simp only [toList_append, toList_toString]
    rfl
  have hsz : (bufferSize t [] (UInt64.ofNat outSize)).toNat = outSize := by
    have htN : (UInt64.ofNat outSize).toNat = outSize := by
      rw [UInt64.toNat_ofNat']
      exact mod_eq_of_lt (by omega)
    have hne : UInt64.ofNat outSize ≠ 0xffffffffffffffff := by
      intro h
      have hval : outSize = 2 ^ 64 - 1 := by
        rw [← htN, h]
        rfl
      omega
    unfold bufferSize
    split_ifs with hvr
    · rw [← hfx hvr, htN]
    · exact htN
  refine reparses_leaf ("\"\"/" ++ toString outSize) rfl (fun st => ?_)
    ⟨'"', _, hst, by decide⟩ (by simp) ?_ fun s => ?_
  · rw [serializeArg, if_pos hdir]
    rfl
  · rw [String.toList_append]
    exact Inline.append (by simp [Inline]) (inline_decimal _)
  · have hem : Takes deserializeData s ['"', '"'] [] s fun c => !isWs c :=
      takes_deserializeData [] s
    rw [hst]
    refine takes_value_data (.inl rfl) ?_
    simp only [parseBuffer, map_some, hds]
    refine hem.bind (v := '/' :: toDigits 10 outSize) ?_ fun c _ => rfl
    refine (takes_size (by omega) s).bind_nil ?_ fun c hc => hc
    rw [hsz, if_neg (by simp), if_pos hdir]
    exact takes_pure _ s _

/-- **Data is read back**: zeros at the end of data of a fixed size are put back. -/
lemma reparses_dataIn {t : BufferType} (hds : T.desc id = .buffer t) (hdir : t.dir ≠ .dirOut)
    {bytes : List UInt8} {outSize : ℕ} (hdt : DataOf t bytes outSize) (fuel : ℕ) :
    Reparses T ρ e (parseArg T (fuel + 1) (some id)) (.data t bytes outSize) := by
  rw [DataOf, if_neg hdir] at hdt
  obtain ⟨rfl, hlen, hfx⟩ := hdt
  -- What is printed, and what the parser makes of it.
  have hpd : ∃ data, data = (if t.varlen then bytes else stripZeros bytes) ∧
      data.length ≤ bytes.length ∧
      (bufferSize t data 0xffffffffffffffff).toNat = bytes.length ∧
      (data ++ replicate (bytes.length - data.length) 0).take bytes.length = bytes := by
    refine ⟨_, rfl, ?_⟩
    by_cases hvr : t.varlen
    · rw [if_pos hvr]
      refine ⟨le_rfl, ?_, by simp⟩
      rw [bufferSize, if_neg (by simp [hvr]), if_pos rfl, UInt64.toNat_ofNat']
      exact mod_eq_of_lt (by omega)
    · have hsz := hfx (by simpa using hvr)
      obtain ⟨k, hk⟩ := stripZeros_append bytes
      have hln : (stripZeros bytes).length + k = bytes.length := by
        conv_rhs => rw [← hk]
        simp
      rw [if_neg hvr]
      refine ⟨by omega, ?_, ?_⟩
      · rw [bufferSize, if_pos (by simpa using hvr), UInt64.toNat_ofNat', hsz]
        exact mod_eq_of_lt (by omega)
      · rw [← hln, Nat.add_sub_cancel_left, hk, hln, take_length]
  obtain ⟨data, hpr, hle, hsz, hbc⟩ := hpd
  obtain ⟨c, cs, hcs, hc⟩ := starts_serializeData data
  have hst : startsArg c := by rcases hc with rfl | rfl <;> decide
  refine reparses_leaf (serializeData data) rfl (fun st => ?_) ⟨c, cs, hcs, hst⟩ ?_
    (inline_serializeData _) fun s => ?_
  · rw [serializeArg, if_neg hdir, ← hpr]
  · rw [hcs]
    rcases hc with rfl | rfl <;> simp
  · have htk := takes_deserializeData data s
    rw [hcs] at htk ⊢
    refine takes_value_data hc ?_
    simp only [parseBuffer, map_some, hds]
    refine htk.bind_nil ?_ fun c => not_isWs_of_endsArg
    refine (takes_noSize s).bind_nil ?_ fun c hc => hc
    have hmem : ¬ (t.varlen ∧ T.maxAlloc < bytes.length - data.length) := by
      rintro ⟨hvr, hlt⟩
      rw [hpr, if_pos hvr] at hlt
      omega
    rw [hsz, if_neg (by omega), if_neg hdir, if_neg (by omega), if_neg hmem, hbc]
    exact takes_pure _ s _

/-! ### Pointers -/

lemma takes_pointee_none {parseArg : Option TypeId → P Parsed} (elem : Option TypeId) (s : St) :
    Takes (parsePointee T parseArg tc elem) s [] none s endsArg := by
  refine takes_char_bind_nil fun c hc => ?_
  rw [if_neg (endsArg_ne hc (by decide))]
  exact takes_pure _ s _

lemma takes_pointee_any {parseArg : Option TypeId → P Parsed}
    (hmk : T.makeAnyPtrType tc.size tc.fieldName = some t) (hst : Starts cs)
    (h : Takes (parseArg (some T.anyArray)) s cs x s' endsArg) :
    Takes (parsePointee T parseArg tc elem) s ('=' :: 'A' :: 'N' :: 'Y' :: '=' :: cs)
      (some (some t, x)) s' endsArg := by
  obtain ⟨c, cs, rfl, hc⟩ := hst
  refine takes_char_bind ?_
  rw [if_pos rfl]
  refine takes_parse_bind rfl (takes_char_bind ?_)
  rw [if_pos rfl]
  refine takes_parse_bind rfl (takes_parse_bind rfl (takes_parse_bind rfl ?_))
  refine takes_parse_bind (not_isWs_of_startsArg hc) ?_
  rw [hmk]
  exact h.bind_pure rfl

def pointerText (address : UInt64) : List Char := '&' :: (serializeAddr address 0).toList

lemma toList_pointer (address : UInt64) :
    ("&" ++ serializeAddr address 0).toList = pointerText address := by
  rw [toList_append]
  rfl

lemma inline_pointerText (adr : UInt64) : Inline (pointerText adr) :=
  append (u := ['&']) (by simp [Inline]) (inline_serializeAddr _ _)

lemma takes_value_pointer
    (h : Takes (parsePointer T (parseArg T fuel) typ) s (pointerText address ++ cs) x s' endsArg) :
    Takes (parseArg T (fuel + 1) typ) s (pointerText address ++ cs) x s' endsArg := by
  refine takes_parseArg (by simp [pointerText]) (by simp [pointerText]) ?_
  refine takes_char_bind ?_
  rw [if_neg (by decide), if_neg (by decide), if_pos rfl]
  exact h

lemma takes_address (hT : T.wf) (had : address.toNat ≤ T.maxMem.toNat)
    {k : UInt64 × UInt64 → P Parsed} (hcs : ∀ c, endsArg c → (!isWs (cs.headD c)))
    (h : Takes (k (address, 0)) s cs x s' endsArg) :
    Takes (do parse '&'; let addr ← parseAddr T; k addr) s (pointerText address ++ cs) x s'
      endsArg := by
  refine (takes_parse '&' s).bind (v := (serializeAddr address 0).toList ++ cs) ?_ fun c _ => ?_
  · exact (takes_parseAddr hT had (.inl rfl) s).bind h hcs
  · simp only [serializeAddr, toList_append]
    rfl

/-- **Pointers to squashed arguments are read back**, in the place of a pointer or a region. -/
lemma reparses_any (hT : T.wf) (his : t.isAny)
    (hany : anyTypeOf T (T.desc id) = some t) (had : address.toNat ≤ T.maxMem.toNat) {res : Arg}
    (hres : Reparses T ρ e (parseArg T fuel (some T.anyArray)) res) :
    Reparses T ρ e (parseArg T (fuel + 1) (some id)) (.ptr t address res) := by
  intro k₀ seen st s hrd
  obtain ⟨cs, st', s', hser, htx, hst, hinl, haf, htk⟩ :=
    hres k₀ seen _ s ((hrd.print ("&" ++ serializeAddr address 0)).print "=ANY=")
  refine ⟨pointerText address ++ '=' :: 'A' :: 'N' :: 'Y' :: '=' :: cs, st', s', ?_, ?_,
    ⟨'&', _, rfl, by decide⟩, (inline_pointerText _).append ?_, haf.of_print.of_print, ?_⟩
  · rw [serializeArg, his]
    simpa using hser
  · rw [htx, print, print, toList_pointer, append_assoc, append_assoc]
    rfl
  · exact append (u := ['=', 'A', 'N', 'Y', '=']) (by simp [Inline]) hinl
  · refine takes_value_pointer ?_
    obtain ⟨hmk, hds⟩ := anyTypeOf_cases hany
    rcases hds with ⟨t0, elem, hds⟩ | ⟨t0, hds⟩
    all_goals
      simp only [hds, TypeDesc.common] at hmk
      simp only [parsePointer, map_some, hds]
      refine takes_address hT had (fun _ _ => rfl) ?_
      exact (takes_pointee_any hmk hst htk).bind_pure rfl

/-! ### Structs, arrays and unions -/

lemma allArgs_map (as : List Arg) :
    allArgs (as.map fun a => .ofArg (reparse T ρ a)) = some (as.map (reparse T ρ)) := by
  induction as with
  | nil => rfl
  | cons a as ih =>
    rw [map_cons, allArgs, ih]
    rfl

lemma exists_printed (fixed : Bool) (inner : List Arg) :
    ∃ as rest, inner = as ++ rest ∧ as.length = printedLen e fixed inner ∧
      (∀ a ∈ rest, isDefaultArg e a) ∧ (fixed = false → rest = []) ∧
      ∀ a, fixed → as.getLast? = some a → isDefaultArg e a = false := by
  cases fixed with
  | false => exact ⟨inner, [], by simp, rfl, by simp, by simp, by simp⟩
  | true =>
    refine ⟨(inner.reverse.dropWhile (isDefaultArg e)).reverse,
      (inner.reverse.takeWhile (isDefaultArg e)).reverse, ?_, ?_, ?_, by simp, ?_⟩
    · rw [← reverse_append, takeWhile_append_dropWhile, reverse_reverse]
    · rw [length_reverse]
      rfl
    · intro a ha
      exact mem_takeWhile_imp (mem_reverse.1 ha)
    · intro a _ ha
      rw [getLast?_reverse] at ha
      have := head?_dropWhile_not (isDefaultArg e) inner.reverse
      rw [ha] at this
      simpa using this

variable {fields : List TypeId}

lemma Typed.isPad_eq (h : Typed T id a) : a.isPad = (T.desc id).isPad := by
  cases h with
  | any hany =>
    rcases (anyTypeOf_cases hany).2 with ⟨t0, elem, hds⟩ | ⟨t0, hds⟩ <;> rw [hds] <;> rfl
  | _ =>
    rw [‹T.desc id = _›]
    rfl

lemma isDefaultArg_of_isPad (h : a.isPad) : isDefaultArg e a := by
  cases a with
  | const t val =>
    have hpad : t.isPad := h
    simp [isDefaultArg, hpad]
  | _ => cases h

variable {as inner rest : List Arg}

variable {slot : ℕ → Option Slot}

lemma slotReparses_field {parseArg : Option TypeId → P Parsed} {f : TypeId}
    (hf : fields[j]? = some f) (hty : Typed T f a)
    (ha : (T.desc f).isPad = false → Reparses T ρ e (parseArg (some f)) a) :
    SlotReparses T ρ e (fieldSlot T parseArg fields j) a := by
  have hpad := hty.isPad_eq
  rw [fieldSlot, hf, map_some, SlotReparses]
  cases hds : T.desc f with
  | const t =>
    rw [hds] at hpad ha
    have hpad : a.isPad = t.isPad := hpad
    by_cases ht : t.isPad
    · rw [if_pos (hpad.trans ht)]
      cases hty with
      | const hds' hval =>
        cases hds'.symm.trans hds
        simp only [ht, if_true, hval ht]
      | any hany =>
        rw [hds] at hany
        cases hany
      | _ => cases hds.symm.trans ‹T.desc f = _›
    · rw [if_neg (by rw [hpad]; exact ht)]
      simp only [ht]
      exact ⟨_, rfl, ha (eq_false_of_not_eq_true ht)⟩
  | _ =>
    rw [hds] at hpad ha
    rw [if_neg (by rw [hpad]; simp [TypeDesc.isPad])]
    exact ⟨_, rfl, ha rfl⟩

section Defaults

variable (hT : T.wf) (hpg : e.pageSize = T.pageSize)
include hT hpg

lemma pageSize_ne_zero : e.pageSize ≠ 0 := by
  rw [hpg]
  intro h
  exact absurd (pageSize_pos hT) (by simp [h])

lemma takes_makeDefault (hty : Typed T id a) (hdf : isDefaultArg e a)
    (hn : NumberedFrom ρ s.next (argNodes a)) (p : Char → Bool) :
    Takes (makeDefault T (some id)) s [] (.ofArg (reparse T ρ a))
      { s with next := s.next + (argNodes a).length } p := by
  refine takes_state_bind (takes_setState_bind ?_)
  rw [defaultArg, defaultOf_eq hT hpg le_rfl hty hdf hn,
    reparse_of_isDefaultArg (pageSize_ne_zero hT hpg) hdf]
  exact takes_pure _ _ _

lemma takes_makeDefaults {ids : List TypeId} (hty : List.Forall₂ (Typed T) ids as)
    (hdf : ∀ a ∈ as, isDefaultArg e a)
    (hn : NumberedFrom ρ s.next (as.flatMap argNodes)) (p : Char → Bool) :
    Takes (makeDefaults T ids) s [] (as.map (reparse T ρ))
      { s with next := s.next + (as.flatMap argNodes).length } p := by
  refine takes_state_bind (takes_setState_bind ?_)
  rw [thread_eq (f := defaultArg T) (forall₂_imp_of_mem hty fun id _ a ha hty n hn =>
    defaultOf_eq hT hpg le_rfl hty (hdf a ha) hn) hn,
    map_congr_left fun a ha => reparse_of_isDefaultArg (pageSize_ne_zero hT hpg) (hdf a ha)]
  exact takes_pure _ _ _

/-- **Pointers are read back**; a default pointee is not printed. -/
lemma reparses_ptr {elem : TypeId} (hds : T.desc id = .ptr t elem) (his : t.isAny = false)
    (had : address.toNat ≤ T.maxMem.toNat) {res : Arg} (hty : Typed T elem res)
    (hres : Reparses T ρ e (parseArg T fuel (some elem)) res) :
    Reparses T ρ e (parseArg T (fuel + 1) (some id)) (.ptr t address res) := by
  intro k₀ seen st s hrd
  by_cases hdf : isDefaultArg e res
  · have hrd : Ready ρ e k₀ seen (argNodes res) st s := hrd
    have hsk := hrd.skip (nodes_of_isDefaultArg hdf)
    refine ⟨pointerText address ++ [], st.print ("&" ++ serializeAddr address 0), _, ?_, ?_,
      ⟨'&', _, rfl, by decide⟩, (inline_pointerText _).append (by simp [Inline]), hsk.print _, ?_⟩
    · rw [serializeArg, hdf, his]
      rfl
    · rw [print, toList_pointer, append_nil]
    · refine takes_value_pointer ?_
      simp only [parsePointer, map_some, hds]
      refine takes_address hT had (fun c hc => not_isWs_of_endsArg hc) ?_
      refine (takes_pointee_none _ s).bind_nil ?_ fun c hc => hc
      refine (takes_makeDefault hT hpg hty hdf hrd.numbered endsArg).bind_nil ?_
        fun c hc => hc
      exact takes_pure _ _ _
  · obtain ⟨cs, st', s', hser, htx, hst, hinl, haf, htk⟩ :=
      hres k₀ seen _ s ((hrd.print ("&" ++ serializeAddr address 0)).print "=")
    refine ⟨pointerText address ++ '=' :: cs, st', s', ?_, ?_,
      ⟨'&', _, rfl, by decide⟩, (inline_pointerText _).append ?_, haf.of_print.of_print, ?_⟩
    · rw [serializeArg, his]
      simpa [hdf] using hser
    · rw [htx, print, print, toList_pointer, append_assoc, append_assoc]
      rfl
    · exact append (u := ['=']) (by simp [Inline]) hinl
    · refine takes_value_pointer ?_
      simp only [parsePointer, map_some, hds]
      obtain ⟨c, cs, rfl, hc⟩ := hst
      refine takes_address hT had (fun _ _ => rfl) ?_
      exact (takes_pointee (not_isWs_of_startsArg hc) (startsArg_ne hc (by decide))
        htk).bind_pure rfl

/-- **A group is read back**: the arguments that are printed, and defaults for the others. -/
lemma exists_group (close : Char) (hcl : endsArg close) (hcm : close ≠ ',')
    (hir : inner = as ++ rest) (hfl : inner.length < fuel)
    (hty : List.Forall₂ (Typed T) fields inner)
    (hsl : ∀ j a, as[j]? = some a → SlotReparses T ρ e (slot j) a)
    (hfr : ∀ a, as.head? = some a → a.isPad = false)
    (hls : ∀ a, as.getLast? = some a → a.isPad = false) (hrs : ∀ a ∈ rest, isDefaultArg e a)
    (hrd : Ready ρ e k₀ seen (inner.flatMap argNodes) st s) :
    ∃ cs st' s' s'', serializeInner e 0 as.length inner st = some st' ∧
      st'.text = st.text ++ cs ∧ Inline cs ∧ (∀ c, (!isWs ((cs ++ [close]).headD c))) ∧
      After ρ e k₀ seen (inner.flatMap argNodes) st st' s s'' ∧
      Takes (parseSeq close slot fuel 0) s cs (as.map fun a => .ofArg (reparse T ρ a)) s'
        (fun c => c == close) ∧
      ∀ p, Takes (makeDefaults T (fields.drop as.length)) s' [] (rest.map (reparse T ρ)) s'' p := by
  subst hir
  rw [flatMap_append] at hrd ⊢
  rw [length_append] at hfl
  have hsl' : ∀ j a, as[j]? = some a → SlotReparses T ρ e (slot (0 + j)) a := by
    intro j a ha
    rw [zero_add]
    exact hsl j a ha
  have hlen : as.length < fuel := by omega
  obtain ⟨cs, st', s', hpr, h⟩ := exists_listed hcl hcm hlen hsl' (fun _ => hfr)
    hls rest hrd.left
  have hrg := hrd.right h.after
  have hnd : ∀ n ∈ rest.flatMap argNodes, n.2 = none ∧ e.isUsed n.1 = false := by
    intro n hn
    obtain ⟨a, ha, hn⟩ := mem_flatMap.1 hn
    exact nodes_of_isDefaultArg (hrs a ha) n hn
  have hdr : List.Forall₂ (Typed T) (fields.drop as.length) rest := by
    have := forall₂_drop as.length hty
    rwa [drop_left] at this
  refine ⟨cs, st', s', _, hpr, ?_, h.inline, fun c => ?_, h.after.append (hrg.skip hnd),
    h.takes, fun p => takes_makeDefaults hT hpg hdr hrs hrg.numbered p⟩
  · rw [h.text]
    simp [separator]
  · by_cases has : as = []
    · rw [h.empty has]
      exact not_isWs_of_endsArg hcl
    · obtain ⟨d, t, rfl, hd⟩ := h.starts has
      exact not_isWs_of_startsArg hd

lemma reparses_struct {t : StructType} (hds : T.desc id = .struct t fields)
    (htd : List.Forall₂ (Typed T) fields inner) (hfl : countAll inner < fuel)
    (hsl : ∀ j a, inner[j]? = some a →
      SlotReparses T ρ e (fieldSlot T (parseArg T fuel) fields j) a) :
    Reparses T ρ e (parseArg T (fuel + 1) (some id)) (.struct t inner) := by
  intro k₀ seen st s hrd
  rw [argNodes_struct] at hrd ⊢
  obtain ⟨as, rest, rfl, hlen, hrs, -, hls⟩ := exists_printed (e := e) true inner
  have hls' : ∀ a, as.getLast? = some a → a.isPad = false := by
    intro a ha
    by_contra hpad
    have := isDefaultArg_of_isPad (e := e) (eq_true_of_not_eq_false hpad)
    exact absurd (this.symm.trans (hls a rfl ha)) (by simp)
  have hfr : ∀ a, as.head? = some a → a.isPad = false := by
    intro a ha
    obtain ⟨as, rfl⟩ := head?_eq_some_iff.1 ha
    cases htd with
    | cons hty _ => rw [hty.isPad_eq, wf_struct hT hds rfl]
  have hsl' : ∀ j a, as[j]? = some a →
      SlotReparses T ρ e (fieldSlot T (parseArg T fuel) fields j) a := by
    intro j a ha
    obtain ⟨hj, -⟩ := List.getElem?_eq_some_iff.1 ha
    exact hsl j a (by rwa [getElem?_append_left hj])
  have hlt := (length_le_countAll _).trans_lt hfl
  obtain ⟨cs, st', s', s'', hpr, htx, hinl, hws, haf, htk, hdf⟩ :=
    exists_group hT hpg '\x7d' (by decide) (by decide) rfl hlt htd hsl' hfr
      hls' hrs (hrd.print "\x7b")
  refine ⟨['\x7b'] ++ (cs ++ ['\x7d']), st'.print "\x7d", s'', ?_, ?_, ⟨'\x7b', _, rfl, by decide⟩,
    ?_, haf.of_print.print _, ?_⟩
  · rw [serializeArg, ← hlen, hpr]
    rfl
  · rw [print, htx, print]
    simp
  · exact append (by simp [Inline]) (hinl.append (by simp [Inline]))
  · refine takes_parseArg (by simp) (by simp) ?_
    refine takes_char_bind ?_
    rw [if_neg (by decide), if_neg (by decide), if_neg (by decide), if_neg (by decide), if_pos rfl]
    refine (takes_parse '\x7b' s).bind (v := cs ++ ['\x7d']) ?_ fun c _ => hws c
    simp only [map_some, hds]
    refine htk.bind (v := ['\x7d']) ?_ fun c _ => rfl
    refine (takes_parse '\x7d' s').bind_nil ?_ fun c => not_isWs_of_endsArg
    rw [length_map, allArgs_map, reparse_struct, map_append]
    exact (hdf endsArg).bind_pure rfl

lemma reparses_array {t : ArrayType} {elem : TypeId} (hds : T.desc id = .array t elem)
    (hlen : fixedInnerSize t → inner.length = t.rangeBegin)
    (hty : ∀ a ∈ inner, Typed T elem a) (hfl : countAll inner < fuel)
    (hir : ∀ a ∈ inner, Reparses T ρ e (parseArg T fuel (some elem)) a) :
    Reparses T ρ e (parseArg T (fuel + 1) (some id)) (.array t inner) := by
  intro k₀ seen st s hrd
  rw [argNodes_array] at hrd ⊢
  obtain ⟨as, rest, rfl, hpd, hrs, hnn, -⟩ :=
    exists_printed (e := e) (fixedInnerSize t) inner
  have hpad : ∀ a ∈ as, a.isPad = false := fun a ha => by
    rw [(hty a (mem_append_left _ ha)).isPad_eq, wf_array hT hds]
  have hsl : ∀ (j : ℕ) a, as[j]? = some a →
      SlotReparses T ρ e (some (.text (parseArg T fuel (some elem)))) a := by
    intro j a ha
    have hmem := mem_of_getElem? ha
    rw [SlotReparses, if_neg (by simp [hpad a hmem])]
    exact ⟨_, rfl, hir a (mem_append_left _ hmem)⟩
  have hlt := (length_le_countAll _).trans_lt hfl
  obtain ⟨cs, st', s', s'', hpr, htx, hinl, hws, haf, htk, hdf⟩ :=
    exists_group hT hpg ']' (by decide) (by decide) rfl hlt (forall₂_replicate hty) hsl
      (fun a ha => hpad a (mem_of_head? ha)) (fun a ha => hpad a (mem_of_getLast? ha))
      hrs (hrd.print "[")
  refine ⟨['['] ++ (cs ++ [']']), st'.print "]", s'', ?_, ?_, ⟨'[', _, rfl, by decide⟩, ?_,
    haf.of_print.print _, ?_⟩
  · rw [serializeArg, ← hpd, hpr]
    rfl
  · rw [print, htx, print]
    simp
  · exact append (by simp [Inline]) (hinl.append (by simp [Inline]))
  · refine takes_parseArg (by simp) (by simp) ?_
    refine takes_char_bind ?_
    rw [if_neg (by decide), if_neg (by decide), if_neg (by decide), if_neg (by decide),
      if_neg (by decide), if_pos rfl]
    refine (takes_parse '[' s).bind (v := cs ++ [']']) ?_ fun c _ => hws c
    simp only [map_some, hds]
    refine htk.bind (v := [']']) ?_ fun c _ => rfl
    refine (takes_parse ']' s').bind_nil ?_ fun c => not_isWs_of_endsArg
    rw [reparse_array, map_append]
    split_ifs with hfx
    · have hsz := hlen hfx
      have hta : (as.map fun a => Parsed.ofArg (reparse T ρ a)).take t.rangeBegin =
          as.map fun a => .ofArg (reparse T ρ a) := by
        refine take_of_length_le ?_
        rw [length_map, ← hsz, length_append]
        exact le_add_right _ _
      rw [hsz, drop_replicate] at hdf
      rw [hta, length_map, allArgs_map]
      exact (hdf endsArg).bind_pure rfl
    · -- Without defaults, the state is the one after the list.
      obtain rfl : rest = [] := hnn (by simpa using hfx)
      have hsm : s' = s'' := by
        have hst := hdf (fun _ => true) ' ' [] rfl
        rw [append_nil, drop_replicate, Nat.sub_self] at hst
        cases hst
        rfl
      rw [allArgs_map, ← hsm, map_nil, append_nil]
      exact takes_pure _ _ _

/-- **Unions are read back**; of a default option only the name is printed. -/
lemma reparses_union {t : UnionType} (hds : T.desc id = .union t fields) {option : Arg} {f : TypeId}
    (hfn : findField T fields option.fieldName.toList = some f)
    (hnm : (fields.any fun f => (T.desc f).common.name == option.type.name) = true)
    (hty : Typed T f option) (hop : Reparses T ρ e (parseArg T fuel (some f)) option) :
    Reparses T ρ e (parseArg T (fuel + 1) (some id)) (.union t option) := by
  intro k₀ seen st s hrd
  have hrd : Ready ρ e k₀ seen (argNodes option) st s := hrd
  have hidn : isIdentifier option.fieldName.toList := by
    rw [← name_of_findField hfn]
    exact ((wf_union hT hds).2 f (mem_of_find?_eq_some hfn)).2
  simp only [isIdentifier, and_eq_true, not_eq_true', isEmpty_eq_false_iff, all_eq_true] at hidn
  have hst : ("@" ++ option.fieldName).toList = '@' :: option.fieldName.toList := by
    rw [toList_append]
    rfl
  have him : Inline ('@' :: option.fieldName.toList) :=
    append (u := ['@']) (by simp [Inline]) (inline_of_isIdent hidn.2)
  -- What is parsed after the name.
  have ham : ∀ {cs s' s0}, (∀ c, endsArg c → endsIdent (cs.headD c)) →
      Takes (parseOption T (parseArg T fuel) f) s0 cs (.ofArg (reparse T ρ option)) s' endsArg →
      Takes (parseArg T (fuel + 1) (some id)) s0 ('@' :: option.fieldName.toList ++ cs)
        (.ofArg (reparse T ρ (.union t option))) s' endsArg := by
    intro cs s' s0 hcs htk
    refine takes_parseArg (by simp) (by simp) ?_
    refine takes_char_bind ?_
    rw [if_neg (by decide), if_neg (by decide), if_neg (by decide), if_neg (by decide),
      if_neg (by decide), if_neg (by decide), if_pos rfl]
    simp only [parseUnion, map_some, hds]
    refine (takes_parse '@' s0).bind (v := option.fieldName.toList ++ cs) ?_ fun c _ => ?_
    · refine (takes_ident hidn.1 hidn.2 s0).bind ?_ hcs
      simp only [hfn]
      refine htk.bind_nil ?_ fun c hc => hc
      have hmk : makeUnion T t fields (.ofArg (reparse T ρ option)) =
          .ofArg (reparse T ρ (.union t option)) := by
        have hnm' : fields.any fun f =>
            (T.desc f).common.name == (reparse T ρ option).type.name := by
          rwa [type_reparse]
        have hod : (Parsed.ofArg (reparse T ρ option)).odd = .ofArg (reparse T ρ option) := rfl
        simp only [makeUnion, hod, Odd.ofArg, hnm', if_true]
        rfl
      rw [hmk]
      exact takes_pure _ _ _
    · obtain ⟨d, ds, hd⟩ := exists_cons_of_ne_nil hidn.1
      rw [hd] at hidn ⊢
      exact not_isWs_of_isIdent (hidn.2 d mem_cons_self)
  by_cases hdf : isDefaultArg e option
  · have hsk := hrd.skip (nodes_of_isDefaultArg hdf)
    refine ⟨'@' :: option.fieldName.toList ++ [], st.print ("@" ++ option.fieldName), _, ?_, ?_,
      ⟨'@', _, rfl, by decide⟩, ?_, hsk.print _, ham (fun c => endsIdent_of_endsArg) ?_⟩
    · rw [serializeArg, hdf]
      rfl
    · rw [print, hst, append_nil]
    · rw [append_nil]
      exact him
    · refine takes_char_bind_nil fun c hc => ?_
      rw [if_neg (endsArg_ne hc (by decide))]
      exact takes_makeDefault hT hpg hty hdf hrd.numbered endsArg
  · obtain ⟨cs, st', s', hser, htx, ⟨c, cs', rfl, hc⟩, hinl, haf, htk⟩ :=
      hop k₀ seen _ s ((hrd.print ("@" ++ option.fieldName)).print "=")
    refine ⟨'@' :: option.fieldName.toList ++ '=' :: c :: cs', st', s', ?_, ?_,
      ⟨'@', _, rfl, by decide⟩, him.append ?_, haf.of_print.of_print,
      ham (fun _ _ => rfl) ?_⟩
    · rw [serializeArg]
      simpa [hdf] using hser
    · rw [htx, print, print, hst, append_assoc, append_assoc]
      rfl
    · exact append (u := ['=']) (by simp [Inline]) hinl
    · refine takes_char_bind ?_
      rw [if_pos rfl]
      exact takes_parse_bind (not_isWs_of_startsArg hc) htk

/-- **Every argument is read back from its text.** -/
theorem reparses_parseArg (ρ : Ref → Ref) (hty : Typed T id a) (hch : checkArg T (eraseConsts a))
    (hfl : a.count < fuel) : Reparses T ρ e (parseArg T fuel (some id)) a := by
  induction a generalizing id fuel
  all_goals obtain ⟨fuel, rfl⟩ := exists_eq_add_one.2 (zero_lt_of_lt hfl)
  case const t val =>
    cases hty with
    | const hds _ => exact reparses_const hds val fuel
  case ptr t address res ih =>
    simp only [eraseConsts, checkArg, inMemory, and_eq_true, decide_eq_true_eq] at hch
    have had := (UInt64.lt_iff_toNat_lt.1 hch.1.2.1).le
    have hlt : res.count < fuel := lt_of_succ_lt_succ hfl
    cases hty with
    | @ptr _ elem _ _ _ hds hres =>
      have ih := ih hres hch.2 hlt
      by_cases his : t.isAny
      · obtain ⟨rfl, hmk⟩ := (wf_ptr hT hds).2 his
        exact reparses_any hT his (by rw [hds]; exact hmk) had ih
      · exact reparses_ptr hT hpg hds (eq_false_of_not_eq_true his) had hres ih
    | any hany hres =>
      have his := (makeAnyPtrType_eq_some hT (anyTypeOf_cases hany).1).2
      exact reparses_any hT his hany had (ih hres hch.2 hlt)
  case null t h =>
    cases hty with
    | null hds => exact reparses_null hds h fuel
  case vma t address vmaSize =>
    obtain ⟨fuel, rfl⟩ := exists_eq_add_one.2 (lt_of_succ_lt_succ hfl)
    cases hty with
    | vma hds hal hrg =>
      exact reparses_vma hT hds hal hrg hch fuel
  case data t bytes outSize =>
    cases hty with
    | data hds hdt =>
      by_cases hdir : t.dir = .dirOut
      · have hdt' := hdt
        rw [DataOf, if_pos hdir] at hdt'
        obtain ⟨rfl, -⟩ := hdt'
        exact reparses_dataOut hds hdir hdt fuel
      · exact reparses_dataIn hds hdir hdt fuel
  case struct t inner ih =>
    simp only [eraseConsts, eraseAllConsts_eq, checkArg, checkArgs_eq, all_map, all_eq_true] at hch
    have hlt : countAll inner < fuel := lt_of_succ_lt_succ hfl
    cases hty with
    | @struct _ fields _ _ hds hir =>
      refine reparses_struct hT hpg hds hir hlt fun j a ha => ?_
      have hmem := mem_of_getElem? ha
      obtain ⟨f, hf, hty⟩ := getElem?_of_forall₂ hir ha
      exact slotReparses_field hf hty fun _ =>
        ih a hmem hty (hch a hmem) ((count_le_countAll hmem).trans_lt hlt)
  case array t inner ih =>
    simp only [eraseConsts, eraseAllConsts_eq, checkArg, checkArgs_eq, and_eq_true, all_map,
      all_eq_true] at hch
    have hlt : countAll inner < fuel := lt_of_succ_lt_succ hfl
    cases hty with
    | array hds hlen hir =>
      exact reparses_array hT hpg hds hlen hir hlt fun a ha =>
        ih a ha (hir a ha) (hch.2 a ha) ((count_le_countAll ha).trans_lt hlt)
  case union t option ih =>
    have hlt : option.count < fuel := lt_of_succ_lt_succ hfl
    cases hty with
    | union hds hfn hnm hon =>
      exact reparses_union hT hpg hds hfn hnm hon (ih hon hch hlt)
  case result t n =>
    cases hty with
    | result hds hval hop => exact reparses_result hds hval hop fuel

end Defaults

end Razzer.Decoding
