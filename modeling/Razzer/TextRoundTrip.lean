import Razzer.PrintedArgs
import Razzer.DecodeSound

/-!
Printed programs are fixed points of parsing and printing.

A program that was accepted is printed, and the text is accepted again. The program that comes out
of it has the same text: it is the printed one with other references.
-/

namespace Razzer.Decoding

open Args Progs Encoding TextParser Lines Minimize List Bool Prod

/-! ### Calls -/

variable {T : Target} {ρ : Ref → Ref} {e : Encoder} {c : Call} {fuel : ℕ} {s s' : St}
  {seen : List Ref} {st : Printer}

section Calls

def headText (used : Bool) (k : ℕ) (name : String) : List Char :=
  (if used then varName k ++ [' ', '=', ' '] else []) ++ name.toList

variable {name : String} {desc : SyscallDesc} {j : ℕ} {a : Arg} {as : List Arg}

lemma takes_parseHead (hnm : isIdentifier name.toList) (used : Bool) (k : ℕ) (s : St) :
    Takes parseHead s (headText used k name)
      (if used then some (varName k) else none, name.toList) s
      fun c => c == '(' := by
  simp only [isIdentifier, and_eq_true, not_eq_true', isEmpty_eq_false_iff, all_eq_true] at hnm
  have hidn := takes_ident hnm.1 hnm.2 s
  have hop : ∀ c : Char, (c == '(') → (!isIdent c && !isWs c) := by
    intro c hc
    rw [beq_iff_eq.1 hc]
    decide
  cases used with
  | false =>
    refine hidn.bind_nil (takes_char_bind_nil fun c hc => ?_) hop
    rw [if_neg (by rw [beq_iff_eq.1 hc]; decide)]
    exact takes_pure _ s _
  | true =>
    have hbl := takes_ident_blank (by simp [varName]) (isIdent_varName k) s
    have htx : headText true k name = varName k ++ [' '] ++ (['=', ' '] ++ name.toList) := by
      simp [headText]
    rw [htx]
    refine hbl.bind (takes_char_bind ?_) fun c _ => rfl
    rw [if_pos rfl]
    refine (takes_parse_blank '=' s).bind (v := name.toList) ?_ fun c _ => ?_
    · exact hidn.bind_nil (takes_pure _ s _) hop
    · obtain ⟨d, ds, hd⟩ := exists_cons_of_ne_nil hnm.1
      rw [hd] at hnm ⊢
      exact not_isWs_of_isIdent (hnm.2 d mem_cons_self)

lemma inline_headText (hnm : isIdentifier name.toList) (used : Bool) (k : ℕ) :
    Inline (headText used k name) := by
  simp only [isIdentifier, and_eq_true, all_eq_true] at hnm
  refine Inline.append ?_ (inline_of_isIdent hnm.2)
  split_ifs
  · exact (inline_of_isIdent (isIdent_varName k)).append (by simp [Inline])
  · simp [Inline]

lemma head_headText (hnm : isIdentifier name.toList) (used : Bool) (k : ℕ) :
    ∃ c t, headText used k name = c :: t ∧ isIdent c := by
  simp only [isIdentifier, and_eq_true, not_eq_true', isEmpty_eq_false_iff, all_eq_true] at hnm
  cases used with
  | false =>
    obtain ⟨d, ds, hd⟩ := exists_cons_of_ne_nil hnm.1
    exact ⟨d, ds, hd, hnm.2 d (by simp [hd])⟩
  | true => exact ⟨'r', _, rfl, by decide⟩

structure CallReady (T : Target) (ρ : Ref → Ref) (e : Encoder) (fuel : ℕ) (c : Call)
    (seen : List Ref) (st : Printer) (s : St) : Prop where
  typed : CallTyped T c
  checked : ∀ a ∈ c.args, checkArg T (eraseConsts a) = true
  fuel : countAll c.args < fuel
  ctx : Ctx ρ e none seen st s
  order : cloneable seen (c.args.flatMap argNodes) = true
  used : ∀ y x, (y, some x) ∈ c.nodes → e.isUsed x = true
  nodup : (c.nodes.map fst).Nodup
  new : ∀ n ∈ c.nodes, n.1 ∉ seen
  numbered : NumberedFrom ρ s.next c.nodes

def callVar (e : Encoder) (c : Call) (st : Printer) : Option ℕ :=
  if e.isUsed c.ret then some st.varSeq else none

def callPrinter (e : Encoder) (c : Call) (st : Printer) : Printer :=
  (if e.isUsed c.ret then st.bindVar "r" " = " c.ret else st).print (c.syscall.name ++ "(")

lemma text_callPrinter (c : Call) (st : Printer) :
    (callPrinter e c st).text =
      st.text ++ (headText (e.isUsed c.ret) st.varSeq c.syscall.name ++ ['(']) := by
  unfold callPrinter headText
  split_ifs
  · simp [Printer.print, Printer.bindVar, varName]
  · simp [Printer.print]

variable {α : Type}

lemma CallReady.args (h : CallReady T ρ e fuel c seen st s) :
    Ready ρ e (callVar e c st) seen (c.args.flatMap argNodes) (callPrinter e c st)
      { s with next := s.next + 1 } := by
  have hnd := h.nodup
  have hnm := h.numbered
  rw [nodes_call] at hnd
  rw [nodes_call, ← singleton_append, numberedFrom_append] at hnm
  refine ⟨⟨?_, fun x hx hus => ?_⟩, h.order, fun y x hx => h.used y x ?_,
    (nodup_cons.1 hnd).2, fun n hn => h.new n ?_, hnm.2⟩
  · intro k hk
    unfold callVar at hk
    unfold callPrinter
    split_ifs at hk ⊢
    · cases hk
      exact Nat.lt_succ_self _
  · obtain ⟨k, hlk, hlt, -, hna⟩ := h.ctx.bound x hx hus
    have hne : x ≠ c.ret := fun hx' => h.new (c.ret, none) (by simp [nodes_call]) (hx' ▸ hx)
    unfold callVar callPrinter
    split_ifs
    · refine ⟨k, (lookup_cons_of_ne hne).trans hlk, hlt.trans (Nat.lt_succ_self _), ?_, hna⟩
      exact fun h => hlt.ne (Option.some.inj h).symm
    · exact ⟨k, hlk, hlt, by simp, hna⟩
  · rw [nodes_call]
    exact mem_cons_of_mem _ hx
  · rw [nodes_call]
    exact mem_cons_of_mem _ hn

def callState (e : Encoder) (c : Call) (st : Printer) (ret : Ref) (s : St) : St :=
  if e.isUsed c.ret then { s with vars := (varName st.varSeq, some ret) :: s.vars } else s

structure CallDone (T : Target) (ρ : Ref → Ref) (e : Encoder) (fuel : ℕ) (c : Call)
    (seen : List Ref) (st st' : Printer) (s s' : St) (line : List Char) : Prop where
  print : serializeCall e c st = some st'
  text : st'.text = st.text ++ (line ++ ['\n'])
  inline : Inline line
  last : line.getLast? = some ')'
  parse : ∃ raw, parseLine T fuel s ⟨line, none⟩ = .ok (some raw, s', ⟨[], none⟩) ∧
    raw.call = some (reparseCall T ρ c)
  ctx : Ctx ρ e none (c.ret :: (((c.args.flatMap argNodes).map fst).reverse ++ seen)) st' s'
  next : s'.next = s.next + c.nodes.length
  uses : s'.uses = s.uses ++ newUses ρ c.nodes

lemma slotReparses_arg (hT : T.wf) (hpg : e.pageSize = T.pageSize)
    (h : CallReady T ρ e fuel c seen st s) (hds : T.syscallMap c.syscall.name.toList = some desc)
    (htd : List.Forall₂ (Typed T) desc.args c.args) (ha : c.args[j]? = some a) :
    a.isPad = false ∧ SlotReparses T ρ e (argSlot T fuel desc.args j) a := by
  have hwf := wf_syscall hT hds
  simp only [SyscallDesc.wf, and_eq_true, all_eq_true, not_eq_true'] at hwf
  have hmem := mem_of_getElem? ha
  obtain ⟨id, hid, hty⟩ := getElem?_of_forall₂ htd ha
  have hpad := hwf.2 id (mem_of_getElem? hid)
  have hpad' : a.isPad = false := by rw [hty.isPad_eq, hpad]
  refine ⟨hpad', ?_⟩
  rw [SlotReparses, if_neg (by simp [hpad']), argSlot, hid, Option.map_some, hpad]
  exact ⟨_, rfl, reparses_parseArg hT hpg ρ hty (h.checked a hmem)
    ((count_le_countAll hmem).trans_lt h.fuel)⟩

variable {st' : Printer}

lemma CallReady.ctx_after (h : CallReady T ρ e fuel c seen st s)
    (haf : After ρ e (callVar e c st) seen (c.args.flatMap argNodes) (callPrinter e c st) st' { s
      with next := s.next + 1 } s') :
    Ctx ρ e none (c.ret :: (((c.args.flatMap argNodes).map fst).reverse ++ seen)) st'
      (callState e c st (ρ c.ret) s') := by
  have hnd := h.nodup
  rw [nodes_call, map_cons, nodup_cons] at hnd
  refine ⟨by simp, fun x hx hus => ?_⟩
  rcases mem_cons.1 hx with rfl | hx
  · refine ⟨st.varSeq, ?_, haf.ctx.reserved _ (by simp [callVar, hus]), by simp, ?_⟩
    · rw [haf.frame _ hnd.1, callPrinter, if_pos hus]
      exact lookup_cons_self
    · rw [callState, if_pos hus]
      exact lookup_cons_self
  · obtain ⟨k, hlk, hlt, hk₀, hnm⟩ := haf.ctx.bound x hx hus
    refine ⟨k, hlk, hlt, by simp, ?_⟩
    unfold callState
    split_ifs with hret
    · have hne : varName k ≠ varName st.varSeq := by
        intro heq
        refine hk₀ ?_
        rw [callVar, if_pos hret, varName_injective heq]
      exact (lookup_cons_of_ne hne).trans hnm
    · exact hnm

lemma fresh_bind_eq (k : Ref → P α) (s : St) (t : Line) :
    (fresh >>= k) s t = k s.next { s with next := s.next + 1 } t := rfl

lemma close_bind_eq (k : Bool → P α) (s : St) :
    (do parse ')'; let atEnd ← eof; k atEnd) s ⟨[')'], none⟩ = k true s ⟨[], none⟩ := rfl

lemma makeDefaults_bind_eq {ids : List TypeId}
    (h : Takes (makeDefaults T ids) s [] as s' fun _ => true) (k : List Arg → P α) (t : Line) :
    (makeDefaults T ids >>= k) s t = k as s' t := by
  have hst := h ' ' [] rfl
  cases hst
  rfl

lemma parseLine_of_call {c : Char} {t : List Char} {call : RawCall} (hc : c ≠ '#')
    (h : parseCall T fuel s ⟨c :: t, none⟩ = .ok (call, s', ⟨[], none⟩)) :
    parseLine T fuel s ⟨c :: t, none⟩ = .ok (some call, s', ⟨[], none⟩) := by
  show (if c = '#' then pure none else do let call ← parseCall T fuel; return some call : P _) s
    ⟨c :: t, none⟩ = _
  rw [if_neg hc]
  simp only [Bind.bind, h]
  rfl

/-- **A call is read back from its line.** -/
theorem exists_callDone (hT : T.wf) (hpg : e.pageSize = T.pageSize)
    (h : CallReady T ρ e fuel c seen st s) :
    ∃ st' s' line, CallDone T ρ e fuel c seen st st' s s' line := by
  obtain ⟨desc, hds, hsy, hty⟩ := h.typed
  have hna : isIdentifier c.syscall.name.toList := by
    have hwf := wf_syscall hT hds
    simp only [SyscallDesc.wf, and_eq_true] at hwf
    exact hsy ▸ hwf.1
  have hsl := fun j a ha => slotReparses_arg (j := j) (a := a) hT hpg h hds hty ha
  have hpad : ∀ a ∈ c.args, a.isPad = false := by
    intro a ha
    obtain ⟨j, hj⟩ := mem_iff_getElem?.1 ha
    exact (hsl j a hj).1
  have hret : ρ c.ret = s.next := by
    have hnm := h.numbered
    rw [nodes_call, ← singleton_append, numberedFrom_append] at hnm
    simpa [NumberedFrom] using hnm.1
  obtain ⟨cs, st', s', s'', hpr, htx, hinl, hws, haf, htk, hdf⟩ :=
    exists_group hT hpg ')' (by decide) (by decide) (append_nil c.args).symm
      ((length_le_countAll _).trans_lt h.fuel) hty (fun j a ha => (hsl j a ha).2)
      (fun a ha => hpad a (mem_of_head? ha)) (fun a ha => hpad a (mem_of_getLast? ha))
      (by simp) h.args
  have hhd := takes_parseHead hna (e.isUsed c.ret) st.varSeq s
  refine ⟨st'.print ")\n", callState e c st (ρ c.ret) s'',
    headText (e.isUsed c.ret) st.varSeq c.syscall.name ++ '(' :: (cs ++ [')']), ?_, ?_, ?_, ?_, ?_,
    ?_, ?_, ?_⟩
  · rw [serializeCall]
    exact congrArg (Option.map _) hpr
  · rw [Printer.print, htx, text_callPrinter]
    simp
  · exact (inline_headText hna _ _).append
      (Inline.append (u := ['(']) (by simp [Inline]) (hinl.append (by simp [Inline])))
  · rw [← cons_append, ← append_assoc, getLast?_concat]
  · refine ⟨⟨desc, s.next, some (c.args.map (reparse T ρ)),
      (c.args.map fun a => Parsed.ofArg (reparse T ρ a)).flatMap (fun x => x.odd.walk) ++ []⟩,
    ?_, ?_⟩
    · obtain ⟨d, ds, hd⟩ : ∃ d ds, cs ++ [')'] = d :: ds := exists_cons_of_ne_nil (by simp)
      have hd' : (!isWs d) := by
        have := hws ' '
        rwa [hd] at this
      have hcl : parseCall T fuel s
          ⟨headText (e.isUsed c.ret) st.varSeq c.syscall.name ++ '(' :: (cs ++ [')']), none⟩ =
          .ok (⟨desc, s.next, some (c.args.map (reparse T ρ)),
            (c.args.map fun a => Parsed.ofArg (reparse T ρ a)).flatMap (fun x => x.odd.walk) ++ []⟩,
            callState e c st (ρ c.ret) s'', ⟨[], none⟩) := by
        have hop : ∀ k : Unit → P RawCall, (parse '(' >>= k) { s with next := s.next + 1 }
            ⟨'(' :: d :: ds, none⟩ = k () { s with next := s.next + 1 } ⟨d :: ds, none⟩ :=
          fun k => (takes_parse '(' _).bind_eq hd'
        rw [parseCall, hhd.bind_eq rfl]
        simp only [hds]
        rw [fresh_bind_eq, hd, hop, ← hd, htk.bind_eq (v := []) rfl, close_bind_eq]
        simp only [if_true, length_map]
        rw [makeDefaults_bind_eq (hdf fun _ => true), allArgs_map, Option.map_some,
          map_nil, append_nil, map_nil, callState, hret]
        split_ifs <;> rfl
      obtain ⟨c₀, t, hln, hidn⟩ := head_headText hna (e.isUsed c.ret) st.varSeq
      have hne : c₀ ≠ '#' := by
        rintro rfl
        exact absurd hidn (by decide)
      rw [hln, cons_append] at hcl ⊢
      exact parseLine_of_call hne hcl
    · rw [RawCall.call, Option.map_some, hsy, reparseCall_eq, hret]
  · have hctx := h.ctx_after haf
    exact ⟨hctx.reserved, hctx.bound⟩
  · have hnx : (callState e c st (ρ c.ret) s'').next = s''.next := by
      unfold callState
      split_ifs <;> rfl
    rw [hnx, haf.next, nodes_call, length_cons]
    exact Nat.add_right_comm s.next 1 _
  · have hus : (callState e c st (ρ c.ret) s'').uses = s''.uses := by
      unfold callState
      split_ifs <;> rfl
    rw [hus, haf.uses, nodes_call]
    rfl

end Calls

/-! ### Programs -/

section Programs

lemma Ctx.mono {k₀ : Option ℕ} {seen' : List Ref}
    (h : Ctx ρ e k₀ seen st s) (hsub : ∀ x ∈ seen', x ∈ seen) : Ctx ρ e k₀ seen' st s :=
  ⟨h.reserved, fun x hx => h.bound x (hsub x hx)⟩

variable {line : List Char}

lemma dropCR_of_last (h : line.getLast? = some ')') : dropCR line = line := by
  rw [dropCR, h, if_neg (by decide)]

structure ProgReady (T : Target) (ρ : Ref → Ref) (e : Encoder) (fuel : ℕ) (cs : List Call)
    (seen : List Ref) (st : Printer) (s : St) : Prop where
  typed : ∀ c ∈ cs, CallTyped T c
  checked : ∀ c ∈ cs, ∀ a ∈ c.args, checkArg T (eraseConsts a) = true
  fuel : ∀ c ∈ cs, countAll c.args < fuel
  ctx : Ctx ρ e none seen st s
  order : cloneable seen (cs.flatMap (visited T)) = true
  used : ∀ y x, (y, some x) ∈ cs.flatMap Call.nodes → e.isUsed x = true
  nodup : ((cs.flatMap Call.nodes).map fst).Nodup
  new : ∀ n ∈ cs.flatMap Call.nodes, n.1 ∉ seen
  numbered : NumberedFrom ρ s.next (cs.flatMap Call.nodes)

lemma visited_eq (c : Call) :
    visited T c = c.args.flatMap argNodes ++
      if (T.syscallMap c.syscall.name.toList).any SyscallDesc.hasRet then [(c.ret, none)]
      else [] := by
  rw [visited, allResults_eq, map_flatMap]
  rfl

variable {n : Ref × Option Ref}

lemma mem_nodes_of_mem_visited (h : n ∈ visited T c) : n ∈ c.nodes := by
  rw [visited_eq, mem_append] at h
  rw [nodes_call]
  rcases h with h | h
  · exact mem_cons_of_mem _ h
  · split_ifs at h
    · rw [mem_singleton.1 h]
      exact mem_cons_self
    · cases h

variable {cs : List Call} {st' : Printer}

lemma ProgReady.head (h : ProgReady T ρ e fuel (c :: cs) seen st s) :
    CallReady T ρ e fuel c seen st s := by
  have hor := h.order
  have hnd := h.nodup
  have hnm := h.numbered
  rw [flatMap_cons, visited_eq, append_assoc, cloneable_append, and_eq_true] at hor
  rw [flatMap_cons, map_append, nodup_append] at hnd
  rw [flatMap_cons, numberedFrom_append] at hnm
  exact ⟨h.typed c mem_cons_self, h.checked c mem_cons_self,
    h.fuel c mem_cons_self, h.ctx, hor.1,
    fun y x hx => h.used y x (mem_append_left _ hx), hnd.1,
    fun n hn => h.new n (mem_append_left _ hn), hnm.1⟩

lemma ProgReady.tail (h : ProgReady T ρ e fuel (c :: cs) seen st s)
    (hdn : CallDone T ρ e fuel c seen st st' s s' line) :
    ProgReady T ρ e fuel cs (((visited T c).map fst).reverse ++ seen) st' s' := by
  have hor := h.order
  have hnd := h.nodup
  have hnm := h.numbered
  rw [flatMap_cons, cloneable_append, and_eq_true] at hor
  rw [flatMap_cons, map_append, nodup_append] at hnd
  rw [flatMap_cons, numberedFrom_append, ← hdn.next] at hnm
  refine ⟨fun d hd => h.typed d (mem_cons_of_mem _ hd),
    fun d hd => h.checked d (mem_cons_of_mem _ hd),
    fun d hd => h.fuel d (mem_cons_of_mem _ hd), hdn.ctx.mono fun x hx => ?_, hor.2,
    fun y x hx => h.used y x (mem_append_right _ hx), hnd.2.1, fun n hn hmem => ?_,
    hnm.2⟩
  · rcases mem_append.1 hx with hx | hx
    · obtain ⟨n, hn, rfl⟩ := mem_map.1 (mem_reverse.1 hx)
      have hn := mem_nodes_of_mem_visited hn
      rw [nodes_call, mem_cons] at hn
      rcases hn with rfl | hn
      · exact mem_cons_self
      · refine mem_cons_of_mem _ (mem_append_left _ ?_)
        exact mem_reverse.2 (mem_map_of_mem hn)
    · exact mem_cons_of_mem _ (mem_append_right _ hx)
  · rcases mem_append.1 hmem with hmem | hmem
    · obtain ⟨m, hm, heq⟩ := mem_map.1 (mem_reverse.1 hmem)
      exact hnd.2.2 _ (mem_map_of_mem (mem_nodes_of_mem_visited hm)) _
        (mem_map_of_mem hn) heq
    · exact h.new n (mem_append_right _ hn) hmem

/-- Calls are printed as these lines, and are read back from them. -/
def Reread (T : Target) (ρ : Ref → Ref) (e : Encoder) (fuel : ℕ) (cs : List Call) (st : Printer)
    (s : St) (lines : List (List Char)) : Prop :=
  ∃ st' s' raw, serializeCalls e cs st = some st' ∧ st'.text = st.text ++ unlines lines ∧
    parseLines T fuel lines s = .ok (raw, s') ∧ allCalls raw = some (cs.map (reparseCall T ρ)) ∧
    s'.uses = s.uses ++ newUses ρ (cs.flatMap Call.nodes)

lemma reread_nil (T : Target) (ρ : Ref → Ref) (e : Encoder) (fuel : ℕ) (st : Printer) (s : St) :
    Reread T ρ e fuel [] st s [] :=
  ⟨st, s, [], rfl, by simp [unlines], rfl, rfl, by simp [newUses]⟩

lemma Reread.cons {ls : List (List Char)}
    (hdn : CallDone T ρ e fuel c seen st st' s s' line) (h : Reread T ρ e fuel cs st' s' ls) :
    Reread T ρ e fuel (c :: cs) st s (line :: ls) := by
  obtain ⟨st'', s'', raw, hpt, htx, hpr, hcl, hus⟩ := h
  obtain ⟨call, hln, hca⟩ := hdn.parse
  refine ⟨st'', s'', call :: raw, ?_, ?_, ?_, ?_, ?_⟩
  · rw [serializeCalls, hdn.print]
    exact hpt
  · rw [htx, hdn.text, unlines_cons]
    simp
  · rw [parseLines, hln]
    simp only [hpr]
    rfl
  · rw [allCalls, hca, hcl]
    rfl
  · rw [hus, hdn.uses, flatMap_cons, newUses, newUses, newUses, filterMap_append, append_assoc]

/-- **The calls of a program are read back from their lines**, and so are its first calls from the
first lines. -/
theorem exists_lines (hT : T.wf) (hpg : e.pageSize = T.pageSize)
    (h : ProgReady T ρ e fuel cs seen st s) :
    ∃ lines : List (List Char), lines.length = cs.length ∧
      (∀ line ∈ lines, Inline line ∧ line.getLast? = some ')') ∧
      ∀ k, Reread T ρ e fuel (cs.take k) st s (lines.take k) := by
  induction cs generalizing seen st s with
  | nil => exact ⟨[], rfl, by simp, fun k => by simpa using reread_nil T ρ e fuel st s⟩
  | cons c cs ih =>
    obtain ⟨st₁, s₁, line, hdn⟩ := exists_callDone hT hpg h.head
    obtain ⟨lines, hlen, hln, hrd⟩ := ih (h.tail hdn)
    refine ⟨line :: lines, congrArg (· + 1) hlen,
      forall_mem_cons.2 ⟨⟨hdn.inline, hdn.last⟩, hln⟩, fun k => ?_⟩
    cases k with
    | zero => exact reread_nil T ρ e fuel st s
    | succ k => exact (hrd k).cons hdn

end Programs

end Razzer.Decoding
