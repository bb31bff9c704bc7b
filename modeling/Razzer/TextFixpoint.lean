import Razzer.PrintedApart

/-!
Parsing and printing again.

What `Deserialize` accepts is sanitised after it has been validated. The sanitiser of a target
changes constants only, so all that is known about the parsed program holds of the sanitised one.
Its text is accepted again and printed the same exactly if nothing in the program is lost when it
is printed.
-/

namespace Razzer.Decoding

open Args Progs Encoding TextParser Lines Minimize List Bool
open Prod (fst)

/-! ### Sanitisers -/

/-- `SanitizeCall`: a second run changes nothing, only values of constants change, and it does not
depend on where the arguments are in memory. -/
structure Sanitizer where
  sanitize : Call → Call
  idempotent : ∀ c, sanitize (sanitize c) = sanitize c
  syscall : ∀ c, (sanitize c).syscall = c.syscall
  ret : ∀ c, (sanitize c).ret = c.ret
  consts : ∀ c, (sanitize c).args.map eraseConsts = c.args.map eraseConsts
  rename : ∀ (ρ : Ref → Ref), ρ.Injective → ∀ c,
    sanitize (renameCall ρ c) = renameCall ρ (sanitize c)

lemma forall₂_of_map_eq {α β γ : Type} {R : γ → α → Prop} {f : α → β} {xs : List γ} {as bs : List α}
    (h : Forall₂ R xs as) (hmap : bs.map f = as.map f)
    (hst : ∀ x a b, a ∈ as → R x a → f b = f a → R x b) : Forall₂ R xs bs := by
  induction h generalizing bs with
  | nil =>
    rw [map_nil, map_eq_nil_iff] at hmap
    exact hmap ▸ .nil
  | @cons x a xs as hx _ ih =>
    cases bs with
    | nil => cases hmap
    | cons b bs =>
      obtain ⟨hb, hbs⟩ := cons.inj hmap
      exact .cons (hst x a b mem_cons_self hx hb)
        (ih hbs fun x a b ha => hst x a b (mem_cons_of_mem _ ha))

variable {T : Target} {fuel : ℕ} {p : Prog} {S : Sanitizer}

lemma Typed.of_eraseConsts {id : TypeId} {a b : Arg} (h : Typed T id a)
    (hab : eraseConsts b = eraseConsts a) : Typed T id b := by
  induction a generalizing id b with
  | const t val =>
    cases b <;> simp only [eraseConsts, reduceCtorEq, Arg.const.injEq] at hab
    case const t' val' =>
      obtain ⟨rfl, hval⟩ := hab
      cases h with
      | const hds hpad =>
        refine .const hds fun hp => ?_
        rw [if_pos hp, if_pos hp] at hval
        rw [hval, hpad hp]
  | ptr t address res ih =>
    cases b <;> simp only [eraseConsts, reduceCtorEq, Arg.ptr.injEq] at hab
    case ptr t' address' res' =>
      obtain ⟨rfl, rfl, hres'⟩ := hab
      cases h with
      | ptr hds hres => exact .ptr hds (ih hres hres')
      | any hany hres => exact .any hany (ih hres hres')
  | struct t inner ih =>
    cases b <;> simp only [eraseConsts, reduceCtorEq, Arg.struct.injEq] at hab
    case struct t' inner' =>
      obtain ⟨rfl, hir'⟩ := hab
      rw [eraseAllConsts_eq, eraseAllConsts_eq] at hir'
      cases h with
      | struct hds hir =>
        exact .struct hds (forall₂_of_map_eq hir hir' fun x a b ha hx => ih a ha hx)
  | array t inner ih =>
    cases b <;> simp only [eraseConsts, reduceCtorEq, Arg.array.injEq] at hab
    case array t' inner' =>
      obtain ⟨rfl, hir'⟩ := hab
      rw [eraseAllConsts_eq, eraseAllConsts_eq] at hir'
      have hlen' : inner'.length = inner.length := by
        simpa using congrArg length hir'
      cases h with
      | array hds hlen hir =>
        refine .array hds (fun hfx => hlen'.trans (hlen hfx)) fun b hb => ?_
        obtain ⟨a, ha, hba⟩ := mem_map.1 (hir' ▸ mem_map_of_mem (f := eraseConsts) hb)
        exact ih a ha (hir a ha) hba.symm
  | union t option ih =>
    cases b <;> simp only [eraseConsts, reduceCtorEq, Arg.union.injEq] at hab
    case union t' option' =>
      obtain ⟨rfl, hop'⟩ := hab
      have hty : option'.type = option.type := by
        rw [← type_eraseConsts option', hop', type_eraseConsts]
      cases h with
      | union hds hfn hnm hop =>
        refine .union hds ?_ ?_ (ih hop hop')
        · rwa [Arg.fieldName, hty]
        · rwa [hty]
  | _ =>
    cases b <;> simp only [eraseConsts, reduceCtorEq] at hab
    rwa [hab]

section Sanitize

variable (S : Sanitizer)

lemma Sanitizer.nodes_eq (c : Call) : (S.sanitize c).nodes = c.nodes := by
  have har := congrArg (flatMap argNodes) (S.consts c)
  rw [flatMap_map, flatMap_map] at har
  simp only [argNodes_eraseConsts] at har
  rw [nodes_call, nodes_call, S.ret, har]

lemma Sanitizer.visited_eq (c : Call) : visited T (S.sanitize c) = visited T c := by
  have hnd := S.nodes_eq c
  rw [nodes_call, nodes_call, cons.injEq] at hnd
  rw [Decoding.visited_eq, Decoding.visited_eq, hnd.2, S.syscall, S.ret]

lemma Sanitizer.callTyped {c : Call} (h : CallTyped T c) : CallTyped T (S.sanitize c) := by
  obtain ⟨desc, hds, hsy, har⟩ := h
  refine ⟨desc, by rw [S.syscall, hds], by rw [S.syscall, hsy], ?_⟩
  exact forall₂_of_map_eq har (S.consts c) fun x a b _ hx => hx.of_eraseConsts

end Sanitize

/-! ### Accepted programs -/

/-- What is known about a program that `Deserialize` has returned. -/
structure Accepted (T : Target) (S : Sanitizer) (p : Prog) : Prop where
  typed : ∀ c ∈ p.calls, CallTyped T c
  sanitized : ∀ c ∈ p.calls, S.sanitize c = c
  nodup : (p.nodes.map Prod.fst).Nodup
  uses : ∀ n ∈ p.nodes, ∀ x, (x, n.1) ∈ p.uses ↔ n.2 = some x
  distinct : ((p.calls.flatMap (visited T)).map Prod.fst).Nodup
  order : cloneable [] (p.calls.flatMap (visited T)) = true
  closed : ∀ u ∈ p.uses, u.1 ∈ (p.calls.flatMap (visited T)).map Prod.fst →
    u.2 ∈ (p.calls.flatMap (visited T)).map Prod.fst

lemma ite_eq_ok {b : Bool} {x : Except Stop Prog} {e : Stop}
    (h : (if b then x else .error e) = .ok p) : b = true ∧ x = .ok p := by
  cases b
  · cases h
  · exact ⟨rfl, h⟩

variable {printed text : List Char} {c : Call} {n : Ref × Option Ref} {x y : Ref} {u : Ref × Ref}
  {k : ℕ}

/-- **What `Deserialize` accepts is well formed.** -/
theorem accepted_of_deserialize (hT : T.wf) (S : Sanitizer)
    (h : deserialize T S.sanitize fuel text = .ok p) : Accepted T S p := by
  unfold deserialize at h
  split at h
  · cases h
  case h_2 raw s hpr =>
    obtain ⟨hfit, h⟩ := ite_eq_ok h
    split at h
    · split at h <;> cases h
    case h_2 calls hcl =>
      obtain ⟨hvl, h⟩ := ite_eq_ok h
      cases h
      obtain ⟨-, hty, hmd⟩ := parseLines_sound hT (fun u hu => by cases hu) hpr hcl
      simp only [validate, and_eq_true, decide_eq_true_eq] at hvl
      obtain ⟨⟨⟨⟨-, hds⟩, hor⟩, -⟩, hcd⟩ := hvl
      have hnd : (calls.map S.sanitize).flatMap Call.nodes = calls.flatMap Call.nodes := by
        rw [flatMap_map]
        exact flatMap_congr fun c _ => S.nodes_eq c
      have hvs : (calls.map S.sanitize).flatMap (visited T) = calls.flatMap (visited T) := by
        rw [flatMap_map]
        exact flatMap_congr fun c _ => S.visited_eq c
      constructor
      case typed =>
        intro c hc
        obtain ⟨d, hd, rfl⟩ := mem_map.1 hc
        exact S.callTyped (hty d hd)
      case sanitized =>
        intro c hc
        obtain ⟨d, -, rfl⟩ := mem_map.1 hc
        exact S.idempotent d
      case nodup =>
        rw [Prog.nodes, hnd]
        exact hmd.nodup
      case uses =>
        intro n hn x
        rw [Prog.nodes, hnd] at hn
        rw [mem_toFinset]
        exact hmd.uses n hn x
      case distinct => rwa [hvs]
      case order => rwa [hvs]
      case closed => rwa [hvs]

/-- The program is as the validation wants it, apart from its constants. -/
def Checked (T : Target) (p : Prog) : Prop :=
  ∀ c ∈ p.calls, ∀ a ∈ c.args, checkArg T (eraseConsts a) = true

lemma checked_of_deserialize (h : deserialize T S.sanitize fuel text = .ok p) : Checked T p := by
  unfold deserialize at h
  split at h
  · cases h
  · obtain ⟨-, h⟩ := ite_eq_ok h
    split at h
    · split at h <;> cases h
    case h_2 calls _ =>
      obtain ⟨hvl, h⟩ := ite_eq_ok h
      cases h
      simp only [validate, and_eq_true, all_eq_true, checkArgs_eq] at hvl
      intro c hc a ha
      obtain ⟨d, hd, rfl⟩ := mem_map.1 hc
      obtain ⟨b, hb, hba⟩ := mem_map.1 (S.consts d ▸ mem_map_of_mem (f := eraseConsts) ha)
      rw [← hba]
      exact checkArg_eraseConsts (hvl.1.1.1.1 d hd b hb)

/-- The text of the program says all that has to be known about it: a return value without a type
has no users, null regions are optional, and the constants are as the validation wants them after
sanitising, too. -/
def printable (T : Target) (p : Prog) : Bool :=
  p.calls.all fun c =>
    ((T.syscallMap c.syscall.name.toList).any SyscallDesc.hasRet || !p.isUsed c.ret) &&
      checkArgs T c.args && allNullsOptional c.args

structure PrintableCall (T : Target) (p : Prog) (c : Call) : Prop where
  ret : (T.syscallMap c.syscall.name.toList).any SyscallDesc.hasRet = true ∨ p.isUsed c.ret = false
  checked : ∀ a ∈ c.args, checkArg T a = true
  nulls : ∀ a ∈ c.args, nullsOptional a = true

lemma printable_iff : printable T p ↔ ∀ c ∈ p.calls, PrintableCall T p c := by
  simp only [printable, all_eq_true, and_eq_true, or_eq_true, not_eq_true', checkArgs_eq,
    allNullsOptional_eq]
  exact forall₂_congr fun c _ => ⟨fun h => ⟨h.1.1, h.1.2, h.2⟩, fun h => ⟨⟨h.1, h.2⟩, h.3⟩⟩

lemma checked_of_printable (h : printable T p) : Checked T p := fun c hc a ha =>
  checkArg_eraseConsts ((printable_iff.1 h c hc).checked a ha)

lemma isUsed_iff (p : Prog) (x : Ref) : p.isUsed x ↔ ∃ y, (x, y) ∈ p.uses := by
  rw [Prog.isUsed, decide_eq_true_eq]
  constructor
  · rintro ⟨⟨x, y⟩, hu, rfl⟩
    exact ⟨y, hu⟩
  · rintro ⟨y, hu⟩
    exact ⟨(x, y), hu, rfl⟩

lemma mem_visited_or (h : n ∈ c.nodes) :
    n ∈ visited T c ∨
      n.1 = c.ret ∧ (T.syscallMap c.syscall.name.toList).any SyscallDesc.hasRet = false := by
  rw [nodes_call, mem_cons] at h
  rw [visited_eq, mem_append]
  rcases h with rfl | h
  · by_cases hret : (T.syscallMap c.syscall.name.toList).any SyscallDesc.hasRet
    · exact Or.inl (Or.inr (by simp [hret]))
    · exact Or.inr ⟨rfl, by simpa using hret⟩
  · exact Or.inl (Or.inl h)

/-- What is visited has its users in the program. -/
lemma Accepted.isUsed_iff_of_visited (h : Accepted T S p)
    (hn : n ∈ p.calls.flatMap (visited T)) : p.isUsed n.1 ↔ ∃ y, (y, some n.1) ∈ p.nodes := by
  rw [Decoding.isUsed_iff]
  constructor
  · rintro ⟨y, hy⟩
    obtain ⟨m, hm, rfl⟩ := mem_map.1 (h.closed _ hy (mem_map_of_mem hn))
    obtain ⟨d, hd, hmd⟩ := mem_flatMap.1 hm
    have hm : m ∈ p.nodes := mem_flatMap_of_mem hd (mem_nodes_of_mem_visited hmd)
    exact ⟨m.1, by rwa [← (h.uses m hm _).1 hy]⟩
  · rintro ⟨y, hy⟩
    exact ⟨y, (h.uses _ hy _).2 rfl⟩

lemma Accepted.isUsed_iff (h : Accepted T S p) (hpr : printable T p) (hn : n ∈ p.nodes) :
    p.isUsed n.1 ↔ ∃ y, (y, some n.1) ∈ p.nodes := by
  obtain ⟨c, hc, hnc⟩ := mem_flatMap.1 hn
  rcases mem_visited_or (T := T) hnc with hvs | ⟨hret, hnn⟩
  · exact h.isUsed_iff_of_visited (mem_flatMap_of_mem hc hvs)
  · have hus := (printable_iff.1 hpr c hc).ret.resolve_left (by simp [hnn])
    rw [← hret] at hus
    refine iff_of_false (by simp [hus]) ?_
    rintro ⟨y, hy⟩
    have hyu := (Decoding.isUsed_iff p n.1).2 ⟨y, (h.uses _ hy _).2 rfl⟩
    rw [hus] at hyu
    cases hyu

/-! ### The numbers of the second run -/

/-- The place of a reference in a list; references that are not in it come after it. -/
def numbering (ids : List Ref) (x : Ref) : Ref :=
  if x ∈ ids then ids.idxOf x else ids.length + x

lemma numbering_injective (ids : List Ref) : (numbering ids).Injective := by
  intro x y hxy
  unfold numbering at hxy
  split_ifs at hxy with hx hy hy
  · exact (idxOf_inj hx).1 hxy
  · exact absurd hxy (Nat.ne_of_lt ((idxOf_lt_length_of_mem hx).trans_le (Nat.le_add_right _ _)))
  · exact absurd hxy (Nat.ne_of_gt ((idxOf_lt_length_of_mem hy).trans_le (Nat.le_add_right _ _)))
  · exact Nat.add_left_cancel hxy

variable {nodes ns : List (Ref × Option Ref)}

lemma numberedFrom_numbering (h : (nodes.map fst).Nodup) :
    NumberedFrom (numbering (nodes.map fst)) 0 nodes := by
  refine ext_getElem (by simp) fun j hj _ => ?_
  rw [length_map] at hj
  have hj' : j < (nodes.map fst).length := by rwa [length_map]
  have hmem : nodes[j].1 ∈ nodes.map fst := mem_map_of_mem (getElem_mem hj)
  have hidx : (nodes.map fst).idxOf (nodes.map fst)[j] = j := h.idxOf_getElem j hj'
  rw [getElem_map] at hidx
  rw [getElem_map, getElem_range', numbering, if_pos hmem, hidx, Nat.one_mul, Nat.zero_add]

section Renamed

variable {ρ : Ref → Ref}

def reparsed (ρ : Ref → Ref) (p : Prog) : Prog :=
  ⟨p.calls.map (renameCall ρ), (newUses ρ p.nodes).toFinset⟩

lemma mem_newUses :
    u ∈ newUses ρ ns ↔ ∃ y x, (y, some x) ∈ ns ∧ (ρ x, ρ y) = u := by
  rw [newUses, mem_filterMap]
  constructor
  · rintro ⟨⟨y, r⟩, hn, hu⟩
    obtain ⟨x, rfl, hu⟩ := Option.map_eq_some_iff.1 hu
    exact ⟨y, x, hn, hu⟩
  · rintro ⟨y, x, hn, hu⟩
    exact ⟨(y, some x), hn, congrArg some hu⟩

lemma isUsed_reparsed (hρ : ρ.Injective) (h : Accepted T S p) (hpr : printable T p)
    (hn : n ∈ p.nodes) : (reparsed ρ p).isUsed (ρ n.1) = p.isUsed n.1 := by
  rw [Bool.eq_iff_iff, h.isUsed_iff hpr hn, Decoding.isUsed_iff]
  simp only [reparsed, mem_toFinset, mem_newUses, Prod.mk.injEq]
  constructor
  · rintro ⟨-, y, x, hy, hx, -⟩
    exact ⟨y, hρ hx ▸ hy⟩
  · rintro ⟨y, hy⟩
    exact ⟨ρ y, y, n.1, hy, rfl, rfl⟩

lemma visited_renameCall (c : Call) :
    visited T (renameCall ρ c) = (visited T c).map (renamePair ρ) := by
  have hnd := nodes_renameCall ρ c
  rw [nodes_call, nodes_call, map_cons, cons.injEq] at hnd
  rw [visited_eq, visited_eq, map_append, hnd.2]
  congr 1
  rw [apply_ite (map (renamePair ρ))]
  rfl

lemma visited_reparsed :
    (reparsed ρ p).calls.flatMap (visited T) =
      (p.calls.flatMap (visited T)).map (renamePair ρ) := by
  rw [reparsed, flatMap_map, map_flatMap]
  exact flatMap_congr fun c _ => visited_renameCall c

lemma mem_flatMap_nodes_of_visited (h : n ∈ p.calls.flatMap (visited T)) : n ∈ p.nodes := by
  obtain ⟨c, hc, hn⟩ := mem_flatMap.1 h
  exact mem_flatMap_of_mem hc (mem_nodes_of_mem_visited hn)

lemma mem_visited_of_use (h : (y, some x) ∈ p.nodes) :
    (y, some x) ∈ p.calls.flatMap (visited T) := by
  obtain ⟨c, hc, hn⟩ := mem_flatMap.1 h
  refine mem_flatMap_of_mem hc ?_
  rw [nodes_call, mem_cons] at hn
  rw [visited_eq]
  rcases hn with hn | hn
  · cases hn
  · exact mem_append_left _ hn

lemma validate_reparsed (hρ : ρ.Injective) (hch : ∀ c ∈ p.calls, checkArgs T c.args)
    (hds : ((p.calls.flatMap (visited T)).map fst).Nodup)
    (hor : cloneable [] (p.calls.flatMap (visited T))) :
    validate T (reparsed ρ p) := by
  have hids : ((reparsed ρ p).calls.flatMap (visited T)).map fst =
      ((p.calls.flatMap (visited T)).map fst).map ρ := by
    rw [visited_reparsed, map_map, map_map]
    rfl
  simp only [validate, and_eq_true, decide_eq_true_eq]
  refine ⟨⟨⟨⟨?_, ?_⟩, ?_⟩, ?_⟩, ?_⟩
  · rw [reparsed, all_map, all_eq_true]
    intro c hc
    rw [Function.comp_apply, renameCall, checkArgs_eq, all_map, ← hch c hc, checkArgs_eq]
    exact all_congr_of_mem fun a _ => checkArg_rename ρ T a
  · rw [hids]
    exact hds.map hρ
  · rw [visited_reparsed]
    exact (cloneable_rename hρ [] _).trans hor
  · rw [visited_reparsed, all_map, all_eq_true]
    rintro ⟨y, r⟩ hn
    cases r with
    | none => rfl
    | some x =>
      refine decide_eq_true (mem_toFinset.2 (mem_newUses.2 ?_))
      exact ⟨y, x, mem_flatMap_nodes_of_visited hn, rfl⟩
  · intro u hu _
    rw [reparsed, mem_toFinset, mem_newUses] at hu
    obtain ⟨y, x, hn, rfl⟩ := hu
    rw [hids]
    exact mem_map_of_mem (mem_map_of_mem (mem_visited_of_use hn))

lemma sanitize_reparsed (hρ : ρ.Injective) (h : ∀ c ∈ p.calls, S.sanitize c = c) :
    (reparsed ρ p).calls.map S.sanitize = (reparsed ρ p).calls := by
  rw [reparsed, map_map]
  refine map_congr_left fun c hc => ?_
  rw [Function.comp_apply, S.rename ρ hρ, h c hc]

end Renamed

/-! ### Printing is stable -/

lemma Accepted.progReady (h : Accepted T S p) (hch : Checked T p)
    (hfl : ∀ c ∈ p.calls, countAll c.args < fuel) :
    ProgReady T (numbering (p.nodes.map fst)) ⟨T.pageSize, p.isUsed⟩ fuel p.calls []
      ⟨[], [], 0⟩ {} where
  typed := h.typed
  checked := hch
  fuel := hfl
  ctx := ⟨by simp, by simp⟩
  order := h.order
  used y x hn := (Decoding.isUsed_iff p x).2 ⟨y, (h.uses _ hn x).2 rfl⟩
  nodup := h.nodup
  new := by simp
  numbered := numberedFrom_numbering h.nodup

def firstCalls (p : Prog) (k : ℕ) : Prog := { p with calls := p.calls.take k }

/-- The numbers of the results in the second run. -/
def renumber (p : Prog) : Ref → Ref := numbering (p.nodes.map Prod.fst)

lemma accepted_lines (hT : T.wf) (h : Accepted T S p) (hch : Checked T p)
    (hfl : ∀ c ∈ p.calls, countAll c.args < fuel) :
    ∃ lines : List (List Char), lines.length = p.calls.length ∧
      serialize T.pageSize p = some (unlines lines) ∧
      (∀ line ∈ lines, Inline line ∧ dropCR line = line) ∧
      ∀ k, Reread T (renumber p) ⟨T.pageSize, p.isUsed⟩ fuel (p.calls.take k) ⟨[], [], 0⟩ {}
        (lines.take k) := by
  obtain ⟨lines, hlen, hln, hrd⟩ := exists_lines hT rfl (h.progReady hch hfl)
  refine ⟨lines, hlen, ?_, fun line hli => ?_, hrd⟩
  · obtain ⟨st', -, -, hsr, htx, -⟩ := hrd p.calls.length
    rw [take_length] at hsr
    rw [← hlen, take_length] at htx
    rw [serialize, hsr, Option.map_some, htx]
    rfl
  · exact ⟨(hln line hli).1, dropCR_of_last (hln line hli).2⟩

lemma lines_unique {ls lines' : List (List Char)} (h : ∀ line ∈ ls, Inline line)
    (h' : ∀ line ∈ lines', Inline line) (heq : unlines ls = unlines lines') :
    ls = lines' := by
  rw [← rawLines_unlines h, heq, rawLines_unlines h']

/-- What is parsed from the text of the calls, before it is validated. -/
def rawProg (T : Target) (ρ : Ref → Ref) (p : Prog) : Prog :=
  ⟨p.calls.map (reparseCall T ρ), (newUses ρ p.nodes).toFinset⟩

lemma deserialize_of_parsed {ls : List (List Char)}
    (hrd : Reread T (renumber p) ⟨T.pageSize, p.isUsed⟩ fuel (p.calls.take k) ⟨[], [], 0⟩ {}
      ls) (hfit : linesFit text)
    (htx : parseLines T fuel (scanLines [] text) {} = parseLines T fuel ls {}) :
    deserialize T S.sanitize fuel text =
      let q := rawProg T (renumber p) (firstCalls p k)
      if validate T q then .ok { q with calls := q.calls.map S.sanitize }
      else .error (.error "the program is not valid") := by
  obtain ⟨-, s', raw, -, -, hpr, hcl, hus⟩ := hrd
  have hq : (⟨(p.calls.take k).map (reparseCall T (renumber p)), s'.uses.toFinset⟩ : Prog) =
      rawProg T (renumber p) (firstCalls p k) := by
    rw [hus]
    rfl
  rw [deserialize, fittingLines_eq hfit]
  simp only [htx, hpr, hfit, if_true, hcl, ← hq]

lemma rawProg_eq (h : ∀ c ∈ p.calls, ∀ a ∈ c.args, nullsOptional a = true) (ρ : Ref → Ref) :
    rawProg T ρ p = reparsed ρ p := by
  rw [rawProg, reparsed, map_congr_left fun c hc => ?_]
  rw [reparseCall, readBackCall_eq (h c hc)]

lemma deserialize_of_reread (h : Accepted T S p) (hpt : printable T p) {ls : List (List Char)}
    (hrd : Reread T (renumber p) ⟨T.pageSize, p.isUsed⟩ fuel (p.calls.take k) ⟨[], [], 0⟩ {}
      ls) (hfit : linesFit text)
    (htx : parseLines T fuel (scanLines [] text) {} = parseLines T fuel ls {}) :
    deserialize T S.sanitize fuel text = .ok (reparsed (renumber p) (firstCalls p k)) := by
  have hinj : (renumber p).Injective := numbering_injective _
  have hsp : p.calls = (firstCalls p k).calls ++ p.calls.drop k :=
    (take_append_drop k p.calls).symm
  have hpc : ∀ c ∈ (firstCalls p k).calls, c ∈ p.calls ∧ PrintableCall T p c := fun c hc =>
    ⟨mem_of_mem_take hc, printable_iff.1 hpt c (mem_of_mem_take hc)⟩
  have hds := h.distinct
  have hor := h.order
  rw [hsp, flatMap_append, map_append, nodup_append] at hds
  rw [hsp, flatMap_append, cloneable_append, and_eq_true] at hor
  have hch : ∀ c ∈ (firstCalls p k).calls, checkArgs T c.args := fun c hc => by
    rw [checkArgs_eq, all_eq_true]
    exact (hpc c hc).2.checked
  rw [deserialize_of_parsed hrd hfit htx, rawProg_eq fun c hc => (hpc c hc).2.nulls]
  dsimp only
  rw [if_pos (validate_reparsed hinj hch hds.1 hor.1),
    sanitize_reparsed hinj fun c hc => h.sanitized c (hpc c hc).1]

/-- **The lines of an accepted program.** The program is printed as lines without line feeds, and
with enough fuel its first calls are read from the first lines. -/
theorem exists_printed_lines (hT : T.wf) (h : Accepted T S p) (hch : Checked T p) :
    ∃ (ls : List (List Char)) (n : ℕ), ls.length = p.calls.length ∧
      serialize T.pageSize p = some (unlines ls) ∧
      (∀ line ∈ ls, Inline line ∧ dropCR line = line) ∧
      ∀ fuel ≥ n, ∀ k, Reread T (renumber p) ⟨T.pageSize, p.isUsed⟩ fuel (p.calls.take k)
        ⟨[], [], 0⟩ {} (ls.take k) := by
  obtain ⟨n, hn⟩ : ∃ n, ∀ c ∈ p.calls, countAll c.args < n := by
    refine ⟨(p.calls.map fun c => countAll c.args).sum + 1, fun c hc => ?_⟩
    exact Nat.lt_succ_of_le (le_sum_of_mem (mem_map_of_mem hc))
  obtain ⟨ls, hlen, hpd, hln, -⟩ := accepted_lines hT h hch hn
  refine ⟨ls, n, hlen, hpd, hln, fun fuel hge k => ?_⟩
  obtain ⟨lines', -, hpd', hln', hrd⟩ :=
    accepted_lines hT h hch fun c hc => (hn c hc).trans_le hge
  have hsm : ls = lines' :=
    lines_unique (fun line hli => (hln line hli).1)
      (fun line hli => (hln' line hli).1)
      (Option.some.inj (hpd.symm.trans hpd'))
  rw [hsm]
  exact hrd k

lemma serialize_reparsed (h : Accepted T S p) (hpr : printable T p) :
    serialize T.pageSize (reparsed (renumber p) p) = serialize T.pageSize p :=
  serialize_rename (numbering_injective _) T.pageSize rfl fun _ hn =>
    isUsed_reparsed (numbering_injective _) h hpr hn

lemma firstCalls_all (p : Prog) : firstCalls p p.calls.length = p := by
  rw [firstCalls, take_length]

/-! ### When the text stays the same -/

lemma visited_of_args (hc : c ∈ p.calls) (hn : n ∈ c.args.flatMap argNodes) :
    n ∈ p.calls.flatMap (visited T) := by
  refine mem_flatMap_of_mem hc ?_
  rw [visited_eq]
  exact mem_append_left _ hn

/-- Only a return value that has a type is visited. -/
lemma hasRet_of_visited {cs : List Call} (hnd : ((cs.flatMap Call.nodes).map fst).Nodup)
    (hc : c ∈ cs) (h : c.ret ∈ (cs.flatMap (visited T)).map fst) :
    (T.syscallMap c.syscall.name.toList).any SyscallDesc.hasRet = true := by
  have hsub : ∀ {d : Call} {x : Ref}, x ∈ (visited T d).map fst → x ∈ d.nodes.map fst := by
    intro d x hx
    obtain ⟨n, hn, rfl⟩ := mem_map.1 hx
    exact mem_map_of_mem (mem_nodes_of_mem_visited hn)
  have hret : ∀ d : Call, d.ret ∈ d.nodes.map fst := by
    intro d
    rw [nodes_call]
    exact mem_cons_self
  induction cs with
  | nil => cases hc
  | cons d cs ih =>
    rw [flatMap_cons, map_append, nodup_append] at hnd
    rw [flatMap_cons, map_append, mem_append] at h
    rcases mem_cons.1 hc with rfl | hc
    · rcases h with h | h
      · obtain ⟨n, hn, hnc⟩ := mem_map.1 h
        rw [visited_eq, mem_append] at hn
        rcases hn with hn | hn
        · have hnd := hnd.1
          rw [nodes_call, map_cons, nodup_cons] at hnd
          exact absurd (hnc ▸ mem_map_of_mem (f := fst) hn : c.ret ∈ _) hnd.1
        · split_ifs at hn with hhr
          · exact hhr
          · cases hn
      · obtain ⟨n, hn, hnc⟩ := mem_map.1 h
        obtain ⟨d, hd, hnd'⟩ := mem_flatMap.1 hn
        refine absurd rfl (hnd.2.2 _ (hret c) _ ?_)
        rw [← hnc]
        exact mem_map_of_mem (mem_flatMap_of_mem hd (mem_nodes_of_mem_visited hnd'))
    · rcases h with h | h
      · refine absurd rfl (hnd.2.2 _ (hsub h) _ ?_)
        obtain ⟨n, hn, hnc⟩ := mem_map.1 (hret c)
        rw [← hnc]
        exact mem_map_of_mem (mem_flatMap_of_mem hc hn)
      · exact ih hnd.2.1 hc h

/-- A reference goes to a result that comes before. -/
lemma mem_of_cloneable {l : List (Ref × Option Ref)} (h : cloneable [] l)
    (hn : (y, some x) ∈ l) : x ∈ l.map fst := by
  obtain ⟨before, after, rfl⟩ := append_of_mem hn
  rw [cloneable_append, and_eq_true, cloneable, and_eq_true, decide_eq_true_eq, append_nil,
    mem_reverse] at h
  rw [map_append]
  exact mem_append_left _ h.2.1

section Converse

/-- The program that is read from the text, with the references of the first run. -/
def readProg (T : Target) (S : Sanitizer) (p : Prog) : Prog :=
  ⟨p.calls.map fun c => S.sanitize (readBackCall T c), (newUses id p.nodes).toFinset⟩

lemma isUsed_readProg (x : Ref) :
    (readProg T S p).isUsed x ↔ ∃ y, (y, some x) ∈ p.nodes := by
  rw [Decoding.isUsed_iff]
  simp only [readProg, mem_toFinset, mem_newUses, Prod.mk.injEq, id]
  constructor
  · rintro ⟨-, y, x, hn, rfl, -⟩
    exact ⟨y, hn⟩
  · rintro ⟨y, hn⟩
    exact ⟨y, y, x, hn, rfl, rfl⟩

lemma serialize_readProg {ρ : Ref → Ref} (hρ : ρ.Injective) :
    serialize T.pageSize ⟨(rawProg T ρ p).calls.map S.sanitize, (rawProg T ρ p).uses⟩ =
      serialize T.pageSize (readProg T S p) := by
  refine serialize_rename hρ T.pageSize ?_ fun n _ => ?_
  · simp only [rawProg, readProg, map_map]
    refine map_congr_left fun c _ => ?_
    exact S.rename ρ hρ (readBackCall T c)
  · rw [Bool.eq_iff_iff, isUsed_readProg, Decoding.isUsed_iff]
    simp only [rawProg, mem_toFinset, mem_newUses, Prod.mk.injEq]
    constructor
    · rintro ⟨-, y, x, hy, hx, -⟩
      exact ⟨y, hρ hx ▸ hy⟩
    · rintro ⟨y, hy⟩
      exact ⟨ρ y, y, n.1, hy, rfl, rfl⟩

/-- **What a text that stays the same says.** If the program that is read from the text is printed
as that text, no return value without a type is used and no null region was replaced. -/
lemma printable_of_serialize (hT : T.wf) (h : Accepted T S p)
    (hvl : validate T (rawProg T (renumber p) p))
    (hpr : serialize T.pageSize p = some printed)
    (hrd : serialize T.pageSize (readProg T S p) = some printed) : printable T p := by
  have hps := pageSize_ne_zero (e := ⟨T.pageSize, p.isUsed⟩) hT rfl
  obtain ⟨st, hst, htx⟩ := Option.map_eq_some_iff.1 hpr
  obtain ⟨st', hst', htx'⟩ := Option.map_eq_some_iff.1 hrd
  have hR : Forall₂ (CallTwin T) p.calls (readProg T S p).calls := by
    refine forall₂_map_right_iff.2 (forall₂_same.2 fun c _ => ?_)
    exact ⟨S.syscall _, S.ret _, S.consts _⟩
  have hnm : ∀ c ∈ p.calls, isIdentifier c.syscall.name.toList := by
    intro c hc
    obtain ⟨desc, hds, hsy, -⟩ := h.typed c hc
    have hwf := wf_syscall hT hds
    simp only [SyscallDesc.wf, and_eq_true] at hwf
    exact hsy ▸ hwf.1
  have hall := parallel_calls hps hps hR hnm (fun c hc n hn => ?_) hst hst' (htx.trans htx'.symm)
  · have hnl : ∀ c ∈ p.calls, ∀ a ∈ c.args, nullsOptional a := fun c hc => (hall c hc).2
    rw [rawProg_eq hnl, validate] at hvl
    simp only [and_eq_true, reparsed, all_map, all_eq_true, Function.comp_apply] at hvl
    refine printable_iff.2 fun c hc => ⟨?_, fun a ha => ?_, hnl c hc⟩
    · by_cases hus : p.isUsed c.ret
      · -- The result has a user in the text, so it is visited.
        have hus' : (readProg T S p).isUsed c.ret := (hall c hc).1.symm.trans hus
        obtain ⟨y, hy⟩ := (isUsed_readProg _).1 hus'
        have hmem := mem_of_cloneable h.order (mem_visited_of_use hy)
        exact .inl (hasRet_of_visited h.nodup hc hmem)
      · exact .inr (by simpa using hus)
    · have hch := hvl.1.1.1.1 c hc
      rw [renameCall, checkArgs_eq, all_map, all_eq_true] at hch
      rw [← checkArg_rename (renumber p) T a]
      exact hch a ha
  · rw [Bool.eq_iff_iff, isUsed_readProg]
    exact (h.isUsed_iff_of_visited (visited_of_args hc hn)).symm

end Converse

/-- **Printed programs are fixed points.** The text of an accepted program is accepted, and the
program that is read from it has the same text, exactly if the text says all that has to be known
about the program. -/
theorem serialize_deserialize_iff (T : Target) (hT : T.wf = true) (S : Sanitizer) (fuel : ℕ)
    (text : List Char) (p : Prog) (h : deserialize T S.sanitize fuel text = .ok p) :
    ∃ printed, serialize T.pageSize p = some printed ∧
      (linesFit printed = true → ((∃ q n, (∀ fuel' ≥ n,
        deserialize T S.sanitize fuel' printed = .ok q) ∧
        serialize T.pageSize q = some printed) ↔ printable T p = true)) := by
  have hac := accepted_of_deserialize hT S h
  obtain ⟨lines, n, hlen, hpr, hln, hrd⟩ :=
    exists_printed_lines hT hac (checked_of_deserialize h)
  refine ⟨unlines lines, hpr, fun hfit => ?_⟩
  have hsc : scanLines [] (unlines lines) = lines :=
    scanLines_unlines (fun line hli => (hln line hli).1) fun line hli => (hln line hli).2
  have hall : ∀ fuel' ≥ n, Reread T (renumber p) ⟨T.pageSize, p.isUsed⟩ fuel'
      (p.calls.take p.calls.length) ⟨[], [], 0⟩ {} lines := by
    intro fuel' hge
    have hrd := hrd fuel' hge p.calls.length
    rwa [← hlen, take_length, hlen] at hrd
  constructor
  · rintro ⟨q, m, hq, hsq⟩
    have hdq := hq (max n m) (le_max_right _ _)
    rw [deserialize_of_parsed (hall _ (le_max_left _ _)) hfit (by rw [hsc]), firstCalls_all] at hdq
    obtain ⟨hvl, hdq⟩ := ite_eq_ok hdq
    cases hdq
    rw [serialize_readProg (ρ := renumber p) (numbering_injective _)] at hsq
    exact printable_of_serialize hT hac hvl hpr hsq
  · intro hprint
    refine ⟨reparsed (renumber p) p, n, fun fuel' hge => ?_, ?_⟩
    · have hq := deserialize_of_reread hac hprint (hall fuel' hge) hfit (by rw [hsc])
      rwa [firstCalls_all] at hq
    · rw [serialize_reparsed hac hprint, hpr]

/-! ### A small target -/

def keepCalls : Sanitizer where
  sanitize c := c
  idempotent _ := rfl
  syscall _ := rfl
  ret _ := rfl
  consts _ := rfl
  rename _ _ _ := rfl

/-- Two calls with a resource and a message with a buffer in it, and two without results. -/
def smallTarget : Target where
  types := [
    .const ⟨⟨"int64", "len", 8, .dirIn, false, false⟩, .int, false, {}⟩,
    .vma ⟨⟨"vma", "addr", 8, .dirIn, false, false⟩⟩,
    .array ⟨⟨"ANYUNION", "", 0, .dirIn, false, true⟩, .randLen, 0, 0⟩ 0,
    .resource ⟨⟨"fd", "fd", 4, .dirIn, false, false⟩, 0xffffffffffffffff⟩,
    .buffer ⟨⟨"buf", "buf", 0, .dirIn, false, true⟩, .blobRand, 0⟩,
    .struct ⟨⟨"msg", "msg", 0, .dirIn, false, true⟩, 0⟩ [0, 4, 3],
    .ptr ⟨⟨"ptr", "msg", 8, .dirIn, false, false⟩, false⟩ 5]
  anyArray := 2
  anyPtrPtr := ⟨⟨"ptr", "", 8, .dirIn, true, false⟩, true⟩
  anyPtr64 := ⟨⟨"ptr64", "", 8, .dirIn, true, false⟩, true⟩
  ptrSize := 8
  pageSize := 4096
  numPages := 4096
  maxAlloc := 2 ^ 48
  syscalls := [⟨⟨0, "open"⟩, [], true⟩, ⟨⟨1, "send"⟩, [3, 6], false⟩, ⟨⟨2, "sync"⟩, [], false⟩,
    ⟨⟨3, "mmap"⟩, [1, 0], false⟩]

def sampleText : List Char :=
  "r5 = open()\nsend(r5, &(0x7f0000001000)=\x7b0x5, \"6162\", r5\x7d)\n".toList

/-- A message with a reference in it is printed, read and printed again. -/
theorem serialize_deserialize_message : ∃ p,
    deserialize smallTarget keepCalls.sanitize 20 sampleText = .ok p ∧
      printable smallTarget p = true ∧ p.calls.length = 2 ∧
      ∃ printed, serialize smallTarget.pageSize p = some printed ∧
        (linesFit printed = true → ∃ q n, (∀ fuel' ≥ n,
          deserialize smallTarget keepCalls.sanitize fuel' printed = .ok q) ∧
          serialize smallTarget.pageSize q = some printed) := by
  have hrun : (deserialize smallTarget keepCalls.sanitize 20 sampleText).toOption.any
      (fun p => printable smallTarget p && p.calls.length == 2) = true := by decide +kernel
  cases h : deserialize smallTarget keepCalls.sanitize 20 sampleText with
  | error e =>
    rw [h] at hrun
    cases hrun
  | ok p =>
    rw [h] at hrun
    obtain ⟨hpr, hlen⟩ := Bool.and_eq_true_iff.1 hrun
    obtain ⟨printed, hser, hiff⟩ := serialize_deserialize_iff smallTarget (by decide +kernel)
      keepCalls 20 sampleText p h
    exact ⟨p, rfl, hpr, eq_of_beq hlen, printed, hser, fun hfit => (hiff hfit).2 hpr⟩

def reprint (T : Target) (S : Sanitizer) (fuel : ℕ) (text : List Char) : Option (List Char) :=
  (deserialize T S.sanitize fuel text).toOption.bind (serialize T.pageSize)

/-- **A dropped reference changes the text.** The region of `mmap` has no argument, so the
reference at its place is read and dropped, but it stays a user of the first call. The name `r0`
is printed, but nothing refers to it in the printed text, and it is not printed again. -/
theorem dropped_reference_not_printed_again : smallTarget.wf = true ∧ ∃ printed,
    reprint smallTarget keepCalls 20
      "r0 = sync()\nmmap(&(0x7f0000000000/0x1000)=r0, 0x1000)\n".toList = some printed ∧
    linesFit printed = true ∧
    printed = "r0 = sync()\nmmap(&(0x7f0000000000/0x1000)=nil, 0x1000)\n".toList ∧
    reprint smallTarget keepCalls 20 printed =
      some "sync()\nmmap(&(0x7f0000000000/0x1000)=nil, 0x1000)\n".toList := by
  refine ⟨by decide +kernel,
    "r0 = sync()\nmmap(&(0x7f0000000000/0x1000)=nil, 0x1000)\n".toList, ?_, ?_, rfl, ?_⟩
  · decide +kernel
  · decide +kernel
  · decide +kernel

end Razzer.Decoding
