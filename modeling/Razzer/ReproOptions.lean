import Razzer.Runes
import Razzer.Scanf

/-!
The options of a reproducer, of `options.go`: how they are printed and how they are scanned again.

The text has the fields in order, each behind its name. It is scanned with a format that does not
have `EnableCgroups`, and if that fails with the one that has. An address is printed in decimal and
scanned in hexadecimal. The text is one of bytes, and its characters are scanned.
-/

namespace Razzer.ReproOptions

open Runes Scanf Digits Nat Prod List
open List (forall_mem_cons)

structure Options where
  threaded : Bool
  collide : Bool
  isRepeat : Bool
  procs : Int64
  sandbox : List UInt8
  fault : Bool
  faultCall : Int64
  faultNth : Int64
  enableTun : Bool
  useTmpDir : Bool
  enableCgroups : Bool
  handleSegv : Bool
  waitRepeat : Bool
  debug : Bool
  repro : Bool
  raceIndex0 : Int64
  raceIndex1 : Int64
  raceAddr0 : UInt32
  raceAddr1 : UInt32
  race : Bool
  deriving DecidableEq

inductive Value
  | bool (b : Bool)
  | int (z : Int64)
  | str (s : List UInt8)
  | uint (n : UInt32)

def Options.front (opts : Options) : List (String × Value) :=
  [("Threaded", .bool opts.threaded), ("Collide", .bool opts.collide),
    ("Repeat", .bool opts.isRepeat), ("Procs", .int opts.procs), ("Sandbox", .str opts.sandbox),
    ("Fault", .bool opts.fault), ("FaultCall", .int opts.faultCall),
    ("FaultNth", .int opts.faultNth), ("EnableTun", .bool opts.enableTun),
    ("UseTmpDir", .bool opts.useTmpDir)]

def Options.back (opts : Options) : List (String × Value) :=
  [("HandleSegv", .bool opts.handleSegv), ("WaitRepeat", .bool opts.waitRepeat),
    ("Debug", .bool opts.debug), ("Repro", .bool opts.repro), ("RaceIndex0", .int opts.raceIndex0),
    ("RaceIndex1", .int opts.raceIndex1), ("RaceAddr0", .uint opts.raceAddr0),
    ("RaceAddr1", .uint opts.raceAddr1), ("Race", .bool opts.race)]

def Options.fields (opts : Options) : List (String × Value) :=
  opts.front ++ ("EnableCgroups", .bool opts.enableCgroups) :: opts.back

/-! ### Printing -/

def Value.text : Value → List UInt8
  | .bool b => encode (if b then "true" else "false").toList
  | .int z => encode (decText z.toInt)
  | .str s => s
  | .uint n => encode (toDigits 10 n.toNat)

def fieldText (f : String × Value) : List UInt8 := encode (f.1.toList ++ [':']) ++ f.2.text

def fieldsText (fs : List (String × Value)) : List UInt8 :=
  fs.flatMap fun f => encode [' '] ++ fieldText f

def Options.serialize (opts : Options) : List UInt8 :=
  encode ['\x7b'] ++ (fieldText ("Threaded", .bool opts.threaded) ++
    (fieldsText opts.fields.tail ++ encode ['\x7d']))

/-! ### Scanning -/

inductive Verb
  | t | d | s | x

def accept (cs : String) : Scan Bool := fun input =>
  match input with
  | [] => .ok (false, [])
  | c :: rest => if cs.toList.contains c then .ok (true, rest) else .ok (false, c :: rest)

/-- The rest of the name of a truth value. There may be none, but not a part of it. -/
def nameRest : List String → Scan Bool
  | [] => pure true
  | cs :: css => do if ← accept cs then nameRest css else pure false

/-- `%t`. -/
def truth : Scan Bool := do
  start
  if ← accept "1" then pure true
  else if ← accept "tT" then
    if ← accept "rR" then if ← nameRest ["uU", "eE"] then pure true else fun _ => .error .mismatch
    else pure true
  else if ← accept "fF" then
    if ← accept "aA" then
      if ← nameRest ["lL", "sS", "eE"] then pure false else fun _ => .error .mismatch
    else pure false
  else fun input => .ok (false, input.tail)

def verb : Verb → Scan Value
  | .t => do return .bool (← truth)
  | .d => do return .int (Int64.ofInt (← dec))
  | .s => do return .str (encode (← word))
  | .x => do return .uint (UInt32.ofNat (← hex 32))

def field (f : String × Verb) : Scan Value := do
  literal (f.1.toList ++ [':'])
  verb f.2

def scanFields : List (String × Verb) → Scan (List Value)
  | [] => pure []
  | f :: fs => do
    blank
    let v ← field f
    let vs ← scanFields fs
    return v :: vs

def frontFormat : List (String × Verb) :=
  [("Collide", .t), ("Repeat", .t), ("Procs", .d), ("Sandbox", .s), ("Fault", .t),
    ("FaultCall", .d), ("FaultNth", .d), ("EnableTun", .t), ("UseTmpDir", .t)]

def backFormat : List (String × Verb) :=
  [("HandleSegv", .t), ("WaitRepeat", .t), ("Debug", .t), ("Repro", .t), ("RaceIndex0", .d),
    ("RaceIndex1", .d), ("RaceAddr0", .x), ("RaceAddr1", .x), ("Race", .t)]

def names : List String :=
  "Threaded" :: (frontFormat ++ ("EnableCgroups", Verb.t) :: backFormat).map fst

def format (fs : List (String × Verb)) : Scan (List Value) := do
  literal ['\x7b']
  let v ← field ("Threaded", .t)
  let vs ← scanFields fs
  literal ['\x7d']
  return v :: vs

/-- The fields in order. The sandbox may have been left out when it was printed. -/
def ofValues : List Value → Except Fault Options
  | [.bool threaded, .bool collide, .bool isRepeat, .int procs, .str sandbox, .bool fault,
      .int faultCall, .int faultNth, .bool enableTun, .bool useTmpDir, .bool enableCgroups,
      .bool handleSegv, .bool waitRepeat, .bool debug, .bool repro, .int raceIndex0,
      .int raceIndex1, .uint raceAddr0, .uint raceAddr1, .bool race] =>
    let sandbox := if sandbox = encode "empty".toList then [] else sandbox
    .ok ⟨threaded, collide, isRepeat, procs, sandbox, fault, faultCall, faultNth, enableTun,
      useTmpDir, enableCgroups, handleSegv, waitRepeat, debug, repro, raceIndex0, raceIndex1,
      raceAddr0, raceAddr1, race⟩
  | _ => .error .mismatch

/-- `bytes.Replace`, with so many bytes still to be skipped. -/
def replace (old new : List UInt8) : ℕ → List UInt8 → List UInt8
  | _, [] => []
  | skip + 1, _ :: bs => replace old new skip bs
  | 0, b :: bs =>
    if old.isPrefixOf (b :: bs) then new ++ replace old new (old.length - 1) bs
    else b :: replace old new 0 bs

def deserializeOptions (data : List UInt8) : Except Fault Options :=
  let data := replace (encode "Sandbox: ".toList) (encode "Sandbox:empty ".toList) 0 data
  let data := runes data
  match format (frontFormat ++ backFormat) data with
  | .ok (vs, _) => ofValues (vs.take 10 ++ .bool false :: vs.drop 10)
  | .error _ =>
    match format (frontFormat ++ ("EnableCgroups", .t) :: backFormat) data with
    | .ok (vs, _) => ofValues vs
    | .error e => .error e

/-! ### The sandbox that has no name -/

def space : UInt8 := 0x20

def key : List UInt8 := encode "Sandbox:".toList

def empty : List UInt8 := encode "empty".toList

abbrev old : List UInt8 := encode "Sandbox: ".toList

abbrev new : List UInt8 := encode "Sandbox:empty ".toList

/-- Part of a text between blanks. -/
def Unbroken (w : List UInt8) : Prop := ∀ b ∈ w, b ≠ space

variable {w rest : List UInt8} {fs : List (String × Value)} {f : String × Value} {v : Value}

lemma key_eq : key = [83, 97, 110, 100, 98, 111, 120, 58] := by decide +kernel

lemma empty_eq : empty = [101, 109, 112, 116, 121] := by decide +kernel

lemma unbroken_key : Unbroken key := by simp [Unbroken, key_eq, space]

lemma old_eq : old = key ++ [space] := by decide +kernel

lemma new_eq : new = key ++ (empty ++ [space]) := by decide +kernel

lemma encode_blank (rest : List UInt8) : encode [' '] ++ rest = space :: rest := rfl

lemma takeWhile_unbroken (rest : List UInt8) (hw : Unbroken w) :
    (w ++ space :: rest).takeWhile (· ≠ space) = w := by
  rw [takeWhile_append_of_pos (by simpa [Unbroken] using hw)]
  simp

lemma isPrefixOf_old (rest : List UInt8) (hw : Unbroken w) :
    old.isPrefixOf (w ++ space :: rest) ↔ w = key := by
  rw [ isPrefixOf_iff_prefix, old_eq]
  refine ⟨fun ⟨t, ht⟩ => ?_, fun h => ⟨rest, by rw [h]; simp⟩⟩
  rw [append_assoc, singleton_append] at ht
  rw [← takeWhile_unbroken rest hw, ← ht, takeWhile_unbroken t unbroken_key]

lemma replace_skip (u rest : List UInt8) :
    replace old new u.length (u ++ rest) = replace old new 0 rest := by
  induction u with
  | nil => rfl
  | cons b u ih => exact ih

lemma replace_word (hw : Unbroken w) : replace old new 0 (w ++ space :: rest) =
    w ++ ((if key <:+ w then empty else []) ++ space :: replace old new 0 rest) := by
  induction w with
  | nil =>
    have hold : ¬ old.isPrefixOf (space :: rest) := by
      refine (isPrefixOf_old (w := []) rest (by simp [Unbroken])).not.2 ?_
      simp [key_eq]
    rw [nil_append, replace, if_neg hold, if_neg (by simp [key_eq])]
    rfl
  | cons b w ih =>
    obtain ⟨-, hw'⟩ := forall_mem_cons.1 hw
    have hpre := isPrefixOf_old rest hw
    rw [cons_append] at hpre ⊢
    rw [replace]
    by_cases hkey : b :: w = key
    · have hlen : old.length - 1 = (w ++ [space]).length := by
        rw [old_eq, ← hkey]
        simp
      have hsk := replace_skip (w ++ [space]) rest
      rw [append_assoc, singleton_append] at hsk
      rw [if_pos (hpre.2 hkey), if_pos (hkey ▸ suffix_rfl), hlen, hsk, new_eq, hkey]
      simp
    · have hsf : key <:+ b :: w ↔ key <:+ w := by
        rw [suffix_cons_iff, or_iff_right (Ne.symm hkey)]
      simp only [if_neg (mt hpre.1 hkey), ih hw', hsf]
      rfl

lemma replace_unbroken (hw : Unbroken w) : replace old new 0 w = w := by
  induction w with
  | nil => rfl
  | cons b w ih =>
    have hpre : ¬ old.isPrefixOf (b :: w) := by
      rw [ isPrefixOf_iff_prefix, old_eq]
      exact fun h => hw space (h.subset (by simp)) rfl
    rw [replace, if_neg hpre, ih (forall_mem_cons.1 hw).2]

def Kept (w : List UInt8) : Prop := Unbroken w ∧ ¬ key <:+ w

lemma replace_fields (hw : Kept w) (hfs : ∀ f ∈ fs, Kept (fieldText f)) :
    replace old new 0 (w ++ (fieldsText fs ++ space :: rest)) =
      w ++ (fieldsText fs ++ space :: replace old new 0 rest) := by
  induction fs generalizing w with
  | nil => exact (replace_word hw.1).trans (by rw [if_neg hw.2]; rfl)
  | cons f fs ih =>
    obtain ⟨hf, hfs⟩ := forall_mem_cons.1 hfs
    have hcn : ∀ rest, fieldsText (f :: fs) ++ space :: rest =
        space :: (fieldText f ++ (fieldsText fs ++ space :: rest)) := by
      intro rest
      rw [fieldsText, flatMap_cons, append_assoc, append_assoc, encode_blank]
      rfl
    rw [hcn, hcn, replace_word hw.1, if_neg hw.2, ih hf hfs]
    rfl

/-- The bytes of characters other than blank and colon. -/
lemma forall_mem_encode {cs : List Char} (h : ∀ c ∈ cs, c ≠ ' ' ∧ c ≠ ':') :
    ∀ b ∈ encode cs, b ≠ space ∧ b ≠ 58 := by
  have hne : ∀ c : Char, c.toNat < 128 → (∀ d ∈ cs, d ≠ c) → UInt8.ofNat c.toNat ∉ encode cs := by
    intro c hc hcs hmem
    have hru := mem_runes_of_mem hc hmem
    rw [runes_encode] at hru
    exact hcs c hru rfl
  refine fun b hb => ⟨?_, ?_⟩
  · rintro rfl
    exact hne ' ' (by decide) (fun c hc => (h c hc).1) hb
  · rintro rfl
    exact hne ':' (by decide) (fun c hc => (h c hc).2) hb

variable {name : String}

lemma kept_field (hnm : ∀ c ∈ name.toList, c ≠ ' ' ∧ c ≠ ':') (hv : ∀ s, v ≠ .str s) :
    Kept (fieldText (name, v)) := by
  have htx : ∃ cs, v.text = encode cs ∧ cs ≠ [] ∧ ∀ c ∈ cs, c ≠ ' ' ∧ c ≠ ':' := by
    have hdg : ∀ n, ∀ c ∈ toDigits 10 n, c ≠ ' ' ∧ c ≠ ':' :=
      forall_mem_toDigits (by omega) (by decide)
    cases v with
    | bool b => exact ⟨_, rfl, by cases b <;> simp⟩
    | int z =>
      refine ⟨_, rfl, ?_⟩
      cases z.toInt with
      | ofNat n => exact ⟨toDigits_ne_nil, hdg n⟩
      | negSucc n => exact ⟨cons_ne_nil _ _, forall_mem_cons.2 ⟨by decide, hdg _⟩⟩
    | str s => exact absurd rfl (hv s)
    | uint n => exact ⟨_, rfl, toDigits_ne_nil, hdg _⟩
  obtain ⟨cs, hcs, hne, hall⟩ := htx
  have hbs := forall_mem_encode hall
  have hnn := forall_mem_encode hnm
  have hbn : encode cs ≠ [] := encode_ne_nil hne
  have hft : fieldText (name, v) = encode name.toList ++ 58 :: encode cs := by
    rw [fieldText, hcs, encode, flatMap_append, append_assoc]
    rfl
  rw [hft]
  constructor
  · refine List.forall_mem_append.2 ⟨fun b hb => (hnn b hb).1, ?_⟩
    exact forall_mem_cons.2 ⟨by decide, fun b hb => (hbs b hb).1⟩
  · rintro ⟨u, hu⟩
    have hls := congrArg getLast? hu
    rw [getLast?_append, getLast?_append, getLast?_cons, getLast?_eq_some_getLast hbn,
      key_eq] at hls
    exact (hbs _ (getLast_mem hbn)).2 (Option.some.inj hls).symm

lemma key_suffix (s : List UInt8) : key <:+ key ++ s ↔ s = [] ∨ key <:+ s := by
  refine ⟨fun hsf => ?_, ?_⟩
  · simpa [key_eq, suffix_cons_iff] using hsf
  · rintro (rfl | hs)
    · rw [append_nil]
    · exact hs.trans (suffix_append _ _)

variable {opts : Options}

lemma apart_empty : Apart empty := by
  intro b hb
  rw [empty_eq] at hb
  rw [← Option.some.inj hb]
  decide

/-- The options that the text has after the replacement. -/
def Options.named (opts : Options) : Options :=
  { opts with
    sandbox := opts.sandbox ++ if opts.sandbox = [] ∨ key <:+ opts.sandbox then empty else [] }

def Options.middle (opts : Options) : List (String × Value) := opts.fields.dropLast.drop 6

lemma serialize_split (opts : Options) : opts.serialize =
    (encode ['\x7b'] ++ fieldText ("Threaded", .bool opts.threaded)) ++
      (fieldsText ((opts.fields.take 4).tail) ++ space ::
        (fieldText ("Sandbox", .str opts.sandbox) ++ space ::
          (fieldText ("Fault", .bool opts.fault) ++ (fieldsText opts.middle ++ space ::
            (fieldText ("Race", .bool opts.race) ++ encode ['\x7d']))))) := by
  simp only [← encode_blank]
  simp [Options.serialize, Options.fields, Options.front, Options.back, Options.middle, fieldsText]

lemma kept_others (opts : Options) : ∀ f ∈ (opts.fields.take 4).tail ++
    ("Threaded", .bool opts.threaded) :: ("Race", .bool opts.race) ::
      ("Fault", .bool opts.fault) :: opts.middle, Kept (fieldText f) := by
  have hnm : ∀ n ∈ names, ∀ c ∈ n.toList, c ≠ ' ' ∧ c ≠ ':' := by
    simp [names, frontFormat, backFormat]
  have hkp : ∀ f ∈ opts.fields, (∀ s, f.2 ≠ .str s) → Kept (fieldText f) := fun f hf =>
    kept_field (hnm _ (mem_map_of_mem hf))
  intro f hf
  have hmem : f ∈ opts.fields ∧ ∀ s, f.2 ≠ .str s := by
    revert f
    simp [Options.fields, Options.front, Options.back, Options.middle]
  exact hkp f hmem.1 hmem.2

lemma replace_serialize (hsp : Unbroken opts.sandbox) :
    replace old new 0 opts.serialize = opts.named.serialize := by
  obtain ⟨hhd, hot⟩ := List.forall_mem_append.1 (kept_others opts)
  obtain ⟨hth, hot⟩ := forall_mem_cons.1 hot
  obtain ⟨hrc, hot⟩ := forall_mem_cons.1 hot
  obtain ⟨hfl, hmd⟩ := forall_mem_cons.1 hot
  have hbr : encode ['\x7b'] = [123] ∧ encode ['\x7d'] = [125] := ⟨rfl, rfl⟩
  have hfr : Kept (encode ['\x7b'] ++ fieldText ("Threaded", .bool opts.threaded)) := by
    rw [hbr.1, singleton_append]
    refine ⟨forall_mem_cons.2 ⟨by decide, hth.1⟩, ?_⟩
    simpa [suffix_cons_iff, hth.2] using fun h => absurd h (by simp [key_eq])
  have hls : Unbroken (fieldText ("Race", .bool opts.race) ++ encode ['\x7d']) := by
    rw [hbr.2]
    exact List.forall_mem_append.2 ⟨hrc.1, by simp [space]⟩
  have hsn : Unbroken (key ++ opts.sandbox) := List.forall_mem_append.2 ⟨unbroken_key, hsp⟩
  have hwr : ∀ s, fieldText ("Sandbox", .str s) = key ++ s := by
    have hky : encode ("Sandbox".toList ++ [':']) = key := by decide +kernel
    exact fun s => congrArg (· ++ s) hky
  rw [serialize_split, replace_fields hfr hhd, hwr, replace_word hsn,
    replace_fields hfl hmd, replace_unbroken hls, serialize_split, hwr]
  simp [key_suffix, Options.named, Options.middle, Options.fields, Options.front, Options.back]

/-! ### The characters of a text -/

def Value.chars (v : Value) : List Char := runes v.text

def fieldChars (f : String × Value) : List Char := f.1.toList ++ ':' :: f.2.chars

def fieldsChars (fs : List (String × Value)) : List Char :=
  fs.flatMap fun f => ' ' :: fieldChars f

lemma apart_fieldsText (fs : List (String × Value)) (hrs : Apart rest) :
    Apart (fieldsText fs ++ rest) := by
  cases fs with
  | nil => exact hrs
  | cons f fs =>
    intro b hb
    rw [← Option.some.inj hb]
    decide

lemma runes_fieldText (hrs : Apart rest) :
    runes (fieldText f ++ rest) = fieldChars f ++ runes rest := by
  rw [fieldText, append_assoc, runes_encode_append, runes_append _ hrs, fieldChars, Value.chars]
  simp

lemma runes_fieldsText (fs : List (String × Value)) (hrs : Apart rest) :
    runes (fieldsText fs ++ rest) = fieldsChars fs ++ runes rest := by
  induction fs with
  | nil => rfl
  | cons f fs ih =>
    have htx : fieldsText (f :: fs) ++ rest =
        encode [' '] ++ (fieldText f ++ (fieldsText fs ++ rest)) := by simp [fieldsText]
    rw [htx, runes_encode_append, runes_fieldText (apart_fieldsText fs hrs), ih]
    simp [fieldsChars]

lemma runes_serialize (opts : Options) : runes opts.serialize =
    '\x7b' :: (fieldChars ("Threaded", .bool opts.threaded) ++
      (fieldsChars opts.fields.tail ++ ['\x7d'])) := by
  have hap : Apart (encode ['\x7d']) := by
    intro b hb
    rw [← Option.some.inj hb]
    decide
  rw [Options.serialize, runes_encode_append, runes_fieldText (apart_fieldsText _ hap),
    runes_fieldsText _ hap, runes_encode]
  rfl

/-! ### Scanning the fields -/

/-- A number that is printed in decimal and scanned in hexadecimal. -/
def asHex (n : UInt32) : Except Fault UInt32 :=
  let m := ofDigits 16 (toDigits 10 n.toNat)
  if m < 2 ^ 32 then .ok (UInt32.ofNat m) else .error .range

def Value.scanned : Value → Except Fault Value
  | .str s => .ok (.str (encode (runes s)))
  | .uint n => (asHex n).map .uint
  | v => .ok v

def Value.Plain : Value → Prop
  | .str s => s ≠ [] ∧ ∀ c ∈ runes s, isSpace c = false
  | _ => True

def Value.verb : Value → Verb
  | .bool _ => .t
  | .int _ => .d
  | .str _ => .s
  | .uint _ => .x

lemma reads_truth (b : Bool) (rest : List Char) :
    Reads truth ((if b then "true" else "false").toList ++ rest) b rest := by
  cases b <;> rfl

variable {text : List Char}

lemma verb_chars (h : v.Plain) :
    verb v.verb (v.chars ++ ' ' :: text) = v.scanned.map fun w => (w, ' ' :: text) := by
  cases v with
  | bool b =>
    rw [Value.chars, Value.text, runes_encode]
    exact (reads_truth b _).bind (reads_pure _ _)
  | int z =>
    rw [Value.chars, Value.text, runes_encode]
    refine (reads_dec ⟨z.le_toInt, z.toInt_lt⟩ (begins_cons (by decide) text)).bind ?_
    rw [Int64.ofInt_toInt]
    exact reads_pure _ _
  | str s =>
    exact (reads_word (runes_ne_nil h.1) h.2 (begins_cons (by decide) text)).bind (reads_pure _ _)
  | uint n =>
    have hhex := hex_toDigits 32 (b := 10) (by omega) (by omega) n.toNat
      (begins_cons (p := fun c => !isHex c) (c := ' ') (by decide) text)
    rw [Value.chars, Value.text, runes_encode, Value.scanned, asHex]
    by_cases hm : ofDigits 16 (toDigits 10 n.toNat) < 2 ^ 32
    · rw [if_pos hm] at hhex ⊢
      exact (Reads.bind_eq hhex).trans rfl
    · rw [if_neg hm] at hhex ⊢
      exact bind_error hhex

structure FieldPlain (f : String × Value) : Prop where
  name : f.1.toList.head?.any fun c => !isSpace c
  value : f.2.Plain

lemma field_chars (h : FieldPlain f) : field (f.1, f.2.verb) (fieldChars f ++ ' ' :: text) =
    f.2.scanned.map fun w => (w, ' ' :: text) := by
  have htx : fieldChars f ++ ' ' :: text =
      (f.1.toList ++ [':']) ++ (f.2.chars ++ ' ' :: text) := by
    simp [fieldChars]
  rw [htx, field, (reads_literal _ _).bind_eq]
  exact verb_chars h.value

lemma fieldsChars_cons (fs : List (String × Value)) (text : List Char) :
    ∃ r, fieldsChars fs ++ ' ' :: text = ' ' :: r := by
  cases fs <;> exact ⟨_, rfl⟩

lemma scanFields_append (gs : List (String × Verb)) (h : ∀ f ∈ fs, FieldPlain f) :
    scanFields (fs.map (fun f => (f.1, f.2.verb)) ++ gs) (fieldsChars fs ++ ' ' :: text) = (do
      let vs ← fs.mapM fun f => f.2.scanned
      let p ← scanFields gs (' ' :: text)
      return (vs ++ p.1, p.2)) := by
  induction fs with
  | nil =>
    show scanFields gs (' ' :: text) = _
    cases hsc : scanFields gs (' ' :: text) <;> rfl
  | cons f fs ih =>
    obtain ⟨hf, hfs⟩ := forall_mem_cons.1 h
    obtain ⟨r, hr⟩ := fieldsChars_cons fs text
    have htx : fieldsChars (f :: fs) ++ ' ' :: text = ' ' :: (fieldChars f ++ ' ' :: r) := by
      rw [← hr]
      simp [fieldsChars]
    have hbl : Begins (fun c => !isSpace c) (fieldChars f ++ ' ' :: r) := by
      obtain ⟨c, hc, hsp⟩ := (Option.any_eq_true _ _).1 hf.name
      obtain ⟨cs, hcs⟩ := List.head?_eq_some_iff.1 hc
      rw [fieldChars, hcs]
      exact begins_cons hsp _
    rw [htx, map_cons, cons_append, scanFields, (reads_blank hbl).bind_eq, mapM_cons]
    have hfd : field (f.1, f.2.verb) (fieldChars f ++ ' ' :: r) = _ := field_chars hf
    cases hv : f.2.scanned with
    | error e =>
      rw [hv] at hfd
      exact bind_error hfd
    | ok w =>
      rw [hv] at hfd
      rw [Reads.bind_eq hfd, ← hr]
      show StateT.bind (scanFields _) _ _ = _
      rw [StateT.bind, ih hfs]
      cases hvs : fs.mapM fun f => f.2.scanned with
      | error e => rfl
      | ok vs => cases hsc : scanFields gs (' ' :: text) <;> rfl

def charsUpTo (opts : Options) (fs : List (String × Value)) (text : List Char) : List Char :=
  '\x7b' :: (fieldChars ("Threaded", .bool opts.threaded) ++ (fieldsChars fs ++ ' ' :: text))

lemma format_eq (opts : Options) (gs : List (String × Verb)) (h : ∀ f ∈ fs, FieldPlain f) :
    format (fs.map (fun f => (f.1, f.2.verb)) ++ gs) (charsUpTo opts fs text) = (do
      let vs ← fs.mapM fun f => f.2.scanned
      let p ← scanFields gs (' ' :: text)
      let q ← literal ['\x7d'] p.2
      return (.bool opts.threaded :: (vs ++ p.1), q.2)) := by
  obtain ⟨r, hr⟩ := fieldsChars_cons fs text
  have hnm : "Threaded".toList.head?.any fun c => !isSpace c := by decide +kernel
  have hth : Reads (field ("Threaded", .t)) (_ ++ ' ' :: r) _ _ :=
    field_chars (f := ("Threaded", .bool opts.threaded)) ⟨hnm, trivial⟩
  have hop : ∀ text, Reads (literal ['\x7b']) ('\x7b' :: text) () text := reads_literal ['\x7b']
  rw [format, charsUpTo, hr, (hop _).bind_eq, hth.bind_eq, ← hr]
  show StateT.bind (scanFields _) _ _ = _
  rw [StateT.bind, scanFields_append gs h]
  cases fs.mapM fun f => f.2.scanned with
  | error e => rfl
  | ok vs =>
    cases scanFields gs (' ' :: text) with
    | error e => rfl
    | ok p =>
      show (literal ['\x7d'] >>= fun _ => pure (.bool opts.threaded :: (vs ++ p.1))) p.2 =
        Except.bind (literal ['\x7d'] p.2) _
      cases hlt : literal ['\x7d'] p.2 with
      | error e => exact bind_error hlt
      | ok q => exact Reads.bind_eq hlt

/-! ### The round trip -/

lemma chars_eq (fs : List (String × Value)) {gs : List (String × Value)}
    (h : opts.fields.tail = fs ++ f :: gs) :
    runes opts.serialize = charsUpTo opts fs (fieldChars f ++ (fieldsChars gs ++ ['\x7d'])) := by
  rw [runes_serialize, h]
  simp [charsUpTo, fieldsChars]

lemma fieldPlain_fields (h : (Value.str opts.sandbox).Plain) :
    ∀ f ∈ opts.fields, FieldPlain f := by
  have hnm : ∀ f ∈ opts.fields, f.1.toList.head?.any fun c => !isSpace c := by
    have hall : ∀ n ∈ names, n.toList.head?.any fun c => !isSpace c := by decide +kernel
    exact fun f hf => hall f.1 (mem_map_of_mem (f := fst) hf)
  have hvl : ∀ f ∈ opts.fields, f.2.Plain := by
    simp [Options.fields, Options.front, Options.back, Value.Plain]
    exact h
  exact fun f hf => ⟨hnm f hf, hvl f hf⟩

/-- The first format stops at the field that it does not have. -/
lemma format_first (h : (Value.str opts.sandbox).Plain) :
    format (frontFormat ++ backFormat) (runes opts.serialize) = .error .mismatch := by
  have hfr : ∀ f ∈ opts.front.tail, FieldPlain f := fun f hf =>
    fieldPlain_fields h f (mem_append_left _ (mem_of_mem_tail hf))
  have hbc : ∀ v r, scanFields backFormat (' ' :: (fieldChars ("EnableCgroups", v) ++ r)) =
      .error .mismatch := by
    intro v r
    obtain ⟨cs, hcs⟩ : ∃ cs, "EnableCgroups".toList = 'E' :: cs := ⟨_, rfl⟩
    rw [fieldChars, hcs]
    rfl
  have hvs : ∃ vs, (opts.front.tail.mapM fun f => f.2.scanned) = .ok vs := ⟨_, rfl⟩
  obtain ⟨vs, hvs⟩ := hvs
  rw [chars_eq opts.front.tail rfl]
  refine (format_eq opts backFormat hfr).trans ?_
  rw [hvs, hbc]
  rfl

lemma format_second (h : (Value.str opts.sandbox).Plain) :
    format (frontFormat ++ ("EnableCgroups", .t) :: backFormat) (runes opts.serialize) = (do
      let vs ← opts.fields.mapM fun f => f.2.scanned
      return (vs, [])) := by
  have hint : ∀ f ∈ opts.fields.tail.dropLast, FieldPlain f := fun f hf =>
    fieldPlain_fields h f (mem_of_mem_tail (mem_of_mem_dropLast hf))
  have hrc : Reads (scanFields [("Race", .t)])
      (' ' :: (fieldChars ("Race", .bool opts.race) ++ ['\x7d'])) [.bool opts.race] ['\x7d'] := by
    rw [fieldChars, Value.chars, Value.text, runes_encode]
    cases opts.race <;> rfl
  have hfs : opts.fields = ("Threaded", .bool opts.threaded) ::
      (opts.fields.tail.dropLast ++ [("Race", .bool opts.race)]) := rfl
  rw [chars_eq opts.fields.tail.dropLast (show _ = _ ++ [("Race", .bool opts.race)] from rfl)]
  refine (format_eq opts [("Race", .t)] hint).trans ?_
  rw [show fieldsChars [] = [] from rfl, nil_append, hrc]
  nth_rewrite 2 [hfs]
  rw [mapM_cons, mapM_append]
  cases opts.fields.tail.dropLast.mapM fun f => f.2.scanned <;> rfl

/-- What is scanned from the text of the options. -/
def Options.scanned (opts : Options) : Except Fault Options := do
  let sandbox := encode (runes opts.sandbox)
  let raceAddr0 ← asHex opts.raceAddr0
  let raceAddr1 ← asHex opts.raceAddr1
  return { opts with
    sandbox := if sandbox = empty then [] else sandbox
    raceAddr0
    raceAddr1 }

lemma ofValues_scanned (opts : Options) :
    (opts.fields.mapM (fun f => f.2.scanned) >>= ofValues) = opts.scanned := by
  simp only [Options.fields, Options.front, Options.back, cons_append, nil_append, mapM_cons,
    mapM_nil, Value.scanned, Options.scanned]
  cases asHex opts.raceAddr0 with
  | error e => rfl
  | ok raceAddr0 => cases asHex opts.raceAddr1 <;> rfl

lemma deserializeOptions_serialize (h : ∀ c ∈ runes opts.sandbox, isSpace c = false) :
    deserializeOptions opts.serialize = opts.named.scanned := by
  have hun : Unbroken opts.sandbox := by
    rintro b hb rfl
    exact absurd (h ' ' (mem_runes_of_mem (by decide) hb)) (by decide)
  have hpl : (Value.str opts.named.sandbox).Plain := by
    unfold Options.named
    split_ifs with hs
    · have hem : ∀ c ∈ "empty".toList, isSpace c = false := by simp [isSpace]
      refine ⟨by simp [empty_eq], fun c hc => ?_⟩
      rw [runes_append _ apart_empty, empty, runes_encode, mem_append] at hc
      exact hc.elim (h c) (hem c)
    · rw [append_nil]
      exact ⟨fun hnil => hs (.inl hnil), h⟩
  simp only [deserializeOptions, replace_serialize hun, format_first hpl, format_second hpl,
    ← ofValues_scanned]
  cases opts.named.fields.mapM fun f => f.2.scanned <;> rfl

lemma asHex_eq_iff (n : UInt32) : asHex n = .ok n ↔ n < 10 := by
  have hiff :=
    ofDigits_toDigits_eq_iff (show 1 < 10 by omega) (show 10 < 16 by omega) le_rfl n.toNat
  have hten : n < 10 ↔ n.toNat < 10 := UInt32.lt_iff_toNat_lt
  have hlt := n.toNat_lt
  rw [hten, ← hiff, asHex]
  split_ifs with hm
  · rw [Except.ok.injEq, ← UInt32.toNat_inj, UInt32.toNat_ofNat_of_lt' hm]
  · refine iff_of_false (by simp) ?_
    omega

/-- The sandbox that is read from a name. -/
lemma sandbox_eq_iff (s : List UInt8) :
    (if encode (runes (s ++ if s = [] ∨ key <:+ s then empty else [])) = empty then []
      else encode (runes (s ++ if s = [] ∨ key <:+ s then empty else []))) = s ↔
    Valid s ∧ s ≠ empty ∧ ¬ key <:+ s := by
  by_cases hnil : s = []
  · subst hnil
    have hem : encode (runes empty) = empty := by rw [empty, runes_encode]
    refine iff_of_true ?_ ⟨⟨[], rfl⟩, by simp [empty_eq], by simp [key_eq]⟩
    simp only [true_or, if_true, nil_append, hem]
  by_cases hend : key <:+ s
  · -- The name ends in a colon, and what is read in `y`.
    have hre : encode (runes (s ++ empty)) = encode (runes s) ++ empty := by
      rw [runes_append _ apart_empty, encode, flatMap_append, empty, runes_encode]
      rfl
    have hne : encode (runes s) ++ empty ≠ empty := by
      simpa using encode_ne_nil (runes_ne_nil hnil)
    have hls : encode (runes s) ++ empty ≠ s := by
      obtain ⟨u, rfl⟩ := hend
      intro h
      have hlast := congrArg getLast? h
      rw [getLast?_append, getLast?_append, empty_eq, key_eq] at hlast
      exact absurd hlast (by simp)
    simp only [hnil, hend, or_true, if_true, hre, if_neg hne, hls, not_true, and_false]
  · simp only [hnil, hend, or_false, if_false, append_nil, not_false_iff, and_true, ← valid_iff]
    constructor
    · intro h
      split_ifs at h with hem
      · exact absurd h.symm hnil
      · exact ⟨h, h ▸ hem⟩
    · rintro ⟨hv, hem⟩
      rw [hv, if_neg hem]

/-- **The round trip of the options.** With a sandbox that has no white space in its name they come
back exactly if both addresses are below ten and the name is valid UTF-8, is not `empty` and does
not end in the name of its own field. -/
theorem deserialize_serialize_iff (opts : Options)
    (hspace : ∀ c ∈ runes opts.sandbox, isSpace c = false) :
    deserializeOptions opts.serialize = .ok opts ↔
      (Valid opts.sandbox ∧ opts.sandbox ≠ encode "empty".toList ∧
        ¬ encode "Sandbox:".toList <:+ opts.sandbox) ∧
      opts.raceAddr0 < 10 ∧ opts.raceAddr1 < 10 := by
  rw [deserializeOptions_serialize hspace, ← asHex_eq_iff, ← asHex_eq_iff]
  change _ ↔ (Valid _ ∧ _ ≠ empty ∧ ¬ key <:+ _) ∧ _
  rw [← sandbox_eq_iff, Options.scanned]
  change (asHex opts.raceAddr0 >>= _) = _ ↔ _
  cases asHex opts.raceAddr0 with
  | error e => simp [bind, Except.bind]
  | ok raceAddr0 =>
    change (asHex opts.raceAddr1 >>= _) = _ ↔ _
    cases asHex opts.raceAddr1 with
    | error e => simp [bind, Except.bind]
    | ok raceAddr1 =>
      obtain ⟨_, _, _, _, sandbox, _⟩ := opts
      change Except.ok _ = Except.ok _ ↔ _
      simp only [Except.ok.injEq, Options.mk.injEq, Options.named, true_and, and_true]
      exact Iff.rfl

def plainOptions : Options :=
  ⟨true, false, true, 4, encode "none".toList, false, 0, 0, false, true, false, true, true, false,
    false, -1, 3, 0, 9, true⟩

theorem deserialize_serialize_plain :
    deserializeOptions plainOptions.serialize = .ok plainOptions := by
  have hru : runes plainOptions.sandbox = "none".toList := runes_encode _
  refine (deserialize_serialize_iff plainOptions (by simp [hru, isSpace])).2
    ⟨⟨⟨_, rfl⟩, ?_, ?_⟩, by decide, by decide⟩
  · decide +kernel
  · decide +kernel

/-- **Addresses change.** They are printed in decimal and scanned in hexadecimal, so that 16 comes
back as 22 and the address of a kernel instruction does not fit. A sandbox may change, too. -/
theorem address_changed :
    deserializeOptions { plainOptions with raceAddr0 := 16 }.serialize =
      .ok { plainOptions with raceAddr0 := 22 } ∧
    deserializeOptions { plainOptions with raceAddr0 := 0x81000000 }.serialize = .error .range ∧
    deserializeOptions { plainOptions with sandbox := encode "empty".toList }.serialize =
      .ok { plainOptions with sandbox := [] } ∧
    deserializeOptions { plainOptions with sandbox := [0xff] }.serialize =
      .ok { plainOptions with sandbox := [0xef, 0xbf, 0xbd] } := by
  refine ⟨by decide +kernel, by decide +kernel, by decide +kernel, by decide +kernel⟩

end Razzer.ReproOptions
