import Razzer.ManagerDB
import Razzer.TextFixpoint

/-!
Executed programs in the log.

Before a program is executed its text is written to the log, so that it can be found there when
the kernel has crashed. `ParseLog` looks for the line that announces a program and adds the lines
behind it one by one, as long as they can be parsed together. A line on which the parser panics
ends it. The logger puts a time and the name of the process before every line, and no line that
begins so can be parsed. Only where the text is written without the logger the program is found
again.
-/

namespace Razzer.ExecLog

open Progs Encoding Decoding Lines TextParser List
open ManagerDB (decText RaceInfo.toBytes)
open SyzManager (RaceInfo)

/-! ### The logger -/

structure Time where
  year : ℕ
  month : ℕ
  day : ℕ
  hour : ℕ
  minute : ℕ
  second : ℕ

def itoa (width n : ℕ) : List Char :=
  replicate (width - (Nat.toDigits 10 n).length) '0' ++ Nat.toDigits 10 n

def Time.stamp (t : Time) : List Char :=
  itoa 4 t.year ++ '/' :: (itoa 2 t.month ++ '/' :: (itoa 2 t.day ++ ' ' :: (itoa 2 t.hour ++
    ':' :: (itoa 2 t.minute ++ ':' :: (itoa 2 t.second ++ [' '])))))

def printf (t : Time) (msg : List Char) : List Char :=
  t.stamp ++ msg ++ if msg.getLast? = some '\n' then [] else ['\n']

def logLines (tag : String) (msg : List Char) : List (List Char) :=
  (splitLines [] msg).map fun line => tag.toList ++ ' ' :: line

def emit : List (Time × List Char) → List Char
  | [] => []
  | (t, msg) :: msgs => printf t msg ++ emit msgs

/-! ### Logging a program -/

inductive OutputType
  | none | stdout | dmesg | file
  deriving DecidableEq

structure ExecOpts where
  injectFault : Bool
  faultCall : ℤ
  faultNth : ℤ

/-- Who logs. The scheduler has a race info. -/
inductive Process
  | fuzzer
  | scheduler (raceInfo : RaceInfo)

def strOpts (opts : ExecOpts) : List Char :=
  if opts.injectFault then
    (" (fault-call:" ++ decText opts.faultCall ++ " fault-nth:" ++ decText opts.faultNth ++
      ")").toList
  else []

def stdoutMessages (opts : ExecOpts) (pid : ℤ) (data : List Char) : Process → List (List Char)
  | .fuzzer =>
    ("[FUZZER] executing program ".toList ++ (decText pid).toList ++ strOpts opts ++ [':', '\n']) ::
      logLines "[FUZZER]" data
  | .scheduler raceInfo =>
    "[SCHED] scheduler executing program".toList ::
      (logLines "[SCHED]" (RaceInfo.toBytes raceInfo).toList ++ logLines "[SCHED]" data)

def dmesgHead (opts : ExecOpts) (pid : ℤ) : List Char :=
  "syzkaller: executing program ".toList ++ ((decText pid).toList ++ strOpts opts ++ [':'])

/-- `logProgram`: what it adds to the log. `times` has the time of each message. -/
def logProgram (out : OutputType) (who : Process) (opts : ExecOpts) (pid : ℤ)
    (times : ℕ → Time) (data : List Char) : List Char :=
  match out with
  | .none => []
  | .stdout => emit ((stdoutMessages opts pid data who).mapIdx fun i msg => (times i, msg))
  | .dmesg => dmesgHead opts pid ++ '\n' :: (data ++ ['\n'])
  | .file => []

/-! ### Parsing a log -/

def afterFirst (sub : List Char) : List Char → Option (List Char)
  | [] => if sub.isEmpty then some [] else none
  | c :: t => if sub.isPrefixOf (c :: t) then some ((c :: t).drop sub.length) else afterFirst sub t

/-- `Atoi` of digits; there may be none or too many. -/
def atoi (digits : List Char) : ℕ :=
  min (digits.foldl (fun n d => 10 * n + (d.toNat - '0'.toNat)) 0) (2 ^ 63 - 1)

def extractInt (line : List Char) (sub : String) : Option ℕ :=
  (afterFirst sub.toList line).map fun t => atoi (t.takeWhile Char.isDigit)

structure LogEntry where
  p : Option Prog := none
  proc : ℕ := 0
  start : ℕ := 0
  stop : ℕ := 0
  fault : Bool := false
  faultCall : ℕ := 0
  faultNth : ℕ := 0

structure LogState where
  entries : List LogEntry := []
  ent : LogEntry := {}
  cur : List Char := []
  pos : ℕ := 0

def LogState.commit (st : LogState) : LogState :=
  match st.ent.p with
  | none => st
  | some p =>
    if p.calls.length ≠ 0 then { st with entries := st.entries ++ [{ st.ent with stop := st.pos }] }
    else st

section ParseLog

variable (decode : List Char → Except Stop Prog)

/-- One line; `decode` is `Deserialize`, and if it panics there is no next state. -/
def LogState.line (st : LogState) (line : List Char) : Option LogState :=
  match extractInt line "executing program " with
  | some proc =>
    let ent : LogEntry := { proc := proc, start := st.pos }
    let ent :=
      match extractInt line "fault-call:" with
      | none => ent
      | some faultCall =>
        { ent with
          fault := true
          faultCall := faultCall
          faultNth := (extractInt line "fault-nth:").getD 0 }
    some { st.commit with ent := ent, cur := [], pos := st.pos + line.length }
  | none =>
    let tmp := st.cur ++ line
    let st := { st with pos := st.pos + line.length }
    match decode tmp with
    | .error (.panic _) => none
    | .error (.error _) => some st
    | .ok p => some { st with cur := tmp, ent := { st.ent with p := some p } }

/-- The loop, after the characters `acc` of a line. A last line without a line feed is taken with
one byte from behind the log; if there is none, the index is out of range. -/
def logLoop (spare : List Char) : List Char → List Char → LogState → Option LogState
  | acc, [], st =>
    if acc.isEmpty then some st
    else
      match spare with
      | [] => none
      | c :: _ => st.line decode (acc ++ [c])
  | acc, c :: data, st =>
    if c = '\n' then (st.line decode (acc ++ ['\n'])).bind (logLoop spare [] data)
    else logLoop spare (acc ++ [c]) data st

/-- `ParseLog`, if it does not panic; `spare` is what the slice of the log has behind its end. -/
def parseLog (spare data : List Char) : Option (List LogEntry) :=
  (logLoop decode spare [] data {}).map fun st =>
    ({ st with pos := data.length } : LogState).commit.entries

end ParseLog

/-! ### Lines of a log -/

section Lines

variable (decode : List Char → Except Stop Prog)

def LogState.lines (st : LogState) : List (List Char) → Option LogState
  | [] => some st
  | line :: lines => (st.line decode (line ++ ['\n'])).bind fun st => st.lines lines

lemma logLoop_line {spare line : List Char} (h : Inline line) (acc rest : List Char)
    (st : LogState) :
    logLoop decode spare acc (line ++ '\n' :: rest) st =
      (st.line decode (acc ++ line ++ ['\n'])).bind (logLoop decode spare [] rest) := by
  induction line generalizing acc with
  | nil => simp [logLoop]
  | cons c line ih =>
    have hc : c ≠ '\n' := h c mem_cons_self
    rw [cons_append, logLoop, if_neg hc, ih fun d hd => h d (mem_cons_of_mem _ hd)]
    simp

lemma logLoop_unlines {ls : List (List Char)} {spare : List Char}
    (h : ∀ line ∈ ls, Inline line) (st : LogState) :
    logLoop decode spare [] (unlines ls) st = st.lines decode ls := by
  induction ls generalizing st with
  | nil => rfl
  | cons line ls ih =>
    obtain ⟨hli, hln⟩ := forall_mem_cons.1 h
    rw [unlines_cons, logLoop_line decode hli, nil_append, LogState.lines]
    exact Option.bind_congr fun st _ => ih hln st

end Lines

/-! ### The logger hides programs -/

section Stamped

variable (T : Target) (sanitize : Call → Call) (fuel : ℕ)

def Stamped (line : List Char) : Prop :=
  ∃ d ds rest, line = d :: ds ++ '/' :: rest ∧ ∀ c ∈ d :: ds, isIdent c = true

variable {name : List Char}

lemma parseHead_stamped (hne : name ≠ []) (hnm : ∀ c ∈ name, isIdent c) (s : St)
    (rest : List Char) :
    parseHead s ⟨name ++ '/' :: rest, none⟩ = .ok ((none, name), s, ⟨'/' :: rest, none⟩) := by
  rw [parseHead, (takes_ident hne hnm s).bind_eq (by decide)]
  rfl

/-- Where the scanner has an error nothing is parsed as an argument. -/
lemma parseArg_failed (typ : Option TypeId) (s : St) {t : Line} (h : t.err.isSome) :
    ∃ e, parseArg T fuel typ s t = .error (.error e) := by
  cases fuel with
  | zero => exact ⟨_, rfl⟩
  | succ fuel =>
    have hch : (char : P Char) s t = .ok ('\x00', s, t) := by simp [char, scan, h]
    have hnm : parseName s t = .ok (none, s, t) := by
      simp only [parseName, Bind.bind, hch]
      rfl
    refine ⟨"failed to parse argument", ?_⟩
    simp only [parseArg, parseValue, Bind.bind, hnm, hch]
    rfl

/-- Then the arguments of a call end at once, and the call is not accepted. -/
lemma parseSeq_failed (types : List TypeId) (n : ℕ) (s : St) {t : Line} (h : t.err.isSome) :
    (∃ e, parseSeq ')' (argSlot T fuel types) n 0 s t = .error (.error e)) ∨
      parseSeq ')' (argSlot T fuel types) n 0 s t = .ok ([], s, t) := by
  cases n with
  | zero => exact .inl ⟨_, rfl⟩
  | succ n =>
    have hch : (char : P Char) s t = .ok ('\x00', s, t) := by simp [char, scan, h]
    have hcl : ¬ '\x00' = ')' := by decide
    simp only [parseSeq, Bind.bind, hch, argSlot, if_neg hcl]
    cases types with
    | nil =>
      right
      simp [eatExcessive, scan, h, pure]
    | cons typ types =>
      left
      simp only [getElem?_cons_zero, Option.map_some]
      by_cases hpad : (T.desc typ).isPad
      · rw [if_pos hpad]
        exact ⟨_, rfl⟩
      · rw [if_neg hpad]
        obtain ⟨e, he⟩ := parseArg_failed T fuel (some typ) s h
        exact ⟨e, by simp only [he]⟩

/-- The date ends with a slash, which neither gives a name to a call nor begins its arguments. -/
lemma parseCall_stamped (hne : name ≠ []) (hnm : ∀ c ∈ name, isIdent c) (s : St)
    (rest : List Char) :
    ∃ e, parseCall T fuel s ⟨name ++ '/' :: rest, none⟩ = .error (.error e) := by
  simp only [parseCall, Bind.bind, parseHead_stamped hne hnm s rest]
  cases T.syscallMap name with
  | none => exact ⟨_, rfl⟩
  | some desc =>
    have hop : ∃ t, (parse '(' : P Unit) { s with next := s.next + 1 } ⟨'/' :: rest, none⟩ =
        .ok ((), { s with next := s.next + 1 }, t) ∧ t.rest = '/' :: rest ∧ t.err.isSome :=
      ⟨_, rfl, rfl, rfl⟩
    obtain ⟨t, hpr, hrest, herr⟩ := hop
    have hfr : fresh s ⟨'/' :: rest, none⟩ =
      .ok (s.next, { s with next := s.next + 1 }, ⟨'/' :: rest, none⟩) := rfl
    simp only [hfr, hpr]
    rcases parseSeq_failed T fuel desc.args fuel { s with next := s.next + 1 } herr with
      ⟨e, he⟩ | hok
    · exact ⟨e, by simp only [he]⟩
    · refine ⟨"tailing data", ?_⟩
      simp only [hok]
      simp [parse, scan, herr, eof, hrest]
      rfl

lemma parseLine_stamped {line : List Char} (h : Stamped line) (s : St) :
    ∃ e, parseLine T fuel s ⟨line, none⟩ = .error (.error e) := by
  obtain ⟨d, ds, rest, rfl, hidn⟩ := h
  have hd : d ≠ '#' := by
    rintro rfl
    exact absurd (hidn '#' mem_cons_self) (by decide)
  obtain ⟨e, he⟩ := parseCall_stamped T fuel (cons_ne_nil d ds) hidn s rest
  refine ⟨e, ?_⟩
  have hhd : parseLine T fuel s ⟨d :: (ds ++ '/' :: rest), none⟩ =
      (if d = '#' then pure none else do
        let call ← parseCall T fuel
        return some call) s ⟨d :: (ds ++ '/' :: rest), none⟩ := rfl
  rw [cons_append] at he ⊢
  rw [hhd, if_neg hd]
  simp only [Bind.bind, he]

lemma stamped_dropCR {line : List Char} (h : Stamped line) : Stamped (dropCR line) := by
  obtain ⟨d, ds, rest, rfl, hidn⟩ := h
  rw [dropCR]
  split_ifs with hc
  · have hrs : rest ≠ [] := by
      rintro rfl
      rw [getLast?_concat] at hc
      exact absurd hc (by decide)
    refine ⟨d, ds, rest.dropLast, ?_, hidn⟩
    rw [dropLast_append_cons, dropLast_cons_of_ne_nil hrs]
  · exact ⟨d, ds, rest, rfl, hidn⟩

lemma deserialize_stamped {line : List Char} (h : Stamped line) (hln : Inline line) :
    ∃ e, deserialize T sanitize fuel (line ++ ['\n']) = .error (.error e) := by
  have hrw : rawLines [] (line ++ ['\n']) = [line] := by
    rw [rawLines_line hln, nil_append]
    rfl
  obtain ⟨e, he⟩ := parseLine_stamped T fuel (stamped_dropCR h) {}
  by_cases hfit : lineFits line
  · exact ⟨e, by simp [deserialize, fittingLines, hrw, hfit, parseLines, he]⟩
  · exact ⟨"token too long", by
      simp [deserialize, fittingLines, linesFit, hrw, hfit, parseLines]⟩

def LogState.Idle (st : LogState) : Prop := st.entries = [] ∧ st.ent.p = none ∧ st.cur = []

variable {st : LogState}

/-- Whether it announces a program or not, a line of the logger adds nothing. -/
lemma LogState.Idle.line (hst : st.Idle) {line : List Char} (h : Stamped line)
    (hln : Inline line) :
    ∃ st', st.line (deserialize T sanitize fuel) (line ++ ['\n']) = some st' ∧ st'.Idle := by
  obtain ⟨hen, hp, hcur⟩ := hst
  rw [LogState.line]
  cases extractInt (line ++ ['\n']) "executing program " with
  | some proc =>
    have hcm : st.commit.entries = [] := by simp only [LogState.commit, hp, hen]
    refine ⟨_, rfl, hcm, ?_, rfl⟩
    cases extractInt (line ++ ['\n']) "fault-call:" <;> rfl
  | none =>
    obtain ⟨e, he⟩ := deserialize_stamped T sanitize fuel h hln
    simp only [hcur, nil_append, he]
    exact ⟨_, rfl, hen, hp, rfl⟩

variable {ls : List (List Char)}

lemma LogState.Idle.lines (h : ∀ line ∈ ls, Stamped line ∧ Inline line) (hst : st.Idle) :
    ∃ st', st.lines (deserialize T sanitize fuel) ls = some st' ∧ st'.Idle := by
  induction ls generalizing st with
  | nil => exact ⟨st, rfl, hst⟩
  | cons line ls ih =>
    obtain ⟨⟨hsp, hli⟩, hln⟩ := forall_mem_cons.1 h
    obtain ⟨st', hst', hid⟩ := hst.line T sanitize fuel hsp hli
    rw [LogState.lines, hst', Option.bind_some]
    exact ih hln hid

/-- **The lines of the logger hold no program.** -/
theorem parseLog_stamped (h : ∀ line ∈ ls, Stamped line ∧ Inline line) (spare : List Char) :
    parseLog (deserialize T sanitize fuel) spare (unlines ls) = some [] := by
  rw [parseLog, logLoop_unlines _ fun line hln => (h line hln).2]
  obtain ⟨st, hst, hen, hp, -⟩ := LogState.Idle.lines T sanitize fuel h
    (show ({} : LogState).Idle from ⟨rfl, rfl, rfl⟩)
  simp only [hst, Option.map_some, LogState.commit, hp, hen]

end Stamped

/-! ### The lines of the logger -/

lemma isIdent_itoa (width n : ℕ) : ∀ c ∈ itoa width n, isIdent c := by
  intro c hc
  rcases mem_append.1 hc with hc | hc
  · rw [eq_of_mem_replicate hc]
    decide
  · exact isIdent_toDigits (by omega) (by omega) n c hc

lemma inline_decText (i : ℤ) : Inline (decText i).toList := by
  cases i with
  | ofNat n =>
    rw [decText, String.toList_ofList]
    exact inline_of_isIdent (isIdent_toDigits (by omega) (by omega) n)
  | negSucc n =>
    have hdg : Inline (String.ofList (Nat.toDigits 10 (n + 1))).toList := by
      rw [String.toList_ofList]
      exact inline_of_isIdent (isIdent_toDigits (by omega) (by omega) _)
    rw [decText, String.toList_append]
    exact .append (by simp [Inline]) hdg

lemma inline_strOpts (opts : ExecOpts) : Inline (strOpts opts) := by
  rw [strOpts]
  split_ifs
  · simp only [String.toList_append]
    refine .append (.append (.append (.append ?_ (inline_decText _)) ?_) (inline_decText _)) ?_ <;>
      simp [Inline]
  · simp [Inline]

variable {msg text u v : List Char} {c : Char} {msgs : List (Time × List Char)} {tag : String}

lemma Inline.join (hu : Inline u) (hc : c ≠ '\n') (hv : Inline v) : Inline (u ++ c :: v) :=
  hu.append (forall_mem_cons.2 ⟨hc, hv⟩)

lemma inline_stamp (t : Time) : Inline t.stamp := by
  have hito : ∀ width n, Inline (itoa width n) := fun width n =>
    inline_of_isIdent (isIdent_itoa width n)
  exact Inline.join (hito _ _) (by decide) <| Inline.join (hito _ _) (by decide) <|
    Inline.join (hito _ _) (by decide) <| Inline.join (hito _ _) (by decide) <|
    Inline.join (hito _ _) (by decide) <| Inline.join (hito _ _) (by decide) (by simp [Inline])

lemma stamped_append (t : Time) (line : List Char) : Stamped (t.stamp ++ line) := by
  have hne : itoa 4 t.year ≠ [] := append_ne_nil_of_right_ne_nil _ Nat.toDigits_ne_nil
  obtain ⟨d, ds, hyr⟩ := exists_cons_of_ne_nil hne
  have hidn := isIdent_itoa 4 t.year
  rw [hyr] at hidn
  rw [Time.stamp, hyr, append_assoc]
  exact ⟨d, ds, _, rfl, hidn⟩

def OneLine (msg : List Char) : Prop := ∃ line, Inline line ∧ (msg = line ∨ msg = line ++ ['\n'])

lemma Inline.oneLine {line : List Char} (h : Inline line) : OneLine line := ⟨line, h, .inl rfl⟩

lemma printf_oneLine (t : Time) (h : OneLine msg) :
    ∃ line, printf t msg = line ++ ['\n'] ∧ Stamped line ∧ Inline line := by
  obtain ⟨line, hln, rfl | rfl⟩ := h
  · have hls : msg.getLast? ≠ some '\n' := fun hc => hln _ (mem_of_getLast? hc) rfl
    exact ⟨t.stamp ++ msg, by rw [printf, if_neg hls], stamped_append t msg,
      (inline_stamp t).append hln⟩
  · refine ⟨t.stamp ++ line, ?_, stamped_append t line, (inline_stamp t).append hln⟩
    rw [printf, if_pos getLast?_concat, append_nil, append_assoc]

lemma emit_lines (h : ∀ m ∈ msgs, OneLine m.2) :
    ∃ lines, emit msgs = unlines lines ∧ ∀ line ∈ lines, Stamped line ∧ Inline line := by
  induction msgs with
  | nil => exact ⟨[], rfl, by simp⟩
  | cons m msgs ih =>
    obtain ⟨t, msg⟩ := m
    obtain ⟨hmsg, hms⟩ := forall_mem_cons.1 h
    obtain ⟨line, hpr, hli⟩ := printf_oneLine t hmsg
    obtain ⟨lines, hem, hln⟩ := ih hms
    refine ⟨line :: lines, ?_, forall_mem_cons.2 ⟨hli, hln⟩⟩
    rw [emit, hpr, hem, unlines_cons, append_assoc, singleton_append]

lemma logLines_oneLine (htag : Inline tag.toList) (h : msg ∈ logLines tag text) : OneLine msg := by
  obtain ⟨line, hln, rfl⟩ := mem_map.1 h
  have hsp : Inline line := ne_of_mem_splitLines (by simp) hln
  exact Inline.oneLine (Inline.join htag (by decide) hsp)

lemma stdoutMessages_oneLine (opts : ExecOpts) (pid : ℤ) (data : List Char) (who : Process) :
    ∀ msg ∈ stdoutMessages opts pid data who, OneLine msg := by
  cases who with
  | fuzzer =>
    refine forall_mem_cons.2 ⟨?_, fun msg h => logLines_oneLine (by simp [Inline]) h⟩
    refine ⟨"[FUZZER] executing program ".toList ++ (decText pid).toList ++ strOpts opts ++ [':'],
      ?_, .inr (by simp)⟩
    exact (((Inline.append (by simp [Inline]) (inline_decText pid)).append
      (inline_strOpts opts)).append (by simp [Inline]))
  | scheduler raceInfo =>
    refine forall_mem_cons.2 ⟨Inline.oneLine (by simp [Inline]), fun msg h => ?_⟩
    rcases mem_append.1 h with h | h
    · exact logLines_oneLine (by simp [Inline]) h
    · exact logLines_oneLine (by simp [Inline]) h

lemma logProgram_stdout (who : Process) (opts : ExecOpts) (pid : ℤ) (times : ℕ → Time)
    (data : List Char) :
    ∃ lines, logProgram .stdout who opts pid times data = unlines lines ∧
      ∀ line ∈ lines, Stamped line ∧ Inline line := by
  refine emit_lines fun m hm => ?_
  obtain ⟨i, hi, rfl⟩ := mem_mapIdx.1 hm
  exact stdoutMessages_oneLine opts pid data who _ (getElem_mem hi)

/-! ### Without the logger the program is found -/

lemma afterFirst_append (sub u t : List Char) : ∃ r, afterFirst sub (u ++ (sub ++ t)) = some r := by
  induction u with
  | nil =>
    cases h : sub ++ t with
    | nil => simp_all [afterFirst]
    | cons c cs =>
      have hpre : sub.isPrefixOf (c :: cs) := by
        rw [← h]
        simp
      exact ⟨_, by rw [nil_append, afterFirst, if_pos hpre]⟩
  | cons c u ih =>
    rw [cons_append, afterFirst]
    split_ifs
    · exact ⟨_, rfl⟩
    · exact ih

lemma dmesgHead_eq (opts : ExecOpts) (pid : ℤ) :
    dmesgHead opts pid = "syzkaller: ".toList ++
      ("executing program ".toList ++ ((decText pid).toList ++ strOpts opts ++ [':'])) := by
  have hsp : "syzkaller: executing program ".toList =
      "syzkaller: ".toList ++ "executing program ".toList := by decide +kernel
  rw [← append_assoc, ← hsp]
  rfl

lemma extractInt_dmesgHead (opts : ExecOpts) (pid : ℤ) (t : List Char) :
    ∃ proc, extractInt (dmesgHead opts pid ++ t) "executing program " = some proc := by
  obtain ⟨r, hr⟩ := afterFirst_append "executing program ".toList "syzkaller: ".toList
    ((decText pid).toList ++ strOpts opts ++ [':'] ++ t)
  refine ⟨atoi (r.takeWhile Char.isDigit), ?_⟩
  rw [extractInt, dmesgHead_eq, append_assoc, append_assoc, hr, Option.map_some]

lemma inline_dmesgHead (opts : ExecOpts) (pid : ℤ) : Inline (dmesgHead opts pid) :=
  .append (by simp [Inline]) (((inline_decText pid).append (inline_strOpts opts)).append
    (by simp [Inline]))

/-- No line of the text announces a program. A string in a program may do that. -/
def quiet (text : List Char) : Bool :=
  (rawLines [] text).all fun line =>
    (extractInt (line ++ ['\n']) "executing program ").isNone

section Found

variable (decode : List Char → Except Stop Prog) {ls : List (List Char)} {st : LogState}

lemma LogState.lines_append (ls' : List (List Char)) :
    st.lines decode (ls ++ ls') =
      (st.lines decode ls).bind fun st' => st'.lines decode ls' := by
  induction ls generalizing st with
  | nil => rfl
  | cons line ls ih =>
    rw [cons_append, LogState.lines, LogState.lines, Option.bind_assoc]
    exact Option.bind_congr fun st _ => ih

lemma lines_of_decode {q : ℕ → Prog}
    (hqt : ∀ line ∈ ls, extractInt (line ++ ['\n']) "executing program " = none)
    (hq : ∀ k < ls.length, decode (unlines (ls.take (k + 1))) = .ok (q (k + 1)))
    (hcur : st.cur = []) {k : ℕ} (hk : k ≤ ls.length) :
    ∃ st', st.lines decode (ls.take k) = some st' ∧
      st'.entries = st.entries ∧ st'.cur = unlines (ls.take k) ∧
      (0 < k → st'.ent.p = some (q k)) := by
  induction k with
  | zero => exact ⟨st, rfl, rfl, hcur, fun h => absurd h (by omega)⟩
  | succ k ih =>
    obtain ⟨st', hfl, hen, hcur', -⟩ := ih (by omega)
    have hlt : k < ls.length := hk
    have htk : ls.take (k + 1) = ls.take k ++ [ls[k]] := by
      rw [take_add_one, getElem?_eq_getElem hlt]
      rfl
    have hqk := hqt ls[k] (getElem_mem hlt)
    have htmp : st'.cur ++ (ls[k] ++ ['\n']) = unlines (ls.take (k + 1)) := by
      rw [hcur', htk, unlines_append, unlines_cons]
      rfl
    have hln : ∃ st'', st'.line decode (ls[k] ++ ['\n']) = some st'' ∧
        st''.entries = st'.entries ∧ st''.cur = unlines (ls.take (k + 1)) ∧
        st''.ent.p = some (q (k + 1)) := by
      simp only [LogState.line, hqk, htmp, hq k hlt]
      exact ⟨_, rfl, rfl, rfl, rfl⟩
    obtain ⟨st'', hln, hen', hcur'', hp⟩ := hln
    refine ⟨st'', ?_, hen'.trans hen, hcur'', fun _ => hp⟩
    rw [htk, LogState.lines_append, hfl, Option.bind_some, LogState.lines, hln]
    rfl

lemma line_dmesgHead (opts : ExecOpts) (pid : ℤ) :
    ∃ st, ({} : LogState).line decode (dmesgHead opts pid ++ ['\n']) = some st ∧
      st.entries = [] ∧ st.cur = [] := by
  obtain ⟨proc, hpr⟩ := extractInt_dmesgHead opts pid ['\n']
  simp only [LogState.line, hpr]
  exact ⟨_, rfl, rfl, rfl⟩

/-- **The lines behind the announcement are the program**, if they can be parsed one after the
other. -/
theorem parseLog_dmesg (opts : ExecOpts) (pid : ℤ) {q : ℕ → Prog}
    (hln : ∀ line ∈ ls, Inline line) (hne : ls ≠ [])
    (hqt : ∀ line ∈ ls, extractInt (line ++ ['\n']) "executing program " = none)
    (hq : ∀ k < ls.length, decode (unlines (ls.take (k + 1))) = .ok (q (k + 1)))
    (hcl : (q ls.length).calls ≠ []) (spare : List Char) :
    ∃ ent, parseLog decode spare (unlines (dmesgHead opts pid :: ls)) = some [ent] ∧
      ent.p = some (q ls.length) := by
  obtain ⟨st, hhd, hen, hcur⟩ := line_dmesgHead decode opts pid
  obtain ⟨st', hfl, hen', -, hp⟩ := lines_of_decode decode hqt hq hcur le_rfl
  have hp := hp (length_pos_iff.2 hne)
  rw [take_length] at hfl
  have hinl : ∀ line ∈ dmesgHead opts pid :: ls, Inline line :=
    forall_mem_cons.2 ⟨inline_dmesgHead opts pid, hln⟩
  rw [parseLog, logLoop_unlines decode hinl, LogState.lines, hhd, Option.bind_some, hfl,
    Option.map_some]
  have hlen : (q ls.length).calls.length ≠ 0 := fun h => hcl (length_eq_zero_iff.1 h)
  simp only [LogState.commit, hp, hen', hen, if_pos hlen, nil_append]
  exact ⟨_, rfl, rfl⟩

end Found

/-! ### Finding a logged program -/

lemma parseLines_concat_nil (T : Target) (fuel : ℕ) (ls : List (List Char)) (s : St) :
    parseLines T fuel (ls ++ [[]]) s = parseLines T fuel ls s := by
  induction ls generalizing s with
  | nil => rfl
  | cons line ls ih =>
    rw [cons_append, parseLines, parseLines]
    cases parseLine T fuel s ⟨line, none⟩ with
    | error e => rfl
    | ok r =>
      obtain ⟨call, s', t, (- | e)⟩ := r
      · simp only [ih]
      · rfl

lemma linesFit_unlines {ls : List (List Char)} (h : ∀ line ∈ ls, Inline line) :
    linesFit (unlines ls) ↔ ∀ line ∈ ls, line.length < maxLineLen := by
  rw [linesFit, rawLines_unlines h, all_eq_true]
  simp only [lineFits, decide_eq_true_eq]

lemma quiet_unlines {ls : List (List Char)} (h : ∀ line ∈ ls, Inline line) :
    quiet (unlines ls) ↔
      ∀ line ∈ ls, extractInt (line ++ ['\n']) "executing program " = none := by
  rw [quiet, rawLines_unlines h, all_eq_true]
  simp only [Option.isNone_iff_eq_none]

lemma deserialize_take {T : Target} {S : Sanitizer} {p : Prog} (h : Accepted T S p)
    (hpr : printable T p) {fuel : ℕ} {ls : List (List Char)}
    (hlen : ls.length = p.calls.length)
    (hln : ∀ line ∈ ls, Inline line ∧ dropCR line = line)
    (hrd : ∀ k, Reread T (renumber p) ⟨T.pageSize, p.isUsed⟩ fuel (p.calls.take k)
      ⟨[], [], 0⟩ {} (ls.take k))
    (hfit : ∀ line ∈ ls, line.length < maxLineLen) (k : ℕ) :
    deserialize T S.sanitize fuel (unlines ((ls ++ [[]]).take k)) =
      .ok (reparsed (renumber p) (firstCalls p k)) := by
  have hall : ∀ line ∈ ls ++ [[]], Inline line ∧ dropCR line = line ∧
      line.length < maxLineLen := by
    refine forall_mem_append.2 ⟨fun line hli => ?_, ?_⟩
    · exact ⟨(hln line hli).1, (hln line hli).2, hfit line hli⟩
    · simp [Inline, dropCR, maxLineLen]
  have htk : ∀ line ∈ (ls ++ [[]]).take k, Inline line ∧ dropCR line = line ∧
      line.length < maxLineLen := fun line hli => hall line (mem_of_mem_take hli)
  have hsc : scanLines [] (unlines ((ls ++ [[]]).take k)) = (ls ++ [[]]).take k :=
    scanLines_unlines (fun line hli => (htk line hli).1) fun line hli =>
      (htk line hli).2.1
  have hft := (linesFit_unlines fun line hli => (htk line hli).1).2 fun line hli =>
    (htk line hli).2.2
  refine deserialize_of_reread h hpr (hrd k) hft ?_
  rw [hsc]
  rcases Nat.lt_or_ge ls.length k with hk | hk
  · rw [take_of_length_le (by simp; omega), take_of_length_le (by omega), parseLines_concat_nil]
  · rw [take_append_of_le_length hk]

/-- The last entry of a log has the program with this text. -/
def lastEntryIs (T : Target) (printed : List Char) (entries : Option (List LogEntry)) : Bool :=
  entries.any fun entries => entries.getLast?.any fun ent => ent.p.any fun q =>
    serialize T.pageSize q == some printed

/-- **Finding the last program.** In the standard output of both processes there is no program,
whatever has been logged. A program that has been logged last is found if it was written without
the logger, and only then; its text must not look like an announcement. -/
theorem logged_program_found_iff (T : Target) (S : Sanitizer) :
    (∀ (fuel : ℕ) (out : OutputType) (who : Process) (opts : ExecOpts) (pid : ℤ)
      (times : ℕ → Time) (data spare : List Char), out ≠ .dmesg →
      parseLog (deserialize T S.sanitize fuel) spare (logProgram out who opts pid times data) =
        some []) ∧
    ∀ (p : Prog) (printed : List Char), T.wf = true → Accepted T S p → printable T p = true →
      p.calls ≠ [] → serialize T.pageSize p = some printed → linesFit printed = true →
      quiet printed = true →
      ∃ n, ∀ fuel ≥ n, ∀ (out : OutputType) (who : Process) (opts : ExecOpts) (pid : ℤ)
        (times : ℕ → Time) (spare : List Char),
        lastEntryIs T printed (parseLog (deserialize T S.sanitize fuel) spare
          (logProgram out who opts pid times printed)) = true ↔ out = .dmesg := by
  have hempty : ∀ (fuel : ℕ) (out : OutputType) (who : Process) (opts : ExecOpts) (pid : ℤ)
      (times : ℕ → Time) (data spare : List Char), out ≠ .dmesg →
      parseLog (deserialize T S.sanitize fuel) spare (logProgram out who opts pid times data) =
        some [] := by
    intro fuel out who opts pid times data spare hout
    cases out with
    | none | file => simp [logProgram, parseLog, logLoop, LogState.commit]
    | dmesg => exact absurd rfl hout
    | stdout =>
      obtain ⟨messages, htx, hms⟩ := logProgram_stdout who opts pid times data
      rw [htx, parseLog_stamped T S.sanitize fuel hms]
  refine ⟨hempty, fun p printed hT h hprint hne hprinted hfit hquiet => ?_⟩
  obtain ⟨lines, n, hlen, hprinted', hln, hrd⟩ :=
    exists_printed_lines hT h (checked_of_printable hprint)
  obtain rfl : printed = unlines lines := Option.some.inj (hprinted.symm.trans hprinted')
  refine ⟨n, fun fuel hge out who opts pid times spare => ?_⟩
  by_cases hout : out = .dmesg
  · subst hout
    have hinl : ∀ line ∈ lines, Inline line := fun line hli => (hln line hli).1
    have htx : logProgram .dmesg who opts pid times (unlines lines) =
        unlines (dmesgHead opts pid :: (lines ++ [[]])) := by
      rw [unlines_cons, unlines_append]
      rfl
    have hinl' : ∀ line ∈ lines ++ [[]], Inline line :=
      forall_mem_append.2 ⟨hinl, by simp [Inline]⟩
    have hquiet' : ∀ line ∈ lines ++ [[]],
        extractInt (line ++ ['\n']) "executing program " = none :=
      forall_mem_append.2 ⟨(quiet_unlines hinl).1 hquiet, by simp [extractInt, afterFirst]⟩
    have hcl : (firstCalls p (lines ++ [[]]).length) = p := by
      rw [firstCalls, take_of_length_le (by simp [hlen])]
    have hq := deserialize_take h hprint hlen hln (hrd fuel hge)
      ((linesFit_unlines hinl).1 hfit)
    obtain ⟨ent, hpr, hent⟩ := parseLog_dmesg (q := fun k => reparsed (renumber p) (firstCalls p k))
      (deserialize T S.sanitize fuel) opts pid hinl' (by simp) hquiet' (fun k _ => hq (k + 1))
      (by simp only [hcl]; simp [reparsed, hne]) spare
    rw [htx, hpr]
    rw [hcl] at hent
    simp [lastEntryIs, hent, serialize_reparsed h hprint, hprinted]
  · rw [hempty fuel out who opts pid times _ spare hout]
    simp [lastEntryIs, hout]

/-- The program of the sample text is found in the log of the kernel, not in the standard
output. -/
theorem logged_program_found_iff_message : ∃ p printed,
    deserialize smallTarget keepCalls.sanitize 20 sampleText = .ok p ∧ p.calls.length = 2 ∧
      serialize smallTarget.pageSize p = some printed ∧
      ∃ n, ∀ fuel ≥ n, ∀ (out : OutputType) (who : Process) (opts : ExecOpts) (pid : ℤ)
        (times : ℕ → Time) (spare : List Char),
        lastEntryIs smallTarget printed (parseLog
          (deserialize smallTarget keepCalls.sanitize fuel) spare
          (logProgram out who opts pid times printed)) = true ↔ out = .dmesg := by
  have hrun : (deserialize smallTarget keepCalls.sanitize 20 sampleText).toOption.any (fun p =>
      printable smallTarget p && p.calls.length == 2 &&
        (serialize smallTarget.pageSize p).any fun printed =>
          linesFit printed && quiet printed) = true := by decide +kernel
  have hT : smallTarget.wf := by decide +kernel
  cases h : deserialize smallTarget keepCalls.sanitize 20 sampleText with
  | error e =>
    rw [h] at hrun
    cases hrun
  | ok p =>
    rw [h, Except.toOption, Option.any_some, Bool.and_eq_true, Bool.and_eq_true] at hrun
    obtain ⟨⟨hpr, hlen⟩, hrun⟩ := hrun
    obtain ⟨printed, hpd, hfit⟩ := (Option.any_eq_true _ _).1 hrun
    obtain ⟨hfit, hqt⟩ := Bool.and_eq_true_iff.1 hfit
    have hlen : p.calls.length = 2 := eq_of_beq hlen
    have hne : p.calls ≠ [] := fun hc => by simp [hc] at hlen
    exact ⟨p, printed, rfl, hlen, hpd, (logged_program_found_iff smallTarget keepCalls).2 p printed
      hT (accepted_of_deserialize hT keepCalls h) hpr hne hpd hfit hqt⟩

/-- **The standard output holds no program.** A single call without arguments is logged by both
processes, and nothing is found. In the log of the kernel it is. -/
theorem stdout_program_not_found :
    let times : ℕ → Time := fun _ => ⟨2018, 11, 3, 14, 5, 9⟩
    let text := "sync()\n".toList
    let found := fun out who => (parseLog (deserialize smallTarget keepCalls.sanitize 20) []
      (logProgram out who ⟨false, 0, 0⟩ 1 times text))
    reprint smallTarget keepCalls 20 text = some text ∧
      logProgram .stdout .fuzzer ⟨false, 0, 0⟩ 1 times text =
        ("2018/11/03 14:05:09 [FUZZER] executing program 1:\n" ++
          "2018/11/03 14:05:09 [FUZZER] sync()\n2018/11/03 14:05:09 [FUZZER] \n").toList ∧
      (found .stdout .fuzzer).map length = some 0 ∧
      (found .stdout (.scheduler ⟨(0, 0), (0, 0), (0, 1), 0, 0, ("a.c:1", "a.c:2")⟩)).map
        length = some 0 ∧
      (found .dmesg .fuzzer).map length = some 1 := by
  refine ⟨by decide +kernel, by decide +kernel, by decide +kernel, by decide +kernel,
    by decide +kernel⟩

/-! ### Offsets of the entries -/

/-- The entries are inside the first `n` bytes of the log, one after the other. -/
def Spans (n : ℕ) (entries : List LogEntry) : Prop :=
  entries.Pairwise (fun a b => a.stop ≤ b.start) ∧ ∀ e ∈ entries, e.start < e.stop ∧ e.stop ≤ n

/-- The entries kept so far end before the present one, which is not empty if it has a program. -/
structure LogState.Ok (st : LogState) : Prop where
  spans : Spans st.ent.start st.entries
  start_le : st.ent.start ≤ st.pos
  start_lt : st.ent.p ≠ none → st.ent.start < st.pos

namespace LogState.Ok

variable (decode : List Char → Except Stop Prog) {st st' : LogState}

lemma commit (h : st.Ok) : Spans st.pos st.commit.entries := by
  have hsp : Spans st.pos st.entries :=
    ⟨h.spans.1, fun e he => ⟨(h.spans.2 e he).1, (h.spans.2 e he).2.trans h.start_le⟩⟩
  unfold LogState.commit
  split
  case h_1 => exact hsp
  case h_2 p hp =>
  split
  case isFalse => exact hsp
  case isTrue =>
    refine ⟨pairwise_append.2 ⟨hsp.1, pairwise_singleton _ _, fun a ha b hb => ?_⟩,
      forall_mem_append.2 ⟨hsp.2, fun e he => ?_⟩⟩
    · rw [mem_singleton.1 hb]
      exact (h.spans.2 a ha).2
    · rw [mem_singleton.1 he]
      exact ⟨h.start_lt (by simp [hp]), le_rfl⟩

lemma line (h : st.Ok) (hne : text ≠ [])
    (hln : st.line decode text = some st') : st'.Ok ∧ st'.pos = st.pos + text.length := by
  have hpos := length_pos_iff.2 hne
  have hle := h.start_le
  unfold LogState.line at hln
  split at hln
  case h_1 =>
    dsimp only at hln
    split at hln
    all_goals
      cases hln
      exact ⟨⟨h.commit, Nat.le_add_right _ _, fun hp => absurd rfl hp⟩, rfl⟩
  case h_2 =>
    have hend : st.ent.start < st.pos + text.length := by omega
    dsimp only at hln
    split at hln
    case h_1 => cases hln
    all_goals
      cases hln
      exact ⟨⟨h.spans, hend.le, fun _ => hend⟩, rfl⟩

lemma lines (h : st.Ok) {ls : List (List Char)} (hls : st.lines decode ls = some st') :
    st'.Ok ∧ st'.pos = st.pos + (unlines ls).length := by
  induction ls generalizing st with
  | nil =>
    cases hls
    exact ⟨h, rfl⟩
  | cons line ls ih =>
    obtain ⟨st₁, hln, hls⟩ := Option.bind_eq_some_iff.1 hls
    obtain ⟨hok, hpos⟩ := h.line decode (by simp) hln
    obtain ⟨hok', hpos'⟩ := ih hok hls
    refine ⟨hok', ?_⟩
    rw [hpos', hpos, unlines_cons]
    simp only [length_append, length_cons, length_nil]
    omega

end LogState.Ok

/-! ### Where the parser panics -/

section Panics

variable (decode : List Char → Except Stop Prog)

/-- The texts that are parsed, after the lines `cur` of the present program: every line that does
not announce a program is parsed with the lines before it that could be parsed. -/
def decoded : List Char → List (List Char) → List (List Char)
  | _, [] => []
  | cur, line :: lines =>
    let tmp := cur ++ (line ++ ['\n'])
    if (extractInt (line ++ ['\n']) "executing program ").isSome then decoded [] lines
    else
      tmp :: decoded (match decode tmp with
        | .ok _ => tmp
        | .error _ => cur) lines

/-- **A log is read to its end if and only if no text in it makes the parser panic.** -/
theorem lines_isSome_iff (st : LogState) (ls : List (List Char)) :
    (st.lines decode ls).isSome ↔
      ∀ text ∈ decoded decode st.cur ls, panics (decode text) = false := by
  induction ls generalizing st with
  | nil => simp [LogState.lines, decoded]
  | cons line ls ih =>
    rw [LogState.lines, decoded]
    cases hex : extractInt (line ++ ['\n']) "executing program " with
    | some proc =>
      simp only [LogState.line, hex, Option.bind_some, Option.isSome_some, if_true]
      exact ih _
    | none =>
      simp only [LogState.line, hex, Option.isSome_none, Bool.false_eq_true, if_false,
        forall_mem_cons]
      cases hdc : decode (st.cur ++ (line ++ ['\n'])) with
      | ok p => exact (ih _).trans ⟨fun h => ⟨rfl, h⟩, And.right⟩
      | error e =>
        cases e with
        | error e => exact (ih _).trans ⟨fun h => ⟨rfl, h⟩, And.right⟩
        | panic e => simp [panics]

/-- Without a byte behind the log its last line must have a line feed. -/
lemma newline_of_logLoop {data : List Char} (acc : List Char) (st : LogState)
    (h : logLoop decode [] acc data st ≠ none) : ∀ c ∈ data.getLast?, c = '\n' := by
  induction data generalizing acc st with
  | nil => simp
  | cons c data ih =>
    rw [logLoop] at h
    cases data with
    | nil =>
      by_contra hc
      rw [if_neg (by simpa using hc)] at h
      exact h (by simp [logLoop])
    | cons d data =>
      rw [getLast?_cons_cons]
      split at h
      · obtain ⟨st', hst⟩ := Option.ne_none_iff_exists'.1 h
        obtain ⟨st₁, -, hst⟩ := Option.bind_eq_some_iff.1 hst
        exact ih _ st₁ (by rw [hst]; simp)
      · exact ih _ _ h

/-- **Offsets in a log.** If a log is empty or ends with a line feed, and the parser does not panic
on its lines, what is found does not depend on what is behind its end, and the entries are not
empty, inside the log and in increasing order. Every other log is read beyond its end, or the
parser panics. -/
theorem parseLog_spans_iff (data : List Char) :
    (∃ entries, (∀ spare, parseLog decode spare data = some entries) ∧
      Spans data.length entries) ↔
      (∀ c ∈ data.getLast?, c = '\n') ∧
        ∀ text ∈ decoded decode [] (rawLines [] data), panics (decode text) = false := by
  have hdt : (∀ c ∈ data.getLast?, c = '\n') → unlines (rawLines [] data) = data :=
    fun hls => unlines_rawLines (fun c hc => by cases hc) (by rwa [nil_append])
  have hlp : (∀ c ∈ data.getLast?, c = '\n') → ∀ spare, logLoop decode spare [] data {} =
      ({} : LogState).lines decode (rawLines [] data) := by
    intro hls spare
    conv_lhs => rw [← hdt hls]
    exact logLoop_unlines decode (fun line hli => ne_of_mem_rawLines (by simp) hli) _
  constructor
  · rintro ⟨entries, hpr, -⟩
    obtain ⟨st, hst, -⟩ := Option.map_eq_some_iff.1 (hpr [])
    have hls : ∀ c ∈ data.getLast?, c = '\n' := newline_of_logLoop decode [] {} (by simp [hst])
    refine ⟨hls, (lines_isSome_iff decode {} _).1 ?_⟩
    rw [← hlp hls [], hst]
    rfl
  · rintro ⟨hls, hpan⟩
    obtain ⟨st, hst⟩ := Option.isSome_iff_exists.1 ((lines_isSome_iff decode {} _).2 hpan)
    have hstr : LogState.Ok {} := ⟨⟨Pairwise.nil, by simp⟩, le_rfl, fun hp => absurd rfl hp⟩
    obtain ⟨hok, hpos⟩ := hstr.lines decode hst
    have hend : data.length = st.pos := by
      rw [hpos, hdt hls]
      exact (Nat.zero_add _).symm
    refine ⟨st.commit.entries, fun spare => ?_, hend ▸ hok.commit⟩
    rw [parseLog, hlp hls, hst, Option.map_some, hend]

end Panics

/-- A region that is not aligned ends the parsing of a log. -/
example :
    let data := "executing program 0:\nmmap(&(0x7f0000000001)=nil, 0x1000)\n".toList
    parseLog (deserialize smallTarget keepCalls.sanitize 20) [] data = none := by
  decide +kernel

/-- **A log without a final line feed.** It cannot be read if nothing is behind it, and what is
behind it decides whether the program is found. -/
theorem parseLog_beyond_end :
    let data := "executing program 0:\nsync()".toList
    let found := fun spare => parseLog (deserialize smallTarget keepCalls.sanitize 20) spare data
    found [] = none ∧ (found ['\n']).map length = some 1 ∧ (found ['x']).map length = some 0 := by
  refine ⟨by decide +kernel, by decide +kernel, by decide +kernel⟩

end Razzer.ExecLog
