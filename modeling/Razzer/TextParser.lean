import Mathlib

/-!
Parsers for a line of text.

A parser has a state besides the line. It can give up, by an error that it returns or by a panic.
The scanner below it does not give up: it keeps its last error and goes on, at the end of the line
as it were. What a parser accepts is stated with postconditions (`Ensures`), and what it does on a
given text by equations, which are put together with `Takes.bind`.
-/

namespace Razzer.TextParser

open String

inductive Stop
  | error (text : String)
  | panic (text : String)
  deriving DecidableEq

def panics {α : Type} (r : Except Stop α) : Bool :=
  match r with
  | .error (.panic _) => true
  | _ => false

def rejects {α : Type} (r : Except Stop α) : Bool :=
  match r with
  | .error (.error _) => true
  | _ => false

/-- What is left of the line, and the error of the scanner. -/
structure Line where
  rest : List Char
  err : Option String := none

def Parser (σ α : Type) := σ → Line → Except Stop (α × σ × Line)

variable {σ α β : Type}

instance : Monad (Parser σ) where
  pure x := fun s t => .ok (x, s, t)
  bind f k := fun s t =>
    match f s t with
    | .error e => .error e
    | .ok (x, s, t) => k x s t

def stop (e : Stop) : Parser σ α := fun _ _ => .error e

def fail (e : String) : Parser σ α := stop (.error e)

def state : Parser σ σ := fun s t => .ok (s, s, t)

def setState (s : σ) : Parser σ Unit := fun _ t => .ok ((), s, t)

/-- A step of the scanner; after an error it does nothing and returns `x`. -/
def scan (x : α) (f : List Char → Except String (α × List Char)) : Parser σ α := fun s t =>
  if t.err.isSome then .ok (x, s, t)
  else
    match f t.rest with
    | .error e => .ok (x, s, { t with err := some e })
    | .ok (y, rest) => .ok (y, s, { t with rest := rest })

/-! ### Characters and identifiers -/

def isWs (c : Char) : Bool := c == ' ' || c == '\t'

def isIdent (c : Char) : Bool := c.isAlphanum || c == '_' || c == '$'

def skipWs (t : List Char) : List Char := t.dropWhile isWs

def eof : Parser σ Bool := fun s t => .ok (t.rest.isEmpty, s, t)

/-- The next character, which is not taken. -/
def char : Parser σ Char := scan '\x00' fun t =>
  match t with
  | [] => .error "unexpected eof"
  | c :: t => .ok (c, c :: t)

/-- A character that has to be there, and the blanks after it. -/
def parse (c : Char) : Parser σ Unit := scan () fun t =>
  match t with
  | [] => .error ("want " ++ ofList [c] ++ ", got EOF")
  | d :: t =>
    if d = c then .ok ((), skipWs t)
    else .error ("want '" ++ ofList [c] ++ "', got '" ++ ofList [d] ++ "'")

/-- It does not look at an earlier error. -/
def ident : Parser σ (List Char) := fun s t =>
  if (t.rest.takeWhile isIdent).isEmpty then
    .ok ([], s, { t with err := some "failed to parse identifier" })
  else .ok (t.rest.takeWhile isIdent, s, { t with rest := skipWs (t.rest.dropWhile isIdent) })

/-! ### Postconditions -/

/-- If the parser accepts something from the state, its result satisfies `Q`. -/
def Ensures (f : Parser σ α) (s : σ) (Q : α → σ → Prop) : Prop :=
  ∀ t x s' t', f s t = .ok (x, s', t') → Q x s'

variable {s s' s'' : σ} {x : α} {Q : β → σ → Prop} {f : Parser σ α} {k : α → Parser σ β}
  {cs : List Char} {p q : Char → Bool} {y : β}

lemma ensures_pure {Q : α → σ → Prop} (h : Q x s) : Ensures (pure x) s Q := by
  rintro t y s' t' heq
  cases heq
  exact h

lemma ensures_stop {e : Stop} {Q : α → σ → Prop} : Ensures (stop e) s Q := by
  rintro t y s' t' heq
  cases heq

lemma ensures_state_bind {k : σ → Parser σ β} (hk : Ensures (k s) s Q) :
    Ensures (state >>= k) s Q := hk

lemma ensures_setState {Q : Unit → σ → Prop} (h : Q () s') : Ensures (setState s') s Q := by
  rintro t y s'' t' heq
  cases heq
  exact h

lemma ensures_setState_bind {k : Unit → Parser σ β} (hk : Ensures (k ()) s' Q) :
    Ensures (setState s' >>= k) s Q := hk

/-- **One parser after another.** -/
theorem Ensures.bind {P : α → σ → Prop} (hf : Ensures f s P)
    (hk : ∀ x s', P x s' → Ensures (k x) s' Q) : Ensures (f >>= k) s Q := by
  rintro t y s'' t'' heq
  simp only [Bind.bind] at heq
  split at heq
  · cases heq
  case h_2 x s' t' hfst => exact hk x s' (hf t x s' t' hfst) t' y s'' t'' heq

def Keeps (f : Parser σ α) : Prop := ∀ s, Ensures f s fun _ s' => s' = s

lemma keeps_pure (x : α) : Keeps (pure x : Parser σ α) := fun _ => ensures_pure rfl

lemma keeps_stop (e : Stop) : Keeps (stop e : Parser σ α) := fun _ => ensures_stop

lemma keeps_scan (x : α) (g : List Char → Except String (α × List Char)) :
    Keeps (scan x g : Parser σ α) := by
  rintro s t y s' t' heq
  unfold scan at heq
  split at heq
  · cases heq
    rfl
  · split at heq <;> cases heq <;> rfl

lemma keeps_eof : Keeps (eof : Parser σ Bool) := by
  rintro s t y s' t' heq
  cases heq
  rfl

lemma keeps_char : Keeps (char : Parser σ Char) := keeps_scan _ _

lemma keeps_parse (c : Char) : Keeps (parse c : Parser σ Unit) := keeps_scan _ _

lemma keeps_ident : Keeps (ident : Parser σ (List Char)) := by
  rintro s t y s' t' heq
  unfold ident at heq
  split at heq <;> cases heq <;> rfl

lemma Keeps.bind (hf : Keeps f) (hk : ∀ x, Keeps (k x)) : Keeps (f >>= k) := fun s =>
  (hf s).bind fun x _ hs => hs ▸ hk x s

lemma Keeps.ensures (hf : Keeps f) (hk : ∀ x, Ensures (k x) s Q) : Ensures (f >>= k) s Q :=
  (hf s).bind fun x _ hs => hs ▸ hk x

/-! ### What a parser takes -/

/-- The parser takes exactly the characters `cs`, where the character after them is one of `p`. -/
def Takes (f : Parser σ α) (s : σ) (cs : List Char) (x : α) (s' : σ) (p : Char → Bool) : Prop :=
  ∀ c t, p c = true → f s ⟨cs ++ c :: t, none⟩ = .ok (x, s', ⟨c :: t, none⟩)

lemma takes_pure (x : α) (s : σ) (p : Char → Bool) : Takes (pure x) s [] x s p := fun _ _ _ => rfl

lemma Takes.mono (hf : Takes f s cs x s' p) (h : ∀ c, q c → p c) : Takes f s cs x s' q :=
  fun c t hc => hf c t (h c hc)

/-- **One parser after another**: the first one stops where the second one begins. -/
theorem Takes.bind {u v : List Char} (hf : Takes f s u x s' p) (hk : Takes (k x) s' v y s'' q)
    (hpq : ∀ c, q c → p (v.headD c)) : Takes (f >>= k) s (u ++ v) y s'' q := by
  intro c t hc
  have hnx : v ++ c :: t = v.headD c :: (v ++ c :: t).tail := by cases v <;> rfl
  rw [List.append_assoc, hnx]
  simp only [Bind.bind, hf _ _ (hpq c hc)]
  rw [← hnx]
  exact hk c t hc

lemma Takes.bind_eq {u v : List Char} {c : Char} (hf : Takes f s u x s' p) (hc : p c) :
    (f >>= k) s ⟨u ++ c :: v, none⟩ = k x s' ⟨c :: v, none⟩ := by
  simp only [Bind.bind, hf c v hc]

lemma Takes.bind_nil (hf : Takes f s cs x s' p) (hk : Takes (k x) s' [] y s'' q)
    (hpq : ∀ c, q c → p c) : Takes (f >>= k) s cs y s'' q := by
  simpa using hf.bind hk hpq

lemma Takes.bind_pure (hf : Takes f s cs x s' p) (hk : k x = pure y) :
    Takes (f >>= k) s cs y s' p :=
  hf.bind_nil (hk ▸ takes_pure y s' p) fun _ hc => hc

lemma takes_state_bind {k : σ → Parser σ β} (hk : Takes (k s) s cs y s' p) :
    Takes (state >>= k) s cs y s' p := hk

lemma takes_setState_bind {k : Unit → Parser σ β} (hk : Takes (k ()) s' cs y s'' p) :
    Takes (setState s' >>= k) s cs y s'' p := hk

variable {k : Char → Parser σ β}

lemma takes_char_bind {d : Char} (hk : Takes (k d) s (d :: cs) y s' p) :
    Takes (char >>= k) s (d :: cs) y s' p := hk

lemma takes_char_bind_nil (hk : ∀ c, p c → Takes (k c) s [] y s' p) :
    Takes (char >>= k) s [] y s' p :=
  fun c t hc => hk c hc c t hc

variable {c d : Char}

lemma skipWs_cons (h : isWs c = false) (t : List Char) : skipWs (c :: t) = c :: t :=
  List.dropWhile_cons_of_neg (by simp [h])

lemma takes_parse (d : Char) (s : σ) : Takes (parse d) s [d] () s fun c => !isWs c := by
  intro c t hc
  have hws : skipWs (c :: t) = c :: t := skipWs_cons (by simpa using hc) t
  simp [parse, scan, hws]

lemma takes_parse_bind {k : Unit → Parser σ β} (hc : (!isWs c))
    (hk : Takes (k ()) s (c :: cs) y s' p) : Takes (parse d >>= k) s (d :: c :: cs) y s' p :=
  (takes_parse d s).bind hk fun _ _ => hc

lemma takes_parse_blank (d : Char) (s : σ) : Takes (parse d) s [d, ' '] () s fun c => !isWs c := by
  intro c t hc
  have hws : skipWs (' ' :: c :: t) = c :: t := skipWs_cons (by simpa using hc) t
  simp [parse, scan, hws]

lemma span_append (h : ∀ c ∈ cs, p c) (hd : p d = false) (t : List Char) :
    (cs ++ d :: t).takeWhile p = cs ∧ (cs ++ d :: t).dropWhile p = d :: t := by
  rw [List.takeWhile_append_of_pos h, List.dropWhile_append_of_pos h]
  simp [hd]

lemma takes_ident (hne : cs ≠ []) (h : ∀ c ∈ cs, isIdent c) (s : σ) :
    Takes ident s cs cs s fun c => !isIdent c && !isWs c := by
  intro c t hc
  simp only [Bool.and_eq_true, Bool.not_eq_true'] at hc
  obtain ⟨htk, hdr⟩ := span_append h hc.1 t
  simp only [ident, htk, hdr, skipWs_cons hc.2]
  simp [hne]

lemma takes_ident_blank (hne : cs ≠ []) (h : ∀ c ∈ cs, isIdent c) (s : σ) :
    Takes ident s (cs ++ [' ']) cs s fun c => !isWs c := by
  intro c t hc
  obtain ⟨htk, hdr⟩ := span_append h (show isIdent ' ' = false by decide) (c :: t)
  have hws : skipWs (' ' :: c :: t) = c :: t := skipWs_cons (by simpa using hc) t
  simp only [ident, List.append_assoc, List.singleton_append, htk, hdr, hws]
  simp [hne]

end Razzer.TextParser
