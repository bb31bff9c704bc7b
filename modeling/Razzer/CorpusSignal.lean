import Razzer.Runs
import Razzer.SyzManager

/-!
The signal of the corpus and its minimisation.

A corpus is minimised to inputs that have, for every element, one with the highest priority. The
inputs are sorted by the size of their signal first, and maps are walked in any order, so which
inputs are kept is not determined. The signal they have together is: it is that of the corpus
before, which is what the manager keeps as the signal of the corpus.
-/

namespace Razzer.CorpusSignal

open Feedback SyzManager Runs List Function
open SyzManager (init)
open RPCInput (signal)

/-! ### Minimize -/

structure Context (α : Type) where
  signal : Signal
  context : α

structure ContextPrio where
  prio : ℤ
  idx : ℕ

abbrev Covered := AList fun _ : UInt32 => ContextPrio

/-- What the source leaves open: the order in which the map of the corpus and the set of kept
indices are walked, and what the sort does with signals of equal size. -/
structure Orders (α : Type) where
  walk : List α → List α
  walk_perm : ∀ l, (walk l).Perm l
  sort : List (Context α) → List (Context α)
  sort_perm : ∀ l, (sort l).Perm l
  sort_sorted : ∀ l, (sort l).Pairwise fun a b =>
    b.signal.entries.length ≤ a.signal.entries.length
  pick : List ℕ → List ℕ
  pick_perm : ∀ l, (pick l).Perm l

def coverElem (i : ℕ) (covered : Covered) (x : Sigma fun _ : UInt32 => ℤ) : Covered :=
  match covered.lookup x.1 with
  | some prev => if x.2 > prev.prio then covered.insert x.1 ⟨x.2, i⟩ else covered
  | none => covered.insert x.1 ⟨x.2, i⟩

def coverAll {α : Type} (i : ℕ) (covered : Covered) : List (Context α) → Covered
  | [] => covered
  | inp :: corpus => coverAll (i + 1) (inp.signal.entries.foldl (coverElem i) covered) corpus

def indices (covered : Covered) : List ℕ := (covered.entries.map fun x => x.2.idx).dedup

def minimize {α : Type} (o : Orders α) (corpus : List (Context α)) : List α :=
  let corpus := o.sort corpus
  (o.pick (indices (coverAll 0 ∅ corpus))).filterMap fun idx => corpus[idx]?.map Context.context

def keep {α : Type} (o : Orders α) (sign : α → Signal) (l : List α) : List α :=
  minimize o ((o.walk l).map fun a => ⟨sign a, a⟩)

/-! ### The corpora of the manager -/

/-- An assignment to the map of a corpus. -/
def put {α : Type} (sign : α → Sig) (corpus : List (Sig × α)) (inp : α) : List (Sig × α) :=
  (corpus.filter fun x => x.1 ≠ sign inp) ++ [(sign inp, inp)]

section Handlers

variable (hash : String → Sig)

def sigOf (inp : RPCInput) : Sig := hash inp.prog.bytes

def raceSigOf (rinp : RPCRaceInput) : Sig := hash (rinp.raceProg ++ rinp.raceInfo)

def minimizeCorpus (cover : Bool) (o : Orders RPCInput) (m : Manager) : Manager :=
  if cover = true ∧ m.corpus ≠ [] then
    SyzManager.minimizeCorpus m
      ((keep o RPCInput.signal (m.corpus.map Prod.snd)).foldl (put (sigOf hash)) [])
  else m

def keptRace (cover : Bool) (o : Orders RPCRaceInput) (m : Manager) : List (Sig × RPCRaceInput) :=
  if cover = true ∧ m.raceCorpus ≠ [] then
    (keep o RPCRaceInput.signal (m.raceCorpus.map Prod.snd)).foldl (put (raceSigOf hash)) []
  else m.raceCorpus

def minimizeRaceCorpus (flag cover : Bool) (o : Orders RPCRaceInput) (m : Manager) : Manager :=
  if flag then SyzManager.minimizeRaceCorpus m (keptRace hash cover o m) else m

inductive Ev
  | newInput (n : Name) (inp : RPCInput)
  | minimizeCorpus (cover : Bool) (o : Orders RPCInput)
  | newRaceInput (n : Name) (rinp : RPCRaceInput)
  | minimizeRaceCorpus (flag cover : Bool) (o : Orders RPCRaceInput)
  | connect (n : Name) (cover : Bool) (o : Orders RPCInput)
  | schedulerConnect (n : Name) (flag cover : Bool) (o : Orders RPCRaceInput)
  | fuzzerPoll (n : Name) (a : PollArgs)
  | schedulerPoll (n : Name) (a : SchedulerPollArgs)
  | newLikelyRaceInput (n : Name) (inp : RPCLikelyRaceInput) (coin : Bool)
  | updateSuppPairs (drops dels adds : List MempairHash)

def step (m : Manager) : Ev → Option Manager
  | .newInput n inp => newInput m n (sigOf hash inp) inp
  | .minimizeCorpus cover o => some (minimizeCorpus hash cover o m)
  | .newRaceInput n rinp => newRaceInput m n (raceSigOf hash rinp) rinp
  | .minimizeRaceCorpus flag cover o => some (minimizeRaceCorpus hash flag cover o m)
  | .connect n cover o => some (minimizeCorpus hash cover o (register m n))
  | .schedulerConnect n flag cover o =>
    some (minimizeRaceCorpus hash flag cover o { m with
      schedulers := update m.schedulers n (some ⟨[], [], [], ∅, [], [], []⟩) })
  | .fuzzerPoll n a => (fuzzerPoll m n a).map Prod.fst
  | .schedulerPoll n a => (schedulerPoll m n a).map Prod.fst
  | .newLikelyRaceInput n inp coin => newLikelyRaceInput m n inp coin
  | .updateSuppPairs drops dels adds => updateSuppPairs m drops dels adds

end Handlers

/-! ### The join of signals -/

/-- The highest priority any of the signals gives to an element. -/
def joined (sigs : List Signal) : UInt32 → WithBot ℤ := (sigs.map prio).foldr (· ⊔ ·) ⊥

@[simp] lemma joined_nil : joined [] = ⊥ := rfl

@[simp] lemma joined_cons (s : Signal) (sigs : List Signal) :
    joined (s :: sigs) = prio s ⊔ joined sigs := rfl

lemma joined_append (sigs sigs' : List Signal) :
    joined (sigs ++ sigs') = joined sigs ⊔ joined sigs' := by
  induction sigs with
  | nil => exact (bot_sup_eq _).symm
  | cons s sigs ih => rw [cons_append, joined_cons, joined_cons, ih, sup_assoc]

variable {sigs sigs' : List Signal} {s : Signal} {f : UInt32 → WithBot ℤ} {idx : ℕ}
  {m m' : Manager} {n : Name} {inp : RPCInput} {rinp : RPCRaceInput} {e : Ev} {es : List Ev}
  {hash : String → Sig} {sent : RPCInput → Prop} {rsent : RPCRaceInput → Prop}

lemma le_joined (h : s ∈ sigs) : prio s ≤ joined sigs := by
  induction sigs with
  | nil => exact absurd h not_mem_nil
  | cons s' sigs ih =>
    rcases mem_cons.1 h with rfl | h
    · exact le_sup_left
    · exact (ih h).trans le_sup_right

lemma joined_le (h : ∀ s ∈ sigs, prio s ≤ f) : joined sigs ≤ f := by
  induction sigs with
  | nil => exact bot_le
  | cons s sigs ih =>
    exact sup_le (h s mem_cons_self) (ih fun s' hs' => h s' (mem_cons_of_mem s hs'))

lemma joined_perm (h : sigs.Perm sigs') : joined sigs = joined sigs' :=
  le_antisymm (joined_le fun _ hs => le_joined (h.mem_iff.1 hs))
    (joined_le fun _ hs => le_joined (h.mem_iff.2 hs))

/-! ### What is covered -/

section Minimize

variable {α : Type}

def better (i : ℕ) (prev : Option ContextPrio) : Option ℤ → Option ContextPrio
  | none => prev
  | some p =>
    match prev with
    | none => some ⟨p, i⟩
    | some q => if p > q.prio then some ⟨p, i⟩ else some q

lemma lookup_coverElem (i : ℕ) (c : Covered) (x : Sigma fun _ : UInt32 => ℤ) (e : UInt32) :
    (coverElem i c x).lookup e = better i (c.lookup e) (if e = x.1 then some x.2 else none) := by
  unfold coverElem
  by_cases he : e = x.1
  · subst he
    rw [if_pos rfl]
    cases hl : c.lookup x.1 with
    | none => exact AList.lookup_insert c
    | some q =>
      simp only [better]
      split
      · exact AList.lookup_insert c
      · exact hl
  · rw [if_neg he, better]
    cases c.lookup x.1 with
    | none => exact AList.lookup_insert_ne he
    | some q =>
      simp only
      split
      · exact AList.lookup_insert_ne he
      · rfl

lemma lookup_foldl_coverElem (i : ℕ) (c : Covered) {l : List (Sigma fun _ : UInt32 => ℤ)}
    (hl : l.NodupKeys) (e : UInt32) :
    (l.foldl (coverElem i) c).lookup e = better i (c.lookup e) (l.dlookup e) := by
  induction l generalizing c with
  | nil => rfl
  | cons x l ih =>
    obtain ⟨hx, hl⟩ := nodupKeys_cons.1 hl
    rw [foldl_cons, ih _ hl, lookup_coverElem]
    by_cases he : e = x.1
    · subst he
      rw [if_pos rfl, dlookup_eq_none.2 hx, dlookup_cons_eq]
      rfl
    · rw [if_neg he, dlookup_cons_ne _ _ he]
      rfl

/-- After the signals of `seen`: an element is covered by one of them, with the highest
priority, and an element that is not covered is in none. -/
def CoveredBy (seen : List (Context α)) (c : Covered) : Prop :=
  ∀ e, match c.lookup e with
    | none => ∀ x ∈ seen, prio x.signal e = ⊥
    | some cp => (∃ x, seen[cp.idx]? = some x ∧ prio x.signal e = cp.prio) ∧
        ∀ x ∈ seen, prio x.signal e ≤ cp.prio

variable {c : Covered} {corpus seen : List (Context α)} {o : Orders α} {a : α}

lemma CoveredBy.snoc (h : CoveredBy seen c) (inp : Context α) :
    CoveredBy (seen ++ [inp]) (inp.signal.entries.foldl (coverElem seen.length) c) := by
  intro e
  rw [lookup_foldl_coverElem seen.length c inp.signal.nodupKeys e]
  have hp : prio inp.signal e = toPrio (inp.signal.entries.dlookup e) := rfl
  have hls : (seen ++ [inp])[seen.length]? = some inp := by simp
  have hold : ∀ {i : ℕ} {x : Context α}, seen[i]? = some x → (seen ++ [inp])[i]? = some x :=
    fun hx => (getElem?_append_left (List.getElem?_eq_some_iff.1 hx).1).trans hx
  have hmem : ∀ {P : Context α → Prop}, (∀ x ∈ seen, P x) → P inp → ∀ x ∈ seen ++ [inp], P x := by
    intro P hs hi x hx
    rcases mem_append.1 hx with hx | hx
    · exact hs x hx
    · rw [mem_singleton.1 hx]
      exact hi
  have he := h e
  cases hd : inp.signal.entries.dlookup e with
  | none =>
    rw [hd] at hp
    cases hc : c.lookup e with
    | none =>
      simp only [hc] at he
      exact hmem he hp
    | some cp =>
      simp only [hc] at he
      obtain ⟨⟨x, hx, hxp⟩, hall⟩ := he
      exact ⟨⟨x, hold hx, hxp⟩, hmem hall (hp ▸ bot_le)⟩
  | some p =>
    rw [hd] at hp
    cases hc : c.lookup e with
    | none =>
      simp only [hc] at he
      exact ⟨⟨inp, hls, hp⟩, hmem (fun x hx => (he x hx).le.trans bot_le) hp.le⟩
    | some cp =>
      simp only [hc] at he
      obtain ⟨⟨x, hx, hxp⟩, hall⟩ := he
      simp only [better]
      by_cases hgt : p > cp.prio
      · rw [if_pos hgt]
        refine ⟨⟨inp, hls, hp⟩, hmem (fun y hy => (hall y hy).trans ?_) hp.le⟩
        exact WithBot.coe_le_coe.2 hgt.le
      · rw [if_neg hgt]
        refine ⟨⟨x, hold hx, hxp⟩, hmem hall (hp.le.trans ?_)⟩
        exact WithBot.coe_le_coe.2 (not_lt.1 hgt)

/-- **All signals.** -/
lemma coveredBy_coverAll (corpus : List (Context α)) (h : CoveredBy seen c) :
    CoveredBy (seen ++ corpus) (coverAll seen.length c corpus) := by
  induction corpus generalizing seen c with
  | nil =>
    rw [append_nil]
    exact h
  | cons inp corpus ih =>
    have hnx := ih (h.snoc inp)
    rw [append_assoc, singleton_append, length_append, length_singleton]
      at hnx
    exact hnx

lemma mem_indices : idx ∈ indices c ↔ ∃ e cp, c.lookup e = some cp ∧ cp.idx = idx := by
  rw [indices, mem_dedup, mem_map]
  constructor
  · rintro ⟨⟨e, cp⟩, hmem, rfl⟩
    exact ⟨e, cp, AList.mem_lookup_iff.2 hmem, rfl⟩
  · rintro ⟨e, cp, hl, rfl⟩
    exact ⟨⟨e, cp⟩, AList.mem_lookup_iff.1 hl, rfl⟩

lemma coveredBy_sorted (o : Orders α) (corpus : List (Context α)) :
    CoveredBy (o.sort corpus) (coverAll 0 ∅ (o.sort corpus)) := by
  have hnil : CoveredBy ([] : List (Context α)) ∅ := fun _ _ hx => absurd hx not_mem_nil
  exact coveredBy_coverAll (o.sort corpus) hnil

lemma mem_minimize :
    a ∈ minimize o corpus ↔ ∃ idx ∈ indices (coverAll 0 ∅ (o.sort corpus)),
      ∃ x, (o.sort corpus)[idx]? = some x ∧ x.context = a := by
  simp only [minimize, mem_filterMap, Option.map_eq_some_iff]
  exact exists_congr fun idx => and_congr_left' (o.pick_perm _).mem_iff

lemma nodup_minimize {κ : Type} (o : Orders α) (key : α → κ)
    (h : (corpus.map fun x => key x.context).Nodup) : ((minimize o corpus).map key).Nodup := by
  have hsr : ((o.sort corpus).map fun x => key x.context).Nodup :=
    ((o.sort_perm corpus).map _).nodup_iff.2 h
  rw [minimize, map_filterMap]
  refine Nodup.filterMap ?_ ((o.pick_perm _).nodup_iff.2 (nodup_dedup _))
  intro i j k hi hj
  simp only [Option.map_map, Option.mem_def, Option.map_eq_some_iff] at hi hj
  obtain ⟨x, hx, rfl⟩ := hi
  obtain ⟨y, hy, hxy⟩ := hj
  obtain ⟨hil, rfl⟩ := List.getElem?_eq_some_iff.1 hx
  obtain ⟨hjl, rfl⟩ := List.getElem?_eq_some_iff.1 hy
  have hinj : ∀ (hi : i < _) (hj : j < _), _ → i = j := fun hi hj =>
    (@List.Nodup.getElem_inj_iff _ _ hsr i hi j hj).1
  refine hinj (by simpa using hil) (by simpa using hjl) ?_
  simpa using hxy.symm

/-- **Minimisation keeps the signal.** -/
theorem joined_minimize (o : Orders α) (sign : α → Signal) (l : List α) :
    joined ((minimize o (l.map fun a => ⟨sign a, a⟩)).map sign) = joined (l.map sign) := by
  set corpus : List (Context α) := l.map fun a => ⟨sign a, a⟩ with hcr
  -- what is sorted are the inputs with their signals
  have hinp : ∀ x ∈ o.sort corpus, x.context ∈ l ∧ x.signal = sign x.context := by
    intro x hx
    obtain ⟨a, ha, rfl⟩ := mem_map.1 ((o.sort_perm corpus).mem_iff.1 hx)
    exact ⟨ha, rfl⟩
  have hcov := coveredBy_sorted o corpus
  apply le_antisymm
  · refine joined_le fun s hs => ?_
    obtain ⟨a, ha, rfl⟩ := mem_map.1 hs
    obtain ⟨idx, -, x, hx, rfl⟩ := mem_minimize.1 ha
    exact le_joined (mem_map_of_mem (hinp x (mem_of_getElem? hx)).1)
  · refine joined_le fun s hs e => ?_
    obtain ⟨a, ha, rfl⟩ := mem_map.1 hs
    have hmem : (⟨sign a, a⟩ : Context α) ∈ o.sort corpus :=
      (o.sort_perm corpus).mem_iff.2 (mem_map_of_mem ha)
    have he := hcov e
    cases hc : (coverAll 0 ∅ (o.sort corpus)).lookup e with
    | none =>
      simp only [hc] at he
      exact (he _ hmem).le.trans bot_le
    | some cp =>
      simp only [hc] at he
      obtain ⟨⟨x, hx, hxp⟩, hall⟩ := he
      have hkp : x.context ∈ minimize o corpus :=
        mem_minimize.2 ⟨cp.idx, mem_indices.2 ⟨e, cp, hc, rfl⟩, x, hx, rfl⟩
      calc prio (sign a) e ≤ cp.prio := hall _ hmem
        _ = prio x.signal e := hxp.symm
        _ = prio (sign x.context) e := by rw [(hinp x (mem_of_getElem? hx)).2]
        _ ≤ joined ((minimize o corpus).map sign) e := le_joined (mem_map_of_mem hkp) e

lemma nodup_keep {κ : Type} (o : Orders α) (sign : α → Signal) {l : List α} (key : α → κ)
    (h : (l.map key).Nodup) : ((keep o sign l).map key).Nodup := by
  refine nodup_minimize o key ?_
  rw [map_map]
  exact ((o.walk_perm l).map key).nodup_iff.2 h

lemma joined_keep (o : Orders α) (sign : α → Signal) (l : List α) :
    joined ((keep o sign l).map sign) = joined (l.map sign) :=
  (joined_minimize o sign (o.walk l)).trans (joined_perm ((o.walk_perm l).map sign))

end Minimize

/-! ### A corpus by signatures -/

section Keyed

variable {α : Type} {key : α → Sig} {sign : α → Signal} {l l' : List (Sig × α)} {s : Signal}
  {a : α} {sent : α → Prop}

/-- The inputs of a corpus are there under their own signatures, each once, and their signal is
`s`. -/
structure Keyed (key : α → Sig) (sign : α → Signal) (l : List (Sig × α)) (s : Signal) : Prop where
  nodup : (l.map Prod.fst).Nodup
  keyed : ∀ x ∈ l, x.1 = key x.2
  signal : joined (l.map fun x => sign x.2) = prio s

lemma Keyed.empty : Keyed key sign [] ∅ := ⟨nodup_nil, fun _ hx => absurd hx not_mem_nil, rfl⟩

lemma foldl_put {l : List α} {corpus : List (Sig × α)}
    (h : ((corpus ++ l.map fun a => (key a, a)).map Prod.fst).Nodup) :
    l.foldl (put key) corpus = corpus ++ l.map fun a => (key a, a) := by
  induction l generalizing corpus with
  | nil => exact (append_nil corpus).symm
  | cons a l ih =>
    have hkp : put key corpus a = corpus ++ [(key a, a)] := by
      rw [put, filter_eq_self.2]
      intro x hx
      rw [map_append, nodup_append] at h
      exact decide_eq_true (h.2.2 _ (mem_map_of_mem hx) _ mem_cons_self)
    rw [foldl_cons, hkp, ih (by simpa using h), append_assoc, singleton_append, map_cons]

/-- **The minimisation keeps the signal.** -/
lemma Keyed.keep (h : Keyed key sign l s) (o : Orders α) :
    Keyed key sign ((CorpusSignal.keep o sign (l.map Prod.snd)).foldl (put key) []) s := by
  have hsg : (l.map Prod.snd).map key = l.map Prod.fst := by
    rw [map_map]
    exact map_congr_left fun x hx => (h.keyed x hx).symm
  have hky : ((([] : List (Sig × α)) ++ (CorpusSignal.keep o sign (l.map Prod.snd)).map
      fun a => (key a, a)).map Prod.fst).Nodup := by
    rw [nil_append, map_map]
    exact nodup_keep o sign key (hsg ▸ h.nodup)
  rw [foldl_put hky, nil_append]
  refine ⟨hky, fun x hx => ?_, ?_⟩
  · obtain ⟨a, -, rfl⟩ := mem_map.1 hx
    rfl
  · have hjn := joined_keep o sign (l.map Prod.snd)
    rw [map_map] at hjn ⊢
    exact hjn.trans h.signal

/-- An input that is present gets the signal `t` as well. -/
lemma Keyed.merge (h : Keyed key sign l s) {t : Signal} {k : Sig} {f : α → α}
    (hkey : ∀ a, key (f a) = key a) (hsl : ∀ a, sign (f a) = Feedback.merge t (sign a))
    (hk : ∃ y ∈ l, y.1 = k) :
    Keyed key sign (l.map fun y => if y.1 = k then (k, f y.2) else y) (Feedback.merge s t) := by
  set g : Sig × α → Sig × α := fun y => if y.1 = k then (k, f y.2) else y with hg
  have hfst : ∀ y, (g y).1 = y.1 := fun y => by
    simp only [hg]
    split <;> simp [*]
  have hle : ∀ y, prio (sign y.2) ≤ prio (sign (g y).2) ∧
      prio (sign (g y).2) ≤ prio (sign y.2) ⊔ prio t := by
    intro y
    by_cases hy : y.1 = k
    · simp only [hg, if_pos hy, hsl, prio_merge]
      exact ⟨le_sup_right, (sup_comm _ _).le⟩
    · simp only [hg, if_neg hy]
      exact ⟨le_rfl, le_sup_left⟩
  have hmem : ∀ y ∈ l, prio (sign (g y).2) ≤ joined ((l.map g).map fun x => sign x.2) :=
    fun y hy => le_joined (mem_map_of_mem (mem_map_of_mem hy))
  refine ⟨by simpa [comp_def, hfst] using h.nodup, fun x hx => ?_, ?_⟩
  · obtain ⟨y, hy, rfl⟩ := mem_map.1 hx
    have hyk := h.keyed y hy
    simp only [hg]
    split
    case isTrue heq => exact heq.symm.trans (hyk.trans (hkey y.2).symm)
    case isFalse => exact hyk
  rw [prio_merge, ← h.signal]
  apply le_antisymm
  · refine joined_le fun r hr => ?_
    simp only [mem_map, exists_exists_and_eq_and] at hr
    obtain ⟨y, hy, rfl⟩ := hr
    have hyl : prio (sign y.2) ≤ joined (l.map fun x => sign x.2) :=
      le_joined (mem_map_of_mem (f := fun x => sign x.2) hy)
    exact (hle y).2.trans (sup_le_sup_right hyl _)
  · refine sup_le (joined_le fun r hr => ?_) ?_
    · obtain ⟨y, hy, rfl⟩ := mem_map.1 hr
      exact (hle y).1.trans (hmem y hy)
    · obtain ⟨y, hy, hyk⟩ := hk
      refine le_trans ?_ (hmem y hy)
      simp only [hg, if_pos hyk, hsl, prio_merge]
      exact le_sup_left

lemma Keyed.snoc (h : Keyed key sign l s) (ha : ∀ y ∈ l, y.1 ≠ key a) :
    Keyed key sign (l ++ [(key a, a)]) (Feedback.merge s (sign a)) := by
  refine ⟨?_, fun x hx => ?_, ?_⟩
  · rw [map_append, nodup_append_comm]
    refine nodup_cons.2 ⟨fun hmem => ?_, h.nodup⟩
    obtain ⟨y, hy, hya⟩ := mem_map.1 hmem
    exact ha y hy hya
  · rcases mem_append.1 hx with hx | hx
    · exact h.keyed x hx
    · rw [mem_singleton.1 hx]
  · rw [map_append, joined_append, h.signal, prio_merge, map_singleton, joined_cons,
      joined_nil, sup_bot_eq]

/-- What a step makes of a corpus and its signal, when it is sent the inputs in `sent`. -/
structure Grows (key : α → Sig) (sign : α → Signal) (l : List (Sig × α)) (s : Signal)
    (l' : List (Sig × α)) (s' : Signal) (sent : α → Prop) : Prop where
  keyed : Keyed key sign l s → Keyed key sign l' s'
  le : prio s ≤ prio s'
  sent : ∀ a, sent a → prio (sign a) ≤ prio s'

lemma Grows.same (h : ∀ a, ¬ sent a) : Grows key sign l s l s sent :=
  ⟨id, le_rfl, fun a ha => absurd ha (h a)⟩

lemma Grows.keep (o : Orders α) :
    Grows key sign l s ((CorpusSignal.keep o sign (l.map Prod.snd)).foldl (put key) []) s
      fun _ => False :=
  ⟨fun h => h.keep o, le_rfl, fun _ => False.elim⟩

lemma Grows.known (he : Feedback.empty (diff s (sign a)) = true) (hs : ∀ x, sent x → a = x) :
    Grows key sign l s l s sent := by
  refine ⟨id, le_rfl, fun x hx => ?_⟩
  have hle := prio_le_sup_diff s (sign a)
  rw [prio_of_empty he, sup_bot_eq, hs x hx] at hle
  exact hle

lemma Grows.add (h : Keyed key sign l s → Keyed key sign l' (Feedback.merge s (sign a)))
    (hs : ∀ x, sent x → a = x) :
    Grows key sign l s l' (Feedback.merge s (sign a)) sent := by
  have hmr := prio_merge s (sign a)
  exact ⟨h, le_sup_left.trans hmr.ge, fun x hx => hs x hx ▸ le_sup_right.trans hmr.ge⟩

end Keyed

/-! ### The corpora -/

/-- The signal of the corpora is that of their inputs, and each input is there once. -/
structure Inv (hash : String → Sig) (m : Manager) : Prop where
  plain : Keyed (sigOf hash) RPCInput.signal m.corpus m.corpusSignal
  race : Keyed (raceSigOf hash) RPCRaceInput.signal m.raceCorpus m.raceCorpusSignal

lemma inv_init : Inv hash init := ⟨.empty, .empty⟩

/-- What a handler that is sent the inputs in `sent` and `rsent` does to the corpora. -/
structure Step (hash : String → Sig) (m m' : Manager) (sent : RPCInput → Prop)
    (rsent : RPCRaceInput → Prop) : Prop where
  plain : Grows (sigOf hash) RPCInput.signal m.corpus m.corpusSignal m'.corpus m'.corpusSignal sent
  race : Grows (raceSigOf hash) RPCRaceInput.signal m.raceCorpus m.raceCorpusSignal m'.raceCorpus
    m'.raceCorpusSignal rsent

lemma Step.inv (h : Step hash m m' sent rsent) (hi : Inv hash m) : Inv hash m' :=
  ⟨h.plain.keyed hi.plain, h.race.keyed hi.race⟩

lemma step_minimizeCorpus (cover : Bool) (o : Orders RPCInput) (m : Manager) :
    Step hash m (minimizeCorpus hash cover o m) (fun _ => False) fun _ => False := by
  unfold minimizeCorpus
  split
  case isTrue => exact ⟨.keep o, .same fun _ => id⟩
  case isFalse => exact ⟨.same fun _ => id, .same fun _ => id⟩

lemma step_minimizeRaceCorpus (flag cover : Bool) (o : Orders RPCRaceInput) (m : Manager) :
    Step hash m (minimizeRaceCorpus hash flag cover o m) (fun _ => False) fun _ => False := by
  unfold minimizeRaceCorpus
  split
  case isFalse => exact ⟨.same fun _ => id, .same fun _ => id⟩
  case isTrue =>
  unfold keptRace
  split
  case isTrue => exact ⟨.same fun _ => id, .keep o⟩
  case isFalse => exact ⟨.same fun _ => id, .same fun _ => id⟩

/-! ### New inputs -/

/-- The manager is sent `inp` by a fuzzer, and the program deserialises. -/
def SendsInput (inp : RPCInput) (_ : Manager) : Ev → Prop
  | .newInput _ x => x = inp ∧ inp.prog.parses = true
  | _ => False

def SendsRaceInput (rinp : RPCRaceInput) (_ : Manager) : Ev → Prop
  | .newRaceInput _ x => x = rinp
  | _ => False

lemma step_newInput (h : newInput m n (sigOf hash inp) inp = some m') :
    Step hash m m' (fun x => inp = x ∧ x.prog.parses = true) fun _ => False := by
  unfold newInput at h
  split at h
  · cases h
  split at h
  case isTrue hpr =>
    cases h
    exact ⟨.same fun x hx => by simp [hx.1, hx.2] at hpr, .same fun _ => id⟩
  split at h
  case isTrue hem =>
    cases h
    exact ⟨.known hem fun _ => And.left, .same fun _ => id⟩
  simp only at h
  split at h
  case isTrue hmem =>
    cases h
    refine ⟨.add (fun hk => ?_) fun _ => And.left, .same fun _ => id⟩
    exact hk.merge (f := fun x => { x with signal := merge inp.signal x.signal })
      (fun _ => rfl) (fun _ => rfl) hmem
  case isFalse hmem =>
    cases h
    refine ⟨.add (fun hk => ?_) fun _ => And.left, .same fun _ => id⟩
    exact hk.snoc fun y hy heq => hmem ⟨y, hy, heq⟩

lemma step_newRaceInput (h : newRaceInput m n (raceSigOf hash rinp) rinp = some m') :
    Step hash m m' (fun _ => False) fun x => rinp = x := by
  unfold newRaceInput at h
  split at h
  · cases h
  split at h
  case isTrue hem =>
    cases h
    exact ⟨.same fun _ => id, .known hem fun _ => id⟩
  simp only at h
  split at h
  case h_1 x hfn =>
    cases h
    have hsig : x.1 = raceSigOf hash rinp := by simpa using find?_some hfn
    refine ⟨.same fun _ => id, .add (fun hk => ?_) fun _ => id⟩
    exact hk.merge (f := fun x => { x with signal := merge rinp.signal x.signal })
      (fun _ => rfl) (fun _ => rfl) ⟨x, mem_of_find?_eq_some hfn, hsig⟩
  case h_2 hfn =>
    cases h
    refine ⟨.same fun _ => id, .add (fun hk => ?_) fun _ => id⟩
    exact hk.snoc fun y hy heq => find?_eq_none.1 hfn y hy (by simpa using heq)

/-- **What a step does to the corpora.** -/
lemma step_of_some (h : step hash m e = some m') :
    Step hash m m' (SendsInput · m e) (SendsRaceInput · m e) := by
  cases e with
  | newInput n inp => exact step_newInput h
  | newRaceInput n rinp => exact step_newRaceInput h
  | minimizeCorpus cover o =>
    cases h
    exact step_minimizeCorpus cover o m
  | minimizeRaceCorpus flag cover o =>
    cases h
    exact step_minimizeRaceCorpus flag cover o m
  | connect n cover o =>
    cases h
    have hst : Step hash (register m n) _ _ _ := step_minimizeCorpus cover o _
    exact ⟨hst.plain, hst.race⟩
  | schedulerConnect n flag cover o =>
    cases h
    have hst : Step hash { m with
        schedulers := update m.schedulers n (some ⟨[], [], [], ∅, [], [], []⟩) } _ _ _ :=
      step_minimizeRaceCorpus flag cover o _
    exact ⟨hst.plain, hst.race⟩
  | fuzzerPoll n a =>
    obtain ⟨⟨m₁, r⟩, hp, rfl⟩ := Option.map_eq_some_iff.1 h
    obtain ⟨f, -, rfl, -⟩ := fuzzerPoll_eq hp
    exact ⟨.same fun _ => id, .same fun _ => id⟩
  | schedulerPoll n a =>
    obtain ⟨⟨m₁, r⟩, hp, rfl⟩ := Option.map_eq_some_iff.1 h
    obtain ⟨s, infos, new, -, -, rfl, -⟩ := schedulerPoll_eq hp
    exact ⟨.same fun _ => id, .same fun _ => id⟩
  | newLikelyRaceInput n inp coin =>
    rcases newLikelyRaceInput_eq h with ⟨-, rfl⟩ | ⟨-, rfl⟩ <;>
      exact ⟨.same fun _ => id, .same fun _ => id⟩
  | updateSuppPairs drops dels adds =>
    obtain ⟨new, rfl⟩ := updateSuppPairs_eq h
    exact ⟨.same fun _ => id, .same fun _ => id⟩

/-! ### Whole runs -/

lemma signal_sent (hrun : run (step hash) init es = some m) :
    (∀ inp, Took (step hash) (SendsInput inp) init es →
      prio inp.signal ≤ prio m.corpusSignal) ∧
    ∀ rinp, Took (step hash) (SendsRaceInput rinp) init es →
      prio rinp.signal ≤ prio m.raceCorpusSignal := by
  refine run_inv_hist (I := fun es m =>
    (∀ inp, Took (step hash) (SendsInput inp) init es →
      prio inp.signal ≤ prio m.corpusSignal) ∧
    ∀ rinp, Took (step hash) (SendsRaceInput rinp) init es →
      prio rinp.signal ≤ prio m.raceCorpusSignal) ?_ ?_ hrun
  · exact ⟨fun _ h => absurd h took_nil, fun _ h => absurd h took_nil⟩
  · intro u m e t hu hi ht
    obtain ⟨hc, hr⟩ := step_of_some ht
    refine ⟨fun inp htk => ?_, fun rinp htk => ?_⟩
    · rcases took_snoc hu htk with h | h
      · exact (hi.1 inp h).trans hc.le
      · exact hc.sent inp h
    · rcases took_snoc hu htk with h | h
      · exact (hi.2 rinp h).trans hr.le
      · exact hr.sent rinp h

/-- **The signal of the corpora.** In every run of the manager's handlers, in whatever order the
corpora are walked and sorted when they are minimised: the signal of the corpus gives every
element the highest priority that an input of the corpus gives it, the same holds of the race
corpus, and the signal of every input that was sent is below that of the inputs that are
there. -/
theorem corpus_signal_joined (hash : String → Sig) (es : List Ev) {m : Manager}
    (hrun : run (step hash) SyzManager.init es = some m) :
    prio m.corpusSignal = joined (m.corpus.map fun x => x.2.signal) ∧
    prio m.raceCorpusSignal = joined (m.raceCorpus.map fun x => x.2.signal) ∧
    (∀ inp, Took (step hash) (SendsInput inp) SyzManager.init es →
      prio inp.signal ≤ joined (m.corpus.map fun x => x.2.signal)) ∧
    ∀ rinp, Took (step hash) (SendsRaceInput rinp) SyzManager.init es →
      prio rinp.signal ≤ joined (m.raceCorpus.map fun x => x.2.signal) := by
  have hi : Inv hash m := run_inv_hist (I := fun _ => Inv hash) inv_init
    (fun _ _ _ _ _ hi h => (step_of_some h).inv hi) hrun
  rw [hi.plain.signal, hi.race.signal]
  exact ⟨rfl, rfl, signal_sent hrun⟩

/-! ### A corpus that shrinks -/

def plainOrders (α : Type) : Orders α where
  walk l := l
  walk_perm _ := .refl _
  sort l := l.insertionSort fun a b => b.signal.entries.length ≤ a.signal.entries.length
  sort_perm l := perm_insertionSort _ l
  sort_sorted l := by
    have : Std.Total fun a b : Context α =>
        b.signal.entries.length ≤ a.signal.entries.length := ⟨fun a b => Nat.le_total _ _⟩
    have : IsTrans (Context α) fun a b =>
        b.signal.entries.length ≤ a.signal.entries.length := ⟨fun a b c h h' => h'.trans h⟩
    exact pairwise_insertionSort _ l
  pick l := l
  pick_perm _ := .refl _

def firstOrNot (text : String) : Sig := if text = "a" then 0 else 1

def shrinking : List Ev :=
  [.connect 0 true (plainOrders _), .newInput 0 ⟨⟨"a", true⟩, AList.singleton 5 1⟩,
    .newInput 0 ⟨⟨"b", true⟩, (AList.singleton 6 0).insert 5 2⟩,
    .minimizeCorpus true (plainOrders _)]

lemma shrinking_texts : (run (step firstOrNot) init shrinking).map (fun m =>
    (m.corpus.map fun x => x.2.prog.bytes, m.corpusSignal.lookup 5)) = some (["b"], some 2) := by
  decide +kernel

/-- The second input is kept, and its signal is that of the corpus. -/
theorem corpus_signal_joined_shrinking : ∃ m, run (step firstOrNot) SyzManager.init shrinking =
    some m ∧ (m.corpus.map fun x => x.2.prog.bytes) = ["b"] ∧
    prio m.corpusSignal = joined (m.corpus.map fun x => x.2.signal) := by
  obtain ⟨m, hm, hvw⟩ := Option.map_eq_some_iff.1 shrinking_texts
  exact ⟨m, hm, (Prod.mk.inj hvw).1, (corpus_signal_joined firstOrNot shrinking hm).1⟩

end Razzer.CorpusSignal
