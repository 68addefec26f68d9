import InsenseCVM.Collections.FiniteMap
import InsenseCVM.Lib.Transition
import Mathlib.Data.List.Rotate

/-!
# Lookups by several threads

Threads that run `ListMap_get` on one map that nobody changes any more, as component threads do
with `standardFunctions` and `mainComponent->procs`. One event is one call of
`IteratedList_getNextElement`, taken as atomic; the comparison that follows reads entries only.

All lookups move the one cursor of the list. `lookup_of_notOvertaken` says that they answer right
as long as the cursor is not moved past the entry a lookup is looking for.
-/

namespace InsenseCVM

namespace ListMap

open Transition

variable {V : Type}

/-- How far a thread's call of `ListMap_get` is. In the loop of `IteratedList_searchList`,
`first` is the first element handed out and `current` the last one, which was not the desired
one. -/
inductive Phase (V : Type)
  | idle
  | started (key : CString)
  | searching (key : CString) (first current : ℕ)
  | returned (key : CString) (answer : Option V)
  deriving DecidableEq

/-- A map with the threads that use it. -/
structure Shared (ι V : Type) where
  map : ListMap V
  phase : ι → Phase V

/-- A thread enters `ListMap_get`, or calls `IteratedList_getNextElement` in it. -/
inductive Event (ι : Type)
  | call (i : ι) (key : CString)
  | next (i : ι)

/-- The comparison of the loop: return the element's value, or go round once more. -/
def compare (m : ListMap V) (key : CString) (first current : ℕ) : Phase V :=
  if m.isDesiredElement key current then .returned key ((m.entry current).bind (·.value))
  else .searching key first current

/-- From one call of `IteratedList_getNextElement` up to the next one, or to the end. -/
def advance (m : ListMap V) : Phase V → Option (Phase V × ListMap V)
  | .started key => do
    match ← m.list.getNextElement with
    | (none, l) => return (.returned key none, { m with list := l })
    | (some first, l) => return (m.compare key first first, { m with list := l })
  | .searching key first _ => do
    match ← m.list.getNextElement with
    | (none, _) => none
    | (some current, l) =>
      return (if current = first then .returned key none else m.compare key first current,
        { m with list := l })
  | .idle | .returned _ _ => none

variable {ι : Type} [DecidableEq ι]

/-- One event. A thread calls `ListMap_get` again only after the last call has returned. -/
def Shared.step (s : Shared ι V) : Event ι → Option (Shared ι V)
  | .call i key =>
    match s.phase i with
    | .idle | .returned _ _ => some { s with phase := Function.update s.phase i (.started key) }
    | .started _ | .searching _ _ _ => none
  | .next i => do
    let (phase, map) ← s.map.advance (s.phase i)
    return ⟨map, Function.update s.phase i phase⟩

/-- No thread is in a call. -/
def Shared.init (ι : Type) (m : ListMap V) : Shared ι V := ⟨m, fun _ => .idle⟩

/-- The cursor has not been moved past the entry a lookup wants: walking round from the cursor,
no desired element comes behind the one the lookup has compared last. -/
def Shared.NotOvertaken (s : Shared ι V) : Event ι → Prop
  | .call _ _ => True
  | .next i => ∀ key first current, s.phase i = .searching key first current →
      ∀ before skipped, s.map.list.Round (before ++ current :: skipped) →
        ∀ a ∈ skipped, s.map.isDesiredElement key a = false

/-! ### Rotations -/

open List in
/-- Rotations of a list without repetitions that begin alike are equal. -/
theorem rotated_cons_inj {α : Type} {c : α} {xs ys : List α} (h : (c :: xs) ~r (c :: ys))
    (hnd : (c :: xs).Nodup) : xs = ys := by
  obtain ⟨n, hn⟩ := h
  have hlt : n % (c :: xs).length < (c :: xs).length := Nat.mod_lt _ (by simp)
  rw [← List.rotate_mod] at hn
  have hhead : (c :: xs)[n % (c :: xs).length]? = (c :: xs)[0]? := by
    rw [← List.head?_rotate hlt, hn]
    rfl
  have hzero := (List.getElem?_inj hlt hnd).1 hhead
  rw [hzero, List.rotate_zero] at hn
  exact List.tail_eq_of_cons_eq hn

section Cyclic

open List

variable {seen rest before skipped order tl : List ℕ} {current d : ℕ} {f : ℕ → Bool}

/-- A search has gone through `seen` and compared `current` last; the cursor stands behind
`skipped` at `d`. If nothing desired was seen or skipped, then either nothing at all is desired or
the search gets through `skipped` to a new element. -/
theorem seen_next (hseen : ((seen ++ [current]) ++ rest) ~r order)
    (hround : (before ++ current :: skipped) ~r order) (hnd : order.Nodup)
    (hf : ∀ a ∈ seen ++ [current], f a = false) (hskip : ∀ a ∈ skipped, f a = false)
    (hd : before ++ current :: skipped = d :: tl) :
    (∀ a ∈ order, f a = false) ∨
      ∃ rest', (((seen ++ current :: skipped) ++ [d]) ++ rest') ~r order ∧
        d ∉ seen ++ [current] := by
  have hrot1 : (current :: (rest ++ seen)) ~r order := by
    have hswap : (current :: rest ++ seen) ~r (seen ++ current :: rest) := isRotated_append
    refine IsRotated.trans ?_ hseen
    simpa using hswap
  have hrot2 : (current :: (skipped ++ before)) ~r order := by
    have hswap : (current :: skipped ++ before) ~r (before ++ current :: skipped) :=
      isRotated_append
    refine IsRotated.trans ?_ hround
    simpa using hswap
  have heq : rest ++ seen = skipped ++ before :=
    rotated_cons_inj (hrot1.trans hrot2.symm) (hrot1.nodup_iff.2 hnd)
  have hall : (∀ a ∈ rest, f a = false) → ∀ a ∈ order, f a = false := by
    intro hrest a ha
    rcases List.mem_append.1 (hseen.mem_iff.2 ha) with ha | ha
    · exact hf a ha
    · exact hrest a ha
  rcases List.append_eq_append_iff.1 heq with ⟨as, rfl, -⟩ | ⟨bs, rfl, rfl⟩
  · exact Or.inl (hall fun a ha => hskip a (List.mem_append_left _ ha))
  · cases bs with
    | nil => exact Or.inl (hall fun a ha => hskip a (by simpa using ha))
    | cons b bs =>
      obtain ⟨rfl, -⟩ : b = d ∧ _ := by simpa using hd
      refine Or.inr ⟨bs, by simpa using hseen, fun hmem => ?_⟩
      have hnd' := hseen.nodup_iff.2 hnd
      rw [List.nodup_append] at hnd'
      exact hnd'.2.2 b hmem b (by simp) rfl

end Cyclic

/-! ### The invariant of a run -/

variable {m : ListMap V} {es : List (Located V)} {key : CString} {first current : ℕ}

open List in
/-- What a call knows about the entries `es` of the map `m`: a search has seen a part of the
round, from `first` to `current`, without the key, and what it returned is right. -/
def PhaseSound (m : ListMap V) (es : List (Located V)) : Phase V → Prop
  | .idle | .started _ => True
  | .searching key first current => (∀ a ∈ es.map Prod.fst, m.isDesiredElement key a = false) ∨
      ∃ seen rest, ((seen ++ [current]) ++ rest) ~r es.map Prod.fst ∧
        (seen ++ [current]).head? = some first ∧
        ∀ a ∈ seen ++ [current], m.isDesiredElement key a = false
  | .returned key answer => ∀ e ∈ es, e.2.key = key → answer = e.2.value

open List in
/-- The map of a run on `m`: the entries are untouched and the cursor is on their round. -/
def OnRound (m : ListMap V) (es : List (Located V)) (m' : ListMap V) : Prop :=
  m'.entry = m.entry ∧ ∃ xs, m'.list.Round xs ∧ xs ~r es.map Prod.fst

/-- The invariant of a run on `m`. -/
structure Shared.Sound (m : ListMap V) (es : List (Located V)) (s : Shared ι V) : Prop where
  map : OnRound m es s.map
  phase : ∀ i, PhaseSound m es (s.phase i)

theorem compare_congr {m' : ListMap V} (h : m'.entry = m.entry) :
    m'.compare key first current = m.compare key first current := by
  unfold compare isDesiredElement
  rw [h]

/-- With distinct keys the desired element is the one entry of the key. -/
theorem Represents.value_of_isDesiredElement (h : m.Represents es) (hk : KeysDistinct es)
    (ha : current ∈ es.map Prod.fst) (hdes : m.isDesiredElement key current = true) :
    ∀ e ∈ es, e.2.key = key → (m.entry current).bind (·.value) = e.2.value := by
  intro e he hek
  obtain ⟨d, hd, rfl⟩ := List.mem_map.1 ha
  rw [h.isDesiredElement_eq hd, decide_eq_true_iff] at hdes
  obtain rfl : d = e := List.inj_on_of_nodup_map hk hd he (hdes.trans hek.symm)
  rw [h.entry d hd, Option.bind_some]

/-- When no entry has the key, whatever is returned is right. -/
theorem Represents.phaseSound_of_absent (h : m.Represents es)
    (habs : ∀ a ∈ es.map Prod.fst, m.isDesiredElement key a = false) (answer : Option V) :
    PhaseSound m es (.returned key answer) := by
  intro e he hek
  have hfalse := habs e.1 (List.mem_map_of_mem he)
  rw [h.isDesiredElement_eq he, decide_eq_false_iff_not] at hfalse
  exact absurd hek hfalse

open List in
/-- The comparison after a call of `IteratedList_getNextElement` keeps the call sound. -/
theorem Represents.compare_sound (h : m.Represents es) (hk : KeysDistinct es)
    {seen rest : List ℕ} (hrot : ((seen ++ [current]) ++ rest) ~r es.map Prod.fst)
    (hfirst : (seen ++ [current]).head? = some first)
    (hseen : ∀ a ∈ seen, m.isDesiredElement key a = false) :
    PhaseSound m es (m.compare key first current) := by
  unfold compare
  split_ifs with hdes
  · exact h.value_of_isDesiredElement hk (hrot.mem_iff.1 (by simp)) hdes
  · refine Or.inr ⟨seen, rest, hrot, hfirst, fun a ha => ?_⟩
    rcases List.mem_append.1 ha with ha | ha
    · exact hseen a ha
    · rw [List.mem_singleton.1 ha]
      simpa using hdes

/-- The comparison when no entry has the key. -/
theorem Represents.compare_absent (h : m.Represents es)
    (habs : ∀ a ∈ es.map Prod.fst, m.isDesiredElement key a = false) :
    PhaseSound m es (m.compare key first current) := by
  unfold compare
  split_ifs
  · exact h.phaseSound_of_absent habs _
  · exact Or.inl habs

open List in
/-- The first call of `IteratedList_getNextElement` of a lookup. -/
theorem Represents.advance_started (h : m.Represents es) (hk : KeysDistinct es)
    {m' m'' : ListMap V} {phase : Phase V} (hm' : OnRound m es m')
    (hadv : m'.advance (.started key) = some (phase, m'')) :
    OnRound m es m'' ∧ PhaseSound m es phase := by
  obtain ⟨hentry, xs, hround, hrot⟩ := hm'
  cases xs with
  | nil =>
    simp only [advance, hround.getNextElement_nil, Option.bind_eq_bind, Option.bind_some,
      Option.pure_def, Option.some.injEq, Prod.mk.injEq] at hadv
    obtain ⟨rfl, rfl⟩ := hadv
    refine ⟨⟨hentry, [], hround, hrot⟩, fun e he => ?_⟩
    have hnil : es.map Prod.fst = [] := (isRotated_nil_iff'.1 hrot).symm
    rw [List.map_eq_nil_iff.1 hnil] at he
    cases he
  | cons x xs =>
    obtain ⟨p, hget, hround'⟩ := hround.getNextElement
    simp only [advance, hget, Option.bind_eq_bind, Option.bind_some, Option.pure_def,
      Option.some.injEq, Prod.mk.injEq] at hadv
    obtain ⟨rfl, rfl⟩ := hadv
    refine ⟨⟨hentry, xs ++ [x], hround', (isRotated_concat x xs).trans hrot⟩, ?_⟩
    have hrot' : (([] ++ [x]) ++ xs) ~r es.map Prod.fst := hrot
    have hsound : PhaseSound m es (m.compare key x x) :=
      h.compare_sound hk hrot' rfl (List.forall_mem_nil _)
    rwa [compare_congr hentry]

open List in
/-- A later call, when the cursor has not been moved past the entry that is wanted. -/
theorem Represents.advance_searching (h : m.Represents es) (hk : KeysDistinct es)
    {m' m'' : ListMap V} {phase : Phase V} (hm' : OnRound m es m')
    (hphase : PhaseSound m es (.searching key first current))
    (hskip : ∀ before skipped, m'.list.Round (before ++ current :: skipped) →
      ∀ a ∈ skipped, m.isDesiredElement key a = false)
    (hadv : m'.advance (.searching key first current) = some (phase, m'')) :
    OnRound m es m'' ∧ PhaseSound m es phase := by
  obtain ⟨hentry, xs, hround, hrot⟩ := hm'
  cases xs with
  | nil => simp [advance, hround.getNextElement_nil] at hadv
  | cons d tl =>
    obtain ⟨p, hget, hround'⟩ := hround.getNextElement
    simp only [advance, hget, Option.bind_eq_bind, Option.bind_some, Option.pure_def,
      Option.some.injEq, Prod.mk.injEq] at hadv
    obtain ⟨rfl, rfl⟩ := hadv
    refine ⟨⟨hentry, tl ++ [d], hround', (isRotated_concat d tl).trans hrot⟩, ?_⟩
    have habsent : (∀ a ∈ es.map Prod.fst, m.isDesiredElement key a = false) →
        PhaseSound m es (if d = first then .returned key none else m.compare key first d) := by
      intro habs
      split_ifs
      · exact h.phaseSound_of_absent habs none
      · exact h.compare_absent habs
    rw [compare_congr hentry]
    rcases hphase with habs | ⟨seen, rest, hseen, hfirst, hf⟩
    · exact habsent habs
    · have hmem : current ∈ d :: tl := hrot.mem_iff.2 (hseen.mem_iff.1 (by simp))
      obtain ⟨before, skipped, heq⟩ := List.append_of_mem hmem
      have hsk := hskip before skipped (heq ▸ hround)
      rcases seen_next hseen (heq ▸ hrot) h.distinct hf hsk heq.symm with habs | ⟨rest', hrot', hnew⟩
      · exact habsent habs
      · have hne : d ≠ first := by
          rintro rfl
          exact hnew (List.mem_of_head? hfirst)
        rw [if_neg hne]
        refine h.compare_sound hk hrot' ?_ fun a ha => ?_
        · cases seen <;> simpa using hfirst
        · rw [List.mem_append, List.mem_cons] at ha
          rcases ha with ha | rfl | ha
          · exact hf a (List.mem_append_left _ ha)
          · exact hf a (by simp)
          · exact hsk a ha

omit [DecidableEq ι] in
/-- A map in a run desires what the map it started with does. -/
theorem OnRound.isDesiredElement_eq {m' : ListMap V} (hm' : OnRound m es m') (a : ℕ) :
    m'.isDesiredElement key a = m.isDesiredElement key a := by
  unfold isDesiredElement
  rw [hm'.1]

/-- The threads other than the one that moves keep their phase. -/
theorem phaseSound_update {phase : ι → Phase V} {i : ι} {p : Phase V}
    (h : ∀ j, PhaseSound m es (phase j)) (hp : PhaseSound m es p) :
    ∀ j, PhaseSound m es (Function.update phase i p j) := by
  intro j
  by_cases hji : j = i
  · rwa [hji, Function.update_self]
  · rw [Function.update_of_ne hji]
    exact h j

/-- One event keeps the invariant, unless it is by a thread that was overtaken. -/
theorem Represents.step_sound (h : m.Represents es) (hk : KeysDistinct es) {s s' : Shared ι V}
    {e : Event ι} (hs : s.Sound m es) (hok : s.NotOvertaken e) (hstep : s.step e = some s') :
    s'.Sound m es := by
  cases e with
  | call i key =>
    have hs' : s' = { s with phase := Function.update s.phase i (.started key) } := by
      simp only [Shared.step] at hstep
      split at hstep
      all_goals cases hstep <;> rfl
    rw [hs']
    exact ⟨hs.map, phaseSound_update hs.phase trivial⟩
  | next i =>
    simp only [Shared.step, Option.bind_eq_bind, Option.bind_eq_some_iff, Option.pure_def,
      Option.some.injEq] at hstep
    obtain ⟨⟨phase, map⟩, hadv, rfl⟩ := hstep
    have hi := hs.phase i
    have hmove : OnRound m es map ∧ PhaseSound m es phase := by
      cases hph : s.phase i with
      | idle => simp [hph, advance] at hadv
      | returned key answer => simp [hph, advance] at hadv
      | started key =>
        rw [hph] at hadv
        exact h.advance_started hk hs.map hadv
      | searching key first current =>
        rw [hph] at hadv hi
        refine h.advance_searching hk hs.map hi (fun before skipped hround a ha => ?_) hadv
        rw [← hs.map.isDesiredElement_eq a]
        exact hok key first current hph before skipped hround a ha
    exact ⟨hmove.1, phaseSound_update hs.phase hmove.2⟩

/-- **On a map with distinct keys every lookup that returns, in any run that never moves the
cursor past the entry a lookup wants, returns the value under its key.** -/
theorem lookup_of_notOvertaken (h : m.Represents es) (hk : KeysDistinct es)
    {events : List (Event ι)} {s : Shared ι V}
    (hok : Along Shared.step Shared.NotOvertaken (Shared.init ι m) events)
    (hrun : run Shared.step (Shared.init ι m) events = some s) {i : ι} {answer : Option V}
    (hret : s.phase i = .returned key answer) :
    ∀ e ∈ es, e.2.key = key → answer = e.2.value := by
  have hinit : (Shared.init ι m).Sound m es :=
    ⟨⟨rfl, es.map Prod.fst, h.round, List.IsRotated.refl _⟩, fun _ => trivial⟩
  have hsound : s.Sound m es :=
    run_invariant _ (fun s e s' hs hok hstep => h.step_sound hk hs hok hstep) hinit hok hrun
  have hi := hsound.phase i
  rw [hret] at hi
  exact hi

/-! ### Two threads and two entries -/

/-- The calls that fill a map with two entries; the cursor ends at the entry of `[1]`. -/
def twoEntries : List (Call ℕ) :=
  [.declare [1], .put [1] 10, .declare [2], .put [2] 20]

theorem twoEntries_represents :
    ∃ m es, runMap twoEntries = some m ∧ m.Represents es ∧ Agrees es twoEntries ∧
      KeysDistinct es := by
  refine DeclaresOnce.represents fun pre k hpre hdec => ?_
  obtain ⟨post, hpost⟩ := hpre
  rcases pre with _ | ⟨c₁, _ | ⟨c₂, _ | ⟨c₃, _ | ⟨c₄, pre⟩⟩⟩⟩
  · simp at hdec
  · simp [twoEntries] at hpost
  · simp only [twoEntries, List.cons_append, List.nil_append, List.cons.injEq] at hpost
    obtain ⟨rfl, rfl, hk, -⟩ := hpost
    cases hk
    revert hdec
    decide
  · simp [twoEntries] at hpost
  · simp [twoEntries] at hpost

/-- The first lookup is under way when the second one runs and finds its entry. -/
theorem lookup_of_notOvertaken_two : ∃ (m : ListMap ℕ) (es : List (Located ℕ))
    (s : Shared (Fin 2) ℕ), m.Represents es ∧ KeysDistinct es ∧
      run Shared.step (Shared.init (Fin 2) m)
        [.call 0 [2], .next 0, .call 1 [2], .next 1] = some s ∧
      s.phase 1 = .returned [2] (some 20) ∧ ∀ e ∈ es, e.2.key = [2] → some 20 = e.2.value := by
  obtain ⟨m, es, hm, hrep, -, hk⟩ := twoEntries_represents
  have hphase : (runMap twoEntries).bind (fun m => (run Shared.step (Shared.init (Fin 2) m)
      [.call 0 [2], .next 0, .call 1 [2], .next 1]).map fun s => s.phase 1) =
        some (.returned [2] (some 20)) := by decide
  have hphase₀ : (runMap twoEntries).bind (fun m => (run Shared.step (Shared.init (Fin 2) m)
      [.call 0 [2]]).map fun s => s.phase 0) = some (.started [2]) := by decide
  have hphase₁ : (runMap twoEntries).bind (fun m => (run Shared.step (Shared.init (Fin 2) m)
      [.call 0 [2], .next 0, .call 1 [2]]).map fun s => s.phase 1) = some (.started [2]) := by
    decide
  rw [hm, Option.bind_some] at hphase hphase₀ hphase₁
  obtain ⟨s, hrun, hret⟩ := Option.map_eq_some_iff.1 hphase
  have hok : Along Shared.step Shared.NotOvertaken (Shared.init (Fin 2) m)
      ([] ++ [.call 0 [2]] ++ [.next 0] ++ [.call 1 [2]] ++ [.next 1]) := by
    refine along_concat.2 ⟨along_concat.2 ⟨along_concat.2 ⟨along_concat.2 ⟨along_nil, ?_⟩, ?_⟩,
      ?_⟩, ?_⟩
    · exact fun t _ => trivial
    · intro t ht key first current hsearch
      simp only [List.nil_append] at ht
      rw [ht, Option.map_some, hsearch] at hphase₀
      cases hphase₀
    · exact fun t _ => trivial
    · intro t ht key first current hsearch
      simp only [List.nil_append, List.cons_append] at ht
      rw [ht, Option.map_some, hsearch] at hphase₁
      cases hphase₁
  exact ⟨m, es, s, hrep, hk, hrun, hret, lookup_of_notOvertaken hrep hk hok hrun hret⟩

/-- The second lookup moves the cursor past the entry of `[2]` between two calls of the first,
which then meets its own first element again and returns null. -/
theorem lookup_overtaken : ¬ ∀ (m : ListMap ℕ) (es : List (Located ℕ)), m.Represents es →
    KeysDistinct es → ∀ (events : List (Event (Fin 2))) (s : Shared (Fin 2) ℕ),
      run Shared.step (Shared.init (Fin 2) m) events = some s →
        ∀ i key answer, s.phase i = .returned key answer →
          ∀ e ∈ es, e.2.key = key → answer = e.2.value := by
  intro hall
  obtain ⟨m, es, hm, hrep, ha, hk⟩ := twoEntries_represents
  have hphase : (runMap twoEntries).bind (fun m => (run Shared.step (Shared.init (Fin 2) m)
      [.call 0 [2], .next 0, .call 1 [2], .next 1, .next 0]).map fun s => s.phase 0) =
        some (.returned [2] none) := by decide
  rw [hm, Option.bind_some] at hphase
  obtain ⟨s, hrun, hret⟩ := Option.map_eq_some_iff.1 hphase
  have hmem : ([2] : CString) ∈ keysOf es := (ha.keys [2]).2 (by decide)
  obtain ⟨e, he, hek⟩ := mem_keysOf.1 hmem
  have hnone := hall m es hrep hk _ s hrun 0 [2] none hret e he hek
  rw [ha.value e he, hek] at hnone
  have hlast : lastPut [2] twoEntries = some 20 := by decide
  rw [hlast] at hnone
  cases hnone

/-! ### A lookup alone -/

/-- Steps of one thread in a row. -/
def Alone : Phase V × ListMap V → Phase V × ListMap V → Prop :=
  Relation.ReflTransGen fun c d => c.2.advance c.1 = some d

omit [DecidableEq ι] in
/-- The loop of `IteratedList_searchList` is steps of one thread in a row. -/
theorem searchFrom_alone {fuel : ℕ} {l l' : IteratedList ℕ} {element : Option ℕ}
    (hs : IteratedList.searchFrom (m.isDesiredElement key) first fuel current l =
      some (element, l')) :
    Alone (m.compare key first current, { m with list := l })
      (.returned key (element.bind fun a => (m.entry a).bind (·.value)), { m with list := l' }) := by
  induction fuel generalizing current l with
  | zero => simp [IteratedList.searchFrom] at hs
  | succ fuel ih =>
    unfold IteratedList.searchFrom at hs
    cases hdes : m.isDesiredElement key current with
    | true =>
      rw [if_pos hdes] at hs
      obtain ⟨rfl, rfl⟩ : some current = element ∧ l = l' := by simpa using hs
      rw [compare, if_pos hdes]
      exact Relation.ReflTransGen.refl
    | false =>
      rw [if_neg (by simp [hdes]), Option.bind_eq_bind, Option.bind_eq_some_iff] at hs
      obtain ⟨⟨d, l₁⟩, hget, hs⟩ := hs
      rw [compare, if_neg (by simp [hdes])]
      cases d with
      | none => simp at hs
      | some d =>
        have hadv : advance { m with list := l } (.searching key first current) =
            some (if d = first then .returned key none else m.compare key first d,
              { m with list := l₁ }) := by
          simp only [advance, hget]
          rfl
        simp only [] at hs
        split_ifs at hs with hd
        · obtain ⟨rfl, rfl⟩ : none = element ∧ l₁ = l' := by simpa using hs
          rw [if_pos hd] at hadv
          exact Relation.ReflTransGen.single hadv
        · rw [if_neg hd] at hadv
          exact (ih hs).head hadv

omit [DecidableEq ι] in
/-- `ListMap_get` is steps of one thread in a row, from the call to the return. -/
theorem get_alone {answer : Option V} {m' : ListMap V} (h : m.get key = some (answer, m')) :
    Alone (.started key, m) (.returned key answer, m') := by
  simp only [get, search, Option.bind_eq_bind, Option.bind_eq_some_iff, Option.pure_def,
    Option.some.injEq] at h
  obtain ⟨-, ⟨⟨element, l'⟩, hs, rfl⟩, h⟩ := h
  have hanswer : answer = (element.bind fun a => (m.entry a).bind (·.value)) ∧
      m' = { m with list := l' } := by
    cases element with
    | none =>
      obtain ⟨rfl, rfl⟩ : none = answer ∧ { m with list := l' } = m' := by simpa using h
      exact ⟨rfl, rfl⟩
    | some a =>
      obtain ⟨e, he, rfl, rfl⟩ : ∃ e, m.entry a = some e ∧ e.value = answer ∧
          { m with list := l' } = m' := by simpa [Option.bind_eq_some_iff] using h
      exact ⟨by simp [he], rfl⟩
  obtain ⟨rfl, rfl⟩ := hanswer
  simp only [IteratedList.searchList, Option.bind_eq_bind, Option.bind_eq_some_iff] at hs
  obtain ⟨⟨x, l₁⟩, hget, hs⟩ := hs
  cases x with
  | none =>
    obtain ⟨rfl, rfl⟩ : none = element ∧ l₁ = l' := by simpa using hs
    refine Relation.ReflTransGen.single ?_
    simp only [advance, hget]
    rfl
  | some x =>
    refine (searchFrom_alone hs).head ?_
    simp only [advance, hget]
    rfl

end ListMap

end InsenseCVM
