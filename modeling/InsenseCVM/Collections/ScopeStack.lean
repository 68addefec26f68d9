import InsenseCVM.Collections.ListMap

/-!
# Scope stacks

`ScopeStack/ScopeStack.c`: an iterated list of levels, the innermost first, each a list map from
names to values. The levels are addressed by natural numbers below `fresh`; a level that is left is
freed and its address is not used again. As for lists, a function returns `none` when the code
would follow a bad pointer or not end.

* `Holds s levels es`: the levels, the innermost first, are at the addresses `levels`, and the
  level at `a` has the entries `es a`, in some order;
* `Answers es k levels v`: a search of the levels for `k` can answer `v`. A level in which `k` was
  declared more than once can answer more than one value, as its cursor stands.
-/

namespace InsenseCVM

/-- A scope stack, with the levels it has allocated. -/
structure ScopeStack (V : Type) where
  list : IteratedList ℕ
  level : ℕ → ListMap V
  fresh : ℕ

namespace ScopeStack

variable {V : Type}

/-- `ScopeStack_enterScope`; the stack is null before the first scope is entered. -/
def enterScope (this : Option (ScopeStack V)) : ScopeStack V :=
  let s := this.getD ⟨IteratedList.constructList, fun _ => ListMap.constructor, 0⟩
  { list := s.list.insertElement (some s.fresh)
    level := Function.update s.level s.fresh ListMap.constructor
    fresh := s.fresh + 1 }

/-- `ScopeStack_exitScope`. -/
def exitScope (s : ScopeStack V) : Option (ScopeStack V) :=
  match s.list.first with
  | none => some s
  | some first => do
    let n ← s.list.heap first
    let list ← s.list.removeElement (some n.payload)
    return { s with list := list }

/-- `ListMap_get` on a level. -/
def getAt (s : ScopeStack V) (a : ℕ) (name : CString) : Option (Option V × ScopeStack V) := do
  let (element, m) ← (s.level a).get name
  return (element, { s with level := Function.update s.level a m })

/-- `ListMap_put` on a level. -/
def putAt (s : ScopeStack V) (a : ℕ) (name : CString) (value : Option V) :
    Option (Bool × ScopeStack V) := do
  let (found, m) ← (s.level a).put name value
  return (found, { s with level := Function.update s.level a m })

/-- The loop of `ScopeStack_exitTo` that counts the levels to clear. -/
def countFrom (first : Option ℕ) (name : CString) :
    ℕ → Option ℕ → ℕ → ScopeStack V → Option (ℕ × ScopeStack V)
  | 0, _, _, _ => none
  | fuel + 1, thisLevel, levelsToClear, s =>
    if thisLevel = first then some (levelsToClear, s)
    else
      match thisLevel with
      | none => some (levelsToClear, s)
      | some a => do
        let n ← s.list.heap a
        match ← s.getAt n.payload name with
        | (some _, s) => return (levelsToClear, s)
        | (none, s) => countFrom first name fuel n.tail (levelsToClear + 1) s

/-- The loop of `ScopeStack_exitTo` that clears them. -/
def exitScopes : ℕ → ScopeStack V → Option (ScopeStack V)
  | 0, s => some s
  | levelsToClear + 1, s => do exitScopes levelsToClear (← s.exitScope)

/-- `ScopeStack_exitTo`. The first level is looked at before the count begins, and is not
counted. -/
def exitTo (s : ScopeStack V) (name : CString) : Option (ScopeStack V) :=
  match s.list.first with
  | none => some s
  | some first => do
    let n ← s.list.heap first
    match ← s.getAt n.payload name with
    | (some _, s) => return s
    | (none, s) =>
      let (levelsToClear, s) ← countFrom (some first) name (s.list.fresh + 1) n.tail 0 s
      exitScopes levelsToClear s

/-- `ScopeStack_size`. -/
def size (s : ScopeStack V) : Option ℕ := s.list.getListLength

/-- `ScopeStack_declare`. -/
def declare (s : ScopeStack V) (name : CString) : Option (ScopeStack V) := do
  let first ← s.list.first
  let n ← s.list.heap first
  let m ← (s.level n.payload).declare name
  return { s with level := Function.update s.level n.payload m }

/-- The loop of `ScopeStack_load`. -/
def loadFrom (first : Option ℕ) (name : CString) :
    ℕ → Option ℕ → ScopeStack V → Option (Option V × ScopeStack V)
  | 0, _, _ => none
  | fuel + 1, thisLevel, s =>
    if thisLevel = first then some (none, s)
    else
      match thisLevel with
      | none => some (none, s)
      | some a => do
        let n ← s.list.heap a
        match ← s.getAt n.payload name with
        | (some element, s) => return (some element, s)
        | (none, s) => loadFrom first name fuel n.tail s

/-- `ScopeStack_load`. -/
def load (s : ScopeStack V) (name : CString) : Option (Option V × ScopeStack V) :=
  match s.list.first with
  | none => some (none, s)
  | some first => do
    let n ← s.list.heap first
    match ← s.getAt n.payload name with
    | (some element, s) => return (some element, s)
    | (none, s) => loadFrom (some first) name (s.list.fresh + 1) n.tail s

/-- The loop of `ScopeStack_store`. Only the first level ends it, so past the last level the code
follows a null pointer. -/
def storeFrom (first : Option ℕ) (name : CString) (value : Option V) :
    ℕ → Option ℕ → ScopeStack V → Option (Bool × ScopeStack V)
  | 0, _, _ => none
  | fuel + 1, thisLevel, s =>
    if thisLevel = first then some (false, s)
    else do
      let a ← thisLevel
      let n ← s.list.heap a
      match ← s.putAt n.payload name value with
      | (true, s) => return (true, s)
      | (false, s) => storeFrom first name value fuel n.tail s

/-- `ScopeStack_store`, `true` where it returns `0`. -/
def store (s : ScopeStack V) (name : CString) (value : Option V) :
    Option (Bool × ScopeStack V) := do
  let first ← s.list.first
  let n ← s.list.heap first
  match ← s.putAt n.payload name value with
  | (true, s) => return (true, s)
  | (false, s) => storeFrom (some first) name value (s.list.fresh + 1) n.tail s

/-! ### What a stack holds -/

variable {s s' : ScopeStack V} {levels rest : List ℕ} {es : ℕ → List (ListMap.Located V)}
  {a b : ℕ} {k : CString} {v : Option V} {p : Option ℕ} {fuel n : ℕ}

/-- The addresses of the levels, the innermost first. -/
def Levels (s : ScopeStack V) (levels : List ℕ) : Prop :=
  ∃ cells, s.list.Represents cells ∧ cells.map Prod.snd = levels

structure Holds (s : ScopeStack V) (levels : List ℕ) (es : ℕ → List (ListMap.Located V)) :
    Prop where
  order : s.Levels levels
  distinct : levels.Nodup
  bounded : ∀ a ∈ levels, a < s.fresh
  entries : ∀ a ∈ levels, ∃ ys, ys.Perm (es a) ∧ (s.level a).Represents ys

/-- No search of the level for `k` finds a value. -/
def Passes (es : ℕ → List (ListMap.Located V)) (k : CString) (a : ℕ) : Prop :=
  ∀ e ∈ es a, e.2.key = k → e.2.value = none

/-- Every search of the level for `k` finds `v`. -/
def Binds (es : ℕ → List (ListMap.Located V)) (k : CString) (a : ℕ) (v : V) : Prop :=
  (∃ e ∈ es a, e.2.key = k) ∧ ∀ e ∈ es a, e.2.key = k → e.2.value = some v

/-- A search of one level for `k` can answer `v`. -/
def AnswersAt (es : ℕ → List (ListMap.Located V)) (k : CString) (a : ℕ) (v : Option V) : Prop :=
  (v = none ∧ ∀ e ∈ es a, e.2.key ≠ k) ∨ ∃ e ∈ es a, e.2.key = k ∧ v = e.2.value

/-- A search of the levels in turn for `k` can answer `v`. -/
inductive Answers (es : ℕ → List (ListMap.Located V)) (k : CString) : List ℕ → Option V → Prop
  | nil : Answers es k [] none
  | found {a : ℕ} {levels : List ℕ} {v : V} (h : AnswersAt es k a (some v)) :
      Answers es k (a :: levels) (some v)
  | next {a : ℕ} {levels : List ℕ} {v : Option V} (h : AnswersAt es k a none)
      (rest : Answers es k levels v) : Answers es k (a :: levels) v

theorem Passes.answersAt (h : Passes es k a) (hv : AnswersAt es k a v) : v = none := by
  rcases hv with ⟨rfl, -⟩ | ⟨e, he, hek, rfl⟩
  · rfl
  · exact h e he hek

theorem Binds.answersAt {w : V} (h : Binds es k a w) (hv : AnswersAt es k a v) : v = some w := by
  rcases hv with ⟨rfl, hnone⟩ | ⟨e, he, hek, rfl⟩
  · obtain ⟨e, he, hek⟩ := h.1
    exact absurd hek (hnone e he)
  · exact h.2 e he hek

/-- Levels that pass a name do not answer. -/
theorem Answers.past {pre : List ℕ} (h : Answers es k (pre ++ levels) v)
    (hpass : ∀ b ∈ pre, Passes es k b) : Answers es k levels v := by
  induction pre with
  | nil => exact h
  | cons b pre ih =>
    have hb := hpass b List.mem_cons_self
    cases h with
    | found h => cases hb.answersAt h
    | next _ h => exact ih h fun c hc => hpass c (List.mem_cons_of_mem _ hc)

theorem Answers.of_passes (h : Answers es k levels v) (hpass : ∀ a ∈ levels, Passes es k a) :
    v = none := by
  rw [← List.append_nil levels] at h
  cases h.past hpass
  rfl

/-- The innermost level that binds the name gives the answer. -/
theorem Answers.of_binds {pre post : List ℕ} {w : V} (h : Answers es k (pre ++ a :: post) v)
    (hpass : ∀ b ∈ pre, Passes es k b) (hbind : Binds es k a w) : v = some w := by
  cases h.past hpass with
  | found hat => exact hbind.answersAt hat
  | next hat _ => cases hbind.answersAt hat

theorem Levels.unique {levels' : List ℕ} (h : s.Levels levels) (h' : s.Levels levels') :
    levels = levels' := by
  obtain ⟨cells, hrep, rfl⟩ := h
  obtain ⟨cells', hrep', rfl⟩ := h'
  rw [hrep.chain.unique hrep'.chain]

/-- `ScopeStack_size` is the number of levels. -/
theorem Holds.size_eq (h : s.Holds levels es) : s.size = some levels.length := by
  obtain ⟨cells, hrep, rfl⟩ := h.order
  rw [List.length_map]
  exact hrep.getListLength_eq

/-! ### Searching one level -/

/-- Only the maps of the levels may differ, and they hold the same. -/
structure SameHold (s s' : ScopeStack V) (levels : List ℕ) (es : ℕ → List (ListMap.Located V)) :
    Prop where
  holds : s'.Holds levels es
  list : s'.list = s.list
  fresh : s'.fresh = s.fresh

/-- The list is the same from any element on. -/
theorem SameHold.chain {p : Option ℕ} {cells : List (ℕ × ℕ)} (h : SameHold s s' levels es)
    (hchain : Linked.Chain s.list.heap p cells) : Linked.Chain s'.list.heap p cells := by
  rw [h.list]
  exact hchain

theorem Holds.update_level {m : ListMap V} {ys fs : List (ListMap.Located V)}
    (h : s.Holds levels es) (a : ℕ) (hperm : ys.Perm fs) (hm : m.Represents ys) :
    Holds { s with level := Function.update s.level a m } levels (Function.update es a fs) where
  order := h.order
  distinct := h.distinct
  bounded := h.bounded
  entries := fun b hb => by
    by_cases hba : b = a
    · subst hba
      exact ⟨ys, by rw [Function.update_self]; exact hperm, by
        show (Function.update s.level b m b).Represents ys
        rw [Function.update_self]
        exact hm⟩
    · obtain ⟨zs, hzs, hrep⟩ := h.entries b hb
      refine ⟨zs, by rwa [Function.update_of_ne hba], ?_⟩
      show (Function.update s.level a m b).Represents zs
      rwa [Function.update_of_ne hba]

theorem Holds.getAt (h : s.Holds levels es) (ha : a ∈ levels) (k : CString) :
    ∃ v s', s.getAt a k = some (v, s') ∧ SameHold s s' levels es ∧ AnswersAt es k a v := by
  obtain ⟨ys, hys, hrep⟩ := h.entries a ha
  obtain ⟨v, m, zs, hget, hzs, hm, hv⟩ := hrep.get_cases k
  have hhold := h.update_level a (hzs.trans hys) hm
  rw [Function.update_eq_self] at hhold
  refine ⟨v, { s with level := Function.update s.level a m }, ?_, ⟨hhold, rfl, rfl⟩, ?_⟩
  · unfold ScopeStack.getAt
    rw [hget]
    rfl
  · rcases hv with ⟨rfl, hnone⟩ | ⟨e, he, hek, rfl⟩
    · exact .inl ⟨rfl, fun e he => hnone e (hys.mem_iff.2 he)⟩
    · exact .inr ⟨e, hys.mem_iff.1 he, hek, rfl⟩

/-- Whether a name is bound does not depend on how the level is described. -/
theorem Holds.not_binds {es' : ℕ → List (ListMap.Located V)} {w : V} (h : s.Holds levels es)
    (h' : s.Holds levels es') (ha : a ∈ levels) (hnone : ∀ e ∈ es a, e.2.key ≠ k) :
    ¬ Binds es' k a w := by
  intro hbinds
  obtain ⟨v, t, hget, -, hans⟩ := h.getAt ha k
  obtain ⟨v', t', hget', -, hans'⟩ := h'.getAt ha k
  rw [hget] at hget'
  obtain ⟨rfl, -⟩ := Prod.mk.inj (Option.some.inj hget')
  obtain rfl := hbinds.answersAt hans'
  rcases hans with ⟨hv, -⟩ | ⟨e, he, hek, -⟩
  · cases hv
  · exact hnone e he hek

theorem SameHold.refl (h : s.Holds levels es) : SameHold s s levels es := ⟨h, rfl, rfl⟩

theorem SameHold.trans {t : ScopeStack V} (h : SameHold s s' levels es)
    (h' : SameHold s' t levels es) : SameHold s t levels es :=
  ⟨h'.holds, h'.list.trans h.list, h'.fresh.trans h.fresh⟩

/-! ### Entering and leaving -/

theorem enterScope_null : (enterScope (none : Option (ScopeStack V))).Holds [0] fun _ => [] where
  order := ⟨_, IteratedList.constructList_represents.insertElement 0, rfl⟩
  distinct := List.nodup_singleton 0
  bounded := fun a ha => by
    rw [List.mem_singleton.1 ha]
    exact Nat.zero_lt_one
  entries := fun a ha => by
    refine ⟨[], List.Perm.refl _, ?_⟩
    rw [List.mem_singleton.1 ha]
    exact ListMap.constructor_represents

theorem Holds.enterScope (h : s.Holds levels es) :
    (enterScope (some s)).Holds (s.fresh :: levels) (Function.update es s.fresh []) := by
  obtain ⟨⟨cells, hrep, rfl⟩, hdistinct, hbounded, hentries⟩ := h
  have hfresh : s.fresh ∉ cells.map Prod.snd := by
    intro hmem
    have := hbounded _ hmem
    omega
  refine ⟨⟨_, hrep.insertElement s.fresh, rfl⟩, List.nodup_cons.2 ⟨hfresh, hdistinct⟩, ?_, ?_⟩
  · intro a ha
    show a < s.fresh + 1
    rcases List.mem_cons.1 ha with rfl | ha
    · exact Nat.lt_succ_self _
    · exact Nat.lt_succ_of_lt (hbounded a ha)
  · intro a ha
    have hlevel : (ScopeStack.enterScope (some s)).level =
        Function.update s.level s.fresh ListMap.constructor := rfl
    rw [hlevel]
    rcases List.mem_cons.1 ha with rfl | ha
    · rw [Function.update_self, Function.update_self]
      exact ⟨[], List.Perm.refl _, ListMap.constructor_represents⟩
    · have hne : a ≠ s.fresh := fun h => hfresh (h ▸ ha)
      rw [Function.update_of_ne hne, Function.update_of_ne hne]
      exact hentries a ha

theorem Holds.exitScope (h : s.Holds (a :: levels) es) :
    ∃ s', s.exitScope = some s' ∧ s'.Holds levels es ∧ s'.fresh = s.fresh := by
  obtain ⟨⟨cells, hrep, hcells⟩, hdistinct, hbounded, hentries⟩ := h
  obtain ⟨⟨x, b⟩, cells, rfl, hb, rfl⟩ := List.map_eq_cons_iff.1 hcells
  obtain rfl : b = a := hb
  obtain ⟨hfirst, t, ht, -⟩ := hrep.chain
  obtain ⟨list, hremove, hrep', -⟩ := hrep.removeElement_head
  refine ⟨{ s with list := list }, ?_, ⟨⟨cells, hrep', rfl⟩, (List.nodup_cons.1 hdistinct).2,
    fun c hc => hbounded c (List.mem_cons_of_mem _ hc),
    fun c hc => hentries c (List.mem_cons_of_mem _ hc)⟩, rfl⟩
  unfold ScopeStack.exitScope
  simp only [hfirst, ht, Option.bind_eq_bind, Option.bind_some, hremove]
  rfl

theorem Holds.exitScopes (h : s.Holds levels es) (hn : n ≤ levels.length) :
    ∃ s', exitScopes n s = some s' ∧ s'.Holds (levels.drop n) es ∧ s'.fresh = s.fresh := by
  induction n generalizing s levels with
  | zero => exact ⟨s, rfl, h, rfl⟩
  | succ n ih =>
    cases levels with
    | nil => simp at hn
    | cons a levels =>
      obtain ⟨s₁, hexit, hhold, hfresh⟩ := h.exitScope
      obtain ⟨s₂, hexits, hhold₂, hfresh₂⟩ := ih hhold (by simpa using hn)
      refine ⟨s₂, ?_, by simpa using hhold₂, hfresh₂.trans hfresh⟩
      unfold ScopeStack.exitScopes
      rw [hexit]
      exact hexits

/-! ### Searching the levels -/

/-- The first node is not met again on the way through the others. -/
theorem chain_ne_first {heap : Linked.Heap ℕ} {c d : ℕ × ℕ} {cells : List (ℕ × ℕ)}
    (h : Linked.Chain heap p (c :: cells)) (hd : d ∈ cells) : (some d.1 : Option ℕ) ≠ some c.1 := by
  intro heq
  have hnd := (List.nodup_cons.1 h.nodup).1
  rw [Option.some.injEq] at heq
  exact hnd (heq ▸ List.mem_map_of_mem hd)

/-- `ListMap_get` on the levels in turn, up to the first value. -/
def getIn (name : CString) : List ℕ → ScopeStack V → Option (Option V × ScopeStack V)
  | [], s => some (none, s)
  | a :: levels, s => do
    match ← s.getAt a name with
    | (some element, s) => return (some element, s)
    | (none, s) => getIn name levels s

/-- `ListMap_put` on the levels in turn, up to the first that has the name; there is none behind the
last level. -/
def putIn (name : CString) (value : Option V) :
    List ℕ → ScopeStack V → Option (Bool × ScopeStack V)
  | [], _ => none
  | a :: levels, s => do
    match ← s.putAt a name value with
    | (true, s) => return (true, s)
    | (false, s) => putIn name value levels s

theorem list_of_getAt (h : s.getAt a k = some (v, s')) : s'.list = s.list := by
  obtain ⟨⟨w, m⟩, -, h⟩ := Option.bind_eq_some_iff.1 h
  cases h
  rfl

theorem list_of_putAt {found : Bool} (h : s.putAt a k v = some (found, s')) : s'.list = s.list := by
  obtain ⟨⟨w, m⟩, -, h⟩ := Option.bind_eq_some_iff.1 h
  cases h
  rfl

theorem loadFrom_eq_getIn {cells : List (ℕ × ℕ)} {first : ℕ}
    (hchain : Linked.Chain s.list.heap p cells)
    (hne : ∀ d ∈ cells, (some d.1 : Option ℕ) ≠ some first) (hfuel : cells.length < fuel)
    (k : CString) : loadFrom (some first) k fuel p s = getIn k (cells.map Prod.snd) s := by
  induction cells generalizing s p fuel with
  | nil =>
    obtain ⟨fuel, rfl⟩ := Nat.exists_eq_add_one.2 (Nat.zero_lt_of_lt hfuel)
    rw [Linked.chain_nil.1 hchain]
    rfl
  | cons c cells ih =>
    obtain ⟨fuel, rfl⟩ := Nat.exists_eq_add_one.2 (Nat.zero_lt_of_lt hfuel)
    obtain ⟨rfl, t, ht, hrest⟩ := hchain
    unfold ScopeStack.loadFrom
    rw [if_neg (hne c List.mem_cons_self)]
    simp only [ht, Option.bind_eq_bind, Option.bind_some, List.map_cons, getIn]
    cases hget : s.getAt c.2 k with
    | none => rfl
    | some result =>
      obtain ⟨v, s₁⟩ := result
      cases v with
      | some v => rfl
      | none =>
        rw [← list_of_getAt hget] at hrest
        exact ih hrest (fun d hd => hne d (List.mem_cons_of_mem _ hd)) (by simp at hfuel; omega)

/-- `ScopeStack_load` searches the levels in turn. -/
theorem load_eq_getIn (h : s.Levels levels) (k : CString) : s.load k = getIn k levels s := by
  obtain ⟨cells, hrep, rfl⟩ := h
  unfold ScopeStack.load
  cases cells with
  | nil =>
    rw [Linked.chain_nil.1 hrep.chain]
    rfl
  | cons c cells =>
    have hlen := hrep.length_le
    obtain ⟨hfirst, t, ht, hrest⟩ := hrep.chain
    simp only [hfirst, ht, Option.bind_eq_bind, Option.bind_some, List.map_cons, getIn]
    cases hget : s.getAt c.2 k with
    | none => rfl
    | some result =>
      obtain ⟨v, s₁⟩ := result
      cases v with
      | some v => rfl
      | none =>
        have hlist := list_of_getAt hget
        rw [← hlist] at hrest hlen
        exact loadFrom_eq_getIn hrest (fun d hd => chain_ne_first hrep.chain hd)
          (by simp at hlen; omega) k

theorem storeFrom_eq_putIn {cells : List (ℕ × ℕ)} {first : ℕ}
    (hchain : Linked.Chain s.list.heap p cells)
    (hne : ∀ d ∈ cells, (some d.1 : Option ℕ) ≠ some first) (hfuel : cells.length < fuel)
    (k : CString) (v : Option V) :
    storeFrom (some first) k v fuel p s = putIn k v (cells.map Prod.snd) s := by
  induction cells generalizing s p fuel with
  | nil =>
    obtain ⟨fuel, rfl⟩ := Nat.exists_eq_add_one.2 (Nat.zero_lt_of_lt hfuel)
    rw [Linked.chain_nil.1 hchain]
    rfl
  | cons c cells ih =>
    obtain ⟨fuel, rfl⟩ := Nat.exists_eq_add_one.2 (Nat.zero_lt_of_lt hfuel)
    obtain ⟨rfl, t, ht, hrest⟩ := hchain
    unfold ScopeStack.storeFrom
    rw [if_neg (hne c List.mem_cons_self)]
    simp only [ht, Option.bind_eq_bind, Option.bind_some, List.map_cons, putIn]
    cases hput : s.putAt c.2 k v with
    | none => rfl
    | some result =>
      obtain ⟨found, s₁⟩ := result
      cases found with
      | true => rfl
      | false =>
        rw [← list_of_putAt hput] at hrest
        exact ih hrest (fun d hd => hne d (List.mem_cons_of_mem _ hd)) (by simp at hfuel; omega)

/-- `ScopeStack_store` goes through the levels in turn. -/
theorem store_eq_putIn (h : s.Levels levels) (k : CString) (v : Option V) :
    s.store k v = putIn k v levels s := by
  obtain ⟨cells, hrep, rfl⟩ := h
  unfold ScopeStack.store
  cases cells with
  | nil =>
    rw [Linked.chain_nil.1 hrep.chain]
    rfl
  | cons c cells =>
    have hlen := hrep.length_le
    obtain ⟨hfirst, t, ht, hrest⟩ := hrep.chain
    simp only [hfirst, ht, Option.bind_eq_bind, Option.bind_some, List.map_cons, putIn]
    cases hput : s.putAt c.2 k v with
    | none => rfl
    | some result =>
      obtain ⟨found, s₁⟩ := result
      cases found with
      | true => rfl
      | false =>
        have hlist := list_of_putAt hput
        rw [← hlist] at hrest hlen
        exact storeFrom_eq_putIn hrest (fun d hd => chain_ne_first hrep.chain hd)
          (by simp at hlen; omega) k v

theorem Holds.getIn {searched : List ℕ} (h : s.Holds levels es)
    (hsearched : ∀ a ∈ searched, a ∈ levels) (k : CString) :
    ∃ v s', getIn k searched s = some (v, s') ∧ SameHold s s' levels es ∧
      Answers es k searched v := by
  induction searched generalizing s with
  | nil => exact ⟨none, s, rfl, SameHold.refl h, .nil⟩
  | cons a searched ih =>
    obtain ⟨v, s₁, hget, hsame, hv⟩ := h.getAt (hsearched a List.mem_cons_self) k
    simp only [ScopeStack.getIn, Option.bind_eq_bind, Option.bind_some, hget]
    cases v with
    | some v => exact ⟨some v, s₁, rfl, hsame, .found hv⟩
    | none =>
      obtain ⟨v, s₂, hload, hsame₂, hans⟩ := ih hsame.holds
        fun b hb => hsearched b (List.mem_cons_of_mem _ hb)
      exact ⟨v, s₂, hload, hsame.trans hsame₂, .next hv hans⟩

theorem Holds.load (h : s.Holds levels es) (k : CString) :
    ∃ v s', s.load k = some (v, s') ∧ SameHold s s' levels es ∧ Answers es k levels v := by
  rw [load_eq_getIn h.order]
  exact h.getIn (fun _ ha => ha) k

/-! ### Leaving up to a name -/

/-- How many levels the search for a name clears, from the second level on. -/
def countIn (name : CString) :
    List ℕ → ℕ → ScopeStack V → Option (ℕ × ScopeStack V)
  | [], levelsToClear, s => some (levelsToClear, s)
  | a :: levels, levelsToClear, s => do
    match ← s.getAt a name with
    | (some _, s) => return (levelsToClear, s)
    | (none, s) => countIn name levels (levelsToClear + 1) s

theorem countFrom_eq_countIn {cells : List (ℕ × ℕ)} {first m : ℕ}
    (hchain : Linked.Chain s.list.heap p cells)
    (hne : ∀ d ∈ cells, (some d.1 : Option ℕ) ≠ some first) (hfuel : cells.length < fuel)
    (k : CString) : countFrom (some first) k fuel p m s = countIn k (cells.map Prod.snd) m s := by
  induction cells generalizing s p fuel m with
  | nil =>
    obtain ⟨fuel, rfl⟩ := Nat.exists_eq_add_one.2 (Nat.zero_lt_of_lt hfuel)
    rw [Linked.chain_nil.1 hchain]
    rfl
  | cons c cells ih =>
    obtain ⟨fuel, rfl⟩ := Nat.exists_eq_add_one.2 (Nat.zero_lt_of_lt hfuel)
    obtain ⟨rfl, t, ht, hrest⟩ := hchain
    unfold ScopeStack.countFrom
    rw [if_neg (hne c List.mem_cons_self)]
    simp only [ht, Option.bind_eq_bind, Option.bind_some, List.map_cons, countIn]
    cases hget : s.getAt c.2 k with
    | none => rfl
    | some result =>
      obtain ⟨v, s₁⟩ := result
      cases v with
      | some v => rfl
      | none =>
        rw [← list_of_getAt hget] at hrest
        exact ih hrest (fun d hd => hne d (List.mem_cons_of_mem _ hd)) (by simp at hfuel; omega)

theorem exitTo_none (h : s.Levels []) (k : CString) : s.exitTo k = some s := by
  obtain ⟨cells, hrep, hcells⟩ := h
  obtain rfl := List.map_eq_nil_iff.1 hcells
  unfold ScopeStack.exitTo
  rw [Linked.chain_nil.1 hrep.chain]

/-- `ScopeStack_exitTo` looks at the first level before it counts. -/
theorem exitTo_found {w : V} (h : s.Levels (a :: levels)) (hget : s.getAt a k = some (some w, s')) :
    s.exitTo k = some s' := by
  obtain ⟨cells, hrep, hcells⟩ := h
  obtain ⟨c, cells, rfl, rfl, rfl⟩ := List.map_eq_cons_iff.1 hcells
  obtain ⟨hfirst, t, ht, -⟩ := hrep.chain
  unfold ScopeStack.exitTo
  simp only [hfirst, ht, Option.bind_eq_bind, Option.bind_some, hget]
  rfl

theorem exitTo_counted (h : s.Levels (a :: levels)) (hget : s.getAt a k = some (none, s')) :
    s.exitTo k = (countIn k levels 0 s').bind fun r => exitScopes r.1 r.2 := by
  obtain ⟨cells, hrep, hcells⟩ := h
  obtain ⟨c, cells, rfl, rfl, rfl⟩ := List.map_eq_cons_iff.1 hcells
  have hlen := hrep.length_le
  obtain ⟨hfirst, t, ht, hrest⟩ := hrep.chain
  rw [← list_of_getAt hget] at hrest hlen
  have hcount := @countFrom_eq_countIn V s' t (s'.list.fresh + 1) cells c.1 0 hrest
    (fun d hd => chain_ne_first hrep.chain hd) (by simp at hlen; omega) k
  unfold ScopeStack.exitTo
  simp only [hfirst, ht, Option.bind_eq_bind, Option.bind_some, hget, hcount]

theorem Holds.countIn {pre post : List ℕ} {m : ℕ} {w : V} (h : s.Holds levels es)
    (hsearched : ∀ b ∈ pre ++ a :: post, b ∈ levels) (hpre : ∀ b ∈ pre, Passes es k b)
    (hbind : Binds es k a w) :
    ∃ s', countIn k (pre ++ a :: post) m s = some (m + pre.length, s') ∧
      SameHold s s' levels es := by
  induction pre generalizing s m with
  | nil =>
    obtain ⟨v, s₁, hget, hsame, hv⟩ := h.getAt (hsearched a (by simp)) k
    rw [hbind.answersAt hv] at hget
    refine ⟨s₁, ?_, hsame⟩
    simp only [List.nil_append, ScopeStack.countIn, hget]
    rfl
  | cons b pre ih =>
    obtain ⟨v, s₁, hget, hsame, hv⟩ := h.getAt (hsearched b (by simp)) k
    rw [(hpre b List.mem_cons_self).answersAt hv] at hget
    obtain ⟨s₂, hcount, hsame₂⟩ := @ih s₁ (m + 1) hsame.holds
      (fun c hc => hsearched c (List.mem_cons_of_mem _ hc))
      (fun c hc => hpre c (List.mem_cons_of_mem _ hc))
    refine ⟨s₂, ?_, hsame.trans hsame₂⟩
    rw [List.length_cons, Nat.add_comm pre.length, ← Nat.add_assoc]
    simp only [List.cons_append, ScopeStack.countIn, hget]
    exact hcount

/-- One level fewer is left than there are above the one that binds the name. -/
theorem Holds.exitTo {pre post : List ℕ} {w : V} (h : s.Holds (pre ++ a :: post) es)
    (hpre : ∀ b ∈ pre, Passes es k b) (hbind : Binds es k a w) :
    ∃ s', s.exitTo k = some s' ∧ s'.Holds ((pre ++ a :: post).drop (pre.length - 1)) es ∧
      s'.fresh = s.fresh := by
  cases pre with
  | nil =>
    obtain ⟨v, s₁, hget, hsame, hv⟩ := h.getAt List.mem_cons_self k
    rw [hbind.answersAt hv] at hget
    exact ⟨s₁, exitTo_found h.order hget, hsame.holds, hsame.fresh⟩
  | cons b pre =>
    obtain ⟨v, s₁, hget, hsame, hv⟩ := h.getAt List.mem_cons_self k
    rw [(hpre b List.mem_cons_self).answersAt hv] at hget
    obtain ⟨s₂, hcount, hsame₂⟩ := @Holds.countIn V s₁ _ es a k pre post 0 w hsame.holds
      (fun c hc => List.mem_cons_of_mem _ hc)
      (fun c hc => hpre c (List.mem_cons_of_mem _ hc)) hbind
    obtain ⟨s₃, hexits, hhold, hfresh⟩ := hsame₂.holds.exitScopes (n := pre.length) (by simp; omega)
    refine ⟨s₃, ?_, by simpa using hhold, by rw [hfresh, hsame₂.fresh, hsame.fresh]⟩
    have hlevels : s.Levels (b :: (pre ++ a :: post)) := h.order
    rw [exitTo_counted hlevels hget, hcount, Option.bind_some, Nat.zero_add]
    exact hexits

/-! ### Declaring and storing -/

theorem Holds.declare (h : s.Holds (a :: levels) es) (k : CString) :
    ∃ s' fs, s.declare k = some s' ∧ s'.Holds (a :: levels) (Function.update es a fs) ∧
      s'.fresh = s.fresh ∧
      ((fs = es a ∧ ∃ e ∈ es a, e.2.key = k ∧ e.2.value ≠ none) ∨
        (∃ n, fs = (n, ⟨k, none⟩) :: es a) ∧
          ((∀ e ∈ es a, e.2.key ≠ k) ∨ ∃ e ∈ es a, e.2.key = k ∧ e.2.value = none)) := by
  obtain ⟨cells, hrep, hcells⟩ := h.order
  obtain ⟨⟨x, b⟩, cells, rfl, hb, -⟩ := List.map_eq_cons_iff.1 hcells
  obtain rfl : b = a := hb
  obtain ⟨hfirst, t, ht, -⟩ := hrep.chain
  obtain ⟨ys, hys, hlevel⟩ := h.entries b List.mem_cons_self
  obtain ⟨m, zs, hdeclare, hm, hcase⟩ := hlevel.declare_cases k
  have hrun : s.declare k = some { s with level := Function.update s.level b m } := by
    unfold ScopeStack.declare
    simp only [hfirst, Option.bind_eq_bind, Option.bind_some, ht, hdeclare]
    rfl
  simp only [hys.mem_iff] at hcase
  rcases hcase with ⟨hzs, hfound⟩ | ⟨⟨n, hzs⟩, hnot⟩
  · exact ⟨_, es b, hrun, h.update_level b (hzs.trans hys) hm, rfl, .inl ⟨rfl, hfound⟩⟩
  · exact ⟨_, _, hrun, h.update_level b (hzs.trans (hys.cons _)) hm, rfl, .inr ⟨⟨n, rfl⟩, hnot⟩⟩

/-- `es` with the value of one entry of the level at `b`, of name `k`, replaced by `v`. -/
def Stored (es es' : ℕ → List (ListMap.Located V)) (k : CString) (v : Option V) (b : ℕ) : Prop :=
  ∃ e rest, (es b).Perm (e :: rest) ∧ e.2.key = k ∧
    es' = Function.update es b ((e.1, { e.2 with value := v }) :: rest)

theorem Holds.putAt (h : s.Holds levels es) (ha : a ∈ levels) (k : CString) (v : Option V) :
    (∃ s', s.putAt a k v = some (false, s') ∧ SameHold s s' levels es ∧ ∀ e ∈ es a, e.2.key ≠ k) ∨
    ∃ s' es', s.putAt a k v = some (true, s') ∧ SameHold s s' levels es' ∧ Stored es es' k v a := by
  obtain ⟨ys, hys, hlevel⟩ := h.entries a ha
  unfold ScopeStack.putAt
  rcases hlevel.put_cases k v with
    ⟨m, zs, hput, hm, hzs, hnone⟩ | ⟨m, zs, e, rest, hput, hm, hperm, he, hzs⟩
  · refine .inl ⟨{ s with level := Function.update s.level a m }, by rw [hput]; rfl, ⟨?_, rfl, rfl⟩,
      fun e he => hnone e (hys.mem_iff.2 he)⟩
    have hhold := h.update_level a (hzs.trans hys) hm
    rwa [Function.update_eq_self] at hhold
  · exact .inr ⟨{ s with level := Function.update s.level a m }, _, by rw [hput]; rfl,
      ⟨h.update_level a hzs hm, rfl, rfl⟩, e, rest, hys.symm.trans hperm, he, rfl⟩

theorem Holds.putIn {pre post : List ℕ} (h : s.Holds levels es)
    (hsearched : ∀ b ∈ pre ++ a :: post, b ∈ levels)
    (hpre : ∀ b ∈ pre, ∀ e ∈ es b, e.2.key ≠ k) (hdecl : ∃ e ∈ es a, e.2.key = k) (v : Option V) :
    ∃ s' es', putIn k v (pre ++ a :: post) s = some (true, s') ∧ SameHold s s' levels es' ∧
      Stored es es' k v a := by
  induction pre generalizing s with
  | nil =>
    rcases h.putAt (hsearched a (by simp)) k v with
      ⟨s₁, -, -, hnone⟩ | ⟨s₁, es', hput, hsame, hstored⟩
    · obtain ⟨e, he, hek⟩ := hdecl
      exact absurd hek (hnone e he)
    · refine ⟨s₁, es', ?_, hsame, hstored⟩
      simp only [List.nil_append, ScopeStack.putIn, hput]
      rfl
  | cons b pre ih =>
    rcases h.putAt (hsearched b (by simp)) k v with
      ⟨s₁, hput, hsame, -⟩ | ⟨s₁, es', -, -, e, rest, hperm, hek, -⟩
    · obtain ⟨s₂, es', hstore, hsame₂, hstored⟩ := ih hsame.holds
        (fun c hc => hsearched c (List.mem_cons_of_mem _ hc))
        (fun c hc => hpre c (List.mem_cons_of_mem _ hc))
      refine ⟨s₂, es', ?_, ⟨hsame₂.holds, hsame₂.list.trans hsame.list,
        hsame₂.fresh.trans hsame.fresh⟩, hstored⟩
      simp only [List.cons_append, ScopeStack.putIn, hput]
      exact hstore
    · exact absurd hek (hpre b List.mem_cons_self e (hperm.mem_iff.2 List.mem_cons_self))

/-- The store goes to the innermost level that declares the name. -/
theorem Holds.store {pre post : List ℕ} (h : s.Holds (pre ++ a :: post) es)
    (hpre : ∀ b ∈ pre, ∀ e ∈ es b, e.2.key ≠ k) (hdecl : ∃ e ∈ es a, e.2.key = k) (v : Option V) :
    ∃ s' es', s.store k v = some (true, s') ∧ SameHold s s' (pre ++ a :: post) es' ∧
      Stored es es' k v a := by
  rw [store_eq_putIn h.order]
  exact h.putIn (fun _ hb => hb) hpre hdecl v

/-! ### What a declaration and a store leave alone -/

/-- The levels have the same entries of the names in `reserved`. -/
def SameFor (reserved : CString → Prop) (levels : List ℕ) (es es' : ℕ → List (ListMap.Located V)) :
    Prop :=
  ∀ a ∈ levels, ∀ x : ListMap.Located V, reserved x.2.key → (x ∈ es' a ↔ x ∈ es a)

variable {reserved : CString → Prop} {es' es'' : ℕ → List (ListMap.Located V)}

theorem SameFor.refl : SameFor reserved levels es es := fun _ _ _ _ => Iff.rfl

theorem SameFor.of_eq (h : ∀ a ∈ levels, es' a = es a) : SameFor reserved levels es es' := by
  intro a ha x _
  rw [h a ha]

theorem SameFor.mono {levels' : List ℕ} (h : SameFor reserved levels es es')
    (hsub : ∀ a ∈ levels', a ∈ levels) : SameFor reserved levels' es es' :=
  fun a ha => h a (hsub a ha)

theorem SameFor.trans (h : SameFor reserved levels es es') (h' : SameFor reserved levels es' es'') :
    SameFor reserved levels es es'' :=
  fun a ha x hx => (h' a ha x hx).trans (h a ha x hx)

theorem SameFor.passes (h : SameFor reserved levels es es') (hk : reserved k) (ha : a ∈ levels)
    (hpass : Passes es k a) : Passes es' k a :=
  fun e he hek => hpass e ((h a ha e (hek ▸ hk)).1 he) hek

theorem SameFor.binds {w : V} (h : SameFor reserved levels es es') (hk : reserved k)
    (ha : a ∈ levels) (hbind : Binds es k a w) : Binds es' k a w := by
  obtain ⟨⟨e, he, hek⟩, hall⟩ := hbind
  exact ⟨⟨e, (h a ha e (hek ▸ hk)).2 he, hek⟩,
    fun d hd hdk => hall d ((h a ha d (hdk ▸ hk)).1 hd) hdk⟩

/-- What a declaration leaves in a level. -/
theorem SameFor.declared {fs : List (ListMap.Located V)} (hk : ¬ reserved k)
    (hfs : fs = es a ∨ ∃ n, fs = (n, ⟨k, none⟩) :: es a) :
    SameFor reserved levels es (Function.update es a fs) := by
  intro b _ x hx
  by_cases hba : b = a
  · subst hba
    rw [Function.update_self]
    rcases hfs with rfl | ⟨n, rfl⟩
    · exact Iff.rfl
    · have hne : x ≠ (n, ⟨k, none⟩) := by
        rintro rfl
        exact hk hx
      simp [hne]
  · rw [Function.update_of_ne hba]

theorem Stored.sameFor (h : Stored es es' k v b) (hk : ¬ reserved k) :
    SameFor reserved levels es es' := by
  obtain ⟨e, rest, hperm, hek, rfl⟩ := h
  intro a _ x hx
  by_cases hab : a = b
  · subst hab
    rw [Function.update_self, hperm.mem_iff, List.mem_cons, List.mem_cons]
    have hne : x ≠ (e.1, { e.2 with value := v }) := by
      rintro rfl
      exact hk (hek ▸ hx)
    have hne' : x ≠ e := by
      rintro rfl
      exact hk (hek ▸ hx)
    simp [hne, hne']
  · rw [Function.update_of_ne hab]

/-- A store declares nothing. -/
theorem Stored.declares (h : Stored es es' k v b) (a : ℕ) (j : CString) :
    (∃ e ∈ es' a, e.2.key = j) ↔ ∃ e ∈ es a, e.2.key = j := by
  obtain ⟨e, rest, hperm, hek, rfl⟩ := h
  by_cases hab : a = b
  · subst hab
    rw [Function.update_self]
    simp only [hperm.mem_iff, List.exists_mem_cons_iff]
  · rw [Function.update_of_ne hab]

theorem Holds.declare_keeps (h : s.Holds levels es) (hrun : s.declare k = some s') :
    ∃ es', s'.Holds levels es' ∧ (¬ reserved k → SameFor reserved levels es es') := by
  cases levels with
  | nil =>
    -- there is no level to declare the name in
    obtain ⟨cells, hrep, hcells⟩ := h.order
    rw [List.map_eq_nil_iff.1 hcells] at hrep
    have hfirst : s.list.first = none := hrep.chain
    unfold ScopeStack.declare at hrun
    rw [hfirst] at hrun
    cases hrun
  | cons a levels =>
    obtain ⟨s₁, fs, hdeclare, hholds, -, hfs⟩ := h.declare k
    rw [hrun] at hdeclare
    obtain rfl := Option.some.inj hdeclare
    exact ⟨_, hholds, fun hk => SameFor.declared hk (hfs.imp And.left And.left)⟩

theorem Holds.storeFrom_cases {cells : List (ℕ × ℕ)} {first : Option ℕ} {found : Bool}
    (h : s.Holds levels es) (hchain : Linked.Chain s.list.heap p cells)
    (hmem : ∀ d ∈ cells, d.2 ∈ levels)
    (hrun : ScopeStack.storeFrom first k v fuel p s = some (found, s')) :
    ∃ es', SameHold s s' levels es' ∧ (es' = es ∨ ∃ b, Stored es es' k v b) := by
  induction fuel generalizing s p cells with
  | zero => cases hrun
  | succ fuel ih =>
    unfold ScopeStack.storeFrom at hrun
    split_ifs at hrun with hend
    · obtain ⟨-, rfl⟩ := Prod.mk.inj (Option.some.inj hrun)
      exact ⟨es, .refl h, .inl rfl⟩
    · cases cells with
      | nil =>
        rw [Linked.chain_nil.1 hchain] at hrun
        cases hrun
      | cons c cells =>
        obtain ⟨rfl, t, ht, hrest⟩ := hchain
        simp only [Option.bind_eq_bind, Option.bind_some, ht] at hrun
        rcases h.putAt (hmem c List.mem_cons_self) k v with
          ⟨s₁, hput, hsame, -⟩ | ⟨s₁, es', hput, hsame, hstored⟩
        · rw [hput] at hrun
          obtain ⟨es', hsame', hcase⟩ := ih hsame.holds (hsame.chain hrest)
            (fun d hd => hmem d (List.mem_cons_of_mem _ hd)) hrun
          exact ⟨es', ⟨hsame'.holds, hsame'.list.trans hsame.list,
            hsame'.fresh.trans hsame.fresh⟩, hcase⟩
        · rw [hput] at hrun
          obtain ⟨-, rfl⟩ := Prod.mk.inj (Option.some.inj hrun)
          exact ⟨es', hsame, .inr ⟨c.2, hstored⟩⟩

/-- A store changes one value or none. -/
theorem Holds.store_cases {found : Bool} (h : s.Holds levels es)
    (hrun : s.store k v = some (found, s')) :
    ∃ es', SameHold s s' levels es' ∧ (es' = es ∨ ∃ b, Stored es es' k v b) := by
  obtain ⟨cells, hrep, hcells⟩ := h.order
  unfold ScopeStack.store at hrun
  cases cells with
  | nil =>
    have hfirst : s.list.first = none := hrep.chain
    rw [hfirst] at hrun
    cases hrun
  | cons c cells =>
    obtain ⟨hfirst, t, ht, hrest⟩ := hrep.chain
    have hmem : ∀ d ∈ c :: cells, d.2 ∈ levels := fun d hd => hcells ▸ List.mem_map_of_mem hd
    simp only [hfirst, Option.bind_eq_bind, Option.bind_some, ht] at hrun
    rcases h.putAt (hmem c List.mem_cons_self) k v with
      ⟨s₁, hput, hsame, -⟩ | ⟨s₁, es', hput, hsame, hstored⟩
    · rw [hput] at hrun
      obtain ⟨es', hsame', hcase⟩ := hsame.holds.storeFrom_cases (hsame.chain hrest)
        (fun d hd => hmem d (List.mem_cons_of_mem _ hd)) hrun
      exact ⟨es', ⟨hsame'.holds, hsame'.list.trans hsame.list, hsame'.fresh.trans hsame.fresh⟩,
        hcase⟩
    · rw [hput] at hrun
      obtain ⟨-, rfl⟩ := Prod.mk.inj (Option.some.inj hrun)
      exact ⟨es', hsame, .inr ⟨c.2, hstored⟩⟩

theorem Holds.store_keeps {found : Bool} (h : s.Holds levels es)
    (hrun : s.store k v = some (found, s')) :
    ∃ es', s'.Holds levels es' ∧ (¬ reserved k → SameFor reserved levels es es') := by
  obtain ⟨es', hsame, rfl | ⟨b, hstored⟩⟩ := h.store_cases hrun
  · exact ⟨es', hsame.holds, fun _ => SameFor.refl⟩
  · exact ⟨es', hsame.holds, fun hk => hstored.sameFor hk⟩

/-- The entry that was declared is the only one of a name that is new. -/
theorem Stored.binds_new {n : ℕ} {v : V}
    (h : Stored (Function.update es a ((n, ⟨k, none⟩) :: es a)) es' k (some v) a)
    (hnew : ∀ e ∈ es a, e.2.key ≠ k) : Binds es' k a v := by
  obtain ⟨e, rest, hperm, hek, rfl⟩ := h
  rw [Function.update_self] at hperm
  have hone : ∀ d ∈ rest, d.2.key ≠ k := by
    have hcount := hperm.countP_eq fun d => decide (d.2.key = k)
    have hzero : (es a).countP (fun d => decide (d.2.key = k)) = 0 := by
      rw [List.countP_eq_zero]
      intro d hd
      simpa using hnew d hd
    rw [List.countP_cons, List.countP_cons, hzero] at hcount
    have hrest : rest.countP (fun d => decide (d.2.key = k)) = 0 := by
      simp only [hek, decide_true, if_true] at hcount
      omega
    rw [List.countP_eq_zero] at hrest
    intro d hd
    simpa using hrest d hd
  unfold Binds
  rw [Function.update_self]
  refine ⟨⟨_, List.mem_cons_self, hek⟩, fun d hd hdk => ?_⟩
  rcases List.mem_cons.1 hd with rfl | hd
  · rfl
  · exact absurd hdk (hone d hd)

/-- A declaration and a store change the entries of the name in the first level, and bind it there
if it is new. -/
theorem Holds.bind (h : s.Holds (a :: levels) es) (k : CString) (w : V) :
    ∃ s₁ s₂ es', s.declare k = some s₁ ∧ s₁.store k (some w) = some (true, s₂) ∧
      s₂.Holds (a :: levels) es' ∧ ((∀ e ∈ es a, e.2.key ≠ k) → Binds es' k a w) ∧
      SameFor (· ≠ k) (a :: levels) es es' ∧ ∀ b ≠ a, es' b = es b := by
  obtain ⟨s₁, fs, hdeclare, hholds, -, hfs⟩ := h.declare k
  have hdeclared : ∃ e ∈ fs, e.2.key = k := by
    rcases hfs with ⟨rfl, e, he, hek, -⟩ | ⟨⟨n, rfl⟩, -⟩
    · exact ⟨e, he, hek⟩
    · exact ⟨(n, ⟨k, none⟩), List.mem_cons_self, rfl⟩
  have hsame : SameFor (· ≠ k) (a :: levels) es (Function.update es a fs) :=
    SameFor.declared (fun h => h rfl) (hfs.imp And.left And.left)
  obtain ⟨s₂, es', hstore, hholds', hstored⟩ := @Holds.store V s₁ _ a k [] levels hholds
    (by simp) (by rwa [Function.update_self]) (some w)
  refine ⟨s₁, s₂, es', hdeclare, hstore, hholds'.holds, fun hnew => ?_,
    hsame.trans (hstored.sameFor fun h => h rfl), ?_⟩
  · obtain ⟨n, rfl⟩ : ∃ n, fs = (n, ⟨k, none⟩) :: es a := by
      rcases hfs with ⟨-, e, he, hek, -⟩ | ⟨hfs, -⟩
      · exact absurd hek (hnew e he)
      · exact hfs
    exact hstored.binds_new hnew
  · obtain ⟨e, rest, -, -, rfl⟩ := hstored
    intro b hb
    rw [Function.update_of_ne hb, Function.update_of_ne hb]

end ScopeStack

end InsenseCVM
