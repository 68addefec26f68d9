import InsenseCVM.Collections.Cursor
import Mathlib.Data.List.Perm.Basic

/-!
# List maps

`Collections/ListMap.c`: an iterated list of entries, each a key and a value. The entries live in
a heap of their own, and the list holds their addresses. A null value is `none`. As for lists, a
function returns `none` when the code would follow a bad pointer or not end.

`Represents m es`: once round from the cursor the map's entries are `es`, each with its address.
The lemmas about the operations say what they do to `es`, up to order.
-/

namespace InsenseCVM

/-- A C string: the bytes before its terminating zero. -/
abbrev CString := List UInt8

/-- `struct ListMapEntry`. -/
structure ListMapEntry (V : Type) where
  key : CString
  value : Option V
  deriving DecidableEq

/-- A list map, with the entries it has allocated. -/
structure ListMap (V : Type) where
  list : IteratedList ℕ
  entry : ℕ → Option (ListMapEntry V)
  fresh : ℕ

namespace ListMap

variable {V : Type}

/-- `ListMap_constructor`. -/
def constructor : ListMap V := ⟨IteratedList.constructList, fun _ => none, 0⟩

/-- `ListMap_isDesiredElement`, true where `strcmp` returns 0. -/
def isDesiredElement (m : ListMap V) (key : CString) (element : ℕ) : Bool :=
  (m.entry element).any fun e => e.key = key

/-- The call of `IteratedList_searchList` that `ListMap_get` and `ListMap_put` begin with. -/
def search (m : ListMap V) (key : CString) : Option (Option ℕ × ListMap V) := do
  let (element, list) ← m.list.searchList (m.isDesiredElement key)
  return (element, { m with list := list })

/-- `ListMap_get`. -/
def get (m : ListMap V) (key : CString) : Option (Option V × ListMap V) := do
  match ← m.search key with
  | (none, m') => return (none, m')
  | (some element, m') =>
    let e ← m'.entry element
    return (e.value, m')

/-- `ListMap_put`. -/
def put (m : ListMap V) (key : CString) (value : Option V) : Option (Bool × ListMap V) := do
  match ← m.search key with
  | (none, m') => return (false, m')
  | (some element, m') =>
    let e ← m'.entry element
    let entry := Function.update m'.entry element (some { e with value := value })
    return (true, { m' with entry := entry })

/-- The new entry of `ListMap_declare`, inserted at the head of the list. -/
def insertEntry (m : ListMap V) (key : CString) : ListMap V :=
  { list := m.list.insertElement (some m.fresh)
    entry := Function.update m.entry m.fresh (some ⟨key, none⟩)
    fresh := m.fresh + 1 }

/-- `ListMap_declare`. A key counts as declared when a value other than null is found for it. -/
def declare (m : ListMap V) (key : CString) : Option (ListMap V) := do
  match ← m.get key with
  | (some _, m') => return m'
  | (none, m') => return m'.insertEntry key

/-! ### Entries -/

/-- An entry with its address. -/
abbrev Located (V : Type) := ℕ × ListMapEntry V

/-- Once round from the cursor the entries are `es`. -/
structure Represents (m : ListMap V) (es : List (Located V)) : Prop where
  round : m.list.Round (es.map Prod.fst)
  distinct : (es.map Prod.fst).Nodup
  entry : ∀ e ∈ es, m.entry e.1 = some e.2
  bounded : ∀ e ∈ es, e.1 < m.fresh

variable {m : ListMap V} {es xs ys : List (Located V)} {e : Located V} {k : CString}

theorem constructor_represents : (constructor : ListMap V).Represents [] where
  round := IteratedList.constructList_round
  distinct := List.nodup_nil
  entry := fun _ h => by cases h
  bounded := fun _ h => by cases h

theorem Represents.isDesiredElement_eq (h : m.Represents es) (he : e ∈ es) :
    m.isDesiredElement k e.1 = decide (e.2.key = k) := by
  rw [isDesiredElement, h.entry e he, Option.any_some]

/-- A move of the cursor keeps the entries, in the order the new cursor gives them. -/
theorem Represents.moved {p : Option ℕ} (h : m.Represents es)
    (hr : IteratedList.Round { m.list with next := p } (ys.map Prod.fst)) (hperm : ys.Perm es) :
    Represents { m with list := { m.list with next := p } } ys where
  round := hr
  distinct := (hperm.map Prod.fst).nodup_iff.2 h.distinct
  entry := fun e he => h.entry e (hperm.mem_iff.1 he)
  bounded := fun e he => h.bounded e (hperm.mem_iff.1 he)

theorem exists_located_perm {as : List ℕ} {es : List (Located V)}
    (h : as.Perm (es.map Prod.fst)) :
    ∃ ys : List (Located V), as = ys.map Prod.fst ∧ ys.Perm es :=
  (congrFun₂ (List.eq_map_comp_perm Prod.fst) as es).mpr h

theorem perm_past (e : Located V) : (ys ++ (xs ++ [e])).Perm (xs ++ e :: ys) := by
  rw [← List.append_assoc]
  refine (List.perm_append_singleton e _).trans ?_
  exact (List.perm_append_comm.cons e).trans List.perm_middle.symm

/-- The search stops at the first entry from the cursor on that has the key, and the cursor is
left behind it. -/
theorem Represents.search_found (h : m.Represents (xs ++ e :: ys))
    (hxs : ∀ d ∈ xs, d.2.key ≠ k) (he : e.2.key = k) :
    ∃ p, m.search k = some (some e.1, { m with list := { m.list with next := p } }) ∧
      Represents { m with list := { m.list with next := p } } (ys ++ (xs ++ [e])) := by
  have hr := h.round
  have hnd := h.distinct
  rw [List.map_append, List.map_cons] at hr hnd
  have hxs' : ∀ a ∈ xs.map Prod.fst, m.isDesiredElement k a = false := by
    intro a ha
    obtain ⟨d, hd, rfl⟩ := List.mem_map.1 ha
    rw [h.isDesiredElement_eq (List.mem_append_left _ hd), decide_eq_false (hxs d hd)]
  have he' : m.isDesiredElement k e.1 = true := by
    rw [h.isDesiredElement_eq (by simp), he, decide_eq_true rfl]
  obtain ⟨p, hs, hp⟩ := hr.searchList_found hnd hxs' he'
  refine ⟨p, by simp [search, hs], h.moved ?_ (perm_past e)⟩
  simpa using hp

/-- A search for a key that no entry has returns null. -/
theorem Represents.search_absent (h : m.Represents es) (hes : ∀ d ∈ es, d.2.key ≠ k) :
    ∃ p ys, m.search k = some (none, { m with list := { m.list with next := p } }) ∧
      ys.Perm es ∧ Represents { m with list := { m.list with next := p } } ys := by
  have hes' : ∀ a ∈ es.map Prod.fst, m.isDesiredElement k a = false := by
    intro a ha
    obtain ⟨d, hd, rfl⟩ := List.mem_map.1 ha
    rw [h.isDesiredElement_eq hd, decide_eq_false (hes d hd)]
  obtain ⟨p, as, hs, hperm, hp⟩ := h.round.searchList_absent h.distinct hes'
  obtain ⟨ys, rfl, hys⟩ := exists_located_perm hperm
  exact ⟨p, ys, by simp [search, hs], hys, h.moved hp hys⟩

/-! ### Operations -/

theorem Represents.get_found (h : m.Represents (xs ++ e :: ys))
    (hxs : ∀ d ∈ xs, d.2.key ≠ k) (he : e.2.key = k) :
    ∃ p, m.get k = some (e.2.value, { m with list := { m.list with next := p } }) ∧
      Represents { m with list := { m.list with next := p } } (ys ++ (xs ++ [e])) := by
  obtain ⟨p, hs, hp⟩ := h.search_found hxs he
  exact ⟨p, by simp [get, hs, h.entry e (by simp)], hp⟩

theorem Represents.get_absent (h : m.Represents es) (hes : ∀ d ∈ es, d.2.key ≠ k) :
    ∃ p ys, m.get k = some (none, { m with list := { m.list with next := p } }) ∧
      ys.Perm es ∧ Represents { m with list := { m.list with next := p } } ys := by
  obtain ⟨p, ys, hs, hys, hp⟩ := h.search_absent hes
  exact ⟨p, ys, by simp [get, hs], hys, hp⟩

theorem exists_first_of_key (h : ∃ e ∈ es, e.2.key = k) :
    ∃ xs e ys, es = xs ++ e :: ys ∧ (∀ d ∈ xs, d.2.key ≠ k) ∧ e.2.key = k := by
  obtain ⟨e, hfind⟩ : ∃ e, es.find? (fun d => decide (d.2.key = k)) = some e :=
    Option.isSome_iff_exists.1 (List.find?_isSome.2 (by simpa using h))
  obtain ⟨he, xs, ys, heq, hxs⟩ := List.find?_eq_some_iff_append.1 hfind
  exact ⟨xs, e, ys, heq, fun d hd => by simpa using hxs d hd, by simpa using he⟩

/-- A lookup answers null or the value of some entry with the key. -/
theorem Represents.get_cases (h : m.Represents es) (k : CString) :
    ∃ value m' ys, m.get k = some (value, m') ∧ ys.Perm es ∧ m'.Represents ys ∧
      ((value = none ∧ ∀ d ∈ es, d.2.key ≠ k) ∨ ∃ e ∈ es, e.2.key = k ∧ value = e.2.value) := by
  by_cases hk : ∃ e ∈ es, e.2.key = k
  · obtain ⟨xs, e, ys, rfl, hxs, he⟩ := exists_first_of_key hk
    obtain ⟨p, hget, hp⟩ := h.get_found hxs he
    exact ⟨_, _, _, hget, perm_past e, hp, Or.inr ⟨e, by simp, he, rfl⟩⟩
  · have hes : ∀ d ∈ es, d.2.key ≠ k := fun d hd hdk => hk ⟨d, hd, hdk⟩
    obtain ⟨p, ys, hget, hys, hp⟩ := h.get_absent hes
    exact ⟨_, _, _, hget, hys, hp, Or.inl ⟨rfl, hes⟩⟩

theorem Represents.put_found (h : m.Represents (xs ++ e :: ys))
    (hxs : ∀ d ∈ xs, d.2.key ≠ k) (he : e.2.key = k) (v : Option V) :
    ∃ m', m.put k v = some (true, m') ∧
      m'.Represents (ys ++ (xs ++ [(e.1, { e.2 with value := v })])) := by
  obtain ⟨p, hs, hp⟩ := h.search_found hxs he
  refine ⟨_, by simp only [put, hs, Option.bind_eq_bind, Option.bind_some, h.entry e (by simp)]; rfl,
    ?_, ?_, fun d hd => ?_, fun d hd => ?_⟩
  · simpa using hp.round
  · simpa using hp.distinct
  · have hnd := hp.distinct
    rw [← List.append_assoc, List.map_append, List.nodup_append] at hnd
    rw [← List.append_assoc, List.mem_append, List.mem_singleton] at hd
    rcases hd with hd | rfl
    · have hne : d.1 ≠ e.1 := hnd.2.2 d.1 (List.mem_map_of_mem hd) e.1 (by simp)
      exact (Function.update_of_ne hne ..).trans
        (hp.entry d (by rw [← List.append_assoc]; exact List.mem_append_left _ hd))
    · exact Function.update_self ..
  · rw [← List.append_assoc, List.mem_append, List.mem_singleton] at hd
    rcases hd with hd | rfl
    · exact hp.bounded d (by rw [← List.append_assoc]; exact List.mem_append_left _ hd)
    · exact hp.bounded e (by simp)

theorem Represents.put_absent (h : m.Represents es) (hes : ∀ d ∈ es, d.2.key ≠ k)
    (v : Option V) :
    ∃ m' ys, m.put k v = some (false, m') ∧ ys.Perm es ∧ m'.Represents ys := by
  obtain ⟨p, ys, hs, hys, hp⟩ := h.search_absent hes
  exact ⟨_, ys, by simp [put, hs], hys, hp⟩

theorem Represents.insertEntry (h : m.Represents es) (k : CString) :
    ∃ ys, ys.Perm ((m.fresh, ⟨k, none⟩) :: es) ∧ (m.insertEntry k).Represents ys := by
  obtain ⟨as, hperm, hround⟩ := h.round.insertElement m.fresh
  obtain ⟨ys, rfl, hys⟩ :=
    @exists_located_perm V as ((m.fresh, ⟨k, none⟩) :: es) hperm
  have hfresh : m.fresh ∉ es.map Prod.fst := by
    intro hmem
    obtain ⟨e, he, hef⟩ := List.mem_map.1 hmem
    exact absurd (h.bounded e he) (by omega)
  refine ⟨ys, hys, hround, ?_, fun e he => ?_, fun e he => ?_⟩
  · exact (hys.map Prod.fst).nodup_iff.2 (List.nodup_cons.2 ⟨hfresh, h.distinct⟩)
  · rcases List.mem_cons.1 (hys.mem_iff.1 he) with rfl | hmem
    · exact Function.update_self ..
    · have hne : e.1 ≠ m.fresh := fun heq => hfresh (heq ▸ List.mem_map_of_mem hmem)
      exact (Function.update_of_ne hne ..).trans (h.entry e hmem)
  · rcases List.mem_cons.1 (hys.mem_iff.1 he) with rfl | hmem
    · exact Nat.lt_succ_self _
    · exact Nat.lt_succ_of_lt (h.bounded e hmem)

theorem Represents.declare_cases (h : m.Represents es) (k : CString) :
    ∃ m' ys, m.declare k = some m' ∧ m'.Represents ys ∧
      ((ys.Perm es ∧ ∃ e ∈ es, e.2.key = k ∧ e.2.value ≠ none) ∨
        (∃ a, ys.Perm ((a, ⟨k, none⟩) :: es)) ∧
          ((∀ e ∈ es, e.2.key ≠ k) ∨ ∃ e ∈ es, e.2.key = k ∧ e.2.value = none)) := by
  obtain ⟨value, m', ys, hget, hys, hm', hvalue⟩ := h.get_cases k
  cases value with
  | none =>
    obtain ⟨zs, hzs, hm''⟩ := hm'.insertEntry k
    refine ⟨m'.insertEntry k, zs, by simp [declare, hget], hm'',
      .inr ⟨⟨m'.fresh, hzs.trans (hys.cons _)⟩, ?_⟩⟩
    rcases hvalue with ⟨-, hnew⟩ | ⟨e, he, hek, hv⟩
    · exact .inl hnew
    · exact .inr ⟨e, he, hek, hv.symm⟩
  | some v =>
    refine ⟨m', ys, by simp [declare, hget], hm', .inl ⟨hys, ?_⟩⟩
    rcases hvalue with ⟨hnone, -⟩ | ⟨e, he, hek, hv⟩
    · cases hnone
    · exact ⟨e, he, hek, by simp [← hv]⟩

theorem Represents.put_cases (h : m.Represents es) (k : CString) (v : Option V) :
    (∃ m' ys, m.put k v = some (false, m') ∧ m'.Represents ys ∧ ys.Perm es ∧
      ∀ e ∈ es, e.2.key ≠ k) ∨
    ∃ m' ys e rest, m.put k v = some (true, m') ∧ m'.Represents ys ∧ es.Perm (e :: rest) ∧
      e.2.key = k ∧ ys.Perm ((e.1, { e.2 with value := v }) :: rest) := by
  by_cases hk : ∃ e ∈ es, e.2.key = k
  · obtain ⟨xs, e, zs, rfl, hxs, he⟩ := exists_first_of_key hk
    obtain ⟨m', hput, hm'⟩ := h.put_found hxs he v
    refine .inr ⟨m', _, e, xs ++ zs, hput, hm', List.perm_middle, he, ?_⟩
    exact (perm_past _).trans List.perm_middle
  · have hes : ∀ d ∈ es, d.2.key ≠ k := fun d hd hdk => hk ⟨d, hd, hdk⟩
    obtain ⟨m', ys, hput, hys, hm'⟩ := h.put_absent hes v
    exact .inl ⟨m', ys, hput, hm', hys, hes⟩

/-! ### Distinct keys -/

/-- The keys of the entries. -/
def keysOf (es : List (Located V)) : List CString := es.map fun e => e.2.key

theorem mem_keysOf : k ∈ keysOf es ↔ ∃ e ∈ es, e.2.key = k := List.mem_map

theorem keysOf_perm (h : ys.Perm es) : (keysOf ys).Perm (keysOf es) := h.map _

/-- No two entries have one key. -/
def KeysDistinct (es : List (Located V)) : Prop := (keysOf es).Nodup

theorem KeysDistinct.of_perm (h : KeysDistinct es) (hperm : ys.Perm es) : KeysDistinct ys :=
  (keysOf_perm hperm).nodup_iff.2 h

theorem KeysDistinct.ne_before (h : KeysDistinct (xs ++ e :: ys)) :
    ∀ d ∈ xs, d.2.key ≠ e.2.key := by
  intro d hd
  rw [KeysDistinct, keysOf, List.map_append, List.nodup_append] at h
  exact h.2.2 _ (List.mem_map.2 ⟨d, hd, rfl⟩) _ (by simp)

/-! ### Values -/

/-- All values in the map satisfy `P`. -/
def AllValues (P : V → Prop) (m : ListMap V) : Prop :=
  ∀ a e, m.entry a = some e → ∀ v ∈ e.value, P v

variable {P : V → Prop} {m' : ListMap V} {key : CString}

theorem allValues_constructor : AllValues P constructor := fun a e h => by cases h

/-- A search moves the cursor only. -/
theorem keeps_search {element : Option ℕ} (h : m.search key = some (element, m')) :
    m'.entry = m.entry ∧ m'.fresh = m.fresh := by
  obtain ⟨⟨element, list⟩, -, h⟩ := Option.bind_eq_some_iff.1 h
  cases h
  exact ⟨rfl, rfl⟩

theorem keeps_get {value : Option V} (h : m.get key = some (value, m')) :
    m'.entry = m.entry ∧ m'.fresh = m.fresh := by
  obtain ⟨⟨element, m₁⟩, hsearch, h⟩ := Option.bind_eq_some_iff.1 h
  cases element with
  | none =>
    cases h
    exact keeps_search hsearch
  | some element =>
    obtain ⟨e, -, h⟩ := Option.bind_eq_some_iff.1 h
    cases h
    exact keeps_search hsearch

/-- What is found in the map is one of its values. -/
theorem AllValues.get {v : V} (h : m.AllValues P) (hget : m.get key = some (some v, m')) :
    P v := by
  obtain ⟨⟨element, m₁⟩, hsearch, hget⟩ := Option.bind_eq_some_iff.1 hget
  cases element with
  | none => cases hget
  | some element =>
    obtain ⟨e, he, hget⟩ := Option.bind_eq_some_iff.1 hget
    obtain ⟨hv, -⟩ := Prod.mk.inj (Option.some.inj hget)
    rw [(keeps_search hsearch).1] at he
    exact h element e he v hv

theorem AllValues.put {value : Option V} {stored : Bool} (h : m.AllValues P)
    (hvalue : ∀ v ∈ value, P v) (hput : m.put key value = some (stored, m')) :
    m'.AllValues P := by
  obtain ⟨⟨element, m₁⟩, hsearch, hput⟩ := Option.bind_eq_some_iff.1 hput
  have hentry := (keeps_search hsearch).1
  cases element with
  | none =>
    cases hput
    intro a e he
    rw [hentry] at he
    exact h a e he
  | some element =>
    obtain ⟨e, -, hput⟩ := Option.bind_eq_some_iff.1 hput
    cases hput
    intro a d hd
    by_cases ha : a = element
    · subst ha
      simp only [Function.update_self] at hd
      cases hd
      exact hvalue
    · simp only [Function.update_of_ne ha, hentry] at hd
      exact h a d hd

theorem AllValues.declare (h : m.AllValues P) (hdeclare : m.declare key = some m') :
    m'.AllValues P := by
  obtain ⟨⟨value, m₁⟩, hget, hdeclare⟩ := Option.bind_eq_some_iff.1 hdeclare
  have hentry := (keeps_get hget).1
  cases value with
  | some v =>
    cases hdeclare
    intro a e he
    rw [hentry] at he
    exact h a e he
  | none =>
    cases hdeclare
    intro a e he v hv
    by_cases ha : a = m₁.fresh
    · subst ha
      simp only [insertEntry, Function.update_self] at he
      cases he
      cases hv
    · simp only [insertEntry, Function.update_of_ne ha, hentry] at he
      exact h a e he v hv

end ListMap

end InsenseCVM
