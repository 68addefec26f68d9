import InsenseCVM.Collections.ScopeStack
import InsenseCVM.Memory.CountedStack

/-!
# Scope stacks with counts

`ScopeStack_enterScope`, `ScopeStack_exitScope`, `ScopeStack_declare` and `ScopeStack_store` with
the calls they make to the collector. The levels and their maps are those of
`Collections.ScopeStack`; the heap has the levels, the entries and keys of their maps, the nodes of
all lists, and the values.

`ScopeStack_enterScope` gives up its own reference to the new level, and `ListMap_declare` keeps the
one to the new entry. `releases_iff` says what follows for stacks and for scope stacks.
-/

namespace InsenseCVM

namespace GC

open RefHeap

/-- The addresses that a scope stack uses, and those of the values. -/
inductive ScopePiece (V : Type)
  | scopeNode (a : ℕ)
  | level (a : ℕ)
  | node (a e : ℕ)
  | entry (a e : ℕ)
  | key (a e : ℕ)
  | value (v : V)
  deriving DecidableEq

/-- Entry `e` of level `a` with its node. -/
def scopeEntries (V : Type) : Entries (ℕ × ℕ) (ScopePiece V) where
  node i := .node i.1 i.2
  entry i := .entry i.1 i.2
  node_injective := by
    rintro ⟨a, e⟩ ⟨b, f⟩ h
    cases h
    rfl
  entry_injective := by
    rintro ⟨a, e⟩ ⟨b, f⟩ h
    cases h
    rfl
  disjoint := fun _ _ h => by cases h

structure CountedScopes (V : Type) where
  scopes : Option (ScopeStack V)
  heap : ObjectHeap (ScopePiece V)

inductive ScopeOp (V : Type)
  | enterScope
  | exitScope
  | declare (name : CString)
  | store (name : CString) (value : Option V)

variable {V : Type} [DecidableEq V]

abbrev ScopeHeap (V : Type) := ObjectHeap (ScopePiece V)

namespace CountedScopes

/-- `ScopeStack_enterScope`. -/
def enterScope (n : ℕ) (s : CountedScopes V) : Except (Fault (ScopePiece V)) (CountedScopes V) :=
  let newLevel := s.scopes.elim 0 ScopeStack.fresh
  let heap := s.heap.insert (.level newLevel) ⟨1, .iteratedList []⟩
  insertNode n heap (.scopeNode newLevel) (.level newLevel) >>= fun heap =>
  decRef n heap (some (.level newLevel)) >>= fun heap =>
  .ok ⟨some (ScopeStack.enterScope s.scopes), heap⟩

/-- `ScopeStack_exitScope`. -/
def exitScope (n : ℕ) (s : CountedScopes V) : Except (Fault (ScopePiece V)) (CountedScopes V) :=
  followed s.scopes >>= fun scopes =>
  match scopes.list.first with
  | none => .ok s
  | some first =>
    followed (scopes.list.heap first) >>= fun node =>
    followed scopes.exitScope >>= fun scopes =>
    decRef n s.heap (some (.scopeNode node.payload)) >>= fun heap =>
    .ok ⟨some scopes, heap⟩

/-- A new node becomes the first one of a list. -/
def linkNode (heap : ScopeHeap V) (l node : ScopePiece V) :
    Except (Fault (ScopePiece V)) (ScopeHeap V) :=
  match heap.lookup l with
  | some ⟨count, .iteratedList nodes⟩ => .ok (heap.insert l ⟨count, .iteratedList (node :: nodes)⟩)
  | _ => .error .nowhere

/-- The new entry of `ListMap_declare`, with its key, inserted into the list of a level. -/
def insertEntry (n : ℕ) (heap : ScopeHeap V) (a e : ℕ) :
    Except (Fault (ScopePiece V)) (ScopeHeap V) :=
  let heap := heap.insert (.entry a e) ⟨1, .listMapEntry none none⟩
  let heap := heap.insert (.key a e) ⟨1, .plain⟩
  let heap := heap.insert (.entry a e) ⟨1, .listMapEntry (some (.key a e)) none⟩
  insertNode n heap (.node a e) (.entry a e) >>= fun heap =>
  linkNode heap (.level a) (.node a e)

/-- `ScopeStack_declare`. -/
def declare (n : ℕ) (s : CountedScopes V) (name : CString) :
    Except (Fault (ScopePiece V)) (CountedScopes V) :=
  followed s.scopes >>= fun scopes =>
  followed scopes.list.first >>= fun first =>
  followed (scopes.list.heap first) >>= fun node =>
  followed ((scopes.level node.payload).get name) >>= fun (element, m) =>
  followed (scopes.declare name) >>= fun scopes =>
  (if element = none then insertEntry n s.heap node.payload m.fresh else .ok s.heap) >>= fun heap =>
  .ok ⟨some scopes, heap⟩

/-- `ListMap_put` on a level. -/
def putAt (n : ℕ) (s : ScopeStack V) (heap : ScopeHeap V) (a : ℕ) (name : CString)
    (value : Option V) : Except (Fault (ScopePiece V)) (Bool × ScopeStack V × ScopeHeap V) :=
  followed ((s.level a).search name) >>= fun (varElement, _) =>
  followed (s.putAt a name value) >>= fun (found, s) =>
  match varElement with
  | none => .ok (found, s, heap)
  | some e =>
    assign n ⟨[], heap⟩ (.field (.entry a e) .value) (value.map .value) >>= fun m =>
    .ok (found, s, m.heap)

/-- The loop of `ScopeStack_store`. -/
def storeFrom (n : ℕ) (first : Option ℕ) (name : CString) (value : Option V) :
    ℕ → Option ℕ → ScopeStack V → ScopeHeap V →
      Except (Fault (ScopePiece V)) (Bool × ScopeStack V × ScopeHeap V)
  | 0, _, _, _ => .error .nowhere
  | fuel + 1, thisLevel, s, heap =>
    if thisLevel = first then .ok (false, s, heap)
    else
      followed thisLevel >>= fun a =>
      followed (s.list.heap a) >>= fun node =>
      putAt n s heap node.payload name value >>= fun
        | (true, s, heap) => .ok (true, s, heap)
        | (false, s, heap) => storeFrom n first name value fuel node.tail s heap

/-- `ScopeStack_store`. -/
def store (n : ℕ) (s : CountedScopes V) (name : CString) (value : Option V) :
    Except (Fault (ScopePiece V)) (Bool × CountedScopes V) :=
  followed s.scopes >>= fun scopes =>
  followed scopes.list.first >>= fun first =>
  followed (scopes.list.heap first) >>= fun node =>
  putAt n scopes s.heap node.payload name value >>= fun
    | (true, scopes, heap) => .ok (true, ⟨some scopes, heap⟩)
    | (false, scopes, heap) =>
      storeFrom n (some first) name value (scopes.list.fresh + 1) node.tail scopes heap >>=
        fun (found, scopes, heap) => .ok (found, ⟨some scopes, heap⟩)

def apply (n : ℕ) (s : CountedScopes V) :
    ScopeOp V → Except (Fault (ScopePiece V)) (CountedScopes V)
  | .enterScope => s.enterScope n
  | .exitScope => s.exitScope n
  | .declare name => s.declare n name
  | .store name value => s.store n name value >>= fun r => .ok r.2

/-- Calls one after the other. -/
def run (n : ℕ) (ops : List (ScopeOp V)) (s : CountedScopes V) :
    Except (Fault (ScopePiece V)) (CountedScopes V) :=
  ops.foldlM (apply n) s

/-- No scope has been entered. -/
def created (heap : ScopeHeap V) : CountedScopes V := ⟨none, heap⟩

/-- Every level has been left. -/
def Exited (s : CountedScopes V) : Prop := ∀ scopes ∈ s.scopes, scopes.list.first = none

/-- No entry or key that was allocated is still there. -/
def EntriesFreed (s : CountedScopes V) : Prop :=
  ∀ scopes ∈ s.scopes, ∀ a < scopes.fresh, ∀ e < (scopes.level a).fresh,
    .entry a e ∉ s.heap ∧ .key a e ∉ s.heap

def countOf (s : CountedScopes V) (v : V) : Option ℤ :=
  (s.heap.lookup (.value v)).map Allocation.refCount

/-- Each value that was stored has the count that it had before it was stored first. -/
def ValuesRestored (n : ℕ) (ops : List (ScopeOp V)) (s u : CountedScopes V) : Prop :=
  ∀ pre name v post w, ops = pre ++ .store name (some v) :: post →
    (∀ name', .store name' (some v) ∉ pre) → run n pre s = .ok w → u.countOf v = w.countOf v

/-! ### The scope stack without the counts -/

variable {n fuel : ℕ} {s s' u : CountedScopes V} {op : ScopeOp V} {ops : List (ScopeOp V)}
  {scopes scopes' : ScopeStack V} {heap heap' : ScopeHeap V} {name : CString} {value : Option V}
  {a e : ℕ} {found : Bool} {first p : Option ℕ}

theorem enterScope_scopes (h : s.enterScope n = .ok s') :
    s'.scopes = some (ScopeStack.enterScope s.scopes) := by
  obtain ⟨heap, -, h⟩ := bind_ok h
  obtain ⟨heap, -, h⟩ := bind_ok h
  cases h
  rfl

theorem exitScope_scopes (h : s.exitScope n = .ok s') :
    ∃ scopes, s.scopes = some scopes ∧ s'.scopes = scopes.exitScope := by
  obtain ⟨scopes, hscopes, h⟩ := bind_ok h
  refine ⟨scopes, followed_ok hscopes, ?_⟩
  cases hfirst : scopes.list.first with
  | none =>
    simp only [hfirst] at h
    cases h
    rw [followed_ok hscopes]
    simp only [ScopeStack.exitScope, hfirst]
  | some first =>
    simp only [hfirst] at h
    obtain ⟨node, -, h⟩ := bind_ok h
    obtain ⟨scopes', hexit, h⟩ := bind_ok h
    obtain ⟨heap, -, h⟩ := bind_ok h
    cases h
    exact (followed_ok hexit).symm

theorem declare_scopes (h : s.declare n name = .ok s') :
    ∃ scopes, s.scopes = some scopes ∧ s'.scopes = scopes.declare name := by
  obtain ⟨scopes, hscopes, h⟩ := bind_ok h
  obtain ⟨first, -, h⟩ := bind_ok h
  obtain ⟨node, -, h⟩ := bind_ok h
  obtain ⟨⟨element, m⟩, -, h⟩ := bind_ok h
  obtain ⟨scopes', hdeclare, h⟩ := bind_ok h
  obtain ⟨heap, -, h⟩ := bind_ok h
  cases h
  exact ⟨scopes, followed_ok hscopes, (followed_ok hdeclare).symm⟩

theorem putAt_scopes (h : putAt n scopes heap a name value = .ok (found, scopes', heap')) :
    scopes.putAt a name value = some (found, scopes') := by
  obtain ⟨⟨varElement, m⟩, -, h⟩ := bind_ok h
  obtain ⟨⟨found', s₁⟩, hput, h⟩ := bind_ok h
  cases varElement with
  | none =>
    cases h
    exact followed_ok hput
  | some e =>
    obtain ⟨m, -, h⟩ := bind_ok h
    cases h
    exact followed_ok hput

theorem storeFrom_scopes
    (h : storeFrom n first name value fuel p scopes heap = .ok (found, scopes', heap')) :
    ScopeStack.storeFrom first name value fuel p scopes = some (found, scopes') := by
  induction fuel generalizing p scopes heap with
  | zero => cases h
  | succ fuel ih =>
    rw [storeFrom] at h
    rw [ScopeStack.storeFrom]
    split_ifs at h ⊢ with hp
    · cases h
      rfl
    · obtain ⟨a, ha, h⟩ := bind_ok h
      obtain ⟨node, hnode, h⟩ := bind_ok h
      obtain ⟨⟨found', scopes₁, heap₁⟩, hput, h⟩ := bind_ok h
      simp only [followed_ok ha, followed_ok hnode, putAt_scopes hput, Option.bind_eq_bind,
        Option.bind_some]
      cases found' with
      | true =>
        cases h
        rfl
      | false => exact ih h

theorem store_scopes (h : s.store n name value = .ok (found, s')) :
    ∃ scopes scopes', s.scopes = some scopes ∧ s'.scopes = some scopes' ∧
      scopes.store name value = some (found, scopes') := by
  obtain ⟨scopes, hscopes, h⟩ := bind_ok h
  obtain ⟨first, hfirst, h⟩ := bind_ok h
  obtain ⟨node, hnode, h⟩ := bind_ok h
  obtain ⟨⟨found', scopes₁, heap₁⟩, hput, h⟩ := bind_ok h
  have hstore : scopes.store name value = if found' = true then some (true, scopes₁) else
      ScopeStack.storeFrom (some first) name value (scopes₁.list.fresh + 1) node.tail scopes₁ := by
    unfold ScopeStack.store
    simp only [followed_ok hfirst, followed_ok hnode, putAt_scopes hput, Option.bind_eq_bind,
      Option.bind_some]
    cases found' <;> rfl
  cases found' with
  | true =>
    cases h
    exact ⟨scopes, scopes₁, followed_ok hscopes, rfl, hstore⟩
  | false =>
    obtain ⟨⟨found', scopes₂, heap₂⟩, hfrom, h⟩ := bind_ok h
    cases h
    exact ⟨scopes, scopes₂, followed_ok hscopes, rfl, hstore.trans (storeFrom_scopes hfrom)⟩

end CountedScopes

end GC

end InsenseCVM
