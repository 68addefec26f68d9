import InsenseCVM.Collections.Stack
import InsenseCVM.Memory.Entries

/-!
# Stacks with counts

`Stack_push` and `Stack_pop` with the calls they make to the collector. The stack itself is the one
of `Collections.Stack`; the heap has its entries, the nodes of its storage, and the items.
-/

namespace InsenseCVM

namespace GC

open RefHeap

/-- The addresses that a stack uses, and those of the items. -/
inductive StackPiece (V : Type)
  | node (e : ℕ)
  | entry (e : ℕ)
  | item (v : V)
  deriving DecidableEq

/-- Entry `e` of a stack with its node. -/
def stackEntries (V : Type) : Entries ℕ (StackPiece V) where
  node := .node
  entry := .entry
  node_injective := fun _ _ h => StackPiece.node.inj h
  entry_injective := fun _ _ h => StackPiece.entry.inj h
  disjoint := fun _ _ h => by cases h

structure CountedStack (V : Type) where
  stack : Stack V
  heap : ObjectHeap (StackPiece V)

inductive StackOp (V : Type)
  | push (item : Option V)
  | pop

variable {V : Type} [DecidableEq V]

namespace CountedStack

/-- `Stack_push`. -/
def push (n : ℕ) (s : CountedStack V) (item : Option V) :
    Except (Fault (StackPiece V)) (CountedStack V) :=
  let newEntry := s.stack.fresh
  let heap := s.heap.insert (.entry newEntry) ⟨1, .stackEntry (item.map .item)⟩
  insertNode n heap (.node newEntry) (.entry newEntry) >>= fun heap =>
  .ok ⟨s.stack.push item, heap⟩

/-- `Stack_pop`. The entry is read again behind its removal from the storage. -/
def pop (n : ℕ) (s : CountedStack V) : Except (Fault (StackPiece V)) (Option V × CountedStack V) :=
  if s.stack.stackTop = 0 then .ok (none, s)
  else
    followed (s.stack.storage.getElementN 0) >>= fun element =>
    followed element >>= fun element =>
    incRef s.heap ((s.stack.object element).map .item) >>= fun heap =>
    followed s.stack.pop >>= fun (item, stack) =>
    decRef n heap (some (.node element)) >>= fun heap =>
    followed (heap.lookup (.entry element)) >>= fun _ =>
    .ok (item, ⟨stack, heap⟩)

def apply (n : ℕ) (s : CountedStack V) :
    StackOp V → Except (Fault (StackPiece V)) (CountedStack V)
  | .push item => s.push n item
  | .pop => s.pop n >>= fun r => .ok r.2

/-- Calls one after the other. -/
def run (n : ℕ) (ops : List (StackOp V)) (s : CountedStack V) :
    Except (Fault (StackPiece V)) (CountedStack V) :=
  ops.foldlM (apply n) s

/-- A new stack, `Stack_constructor`, beside the objects there are. -/
def created (heap : ObjectHeap (StackPiece V)) : CountedStack V := ⟨Stack.constructor, heap⟩

/-- No entry that was allocated is still there. -/
def EntriesFreed (s : CountedStack V) : Prop := ∀ e < s.stack.fresh, .entry e ∉ s.heap

/-! ### The stack without the counts -/

variable {n : ℕ} {s s' u : CountedStack V} {op : StackOp V} {ops : List (StackOp V)}
  {item : Option V} {heap : ObjectHeap (StackPiece V)}

theorem push_stack (h : s.push n item = .ok s') : s'.stack = s.stack.push item := by
  obtain ⟨heap, -, hs'⟩ := bind_ok h
  cases hs'
  rfl

theorem pop_stack (h : s.pop n = .ok (item, s')) : s.stack.pop = some (item, s'.stack) := by
  unfold pop at h
  split_ifs at h with hempty
  · cases h
    unfold Stack.pop
    rw [if_pos hempty]
  · obtain ⟨element, -, h⟩ := bind_ok h
    obtain ⟨element, -, h⟩ := bind_ok h
    obtain ⟨heap, -, h⟩ := bind_ok h
    obtain ⟨⟨item', stack⟩, hpop, h⟩ := bind_ok h
    obtain ⟨heap, -, h⟩ := bind_ok h
    obtain ⟨_, -, h⟩ := bind_ok h
    cases h
    exact followed_ok hpop

omit [DecidableEq V] in
theorem fresh_of_pop {stack stack' : Stack V} (h : stack.pop = some (item, stack')) :
    stack'.fresh = stack.fresh := by
  unfold Stack.pop at h
  split_ifs at h with hempty
  · cases h
    rfl
  · simp only [Option.bind_eq_bind, Option.bind_eq_some_iff] at h
    obtain ⟨element, -, h⟩ := h
    cases element with
    | none => cases h
    | some element =>
      simp only [Option.bind_eq_some_iff] at h
      obtain ⟨storage, -, h⟩ := h
      cases h
      rfl

/-! ### What is left behind -/

/-- The entries that have been allocated are there. -/
def Leaks (s : CountedStack V) : Prop :=
  Leaked (stackEntries V) (fun _ => True) (fun e => e < s.stack.fresh) s.heap

theorem Leaks.push (h : s.Leaks) (hpush : s.push n item = .ok s') : s'.Leaks := by
  unfold Leaks
  rw [push_stack hpush]
  obtain ⟨heap, hinsert, hs'⟩ := bind_ok hpush
  cases hs'
  obtain ⟨c, hc, hnode, hentry, hrest⟩ := insertNode_ok (by simp) hinsert
  rw [Finmap.lookup_insert] at hc
  cases hc
  have hallocated : (fun e => e < (s.stack.push item).fresh) =
      fun e => e = s.stack.fresh ∨ e < s.stack.fresh := by
    funext e
    show (e < s.stack.fresh + 1) = _
    rw [Nat.lt_succ_iff_lt_or_eq, or_comm]
  rw [hallocated]
  refine Leaked.insert h (lt_irrefl _) hentry trivial hnode (fun j hj => ?_) fun j hj => ?_
  · have hne := (stackEntries V).node_injective.ne hj
    refine (hrest _ hne (by simp [stackEntries])).trans ?_
    exact Finmap.lookup_insert_of_ne _ (by simp [stackEntries])
  · have hne := (stackEntries V).entry_injective.ne hj
    refine (hrest _ (by simp [stackEntries]) hne).trans ?_
    exact Finmap.lookup_insert_of_ne _ hne

theorem Leaks.pop (h : s.Leaks) (hpop : s.pop n = .ok (item, s')) : s'.Leaks := by
  unfold Leaks
  rw [fresh_of_pop (pop_stack hpop)]
  unfold CountedStack.pop at hpop
  split_ifs at hpop with hempty
  · cases hpop
    exact h
  · obtain ⟨element, -, hpop⟩ := bind_ok hpop
    obtain ⟨element, -, hpop⟩ := bind_ok hpop
    obtain ⟨heap, hincRef, hpop⟩ := bind_ok hpop
    obtain ⟨⟨item', stack⟩, -, hpop⟩ := bind_ok hpop
    obtain ⟨heap', hdecRef, hpop⟩ := bind_ok hpop
    obtain ⟨_, -, hpop⟩ := bind_ok hpop
    cases hpop
    have hheap : Leaked (stackEntries V) (fun _ => True) (fun e => e < s.stack.fresh) heap := by
      cases hobject : s.stack.object element with
      | none =>
        rw [hobject] at hincRef
        cases hincRef
        exact h
      | some v =>
        rw [hobject] at hincRef
        obtain ⟨c, hc, rfl⟩ := incRef_ok hincRef
        exact Leaked.congr h (fun e => Finmap.lookup_insert_of_ne _ (by simp [stackEntries]))
          fun e => Finmap.lookup_insert_of_ne _ (by simp [stackEntries])
    exact (Leaked.remove (P := stackEntries V) (i := element) hheap hdecRef).1

theorem Leaks.apply (h : s.Leaks) (hop : s.apply n op = .ok s') : s'.Leaks := by
  cases op with
  | push item => exact h.push hop
  | pop =>
    obtain ⟨⟨item, s₁⟩, hpop, hs'⟩ := bind_ok hop
    cases hs'
    exact h.pop hpop

/-- A push has allocated an entry. -/
theorem fresh_apply (hop : s.apply n op = .ok s') :
    s'.stack.fresh = 0 ↔ s.stack.fresh = 0 ∧ op = .pop := by
  cases op with
  | push item =>
    have hfresh : s'.stack.fresh = s.stack.fresh + 1 := by
      rw [push_stack hop]
      rfl
    rw [hfresh]
    simp
  | pop =>
    obtain ⟨⟨item, s₁⟩, hpop, hs'⟩ := bind_ok hop
    cases hs'
    rw [fresh_of_pop (pop_stack hpop)]
    simp

theorem leaks_run (h : s.Leaks) (hrun : run n ops s = .ok u) :
    u.Leaks ∧ (u.stack.fresh = 0 ↔ s.stack.fresh = 0 ∧ ∀ op ∈ ops, op = .pop) := by
  induction ops generalizing s with
  | nil =>
    cases hrun
    exact ⟨h, by simp⟩
  | cons op ops ih =>
    obtain ⟨s', hop, hrest⟩ := bind_ok hrun
    obtain ⟨hleaks, hfresh⟩ := ih (h.apply hop) hrest
    refine ⟨hleaks, ?_⟩
    rw [hfresh, fresh_apply hop, List.forall_mem_cons, and_assoc]

/-- Nothing but items is in the heap. -/
def OnlyItems (heap : ObjectHeap (StackPiece V)) : Prop := ∀ x ∈ heap, ∃ v, x = .item v

theorem leaks_created (h : OnlyItems heap) : (created heap).Leaks where
  node := by
    intro e c hc
    obtain ⟨v, hv⟩ := h _ (Finmap.mem_of_lookup_eq_some hc)
    cases hv
  entry := fun e he => absurd he (Nat.not_lt_zero e)
  only := by
    intro e he
    obtain ⟨v, hv⟩ := h _ he
    cases hv

/-- Every entry that has ever been pushed is still there. -/
theorem entriesFreed_iff (h : OnlyItems heap) (hrun : run n ops (created heap) = .ok u) :
    u.EntriesFreed ↔ ∀ op ∈ ops, op = .pop := by
  obtain ⟨hleaks, hfresh⟩ := leaks_run (leaks_created h) hrun
  have hnone : u.EntriesFreed ↔ u.stack.fresh = 0 := by
    constructor
    · intro hfreed
      by_contra hne
      exact hfreed 0 (Nat.pos_of_ne_zero hne) (hleaks.mem (Nat.pos_of_ne_zero hne))
    · intro hzero e he
      rw [hzero] at he
      exact absurd he (Nat.not_lt_zero e)
  rw [hnone, hfresh]
  exact and_iff_right rfl

end CountedStack

end GC

end InsenseCVM
