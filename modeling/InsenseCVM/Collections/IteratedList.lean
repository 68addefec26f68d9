import InsenseCVM.Lib.Linked

/-!
# Iterated lists

`Collections/IteratedList*.c`: a singly linked list of payload pointers with three interior
pointers, `first`, the cursor `next` of `IteratedList_getNextElement`, and `last`.

The nodes of a list live in a heap of their own, addressed by natural numbers below `fresh`;
`GC_decRef` of a node, whose count is one, removes it from the heap. A payload is a pointer, so
a null argument is `none`. Functions that follow pointers return `none` when the code would read
or write through a null or freed pointer, or when a traversal never reaches its end: each
traversal is given one more step than there are nodes, and a traversal that needs more has met
some node twice.
-/

namespace InsenseCVM

open Linked

/-- `struct IteratedListNode`. -/
abbrev IteratedListNode (α : Type) := Linked.Node α

/-- `struct IteratedList`, with the nodes it has allocated. -/
structure IteratedList (α : Type) where
  heap : Heap α
  fresh : ℕ
  first : Option ℕ
  next : Option ℕ
  last : Option ℕ

namespace IteratedList

variable {α : Type}

/-- `IteratedList_constructList`: `GC_alloc` has zeroed all three pointers. -/
def constructList : IteratedList α := ⟨fun _ => none, 0, none, none, none⟩

/-- `IteratedList_isEmpty`. -/
def isEmpty (l : IteratedList α) : Bool := l.first.isNone

/-- The assignment `a->tail = t`. -/
def setTail (l : IteratedList α) (a : ℕ) (t : Option ℕ) : Option (IteratedList α) := do
  let n ← l.heap a
  return { l with heap := Function.update l.heap a (some { n with tail := t }) }

/-- `IteratedList_constructNode` with the assignment of the payload: the node is at the old
`fresh`. -/
def constructNode (l : IteratedList α) (element : α) : IteratedList α :=
  { l with heap := Function.update l.heap l.fresh (some ⟨element, none⟩), fresh := l.fresh + 1 }

/-- `GC_decRef` on a node: its count drops to zero and it is freed. -/
def freeNode (l : IteratedList α) (a : ℕ) : IteratedList α :=
  { l with heap := Function.update l.heap a none }

/-- `IteratedList_insertElement`. -/
def insertElement (l : IteratedList α) : Option α → IteratedList α
  | none => l
  | some element =>
    let newNode := l.fresh
    let l' := l.constructNode element
    let l' := if l.isEmpty then { l' with next := some newNode, last := some newNode } else l'
    { l' with
      heap := Function.update l'.heap newNode (some ⟨element, l.first⟩)
      first := some newNode }

/-- `IteratedList_insertElementAtTail`. The new node's tail is set to `first` on both branches,
and `last` is set on the first branch only. -/
def insertElementAtTail (l : IteratedList α) : Option α → Option (IteratedList α)
  | none => some l
  | some element => do
    let newNode := l.fresh
    let l' := l.constructNode element
    let l' ←
      if l.isEmpty then
        some { l' with first := some newNode, next := some newNode, last := some newNode }
      else do
        let last ← l'.last
        l'.setTail last (some newNode)
    l'.setTail newNode l'.first

/-- `IteratedList_getNextElement`. -/
def getNextElement (l : IteratedList α) : Option (Option α × IteratedList α) :=
  if l.isEmpty then some (none, l)
  else do
    let next ← l.next
    let n ← l.heap next
    return (some n.payload, { l with next := n.tail.orElse fun _ => l.first })

/-- `IteratedList_rewind`. -/
def rewind (l : IteratedList α) : IteratedList α :=
  if l.isEmpty then l else { l with next := l.first }

/-- The loop of `IteratedList_getListLength`. -/
def lengthFrom (heap : Heap α) : ℕ → Option ℕ → ℕ → Option ℕ
  | _, none, count => some count
  | 0, some _, _ => none
  | fuel + 1, some current, count => do
    let n ← heap current
    lengthFrom heap fuel n.tail (count + 1)

/-- `IteratedList_getListLength`. -/
def getListLength (l : IteratedList α) : Option ℕ := lengthFrom l.heap (l.fresh + 1) l.first 0

/-- The loop of `IteratedList_getElementN`: `index` tails further, or null. -/
def skipFrom (heap : Heap α) : ℕ → Option ℕ → Option (Option ℕ)
  | 0, current => some current
  | _ + 1, none => some none
  | index + 1, some current => do
    let n ← heap current
    skipFrom heap index n.tail

/-- `IteratedList_getElementN`; the inner `none` is the null result. -/
def getElementN (l : IteratedList α) (index : ℕ) : Option (Option α) := do
  match ← skipFrom l.heap index l.first with
  | none => return none
  | some current =>
    let n ← l.heap current
    return some n.payload

/-- The loop of `IteratedList_removeAllElements`. -/
def freeFrom (l : IteratedList α) : ℕ → Option ℕ → Option (IteratedList α)
  | _, none => some l
  | 0, some _ => none
  | fuel + 1, some current => do
    let n ← l.heap current
    freeFrom (l.freeNode current) fuel n.tail

/-- `IteratedList_removeAllElements`. -/
def removeAllElements (l : IteratedList α) : Option (IteratedList α) :=
  if l.isEmpty then some l
  else do
    let last ← l.last
    let l' ← l.setTail last none
    let l' ← freeFrom l' (l'.fresh + 1) l'.first
    return { l' with first := none, next := none }

variable [DecidableEq α]

/-- The loop of `IteratedList_searchList`: `current` has been handed out, `first` was the first
element handed out. -/
def searchFrom (f : α → Bool) (first : α) :
    ℕ → α → IteratedList α → Option (Option α × IteratedList α)
  | 0, _, _ => none
  | fuel + 1, current, l =>
    if f current then some (some current, l)
    else do
      match ← l.getNextElement with
      | (none, _) => none
      | (some current', l') =>
        if current' = first then return (none, l') else searchFrom f first fuel current' l'

/-- `IteratedList_searchList`; `f element` says that the comparison returned 0. -/
def searchList (l : IteratedList α) (f : α → Bool) :
    Option (Option α × IteratedList α) := do
  match ← l.getNextElement with
  | (none, l') => return (none, l')
  | (some first, l') => searchFrom f first (l.fresh + 1) first l'

/-- The loop of `IteratedList_containsElement`. -/
def containsFrom (heap : Heap α) (element : α) : ℕ → Option ℕ → Option Bool
  | _, none => some false
  | 0, some _ => none
  | fuel + 1, some current => do
    let n ← heap current
    if n.payload = element then some true else containsFrom heap element fuel n.tail

/-- `IteratedList_containsElement`. -/
def containsElement (l : IteratedList α) (element : α) : Option Bool :=
  if l.isEmpty then some false else containsFrom l.heap element (l.fresh + 1) l.first

/-- The loop of `IteratedList_removeElement`: the pair `previous`, `current` it stops at. -/
def findFrom (heap : Heap α) (element : α) : ℕ → ℕ → Option ℕ → Option (ℕ × Option ℕ)
  | _, previous, none => some (previous, none)
  | 0, _, some _ => none
  | fuel + 1, previous, some current => do
    let n ← heap current
    if n.payload = element then some (previous, some current)
    else findFrom heap element fuel current n.tail

/-- Unlinking `current` behind `previous`, as `IteratedList_removeElement` does. -/
def unlink (l : IteratedList α) (previous current : ℕ) : Option (IteratedList α) := do
  let n ← l.heap current
  let next := if l.next = some current then n.tail else l.next
  let next := if next = none then l.first else next
  let l' ← setTail { l with next := next } previous n.tail
  return l'.freeNode current

/-- `IteratedList_removeElement`. `last` is never written. -/
def removeElement (l : IteratedList α) : Option α → Option (IteratedList α)
  | none => some l
  | some element =>
    match l.first with
    | none => some l
    | some oldFirst => do
      let n ← l.heap oldFirst
      if n.payload = element then
        let next := if l.next = some oldFirst then n.tail else l.next
        return freeNode { l with first := n.tail, next := next } oldFirst
      else
        match ← findFrom l.heap element (l.fresh + 1) oldFirst n.tail with
        | (_, none) => return l
        | (previous, some current) => l.unlink previous current

end IteratedList

end InsenseCVM
