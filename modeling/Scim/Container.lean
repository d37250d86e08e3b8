/-!
# Stacks and queues

Two containers that give their items back one at a time: a stack the newest first, a queue the
oldest first.  `toList` shows the items of both in the order in which they were put in.
-/

namespace Scim

/-- A stack. -/
structure Stack (α : Type) where
  /-- The items, newest first. -/
  newestFirst : List α

/-- A queue. -/
structure Queue (α : Type) where
  /-- The items, oldest first. -/
  oldestFirst : List α

namespace Stack

variable {α : Type}

/-- A stack of items that are put in one after the other. -/
def ofList (items : List α) : Stack α := ⟨items.reverse⟩

/-- The items, oldest first. -/
def toList (s : Stack α) : List α := s.newestFirst.reverse

/-- The stack with an item on top. -/
def push (s : Stack α) (x : α) : Stack α := ⟨x :: s.newestFirst⟩

/-- The newest item. -/
def peek? (s : Stack α) : Option α := s.newestFirst.head?

/-- The stack without its newest item. -/
def pop (s : Stack α) : Stack α := ⟨s.newestFirst.tail⟩

@[simp] theorem toList_ofList (items : List α) : (ofList items).toList = items := by
  simp [ofList, toList]

@[simp] theorem toList_push (s : Stack α) (x : α) : (s.push x).toList = s.toList ++ [x] := by
  simp [push, toList]

theorem peek?_eq_getLast? (s : Stack α) : s.peek? = s.toList.getLast? := by
  simp [peek?, toList]

@[simp] theorem toList_pop (s : Stack α) : s.pop.toList = s.toList.dropLast := by
  simp [pop, toList]

end Stack

namespace Queue

variable {α : Type}

/-- A queue of items that are put in one after the other. -/
def ofList (items : List α) : Queue α := ⟨items⟩

/-- The items, oldest first. -/
def toList (q : Queue α) : List α := q.oldestFirst

/-- The queue with an item at the end. -/
def push (q : Queue α) (x : α) : Queue α := ⟨q.oldestFirst ++ [x]⟩

/-- The oldest item. -/
def peek? (q : Queue α) : Option α := q.oldestFirst.head?

/-- The queue without its oldest item. -/
def pop (q : Queue α) : Queue α := ⟨q.oldestFirst.tail⟩

@[simp] theorem toList_ofList (items : List α) : (ofList items).toList = items := rfl

@[simp] theorem toList_push (q : Queue α) (x : α) : (q.push x).toList = q.toList ++ [x] := rfl

theorem peek?_eq_head? (q : Queue α) : q.peek? = q.toList.head? := rfl

@[simp] theorem toList_pop (q : Queue α) : q.pop.toList = q.toList.tail := rfl

end Queue

end Scim
