import RoverOS.Basic

-- The kernel's data stack. The bytes between `base` and `top` are kept as the list of the items
-- they hold, the top first; `krealloc` moves them as they are.

namespace RoverOS

structure Dstack where
  items   : List Word
  maxSize : Nat
  lock    : Bool := false

namespace Dstack

-- `kmalloc` gives memory for every size but 0.
def createDstack (initialSize : Nat) : Option Dstack :=
  if initialSize = 0 then none else some { items := [], maxSize := initialSize }

def bytesInUse (stack : Dstack) : Nat :=
  8 * stack.items.length

def growStack (stack : Dstack) (sz : Nat) : Except Exit Dstack := do
  getLock stack.lock
  return { stack with maxSize := stack.maxSize + sz }

-- The store at `top`, after which the lock is released.
def store (stack : Dstack) (data : Word) : Dstack :=
  { stack with items := data :: stack.items, lock := false }

-- A push onto a full stack calls `growStack` with the stack's lock still held.
def pushStack (stack : Dstack) (data : Word) : Except Exit Dstack := do
  getLock stack.lock
  if stack.bytesInUse + 8 > stack.maxSize then
    let stack ← growStack { stack with lock := true } (8 * 10)
    return { stack with maxSize := stack.maxSize + 8 * 10 }.store data
  else
    return stack.store data

-- The item is there exactly when `*fetched` is set.
def popStack (stack : Dstack) : Except Exit (Option Word × Dstack) := do
  getLock stack.lock
  match stack.items with
  | []            => return (none, stack)
  | item :: items => return (some item, { stack with items })

def stackCount (stack : Dstack) : Except Exit Nat := do
  getLock stack.lock
  return stack.bytesInUse / 8

variable {stack stack' : Dstack}

theorem pushStack_items {data : Word} (h : stack.pushStack data = .ok stack') :
    stack'.items = data :: stack.items := by
  simp only [pushStack, Except.bind_ok_iff] at h
  obtain ⟨_, _, h⟩ := h
  split at h
  case isTrue  => simp [growStack, getLock, bind, Except.bind] at h
  case isFalse => cases h; rfl

theorem popStack_some {data : Word} (h : stack.popStack = .ok (some data, stack')) :
    stack.items = data :: stack'.items := by
  simp only [popStack, Except.bind_ok_iff] at h
  obtain ⟨_, _, h⟩ := h
  split at h <;> cases h
  case h_2 h => exact h

theorem popStack_none (h : stack.popStack = .ok (none, stack')) : stack.items = [] := by
  simp only [popStack, Except.bind_ok_iff] at h
  obtain ⟨_, _, h⟩ := h
  split at h <;> cases h
  assumption

theorem popStack_nil (hl : stack.lock = false) (h : stack.items = []) :
    stack.popStack = .ok (none, stack) := by
  simp only [popStack, getLock, hl, h, bind, Except.bind]
  rfl

theorem popStack_cons {item : Word} {items : List Word} (hl : stack.lock = false) (h : stack.items = item :: items) :
    stack.popStack = .ok (some item, { stack with items }) := by
  simp only [popStack, getLock, hl, h, bind, Except.bind]
  rfl

theorem stackCount_eq {n : Nat} (h : stack.stackCount = .ok n) : n = stack.items.length := by
  simp only [stackCount, Except.bind_ok_iff] at h
  obtain ⟨_, _, h⟩ := h
  cases h
  simp [bytesInUse]

end Dstack
end RoverOS
