import RoverOS.Dstack.Basic

-- The data stack is a stack, as long as it never grows.

namespace RoverOS.Dstack

inductive Call
  | push (data : Word)
  | pop
  | count

-- `none` when `*fetched` is not set.
inductive Answer
  | pushed
  | popped (item : Option Word)
  | counted (n : Nat)

def Call.run (stack : Dstack) : Call → Except Exit (Answer × Dstack)
  | .push data => do
    let stack ← stack.pushStack data
    return (.pushed, stack)
  | .pop       => do
    let (item, stack) ← stack.popStack
    return (.popped item, stack)
  | .count     => do
    let n ← stack.stackCount
    return (.counted n, stack)

def run (stack : Dstack) : List Call → Except Exit (List Answer)
  | []         => .ok []
  | c :: calls => do
    let (answer, stack) ← c.run stack
    let answers ← run stack calls
    return answer :: answers

-- What the call does to a list of items, the last one pushed first.
def Call.on (items : List Word) : Call → Answer × List Word
  | .push data => (.pushed, data :: items)
  | .pop       => (.popped items.head?, items.tail)
  | .count     => (.counted items.length, items)

def answers (items : List Word) : List Call → List Answer
  | []         => []
  | c :: calls => (c.on items).1 :: answers (c.on items).2 calls

-- A push needs room for one more item.
def Call.Room (capacity : Nat) (items : List Word) : Call → Prop
  | .push _ => items.length < capacity
  | .pop    => True
  | .count  => True

def Fits (capacity : Nat) (items : List Word) : List Call → Prop
  | []         => True
  | c :: calls => c.Room capacity items ∧ Fits capacity (c.on items).2 calls

-- Between two calls the lock is free, and the size is the one that the stack was made with.
structure Holds (capacity : Nat) (items : List Word) (stack : Dstack) : Prop where
  items   : stack.items = items
  maxSize : stack.maxSize = 8 * capacity
  lock    : stack.lock = false

variable {capacity : Nat} {items : List Word} {stack : Dstack} {c : Call} {calls : List Call}

theorem Holds.bytesInUse (h : Holds capacity items stack) : stack.bytesInUse = 8 * items.length := by
  rw [Dstack.bytesInUse, h.items]

theorem Holds.run_ok (h : Holds capacity items stack) (hr : c.Room capacity items) :
    ∃ stack', c.run stack = .ok ((c.on items).1, stack') ∧ Holds capacity (c.on items).2 stack' := by
  have hl := getLock_of_free h.lock
  cases c
  case push data =>
    have hb : ¬stack.bytesInUse + 8 > stack.maxSize := by
      have : items.length < capacity := hr
      rw [h.bytesInUse, h.maxSize]
      omega
    refine ⟨stack.store data, ?_, congrArg (data :: ·) h.items, h.maxSize, rfl⟩
    simp only [Call.run, pushStack, hl, if_neg hb]
    rfl
  case pop =>
    cases hi : items
    case nil =>
      refine ⟨stack, ?_, h.items.trans hi, h.maxSize, h.lock⟩
      simp only [Call.run, popStack, hl, h.items.trans hi]
      rfl
    case cons item rest =>
      refine ⟨{ stack with items := rest }, ?_, rfl, h.maxSize, h.lock⟩
      simp only [Call.run, popStack, hl, h.items.trans hi]
      rfl
  case count =>
    refine ⟨stack, ?_, h⟩
    have hn : stack.bytesInUse / 8 = items.length := by
      rw [h.bytesInUse]
      exact Nat.mul_div_cancel_left _ (by decide)
    simp only [Call.run, stackCount, hl, Call.on, ← hn]
    rfl

-- The push takes the lock, and `growStack` waits for it.
theorem Holds.run_full (h : Holds capacity items stack) (hr : ¬c.Room capacity items) :
    c.run stack = .error .halt := by
  cases c
  case push data =>
    have hb : stack.bytesInUse + 8 > stack.maxSize := by
      have : ¬items.length < capacity := hr
      rw [h.bytesInUse, h.maxSize]
      omega
    simp only [Call.run, pushStack, getLock_of_free h.lock, if_pos hb]
    rfl
  case pop   => exact absurd trivial hr
  case count => exact absurd trivial hr

theorem Holds.run_iff (h : Holds capacity items stack) :
    stack.run calls = .ok (answers items calls) ↔ Fits capacity items calls := by
  induction calls generalizing items stack
  case nil => exact ⟨fun _ => trivial, fun _ => rfl⟩
  case cons c calls hi =>
    rw [run, answers, Fits]
    by_cases hr : c.Room capacity items
    case pos =>
      obtain ⟨stack', hc, h'⟩ := h.run_ok hr
      rw [hc, and_iff_right hr, ← hi h']
      simp only [bind, Except.bind]
      cases stack'.run calls
      case error e => simp
      case ok as   => simp [pure, Except.pure]
    case neg =>
      rw [h.run_full hr]
      constructor
      case mp  => intro he; cases he
      case mpr => exact fun hf => absurd hf.left hr

theorem createDstack_holds {initialSize : Nat} (h8 : 8 ∣ initialSize)
    (h : createDstack initialSize = some stack) : Holds (initialSize / 8) [] stack := by
  rw [createDstack] at h
  split at h
  case isTrue  => cases h
  case isFalse =>
    cases h
    exact ⟨rfl, (Nat.mul_div_cancel' h8).symm, rfl⟩

-- All calls return and answer like a stack, exactly when no push finds the stack full.
theorem run_answers_iff {initialSize : Nat} (calls : List Call) (h8 : 8 ∣ initialSize)
    (h : createDstack initialSize = some stack) :
    stack.run calls = .ok (answers [] calls) ↔ Fits (initialSize / 8) [] calls :=
  (createDstack_holds h8 h).run_iff

theorem run_answers_twoItems :
    run { items := [], maxSize := 16 } [.push 1, .push 2, .count, .pop, .pop, .pop] =
      .ok [.pushed, .pushed, .counted 2, .popped (some 2), .popped (some 1), .popped none] := by
  refine (@run_answers_iff _ 16 _ (by decide) rfl).mpr ?_
  exact ⟨Nat.zero_lt_two, Nat.one_lt_two, trivial, trivial, trivial, trivial, trivial⟩

-- The second push onto a stack of 8 bytes never returns.
theorem push_deadlocks : ¬∀ (initialSize : Nat) (stack : Dstack) (calls : List Call), 8 ∣ initialSize →
    createDstack initialSize = some stack → stack.run calls = .ok (answers [] calls) := by
  intro h
  have hf := h 8 _ [.push 1, .push 2] (by decide) rfl
  cases hf

end RoverOS.Dstack
