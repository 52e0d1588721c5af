/-!
# A queue

What a queue is for, as one atomic operation after the other: `enqueue` puts a value at the end, `dequeue` takes the first
one, and says so if there is none. `none` is a step of whoever implements it that the queue does not see.
-/

namespace Fifo

variable {T : Type}

/-- An operation with its value or its result. -/
inductive Op (T : Type)
  | enqueue (v : T)
  | dequeue (r : Option T)
deriving DecidableEq, Repr

inductive Step : List T → Option (Op T) → List T → Prop
  | pass {q : List T} : Step q none q
  | enqueue {q : List T} {v : T} : Step q (some (.enqueue v)) (q ++ [v])
  | dequeue {q : List T} {v : T} : Step (v :: q) (some (.dequeue (some v))) q
  | empty : Step [] (some (.dequeue none)) []

/-- The value that an operation puts into the queue. -/
@[simp] def Op.value : Op T → Option T
  | .enqueue v => some v
  | .dequeue _ => none

/-- The result of an operation that has one. -/
@[simp] def Op.result : Op T → Option (Option T)
  | .enqueue _ => none
  | .dequeue r => some r

end Fifo
