import TierIndex.Span

set_option autoImplicit false

/-! # Moves and where they go

A move asks the storage engine to bring the data of a span into the fast tier or out of it.
Moves leave the placer through an outlet. A **ledger** keeps all of them. A **queue** hands
them to a receiver, oldest first; it has a fixed capacity, and a move that finds it full, or
finds the receiver gone, is lost.
-/

namespace TierIndex

/-- A request to bring the data of a span into the fast tier or out of it. -/
structure Move where
  span : Span
  toFast : Bool
  deriving DecidableEq

/-- Moves on their way to a receiver, oldest first. -/
structure MoveQueue where
  capacity : Nat
  waiting : List Move
  /-- The receiver is there. -/
  connected : Bool

namespace MoveQueue

/-- An empty queue with a receiver. -/
def ofCapacity (capacity : Nat) : MoveQueue := ⟨capacity, [], true⟩

/-- A further move is accepted. -/
abbrev Accepts (q : MoveQueue) : Prop := q.connected = true ∧ q.waiting.length < q.capacity

/-- Append a move, if it is accepted. -/
def push (q : MoveQueue) (v : Move) : MoveQueue :=
  if q.Accepts then { q with waiting := q.waiting ++ [v] } else q

/-- Hand the oldest moves to the receiver: at most `n` of them, or all. -/
def take (q : MoveQueue) : Option Nat → MoveQueue × List Move
  | none => ({ q with waiting := [] }, q.waiting)
  | some n => ({ q with waiting := q.waiting.drop n }, q.waiting.take n)

/-- The receiver goes, and with it the moves that wait. -/
def disconnect (q : MoveQueue) : MoveQueue := { q with waiting := [], connected := false }

theorem push_waiting (q : MoveQueue) (v : Move) :
    (q.push v).waiting = if q.Accepts then q.waiting ++ [v] else q.waiting := by
  unfold push; split <;> rfl

theorem take_append (q : MoveQueue) (n : Option Nat) :
    (q.take n).2 ++ (q.take n).1.waiting = q.waiting := by
  cases n <;> simp [take]

end MoveQueue

/-- Where moves go. -/
inductive Outlet where
  /-- A record of all moves, oldest first. -/
  | ledger (moves : List Move)
  /-- A queue with a receiver. -/
  | queue (q : MoveQueue)

namespace Outlet

/-- Send one move. -/
def send : Outlet → Move → Outlet
  | .ledger moves, v => .ledger (moves ++ [v])
  | .queue q, v => .queue (q.push v)

/-- Send moves, one after the other. -/
def sendAll (out : Outlet) (vs : List Move) : Outlet := vs.foldl send out

/-- The queue, if there is one with a receiver. -/
def receiver? : Outlet → Option MoveQueue
  | .ledger _ => none
  | .queue q => if q.connected then some q else none

/-- All recorded moves. A queue records none. -/
def recorded : Outlet → List Move
  | .ledger moves => moves
  | .queue _ => []

/-- Hand the oldest waiting moves to the receiver, if there is one. -/
def take (out : Outlet) (n : Option Nat) : Outlet × Option (List Move) :=
  match out.receiver? with
  | some q => let (q', vs) := q.take n; (.queue q', some vs)
  | none => (out, none)

/-- The receiver goes. -/
def disconnect : Outlet → Outlet
  | .ledger moves => .ledger moves
  | .queue q => .queue q.disconnect

theorem sendAll_append (out : Outlet) (vs ws : List Move) :
    out.sendAll (vs ++ ws) = (out.sendAll vs).sendAll ws := by
  simp [sendAll]

theorem recorded_sendAll_ledger (moves vs : List Move) :
    ((Outlet.ledger moves).sendAll vs) = .ledger (moves ++ vs) := by
  induction vs generalizing moves with
  | nil => simp [sendAll]
  | cons v vs ih => simpa [sendAll, send] using ih (moves ++ [v])

end Outlet

end TierIndex
