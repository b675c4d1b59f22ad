import TierIndex.Span

set_option autoImplicit false

/-! # The memo: one remembered answer

A placer remembers its last answer that holds for a whole span of keys. Two things keep a
remembered answer from going stale: whoever changes the map **drops** the answer where the
change may touch it, and every drop, whether it meets the answer or not, starts a new
**generation**, so that an answer computed before the drop can no longer be remembered after
it.
-/

namespace TierIndex

/-- The remembered answer, if any, and the number of the current generation. -/
structure Memo where
  answer : Option (Span × Bool)
  generation : UInt64

namespace Memo

/-- Nothing is remembered. -/
def empty : Memo := ⟨none, 0⟩

/-- The remembered answer, if its span holds the key. -/
def lookup (m : Memo) (o : KeyOrder) (k : Key) : Option Bool :=
  match m.answer with
  | some (s, b) => if s.Holds o k then some b else none
  | none => none

/-- Remember an answer computed in the given generation. Refused if that generation is over;
the second component tells whether the answer was taken. -/
def refresh (m : Memo) (generation : UInt64) (s : Span) (b : Bool) : Memo × Bool :=
  if m.generation = generation then ({ m with answer := some (s, b) }, true) else (m, false)

/-- Start a new generation, and drop the answer if its span meets the given one. -/
def dropMeeting (m : Memo) (o : KeyOrder) (t : Span) : Memo :=
  ⟨m.answer.filter fun a => ¬ a.1.Meets o t, m.generation + 1⟩

/-- Start a new generation, and drop the answer. -/
def clear (m : Memo) : Memo := ⟨none, m.generation + 1⟩

/-- Some answer is remembered. -/
def isValid (m : Memo) : Bool := m.answer.isSome

end Memo

end TierIndex
