import TierIndex.HeatMap.Query
import TierIndex.Proofs.Reachable

set_option autoImplicit false

/-! # Calls and replies

All that a heat map is asked for in the course of a run, changes and questions alike, is a call with
a reply. Whatever handles single calls runs through a list of them (`runCalls`), so a heat map can
be compared, reply by reply, with another one or with something plainer that is put the same calls.

A change that is refused is replied to with its cause, and the map stays as it was.
-/

namespace TierIndex

/-- What a heat map can be asked for. -/
inductive MapCall where
  | change (q : MapRequest)
  /-- The zone of a key. -/
  | find (k : Key)
  /-- The zone of a key, and whether the answer holds for all of it. -/
  | findUniform (k : Key)
  /-- The zones whose tier disagrees with their heat. -/
  | misplaced
  /-- The number of zones. -/
  | live

/-- What a heat map replies. -/
inductive MapReply where
  /-- Whether the access calls for a move, and the keys that it may have changed. -/
  | accessed (r : Except Fault (Bool × Span))
  | count (n : Nat)
  /-- The spans that leave the fast tier. -/
  | frozen (r : Except Fault (List Span))
  | found (z : Option Zone)
  | uniform (r : Option (Zone × Bool))
  | misplaced (l : HeatMap.Misplaced)

/-- Put calls, one after the other, to whatever handles single ones. -/
def runCalls {σ : Type} (handle : σ → MapCall → σ × MapReply) (s : σ) :
    List MapCall → σ × List MapReply
  | [] => (s, [])
  | c :: cs =>
      let (s', r) := handle s c
      let (s'', rs) := runCalls handle s' cs
      (s'', r :: rs)

namespace HeatMap

variable {m : HeatMap}

/-- What the map replies to a call. -/
def reply (m : HeatMap) : MapCall → MapReply
  | .change (.access a b d) => .accessed ((m.access a b d).map fun out => (out.crossed, out.span))
  | .change (.setTier a b fast) => .count (m.setTier a b fast).2
  | .change (.cool factor) => .frozen ((m.cool factor).map Prod.snd)
  | .change (.decay c) => .frozen (.ok (m.decayBy c.left).2)
  | .change .mergeHot => .count m.mergeHot.2
  | .find k => .found (m.find? k)
  | .findUniform k => .uniform (m.findUniform? k)
  | .misplaced => .misplaced m.misplaced
  | .live => .count m.live

/-- The map after a call. -/
def after (m : HeatMap) : MapCall → HeatMap
  | .change q => m.serve q
  | _ => m

/-- Serve one call. -/
def handle (m : HeatMap) (c : MapCall) : HeatMap × MapReply := (m.after c, m.reply c)

/-- Serve calls one after the other. -/
def run (m : HeatMap) (cs : List MapCall) : HeatMap × List MapReply := runCalls handle m cs

theorem run_cons (m : HeatMap) (c : MapCall) (cs : List MapCall) :
    m.run (c :: cs) = (((m.after c).run cs).1, m.reply c :: ((m.after c).run cs).2) := rfl

/-- A call is a request or leaves the map as it is. -/
theorem after_cases (m : HeatMap) (c : MapCall) : (∃ q, m.after c = m.serve q) ∨ m.after c = m := by
  cases c with
  | change q => exact Or.inl ⟨q, rfl⟩
  | find k => exact Or.inr rfl
  | findUniform k => exact Or.inr rfl
  | misplaced => exact Or.inr rfl
  | live => exact Or.inr rfl

theorem Intact.after (h : m.Intact) (c : MapCall) : (m.after c).Intact := by
  rcases after_cases m c with ⟨q, hq⟩ | hsame
  · rw [hq]
    exact h.serve q
  · rw [hsame]
    exact h

theorem after_order (h : m.Intact) (c : MapCall) : (m.after c).order = m.order := by
  rcases after_cases m c with ⟨q, hq⟩ | hsame
  · rw [hq]
    exact congrArg Params.order (serve_params h q)
  · rw [hsame]

end HeatMap

end TierIndex
