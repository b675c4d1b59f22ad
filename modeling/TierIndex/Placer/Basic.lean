import TierIndex.HeatMap.Access
import TierIndex.HeatMap.Query
import TierIndex.HeatMap.Upkeep
import TierIndex.Placer.Clock
import TierIndex.Placer.Memo
import TierIndex.Placer.Outlet
import TierIndex.Settings
import TierIndex.Store.Checkpoint

set_option autoImplicit false

/-! # The placer

A placer decides for a storage engine with a fast tier which keys belong there. It records
the accesses in a heat map, answers for a key whether its data belongs in the fast tier, and
sends out moves when a zone crosses a threshold. Answers that hold for a whole zone are
remembered in a memo, which every change of the map has to respect.

Operations that can fail return the failure beside the new state, because a failed operation
may still have done part of its work.
-/

namespace TierIndex

/-- The heat map with everything that belongs to it in use. -/
structure Placer where
  settings : Settings
  map : HeatMap
  memo : Memo
  clock : Clock
  outlet : Outlet

namespace Placer

/-- A placer with an empty map. -/
def new (o : KeyOrder) (s : Settings) (out : Outlet) : Except Fault Placer :=
  (s.params o).map fun p => ⟨s, .empty p, .empty, .start s.period, out⟩

/-- A placer with an empty map whose moves go into a queue. -/
def withQueue (o : KeyOrder) (s : Settings) : Except Fault Placer :=
  new o s (.queue (.ofCapacity s.queue))

/-- The order of the keys. -/
abbrev order (p : Placer) : KeyOrder := p.map.params.order

/-- Send moves, one after the other. -/
def send (p : Placer) (vs : List Move) : Placer := { p with outlet := p.outlet.sendAll vs }

/-! ## Answers -/

/-- Whether the data of the key belongs in the fast tier. The memo answers if it can; else
the map does, and an answer that holds for a whole zone is remembered. -/
def belongsFast (p : Placer) (k : Key) : Placer × Bool :=
  match p.memo.lookup p.order k with
  | some b => (p, b)
  | none =>
      match p.map.findUniform? k with
      | none => (p, false)
      | some (z, uniform) =>
          let hot := decide (p.map.params.Hot z)
          -- an answer for a part of the zone only must not be remembered for all of it
          if uniform then
            ({ p with memo := (p.memo.refresh p.memo.generation z.span hot).1 }, hot)
          else (p, hot)

/-! ## Changes of heat -/

/-- Record an access of heat `d` to the keys between `a` and `b`. If it calls for a move,
the accessed span is moved, into the fast tier by a rise and out of it by a fall. -/
def record (p : Placer) (a b : Key) (d : Int) : Placer × Except Fault Unit :=
  match p.map.access a b d with
  | .error e => (p, .error e)
  | .ok r =>
      let changed := { p with map := r.map, memo := p.memo.dropMeeting p.order r.span }
      let moves := if r.crossed then [⟨Span.between p.order a b, decide (0 < d)⟩] else []
      (changed.send moves, .ok ())

/-- Cool the map, send the frozen spans out of the fast tier, and count them. -/
def cool (p : Placer) (factor : Double) : Placer × Except Fault Nat :=
  match p.map.cool factor with
  | .error e => (p, .error e)
  | .ok (map, frozen) =>
      let cooled := { p with map, memo := p.memo.clear }
      (cooled.send (frozen.map fun s => ⟨s, false⟩), .ok frozen.length)

/-- One tick of the clock. When it rings the map is cooled by the factor of the settings. -/
def tick (p : Placer) : Placer × Except Fault Bool :=
  let (clock, rang) := p.clock.tick
  let p := { p with clock }
  if rang then
    let (p, r) := p.cool p.settings.factor
    (p, r.map fun _ => true)
  else (p, .ok false)

/-- Merge all hot zones that overlap, and count the absorbed ones. -/
def mergeHot (p : Placer) : Placer × Nat :=
  let (map, n) := p.map.mergeHot
  ({ p with map }, n)

/-! ## Moves -/

/-- Note that the data between `a` and `b` now lies in a tier, and count the zones this
concerns. -/
def setTier (p : Placer) (a b : Key) (fast : Bool) : Placer × Nat :=
  let (map, n) := p.map.setTier a b fast
  ({ p with map }, n)

/-- Send a move for every misplaced zone, the ways out first, and count them. -/
def flush (p : Placer) : Placer × Nat :=
  let l := p.map.misplaced
  (p.send (l.demote.map (⟨·, false⟩) ++ l.promote.map (⟨·, true⟩)),
    l.demote.length + l.promote.length)

/-! ## Checkpoints -/

/-- Save the map, creating the directory if needed, and count the zones. -/
def save (p : Placer) (f : Folder) : Folder × Except Fault Nat :=
  p.map.save f.create

/-- Replace the map by the saved one, and count its zones. -/
def load (p : Placer) (f : Folder) : Placer × Except Fault Nat :=
  match p.map.load f with
  | .error e => (p, .error e)
  | .ok (map, n) => ({ p with map, memo := p.memo.clear }, .ok n)

/-- A placer with the saved map, or with an empty one if nothing has been saved. -/
def restore (o : KeyOrder) (s : Settings) (out : Outlet) (f : Folder) : Except Fault Placer :=
  match new o s out with
  | .error e => .error e
  | .ok p =>
      match f.item? Checkpoint.fileName with
      | none => .ok p
      | some _ =>
          match p.load f with
          | (_, .error e) => .error e
          | (p', .ok _) => .ok p'

end Placer

end TierIndex
