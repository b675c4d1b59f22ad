import TierIndex.Placer.Basic

set_option autoImplicit false

/-! # Sessions: a placer at work

A session is a placer together with its data directory. It takes one request after the
other and gives one reply to each. Requests come from three sides: the storage engine asks
and reports, the receiver takes moves from the queue or leaves, and the outside world may
rearrange the directory at any time.
-/

namespace TierIndex

/-- A placer with its data directory. -/
structure Session where
  placer : Placer
  folder : Folder

/-- What a session can be asked for. -/
inductive Request where
  /-- An access of heat `d` to the keys between `a` and `b`. -/
  | record (a b : Key) (d : Int)
  /-- The data between `a` and `b` now lies in a tier. -/
  | setTier (a b : Key) (fast : Bool)
  /-- One tick of the cooling clock. -/
  | tick
  /-- Cooling by a factor, outside the clock. -/
  | cool (factor : Double)
  /-- Merging of all hot zones that overlap. -/
  | mergeHot
  /-- Moves for all misplaced zones. -/
  | flush
  /-- Whether a key belongs in the fast tier. -/
  | belongsFast (k : Key)
  /-- What the memo remembers for a key. -/
  | lookup (k : Key)
  /-- Saving the map. -/
  | save
  /-- Loading the map. -/
  | load
  /-- A new start from the saved map, with a fresh ledger for the moves. -/
  | restart
  /-- The receiver takes at most `n` moves, or all. -/
  | take (n : Option Nat)
  /-- The receiver goes. -/
  | disconnect
  /-- Something outside rearranges the directory. -/
  | arrange (f : Folder)

/-- What a session replies. -/
inductive Reply where
  | done
  | count (n : Nat)
  | flag (b : Bool)
  | remembered (b : Option Bool)
  | moves (vs : Option (List Move))
  | failed (e : Fault)

namespace Reply

/-- A count, or a failure. -/
def ofCount : Except Fault Nat → Reply
  | .ok n => .count n
  | .error e => .failed e

/-- A flag, or a failure. -/
def ofFlag : Except Fault Bool → Reply
  | .ok b => .flag b
  | .error e => .failed e

/-- Success without an answer, or a failure. -/
def ofUnit : Except Fault Unit → Reply
  | .ok () => .done
  | .error e => .failed e

end Reply

namespace Session

/-- The session after a step of its placer. -/
def advance {α : Type} (s : Session) (step : Placer × α) (reply : α → Reply) : Session × Reply :=
  ({ s with placer := step.1 }, reply step.2)

/-- Serve one request. -/
def handle (s : Session) : Request → Session × Reply
  | .record a b d => s.advance (s.placer.record a b d) .ofUnit
  | .setTier a b fast => s.advance (s.placer.setTier a b fast) .count
  | .tick => s.advance s.placer.tick .ofFlag
  | .cool factor => s.advance (s.placer.cool factor) .ofCount
  | .mergeHot => s.advance s.placer.mergeHot .count
  | .flush => s.advance s.placer.flush .count
  | .belongsFast k => s.advance (s.placer.belongsFast k) .flag
  | .lookup k => (s, .remembered (s.placer.memo.lookup s.placer.order k))
  | .save =>
      let (folder, r) := s.placer.save s.folder
      ({ s with folder }, .ofCount r)
  | .load => s.advance (s.placer.load s.folder) .ofCount
  | .restart =>
      match Placer.restore s.placer.order s.placer.settings (.ledger []) s.folder with
      | .error e => (s, .failed e)
      | .ok placer => ({ s with placer }, .done)
  | .take n =>
      let (outlet, vs) := s.placer.outlet.take n
      ({ s with placer := { s.placer with outlet } }, .moves vs)
  | .disconnect =>
      ({ s with placer := { s.placer with outlet := s.placer.outlet.disconnect } }, .done)
  | .arrange folder => ({ s with folder }, .done)

/-- Serve requests one after the other. -/
def run (s : Session) : List Request → Session × List Reply
  | [] => (s, [])
  | q :: qs =>
      let (s', r) := s.handle q
      let (s'', rs) := s'.run qs
      (s'', r :: rs)

end Session

end TierIndex
