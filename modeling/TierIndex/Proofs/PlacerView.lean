import TierIndex.Proofs.Coherence
import TierIndex.Proofs.MapView

set_option autoImplicit false

/-! # A placer and its view

The view of a placer has the views of its map, of the span that its memo remembers and of the moves
that it has sent. What the placer does to its memo and its outlet only compares spans and passes
them on, so each operation on the view of a placer, with the views of the keys, gives the view of
what it gives on the placer, with the same answer. A placer that cannot be made under one order
cannot be made under the other, for the same reason.
-/

namespace TierIndex

/-! ## Moves, memos and placers -/

/-- The move with the view of its span. -/
def Move.view (o : KeyOrder) (v : Move) : Move := { v with span := v.span.view o }

/-- The queue with the views of the moves that wait. -/
def MoveQueue.view (o : KeyOrder) (q : MoveQueue) : MoveQueue :=
  { q with waiting := q.waiting.map (Move.view o) }

/-- The outlet with the views of its moves. -/
def Outlet.view (o : KeyOrder) : Outlet → Outlet
  | .ledger moves => .ledger (moves.map (Move.view o))
  | .queue q => .queue (q.view o)

/-- The memo with the view of the remembered span. -/
def Memo.view (o : KeyOrder) (m : Memo) : Memo :=
  { m with answer := m.answer.map fun a => (a.1.view o, a.2) }

/-- The placer with the views of its map, its memo and its moves. -/
def Placer.view (o : KeyOrder) (p : Placer) : Placer :=
  { p with map := p.map.view, memo := p.memo.view o, outlet := p.outlet.view o }

theorem MoveQueue.push_view (o : KeyOrder) (q : MoveQueue) (v : Move) :
    (q.view o).push (v.view o) = (q.push v).view o := by
  have haccepts : (q.view o).Accepts ↔ q.Accepts := by
    unfold MoveQueue.Accepts MoveQueue.view
    rw [List.length_map]
  unfold MoveQueue.push
  by_cases h : q.Accepts
  · rw [if_pos (haccepts.mpr h), if_pos h]
    simp [MoveQueue.view]
  · rw [if_neg (mt haccepts.mp h), if_neg h]

namespace Outlet

variable (o : KeyOrder) (out : Outlet)

theorem send_view (v : Move) : (out.view o).send (v.view o) = (out.send v).view o := by
  cases out with
  | ledger moves => simp [Outlet.view, send]
  | queue q => exact congrArg Outlet.queue (q.push_view o v)

theorem sendAll_view (vs : List Move) :
    (out.view o).sendAll (vs.map (Move.view o)) = (out.sendAll vs).view o := by
  induction vs generalizing out with
  | nil => rfl
  | cons v vs ih =>
      show ((out.view o).send (v.view o)).sendAll (vs.map (Move.view o)) = _
      rw [send_view, ih]
      rfl

theorem take_view (n : Option Nat) :
    (out.view o).take n = ((out.take n).1.view o, (out.take n).2.map (List.map (Move.view o))) := by
  cases out with
  | ledger moves => rfl
  | queue q =>
      unfold Outlet.take receiver?
      cases hconn : q.connected with
      | false => simp [Outlet.view, MoveQueue.view, hconn]
      | true =>
          cases n with
          | none => simp [Outlet.view, MoveQueue.view, MoveQueue.take, hconn]
          | some n =>
              simp [Outlet.view, MoveQueue.view, MoveQueue.take, hconn, List.map_take,
                List.map_drop]

theorem disconnect_view : (out.view o).disconnect = out.disconnect.view o := by
  cases out <;> rfl

end Outlet

namespace Memo

variable (o : KeyOrder) (m : Memo)

theorem lookup_view (k : Key) : (m.view o).lookup .bytewise (o.view k) = m.lookup o k := by
  obtain ⟨answer, generation⟩ := m
  cases answer <;> rfl

theorem refresh_view (generation : UInt64) (s : Span) (b : Bool) :
    (m.view o).refresh generation (s.view o) b =
      ((m.refresh generation s b).1.view o, (m.refresh generation s b).2) := by
  unfold refresh
  by_cases h : m.generation = generation
  · have h' : (m.view o).generation = generation := h
    rw [if_pos h, if_pos h']
    rfl
  · have h' : ¬ (m.view o).generation = generation := h
    rw [if_neg h, if_neg h']

theorem dropMeeting_view (s : Span) :
    (m.view o).dropMeeting .bytewise (s.view o) = (m.dropMeeting o s).view o := by
  obtain ⟨answer, generation⟩ := m
  cases answer with
  | none => rfl
  | some a =>
      have hmeets : (a.1.view o).Meets .bytewise (s.view o) ↔ a.1.Meets o s := Iff.rfl
      unfold dropMeeting Memo.view
      by_cases h : a.1.Meets o s
      · simp [Option.filter, hmeets.mpr h, h]
      · simp [Option.filter, mt hmeets.mp h, h]

end Memo

/-! ## What a placer does

Each operation is opened once, its parts are replaced by the views of its parts, and what is left
of it is the same on both sides. -/

/-- The same settings can be used under every order, and fail alike. -/
theorem Settings.params_bytewise (s : Settings) (o : KeyOrder) :
    s.params .bytewise = (s.params o).map fun p => { p with order := .bytewise } := by
  unfold Settings.params
  cases s.fault? with
  | some cause => rfl
  | none =>
      dsimp only
      unfold Params.make
      split
      · rfl
      · split
        · rfl
        · split <;> rfl

namespace Placer

variable {p : Placer} {o : KeyOrder}

theorem new_view (o : KeyOrder) (s : Settings) (out : Outlet) :
    new .bytewise s (out.view o) = (new o s out).map (Placer.view o) := by
  unfold new
  rw [Settings.params_bytewise s o]
  cases hp : s.params o with
  | error e => rfl
  | ok p =>
      have horder : p.order = o := (Settings.params_eq_ok hp).1
      have hempty := HeatMap.empty_view p
      subst horder
      exact congrArg
        (fun m => Except.ok (Placer.mk s m .empty (.start s.period) (out.view p.order))) hempty.symm

theorem send_view (vs : List Move) :
    (p.view o).send (vs.map (Move.view o)) = (p.send vs).view o :=
  congrArg (fun out => { p.view o with outlet := out }) (p.outlet.sendAll_view o vs)

theorem mergeHot_view : (p.view o).mergeHot = (p.mergeHot.1.view o, p.mergeHot.2) :=
  congrArg (fun r => ({ p.view o with map := r.1 }, r.2)) (HeatMap.mergeHot_view p.map)

section

variable (ho : p.order = o)

include ho

theorem belongsFast_view (k : Key) :
    (p.view o).belongsFast (o.view k) = ((p.belongsFast k).1.view o, (p.belongsFast k).2) := by
  have hlookup : (p.view o).memo.lookup (p.view o).order (o.view k) = p.memo.lookup p.order k := by
    rw [ho]
    exact p.memo.lookup_view o k
  have hfind : (p.view o).map.findUniform? (o.view k) =
      (p.map.findUniform? k).map fun r => (r.1.view o, r.2) := by
    subst ho
    exact HeatMap.findUniform?_view p.map k
  unfold belongsFast
  rw [hlookup, hfind]
  cases p.memo.lookup p.order k with
  | some b => rfl
  | none =>
      cases p.map.findUniform? k with
      | none => rfl
      | some r =>
          obtain ⟨z, uniform⟩ := r
          cases uniform with
          | false => rfl
          | true =>
              have hrefresh := p.memo.refresh_view o p.memo.generation z.span
                (decide (p.map.params.Hot z))
              exact congrArg (fun memo => ({ p.view o with memo }, decide (p.map.params.Hot z)))
                (congrArg Prod.fst hrefresh)

theorem record_view (a b : Key) (d : Int) :
    (p.view o).record (o.view a) (o.view b) d =
      ((p.record a b d).1.view o, (p.record a b d).2) := by
  have haccess : (p.view o).map.access (o.view a) (o.view b) d =
      (p.map.access a b d).map (Outcome.view o) := by
    subst ho
    exact HeatMap.access_view p.map d a b
  unfold record
  rw [haccess]
  cases p.map.access a b d with
  | error e => rfl
  | ok out =>
      obtain ⟨m, crossed, s⟩ := out
      have hmemo : (p.view o).memo.dropMeeting (p.view o).order (s.view o) =
          (p.memo.dropMeeting p.order s).view o := by
        rw [ho]
        exact p.memo.dropMeeting_view o s
      have hspan : Span.between (p.view o).order (o.view a) (o.view b) =
          (Span.between p.order a b).view o := by
        rw [ho]
        exact Span.between_view o a b
      dsimp only [Except.map, Outcome.view]
      rw [hmemo, hspan, ← send_view]
      cases crossed <;> rfl

theorem cool_view (factor : Double) :
    (p.view o).cool factor = ((p.cool factor).1.view o, (p.cool factor).2) := by
  have hcool : (p.view o).map.cool factor =
      (p.map.cool factor).map fun r => (r.1.view, r.2.map (Span.view o)) := by
    subst ho
    exact HeatMap.cool_view p.map factor
  unfold cool
  rw [hcool]
  cases p.map.cool factor with
  | error e => rfl
  | ok r =>
      obtain ⟨m, frozen⟩ := r
      dsimp only [Except.map]
      rw [← send_view, List.map_map, List.map_map, List.length_map]
      rfl

theorem tick_view : (p.view o).tick = (p.tick.1.view o, p.tick.2) := by
  have hclock : (p.view o).clock.tick = p.clock.tick := rfl
  unfold tick
  rw [hclock]
  obtain ⟨clock, rang⟩ := p.clock.tick
  cases rang with
  | false => rfl
  | true =>
      have hcool := cool_view (p := { p with clock }) ho p.settings.factor
      exact congrArg (fun r => (r.1, r.2.map fun _ => true)) hcool

theorem setTier_view (a b : Key) (fast : Bool) :
    (p.view o).setTier (o.view a) (o.view b) fast =
      ((p.setTier a b fast).1.view o, (p.setTier a b fast).2) := by
  subst ho
  exact congrArg (fun r => ({ p.view p.order with map := r.1 }, r.2))
    (HeatMap.setTier_view p.map a b fast)

theorem flush_view : (p.view o).flush = (p.flush.1.view o, p.flush.2) := by
  have hmisplaced : (p.view o).map.misplaced = p.map.misplaced.view o := by
    subst ho
    exact HeatMap.misplaced_view p.map
  have hmoves (fast : Bool) (l : List Span) :
      (l.map (Span.view o)).map (⟨·, fast⟩) =
        (l.map (⟨·, fast⟩ : Span → Move)).map (Move.view o) := by
    rw [List.map_map, List.map_map]
    rfl
  unfold flush
  rw [hmisplaced]
  dsimp only [HeatMap.Misplaced.view]
  rw [hmoves, hmoves, ← List.map_append, send_view, List.length_map, List.length_map]

end

end Placer

end TierIndex
