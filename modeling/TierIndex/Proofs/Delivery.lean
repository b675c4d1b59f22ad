import Mathlib.Data.List.Induction
import TierIndex.Proofs.Coherence

set_option autoImplicit false

/-! # What becomes of the moves

A placer never looks at its outlet. Whatever it is asked for, it sends the same moves and does
everything else alike, whether a ledger records them, a queue keeps them or a queue loses them
(`Session.handle_withOutlet`). So two placers that start alike stay alike, except for their outlets.

What becomes of the moves in a queue is told by its **traffic**: all that has been sent, with
whether it has been kept, all that the receiver has taken, and whether it has left. What waits are
the kept moves that have not been taken. The queue is at any time what its traffic says
(`Session.run_tells`), and the traffic is lawful: a move is kept exactly if there is a receiver and
room for it, and the receiver takes the oldest moves first.
-/

namespace TierIndex

/-! ## Wherever moves go -/

namespace Placer

/-- The placer with another outlet. -/
def withOutlet (p : Placer) (outlet : Outlet) : Placer := { p with outlet }

/-- The step sends the same moves to every outlet, and nothing else about it depends on the
outlet. -/
def Indifferent {α : Type} (step : Placer → Placer × α) (p : Placer) : Prop :=
  ∃ (moves : List Move) (p' : Placer) (r : α),
    ∀ outlet, step (p.withOutlet outlet) = (p'.withOutlet (outlet.sendAll moves), r)

theorem record_indifferent (p : Placer) (a b : Key) (d : Int) :
    Indifferent (fun p => p.record a b d) p := by
  cases hout : p.map.access a b d with
  | error e =>
      refine ⟨[], p, .error e, fun outlet => ?_⟩
      simp only [record, withOutlet, hout]
      rfl
  | ok out =>
      let moves : List Move :=
        if out.crossed then [⟨Span.between p.order a b, decide (0 < d)⟩] else []
      refine ⟨moves, { p with map := out.map, memo := p.memo.dropMeeting p.order out.span },
        .ok (), fun outlet => ?_⟩
      simp only [record, withOutlet, hout]
      rfl

theorem cool_indifferent (p : Placer) (factor : Double) :
    Indifferent (fun p => p.cool factor) p := by
  cases hcool : p.map.cool factor with
  | error e =>
      refine ⟨[], p, .error e, fun outlet => ?_⟩
      simp only [cool, withOutlet, hcool]
      rfl
  | ok r =>
      refine ⟨r.2.map (⟨·, false⟩), { p with map := r.1, memo := p.memo.clear },
        .ok r.2.length, fun outlet => ?_⟩
      simp only [cool, withOutlet, hcool]
      rfl

theorem tick_indifferent (p : Placer) : Indifferent tick p := by
  cases htick : p.clock.tick with
  | mk clock rang =>
  cases rang with
  | false =>
      refine ⟨[], { p with clock }, .ok false, fun outlet => ?_⟩
      simp only [tick, withOutlet, htick]
      rfl
  | true =>
      obtain ⟨moves, p', r, hcool⟩ := cool_indifferent { p with clock } p.settings.factor
      refine ⟨moves, p', r.map fun _ => true, fun outlet => ?_⟩
      have hrung := hcool outlet
      simp only [withOutlet] at hrung
      simp only [tick, withOutlet, htick, if_true, hrung]

theorem belongsFast_indifferent (p : Placer) (k : Key) :
    Indifferent (fun p => p.belongsFast k) p := by
  refine ⟨[], (p.belongsFast k).1, (p.belongsFast k).2, fun outlet => ?_⟩
  simp only [belongsFast, withOutlet]
  cases p.memo.lookup p.order k with
  | some b => rfl
  | none =>
      cases p.map.findUniform? k with
      | none => rfl
      | some r =>
          obtain ⟨z, uniform⟩ := r
          cases uniform <;> rfl

theorem load_indifferent (p : Placer) (f : Folder) : Indifferent (fun p => p.load f) p := by
  refine ⟨[], (p.load f).1, (p.load f).2, fun outlet => ?_⟩
  simp only [load, withOutlet]
  cases p.map.load f with
  | error e => rfl
  | ok r => rfl

theorem flush_indifferent (p : Placer) : Indifferent flush p :=
  ⟨p.map.misplaced.demote.map (⟨·, false⟩) ++ p.map.misplaced.promote.map (⟨·, true⟩), p,
    p.flush.2, fun _ => rfl⟩

theorem setTier_indifferent (p : Placer) (a b : Key) (fast : Bool) :
    Indifferent (fun p => p.setTier a b fast) p :=
  ⟨[], (p.setTier a b fast).1, (p.setTier a b fast).2, fun _ => rfl⟩

theorem mergeHot_indifferent (p : Placer) : Indifferent mergeHot p :=
  ⟨[], p.mergeHot.1, p.mergeHot.2, fun _ => rfl⟩

end Placer

/-- The request is neither a new start nor made by the receiver of the moves. -/
def Request.toPlacer : Request → Bool
  | .restart | .take _ | .disconnect => false
  | _ => true

/-- The reply without the moves that were taken. -/
def Reply.withoutMoves : Reply → Reply
  | .moves _ => .moves none
  | r => r

namespace Session

/-- The session with another outlet. -/
def withOutlet (σ : Session) (outlet : Outlet) : Session :=
  { σ with placer := σ.placer.withOutlet outlet }

/-- The moves that a request sends: those that an empty ledger would record. -/
def sends (σ : Session) (q : Request) : List Move :=
  ((σ.withOutlet (.ledger [])).handle q).1.placer.outlet.recorded

section

variable {σ : Session} {q : Request} {outlet : Outlet}

theorem advance_indifferent {α : Type} {step : Placer → Placer × α} (reply : α → Reply)
    (h : Placer.Indifferent step σ.placer) :
    ∃ (moves : List Move) (σ' : Session) (r : Reply), ∀ outlet,
      (σ.withOutlet outlet).advance (step (σ.placer.withOutlet outlet)) reply =
        (σ'.withOutlet (outlet.sendAll moves), r) := by
  obtain ⟨moves, p, r, hstep⟩ := h
  refine ⟨moves, { σ with placer := p }, reply r, fun outlet => ?_⟩
  rw [hstep]
  rfl

theorem handle_indifferent (hq : q.toPlacer = true) :
    ∃ (moves : List Move) (σ' : Session) (r : Reply), ∀ outlet,
      (σ.withOutlet outlet).handle q = (σ'.withOutlet (outlet.sendAll moves), r) := by
  cases q with
  | record a b d => exact advance_indifferent .ofUnit (σ.placer.record_indifferent a b d)
  | setTier a b fast => exact advance_indifferent .count (σ.placer.setTier_indifferent a b fast)
  | tick => exact advance_indifferent .ofFlag σ.placer.tick_indifferent
  | cool factor => exact advance_indifferent .ofCount (σ.placer.cool_indifferent factor)
  | mergeHot => exact advance_indifferent .count σ.placer.mergeHot_indifferent
  | flush => exact advance_indifferent .count σ.placer.flush_indifferent
  | belongsFast k => exact advance_indifferent .flag (σ.placer.belongsFast_indifferent k)
  | lookup k => exact ⟨[], σ, (σ.handle (.lookup k)).2, fun _ => rfl⟩
  | save => exact ⟨[], (σ.handle .save).1, (σ.handle .save).2, fun _ => rfl⟩
  | load => exact advance_indifferent .ofCount (σ.placer.load_indifferent σ.folder)
  | arrange f => exact ⟨[], (σ.handle (.arrange f)).1, .done, fun _ => rfl⟩
  | restart => cases hq
  | take n => cases hq
  | disconnect => cases hq

/-- **A request is served alike wherever moves go.** -/
theorem handle_withOutlet (hq : q.toPlacer = true) (outlet : Outlet) :
    (σ.withOutlet outlet).handle q =
      ((σ.handle q).1.withOutlet (outlet.sendAll (σ.sends q)), (σ.handle q).2) := by
  obtain ⟨moves, σ', r, hall⟩ := handle_indifferent (σ := σ) hq
  have hself : σ.handle q = (σ'.withOutlet (σ.placer.outlet.sendAll moves), r) :=
    hall σ.placer.outlet
  have hsends : σ.sends q = moves := by
    unfold sends
    rw [hall, Outlet.recorded_sendAll_ledger]
    rfl
  rw [hall, hself, hsends]
  rfl

/-- Every request leaves two sessions that differ in their outlets only as such, and makes the same
reply but for the moves that are taken. -/
theorem handle_apart (σ : Session) (outlet : Outlet) (q : Request) :
    ∃ outlet', ((σ.withOutlet outlet).handle q).1 = (σ.handle q).1.withOutlet outlet' ∧
      ((σ.withOutlet outlet).handle q).2.withoutMoves = (σ.handle q).2.withoutMoves := by
  cases hq : q.toPlacer with
  | true =>
      rw [handle_withOutlet hq]
      exact ⟨_, rfl, rfl⟩
  | false =>
      cases q with
      | take n => exact ⟨_, rfl, rfl⟩
      | disconnect => exact ⟨_, rfl, rfl⟩
      | restart =>
          unfold handle
          dsimp only [withOutlet, Placer.withOutlet]
          cases Placer.restore σ.placer.order σ.placer.settings (.ledger []) σ.folder with
          | error e => exact ⟨outlet, rfl, rfl⟩
          | ok p => exact ⟨p.outlet, rfl, rfl⟩
      | _ => cases hq

theorem run_apart (σ : Session) (outlet : Outlet) (qs : List Request) :
    ∃ outlet', ((σ.withOutlet outlet).run qs).1 = (σ.run qs).1.withOutlet outlet' ∧
      ((σ.withOutlet outlet).run qs).2.map Reply.withoutMoves =
        (σ.run qs).2.map Reply.withoutMoves := by
  induction qs generalizing σ outlet with
  | nil => exact ⟨outlet, rfl, rfl⟩
  | cons q qs ih =>
      obtain ⟨mid, hstate, hreply⟩ := handle_apart σ outlet q
      obtain ⟨outlet', hrun, hreplies⟩ := ih (σ.handle q).1 mid
      rw [← hstate] at hrun hreplies
      refine ⟨outlet', hrun, ?_⟩
      simp only [run, List.map_cons, hreply, hreplies]

end

end Session

/-! ## The traffic of a queue -/

/-- One thing that happens to a queue of moves. -/
inductive Traffic where
  /-- A move is sent, and kept or lost. -/
  | sent (v : Move) (kept : Bool)
  /-- The receiver asks for at most `n` moves, or for all, and takes these. -/
  | taken (n : Option Nat) (vs : List Move)
  /-- The receiver leaves. -/
  | left
  deriving DecidableEq

namespace Traffic

/-- The moves that have been sent, kept or lost. -/
def sentMoves (ts : List Traffic) : List Move :=
  ts.flatMap fun
    | .sent v _ => [v]
    | _ => []

/-- The moves that have been kept. -/
def keptMoves (ts : List Traffic) : List Move :=
  ts.flatMap fun
    | .sent v true => [v]
    | _ => []

/-- The moves that the receiver has taken. -/
def takenMoves (ts : List Traffic) : List Move :=
  ts.flatMap fun
    | .taken _ vs => vs
    | _ => []

/-- The moves that have been kept and not been taken. -/
def waiting (ts : List Traffic) : List Move := (keptMoves ts).drop (takenMoves ts).length

/-- The first `n` moves of a list, or all. -/
def oldest : Option Nat → List Move → List Move
  | none, vs => vs
  | some n, vs => vs.take n

/-- The law of a queue for what may happen next. A move is kept exactly if there is a receiver and
fewer moves wait than there is room for, and a receiver gets the moves that wait, the oldest ones
first. -/
def Next (capacity : Nat) (before : List Traffic) : Traffic → Prop
  | .sent _ kept => kept = true ↔ .left ∉ before ∧ (waiting before).length < capacity
  | .taken n vs => .left ∉ before ∧ vs = oldest n (waiting before)
  | .left => True

/-- All that has happened was lawful at its time. -/
def Lawful (capacity : Nat) (ts : List Traffic) : Prop :=
  ∀ before t after, ts = before ++ t :: after → Next capacity before t

section

variable {capacity : Nat} {ts : List Traffic} {t : Traffic} {vs : List Move}

theorem Lawful.nil : Lawful capacity [] := by
  intro before t after h
  simp at h

theorem lawful_snoc : Lawful capacity (ts ++ [t]) ↔ Lawful capacity ts ∧ Next capacity ts t := by
  constructor
  · intro h
    exact ⟨fun before t' after hts => h before t' (after ++ [t]) (by simp [hts]),
      h ts t [] rfl⟩
  · rintro ⟨hts, ht⟩ before t' after hsplit
    -- the event is the last one, or it has happened before
    rcases after.eq_nil_or_concat with rfl | ⟨after, last, rfl⟩
    · obtain ⟨rfl, hlast⟩ := List.append_inj' hsplit rfl
      cases hlast
      exact ht
    · rw [List.concat_eq_append, ← List.cons_append, ← List.append_assoc] at hsplit
      exact hts before t' after (List.append_inj' hsplit rfl).1

theorem Lawful.of_prefix {before : List Traffic} (h : Lawful capacity ts) (hb : before <+: ts) :
    Lawful capacity before := by
  obtain ⟨rest, rfl⟩ := hb
  exact fun first t after hsplit => h first t (after ++ rest) (by simp [hsplit])

/-! ## What waits -/

/-- What waits after one more event. -/
def pass (ws : List Move) : Traffic → List Move
  | .sent v kept => if kept then ws ++ [v] else ws
  | .taken _ vs => ws.drop vs.length
  | .left => ws

theorem waiting_eq (h : takenMoves ts ++ vs = keptMoves ts) : waiting ts = vs := by
  rw [waiting, ← h, List.drop_left]

/-- Nothing is lost of a list of which the oldest moves are taken. -/
theorem oldest_append_drop (n : Option Nat) (vs : List Move) :
    oldest n vs ++ vs.drop (oldest n vs).length = vs := by
  cases n with
  | none => simp [oldest]
  | some n => exact List.prefix_iff_eq_append.mp (List.take_prefix n vs)

/-- One lawful event moves a move from one account to another, and none gets lost on the way. -/
theorem Next.balanced (ht : Next capacity ts t)
    (h : takenMoves ts ++ waiting ts = keptMoves ts) :
    takenMoves (ts ++ [t]) ++ pass (waiting ts) t = keptMoves (ts ++ [t]) := by
  have hold := h
  simp only [takenMoves, keptMoves] at h ⊢
  cases t with
  | sent v kept => cases kept <;> simp [pass, ← h]
  | left => simp [pass, ← h]
  | taken n vs =>
      obtain ⟨-, rfl⟩ := ht
      have hsplit := oldest_append_drop n (waiting ts)
      simp [pass, ← h, hsplit]

/-- One lawful event keeps to the capacity. -/
theorem Next.room (ht : Next capacity ts t) (h : (waiting ts).length ≤ capacity) :
    (pass (waiting ts) t).length ≤ capacity := by
  cases t with
  | sent v kept =>
      cases kept with
      | false => exact h
      | true =>
          obtain ⟨-, hlt⟩ := ht.mp rfl
          simp [pass]
          omega
  | left => exact h
  | taken n vs =>
      simp [pass]
      omega

/-- **Lawful traffic loses no kept move and keeps to the capacity.** What has been taken and what
waits are together what has been kept, in the order in which it was sent. -/
theorem Lawful.balanced (h : Lawful capacity ts) :
    takenMoves ts ++ waiting ts = keptMoves ts ∧ (waiting ts).length ≤ capacity := by
  induction ts using List.reverseRecOn with
  | nil => simp [takenMoves, keptMoves, waiting]
  | append_singleton ts t ih =>
      obtain ⟨hts, ht⟩ := lawful_snoc.mp h
      obtain ⟨hbalanced, hroom⟩ := ih hts
      have hnext := ht.balanced hbalanced
      rw [waiting_eq hnext]
      exact ⟨hnext, ht.room hroom⟩

theorem Lawful.waiting_snoc (h : Lawful capacity ts) (ht : Next capacity ts t) :
    waiting (ts ++ [t]) = pass (waiting ts) t :=
  waiting_eq (ht.balanced h.balanced.1)

end

end Traffic

/-! ## A queue and its traffic -/

namespace MoveQueue

/-- What happens to a queue when moves are sent to it, one after the other. A move has been kept if
it stands behind the moves that waited before. -/
def sentTraffic (w : MoveQueue) : List Move → List Traffic
  | [] => []
  | v :: vs =>
      .sent v (decide ((w.push v).waiting = w.waiting ++ [v])) :: (w.push v).sentTraffic vs

theorem kept_iff_accepts (w : MoveQueue) (v : Move) :
    (w.push v).waiting = w.waiting ++ [v] ↔ w.Accepts := by
  rw [push_waiting]
  by_cases h : w.Accepts
  · rw [if_pos h]
    exact iff_of_true rfl h
  · rw [if_neg h]
    exact iff_of_false (by simp) h

theorem take_eq (w : MoveQueue) (n : Option Nat) :
    w.take n =
      ({ w with waiting := w.waiting.drop (Traffic.oldest n w.waiting).length },
        Traffic.oldest n w.waiting) := by
  cases n with
  | none => simp [take, Traffic.oldest]
  | some n =>
      have hdrop : w.waiting.drop (w.waiting.take n).length = w.waiting.drop n := by
        rcases Nat.le_total n w.waiting.length with hle | hle
        · rw [List.length_take, Nat.min_eq_left hle]
        · rw [List.take_of_length_le hle, List.drop_length, List.drop_of_length_le hle]
      rw [Traffic.oldest, hdrop]
      rfl

theorem sentMoves_sentTraffic (w : MoveQueue) (vs : List Move) :
    Traffic.sentMoves (w.sentTraffic vs) = vs := by
  induction vs generalizing w with
  | nil => rfl
  | cons v vs ih => exact congrArg (v :: ·) (ih (w.push v))

theorem takenMoves_sentTraffic (w : MoveQueue) (vs : List Move) :
    Traffic.takenMoves (w.sentTraffic vs) = [] := by
  induction vs generalizing w with
  | nil => rfl
  | cons v vs ih => exact ih (w.push v)

end MoveQueue

namespace Traffic

/-- The traffic tells the queue. It has been lawful; the queue has a receiver until it leaves; and
the moves in the queue are those that wait, until the receiver leaves and they are lost. -/
structure Tells (capacity : Nat) (ts : List Traffic) (w : MoveQueue) : Prop where
  lawful : Lawful capacity ts
  capacity_eq : w.capacity = capacity
  connected_iff : w.connected = true ↔ .left ∉ ts
  waiting_eq : w.waiting = if .left ∈ ts then [] else waiting ts

section

variable {capacity : Nat} {ts : List Traffic} {w : MoveQueue}

theorem Tells.start (capacity : Nat) : Tells capacity [] (.ofCapacity capacity) :=
  ⟨Lawful.nil, rfl, by simp [MoveQueue.ofCapacity], rfl⟩

theorem Tells.accepts_iff (h : Tells capacity ts w) :
    w.Accepts ↔ .left ∉ ts ∧ (waiting ts).length < capacity := by
  rw [MoveQueue.Accepts, h.connected_iff, h.waiting_eq, h.capacity_eq]
  by_cases hleft : Traffic.left ∈ ts <;> simp [hleft]

/-- One move is sent. -/
theorem Tells.push (h : Tells capacity ts w) (v : Move) :
    Tells capacity (ts ++ [.sent v (decide ((w.push v).waiting = w.waiting ++ [v]))])
      (w.push v) := by
  simp only [MoveQueue.kept_iff_accepts]
  generalize hkept : decide w.Accepts = kept
  have hnext : Next capacity ts (.sent v kept) := by
    rw [Next, ← hkept, decide_eq_true_eq, h.accepts_iff]
  have hlawful := lawful_snoc.mpr ⟨h.lawful, hnext⟩
  have hwaiting := h.lawful.waiting_snoc hnext
  have hleft : Traffic.left ∈ ts ++ [.sent v kept] ↔ Traffic.left ∈ ts := by simp
  cases kept with
  | true =>
      have hacc := of_decide_eq_true hkept
      have hthere := (h.accepts_iff.mp hacc).1
      rw [MoveQueue.push, if_pos hacc]
      refine ⟨hlawful, h.capacity_eq, by rw [hleft]; exact h.connected_iff, ?_⟩
      rw [if_neg (mt hleft.mp hthere), hwaiting, h.waiting_eq, if_neg hthere]
      rfl
  | false =>
      rw [MoveQueue.push, if_neg (of_decide_eq_false hkept)]
      refine ⟨hlawful, h.capacity_eq, by rw [hleft]; exact h.connected_iff, ?_⟩
      simp only [hleft, hwaiting, h.waiting_eq]
      rfl

/-- Several moves are sent. -/
theorem Tells.sendAll (h : Tells capacity ts w) (vs : List Move) :
    ∃ w', (Outlet.queue w).sendAll vs = .queue w' ∧
      Tells capacity (ts ++ w.sentTraffic vs) w' := by
  induction vs generalizing ts w with
  | nil => exact ⟨w, rfl, by simpa [MoveQueue.sentTraffic] using h⟩
  | cons v vs ih =>
      obtain ⟨w', hsent, htells⟩ := ih (h.push v)
      refine ⟨w', hsent, ?_⟩
      rw [MoveQueue.sentTraffic, List.append_cons]
      exact htells

/-- The receiver takes moves. -/
theorem Tells.take (h : Tells capacity ts w) (hthere : .left ∉ ts) (n : Option Nat) :
    Tells capacity (ts ++ [.taken n (w.take n).2]) (w.take n).1 := by
  have hwait : w.waiting = waiting ts := h.waiting_eq.trans (if_neg hthere)
  have hnext : Next capacity ts (.taken n (oldest n w.waiting)) := ⟨hthere, by rw [hwait]⟩
  have hleft : Traffic.left ∉ ts ++ [.taken n (oldest n w.waiting)] := by simpa using hthere
  rw [MoveQueue.take_eq]
  refine ⟨lawful_snoc.mpr ⟨h.lawful, hnext⟩, h.capacity_eq, ?_, ?_⟩
  · exact iff_of_true (h.connected_iff.mpr hthere) hleft
  · rw [if_neg hleft, h.lawful.waiting_snoc hnext, ← hwait]
    rfl

/-- The receiver leaves. -/
theorem Tells.disconnect (h : Tells capacity ts w) :
    Tells capacity (ts ++ [.left]) w.disconnect where
  lawful := lawful_snoc.mpr ⟨h.lawful, trivial⟩
  capacity_eq := h.capacity_eq
  connected_iff := by simp [MoveQueue.disconnect]
  waiting_eq := by simp [MoveQueue.disconnect]

end

end Traffic

/-! ## Every run -/

/-- The moves that the receiver gets with a reply. -/
def Reply.takenMoves : Reply → List Move
  | .moves (some vs) => vs
  | _ => []

namespace Session

/-- What a request means for the queue of the session, if it has one. -/
def trafficOf (σ : Session) (q : Request) : List Traffic :=
  match σ.placer.outlet, q with
  | .ledger _, _ => []
  | .queue w, .take n => if w.connected then [.taken n (σ.handle (.take n)).2.takenMoves] else []
  | .queue _, .disconnect => [.left]
  | .queue w, q => w.sentTraffic (σ.sends q)

/-- What several requests mean for the queue of the session. -/
def traffic (σ : Session) : List Request → List Traffic
  | [] => []
  | q :: qs => σ.trafficOf q ++ (σ.handle q).1.traffic qs

open Traffic (Tells Lawful sentMoves keptMoves takenMoves waiting)

section

variable {σ : Session} {q : Request} {w : MoveQueue} {capacity : Nat} {ts : List Traffic}

/-- Only the receiver gets moves. -/
theorem takenMoves_handle (hq : q.toPlacer = true) : (σ.handle q).2.takenMoves = [] := by
  have hunit : ∀ r, (Reply.ofUnit r).takenMoves = [] := by
    intro r
    cases r <;> rfl
  have hcount : ∀ r, (Reply.ofCount r).takenMoves = [] := by
    intro r
    cases r <;> rfl
  have hflag : ∀ r, (Reply.ofFlag r).takenMoves = [] := by
    intro r
    cases r <;> rfl
  cases q with
  | record a b d => exact hunit _
  | tick => exact hflag _
  | cool factor => exact hcount _
  | save => exact hcount _
  | load => exact hcount _
  | restart => cases hq
  | take n => cases hq
  | disconnect => cases hq
  | _ => rfl

/-- **One request.** The traffic goes on telling the queue; a ledger in place of the queue records
what the traffic says has been sent; and the receiver gets what it says has been taken. -/
theorem handle_tells (hw : σ.placer.outlet = .queue w) (h : Tells capacity ts w)
    (hq : q ≠ .restart) (moves : List Move) :
    (∃ w', (σ.handle q).1.placer.outlet = .queue w' ∧
      Tells capacity (ts ++ σ.trafficOf q) w') ∧
    ((σ.withOutlet (.ledger moves)).handle q).1 =
      (σ.handle q).1.withOutlet (.ledger (moves ++ sentMoves (σ.trafficOf q))) ∧
    (σ.handle q).2.takenMoves = takenMoves (σ.trafficOf q) := by
  cases hkind : q.toPlacer with
  | true =>
      have htraffic : σ.trafficOf q = w.sentTraffic (σ.sends q) := by
        unfold trafficOf
        rw [hw]
        cases q with
        | take n => cases hkind
        | disconnect => cases hkind
        | _ => rfl
      have hout : (σ.handle q).1.placer.outlet = σ.placer.outlet.sendAll (σ.sends q) :=
        congrArg (fun r => r.1.placer.outlet) (handle_withOutlet (σ := σ) hkind σ.placer.outlet)
      obtain ⟨w', hsent, htells⟩ := h.sendAll (σ.sends q)
      rw [htraffic, MoveQueue.sentMoves_sentTraffic, MoveQueue.takenMoves_sentTraffic]
      refine ⟨⟨w', ?_, htells⟩, ?_, takenMoves_handle hkind⟩
      · rw [hout, hw, hsent]
      · rw [handle_withOutlet hkind, Outlet.recorded_sendAll_ledger]
  | false =>
      cases q with
      | restart => exact absurd rfl hq
      | disconnect =>
          have htraffic : σ.trafficOf .disconnect = [.left] := by
            unfold trafficOf
            rw [hw]
          have hhandle : (σ.handle .disconnect).1.placer.outlet = .queue w.disconnect := by
            show σ.placer.outlet.disconnect = _
            rw [hw]
            rfl
          rw [htraffic]
          refine ⟨⟨w.disconnect, hhandle, h.disconnect⟩, ?_, rfl⟩
          rw [show sentMoves [.left] = [] from rfl, List.append_nil]
          rfl
      | take n =>
          have htake : (σ.handle (.take n)).1.placer.outlet = ((Outlet.queue w).take n).1 ∧
              (σ.handle (.take n)).2 = .moves ((Outlet.queue w).take n).2 := by
            rw [← hw]
            exact ⟨rfl, rfl⟩
          obtain ⟨hout, hreply⟩ := htake
          have htraffic : σ.trafficOf (.take n) =
              if w.connected then [.taken n (σ.handle (.take n)).2.takenMoves] else [] := by
            unfold trafficOf
            rw [hw]
          rw [htraffic, hout, hreply, Outlet.take, Outlet.receiver?]
          cases hconn : w.connected with
          | true =>
              have hsent : sentMoves [.taken n (w.take n).2] = [] := rfl
              refine ⟨⟨_, rfl, h.take (h.connected_iff.mp hconn) n⟩, ?_, ?_⟩
              · show _ = (σ.handle (.take n)).1.withOutlet
                  (.ledger (moves ++ sentMoves [.taken n (w.take n).2]))
                rw [hsent, List.append_nil]
                rfl
              · exact (List.append_nil _).symm
          | false =>
              refine ⟨⟨w, rfl, by simpa using h⟩, ?_, rfl⟩
              show _ = (σ.handle (.take n)).1.withOutlet (.ledger (moves ++ []))
              rw [List.append_nil]
              rfl
      | _ => cases hkind

/-- **Every run.** -/
theorem run_tells (hw : σ.placer.outlet = .queue w) (h : Tells capacity ts w) {qs : List Request}
    (hqs : ∀ q ∈ qs, q ≠ .restart) (moves : List Move) :
    (∃ w', (σ.run qs).1.placer.outlet = .queue w' ∧ Tells capacity (ts ++ σ.traffic qs) w') ∧
    ((σ.withOutlet (.ledger moves)).run qs).1.placer.outlet =
      .ledger (moves ++ sentMoves (σ.traffic qs)) ∧
    (σ.run qs).2.flatMap Reply.takenMoves = takenMoves (σ.traffic qs) := by
  induction qs generalizing σ w ts moves with
  | nil =>
      refine ⟨⟨w, hw, by simpa [traffic] using h⟩, ?_, rfl⟩
      show Outlet.ledger moves = .ledger (moves ++ [])
      rw [List.append_nil]
  | cons q qs ih =>
      have hfirst := handle_tells hw h (hqs q List.mem_cons_self) moves
      obtain ⟨⟨w', hw', h'⟩, hledger, htaken⟩ := hfirst
      have hrest := ih hw' h' (fun q' hq' => hqs q' (List.mem_cons_of_mem q hq'))
        (moves ++ sentMoves (σ.trafficOf q))
      rw [← hledger, List.append_assoc, List.append_assoc] at hrest
      have hsent : sentMoves (σ.trafficOf q ++ (σ.handle q).1.traffic qs) =
          sentMoves (σ.trafficOf q) ++ sentMoves ((σ.handle q).1.traffic qs) :=
        List.flatMap_append
      have htakens : takenMoves (σ.trafficOf q ++ (σ.handle q).1.traffic qs) =
          takenMoves (σ.trafficOf q) ++ takenMoves ((σ.handle q).1.traffic qs) :=
        List.flatMap_append
      rw [traffic, hsent, htakens]
      refine ⟨hrest.1, hrest.2.1, ?_⟩
      rw [← htaken, ← hrest.2.2]
      rfl

end

/-- **A queue loses a move only if it is full or its receiver has left, and no decision hangs on
it.** Take a placer whose moves go into a queue, and one with the same settings that records them.
If the one cannot be made, the other cannot, for the same reason. Both are asked for the same, and
the receiver takes moves and leaves when it likes. Then the two reply alike and come to the same
map, the same memo and the same clock. The traffic of the queue has been lawful: each move that is
recorded is kept in the queue if and only if at its time there is a receiver, and fewer moves wait
than there is room for; and the receiver gets each move that is kept at most once, in the order of
the moves that are kept, and all of them if it stays and asks for all. -/
theorem queue_loses_only_when_full (o : KeyOrder) (s : Settings) :
    (∀ e, Placer.withQueue o s = .error e ↔ Placer.new o s (.ledger []) = .error e) ∧
    ∀ p, Placer.withQueue o s = .ok p →
      Placer.new o s (.ledger []) = .ok (p.withOutlet (.ledger [])) ∧
      ∀ (f : Folder) (qs : List Request),
        let σ : Session := ⟨p, f⟩
        let τ : Session := ⟨p.withOutlet (.ledger []), f⟩
        let a := (σ.run qs).1
        let b := (τ.run qs).1
        (a.placer.map = b.placer.map ∧ a.placer.memo = b.placer.memo ∧
          a.placer.clock = b.placer.clock ∧ a.folder = b.folder ∧
          (σ.run qs).2.map Reply.withoutMoves = (τ.run qs).2.map Reply.withoutMoves) ∧
        ((∀ q ∈ qs, q ≠ .restart) →
          let ts := σ.traffic qs
          b.placer.outlet = .ledger (sentMoves ts) ∧
          (∃ w, a.placer.outlet = .queue w ∧ w.capacity = s.queue ∧
            (w.connected = true ↔ .left ∉ ts) ∧
            w.waiting = if .left ∈ ts then [] else waiting ts) ∧
          (σ.run qs).2.flatMap Reply.takenMoves = takenMoves ts ∧
          Lawful s.queue ts ∧
          ∀ before, before <+: ts → takenMoves before ++ waiting before = keptMoves before ∧
            (waiting before).length ≤ s.queue) := by
  have hnew : ∀ out, Placer.new o s out =
      (s.params o).map fun p => ⟨s, .empty p, .empty, .start s.period, out⟩ := fun _ => rfl
  unfold Placer.withQueue
  rw [hnew, hnew]
  cases s.params o with
  | error e => simp [Except.map]
  | ok params =>
      refine ⟨fun e => by simp [Except.map], fun p hp => ?_⟩
      cases hp
      refine ⟨rfl, fun f qs => ?_⟩
      intro σ τ a b
      refine ⟨?_, fun hqs => ?_⟩
      · obtain ⟨outlet, hstate, hreplies⟩ := run_apart σ (.ledger []) qs
        have hb : b = a.withOutlet outlet := hstate
        rw [hb]
        exact ⟨rfl, rfl, rfl, rfl, hreplies.symm⟩
      · have hrun := run_tells (σ := σ) rfl (Tells.start s.queue) hqs []
        obtain ⟨⟨w, hw, htells⟩, hledger, htaken⟩ := hrun
        rw [List.nil_append] at htells hledger
        exact ⟨hledger, ⟨w, hw, htells.capacity_eq, htells.connected_iff, htells.waiting_eq⟩,
          htaken, htells.lawful, fun before hb => (htells.lawful.of_prefix hb).balanced⟩

/-- There is room for one move. The second access finds it taken; a flush sends two moves, of which
one is kept; and after the receiver has left nothing is. -/
theorem queue_loses_only_when_full_flush :
    let s : Settings := { target := 4, queue := 1 }
    let p : Placer := ⟨s, .empty ⟨.bytewise, 4, 10, 3, .lowest, by decide, by decide, by decide,
      by decide⟩, .empty, .start 10, .queue (.ofCapacity 1)⟩
    let qs : List Request := [.record [1] [5] 20, .record [7] [9] 30, .take none, .flush,
      .disconnect, .cool .tenth, .record [7] [9] 20]
    let v : Move := ⟨⟨[1], [5]⟩, true⟩
    let w : Move := ⟨⟨[7], [9]⟩, true⟩
    let ts : List Traffic := [.sent v true, .sent w false, .taken none [v], .sent v true,
      .sent w false, .left, .sent w false]
    Placer.withQueue .bytewise s = .ok p ∧ traffic ⟨p, .missing⟩ qs = ts ∧
      (run ⟨p.withOutlet (.ledger []), .missing⟩ qs).1.placer.outlet = .ledger [v, w, v, w, w] ∧
      Lawful 1 ts := by
  intro s p qs v w ts
  have hp : Placer.withQueue .bytewise s = .ok p := Placer.new_eq_ok (by decide +kernel) rfl _
  have hts : traffic ⟨p, .missing⟩ qs = ts := by decide +kernel
  obtain ⟨-, hrun⟩ := (queue_loses_only_when_full .bytewise s).2 p hp
  obtain ⟨-, htraffic⟩ := hrun .missing qs
  obtain ⟨hledger, -, -, hlawful, -⟩ := htraffic (by simp [qs])
  rw [hts] at hledger hlawful
  exact ⟨hp, hts, hledger, hlawful⟩

end Session

end TierIndex
