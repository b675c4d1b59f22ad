import TierIndex.HeatMap.Access
import TierIndex.HeatMap.Upkeep
import TierIndex.Proofs.Settle
import TierIndex.Proofs.Views

set_option autoImplicit false

/-! # A heat map and its view

The view of a heat map has the same slots, with the view of its zone in every slot in use, and the
same count. Each operation of a heat map only compares keys, and keeps keys that it was given or
that it holds already; so it does on the view of the map what it does on the map: the operation on
the view of the map, with the views of the keys, gives the view of what it gives on the map with the
keys themselves. There is one such equation for each operation, from the writes up to the access
(`access_view`).
-/

namespace TierIndex

namespace HeatMap

/-- The map with the views of its zones, ordered bytewise. -/
def view (m : HeatMap) : HeatMap :=
  ⟨{ m.params with order := .bytewise }, m.slots.map (Option.map (Zone.view m.order)), m.live⟩

section

variable (m : HeatMap) (i : Nat)

/-! ## Zones and entries -/

theorem empty_view (p : Params) : (empty p).view = empty { p with order := .bytewise } := by
  unfold view empty
  rw [List.map_replicate]
  rfl

theorem at?_view : m.view.at? i = (m.at? i).map (Zone.view m.order) := by
  unfold at? view
  rw [List.getElem?_map]
  cases m.slots[i]? with
  | none => rfl
  | some x => rfl

theorem entriesFrom_view (o : KeyOrder) (n : Nat) (l : List (Option Zone)) :
    entriesFrom n (l.map (Option.map (Zone.view o))) = (entriesFrom n l).map (viewEntry o) := by
  induction l generalizing n with
  | nil => rfl
  | cons x l ih =>
      cases x with
      | none => exact ih (n + 1)
      | some z => exact congrArg (viewEntry o (n, z) :: ·) (ih (n + 1))

theorem entries_view : m.view.entries = m.entries.map (viewEntry m.order) :=
  entriesFrom_view m.order 0 m.slots

theorem zones_view : m.view.zones = m.zones.map (Zone.view m.order) := by
  rw [← entries_map_snd, ← entries_map_snd, entries_view, List.map_map, List.map_map]
  rfl

theorem firstFree?_view : m.view.firstFree? = m.firstFree? := by
  show List.findIdx? Option.isNone (m.slots.map _) = _
  rw [List.findIdx?_map]
  congr 1
  funext x
  cases x <;> rfl

theorem hotEntries_view : m.view.hotEntries = m.hotEntries.map (viewEntry m.order) := by
  unfold hotEntries
  rw [entries_view, List.filter_map]
  rfl

theorem hotOthers_view : m.view.hotOthers i = (m.hotOthers i).map (viewEntry m.order) := by
  unfold hotOthers
  rw [hotEntries_view, List.filter_map]
  rfl

theorem rivals_view (u : Zone) :
    m.view.rivals i (u.view m.order) = (m.rivals i u).map (viewEntry m.order) := by
  unfold rivals
  rw [hotOthers_view]
  exact near_view m.order u _

/-- A zone is chosen by its view, if the property can be told from the view. -/
theorem hottest?_view {p q : Zone → Bool} (h : ∀ z, q (z.view m.order) = p z) :
    m.view.hottest? q = (m.hottest? p).map (viewEntry m.order) := by
  have hfilter : m.view.entries.filter (fun e => q e.2) =
      (m.entries.filter fun e => p e.2).map (viewEntry m.order) := by
    rw [entries_view, List.filter_map]
    congr 2
    funext e
    exact h e.2
  unfold hottest?
  rw [hfilter]
  exact (leftmostBest_map _ (viewEntry m.order) _).symm

/-! ## Writes -/

section

variable {m : HeatMap} {o : KeyOrder} (ho : m.order = o) (i : Nat) (z : Zone)

include ho

theorem put_view : m.view.put i (z.view o) = (m.put i z).view := by
  subst ho
  unfold view put
  rw [List.map_set]
  rfl

theorem place_view (slot : Option Nat) :
    m.view.place slot (z.view o) = ((m.place slot z).1.view, (m.place slot z).2) := by
  subst ho
  cases slot with
  | none => simp [view, place]
  | some i => simp [view, place]

theorem insert_view : m.view.insert (z.view o) = (m.insert z).view := by
  unfold insert
  rw [firstFree?_view, place_view ho]

end

theorem free_view : m.view.free i = (m.free i).view := by
  unfold view free
  rw [List.map_set]
  rfl

theorem freeAll_view (o : KeyOrder) (l : List (Nat × Zone)) :
    m.view.freeAll (l.map (viewEntry o)) = (m.freeAll l).view := by
  induction l generalizing m with
  | nil => rfl
  | cons e l ih =>
      show (m.view.free e.1).freeAll (l.map (viewEntry o)) = ((m.free e.1).freeAll l).view
      rw [free_view, ih]

/-! ## Merging -/

theorem mergeAt_view : m.view.mergeAt i = ((m.mergeAt i).1.view, (m.mergeAt i).2) := by
  have hat := at?_view m i
  cases hu : m.at? i with
  | none =>
      rw [hu] at hat
      rw [mergeAt_of_none hu, mergeAt_of_none hat]
  | some u =>
      rw [hu] at hat
      have hgather : gather m.view.order (u.view m.order) (m.view.hotOthers i) =
          ((m.merged i u).view m.order, (m.absorbed i u).map (viewEntry m.order)) := by
        rw [hotOthers_view]
        exact gather_view m.order u _
      have hmerged : m.view.merged i (u.view m.order) = (m.merged i u).view m.order :=
        congrArg Prod.fst hgather
      have habsorbed : m.view.absorbed i (u.view m.order) =
          (m.absorbed i u).map (viewEntry m.order) := congrArg Prod.snd hgather
      have horder : (m.freeAll (m.absorbed i u)).order = m.order :=
        congrArg Params.order (freeAll_params m _)
      rw [mergeAt_eq hu, mergeAt_eq hat, hmerged, habsorbed, freeAll_view, put_view horder,
        List.length_map]

theorem foldl_countMerge_view (o : KeyOrder) (l : List (Nat × Zone)) (m : HeatMap) (n : Nat) :
    (l.map (viewEntry o)).foldl countMerge (m.view, n) =
      ((l.foldl countMerge (m, n)).1.view, (l.foldl countMerge (m, n)).2) := by
  induction l generalizing m n with
  | nil => rfl
  | cons e l ih =>
      have hstep : countMerge (m.view, n) (viewEntry o e) =
          ((countMerge (m, n) e).1.view, (countMerge (m, n) e).2) :=
        congrArg (fun r => (r.1, n + r.2)) (mergeAt_view m e.1)
      rw [List.map_cons, List.foldl_cons, hstep, ih]
      rfl

theorem mergeHot_view : m.view.mergeHot = (m.mergeHot.1.view, m.mergeHot.2) := by
  -- the list that is visited is fixed before the first merge, and only slots are read off it
  have hsort : sortByStart m.view.order m.view.hotEntries =
      (sortByStart m.order m.hotEntries).map (viewEntry m.order) := by
    rw [hotEntries_view]
    exact sortByStart_view m.order _
  rw [mergeHot_eq, mergeHot_eq, hsort, foldl_countMerge_view]

/-! ## Splitting and settling -/

theorem dropPoint_view {m : HeatMap} {o : KeyOrder} (ho : m.order = o) (z : Zone) :
    m.view.dropPoint i (z.view o) = (m.dropPoint i z).view := by
  subst ho
  have hpoint : m.view.order.Same (z.view m.order).span.lo (z.view m.order).span.hi ↔
      m.order.Same z.span.lo z.span.hi := Iff.rfl
  unfold dropPoint
  by_cases h : m.order.Same z.span.lo z.span.hi
  · rw [if_pos (hpoint.mpr h), if_pos h, free_view]
  · rw [if_neg (mt hpoint.mp h), if_neg h]

theorem withPieces_view (p q : Nat) (c : Pieces) :
    m.view.withPieces p q (c.view m.order) = (m.withPieces p q c).view := by
  have hhead : m.view.put p (c.head.view m.order) = (m.put p c.head).view := put_view rfl p c.head
  have htail : (m.put p c.head).view.put q (c.tail.view m.order) =
      ((m.put p c.head).put q c.tail).view := put_view rfl q c.tail
  unfold withPieces Pieces.view
  dsimp only
  rw [hhead, htail]
  exact insert_view rfl c.shared

theorem splitAt_view (a : Zone) (j : Nat) (b : Zone) :
    m.view.splitAt i (a.view m.order) j (b.view m.order) = (m.splitAt i a j b).view := by
  obtain ⟨p, q, hpq⟩ : ∃ p q, splitSlots m.order i a j b = (p, q) := ⟨_, _, rfl⟩
  have hpq' : splitSlots m.view.order i (a.view m.order) j (b.view m.order) = (p, q) := hpq
  have hpieces : pieces m.view.order (a.view m.order) (b.view m.order) =
      (pieces m.order a b).view m.order := pieces_view m.order a b
  rw [splitAt_eq hpq, splitAt_eq hpq', hpieces, withPieces_view]
  generalize pieces m.order a b = c
  have horder : (m.withPieces p q c).order = m.order := by
    simp [withPieces, insert, HeatMap.order]
  have horder' : ((m.withPieces p q c).dropPoint p c.head).order = m.order := by
    rw [HeatMap.order, dropPoint_params]
    exact horder
  rw [← dropPoint_view q horder' c.tail, ← dropPoint_view p horder c.head]
  rfl

theorem settle_view : m.view.settle i = (m.settle i).view := by
  have hat := at?_view m i
  cases hu : m.at? i with
  | none =>
      rw [hu] at hat
      rw [settle_of_none hu, settle_of_none hat]
  | some u =>
      rw [hu] at hat
      have hrivals := rivals_view m i u
      unfold settle
      rw [hu, hat]
      dsimp only [Option.map_some]
      rw [hrivals]
      cases m.rivals i u with
      | nil => rfl
      | cons e l =>
          cases l with
          | cons e' l =>
              show (m.view.mergeAt i).1 = (m.mergeAt i).1.view
              rw [mergeAt_view]
          | nil =>
              obtain ⟨j, v⟩ := e
              show (if m.live ≤ m.params.target then m.view.splitAt i _ j (v.view m.order)
                else (m.view.mergeAt i).1) = HeatMap.view (if m.live ≤ m.params.target then _ else _)
              rw [splitAt_view, mergeAt_view]
              exact (apply_ite view _ _ _).symm

end

end HeatMap

/-! ## Landing and receiving -/

/-- Where an access lands, with the view of the zone. -/
def Landing.view (o : KeyOrder) : Landing → Landing
  | .exact i z => .exact i (z.view o)
  | .inside i z => .inside i (z.view o)
  | .joining i z => .joining i (z.view o)
  | .widening i z => .widening i (z.view o)
  | .fresh => .fresh

/-- The receipt with the views of the map and of the reported span. -/
def Receipt.view (o : KeyOrder) (r : Receipt) : Receipt :=
  { r with map := r.map.view, span := r.span.view o }

/-- The outcome with the views of the map and of the reported span. -/
def Outcome.view (o : KeyOrder) (out : Outcome) : Outcome :=
  { out with map := out.map.view, span := out.span.view o }

theorem Receipt.settled_view (o : KeyOrder) (r : Receipt) :
    (r.view o).settled = r.settled.view := by
  obtain ⟨m, slot, unsettled, crossed, span⟩ := r
  unfold Receipt.settled Receipt.view
  cases slot with
  | none => rfl
  | some i =>
      cases unsettled with
      | false => rfl
      | true => exact HeatMap.settle_view m i

namespace HeatMap

section

variable (m : HeatMap) (s : Span) (d : Int) (i : Nat) (z : Zone)

theorem firstHotMeeting?_view :
    m.view.firstHotMeeting? (s.view m.order) =
      (m.firstHotMeeting? s).map (viewEntry m.order) := by
  unfold firstHotMeeting?
  rw [hotEntries_view, List.filter_map]
  exact (leftmostBest_map _ (viewEntry m.order) _).symm

theorem smallestColdUnion?_view :
    m.view.smallestColdUnion? (s.view m.order) =
      (m.smallestColdUnion? s).map (viewEntry m.order) := by
  have hbeats : (fun a b : Nat × Zone =>
      smallerUnion m.order (a.2.span.union m.order s) (b.2.span.union m.order s)) =
      fun a b => smallerUnion .bytewise
        ((viewEntry m.order a).2.span.union .bytewise (s.view m.order))
        ((viewEntry m.order b).2.span.union .bytewise (s.view m.order)) := by
    funext a b
    show _ = smallerUnion .bytewise ((a.2.span.view m.order).union .bytewise (s.view m.order))
      ((b.2.span.view m.order).union .bytewise (s.view m.order))
    rw [Span.union_view, Span.union_view]
    rfl
  unfold smallestColdUnion?
  rw [entries_view, List.filter_map, hbeats]
  exact (leftmostBest_map _ (viewEntry m.order) _).symm

theorem landing_view : m.view.landing (s.view m.order) d = (m.landing s d).view m.order := by
  have hexact := hottest?_view m (p := fun z => z.span.Same m.order s)
    (q := fun z => z.span.Same m.view.order (s.view m.order)) fun _ => rfl
  have hinside := hottest?_view m (p := fun z => m.params.Hot z ∧ z.span.Covers m.order s)
    (q := fun z => m.view.params.Hot z ∧ z.span.Covers m.view.order (s.view m.order)) fun _ => rfl
  unfold landing
  rw [hexact, hinside, firstHotMeeting?_view, smallestColdUnion?_view]
  cases m.hottest? fun z => z.span.Same m.order s with
  | some e => rfl
  | none =>
      dsimp only [Option.map_none]
      by_cases hlive : m.live ≤ m.params.target
      · have hlive' : m.view.live ≤ m.view.params.target := hlive
        rw [if_pos hlive', if_pos hlive]
        rfl
      · have hlive' : ¬ m.view.live ≤ m.view.params.target := hlive
        rw [if_neg hlive', if_neg hlive]
        cases m.hottest? fun z => m.params.Hot z ∧ z.span.Covers m.order s with
        | some e => rfl
        | none =>
            dsimp only [Option.map_none]
            by_cases hd : d ≤ 0
            · rw [if_pos hd, if_pos hd]
              rfl
            · rw [if_neg hd, if_neg hd]
              by_cases hboil : m.params.boiling ≤ d
              · have hboil' : m.view.params.boiling ≤ d := hboil
                rw [if_pos hboil', if_pos hboil]
                cases m.firstHotMeeting? s <;> rfl
              · have hboil' : ¬ m.view.params.boiling ≤ d := hboil
                rw [if_neg hboil', if_neg hboil]
                cases m.smallestColdUnion? s <;> rfl

theorem receiveShift_view (covering : Bool) :
    m.view.receiveShift i (z.view m.order) d covering (s.view m.order) =
      (m.receiveShift i z d covering s).map (Receipt.view m.order) := by
  have hput : m.view.put i { z.view m.order with heat := Zone.shiftHeat z.heat d } =
      (m.put i { z with heat := Zone.shiftHeat z.heat d }).view :=
    put_view rfl i { z with heat := Zone.shiftHeat z.heat d }
  unfold receiveShift
  by_cases hd : d = 0
  · rw [if_pos hd, if_pos hd]
    rfl
  · rw [if_neg hd, if_neg hd]
    dsimp only [Zone.view_heat]
    by_cases hzero : Zone.shiftHeat z.heat d = 0
    · rw [if_pos hzero, if_pos hzero, free_view]
      rfl
    · rw [if_neg hzero, if_neg hzero, hput]
      rfl

theorem receiveJoining_view :
    m.view.receiveJoining i (z.view m.order) (s.view m.order) d =
      (m.receiveJoining i z s d).view m.order := by
  unfold receiveJoining Receipt.view
  have hgrown : (z.view m.order).span.union m.view.order (s.view m.order) =
      (z.span.union m.order s).view m.order := Span.union_view m.order z.span s
  dsimp only
  rw [hgrown, ← put_view rfl]
  rfl

theorem receiveWidening_view :
    m.view.receiveWidening i (z.view m.order) (s.view m.order) d =
      (m.receiveWidening i z s d).view m.order := by
  unfold receiveWidening Receipt.view
  have hgrown : (z.view m.order).span.union m.view.order (s.view m.order) =
      (z.span.union m.order s).view m.order := Span.union_view m.order z.span s
  dsimp only
  rw [hgrown, ← put_view rfl]
  rfl

theorem slotFor_view (heat : Int) : m.view.slotFor heat = m.slotFor heat := by
  unfold slotFor
  rw [zones_view, firstFree?_view]
  simp [view]

theorem receiveFresh_view :
    m.view.receiveFresh (s.view m.order) d = (m.receiveFresh s d).map (Receipt.view m.order) := by
  unfold receiveFresh
  by_cases hd : d ≤ 0
  · rw [if_pos hd, if_pos hd]
    rfl
  · rw [if_neg hd, if_neg hd]
    dsimp only
    rw [slotFor_view]
    have hplace : m.view.place (m.slotFor (min d maxHeat)) ⟨s.view m.order, min d maxHeat, false⟩ =
        ((m.place (m.slotFor (min d maxHeat)) ⟨s, min d maxHeat, false⟩).1.view,
          (m.place (m.slotFor (min d maxHeat)) ⟨s, min d maxHeat, false⟩).2) :=
      place_view rfl ⟨s, min d maxHeat, false⟩ _
    rw [hplace]
    rfl

theorem receive_view :
    m.view.receive (s.view m.order) d = (m.receive s d).map (Receipt.view m.order) := by
  unfold receive
  rw [landing_view]
  cases m.landing s d with
  | exact i z => exact receiveShift_view m s d i z false
  | inside i z => exact receiveShift_view m z.span d i z true
  | joining i z => exact congrArg Except.ok (receiveJoining_view m s d i z)
  | widening i z => exact congrArg Except.ok (receiveWidening_view m s d i z)
  | fresh => exact receiveFresh_view m s d

theorem access_view (a b : Key) :
    m.view.access (m.order.view a) (m.order.view b) d =
      (m.access a b d).map (Outcome.view m.order) := by
  unfold access
  have hspan : Span.between m.view.order (m.order.view a) (m.order.view b) =
      (Span.between m.order a b).view m.order := Span.between_view m.order a b
  rw [hspan, receive_view]
  cases m.receive (Span.between m.order a b) d with
  | error e => rfl
  | ok r =>
      show Except.ok (Outcome.mk (r.view m.order).settled r.crossed (r.span.view m.order)) = _
      rw [Receipt.settled_view]
      rfl

/-! ## Upkeep -/

/-- A change of all slots alike, if the change of a view is the view of the change. -/
theorem slots_bind_view {o : KeyOrder} {f g : Zone → Option Zone}
    (h : ∀ z, g (z.view o) = (f z).map (Zone.view o)) (l : List (Option Zone)) :
    (l.map (Option.map (Zone.view o))).map (·.bind g) =
      (l.map (·.bind f)).map (Option.map (Zone.view o)) := by
  rw [List.map_map, List.map_map]
  apply List.map_congr_left
  intro x _
  cases x with
  | none => rfl
  | some z => exact h z

theorem markTier_view (o : KeyOrder) (s : Span) (fast : Bool) (z : Zone) :
    markTier .bytewise (s.view o) fast (z.view o) = (markTier o s fast z).view o :=
  (apply_ite (Zone.view o) (s.Covers o z.span) { z with fast } z).symm

theorem coolSlot_view (o : KeyOrder) (decay : Int → Int) (z : Zone) :
    coolSlot decay (z.view o) = (coolSlot decay z).map (Zone.view o) := by
  unfold coolSlot
  by_cases h : decay z.heat = 0
  · have h' : decay (z.view o).heat = 0 := h
    rw [if_pos h, if_pos h']
    rfl
  · have h' : ¬ decay (z.view o).heat = 0 := h
    rw [if_neg h, if_neg h']
    rfl

theorem setTier_view (a b : Key) (fast : Bool) :
    m.view.setTier (m.order.view a) (m.order.view b) fast =
      ((m.setTier a b fast).1.view, (m.setTier a b fast).2) := by
  have hspan : Span.between m.view.order (m.order.view a) (m.order.view b) =
      (Span.between m.order a b).view m.order := Span.between_view m.order a b
  have hslots : (m.view.setTier (m.order.view a) (m.order.view b) fast).1.slots =
      (m.setTier a b fast).1.view.slots := by
    show _ = (m.setTier a b fast).1.slots.map (Option.map (Zone.view m.order))
    rw [setTier_slots, setTier_slots, hspan]
    exact slots_bind_view (fun z => congrArg some (markTier_view m.order _ fast z)) m.slots
  refine Prod.ext (congrArg (HeatMap.mk m.view.params · m.live) hslots) ?_
  show m.view.zones.countP _ = m.zones.countP _
  rw [zones_view, List.countP_map, hspan]
  rfl

theorem decayBy_view (decay : Int → Int) :
    m.view.decayBy decay =
      ((m.decayBy decay).1.view, (m.decayBy decay).2.map (Span.view m.order)) := by
  have hslots : m.view.slots.map (·.bind (coolSlot decay)) =
      (m.slots.map (·.bind (coolSlot decay))).map (Option.map (Zone.view m.order)) :=
    slots_bind_view (coolSlot_view m.order decay) m.slots
  unfold decayBy
  rw [zones_view, List.countP_map, List.filter_map, List.map_map, List.map_map, hslots]
  rfl

theorem cool_view (factor : Double) :
    m.view.cool factor =
      (m.cool factor).map fun r => (r.1.view, r.2.map (Span.view m.order)) := by
  unfold cool
  by_cases hunit : factor.InUnit
  · rw [if_pos hunit, if_pos hunit, decayBy_view]
    rfl
  · rw [if_neg hunit, if_neg hunit]
    rfl

/-! ## Questions -/

theorem find?_view (k : Key) :
    m.view.find? (m.order.view k) = (m.find? k).map (Zone.view m.order) := by
  rw [find?_eq, find?_eq, zones_view, List.filter_map]
  exact (leftmostBest_map hotter (Zone.view m.order) _).symm

theorem clearOfHot_view (s : Span) : m.view.clearOfHot (s.view m.order) = m.clearOfHot s := by
  unfold clearOfHot
  rw [hotEntries_view, List.all_map]
  rfl

theorem findUniform?_view (k : Key) :
    m.view.findUniform? (m.order.view k) =
      (m.findUniform? k).map fun r => (r.1.view m.order, r.2) := by
  unfold findUniform?
  rw [find?_view]
  cases m.find? k with
  | none => rfl
  | some z =>
      have hclear : m.view.clearOfHot (z.view m.order).span = m.clearOfHot z.span :=
        clearOfHot_view m z.span
      dsimp only [Option.map_some]
      rw [hclear]
      rfl

/-- The misplaced zones with the views of their spans. -/
def Misplaced.view (o : KeyOrder) (l : Misplaced) : Misplaced :=
  ⟨l.demote.map (Span.view o), l.promote.map (Span.view o)⟩

theorem misplaced_view : m.view.misplaced = m.misplaced.view m.order := by
  unfold misplaced Misplaced.view
  rw [zones_view, List.filter_map, List.filter_map, List.map_map, List.map_map, List.map_map,
    List.map_map]
  rfl

end

end HeatMap

end TierIndex
