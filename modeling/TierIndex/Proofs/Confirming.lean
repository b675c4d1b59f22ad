import TierIndex.Proofs.Coherence

set_option autoImplicit false

/-! # One round of moves

A flush sends a move for every misplaced zone, and the engine confirms each of them. A confirmed
tier is noted for all zones inside the confirmed span, not only for the zone that the move was made
for, so confirming the move of one zone can misplace the zones inside it. What a round cannot
disturb is a zone none of whose enclosing zones was misplaced (`Calm.confirmDue`): zones settle from
the widest to the narrowest.

There is one exception. A hot and a frozen zone with the same ends are always noted for the same
tier, and one of the two is then in the wrong one. Once a round has moved either, they stay
**locked** to each other (`Locked.confirmDue`).
-/

namespace TierIndex

/-- What has a property less often than another one that it implies. -/
theorem countP_lt_countP {α : Type} {p q : α → Bool} {l : List α} {x : α}
    (h : ∀ a ∈ l, p a = true → q a = true) (hx : x ∈ l) (hq : q x = true) (hp : ¬ p x = true) :
    l.countP p < l.countP q := by
  have hsame : l.countP p = (l.filter q).countP p := by
    rw [List.countP_filter]
    apply List.countP_congr
    intro a ha
    rw [Bool.and_eq_true]
    exact ⟨fun hpa => ⟨hpa, h a ha hpa⟩, And.left⟩
  rw [hsame, List.countP_eq_length_filter (p := q), List.countP_eq_length_filter]
  exact List.length_filter_lt_length_iff_exists.mpr ⟨x, List.mem_filter.mpr ⟨hx, hq⟩, hp⟩

theorem Span.between_of_proper {o : KeyOrder} {s : Span} (h : s.Proper o) :
    Span.between o s.lo s.hi = s :=
  if_neg (KeyOrder.not_lt.mpr h)

/-- The span `s` reaches at least as far as `t` on both sides, and further on one. -/
abbrev Span.Encloses (o : KeyOrder) (s t : Span) : Prop := s.Covers o t ∧ ¬ t.Covers o s

namespace Params

/-- The zone is at or below the freezing point. -/
abbrev Frozen (p : Params) (z : Zone) : Prop := z.heat ≤ p.freezing

/-- The zone is in the tier that its heat forbids. -/
abbrev Misplaces (p : Params) (z : Zone) : Prop :=
  (z.fast = true ∧ p.Frozen z) ∨ (z.fast = false ∧ p.Hot z)

end Params

namespace HeatMap

/-! ## What is due -/

/-- The moves that a flush sends: the ways out of the fast tier first. -/
def due (m : HeatMap) : List Move :=
  m.misplaced.demote.map (⟨·, false⟩) ++ m.misplaced.promote.map (⟨·, true⟩)

/-- The map after a move has been confirmed. -/
def confirm (m : HeatMap) (v : Move) : HeatMap := (m.setTier v.span.lo v.span.hi v.toFast).1

/-- The map after all due moves have been confirmed, in order. -/
def confirmDue (m : HeatMap) : HeatMap := m.due.foldl confirm m

section

variable {m : HeatMap}

/-- A due move takes a misplaced zone into the other tier. -/
theorem mem_due {v : Move} :
    v ∈ m.due ↔ ∃ z ∈ m.zones, m.params.Misplaces z ∧ v = ⟨z.span, !z.fast⟩ := by
  unfold due misplaced
  simp only [List.mem_append, List.mem_map, List.mem_filter, Bool.and_eq_true,
    Bool.not_eq_true', decide_eq_true_eq]
  constructor
  · rintro (⟨s, ⟨z, ⟨hz, hfast, hheat⟩, rfl⟩, rfl⟩ | ⟨s, ⟨z, ⟨hz, hslow, hheat⟩, rfl⟩, rfl⟩)
    · exact ⟨z, hz, Or.inl ⟨hfast, hheat⟩, by rw [hfast]; rfl⟩
    · exact ⟨z, hz, Or.inr ⟨hslow, hheat⟩, by rw [hslow]; rfl⟩
  · rintro ⟨z, hz, ⟨hfast, hheat⟩ | ⟨hslow, hheat⟩, rfl⟩
    · exact Or.inl ⟨z.span, ⟨z, ⟨hz, hfast, hheat⟩, rfl⟩, by rw [hfast]; rfl⟩
    · exact Or.inr ⟨z.span, ⟨z, ⟨hz, hslow, hheat⟩, rfl⟩, by rw [hslow]; rfl⟩

theorem Misplaced.eq_empty {l : Misplaced} (h : l.isEmpty = true) : l = ⟨[], []⟩ := by
  obtain ⟨demote, promote⟩ := l
  simpa [isEmpty] using h

theorem due_eq_nil : m.due = [] ↔ m.misplaced = ⟨[], []⟩ := by
  unfold due
  obtain ⟨demote, promote⟩ := m.misplaced
  simp

theorem due_eq_nil_iff : m.due = [] ↔ ∀ z ∈ m.zones, ¬ m.params.Misplaces z := by
  rw [List.eq_nil_iff_forall_not_mem]
  constructor
  · intro h z hz hmis
    exact h _ (mem_due.mpr ⟨z, hz, hmis, rfl⟩)
  · intro h v hv
    obtain ⟨z, hz, hmis, -⟩ := mem_due.mp hv
    exact h z hz hmis

theorem due_proper (h : m.Intact) {v : Move} (hv : v ∈ m.due) : v.span.Proper m.order := by
  obtain ⟨z, hz, -, rfl⟩ := mem_due.mp hv
  exact (h.sound_of_mem hz).proper

end

/-! ## Confirming zone by zone -/

/-- The zone after moves have been confirmed, one after the other. -/
def confirmZone (o : KeyOrder) (vs : List Move) (z : Zone) : Zone :=
  vs.foldl (fun z v => markTier o v.span v.toFast z) z

section

variable {o : KeyOrder} {vs : List Move} {y z : Zone} {b : Bool}

@[simp] theorem confirmZone_span (o : KeyOrder) (vs : List Move) (z : Zone) :
    (confirmZone o vs z).span = z.span := by
  induction vs generalizing z with
  | nil => rfl
  | cons v vs ih => exact (ih _).trans (markTier_span o v.span v.toFast z)

@[simp] theorem confirmZone_heat (o : KeyOrder) (vs : List Move) (z : Zone) :
    (confirmZone o vs z).heat = z.heat := by
  induction vs generalizing z with
  | nil => rfl
  | cons v vs ih => exact (ih _).trans (markTier_heat o v.span v.toFast z)

theorem markTier_fast (o : KeyOrder) (s : Span) (b : Bool) (z : Zone) :
    (markTier o s b z).fast = if s.Covers o z.span then b else z.fast := by
  unfold markTier
  split <;> rfl

/-- The tier that the last move for all of the span goes into, if there is such a move. -/
def assigned (o : KeyOrder) (vs : List Move) (s : Span) : Option Bool :=
  (vs.filter fun v => v.span.Covers o s).getLast?.map Move.toFast

theorem confirmZone_fast_eq (o : KeyOrder) (vs : List Move) (z : Zone) :
    (confirmZone o vs z).fast = (assigned o vs z.span).getD z.fast := by
  induction vs generalizing z with
  | nil => rfl
  | cons v vs ih =>
      have hrest := ih (markTier o v.span v.toFast z)
      rw [markTier_span, markTier_fast] at hrest
      refine hrest.trans ?_
      unfold assigned
      by_cases hv : v.span.Covers o z.span
      · rw [if_pos hv, List.filter_cons, if_pos (decide_eq_true hv), List.getLast?_cons]
        cases (vs.filter fun v => v.span.Covers o z.span).getLast? <;> rfl
      · rw [if_neg hv, List.filter_cons, if_neg (mt of_decide_eq_true hv)]

theorem assigned_eq_some {s : Span} (h : assigned o vs s = some b) :
    ∃ v ∈ vs, v.span.Covers o s ∧ v.toFast = b := by
  obtain ⟨v, hv, hb⟩ := Option.map_eq_some_iff.mp h
  obtain ⟨hmem, hcov⟩ := List.mem_filter.mp (List.mem_of_getLast? hv)
  exact ⟨v, hmem, of_decide_eq_true hcov, hb⟩

theorem assigned_ne_none {s : Span} (h : ∃ v ∈ vs, v.span.Covers o s) : assigned o vs s ≠ none := by
  obtain ⟨v, hv, hcov⟩ := h
  intro hnone
  have hnil := List.getLast?_eq_none_iff.mp (Option.map_eq_none_iff.mp hnone)
  exact List.filter_eq_nil_iff.mp hnil v hv (decide_eq_true hcov)

/-- If all moves for a zone go into the same tier, it is left there. -/
theorem confirmZone_fast (hall : ∀ v ∈ vs, v.span.Covers o z.span → v.toFast = b)
    (hsome : z.fast = b ∨ ∃ v ∈ vs, v.span.Covers o z.span) : (confirmZone o vs z).fast = b := by
  rw [confirmZone_fast_eq]
  cases hlast : assigned o vs z.span with
  | none => exact hsome.resolve_right fun h => assigned_ne_none h hlast
  | some c =>
      obtain ⟨v, hv, hcov, rfl⟩ := assigned_eq_some hlast
      exact hall v hv hcov

/-- Zones with the same ends are left in the same tier, as soon as there is a move for them. -/
theorem confirmZone_agree (hs : y.span.Same o z.span) (hsome : ∃ v ∈ vs, v.span.Covers o z.span) :
    (confirmZone o vs y).fast = (confirmZone o vs z).fast := by
  have hsame : assigned o vs y.span = assigned o vs z.span := by
    obtain ⟨hyz, hzy⟩ := Span.same_iff_covers.mp hs
    unfold assigned
    congr 2
    apply List.filter_congr
    intro v _
    exact decide_eq_decide.mpr ⟨fun h => h.trans hyz, fun h => h.trans hzy⟩
  rw [confirmZone_fast_eq, confirmZone_fast_eq, hsame]
  cases hlast : assigned o vs z.span with
  | none => exact absurd hlast (assigned_ne_none hsome)
  | some b => rfl

end

/-! ## Confirming a whole map -/

section

variable {m : HeatMap} {vs : List Move}

theorem confirm_zones {v : Move} (hv : v.span.Proper m.order) :
    (m.confirm v).zones = m.zones.map (markTier m.order v.span v.toFast) := by
  have hslots := setTier_slots m v.span.lo v.span.hi v.toFast
  rw [Span.between_of_proper hv] at hslots
  rw [confirm, zones_of_slots hslots, List.filterMap_eq_map]

theorem confirmAll_params (m : HeatMap) (vs : List Move) :
    (vs.foldl confirm m).params = m.params := by
  induction vs generalizing m with
  | nil => rfl
  | cons v vs ih => exact ih (m.confirm v)

theorem confirmAll_zones (hvs : ∀ v ∈ vs, v.span.Proper m.order) :
    (vs.foldl confirm m).zones = m.zones.map (confirmZone m.order vs) := by
  induction vs generalizing m with
  | nil => exact (List.map_id _).symm
  | cons v vs ih =>
      have hv := confirm_zones (m := m) (hvs v List.mem_cons_self)
      have hrest := ih (m := m.confirm v) fun w hw => hvs w (List.mem_cons_of_mem v hw)
      rw [List.foldl_cons, hrest, hv, List.map_map]
      rfl

theorem Intact.confirmAll (h : m.Intact) (vs : List Move) : (vs.foldl confirm m).Intact := by
  induction vs generalizing m with
  | nil => exact h
  | cons v vs ih => exact ih (h.setTier v.span.lo v.span.hi v.toFast)

@[simp] theorem confirmDue_params (m : HeatMap) : m.confirmDue.params = m.params :=
  confirmAll_params m m.due

theorem Intact.confirmDue (h : m.Intact) : m.confirmDue.Intact := h.confirmAll m.due

theorem confirmDue_zones (h : m.Intact) :
    m.confirmDue.zones = m.zones.map (confirmZone m.order m.due) :=
  confirmAll_zones fun _ hv => due_proper h hv

/-- A round with nothing due changes nothing. -/
theorem confirmDue_of_nil (h : m.due = []) : m.confirmDue = m := by
  rw [HeatMap.confirmDue, h]
  rfl

end

/-! ## From the widest zones to the narrowest -/

/-- The number of the zones that enclose the span. -/
def depth (m : HeatMap) (s : Span) : Nat := m.zones.countP fun z => z.span.Encloses m.order s

/-- No zone with fewer than `n` zones around it is misplaced. -/
def Calm (m : HeatMap) (n : Nat) : Prop :=
  ∀ z ∈ m.zones, m.depth z.span < n → ¬ m.params.Misplaces z

/-- A hot zone and a frozen one with the same ends. -/
structure Twins (m : HeatMap) (y z : Zone) : Prop where
  hot_mem : y ∈ m.zones
  frozen_mem : z ∈ m.zones
  hot : m.params.Hot y
  frozen : m.params.Frozen z
  same : y.span.Same m.order z.span

/-- Two twins, one of which is misplaced. -/
def Locked (m : HeatMap) : Prop := ∃ y z, m.Twins y z ∧ (y.fast = false ∨ z.fast = true)

section

variable {m : HeatMap} {z : Zone} {n : Nat}

/-- What is enclosed lies deeper. -/
theorem depth_lt {s : Span} (hz : z ∈ m.zones) (h : z.span.Encloses m.order s) :
    m.depth z.span < m.depth s := by
  refine countP_lt_countP (x := z) (fun y _ hy => ?_) hz (decide_eq_true h) ?_
  · obtain ⟨hcov, hnot⟩ := of_decide_eq_true hy
    exact decide_eq_true ⟨hcov.trans h.1, fun hback => hnot (h.1.trans hback)⟩
  · intro hself
    exact (of_decide_eq_true hself).2 (Span.covers_refl m.order z.span)

theorem depth_lt_length (hz : z ∈ m.zones) : m.depth z.span < m.zones.length := by
  rw [depth, List.countP_eq_length_filter]
  refine List.length_filter_lt_length_iff_exists.mpr ⟨z, hz, fun hself => ?_⟩
  exact (of_decide_eq_true hself).2 (Span.covers_refl m.order z.span)

theorem depth_confirmDue (h : m.Intact) (s : Span) : m.confirmDue.depth s = m.depth s := by
  unfold depth
  rw [confirmDue_zones h, List.countP_map]
  apply List.countP_congr
  intro z _
  simp [HeatMap.order]

/-- A due move that concerns a zone without zones around it that are misplaced was made for a zone
with the same ends. -/
theorem Calm.exists_same (hcalm : m.Calm n) (hn : m.depth z.span ≤ n) {v : Move} (hv : v ∈ m.due)
    (hcov : v.span.Covers m.order z.span) :
    ∃ y ∈ m.zones, m.params.Misplaces y ∧ v.toFast = !y.fast ∧ y.span.Same m.order z.span := by
  obtain ⟨y, hy, hmis, rfl⟩ := mem_due.mp hv
  refine ⟨y, hy, hmis, rfl, Span.same_iff_covers.mpr ⟨hcov, ?_⟩⟩
  by_cases hback : z.span.Covers m.order y.span
  · exact hback
  · -- `y` encloses `z`, so it is one of the zones that are settled
    have hlt : m.depth y.span < m.depth z.span := depth_lt hy ⟨hcov, hback⟩
    exact absurd hmis (hcalm y hy (Nat.lt_of_lt_of_le hlt hn))

/-- **A round settles one more layer.** If no zone with fewer than `n` zones around it is misplaced
and no twins are locked, a round leaves no zone with `n` zones around it misplaced either. -/
theorem Calm.confirmDue (hcalm : m.Calm n) (h : m.Intact) (hfree : ¬ m.Locked) :
    m.confirmDue.Calm (n + 1) := by
  intro z' hz' hdepth
  rw [confirmDue_zones h] at hz'
  obtain ⟨z, hz, rfl⟩ := List.mem_map.mp hz'
  rw [confirmZone_span, depth_confirmDue h] at hdepth
  have hsame : ∀ v ∈ m.due, v.span.Covers m.order z.span → _ := fun v hv hcov =>
    hcalm.exists_same (Nat.le_of_lt_succ hdepth) hv hcov
  -- the zone's own move, if it is misplaced, concerns the zone itself
  have hown : m.params.Misplaces z → ∃ v ∈ m.due, v.span.Covers m.order z.span := fun hmis =>
    ⟨⟨z.span, !z.fast⟩, mem_due.mpr ⟨z, hz, hmis, rfl⟩, Span.covers_refl m.order z.span⟩
  simp only [Params.Misplaces, confirmDue_params, Params.Frozen, Params.Hot, confirmZone_heat]
  rintro (⟨hfast, hfrozen⟩ | ⟨hslow, hhot⟩)
  · -- every move that concerns a frozen zone goes out of the fast tier
    have hout : (confirmZone m.order m.due z).fast = false := by
      refine confirmZone_fast (fun v hv hcov => ?_) ?_
      · obtain ⟨y, hy, ⟨hyfast, -⟩ | ⟨hyslow, hyhot⟩, hto, hyz⟩ := hsame v hv hcov
        · rw [hto, hyfast]
          rfl
        · exact absurd ⟨y, z, ⟨hy, hz, hyhot, hfrozen, hyz⟩, Or.inl hyslow⟩ hfree
      · cases hzfast : z.fast with
        | false => exact Or.inl rfl
        | true => exact Or.inr (hown (Or.inl ⟨hzfast, hfrozen⟩))
    rw [hout] at hfast
    cases hfast
  · -- and every move that concerns a hot zone goes into it
    have hin : (confirmZone m.order m.due z).fast = true := by
      refine confirmZone_fast (fun v hv hcov => ?_) ?_
      · obtain ⟨y, hy, ⟨hyfast, hyfrozen⟩ | ⟨hyslow, -⟩, hto, hyz⟩ := hsame v hv hcov
        · have hzy : z.span.Same m.order y.span := ⟨hyz.1.symm, hyz.2.symm⟩
          exact absurd ⟨z, y, ⟨hz, hy, hhot, hyfrozen, hzy⟩, Or.inr hyfast⟩ hfree
        · rw [hto, hyslow]
          rfl
      · cases hzfast : z.fast with
        | true => exact Or.inl rfl
        | false => exact Or.inr (hown (Or.inr ⟨hzfast, hhot⟩))
    rw [hin] at hslow
    cases hslow

/-! ## Twins -/

/-- Rounds neither make twins nor part them. -/
theorem twins_confirmDue (h : m.Intact) {y' z' : Zone} (ht : m.confirmDue.Twins y' z') :
    ∃ y z, m.Twins y z := by
  obtain ⟨hy', hz', hhot, hfrozen, hsame⟩ := ht
  rw [confirmDue_zones h] at hy' hz'
  obtain ⟨y, hy, rfl⟩ := List.mem_map.mp hy'
  obtain ⟨z, hz, rfl⟩ := List.mem_map.mp hz'
  simp only [Params.Frozen, Params.Hot, HeatMap.order, confirmDue_params, confirmZone_heat,
    confirmZone_span] at hhot hfrozen hsame
  exact ⟨y, z, hy, hz, hhot, hfrozen, hsame⟩

theorem Twins.confirmDue (h : m.Intact) {y z : Zone} (ht : m.Twins y z) :
    m.confirmDue.Twins (confirmZone m.order m.due y) (confirmZone m.order m.due z) := by
  have hzones := confirmDue_zones h
  refine ⟨?_, ?_, ?_, ?_, ?_⟩
  · rw [hzones]
    exact List.mem_map_of_mem ht.hot_mem
  · rw [hzones]
    exact List.mem_map_of_mem ht.frozen_mem
  · simpa using ht.hot
  · simpa using ht.frozen
  · simpa [HeatMap.order] using ht.same

/-- **Locked twins stay locked.** -/
theorem Locked.confirmDue (hl : m.Locked) (h : m.Intact) : m.confirmDue.Locked := by
  obtain ⟨y, z, ht, hmis⟩ := hl
  -- the move of either twin concerns both, so they are left in the same tier
  have hmove : ∃ v ∈ m.due, v.span.Covers m.order z.span := by
    rcases hmis with hyslow | hzfast
    · exact ⟨⟨y.span, !y.fast⟩, mem_due.mpr ⟨y, ht.hot_mem, Or.inr ⟨hyslow, ht.hot⟩, rfl⟩,
        (Span.same_iff_covers.mp ht.same).1⟩
    · exact ⟨⟨z.span, !z.fast⟩, mem_due.mpr ⟨z, ht.frozen_mem, Or.inl ⟨hzfast, ht.frozen⟩, rfl⟩,
        Span.covers_refl m.order z.span⟩
  have hagree := confirmZone_agree ht.same hmove
  refine ⟨_, _, ht.confirmDue h, ?_⟩
  rw [hagree]
  exact (Bool.eq_false_or_eq_true _).symm

/-- While twins are locked, something is misplaced. -/
theorem Locked.misplaced_isEmpty (hl : m.Locked) : m.misplaced.isEmpty = false := by
  have hdue : m.due ≠ [] := by
    obtain ⟨y, z, ht, hyslow | hzfast⟩ := hl
    · exact fun hnil => due_eq_nil_iff.mp hnil y ht.hot_mem (Or.inr ⟨hyslow, ht.hot⟩)
    · exact fun hnil => due_eq_nil_iff.mp hnil z ht.frozen_mem (Or.inl ⟨hzfast, ht.frozen⟩)
  cases hempty : m.misplaced.isEmpty with
  | false => rfl
  | true => exact absurd (due_eq_nil.mpr (Misplaced.eq_empty hempty)) hdue

end

end HeatMap

end TierIndex
