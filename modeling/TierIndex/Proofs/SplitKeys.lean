import TierIndex.Proofs.Settle

set_option autoImplicit false

/-! # A split, key by key

Within the target, a zone with a single rival is split against it. What that makes of the two zones
is said here from the keys' side, in whatever way the two may lie (`settle_pair`): the pieces hold
the keys of the two zones and no others, and over every key the hottest piece has exactly the heat
that the two zones give it together. The shared piece is in the fast tier when both zones are. A
remainder is a proper part of one of the two zones outside the other, and keeps its heat and tier.

A remainder collapses where the zones have the same start or the same end, so the map gains one
zone, less the number of ends that the two have in common.
-/

namespace TierIndex

variable {o : KeyOrder} {a b z : Zone} {k : Key}

/-! ## The heat over a key -/

/-- The heat that two zones give together to a key that lies in one of them. -/
def jointHeat (o : KeyOrder) (a b : Zone) (k : Key) : Int :=
  if a.span.Holds o k ∧ b.span.Holds o k then min maxHeat (a.heat + b.heat)
  else if a.span.Holds o k then a.heat
  else b.heat

theorem CutFrom.heat_eq_joint (hz : CutFrom o a b z) (hk : z.span.Holds o k)
    (hb : ¬ b.span.Holds o k) : z.heat = jointHeat o a b k := by
  have ha : a.span.Holds o k := hz.covers.holds hk
  rw [hz.heat_eq, jointHeat, if_neg (fun h => hb h.2), if_pos ha]

theorem jointHeat_comm (h : a.span.Holds o k ∨ b.span.Holds o k) :
    jointHeat o a b k = jointHeat o b a k := by
  unfold jointHeat
  by_cases ha : a.span.Holds o k
  · by_cases hb : b.span.Holds o k
    · rw [if_pos ⟨ha, hb⟩, if_pos ⟨hb, ha⟩, Int.add_comm]
    · rw [if_neg (fun h => hb h.2), if_pos ha, if_neg (fun h => hb h.1), if_neg hb]
  · have hb : b.span.Holds o k := h.resolve_left ha
    rw [if_neg (fun h => ha h.1), if_neg ha, if_neg (fun h => ha h.2), if_pos hb]

/-- Over a key of one of the zones only, every piece has the heat of that zone. -/
theorem heat_of_holds (h : a.span.Meets o b.span) (hz : (pieces o a b).Has z)
    (hk : z.span.Holds o k) (hone : ¬ (a.span.Holds o k ∧ b.span.Holds o k)) :
    z.heat = jointHeat o a b k := by
  have hcut : CutFrom o a b z ∨ CutFrom o b a z → z.heat = jointHeat o a b k := by
    rintro (hc | hc)
    · exact hc.heat_eq_joint hk fun hb => hone ⟨hc.covers.holds hk, hb⟩
    · rw [jointHeat_comm (Or.inr (hc.covers.holds hk))]
      exact hc.heat_eq_joint hk fun ha => hone ⟨ha, hc.covers.holds hk⟩
  rcases hz with rfl | rfl | rfl
  · exact hcut (head_cut h)
  · exact absurd (holds_shared_iff.mp hk) hone
  · exact hcut (tail_cut h)

/-- No piece is hotter over a key than the two zones together. -/
theorem heat_le_joint (ha : a.Sound o) (hb : b.Sound o) (h : a.span.Meets o b.span)
    (hz : (pieces o a b).Has z) (hk : z.span.Holds o k) : z.heat ≤ jointHeat o a b k := by
  by_cases hboth : a.span.Holds o k ∧ b.span.Holds o k
  · have hposa := ha.heat_pos
    have hposb := hb.heat_pos
    have hlea := ha.heat_le
    have hleb := hb.heat_le
    rw [jointHeat, if_pos hboth]
    -- each heat is positive and within the limit, so pooling lowers neither
    rcases heat_of_has hz with heq | heq | heq
    · omega
    · omega
    · exact Int.le_of_eq heq
  · exact Int.le_of_eq (heat_of_holds h hz hk hboth)

/-! ## Which remainders collapse -/

theorem head_point_iff :
    o.Same (pieces o a b).head.span.lo (pieces o a b).head.span.hi ↔
      o.Same a.span.lo b.span.lo := by
  unfold pieces
  by_cases h : o.Le a.span.lo b.span.lo
  · rw [if_pos h]
  · rw [if_neg h]
    exact eq_comm

theorem tail_point_iff :
    o.Same (pieces o a b).tail.span.lo (pieces o a b).tail.span.hi ↔
      o.Same a.span.hi b.span.hi := by
  unfold pieces
  by_cases h : o.Le a.span.hi b.span.hi
  · rw [if_pos h]
  · rw [if_neg h]
    exact eq_comm

theorem solid_isNone : (solid o z).isNone = decide (o.Same z.span.lo z.span.hi) := by
  unfold solid
  split
  · next hpoint => exact (decide_eq_true hpoint).symm
  · next hpoint => exact (decide_eq_false hpoint).symm

namespace HeatMap

/-! ## A split as a whole -/

/-- The zone in slot `l` of `m'` is a piece of the zones that slots `i` and `j` of `m` held: it
stands in one of these two or in the slot that was the lowest free one. -/
def PieceOf (m m' : HeatMap) (i j l : Nat) (z : Zone) : Prop :=
  (l = i ∨ l = j ∨ l = m.freshSlot) ∧ m'.at? l = some z

/-- How many of the slots `i` and `j` are left without a remainder. -/
def collapsed (m : HeatMap) (i j : Nat) : Nat := [i, j].countP fun l => (m.at? l).isNone

/-- The map `m'` is `m` with the zones `a` of slot `i` and `b` of slot `j` split exactly. -/
structure SplitExactly (m : HeatMap) (i : Nat) (a : Zone) (j : Nat) (b : Zone) (m' : HeatMap) :
    Prop where
  params : m'.params = m.params
  /-- The pieces hold the keys of the two zones. -/
  holds : ∀ k, (∃ l z, m.PieceOf m' i j l z ∧ z.span.Holds m.order k) ↔
    a.span.Holds m.order k ∨ b.span.Holds m.order k
  /-- The hottest piece over a key has the heat that the two zones give it together. -/
  heat : ∀ k, a.span.Holds m.order k ∨ b.span.Holds m.order k →
    ∃ l z, m.PieceOf m' i j l z ∧ z.span.Holds m.order k ∧ z.heat = jointHeat m.order a b k ∧
      ∀ l' z', m.PieceOf m' i j l' z' → z'.span.Holds m.order k → z'.heat ≤ z.heat
  /-- The shared piece holds the keys in both zones, and is in the fast tier if both are. -/
  shared : m.at? m.freshSlot = none ∧ ∃ c, m'.at? m.freshSlot = some c ∧
    (∀ k, c.span.Holds m.order k ↔ a.span.Holds m.order k ∧ b.span.Holds m.order k) ∧
    c.fast = (a.fast && b.fast)
  /-- A remainder is cut off one of the zones outside the other, and is more than one key. -/
  remainder : ∀ l z, l = i ∨ l = j → m'.at? l = some z →
    (CutFrom m.order a b z ∨ CutFrom m.order b a z) ∧ m.order.Lt z.span.lo z.span.hi
  /-- Two pieces share at most a boundary key. -/
  apart : ∀ l l' z z', m.PieceOf m' i j l z → m.PieceOf m' i j l' z' → l ≠ l' →
    z.span.Apart m.order z'.span
  others : ∀ l, l ≠ i → l ≠ j → l ≠ m.freshSlot → m'.at? l = m.at? l
  /-- One zone more, less the collapsed remainders. -/
  live : m'.live + m'.collapsed i j = m.live + 1
  /-- One remainder collapses for each end that the zones have in common. -/
  collapse : m'.collapsed i j =
    (if m.order.Same a.span.lo b.span.lo then 1 else 0) +
      (if m.order.Same a.span.hi b.span.hi then 1 else 0)

variable {m m' : HeatMap} {i j l p q : Nat}

/-! ## The pieces and their slots -/

theorem splitAt_piece (hij : i ≠ j) (ha : m.at? i = some a) (hb : m.at? j = some b)
    (hpq : splitSlots m.order i a j b = (p, q)) (hz : m.PieceOf (m.splitAt i a j b) i j l z) :
    (pieces m.order a b).At p m.freshSlot q l z := by
  obtain ⟨hl, hat⟩ := hz
  rcases at?_splitAt_cases hij ha hb hpq hat with hpiece | ⟨hli, hlj, hold⟩
  · exact hpiece
  · -- a third slot with an old zone is not the one that was free
    have hfresh : l = m.freshSlot := (hl.resolve_left hli).resolve_left hlj
    rw [hfresh, at?_freshSlot] at hold
    cases hold

theorem pieceOf_of_at (hpq : splitSlots m.order i a j b = (p, q)) {c : Pieces}
    (hc : c.At p m.freshSlot q l z) (hz : m'.at? l = some z) : m.PieceOf m' i j l z := by
  refine ⟨?_, hz⟩
  rcases splitSlots_cases hpq with ⟨rfl, rfl⟩ | ⟨rfl, rfl⟩ <;>
    rcases hc with ⟨rfl, -⟩ | ⟨rfl, -⟩ | ⟨rfl, -⟩ <;> simp

/-- What a split leaves in one of the two slots is head or tail, unless that is a single key. -/
theorem at?_splitAt_remainder (hij : i ≠ j) (ha : m.at? i = some a) (hb : m.at? j = some b)
    (hl : l = i ∨ l = j) (hz : (m.splitAt i a j b).at? l = some z) :
    (z = (pieces m.order a b).head ∨ z = (pieces m.order a b).tail) ∧
      m.order.Lt z.span.lo z.span.hi := by
  obtain ⟨p, q, x, y, hpq, hne, hp, hq⟩ := exists_splitSlots hij ha hb
  have hlpq : l = p ∨ l = q := by
    rcases splitSlots_cases hpq with ⟨rfl, rfl⟩ | ⟨rfl, rfl⟩
    · exact hl
    · exact hl.symm
  rw [at?_splitAt hne hp hq hpq] at hz
  rcases hlpq with rfl | rfl
  · rw [if_pos rfl] at hz
    obtain ⟨hpoint, rfl⟩ := solid_eq_some.mp hz
    exact ⟨Or.inl rfl, KeyOrder.lt_of_le_of_not_same head_proper hpoint⟩
  · rw [if_neg (Ne.symm hne), if_pos rfl] at hz
    obtain ⟨hpoint, rfl⟩ := solid_eq_some.mp hz
    exact ⟨Or.inr rfl, KeyOrder.lt_of_le_of_not_same tail_proper hpoint⟩

/-! ## The number of zones -/

theorem dropPoint_live (hpos : 0 < m.live) (i : Nat) (z : Zone) :
    (m.dropPoint i z).live + (if m.order.Same z.span.lo z.span.hi then 1 else 0) = m.live := by
  unfold dropPoint
  split
  · exact Nat.sub_add_cancel hpos
  · rfl

theorem insert_live (m : HeatMap) (z : Zone) : (m.insert z).live = m.live + 1 := by
  unfold insert place
  split <;> rfl

theorem splitAt_live (hpos : 0 < m.live) :
    (m.splitAt i a j b).live +
        ((if m.order.Same a.span.lo b.span.lo then 1 else 0) +
          (if m.order.Same a.span.hi b.span.hi then 1 else 0)) = m.live + 1 := by
  obtain ⟨p, q, hpq⟩ : ∃ p q, splitSlots m.order i a j b = (p, q) := ⟨_, _, rfl⟩
  have hlive : (m.withPieces p q (pieces m.order a b)).live = m.live + 1 := insert_live _ _
  have horder : (m.withPieces p q (pieces m.order a b)).order = m.order := by
    simp [withPieces, insert, HeatMap.order]
  have hdropped : ((m.withPieces p q (pieces m.order a b)).dropPoint p
      (pieces m.order a b).head).order = m.order := by
    rw [HeatMap.order, dropPoint_params]
    exact horder
  have hhead := dropPoint_live (m := m.withPieces p q (pieces m.order a b)) (by omega) p
    (pieces m.order a b).head
  simp only [horder, head_point_iff] at hhead
  have htail := dropPoint_live
    (m := (m.withPieces p q (pieces m.order a b)).dropPoint p (pieces m.order a b).head)
    (by split at hhead <;> omega) q (pieces m.order a b).tail
  simp only [hdropped, tail_point_iff] at htail
  rw [splitAt_eq hpq]
  omega

theorem collapsed_splitAt (hij : i ≠ j) (ha : m.at? i = some a) (hb : m.at? j = some b) :
    (m.splitAt i a j b).collapsed i j =
      (if m.order.Same a.span.lo b.span.lo then 1 else 0) +
        (if m.order.Same a.span.hi b.span.hi then 1 else 0) := by
  obtain ⟨p, q, x, y, hpq, hne, hp, hq⟩ := exists_splitSlots hij ha hb
  have hat := at?_splitAt hne hp hq hpq
  have hslots : (m.splitAt i a j b).collapsed i j = (m.splitAt i a j b).collapsed p q := by
    rcases splitSlots_cases hpq with ⟨rfl, rfl⟩ | ⟨rfl, rfl⟩
    · rfl
    · exact (List.Perm.swap _ _ _).countP_eq _
  rw [hslots, collapsed, List.countP_cons, List.countP_singleton, hat, hat, if_pos rfl,
    if_neg (Ne.symm hne), if_pos rfl, solid_isNone, solid_isNone, Nat.add_comm]
  simp only [decide_eq_true_eq, head_point_iff, tail_point_iff]

/-! ## The whole split -/

theorem exists_pieceOf_holds (h : m.Intact) (hij : i ≠ j) (ha : m.at? i = some a)
    (hb : m.at? j = some b) (hmeets : a.span.Meets m.order b.span)
    (hk : a.span.Holds m.order k ∨ b.span.Holds m.order k) :
    ∃ l z, m.PieceOf (m.splitAt i a j b) i j l z ∧ z.span.Holds m.order k := by
  obtain ⟨p, q, hpq⟩ : ∃ p q, splitSlots m.order i a j b = (p, q) := ⟨_, _, rfl⟩
  obtain ⟨l, z, hz, hpiece, hkz⟩ := exists_piece_holds h hij ha hb hmeets hpq hk
  exact ⟨l, z, pieceOf_of_at hpq hpiece hz, hkz⟩

/-- Some piece over a key is as hot as the two zones together. -/
theorem exists_pieceOf_joint (h : m.Intact) (hij : i ≠ j) (ha : m.at? i = some a)
    (hb : m.at? j = some b) (hmeets : a.span.Meets m.order b.span)
    (hk : a.span.Holds m.order k ∨ b.span.Holds m.order k) :
    ∃ l z, m.PieceOf (m.splitAt i a j b) i j l z ∧ z.span.Holds m.order k ∧
      z.heat = jointHeat m.order a b k := by
  by_cases hboth : a.span.Holds m.order k ∧ b.span.Holds m.order k
  · -- it is the shared piece, which never collapses
    refine ⟨m.freshSlot, _, ⟨Or.inr (Or.inr rfl), at?_splitAt_freshSlot hij ha hb⟩,
      holds_shared_iff.mpr hboth, ?_⟩
    rw [jointHeat, if_pos hboth]
    rfl
  · obtain ⟨l, z, hz, hkz⟩ := exists_pieceOf_holds h hij ha hb hmeets hk
    have hpiece := splitAt_piece hij ha hb rfl hz
    exact ⟨l, z, hz, hkz, heat_of_holds hmeets hpiece.has hkz hboth⟩

theorem splitAt_exactly (h : m.Intact) (hij : i ≠ j) (ha : m.at? i = some a)
    (hb : m.at? j = some b) (hmeets : a.span.Meets m.order b.span) :
    m.SplitExactly i a j b (m.splitAt i a j b) where
  params := splitAt_params m i a j b
  holds k := by
    constructor
    · rintro ⟨l, z, hz, hkz⟩
      have hpiece := splitAt_piece hij ha hb rfl hz
      exact (holds_pieces (h.sound i a ha).proper (h.sound j b hb).proper hmeets).mp
        ⟨z, hpiece.has, hkz⟩
    · exact exists_pieceOf_holds h hij ha hb hmeets
  heat k hk := by
    obtain ⟨l, z, hz, hkz, hjoint⟩ := exists_pieceOf_joint h hij ha hb hmeets hk
    refine ⟨l, z, hz, hkz, hjoint, ?_⟩
    intro l' z' hz' hkz'
    have hpiece := splitAt_piece hij ha hb rfl hz'
    rw [hjoint]
    exact heat_le_joint (h.sound i a ha) (h.sound j b hb) hmeets hpiece.has hkz'
  shared :=
    ⟨at?_freshSlot m, _, at?_splitAt_freshSlot hij ha hb, fun _ => holds_shared_iff, rfl⟩
  remainder l z hl hz := by
    obtain ⟨rfl | rfl, hlt⟩ := at?_splitAt_remainder hij ha hb hl hz
    · exact ⟨head_cut hmeets, hlt⟩
    · exact ⟨tail_cut hmeets, hlt⟩
  apart l l' z z' hz hz' hne :=
    apart_of_at (h.sound i a ha).proper (h.sound j b hb).proper hmeets
      (splitAt_piece hij ha hb rfl hz) (splitAt_piece hij ha hb rfl hz') hne
  others l hi hj hl := at?_splitAt_other hij ha hb hi hj hl
  live := by
    rw [collapsed_splitAt hij ha hb]
    exact splitAt_live (h.live_pos ha)
  collapse := collapsed_splitAt hij ha hb

/-! ## Settling a zone with a single rival -/

theorem rivals_eq_singleton (hij : i ≠ j) (hb : m.at? j = some b) (hotb : m.params.Hot b)
    (hmeets : a.span.Meets m.order b.span)
    (honly : ∀ l z, m.at? l = some z → m.params.Hot z → l ≠ i → z.span.Meets m.order a.span →
      l = j) : m.rivals i a = [(j, b)] := by
  have hnodup : (m.rivals i a).Nodup :=
    nodup_of_rising (((m.entries_pairwise.filter _).filter _).filter _)
  refine List.perm_singleton.mp ((List.perm_ext_iff_of_nodup hnodup (List.pairwise_singleton _ _)).mpr ?_)
  rintro ⟨l, z⟩
  rw [mem_rivals, List.mem_singleton, Prod.mk.injEq]
  constructor
  · rintro ⟨⟨hz, hotz, hli⟩, hmeetsz⟩
    have hlj : l = j := honly l z hz hotz hli hmeetsz
    rw [hlj] at hz
    exact ⟨hlj, Option.some.inj (hz.symm.trans hb)⟩
  · rintro ⟨rfl, rfl⟩
    exact ⟨⟨hb, hotb, Ne.symm hij⟩, Span.meets_comm.mp hmeets⟩

/-- **A split is exact, key by key.** Within the target, a zone whose only hot neighbour is `b` is
split against it, however the two lie. -/
theorem settle_pair (h : m.Intact) (hlive : m.live ≤ m.params.target) (hij : i ≠ j)
    (ha : m.at? i = some a) (hb : m.at? j = some b) (hotb : m.params.Hot b)
    (hmeets : a.span.Meets m.order b.span)
    (honly : ∀ l z, m.at? l = some z → m.params.Hot z → l ≠ i → z.span.Meets m.order a.span →
      l = j) : m.SplitExactly i a j b (m.settle i) := by
  have hsettle : m.settle i = m.splitAt i a j b := by
    rw [settle, ha]
    dsimp only
    rw [rivals_eq_singleton hij hb hotb hmeets honly]
    exact if_pos hlive
  rw [hsettle]
  exact splitAt_exactly h hij ha hb hmeets

/-- Two zones start together, and the rival touches a third hot zone. The head collapses and its
slot is freed, the shared piece takes the fourth slot, and the count of zones stays three. -/
theorem settle_pair_same_start :
    let p : Params := ⟨.bytewise, 4, 10, 3, .lowest, by decide, by decide, by decide, by decide⟩
    let a : Zone := ⟨⟨[1], [5]⟩, 20, false⟩
    let b : Zone := ⟨⟨[1], [9]⟩, 240, true⟩
    let m := ofZones p [a, ⟨⟨[9], [12]⟩, 40, true⟩, b]
    (m.settle 0).slots = [none, some ⟨⟨[9], [12]⟩, 40, true⟩, some ⟨⟨[5], [9]⟩, 240, true⟩,
        some ⟨⟨[1], [5]⟩, 250, false⟩] ∧
      (m.settle 0).live = 3 ∧ m.SplitExactly 0 a 2 b (m.settle 0) := by
  intro p a b m
  have hintact : m.Intact := ofZones_intact (by decide)
  have honly : ∀ e ∈ m.entries, m.params.Hot e.2 → e.1 ≠ 0 → e.2.span.Meets m.order a.span →
      e.1 = 2 := by decide
  refine ⟨by decide, by decide, ?_⟩
  exact settle_pair hintact (by decide) (by decide) rfl rfl (by decide) (by decide)
    fun l z hz => honly (l, z) (mem_entries.mpr hz)

end HeatMap

end TierIndex
