import TierIndex.Proofs.Intact

set_option autoImplicit false

/-! # What a split makes of two hot zones

A split cuts two zones that meet at the later of their starts and at the earlier of their
ends. All four ways in which the zones can lie are treated at once: the four ends of the
pieces are the minimum and the maximum of the two starts and of the two ends
(`head_lo_le_iff` and the three after it), and from there on the pieces are only compared.
-/

namespace TierIndex

variable {o : KeyOrder} {a b : Zone}

/-! ## The ends of the pieces -/

theorem head_lo_le_iff {k : Key} :
    o.Le (pieces o a b).head.span.lo k ↔ o.Le a.span.lo k ∨ o.Le b.span.lo k := by
  unfold pieces
  by_cases h : o.Le a.span.lo b.span.lo
  · rw [if_pos h]
    exact ⟨Or.inl, fun hk => hk.elim id (KeyOrder.le_trans h)⟩
  · rw [if_neg h]
    have hba := KeyOrder.le_of_lt (KeyOrder.not_le.mp h)
    exact ⟨Or.inr, fun hk => hk.elim (KeyOrder.le_trans hba) id⟩

theorem shared_lo_le_iff {k : Key} :
    o.Le (pieces o a b).shared.span.lo k ↔ o.Le a.span.lo k ∧ o.Le b.span.lo k := by
  unfold pieces
  by_cases h : o.Le a.span.lo b.span.lo
  · rw [if_pos h]
    exact ⟨fun hk => ⟨KeyOrder.le_trans h hk, hk⟩, And.right⟩
  · rw [if_neg h]
    have hba := KeyOrder.le_of_lt (KeyOrder.not_le.mp h)
    exact ⟨fun hk => ⟨hk, KeyOrder.le_trans hba hk⟩, And.left⟩

theorem le_shared_hi_iff {k : Key} :
    o.Le k (pieces o a b).shared.span.hi ↔ o.Le k a.span.hi ∧ o.Le k b.span.hi := by
  unfold pieces
  by_cases h : o.Le a.span.hi b.span.hi
  · rw [if_pos h]
    exact ⟨fun hk => ⟨hk, KeyOrder.le_trans hk h⟩, And.left⟩
  · rw [if_neg h]
    have hba := KeyOrder.le_of_lt (KeyOrder.not_le.mp h)
    exact ⟨fun hk => ⟨KeyOrder.le_trans hk hba, hk⟩, And.right⟩

theorem le_tail_hi_iff {k : Key} :
    o.Le k (pieces o a b).tail.span.hi ↔ o.Le k a.span.hi ∨ o.Le k b.span.hi := by
  unfold pieces
  by_cases h : o.Le a.span.hi b.span.hi
  · rw [if_pos h]
    exact ⟨Or.inr, fun hk => hk.elim (KeyOrder.le_trans · h) id⟩
  · rw [if_neg h]
    have hba := KeyOrder.le_of_lt (KeyOrder.not_le.mp h)
    exact ⟨Or.inl, fun hk => hk.elim id (KeyOrder.le_trans · hba)⟩

theorem head_proper : (pieces o a b).head.span.Proper o := by
  have h := shared_lo_le_iff.mp (o.le_refl (pieces o a b).shared.span.lo)
  exact head_lo_le_iff.mpr (Or.inl h.1)

theorem tail_proper : (pieces o a b).tail.span.Proper o := by
  have h := le_shared_hi_iff.mp (o.le_refl (pieces o a b).shared.span.hi)
  exact le_tail_hi_iff.mpr (Or.inl h.1)

theorem shared_proper (ha : a.span.Proper o) (hb : b.span.Proper o)
    (h : a.span.Meets o b.span) : (pieces o a b).shared.span.Proper o :=
  shared_lo_le_iff.mpr ⟨le_shared_hi_iff.mpr ⟨ha, h.2⟩, le_shared_hi_iff.mpr ⟨h.1, hb⟩⟩

/-! ## Where the pieces come from -/

/-- The zone `z` is cut off `a` outside of `b`: it lies in `a`, reaches `b` at a boundary key at
most, and has heat and tier of `a`. -/
structure CutFrom (o : KeyOrder) (a b z : Zone) : Prop where
  covers : a.span.Covers o z.span
  apart : z.span.Apart o b.span
  heat_eq : z.heat = a.heat
  fast_eq : z.fast = a.fast

/-- The head is cut off the zone that starts first. -/
theorem head_cut (h : a.span.Meets o b.span) :
    CutFrom o a b (pieces o a b).head ∨ CutFrom o b a (pieces o a b).head := by
  unfold pieces
  by_cases hab : o.Le a.span.lo b.span.lo
  · rw [if_pos hab]
    exact Or.inl ⟨⟨o.le_refl _, h.1⟩, Or.inl (o.le_refl _), rfl, rfl⟩
  · rw [if_neg hab]
    exact Or.inr ⟨⟨o.le_refl _, h.2⟩, Or.inl (o.le_refl _), rfl, rfl⟩

/-- The tail is cut off the zone that ends last. -/
theorem tail_cut (h : a.span.Meets o b.span) :
    CutFrom o a b (pieces o a b).tail ∨ CutFrom o b a (pieces o a b).tail := by
  unfold pieces
  by_cases hab : o.Le a.span.hi b.span.hi
  · rw [if_pos hab]
    exact Or.inr ⟨⟨h.1, o.le_refl _⟩, Or.inr (o.le_refl _), rfl, rfl⟩
  · rw [if_neg hab]
    exact Or.inl ⟨⟨h.2, o.le_refl _⟩, Or.inr (o.le_refl _), rfl, rfl⟩

theorem holds_shared_iff {k : Key} :
    (pieces o a b).shared.span.Holds o k ↔ a.span.Holds o k ∧ b.span.Holds o k := by
  rw [Span.Holds, shared_lo_le_iff, le_shared_hi_iff, and_and_and_comm]

/-! ## The pieces together -/

/-- A zone is one of the pieces. -/
def Pieces.Has (c : Pieces) (z : Zone) : Prop := z = c.head ∨ z = c.shared ∨ z = c.tail

/-- **Nothing is lost and nothing is added.** The pieces hold the keys of the two zones. -/
theorem holds_pieces (ha : a.span.Proper o) (hb : b.span.Proper o)
    (h : a.span.Meets o b.span) {k : Key} :
    (∃ z, (pieces o a b).Has z ∧ z.span.Holds o k) ↔ a.span.Holds o k ∨ b.span.Holds o k := by
  have hshared := shared_proper ha hb h
  have hwhole : (∃ z, (pieces o a b).Has z ∧ z.span.Holds o k) ↔
      o.Le (pieces o a b).head.span.lo k ∧ o.Le k (pieces o a b).tail.span.hi := by
    constructor
    · rintro ⟨z, rfl | rfl | rfl, hlo, hhi⟩
      · exact ⟨hlo, KeyOrder.le_trans hhi (KeyOrder.le_trans hshared tail_proper)⟩
      · exact ⟨KeyOrder.le_trans head_proper hlo, KeyOrder.le_trans hhi tail_proper⟩
      · exact ⟨KeyOrder.le_trans (KeyOrder.le_trans head_proper hshared) hlo, hhi⟩
    · rintro ⟨hlo, hhi⟩
      -- the first cut that `k` does not pass tells the piece
      rcases o.le_total k (pieces o a b).shared.span.lo with hk | hk
      · exact ⟨_, Or.inl rfl, hlo, hk⟩
      · rcases o.le_total k (pieces o a b).shared.span.hi with hk' | hk'
        · exact ⟨_, Or.inr (Or.inl rfl), hk, hk'⟩
        · exact ⟨_, Or.inr (Or.inr rfl), hk', hhi⟩
  rw [hwhole, head_lo_le_iff, le_tail_hi_iff, ← Span.holds_union_iff h]
  exact and_congr KeyOrder.least_le_iff.symm KeyOrder.le_greatest_iff.symm

/-- A zone is one of the pieces, and stands in the slot of that piece. -/
def Pieces.At (c : Pieces) (p f q k : Nat) (z : Zone) : Prop :=
  (k = p ∧ z = c.head) ∨ (k = f ∧ z = c.shared) ∨ (k = q ∧ z = c.tail)

theorem Pieces.At.has {c : Pieces} {p f q k : Nat} {z : Zone} (h : c.At p f q k z) : c.Has z :=
  h.imp And.right (Or.imp And.right And.right)

/-- Of two pieces in different slots, one ends where the other starts or before. -/
theorem apart_of_at (ha : a.span.Proper o) (hb : b.span.Proper o) (h : a.span.Meets o b.span)
    {p f q k l : Nat} {z w : Zone} (hz : (pieces o a b).At p f q k z)
    (hw : (pieces o a b).At p f q l w) (hkl : k ≠ l) : z.span.Apart o w.span := by
  have hshared := shared_proper ha hb h
  rcases hz with ⟨rfl, rfl⟩ | ⟨rfl, rfl⟩ | ⟨rfl, rfl⟩ <;>
    rcases hw with ⟨rfl, rfl⟩ | ⟨rfl, rfl⟩ | ⟨rfl, rfl⟩
  · exact absurd rfl hkl
  · exact Or.inl (o.le_refl _)
  · exact Or.inl hshared
  · exact Or.inr (o.le_refl _)
  · exact absurd rfl hkl
  · exact Or.inl (o.le_refl _)
  · exact Or.inr hshared
  · exact Or.inr (o.le_refl _)
  · exact absurd rfl hkl

/-- Heat of the pieces: that of one of the two zones, or the pooled heat of both. -/
theorem heat_of_has {z : Zone} (hz : (pieces o a b).Has z) :
    z.heat = a.heat ∨ z.heat = b.heat ∨ z.heat = Zone.poolHeat a.heat b.heat := by
  rcases hz with rfl | rfl | rfl
  · unfold pieces
    by_cases h : o.Le a.span.lo b.span.lo
    · rw [if_pos h]
      exact Or.inl rfl
    · rw [if_neg h]
      exact Or.inr (Or.inl rfl)
  · exact Or.inr (Or.inr rfl)
  · unfold pieces
    by_cases h : o.Le a.span.hi b.span.hi
    · rw [if_pos h]
      exact Or.inr (Or.inl rfl)
    · rw [if_neg h]
      exact Or.inl rfl

theorem le_heat_of_has (ha : a.Sound o) (hb : b.Sound o) {t : Int} (hta : t ≤ a.heat)
    (htb : t ≤ b.heat) {z : Zone} (hz : (pieces o a b).Has z) : t ≤ z.heat := by
  have hpos : 0 ≤ b.heat := Int.le_trans (by decide) hb.heat_pos
  rcases heat_of_has hz with h | h | h
  · exact h ▸ hta
  · exact h ▸ htb
  · rw [h]
    exact Int.le_trans hta (Zone.le_poolHeat ha.heat_le hpos)

theorem sound_of_has (ha : a.Sound o) (hb : b.Sound o) (h : a.span.Meets o b.span) {z : Zone}
    (hz : (pieces o a b).Has z) : z.Sound o where
  proper := by
    rcases hz with rfl | rfl | rfl
    · exact head_proper
    · exact shared_proper ha.proper hb.proper h
    · exact tail_proper
  heat_pos := le_heat_of_has ha hb ha.heat_pos hb.heat_pos hz
  heat_le := by
    rcases heat_of_has hz with h | h | h
    · exact h ▸ ha.heat_le
    · exact h ▸ hb.heat_le
    · exact h ▸ Zone.poolHeat_le _ _

/-- A span that only touches `b`, and `a` not at all, only touches the pieces. -/
theorem apart_of_has (ha : a.Sound o) (hb : b.Sound o) (h : a.span.Meets o b.span) {s : Span}
    (hs : s.Proper o) (hsa : ¬ s.Meets o a.span) (hsb : s.Apart o b.span) {z : Zone}
    (hz : (pieces o a b).Has z) : s.Apart o z.span := by
  have hzp := (sound_of_has ha hb h hz).proper
  have hlo := (holds_pieces ha.proper hb.proper h).mp ⟨z, hz, o.le_refl _, hzp⟩
  have hhi := (holds_pieces ha.proper hb.proper h).mp ⟨z, hz, hzp, o.le_refl _⟩
  rcases Span.not_meets.mp hsa with hbefore | hafter
  · -- `s` lies before `a`; it cannot lie behind `b`, which reaches up to `a`
    have hsb' : o.Le s.hi b.span.lo := by
      apply hsb.resolve_right
      intro hbs
      exact KeyOrder.not_le.mpr hbefore (KeyOrder.le_trans h.2 (KeyOrder.le_trans hbs hs))
    have hsa' := KeyOrder.le_of_lt hbefore
    exact Or.inl (hlo.elim (fun hk => KeyOrder.le_trans hsa' hk.1)
      fun hk => KeyOrder.le_trans hsb' hk.1)
  · -- `s` lies behind `a`; it cannot lie before `b`, which starts at or before the end of `a`
    have hsb' : o.Le b.span.hi s.lo := by
      apply hsb.resolve_left
      intro hsb
      exact KeyOrder.not_le.mpr hafter (KeyOrder.le_trans hs (KeyOrder.le_trans hsb h.1))
    have hsa' := KeyOrder.le_of_lt hafter
    exact Or.inr (hhi.elim (fun hk => KeyOrder.le_trans hk.2 hsa')
      fun hk => KeyOrder.le_trans hk.2 hsb')

/-! ## The pieces in the map -/

/-- The zone, unless it has shrunk to a single key. -/
def solid (o : KeyOrder) (z : Zone) : Option Zone :=
  if o.Same z.span.lo z.span.hi then none else some z

theorem solid_eq_some {z w : Zone} :
    solid o z = some w ↔ ¬ o.Same z.span.lo z.span.hi ∧ w = z := by
  unfold solid
  split
  · simp [*]
  · simp [*, eq_comm]

/-- The slots of the split are the two slots, in the order of the starts. -/
theorem splitSlots_cases {i j p q : Nat} (h : splitSlots o i a j b = (p, q)) :
    (p = i ∧ q = j) ∨ (p = j ∧ q = i) := by
  unfold splitSlots at h
  split at h
  · cases h
    exact Or.inl ⟨rfl, rfl⟩
  · cases h
    exact Or.inr ⟨rfl, rfl⟩

namespace HeatMap

@[simp] theorem dropPoint_params (m : HeatMap) (i : Nat) (z : Zone) :
    (m.dropPoint i z).params = m.params := by
  unfold dropPoint
  split <;> rfl

theorem at?_dropPoint {m : HeatMap} {i : Nat} {z : Zone} (hz : m.at? i = some z) (c : Nat) :
    (m.dropPoint i z).at? c = if c = i then solid m.order z else m.at? c := by
  unfold dropPoint solid
  by_cases hp : m.order.Same z.span.lo z.span.hi
  · rw [if_pos hp, if_pos hp, at?_free]
  · rw [if_neg hp, if_neg hp]
    split
    · next hc => exact hc ▸ hz
    · rfl

theorem Intact.dropPoint {m : HeatMap} (h : m.Intact) {i : Nat} {z : Zone}
    (hz : m.at? i = some z) : (m.dropPoint i z).Intact := by
  unfold HeatMap.dropPoint
  split
  · exact h.free hz
  · exact h

section

variable {m : HeatMap} {i j p q : Nat}

/-- The map with the three pieces in it, before single keys are dropped. -/
def withPieces (m : HeatMap) (p q : Nat) (c : Pieces) : HeatMap :=
  ((m.put p c.head).put q c.tail).insert c.shared

theorem splitAt_eq (hpq : splitSlots m.order i a j b = (p, q)) :
    m.splitAt i a j b =
      ((m.withPieces p q (pieces m.order a b)).dropPoint p (pieces m.order a b).head).dropPoint q
        (pieces m.order a b).tail := by
  rw [splitAt, hpq]
  rfl

theorem at?_withPieces {x y : Zone} (hne : p ≠ q) (hp : m.at? p = some x)
    (hq : m.at? q = some y) (c : Pieces) (k : Nat) :
    (m.withPieces p q c).at? k =
      if k = p then some c.head
      else if k = q then some c.tail
      else if k = m.freshSlot then some c.shared
      else m.at? k := by
  have hq' : (m.put p c.head).at? q = some y := (at?_put_of_ne hp (Ne.symm hne) _).trans hq
  have hfresh : ((m.put p c.head).put q c.tail).freshSlot = m.freshSlot := by
    rw [freshSlot_put hq', freshSlot_put hp]
  have hpf := ne_freshSlot hp
  have hqf := ne_freshSlot hq
  rw [withPieces, at?_insert, hfresh, at?_put (lt_of_at? hq'), at?_put (lt_of_at? hp)]
  by_cases h₁ : k = p
  · subst h₁
    rw [if_neg hpf, if_neg hne, if_pos rfl, if_pos rfl]
  · by_cases h₂ : k = q
    · subst h₂
      rw [if_neg hqf, if_pos rfl, if_neg h₁, if_pos rfl]
    · simp only [h₁, h₂, if_false]

/-- The head, when it comes to dropping single keys. -/
theorem withPieces_head {x y : Zone} (hne : p ≠ q) (hp : m.at? p = some x)
    (hq : m.at? q = some y) (c : Pieces) : (m.withPieces p q c).at? p = some c.head := by
  rw [at?_withPieces hne hp hq, if_pos rfl]

/-- The tail, which is there whether the head has been dropped or not. -/
theorem dropPoint_tail {x y : Zone} (hne : p ≠ q) (hp : m.at? p = some x)
    (hq : m.at? q = some y) (c : Pieces) :
    ((m.withPieces p q c).dropPoint p c.head).at? q = some c.tail := by
  rw [at?_dropPoint (withPieces_head hne hp hq c), if_neg (Ne.symm hne),
    at?_withPieces hne hp hq, if_neg (Ne.symm hne), if_pos rfl]

/-- **The map after a split.** Head and tail stand in the slots of the two zones unless they
are single keys, the shared piece stands in a slot that was free, and every other slot is as
it was. -/
theorem at?_splitAt {x y : Zone} (hne : p ≠ q) (hp : m.at? p = some x) (hq : m.at? q = some y)
    (hpq : splitSlots m.order i a j b = (p, q)) (k : Nat) :
    (m.splitAt i a j b).at? k =
      if k = p then solid m.order (pieces m.order a b).head
      else if k = q then solid m.order (pieces m.order a b).tail
      else if k = m.freshSlot then some (pieces m.order a b).shared
      else m.at? k := by
  have hhead := withPieces_head hne hp hq (pieces m.order a b)
  have htail := dropPoint_tail hne hp hq (pieces m.order a b)
  have horder : (m.withPieces p q (pieces m.order a b)).order = m.order := by
    simp [withPieces, insert, HeatMap.order]
  rw [splitAt_eq hpq, at?_dropPoint htail, at?_dropPoint hhead, at?_withPieces hne hp hq]
  rw [HeatMap.order, dropPoint_params, ← HeatMap.order, horder]
  by_cases h₁ : k = p
  · subst h₁
    rw [if_neg hne, if_pos rfl, if_pos rfl]
  · by_cases h₂ : k = q
    · rw [if_pos h₂, if_neg h₁, if_pos h₂]
    · simp only [h₁, h₂, if_false]

theorem splitAt_params (m : HeatMap) (i : Nat) (a : Zone) (j : Nat) (b : Zone) :
    (m.splitAt i a j b).params = m.params := by
  rw [splitAt_eq rfl]
  simp [withPieces, insert]

theorem Intact.withPieces (h : m.Intact) {x y : Zone} (hne : p ≠ q) (hp : m.at? p = some x)
    (hq : m.at? q = some y) {c : Pieces} (hc : ∀ z, c.Has z → z.Sound m.order) :
    (m.withPieces p q c).Intact := by
  have hq' : (m.put p c.head).at? q = some y := (at?_put_of_ne hp (Ne.symm hne) _).trans hq
  have hhead := h.put hp (hc c.head (Or.inl rfl))
  have htail := hhead.put hq' (hc c.tail (Or.inr (Or.inr rfl)))
  exact htail.place (vacant_firstFree? _) (hc c.shared (Or.inr (Or.inl rfl)))

/-- The two slots of a split are the slots of two zones of the map. -/
theorem splitSlots_spec (hij : i ≠ j) (ha : m.at? i = some a) (hb : m.at? j = some b)
    (hpq : splitSlots m.order i a j b = (p, q)) :
    p ≠ q ∧ ∃ x y, m.at? p = some x ∧ m.at? q = some y := by
  rcases splitSlots_cases hpq with ⟨rfl, rfl⟩ | ⟨rfl, rfl⟩
  · exact ⟨hij, a, b, ha, hb⟩
  · exact ⟨Ne.symm hij, b, a, hb, ha⟩

theorem exists_splitSlots (hij : i ≠ j) (ha : m.at? i = some a) (hb : m.at? j = some b) :
    ∃ p q x y, splitSlots m.order i a j b = (p, q) ∧ p ≠ q ∧ m.at? p = some x ∧
      m.at? q = some y := by
  obtain ⟨p, q, hpq⟩ : ∃ p q, splitSlots m.order i a j b = (p, q) := ⟨_, _, rfl⟩
  obtain ⟨hne, x, y, hp, hq⟩ := splitSlots_spec hij ha hb hpq
  exact ⟨p, q, x, y, hpq, hne, hp, hq⟩

theorem Intact.splitAt (h : m.Intact) (hij : i ≠ j) (ha : m.at? i = some a)
    (hb : m.at? j = some b) (hmeets : a.span.Meets m.order b.span) :
    (m.splitAt i a j b).Intact := by
  obtain ⟨p, q, x, y, hpq, hne, hp, hq⟩ := exists_splitSlots hij ha hb
  have hc : ∀ z, (pieces m.order a b).Has z → z.Sound m.order := fun z hz =>
    sound_of_has (h.sound i a ha) (h.sound j b hb) hmeets hz
  have hpieces := h.withPieces hne hp hq hc
  have hhead := hpieces.dropPoint (withPieces_head hne hp hq (pieces m.order a b))
  rw [splitAt_eq hpq]
  exact hhead.dropPoint (dropPoint_tail hne hp hq (pieces m.order a b))

/-- A zone of the map after a split is a piece or an old zone of another slot. -/
theorem at?_splitAt_cases (hij : i ≠ j) (ha : m.at? i = some a) (hb : m.at? j = some b)
    (hpq : splitSlots m.order i a j b = (p, q)) {k : Nat} {z : Zone}
    (hz : (m.splitAt i a j b).at? k = some z) :
    (pieces m.order a b).At p m.freshSlot q k z ∨ (k ≠ i ∧ k ≠ j ∧ m.at? k = some z) := by
  obtain ⟨hne, x, y, hp, hq⟩ := splitSlots_spec hij ha hb hpq
  rw [at?_splitAt hne hp hq hpq] at hz
  by_cases h₁ : k = p
  · rw [if_pos h₁] at hz
    exact Or.inl (Or.inl ⟨h₁, (solid_eq_some.mp hz).2⟩)
  · rw [if_neg h₁] at hz
    by_cases h₂ : k = q
    · rw [if_pos h₂] at hz
      exact Or.inl (Or.inr (Or.inr ⟨h₂, (solid_eq_some.mp hz).2⟩))
    · rw [if_neg h₂] at hz
      split at hz
      · next h₃ => exact Or.inl (Or.inr (Or.inl ⟨h₃, (Option.some.inj hz).symm⟩))
      · rcases splitSlots_cases hpq with ⟨rfl, rfl⟩ | ⟨rfl, rfl⟩
        · exact Or.inr ⟨h₁, h₂, hz⟩
        · exact Or.inr ⟨h₂, h₁, hz⟩

theorem at?_splitAt_other (hij : i ≠ j) (ha : m.at? i = some a) (hb : m.at? j = some b) {k : Nat}
    (hki : k ≠ i) (hkj : k ≠ j) (hkf : k ≠ m.freshSlot) :
    (m.splitAt i a j b).at? k = m.at? k := by
  obtain ⟨p, q, x, y, hpq, hne, hp, hq⟩ := exists_splitSlots hij ha hb
  have hkpq : k ≠ p ∧ k ≠ q := by
    rcases splitSlots_cases hpq with ⟨rfl, rfl⟩ | ⟨rfl, rfl⟩
    · exact ⟨hki, hkj⟩
    · exact ⟨hkj, hki⟩
  rw [at?_splitAt hne hp hq hpq, if_neg hkpq.1, if_neg hkpq.2, if_neg hkf]

/-- Every old zone of another slot is still there. -/
theorem at?_splitAt_of_ne (hij : i ≠ j) (ha : m.at? i = some a) (hb : m.at? j = some b) {k : Nat}
    {z : Zone} (hki : k ≠ i) (hkj : k ≠ j) (hz : m.at? k = some z) :
    (m.splitAt i a j b).at? k = some z :=
  (at?_splitAt_other hij ha hb hki hkj (ne_freshSlot hz)).trans hz

/-- The shared piece stands in the lowest slot that was free. -/
theorem at?_splitAt_freshSlot (hij : i ≠ j) (ha : m.at? i = some a) (hb : m.at? j = some b) :
    (m.splitAt i a j b).at? m.freshSlot = some (pieces m.order a b).shared := by
  obtain ⟨p, q, x, y, hpq, hne, hp, hq⟩ := exists_splitSlots hij ha hb
  rw [at?_splitAt hne hp hq hpq, if_neg (Ne.symm (ne_freshSlot hp)),
    if_neg (Ne.symm (ne_freshSlot hq)), if_pos rfl]

/-- Every key of the two zones lies in a piece that has stayed in the map: a single key that
was dropped lies in the shared piece. -/
theorem exists_piece_holds (h : m.Intact) (hij : i ≠ j) (ha : m.at? i = some a)
    (hb : m.at? j = some b) (hmeets : a.span.Meets m.order b.span)
    (hpq : splitSlots m.order i a j b = (p, q)) {k : Key}
    (hk : a.span.Holds m.order k ∨ b.span.Holds m.order k) :
    ∃ l z, (m.splitAt i a j b).at? l = some z ∧
      (pieces m.order a b).At p m.freshSlot q l z ∧ z.span.Holds m.order k := by
  obtain ⟨hne, x, y, hp, hq⟩ := splitSlots_spec hij ha hb hpq
  have hap := (h.sound i a ha).proper
  have hbp := (h.sound j b hb).proper
  have hat := at?_splitAt hne hp hq hpq
  have hsp := shared_proper hap hbp hmeets
  obtain ⟨z, hz, hlo, hhi⟩ := (holds_pieces hap hbp hmeets).mpr hk
  have hin : (pieces m.order a b).shared.span.Holds m.order k →
      ∃ l z, (m.splitAt i a j b).at? l = some z ∧
        (pieces m.order a b).At p m.freshSlot q l z ∧ z.span.Holds m.order k := fun hk =>
    ⟨m.freshSlot, _, at?_splitAt_freshSlot hij ha hb, Or.inr (Or.inl ⟨rfl, rfl⟩), hk⟩
  rcases hz with rfl | rfl | rfl
  · by_cases hpoint : m.order.Same (pieces m.order a b).head.span.lo
      (pieces m.order a b).head.span.hi
    · exact hin ⟨KeyOrder.le_trans (KeyOrder.same_iff.mp hpoint).2 hlo, KeyOrder.le_trans hhi hsp⟩
    · refine ⟨p, _, ?_, Or.inl ⟨rfl, rfl⟩, hlo, hhi⟩
      rw [hat, if_pos rfl]
      exact solid_eq_some.mpr ⟨hpoint, rfl⟩
  · exact hin ⟨hlo, hhi⟩
  · by_cases hpoint : m.order.Same (pieces m.order a b).tail.span.lo
      (pieces m.order a b).tail.span.hi
    · exact hin ⟨KeyOrder.le_trans hsp hlo, KeyOrder.le_trans hhi (KeyOrder.same_iff.mp hpoint).2⟩
    · refine ⟨q, _, ?_, Or.inr (Or.inr ⟨rfl, rfl⟩), hlo, hhi⟩
      rw [hat, if_neg (Ne.symm hne), if_pos rfl]
      exact solid_eq_some.mpr ⟨hpoint, rfl⟩

end

end HeatMap

end TierIndex
