import TierIndex.Proofs.Answers
import TierIndex.Proofs.Settle

set_option autoImplicit false

/-! # Which keys are held, and how hot

Settling and merging rearrange hot zones, far beyond the accessed span at times, but no key is
gained or lost by it: the pieces of a split hold the keys of the two zones, and a merge holds the
keys of the zones that go into it. All these zones are hot before and after. So for every heat up to
the boiling point, the keys that zones of at least that heat hold stay the same (`heldAt_settle`).
With heat zero these are the keys that lie in a zone at all, and with the boiling point the hot
keys.

What an access changes it changes by the one write that receives it, and that write touches keys of
the reported span only (`heldAt_access`).
-/

namespace TierIndex

namespace HeatMap

/-- Some zone of at least the given heat holds the key. -/
def HeldAt (m : HeatMap) (t : Int) (k : Key) : Prop :=
  ∃ i z, m.at? i = some z ∧ t ≤ z.heat ∧ z.span.Holds m.order k

variable {m m' : HeatMap} {i j : Nat} {u a b : Zone} {t : Int} {k : Key}

theorem heldAt_iff (hp : m'.params = m.params) :
    m'.HeldAt t k ↔ ∃ i z, m'.at? i = some z ∧ t ≤ z.heat ∧ z.span.Holds m.order k := by
  unfold HeldAt HeatMap.order
  rw [hp]

/-- The hot keys of a map with the same parameters. -/
theorem hotAt_iff_heldAt (hp : m'.params = m.params) :
    m'.HotAt k ↔ m'.HeldAt m.params.boiling k := by
  unfold HotAt HeldAt Params.Hot
  rw [hp]

theorem hotAt_iff (hp : m'.params = m.params) :
    m'.HotAt k ↔
      ∃ i z, m'.at? i = some z ∧ m.params.Hot z ∧ z.span.Holds m.order k := by
  rw [hotAt_iff_heldAt hp, heldAt_iff hp]

/-- The keys that lie in a zone, whatever its heat. -/
theorem Intact.heldAt_zero_iff (h : m.Intact) :
    m.HeldAt 0 k ↔ ∃ z ∈ m.zones, z.span.Holds m.order k := by
  constructor
  · rintro ⟨i, z, hz, -, hk⟩
    exact ⟨z, mem_zones.mpr ⟨i, hz⟩, hk⟩
  · rintro ⟨z, hz, hk⟩
    obtain ⟨i, hi⟩ := mem_zones.mp hz
    have hpos := (h.sound i z hi).heat_pos
    exact ⟨i, z, hi, by omega, hk⟩

/-! ## Settling -/

theorem heldAt_splitAt (h : m.Intact) (hij : i ≠ j) (ha : m.at? i = some a)
    (hb : m.at? j = some b) (hta : t ≤ a.heat) (htb : t ≤ b.heat)
    (hmeets : a.span.Meets m.order b.span) : (m.splitAt i a j b).HeldAt t k ↔ m.HeldAt t k := by
  have hsa := h.sound i a ha
  have hsb := h.sound j b hb
  rw [heldAt_iff (splitAt_params m i a j b)]
  constructor
  · rintro ⟨l, z, hz, ht, hk⟩
    rcases at?_splitAt_cases hij ha hb rfl hz with hpiece | ⟨-, -, hold⟩
    · rcases (holds_pieces hsa.proper hsb.proper hmeets).mp ⟨z, hpiece.has, hk⟩ with hka | hkb
      · exact ⟨i, a, ha, hta, hka⟩
      · exact ⟨j, b, hb, htb, hkb⟩
    · exact ⟨l, z, hold, ht, hk⟩
  · rintro ⟨l, z, hz, ht, hk⟩
    -- a key of the two zones lies in a piece, and no piece is colder than both of them
    have hpiece : a.span.Holds m.order k ∨ b.span.Holds m.order k →
        ∃ i' z', (m.splitAt i a j b).at? i' = some z' ∧ t ≤ z'.heat ∧
          z'.span.Holds m.order k := fun hkab => by
      obtain ⟨l', z', hz', hpiece, hk'⟩ := exists_piece_holds h hij ha hb hmeets rfl hkab
      exact ⟨l', z', hz', le_heat_of_has hsa hsb hta htb hpiece.has, hk'⟩
    by_cases hli : l = i
    · rw [hli] at hz
      cases ha.symm.trans hz
      exact hpiece (Or.inl hk)
    · by_cases hlj : l = j
      · rw [hlj] at hz
        cases hb.symm.trans hz
        exact hpiece (Or.inr hk)
      · exact ⟨l, z, at?_splitAt_of_ne hij ha hb hli hlj hz, ht, hk⟩

theorem heldAt_mergeAt (h : m.Intact) (hu : m.at? i = some u) (hot : m.params.Hot u)
    (ht : t ≤ m.params.boiling) : (m.mergeAt i).1.HeldAt t k ↔ m.HeldAt t k := by
  have hmerged := at?_mergeAt_self h hu
  have hmergedHeat : t ≤ (m.merged i u).heat := Int.le_trans ht (merged_hot h hu hot)
  rw [heldAt_iff (mergeAt_params m i)]
  constructor
  · rintro ⟨l, z, hz, htz, hk⟩
    rcases at?_mergeAt_cases h hu hz with ⟨-, rfl⟩ | ⟨-, hold, -⟩
    · rcases holds_gather.mp hk with hku | ⟨⟨l', z'⟩, he, hk'⟩
      · exact ⟨i, u, hu, Int.le_trans ht hot, hku⟩
      · obtain ⟨hz', hot', -, -⟩ := (mem_absorbed h).mp he
        exact ⟨l', z', hz', Int.le_trans ht hot', hk'⟩
    · exact ⟨l, z, hold, htz, hk⟩
  · rintro ⟨l, z, hz, htz, hk⟩
    by_cases hli : l = i
    · rw [hli] at hz
      cases hu.symm.trans hz
      exact ⟨i, m.merged i u, hmerged, hmergedHeat, merged_covers.holds hk⟩
    · by_cases hgone : m.params.Hot z ∧ z.span.Meets m.order (m.merged i u).span
      · have he : (l, z) ∈ m.absorbed i u := (mem_absorbed h).mpr ⟨hz, hgone.1, hli, hgone.2⟩
        exact ⟨i, m.merged i u, hmerged, hmergedHeat, holds_gather.mpr (Or.inr ⟨_, he, hk⟩)⟩
      · have hstays : (m.mergeAt i).1.at? l = some z := by
          rw [at?_mergeAt h hu, if_neg hli, hz]
          exact Option.filter_eq_some_iff.mpr ⟨rfl, decide_eq_true hgone⟩
        exact ⟨l, z, hstays, htz, hk⟩

/-- **Settling gains no key and loses none**, at any heat up to the boiling point. -/
theorem heldAt_settle (h : m.Intact) (hu : m.at? i = some u) (hot : m.params.Hot u)
    (ht : t ≤ m.params.boiling) : (m.settle i).HeldAt t k ↔ m.HeldAt t k := by
  rcases settle_cases hu with ⟨hs, -⟩ | ⟨j, v, hs, -, hv, hotv, hij, hmeets, -⟩ | hs
  · rw [hs]
  · rw [hs]
    exact heldAt_splitAt h hij hu hv (Int.le_trans ht hot) (Int.le_trans ht hotv) hmeets
  · rw [hs]
    exact heldAt_mergeAt h hu hot ht

theorem hotAt_mergeHot (h : m.Intact) (k : Key) : m.mergeHot.1.HotAt k ↔ m.HotAt k := by
  have hpass := mergeHot_induction h
    (P := fun m' => m'.HeldAt m.params.boiling k ↔ m.HeldAt m.params.boiling k) Iff.rfl
    fun m' i u h' hp ih hu hot => by
      rw [← hp] at ih hot ⊢
      exact (heldAt_mergeAt h' hu hot (Int.le_refl _)).trans ih
  rw [hotAt_iff_heldAt hpass.2.1]
  exact hpass.2.2

/-! ## Confirming a tier -/

theorem hotAt_setTier (m : HeatMap) (a b : Key) (fast : Bool) (k : Key) :
    (m.setTier a b fast).1.HotAt k ↔ m.HotAt k := by
  have hat := at?_of_slots (setTier_slots m a b fast)
  constructor
  · rintro ⟨i, z, hz, hot, hk⟩
    rw [hat] at hz
    obtain ⟨y, hy, hmark⟩ := Option.bind_eq_some_iff.mp hz
    cases hmark
    rw [Params.Hot, markTier_heat] at hot
    rw [markTier_span] at hk
    exact ⟨i, y, hy, hot, hk⟩
  · rintro ⟨i, z, hz, hot, hk⟩
    refine ⟨i, markTier m.order (Span.between m.order a b) fast z, ?_, ?_, ?_⟩
    · rw [hat, hz]
      rfl
    · rw [Params.Hot, markTier_heat]
      exact hot
    · rw [markTier_span]
      exact hk

/-! ## Accesses -/

/-- A write to one slot leaves the keys outside its old and its new zone as they were. -/
theorem heldAt_receives {s : Span} {r : Receipt} {new : Option Zone}
    (hrec : Receives m s r i new) (hk : ¬ r.span.Holds m.order k) :
    r.map.HeldAt t k ↔ m.HeldAt t k := by
  rw [heldAt_iff hrec.write.params]
  constructor
  · rintro ⟨l, z, hz, ht, hkz⟩
    rw [hrec.write.at?] at hz
    split at hz
    · exact absurd ((hrec.covers_new z hz).holds hkz) hk
    · exact ⟨l, z, hz, ht, hkz⟩
  · rintro ⟨l, z, hz, ht, hkz⟩
    have hli : l ≠ i := by
      rintro rfl
      exact hk ((hrec.covers_old z hz).holds hkz)
    rw [← hrec.write.at?_of_ne hli] at hz
    exact ⟨l, z, hz, ht, hkz⟩

/-- What settles the written slot gains no key and loses none. -/
theorem heldAt_settled (h : m.Intact) {s : Span} {r : Receipt} {new : Option Zone}
    (hrec : Receives m s r i new) (ht : t ≤ m.params.boiling) :
    r.settled.HeldAt t k ↔ r.map.HeldAt t k := by
  rcases hrec.settled_cases with ⟨hsame, -⟩ | ⟨u, hnew, hmarked, hsettled⟩
  · rw [hsame]
  · have hu : r.map.at? i = some u := hrec.write.at?_self.trans hnew
    have hot : r.map.params.Hot u := by
      rw [hrec.write.params]
      exact hrec.hot hmarked u hnew
    rw [← hrec.write.params] at ht
    rw [hsettled]
    exact heldAt_settle (hrec.write.intact h) hu hot ht

theorem hotAt_settled (h : m.Intact) {s : Span} {r : Receipt} {new : Option Zone}
    (hrec : Receives m s r i new) : r.settled.HotAt k ↔ r.map.HotAt k := by
  rw [hotAt_iff_heldAt hrec.settled_params, hotAt_iff_heldAt hrec.write.params]
  exact heldAt_settled h hrec (Int.le_refl _)

/-- **An access gains no key outside the span that it reports and loses none there**, at any heat up
to the boiling point. -/
theorem heldAt_access (h : m.Intact) {x y : Key} {d : Int} {out : Outcome}
    (hout : m.access x y d = .ok out) (ht : t ≤ m.params.boiling)
    (hk : ¬ out.span.Holds m.order k) : out.map.HeldAt t k ↔ m.HeldAt t k := by
  obtain ⟨r, i, new, -, hrec, rfl, -⟩ := access_spec h hout
  exact (heldAt_settled h hrec ht).trans (heldAt_receives hrec hk)

theorem hotAt_access (h : m.Intact) {x y : Key} {d : Int} {out : Outcome}
    (hout : m.access x y d = .ok out) (hk : ¬ out.span.Holds m.order k) :
    out.map.HotAt k ↔ m.HotAt k := by
  rw [hotAt_iff_heldAt (access_params h hout)]
  exact heldAt_access h hout (Int.le_refl _) hk

end HeatMap

end TierIndex
