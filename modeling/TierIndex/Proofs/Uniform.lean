import TierIndex.Proofs.Answers
import TierIndex.Proofs.Intact

set_option autoImplicit false

/-! # When an answer is uniform

Whether an answer holds for a whole zone is decided by a look at the stored zones alone: the zone
is hot, or no hot zone meets it. This is what it takes for all keys of the zone, which nobody
looks at. In one direction every key of a hot zone is at least as hot as the zone
(`hot_of_holds`). In the other one a hot zone that meets a span has a key in common with it, the
later of the two starts, and that key is hot (`clearOfHot_iff_cold`).
-/

namespace TierIndex

namespace HeatMap

variable {m : HeatMap} {k : Key} {z : Zone} {s : Span}

/-- A key that some zone holds is found. -/
theorem exists_find? (hz : z ∈ m.zones) (hk : z.span.Holds m.order k) :
    ∃ y, m.find? k = some y ∧ z.heat ≤ y.heat := by
  cases hfind : m.find? k with
  | none => exact absurd hk (find?_eq_none.mp hfind z hz)
  | some y => exact ⟨y, rfl, heat_le_of_find? hfind hz hk⟩

/-- Every key of a hot zone is hot. -/
theorem hot_of_holds (hz : z ∈ m.zones) (hot : m.params.Hot z) (hk : z.span.Holds m.order k) :
    m.HotAt k := by
  obtain ⟨i, hi⟩ := mem_zones.mp hz
  exact ⟨i, z, hi, hot, hk⟩

/-- **A span is clear of hot zones exactly if none of its keys is hot.** Zones with their ends out
of order would meet a span without a common key, but an intact map has none. -/
theorem clearOfHot_iff_cold (h : m.Intact) (hs : s.Proper m.order) :
    m.clearOfHot s = true ↔ ∀ k, s.Holds m.order k → ¬ m.HotAt k := by
  rw [clearOfHot_iff]
  constructor
  · rintro hclear k hk ⟨i, y, hy, hot, hyk⟩
    exact hclear i y hy hot (Span.meets_of_holds hyk hk)
  · intro hcold i y hy hot hmeets
    have hproper := (h.sound i y hy).proper
    obtain ⟨k, hyk, hk⟩ := (Span.meets_iff_exists hproper hs).mp hmeets
    exact hcold k hk ⟨i, y, hy, hot, hyk⟩

/-- What is looked at says what all keys of the zone say. -/
theorem uniform_iff (h : m.Intact) (hz : z ∈ m.zones) :
    (m.params.Hot z || m.clearOfHot z.span) = true ↔
      ∀ k, z.span.Holds m.order k → (m.HotAt k ↔ m.params.Hot z) := by
  have hproper := (h.sound_of_mem hz).proper
  by_cases hot : m.params.Hot z
  · have hall : ∀ k, z.span.Holds m.order k → (m.HotAt k ↔ m.params.Hot z) := fun k hk =>
      iff_of_true (hot_of_holds hz hot hk) hot
    rw [decide_eq_true hot, Bool.true_or]
    exact iff_of_true rfl hall
  · calc (m.params.Hot z || m.clearOfHot z.span) = true
        ↔ m.clearOfHot z.span = true := by simp [hot]
      _ ↔ ∀ k, z.span.Holds m.order k → ¬ m.HotAt k := clearOfHot_iff_cold h hproper
      _ ↔ ∀ k, z.span.Holds m.order k → (m.HotAt k ↔ m.params.Hot z) := by simp [hot]

/-- **The uniform answer is exact.** An intact map answers a key with the hottest zone that holds
it, and says of this answer that it is uniform exactly if every key of the zone's span is found in
some zone that lies on the same side of the boiling point. -/
theorem findUniform?_eq_some_iff (h : m.Intact) {k : Key} {z : Zone} {uniform : Bool} :
    m.findUniform? k = some (z, uniform) ↔
      m.find? k = some z ∧
        (uniform = true ↔ ∀ k', z.span.Holds m.order k' →
          ∃ y, m.find? k' = some y ∧ (m.params.Hot y ↔ m.params.Hot z)) := by
  have hside : m.find? k = some z →
      ((m.params.Hot z || m.clearOfHot z.span) = true ↔ ∀ k', z.span.Holds m.order k' →
        ∃ y, m.find? k' = some y ∧ (m.params.Hot y ↔ m.params.Hot z)) := by
    intro hfind
    have hz := (find?_mem hfind).1
    rw [uniform_iff h hz]
    refine forall_congr' fun k' => imp_congr_right fun hk' => ?_
    obtain ⟨y, hy, -⟩ := exists_find? hz hk'
    rw [← hot_iff_of_find? hy]
    simp [hy]
  unfold findUniform?
  rw [Option.map_eq_some_iff]
  constructor
  · rintro ⟨y, hfind, heq⟩
    obtain ⟨rfl, rfl⟩ := Prod.mk.inj heq
    exact ⟨hfind, hside hfind⟩
  · rintro ⟨hfind, huniform⟩
    refine ⟨z, hfind, Prod.ext rfl ?_⟩
    rw [Bool.eq_iff_iff, hside hfind, huniform]

/-- The hot zone begins at the last key of the cold one. The answer for the hot zone holds for all
of it; the answer for the cold zone does not, because of that one key. -/
theorem findUniform?_eq_some_iff_overlap :
    let p : Params := ⟨.bytewise, 4, 10, 3, .lowest, by decide, by decide, by decide, by decide⟩
    let cold : Zone := ⟨⟨[1], [5]⟩, 4, true⟩
    let hot : Zone := ⟨⟨[5], [9]⟩, 20, false⟩
    let m : HeatMap := .ofZones p [cold, hot]
    let alike (z : Zone) : Prop := ∀ k, z.span.Holds m.order k →
      ∃ y, m.find? k = some y ∧ (m.params.Hot y ↔ m.params.Hot z)
    m.Intact ∧ (m.find? [2] = some cold ∧ ¬ alike cold) ∧ (m.find? [5] = some hot ∧ alike hot) := by
  intro p cold hot m alike
  have hintact : m.Intact := ofZones_intact (by decide)
  have hcold : m.findUniform? [2] = some (cold, false) := by decide
  have hhot : m.findUniform? [5] = some (hot, true) := by decide
  obtain ⟨hfind, huniform⟩ := (findUniform?_eq_some_iff hintact).mp hcold
  obtain ⟨hfind', huniform'⟩ := (findUniform?_eq_some_iff hintact).mp hhot
  exact ⟨hintact, ⟨hfind, fun hall => Bool.false_ne_true (huniform.mpr hall)⟩, hfind',
    huniform'.mp rfl⟩

end HeatMap

end TierIndex
