import TierIndex.Proofs.Settle

set_option autoImplicit false

/-! # Zones that do not meet

In a **sparse** map no two zones have a key in common. Such a map has nothing to repair: no zone has
a rival, so that settling and merging leave the map as it is (`Sparse.settle`, `Sparse.mergeHot`). A
key is held by one zone at most (`Sparse.find?_eq_some_iff`), and what is found holds for all of that
zone (`Sparse.findUniform?`). An access to a span that none of the zones overlaps, unless it is
exactly the zone's own, lands on that zone or makes a new one (`landing_of_separate`).
-/

namespace TierIndex

namespace HeatMap

/-- No two zones meet. -/
def Sparse (m : HeatMap) : Prop := m.zones.Pairwise fun y z => ¬ y.span.Meets m.order z.span

section

variable {m : HeatMap}

theorem Sparse.not_meets (h : m.Sparse) {i j : Nat} {y z : Zone} (hij : i ≠ j)
    (hy : m.at? i = some y) (hz : m.at? j = some z) : ¬ y.span.Meets m.order z.span :=
  (pairwise_zones_iff fun _ _ h hmeets => h (Span.meets_comm.mp hmeets)).mp h i j y z hij hy hz

/-! ## Nothing to repair -/

theorem Sparse.settle (h : m.Sparse) (i : Nat) : m.settle i = m := by
  cases hu : m.at? i with
  | none => exact settle_of_none hu
  | some u => exact settle_of_apart hu fun _ _ hz _ hj => h.not_meets hj hz hu

theorem Sparse.mergeHot (h : m.Sparse) : m.mergeHot = (m, 0) :=
  mergeHot_of_apart fun _ _ _ _ hij hy hz _ _ => h.not_meets hij hy hz

/-- The map that an access leaves needs no settling. -/
theorem settled_of_sparse {r : Receipt} (h : r.map.Sparse) : r.settled = r.map := by
  unfold Receipt.settled
  split
  · split
    · exact h.settle _
    · rfl
  · rfl

/-! ## Questions and accesses -/

/-- Two zones that hold the same key are the same zone. -/
theorem Sparse.eq_of_holds (h : m.Sparse) {k : Key} {y z : Zone} (hy : y ∈ m.zones)
    (hz : z ∈ m.zones) (hyk : y.span.Holds m.order k) (hzk : z.span.Holds m.order k) : y = z := by
  obtain ⟨i, hi⟩ := mem_zones.mp hy
  obtain ⟨j, hj⟩ := mem_zones.mp hz
  by_cases hij : i = j
  · subst hij
    exact Option.some.inj (hi.symm.trans hj)
  · have hmeets : y.span.Meets m.order z.span := Span.meets_of_holds hyk hzk
    exact absurd hmeets (h.not_meets hij hi hj)

theorem Sparse.find?_eq_some_iff (h : m.Sparse) {k : Key} {z : Zone} :
    m.find? k = some z ↔ z ∈ m.zones ∧ z.span.Holds m.order k := by
  constructor
  · exact find?_mem
  · rintro ⟨hz, hk⟩
    cases hfind : m.find? k with
    | none => exact absurd hk (find?_eq_none.mp hfind z hz)
    | some y =>
        obtain ⟨hy, hyk⟩ := find?_mem hfind
        rw [h.eq_of_holds hy hz hyk hk]

/-- What is found in a sparse map holds for the whole zone: a hot zone that meets it is the zone. -/
theorem Sparse.findUniform? (h : m.Sparse) (k : Key) :
    m.findUniform? k = (m.find? k).map fun z => (z, true) := by
  have huniform : ∀ z ∈ m.zones, (m.params.Hot z || m.clearOfHot z.span) = true := by
    intro z hz
    obtain ⟨j, hj⟩ := mem_zones.mp hz
    by_cases hot : m.params.Hot z
    · rw [decide_eq_true hot, Bool.true_or]
    · rw [decide_eq_false hot, Bool.false_or]
      refine clearOfHot_iff.mpr fun i y hi hy => h.not_meets ?_ hi hj
      rintro rfl
      cases hi.symm.trans hj
      exact hot hy
  unfold HeatMap.findUniform?
  cases hfind : m.find? k with
  | none => rfl
  | some z =>
      rw [Option.map_some, Option.map_some, huniform z (find?_mem hfind).1]

/-- **Where an access lands** if no zone overlaps its span but is not exactly that span. The number
of zones and the target do not matter. -/
theorem landing_of_separate {s : Span} (hs : s.Proper m.order)
    (h : ∀ i z, m.at? i = some z → z.span.Same m.order s ∨ ¬ z.span.Meets m.order s) (d : Int) :
    (∃ i z, m.landing s d = .exact i z ∧ m.at? i = some z ∧ z.span.Same m.order s) ∨
      m.landing s d = .fresh ∧ m.Unmatched s := by
  have hsuits := landing_suits m s d
  -- a zone that meets the span would be that span
  have hnone : m.Unmatched s → ∀ i z, m.at? i = some z → ¬ z.span.Meets m.order s :=
    fun hun i z hz => (h i z hz).resolve_left (hun i z hz)
  cases hl : m.landing s d with
  | exact i z =>
      rw [hl] at hsuits
      exact Or.inl ⟨i, z, rfl, hsuits.at_eq, of_decide_eq_true hsuits.suits⟩
  | inside i z =>
      rw [hl] at hsuits
      obtain ⟨hun, -, hbest⟩ := hsuits
      obtain ⟨-, hcov⟩ := of_decide_eq_true hbest.suits
      exact absurd (Span.meets_comm.mp (hcov.meets_self hs)) (hnone hun i z hbest.at_eq)
  | joining i z =>
      rw [hl] at hsuits
      obtain ⟨hun, hz, -, hmeets, -⟩ := hsuits
      exact absurd hmeets (hnone hun i z hz)
  | widening i z =>
      rw [hl] at hsuits
      obtain ⟨hun, hz, -, hmeets, -⟩ := hsuits
      exact absurd hmeets (hnone hun i z hz)
  | fresh =>
      rw [hl] at hsuits
      exact Or.inr ⟨rfl, hsuits⟩

end

end HeatMap

end TierIndex
