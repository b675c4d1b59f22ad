import TierIndex.Placer.Basic
import TierIndex.Proofs.Receive

set_option autoImplicit false

/-! # Which accesses are refused

Two places refuse an access: the shift of a zone's heat refuses a shift by zero, and a new zone is
refused without positive heat. Which of the two an access without positive heat comes to depends on
where it lands alone, and for such an access there are only three landings: the zone of exactly the
span, a hot zone around it once the map has passed its target, or none (`landing_eq_fresh_iff`).
Both places refuse before anything is written, so a refused access leaves no trace.
-/

namespace TierIndex

namespace HeatMap

/-- An access to the span finds a zone whatever heat it brings: the zone of exactly the span, or a
hot one around it when the map has passed its target. -/
def Known (m : HeatMap) (s : Span) : Prop :=
  (∃ z ∈ m.zones, z.span.Same m.order s) ∨
    (m.params.target < m.live ∧ ∃ z ∈ m.zones, m.params.Hot z ∧ z.span.Covers m.order s)

variable {m : HeatMap} {s : Span} {d : Int} {e : Fault}

/-! ## Landing without positive heat -/

theorem Hottest.mem_zones {p : Zone → Bool} {i : Nat} {z : Zone} (h : m.Hottest p i z) :
    z ∈ m.zones :=
  HeatMap.mem_zones.mpr ⟨i, h.at_eq⟩

theorem known_of_landing {i : Nat} {z : Zone}
    (h : m.landing s d = .exact i z ∨ m.landing s d = .inside i z) : m.Known s := by
  have hsuits := landing_suits m s d
  rcases h with h | h
  · rw [h] at hsuits
    exact Or.inl ⟨z, hsuits.mem_zones, of_decide_eq_true hsuits.suits⟩
  · rw [h] at hsuits
    obtain ⟨-, hlive, hbest⟩ := hsuits
    exact Or.inr ⟨hlive, z, hbest.mem_zones, of_decide_eq_true hbest.suits⟩

/-- Without positive heat no zone is widened, so an access lands on nothing exactly where no zone is
known for its span. -/
theorem landing_eq_fresh_iff (hd : d ≤ 0) : m.landing s d = .fresh ↔ ¬ m.Known s := by
  constructor
  · intro hl
    unfold landing at hl
    cases hexact : m.hottest? fun z => z.span.Same m.order s with
    | some e =>
        rw [hexact] at hl
        cases hl
    | none =>
        rw [hexact] at hl
        -- a zone that is known would have been found by one of the two searches
        have hunmatched := hottest?_eq_none.mp hexact
        rintro (⟨z, hz, hsame⟩ | ⟨hlive, z, hz, hhot⟩)
        · obtain ⟨i, hi⟩ := mem_zones.mp hz
          exact hunmatched i z hi (decide_eq_true hsame)
        · dsimp only at hl
          rw [if_neg (Nat.not_le.mpr hlive)] at hl
          cases hinside : m.hottest? fun z => m.params.Hot z ∧ z.span.Covers m.order s with
          | some e =>
              rw [hinside] at hl
              cases hl
          | none =>
              obtain ⟨i, hi⟩ := mem_zones.mp hz
              exact hottest?_eq_none.mp hinside i z hi (decide_eq_true hhot)
  · intro hunknown
    -- joining and widening need positive heat
    have hsuits := landing_suits m s d
    cases hl : m.landing s d with
    | fresh => rfl
    | exact i z => exact absurd (known_of_landing (Or.inl hl)) hunknown
    | inside i z => exact absurd (known_of_landing (Or.inr hl)) hunknown
    | joining i z =>
        rw [hl] at hsuits
        obtain ⟨-, -, -, -, hpos⟩ := hsuits
        omega
    | widening i z =>
        rw [hl] at hsuits
        obtain ⟨-, -, -, -, hpos⟩ := hsuits
        omega

/-! ## The two places that refuse -/

theorem receiveShift_eq_error {i : Nat} {z : Zone} {covering : Bool} :
    m.receiveShift i z d covering s = .error e ↔ d = 0 ∧ e = .map .noHeat := by
  unfold receiveShift
  dsimp only
  split
  · simp [*, eq_comm]
  · split <;> simp [*]

theorem receiveFresh_eq_error :
    m.receiveFresh s d = .error e ↔ d ≤ 0 ∧ e = .map (.coldStart d) := by
  unfold receiveFresh
  dsimp only
  split
  · simp [*, eq_comm]
  · simp [*]

/-- **What is refused, and why.** A shift by nothing is refused where a zone is known, and any heat
that is not positive where none is. -/
theorem receive_eq_error_iff :
    m.receive s d = .error e ↔
      (d = 0 ∧ m.Known s ∧ e = .map .noHeat) ∨
        (d ≤ 0 ∧ ¬ m.Known s ∧ e = .map (.coldStart d)) := by
  have hsuits := landing_suits m s d
  have hfresh := fun hd => landing_eq_fresh_iff (m := m) (s := s) (d := d) hd
  unfold receive
  cases hl : m.landing s d with
  | exact i z =>
      have hknown : m.Known s := known_of_landing (Or.inl hl)
      simp [receiveShift_eq_error, hknown]
  | inside i z =>
      have hknown : m.Known s := known_of_landing (Or.inr hl)
      simp [receiveShift_eq_error, hknown]
  | joining i z =>
      rw [hl] at hsuits
      obtain ⟨-, -, -, -, hpos⟩ := hsuits
      simp [Int.not_le.mpr hpos, Int.ne_of_gt hpos]
  | widening i z =>
      rw [hl] at hsuits
      obtain ⟨-, -, -, -, hpos⟩ := hsuits
      simp [Int.not_le.mpr hpos, Int.ne_of_gt hpos]
  | fresh =>
      dsimp only
      rw [receiveFresh_eq_error]
      constructor
      · rintro ⟨hd, rfl⟩
        exact Or.inr ⟨hd, (hfresh hd).mp hl, rfl⟩
      · rintro (⟨rfl, hknown, -⟩ | ⟨hd, -, rfl⟩)
        · exact absurd hknown ((hfresh (Int.le_refl 0)).mp hl)
        · exact ⟨hd, rfl⟩

theorem access_eq_error_iff {a b : Key} :
    m.access a b d = .error e ↔ m.receive (Span.between m.order a b) d = .error e := by
  unfold access
  cases m.receive (Span.between m.order a b) d <;> simp [Except.map]

/-- Positive heat is never refused. -/
theorem exists_access (m : HeatMap) (a b : Key) (hd : 0 < d) :
    ∃ out, m.access a b d = .ok out := by
  cases hout : m.access a b d with
  | ok out => exact ⟨out, rfl⟩
  | error e =>
      rcases receive_eq_error_iff.mp (access_eq_error_iff.mp hout) with ⟨hzero, -⟩ | ⟨hle, -⟩
      · omega
      · omega

end HeatMap

/-! ## The placer -/

namespace Placer

theorem record_eq_error_iff {p : Placer} {a b : Key} {d : Int} {e : Fault} :
    (p.record a b d).2 = .error e ↔ p.map.access a b d = .error e := by
  unfold record
  cases p.map.access a b d <;> simp

/-- A refused access leaves the placer as it is, its memo and its outlet included. -/
theorem record_of_error {p : Placer} {a b : Key} {d : Int} {e : Fault}
    (h : p.map.access a b d = .error e) : (p.record a b d).1 = p := by
  rw [record, h]

/-- **Refused accesses leave no trace, and exactly the bad ones are refused.** An access is refused
if it brings no heat, or takes heat away where the map has neither a zone of exactly the span nor,
past its target, a hot zone around it. The map gives the reason, and the whole placer stays as it
is: every slot and the count of zones, what is remembered and its generation, and all that has been
sent. -/
theorem record_refused_iff (p : Placer) (a b : Key) (d : Int) :
    ((∃ e, (p.record a b d).2 = .error e) ↔
        d = 0 ∨
          (d < 0 ∧ (∀ z ∈ p.map.zones, ¬ z.span.Same p.order (Span.between p.order a b)) ∧
            ¬ (p.map.params.target < p.map.live ∧ ∃ z ∈ p.map.zones, p.map.params.Hot z ∧
              z.span.Covers p.order (Span.between p.order a b)))) ∧
      ∀ e, (p.record a b d).2 = .error e →
        (p.record a b d).1 = p ∧ (e = .map .noHeat ∨ e = .map (.coldStart d)) := by
  have hrefused : ∀ e, (p.record a b d).2 = .error e ↔ _ := fun e =>
    record_eq_error_iff.trans (HeatMap.access_eq_error_iff.trans HeatMap.receive_eq_error_iff)
  have hunknown : ¬ p.map.Known (Span.between p.order a b) ↔
      (∀ z ∈ p.map.zones, ¬ z.span.Same p.order (Span.between p.order a b)) ∧
        ¬ (p.map.params.target < p.map.live ∧ ∃ z ∈ p.map.zones, p.map.params.Hot z ∧
          z.span.Covers p.order (Span.between p.order a b)) := by
    rw [HeatMap.Known, not_or, not_exists]
    simp only [not_and]
  constructor
  · rw [← hunknown]
    constructor
    · rintro ⟨e, he⟩
      rcases (hrefused e).mp he with ⟨hd, -⟩ | ⟨hd, hnew, -⟩
      · exact Or.inl hd
      · rcases Int.lt_or_eq_of_le hd with hneg | hzero
        · exact Or.inr ⟨hneg, hnew⟩
        · exact Or.inl hzero
    · intro hbad
      by_cases hknown : p.map.Known (Span.between p.order a b)
      · have hzero : d = 0 := hbad.resolve_right fun h => h.2 hknown
        exact ⟨_, (hrefused _).mpr (Or.inl ⟨hzero, hknown, rfl⟩)⟩
      · have hd : d ≤ 0 := by omega
        exact ⟨_, (hrefused _).mpr (Or.inr ⟨hd, hknown, rfl⟩)⟩
  · intro e he
    refine ⟨record_of_error (record_eq_error_iff.mp he), ?_⟩
    exact ((hrefused e).mp he).imp (·.2.2) (·.2.2)

end Placer

end TierIndex
