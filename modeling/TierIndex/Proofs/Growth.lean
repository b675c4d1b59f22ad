import TierIndex.Proofs.Reachable
import TierIndex.Proofs.Refusal
import TierIndex.Proofs.SplitKeys

set_option autoImplicit false

/-! # How far a map outgrows its target

The target is passed by one zone at most, as long as accesses start from a map within it: a new zone
takes one slot, and it is split, which takes one more, only if the count has not passed the target by
then (`settle_live_le`). From a map that has passed its target an access adds a zone only if no zone
takes it in: none has its span, no hot one covers it, and none of its own temperature overlaps it
(`landing_eq_fresh_iff_unclaimed`). Such a zone has no rival and stays as it is (`settled_of_unclaimed`),
so that the count then grows by exactly one (`access_growth`).
-/

namespace TierIndex

namespace HeatMap

variable {m : HeatMap} {s : Span} {d : Int} {r : Receipt} {i : Nat}

theorem forall_mem_zones {P : Zone → Prop} :
    (∀ z ∈ m.zones, P z) ↔ ∀ i z, m.at? i = some z → P z := by
  constructor
  · intro h i z hz
    exact h z (mem_zones.mpr ⟨i, hz⟩)
  · intro h z hz
    obtain ⟨i, hi⟩ := mem_zones.mp hz
    exact h i z hi

/-! ## The count of zones -/

/-- Settling adds a zone only within the target. -/
theorem settle_live_le (h : m.Intact) (i : Nat) :
    (m.settle i).live ≤ max m.live (m.params.target + 1) := by
  cases hu : m.at? i with
  | none =>
      rw [settle_of_none hu]
      exact Nat.le_max_left _ _
  | some u =>
      rcases settle_cases hu with ⟨hs, -⟩ | ⟨j, v, hs, hlive, -⟩ | hs
      · rw [hs]
        exact Nat.le_max_left _ _
      · have hsplit := splitAt_live (i := i) (a := u) (j := j) (b := v) (h.live_pos hu)
        rw [hs]
        omega
      · have hmerge := mergeAt_live h i
        rw [hs]
        omega

theorem settled_live_le (h : m.Intact) {new : Option Zone} (hone : Receives m s r i new) :
    r.settled.live ≤ max r.map.live (m.params.target + 1) := by
  rcases hone.settled_cases with ⟨hsame, -⟩ | ⟨-, -, -, hsettled⟩
  · rw [hsame]
    exact Nat.le_max_left _ _
  · rw [hsettled, ← hone.write.params]
    exact settle_live_le (hone.write.intact h) i

theorem place_live (m : HeatMap) (slot : Option Nat) (z : Zone) :
    (m.place slot z).1.live = m.live + 1 := by
  cases slot <;> rfl

theorem Write.live_le {m' : HeatMap} {new : Option Zone} (h : Write m m' i new) :
    m'.live ≤ m.live + 1 := by
  cases h with
  | put => exact Nat.le_succ m.live
  | free => exact Nat.le_trans (Nat.sub_le m.live 1) (Nat.le_succ m.live)
  | place => exact Nat.le_of_eq (place_live m _ _)

theorem receiveShift_live_le {z : Zone} {covering : Bool}
    (hr : m.receiveShift i z d covering s = .ok r) : r.map.live ≤ m.live := by
  unfold receiveShift at hr
  split at hr
  · cases hr
  · dsimp only at hr
    split at hr
    · cases hr
      exact Nat.sub_le m.live 1
    · cases hr
      exact Nat.le_refl m.live

/-- Only a new zone adds to the count. -/
theorem receive_live_le (hr : m.receive s d = .ok r) (hl : m.landing s d ≠ .fresh) :
    r.map.live ≤ m.live := by
  unfold receive at hr
  cases hcase : m.landing s d with
  | exact i z =>
      rw [hcase] at hr
      exact receiveShift_live_le hr
  | inside i z =>
      rw [hcase] at hr
      exact receiveShift_live_le hr
  | joining i z =>
      rw [hcase] at hr
      cases hr
      exact Nat.le_refl m.live
  | widening i z =>
      rw [hcase] at hr
      cases hr
      exact Nat.le_refl m.live
  | fresh => exact absurd hcase hl

/-! ## When a new zone is needed -/

theorem hottest?_eq_none_iff {P : Zone → Prop} [DecidablePred P] :
    (m.hottest? fun z => P z) = none ↔ ∀ z ∈ m.zones, ¬ P z := by
  simp only [hottest?_eq_none, forall_mem_zones, ne_eq, decide_eq_true_eq]

theorem firstHotMeeting?_eq_none :
    m.firstHotMeeting? s = none ↔
      ∀ z ∈ m.zones, m.params.Hot z → ¬ z.span.Meets m.order s := by
  unfold firstHotMeeting? hotEntries
  rw [leftmostBest_eq_none, List.filter_filter, List.filter_eq_nil_iff, forall_mem_zones]
  constructor
  · intro h i z hz hot hmeets
    exact h (i, z) (mem_entries.mpr hz) (by simp [hot, hmeets])
  · rintro h ⟨i, z⟩ he hboth
    obtain ⟨hmeets, hot⟩ := (Bool.and_eq_true _ _).mp hboth
    exact h i z (mem_entries.mp he) (of_decide_eq_true hot) (of_decide_eq_true hmeets)

theorem smallestColdUnion?_eq_none :
    m.smallestColdUnion? s = none ↔
      ∀ z ∈ m.zones, ¬ m.params.Hot z → ¬ z.span.Meets m.order s := by
  unfold smallestColdUnion?
  rw [leftmostBest_eq_none, List.filter_eq_nil_iff, forall_mem_zones]
  constructor
  · intro h i z hz hcold hmeets
    exact h (i, z) (mem_entries.mpr hz) (decide_eq_true ⟨hcold, hmeets⟩)
  · rintro h ⟨i, z⟩ he hboth
    obtain ⟨hcold, hmeets⟩ := of_decide_eq_true hboth
    exact h i z (mem_entries.mp he) hcold hmeets

/-- No zone takes in an access of heat `d` to the span when the target is passed: none has its span,
no hot one covers it, and none that is as hot or as cold as the access overlaps it. -/
structure Unclaimed (m : HeatMap) (s : Span) (d : Int) : Prop where
  same : ∀ z ∈ m.zones, ¬ z.span.Same m.order s
  inside : ∀ z ∈ m.zones, m.params.Hot z → ¬ z.span.Covers m.order s
  hot : m.params.boiling ≤ d → ∀ z ∈ m.zones, m.params.Hot z → ¬ z.span.Meets m.order s
  cold : d < m.params.boiling → ∀ z ∈ m.zones, ¬ m.params.Hot z → ¬ z.span.Meets m.order s

/-- An access is unclaimed when the four searches find nothing. -/
theorem unclaimed_iff :
    m.Unclaimed s d ↔
      (m.hottest? fun z => z.span.Same m.order s) = none ∧
      (m.hottest? fun z => m.params.Hot z ∧ z.span.Covers m.order s) = none ∧
      (m.params.boiling ≤ d → m.firstHotMeeting? s = none) ∧
      (d < m.params.boiling → m.smallestColdUnion? s = none) := by
  rw [hottest?_eq_none_iff, hottest?_eq_none_iff, firstHotMeeting?_eq_none,
    smallestColdUnion?_eq_none]
  constructor
  · rintro ⟨hsame, hinside, hhot, hcold⟩
    exact ⟨hsame, fun z hz hboth => hinside z hz hboth.1 hboth.2, hhot, hcold⟩
  · rintro ⟨hsame, hinside, hhot, hcold⟩
    exact ⟨hsame, fun z hz hot hcov => hinside z hz ⟨hot, hcov⟩, hhot, hcold⟩

/-- **Past the target a new zone is the last resort.** -/
theorem landing_eq_fresh_iff_unclaimed (hlive : m.params.target < m.live) (hd : 0 < d) :
    m.landing s d = .fresh ↔ m.Unclaimed s d := by
  rw [unclaimed_iff]
  unfold landing
  cases m.hottest? fun z => z.span.Same m.order s with
  | some e => simp
  | none =>
      dsimp only
      rw [if_neg (Nat.not_le.mpr hlive)]
      cases m.hottest? fun z => m.params.Hot z ∧ z.span.Covers m.order s with
      | some e => simp
      | none =>
          dsimp only
          rw [if_neg (Int.not_le.mpr hd)]
          by_cases hboil : m.params.boiling ≤ d
          · rw [if_pos hboil]
            cases m.firstHotMeeting? s with
            | some e => simp [hboil]
            | none => simp [Int.not_lt.mpr hboil]
          · rw [if_neg hboil]
            cases m.smallestColdUnion? s with
            | some e => simp [Int.not_le.mp hboil]
            | none => simp [hboil]

/-! ## What becomes of a new zone -/

/-- An access that lands on no zone makes a new one. -/
theorem receive_of_fresh (hl : m.landing s d = .fresh) (hr : m.receive s d = .ok r) :
    0 < d ∧ ∃ slot, m.Vacant slot ∧
      let z : Zone := ⟨s, min d maxHeat, false⟩
      r = ⟨(m.place slot z).1, some (m.place slot z).2, decide (m.params.Hot z),
        decide (m.params.Hot z), s⟩ := by
  unfold receive at hr
  rw [hl] at hr
  unfold receiveFresh at hr
  dsimp only at hr
  split at hr
  · cases hr
  · next hd =>
      cases hr
      exact ⟨Int.not_le.mp hd, _, slotFor_vacant m _, rfl⟩

/-- A new zone that no zone takes in stays as it is. If it is hot then so is the access, and no hot
zone overlaps it. -/
theorem settled_of_unclaimed (hfree : m.Unclaimed s d) (hl : m.landing s d = .fresh)
    (hr : m.receive s d = .ok r) : r.settled = r.map := by
  obtain ⟨-, slot, hslot, rfl⟩ := receive_of_fresh hl hr
  have hat := at?_place (z := ⟨s, min d maxHeat, false⟩) fun i hi => (hslot i hi).1
  unfold Receipt.settled
  dsimp only
  split
  · next hmarked =>
      have hboil : m.params.boiling ≤ d :=
        Int.le_trans (of_decide_eq_true hmarked) (Int.min_le_left _ _)
      refine settle_of_apart ((hat _).trans (if_pos rfl)) fun j z hz hot hj => ?_
      rw [hat, if_neg hj] at hz
      rw [place_params] at hot
      rw [HeatMap.order, place_params]
      exact hfree.hot hboil z (mem_zones.mpr ⟨j, hz⟩) hot
  · rfl

/-! ## The growth of a map -/

section

variable {a b : Key} {out : Outcome}

theorem access_live_le (h : m.Intact) (hout : m.access a b d = .ok out) :
    out.map.live ≤ max (m.live + 1) (m.params.target + 1) := by
  obtain ⟨r, i, new, -, hone, rfl, -⟩ := access_spec h hout
  have hwrite := hone.write.live_le
  have hsettle := settled_live_le h hone
  show r.settled.live ≤ _
  omega

/-- Past the target the count grows exactly when the access is unclaimed. -/
theorem live_lt_access_iff (h : m.Intact) (hout : m.access a b d = .ok out)
    (hlive : m.params.target < m.live) :
    m.live < out.map.live ↔ 0 < d ∧ m.Unclaimed (Span.between m.order a b) d := by
  obtain ⟨r, hr, rfl⟩ := access_eq_ok hout
  show m.live < r.settled.live ↔ _
  by_cases hl : m.landing (Span.between m.order a b) d = .fresh
  · obtain ⟨hd, slot, -, heq⟩ := receive_of_fresh hl hr
    have hfree := (landing_eq_fresh_iff_unclaimed hlive hd).mp hl
    have hgrown : r.map.live = m.live + 1 := by
      rw [heq]
      exact place_live m slot _
    rw [settled_of_unclaimed hfree hl hr, hgrown]
    exact ⟨fun _ => ⟨hd, hfree⟩, fun _ => Nat.lt_succ_self m.live⟩
  · obtain ⟨i, new, hone⟩ := receive_spec h (Span.between_proper m.order a b) hr
    have hkept := receive_live_le hr hl
    have hsettle := settled_live_le h hone
    constructor
    · intro hgrown
      omega
    · rintro ⟨hd, hfree⟩
      exact absurd ((landing_eq_fresh_iff_unclaimed hlive hd).mpr hfree) hl

/-- **The growth of a reachable map.** An access to a map within its target leaves at most one zone
more than the target. An access to a map that has passed it adds one zone at most, and it adds one
exactly if it brings heat, no zone has exactly its span, no hot zone covers it, and no hot zone
overlaps it if the access is as hot as the boiling point, and no cold one if it is not. -/
theorem access_growth (hm : m.Reachable) (hout : m.access a b d = .ok out) :
    let t := Span.between m.order a b
    (m.live ≤ m.params.target → out.map.live ≤ m.params.target + 1) ∧
    (m.params.target < m.live →
      out.map.live ≤ m.live + 1 ∧
      (m.live < out.map.live ↔
        0 < d ∧ (∀ z ∈ m.zones, ¬ z.span.Same m.order t) ∧
          (∀ z ∈ m.zones, m.params.Hot z → ¬ z.span.Covers m.order t) ∧
          (m.params.boiling ≤ d → ∀ z ∈ m.zones, m.params.Hot z → ¬ z.span.Meets m.order t) ∧
          (d < m.params.boiling →
            ∀ z ∈ m.zones, ¬ m.params.Hot z → ¬ z.span.Meets m.order t))) := by
  intro t
  have h := hm.intact
  have hle := access_live_le h hout
  refine ⟨fun hwithin => by omega, fun hpast => ⟨by omega, ?_⟩⟩
  rw [live_lt_access_iff h hout hpast]
  constructor
  · rintro ⟨hd, hfree⟩
    exact ⟨hd, hfree.same, hfree.inside, hfree.hot, hfree.cold⟩
  · rintro ⟨hd, hsame, hinside, hhot, hcold⟩
    exact ⟨hd, hsame, hinside, hhot, hcold⟩

/-- A split takes a map of two slots to three zones, one past its target. A lukewarm access that
overlaps only a hot zone then adds a fourth. -/
theorem access_growth_past_target :
    let p : Params := ⟨.bytewise, 2, 10, 3, .lowest, by decide, by decide, by decide, by decide⟩
    let m₁ := (empty p).serve (.access [1] [5] 20)
    let m₂ := m₁.serve (.access [3] [9] 30)
    m₁.Reachable ∧ m₂.Reachable ∧ m₁.live ≤ p.target ∧ p.target < m₂.live ∧
      (∃ out, m₁.access [3] [9] 30 = .ok out ∧ out.map = m₂ ∧ out.map.live ≤ p.target + 1) ∧
      ∃ out, m₂.access [8] [12] 5 = .ok out ∧ m₂.live < out.map.live := by
  intro p m₁ m₂
  have hm₁ : m₁.Reachable := (Reachable.empty p).serve _
  have hm₂ : m₂.Reachable := hm₁.serve _
  obtain ⟨out₁, hout₁⟩ := exists_access m₁ [3] [9] (d := 30) (by decide)
  obtain ⟨out₂, hout₂⟩ := exists_access m₂ [8] [12] (d := 5) (by decide)
  have hserved : out₁.map = m₂ := by
    show _ = m₁.serve (.access [3] [9] 30)
    rw [serve, hout₁]
  refine ⟨hm₁, hm₂, by decide, by decide, ⟨out₁, hout₁, hserved, ?_⟩, out₂, hout₂, ?_⟩
  · exact (access_growth hm₁ hout₁).1 (by decide)
  · exact ((access_growth hm₂ hout₂).2 (by decide)).2.mpr (by decide)

end

end HeatMap

end TierIndex
