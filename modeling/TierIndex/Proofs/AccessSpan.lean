import TierIndex.Proofs.HotKeys

set_option autoImplicit false

/-! # The span of an access

An access answers with a span beside the report of a move. That span is the accessed one, widened by
at most one zone, the one that the heat lands on (`receive_span`). Though settling may reach zones
far beyond it, the span bounds what the access changes: outside of it every key lies in some zone
exactly if it did before, and is on the side of the boiling point on which it was
(`access_within_span`).
-/

namespace TierIndex

/-- A span that covers another one is not widened by it. -/
theorem Span.union_eq_left {o : KeyOrder} {s t : Span} (h : s.Covers o t) : s.union o t = s := by
  have hlo : o.least s.lo t.lo = s.lo := if_neg (KeyOrder.not_lt.mpr h.1)
  have hhi : o.greatest s.hi t.hi = s.hi := if_neg (KeyOrder.not_lt.mpr h.2)
  rw [union, hlo, hhi]

namespace HeatMap

variable {m : HeatMap} {s : Span} {d : Int}

/-- Shifting the heat of a zone reports the span that is handed to it. -/
theorem receiveShift_span {i : Nat} {z : Zone} {covering : Bool} {t : Span} {r : Receipt}
    (hr : m.receiveShift i z d covering t = .ok r) : r.span = t := by
  unfold receiveShift at hr
  split at hr
  · cases hr
  · dsimp only at hr
    split at hr
    · cases hr
      rfl
    · cases hr
      rfl

/-- **The reported span** is the accessed one, or its union with the zone that the heat lands
on. -/
theorem receive_span {r : Receipt} (hr : m.receive s d = .ok r) :
    r.span = s ∨ ∃ i z, (m.landing s d).zone? = some (i, z) ∧ r.span = z.span.union m.order s := by
  have hsuits := landing_suits m s d
  unfold receive at hr
  cases hl : m.landing s d with
  | exact i z =>
      rw [hl] at hr
      exact Or.inl (receiveShift_span hr)
  | inside i z =>
      rw [hl] at hr hsuits
      obtain ⟨-, hcov⟩ := of_decide_eq_true hsuits.2.2.suits
      refine Or.inr ⟨i, z, rfl, ?_⟩
      rw [receiveShift_span hr, Span.union_eq_left hcov]
  | joining i z =>
      rw [hl] at hr
      cases hr
      exact Or.inr ⟨i, z, rfl, rfl⟩
  | widening i z =>
      rw [hl] at hr
      cases hr
      exact Or.inr ⟨i, z, rfl, rfl⟩
  | fresh =>
      rw [hl] at hr
      unfold receiveFresh at hr
      dsimp only at hr
      split at hr
      · cases hr
      · cases hr
        exact Or.inl rfl

/-- **An access changes nothing outside the span that it reports**, whatever overlaps there are. The
span covers the accessed one, and goes beyond it only as far as the zone that the heat lands on. A
key outside of it lies in some zone exactly if it did before, and the hottest zone that holds it is
at or above the boiling point exactly if it was before. -/
theorem access_within_span (h : m.Intact) {a b : Key} {out : Outcome}
    (hout : m.access a b d = .ok out) :
    let t := Span.between m.order a b
    (out.span.Covers m.order t ∧
      (out.span = t ∨
        ∃ i z, (m.landing t d).zone? = some (i, z) ∧ out.span = z.span.union m.order t)) ∧
    ∀ k, ¬ out.span.Holds m.order k →
      ((∃ z ∈ out.map.zones, z.span.Holds m.order k) ↔ ∃ z ∈ m.zones, z.span.Holds m.order k) ∧
      ((∃ z, out.map.find? k = some z ∧ m.params.boiling ≤ z.heat) ↔
        ∃ z, m.find? k = some z ∧ m.params.boiling ≤ z.heat) := by
  intro t
  have hp := access_params h hout
  have ho : out.map.order = m.order := congrArg Params.order hp
  have hcovers : out.span.Covers m.order t := by
    obtain ⟨r, i, new, -, hrec, rfl, -⟩ := access_spec h hout
    exact hrec.covers
  have hspan : out.span = t ∨
      ∃ i z, (m.landing t d).zone? = some (i, z) ∧ out.span = z.span.union m.order t := by
    obtain ⟨r, hr, rfl⟩ := access_eq_ok hout
    exact receive_span hr
  refine ⟨⟨hcovers, hspan⟩, fun k hk => ⟨?_, ?_⟩⟩
  · have hzero : 0 ≤ m.params.boiling :=
      Int.le_trans m.params.freezing_nonneg m.params.freezing_le_boiling
    calc (∃ z ∈ out.map.zones, z.span.Holds m.order k)
        ↔ out.map.HeldAt 0 k := by rw [(h.access hout).heldAt_zero_iff, ho]
      _ ↔ m.HeldAt 0 k := heldAt_access h hout hzero hk
      _ ↔ ∃ z ∈ m.zones, z.span.Holds m.order k := h.heldAt_zero_iff
  · calc (∃ z, out.map.find? k = some z ∧ m.params.boiling ≤ z.heat)
        ↔ out.map.HotAt k := by rw [← find?_hot_iff, hp]
      _ ↔ m.HotAt k := hotAt_access h hout hk
      _ ↔ ∃ z, m.find? k = some z ∧ m.params.boiling ≤ z.heat := find?_hot_iff.symm

/-- Three hot zones overlap in a loaded map. Past its target, an access joins the first one, and all
three are merged; the key at the far end, outside the reported span, stays hot. -/
theorem access_within_span_chain :
    let p : Params := ⟨.bytewise, 1, 10, 3, .lowest, by decide, by decide, by decide, by decide⟩
    let m := ofZones p [⟨⟨[1], [4]⟩, 20, true⟩, ⟨⟨[3], [7]⟩, 30, true⟩, ⟨⟨[6], [9]⟩, 40, false⟩]
    ∃ out, m.access [2] [5] 12 = .ok out ∧
      out.map.zones = [⟨⟨[1], [9]⟩, 102, false⟩] ∧ out.span = ⟨[1], [5]⟩ ∧
      ∃ z, out.map.find? [9] = some z ∧ 10 ≤ z.heat := by
  intro p m
  have h : m.Intact := ofZones_intact (by decide)
  have hrun : (m.access [2] [5] 12).toOption.map (fun out => (out.map.zones, out.span)) =
      some ([⟨⟨[1], [9]⟩, 102, false⟩], ⟨[1], [5]⟩) := by decide +kernel
  cases hout : m.access [2] [5] 12 with
  | error e =>
      rw [hout] at hrun
      cases hrun
  | ok out =>
      rw [hout] at hrun
      obtain ⟨hzones, hspan⟩ := Prod.mk.inj (Option.some.inj hrun)
      have hkeep := ((access_within_span h hout).2 [9] (by rw [hspan]; decide)).2
      exact ⟨out, rfl, hzones, hspan, hkeep.mpr ⟨⟨⟨[6], [9]⟩, 40, false⟩, by decide, by decide⟩⟩

end HeatMap

end TierIndex
