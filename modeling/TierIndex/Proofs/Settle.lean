import TierIndex.Proofs.Merge
import TierIndex.Proofs.Receive
import TierIndex.Proofs.Split

set_option autoImplicit false

/-! # Settling, and the access as a whole

Settling a zone does one of three things: nothing, if it has no rival; a split, if it has a
single one and the map has not passed its target; a merge otherwise (`settle_cases`). An
access is one write, followed by settling the written slot where that is marked
(`access_spec`). Both keep a map intact.
-/

namespace TierIndex

namespace HeatMap

variable {m : HeatMap} {i : Nat} {u : Zone}

/-! ## The three ways of settling -/

theorem mem_rivals {j : Nat} {z : Zone} :
    (j, z) ∈ m.rivals i u ↔
      (m.at? j = some z ∧ m.params.Hot z ∧ j ≠ i) ∧ z.span.Meets m.order u.span := by
  rw [rivals, mem_near, mem_hotOthers]

theorem settle_cases (hu : m.at? i = some u) :
    (m.settle i = m ∧
      ∀ j z, m.at? j = some z → m.params.Hot z → j ≠ i → ¬ z.span.Meets m.order u.span) ∨
    (∃ j v, m.settle i = m.splitAt i u j v ∧ m.live ≤ m.params.target ∧
      m.at? j = some v ∧ m.params.Hot v ∧ i ≠ j ∧ u.span.Meets m.order v.span ∧
      ∀ k z, m.at? k = some z → m.params.Hot z → k ≠ i → k ≠ j →
        ¬ z.span.Meets m.order u.span) ∨
    m.settle i = (m.mergeAt i).1 := by
  unfold settle
  rw [hu]
  dsimp only
  cases hr : m.rivals i u with
  | nil =>
      refine Or.inl ⟨rfl, fun j z hz hot hj hmeets => ?_⟩
      have hmem : (j, z) ∈ m.rivals i u := mem_rivals.mpr ⟨⟨hz, hot, hj⟩, hmeets⟩
      rw [hr] at hmem
      cases hmem
  | cons e l =>
      cases l with
      | cons e' l => exact Or.inr (Or.inr rfl)
      | nil =>
          obtain ⟨j, v⟩ := e
          by_cases hlive : m.live ≤ m.params.target
          · have hmem : (j, v) ∈ m.rivals i u := hr ▸ List.mem_cons_self
            obtain ⟨⟨hv, hot, hj⟩, hmeets⟩ := mem_rivals.mp hmem
            refine Or.inr (Or.inl ⟨j, v, if_pos hlive, hlive, hv, hot, Ne.symm hj,
              Span.meets_comm.mp hmeets, fun k z hz hot' hki hkj hmeets' => ?_⟩)
            have hmem' : (k, z) ∈ m.rivals i u := mem_rivals.mpr ⟨⟨hz, hot', hki⟩, hmeets'⟩
            rw [hr, List.mem_singleton] at hmem'
            exact hkj (Prod.mk.inj hmem').1
          · exact Or.inr (Or.inr (if_neg hlive))

/-- A zone that no other hot zone meets has nothing to settle. -/
theorem settle_of_apart (hu : m.at? i = some u)
    (hoff : ∀ j z, m.at? j = some z → m.params.Hot z → j ≠ i → ¬ z.span.Meets m.order u.span) :
    m.settle i = m := by
  have hnone : m.rivals i u = [] := by
    rw [List.eq_nil_iff_forall_not_mem]
    rintro ⟨j, z⟩ hmem
    obtain ⟨⟨hz, hot, hj⟩, hmeets⟩ := mem_rivals.mp hmem
    exact hoff j z hz hot hj hmeets
  unfold settle
  rw [hu]
  dsimp only
  rw [hnone]

theorem Intact.settle (h : m.Intact) (i : Nat) : (m.settle i).Intact := by
  cases hu : m.at? i with
  | none =>
      rw [settle_of_none hu]
      exact h
  | some u =>
      rcases settle_cases hu with ⟨hs, -⟩ | ⟨j, v, hs, -, hv, -, hij, hmeets, -⟩ | hs
      · rw [hs]
        exact h
      · rw [hs]
        exact h.splitAt hij hu hv hmeets
      · rw [hs]
        exact h.mergeAt hu

theorem settle_params (m : HeatMap) (i : Nat) : (m.settle i).params = m.params := by
  cases hu : m.at? i with
  | none => rw [settle_of_none hu]
  | some u =>
      rcases settle_cases hu with ⟨hs, -⟩ | ⟨j, v, hs, -⟩ | hs
      · rw [hs]
      · rw [hs, splitAt_params]
      · rw [hs, mergeAt_params]

/-! ## The access -/

/-- The written slot is settled if it holds a zone and the receipt is marked. -/
theorem Receives.settled_cases {s : Span} {r : Receipt} {new : Option Zone}
    (hrec : Receives m s r i new) :
    (r.settled = r.map ∧ (r.unsettled = true → new = none)) ∨
      ∃ u, new = some u ∧ r.unsettled = true ∧ r.settled = r.map.settle i := by
  unfold Receipt.settled
  rw [hrec.slot]
  cases hnew : new with
  | none => exact Or.inl ⟨rfl, fun _ => rfl⟩
  | some u =>
      cases hu : r.unsettled with
      | false => exact Or.inl ⟨rfl, fun hmarked => nomatch hmarked⟩
      | true => exact Or.inr ⟨u, rfl, rfl, rfl⟩

theorem Receives.settled_params {s : Span} {r : Receipt} {new : Option Zone}
    (hrec : Receives m s r i new) : r.settled.params = m.params := by
  rcases hrec.settled_cases with ⟨hsame, -⟩ | ⟨-, -, -, hsettled⟩
  · rw [hsame, hrec.write.params]
  · rw [hsettled, settle_params, hrec.write.params]

theorem access_eq_ok {a b : Key} {d : Int} {out : Outcome} (hout : m.access a b d = .ok out) :
    ∃ r, m.receive (Span.between m.order a b) d = .ok r ∧ out = ⟨r.settled, r.crossed, r.span⟩ := by
  unfold access at hout
  cases hr : m.receive (Span.between m.order a b) d with
  | error e =>
      rw [hr] at hout
      cases hout
  | ok r =>
      rw [hr] at hout
      cases hout
      exact ⟨r, rfl, rfl⟩

/-- **What an access does.** One write to slot `i`, which holds `new` afterwards; the slot is
settled if that is a zone and the receipt is marked. -/
theorem access_spec (h : m.Intact) {a b : Key} {d : Int} {out : Outcome}
    (hout : m.access a b d = .ok out) :
    ∃ r i new, m.receive (Span.between m.order a b) d = .ok r ∧
      Receives m (Span.between m.order a b) r i new ∧
      out = ⟨r.settled, r.crossed, r.span⟩ ∧
      ((r.settled = r.map ∧ (r.unsettled = true → new = none)) ∨
        ∃ u, new = some u ∧ r.unsettled = true ∧ r.settled = r.map.settle i) := by
  obtain ⟨r, hr, heq⟩ := access_eq_ok hout
  obtain ⟨i, new, hrec⟩ := receive_spec h (Span.between_proper m.order a b) hr
  exact ⟨r, i, new, hr, hrec, heq, hrec.settled_cases⟩

theorem Intact.access (h : m.Intact) {a b : Key} {d : Int} {out : Outcome}
    (hout : m.access a b d = .ok out) : out.map.Intact := by
  obtain ⟨r, i, new, -, hrec, rfl, ⟨hsame, -⟩ | ⟨u, -, -, hsettled⟩⟩ := access_spec h hout
  · show r.settled.Intact
    rw [hsame]
    exact hrec.write.intact h
  · show r.settled.Intact
    rw [hsettled]
    exact (hrec.write.intact h).settle i

theorem access_params (h : m.Intact) {a b : Key} {d : Int} {out : Outcome}
    (hout : m.access a b d = .ok out) : out.map.params = m.params := by
  obtain ⟨r, i, new, -, hrec, rfl, -⟩ := access_spec h hout
  exact hrec.settled_params

theorem Intact.mergeHot (h : m.Intact) : m.mergeHot.1.Intact :=
  (mergeHot_induction h (P := fun _ => True) trivial fun _ _ _ _ _ _ _ _ => trivial).1

theorem mergeHot_params (h : m.Intact) : m.mergeHot.1.params = m.params :=
  (mergeHot_induction h (P := fun _ => True) trivial fun _ _ _ _ _ _ _ _ => trivial).2.1

end HeatMap

end TierIndex
