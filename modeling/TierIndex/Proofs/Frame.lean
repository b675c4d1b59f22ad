import TierIndex.Proofs.Components
import TierIndex.Proofs.Refusal
import TierIndex.Proofs.Settle

set_option autoImplicit false

/-! # What an access leaves alone

An access writes to one slot, and the zone that comes out there is settled if it has become hot.
Settling changes no zone in another slot unless it is hot and joined to that one by a chain of
overlapping hot zones (`at?_settle_of_not_linked`). A merge frees the slots of such zones only, a
split writes over a zone that meets the settled one, and its shared piece goes into a slot that is
free. So whatever the access finds in the map, it stays within the connected component of its zone
(`access_frame`).
-/

namespace TierIndex

namespace HeatMap

variable {m : HeatMap} {i j : Nat} {u z : Zone}

/-! ## What settling leaves alone -/

/-- **Settling leaves alone what is not linked** to the settled zone. -/
theorem at?_settle_of_not_linked (h : m.Intact) (hu : m.at? i = some u) (hot : m.params.Hot u)
    (hz : m.at? j = some z) (hoff : ¬ m.Linked i j) : (m.settle i).at? j = some z := by
  rcases settle_cases hu with ⟨hs, -⟩ | ⟨k, v, hs, -, hv, hotv, hik, hmeets, -⟩ | hs
  · rw [hs]
    exact hz
  · -- the zone that the settled one is split with is linked to it
    have hjk : j ≠ k := by
      rintro rfl
      exact hoff (Overlap.linked ⟨u, v, hu, hv, hot, hotv, hmeets⟩)
    rw [hs]
    exact at?_splitAt_of_ne hik hu hv (ne_of_not_linked hoff) hjk hz
  · rw [hs, at?_mergeAt_of_not_linked h hu hot hoff]
    exact hz

/-! ## What an access leaves alone -/

section

variable {s : Span} {d : Int} {r : Receipt} {new : Option Zone}

/-- Nothing is settled unless a hot zone comes out. -/
theorem Receives.settled_of_not_hot (hrec : Receives m s r i new)
    (hcold : ∀ u, new = some u → ¬ m.params.Hot u) : r.settled = r.map := by
  rcases hrec.settled_cases with ⟨hsame, -⟩ | ⟨u, hnew, hmarked, -⟩
  · exact hsame
  · exact absurd (hrec.hot hmarked u hnew) (hcold u hnew)

theorem Receives.at?_settled (h : m.Intact) (hrec : Receives m s r i new) (hj : j ≠ i)
    (hz : m.at? j = some z) (hoff : ¬ m.params.Hot z ∨ ¬ r.map.Linked i j) :
    r.settled.at? j = some z := by
  have hkept : r.map.at? j = some z := (hrec.write.at?_of_ne hj).trans hz
  have hp : r.map.params = m.params := hrec.write.params
  rcases hrec.settled_cases with ⟨hsame, -⟩ | ⟨u, hnew, hmarked, hsettled⟩
  · rw [hsame]
    exact hkept
  · have hu : r.map.at? i = some u := hrec.write.at?_self.trans hnew
    have hot : r.map.params.Hot u := hp ▸ hrec.hot hmarked u hnew
    have hoff' : ¬ r.map.Linked i j := by
      rcases hoff with hcold | hoff
      · exact not_linked_of_cold hu hot hkept (hp ▸ hcold)
      · exact hoff
    rw [hsettled]
    exact at?_settle_of_not_linked (hrec.write.intact h) hu hot hkept hoff'

/-- **An access stays within the hot component that it joins.** It is received by one slot, the one
that it lands on if that is in use, and the map is as before everywhere else. Afterwards every zone of
another slot is what it was, unless it is hot and joined to the receiving zone by a chain of
overlapping hot zones. If the receiving zone is freed or comes out cold, nothing else changes. -/
theorem access_frame {a b : Key} {out : Outcome} (h : m.Intact) (hout : m.access a b d = .ok out) :
    let t := Span.between m.order a b
    ∃ r i new, m.receive t d = .ok r ∧ Reception m t d r i new ∧
      (∀ z, m.at? i = some z → (m.landing t d).zone? = some (i, z)) ∧
      r.map.at? i = new ∧ (∀ j, j ≠ i → r.map.at? j = m.at? j) ∧
      (∀ j z, j ≠ i → m.at? j = some z → ¬ m.params.Hot z ∨ ¬ r.map.Linked i j →
        out.map.at? j = some z) ∧
      ((∀ u, new = some u → ¬ m.params.Hot u) →
        out.map.at? i = new ∧ ∀ j, j ≠ i → out.map.at? j = m.at? j) := by
  intro t
  obtain ⟨r, hr, rfl⟩ := access_eq_ok hout
  obtain ⟨i, new, hrec, hlanding⟩ := receive_at_landing hr
  have hone := hrec.receives h (Span.between_proper m.order a b)
  refine ⟨r, i, new, hr, hrec, hlanding, hone.write.at?_self, fun j hj => hone.write.at?_of_ne hj,
    fun j z hj hz hoff => hone.at?_settled h hj hz hoff, fun hcold => ?_⟩
  show r.settled.at? i = new ∧ ∀ j, j ≠ i → r.settled.at? j = m.at? j
  rw [hone.settled_of_not_hot hcold]
  exact ⟨hone.write.at?_self, fun j hj => hone.write.at?_of_ne hj⟩

end

/-- Past the target, an access joins the first zone and merges it with the third one, whose slot is
freed. The cold zone that it covers and the hot zone further up stay in their slots. -/
theorem access_frame_joining :
    let p : Params := ⟨.bytewise, 1, 10, 3, .lowest, by decide, by decide, by decide, by decide⟩
    let m := ofZones p [⟨⟨[1], [4]⟩, 20, true⟩, ⟨⟨[2], [3]⟩, 5, true⟩, ⟨⟨[3], [7]⟩, 30, true⟩,
      ⟨⟨[20], [30]⟩, 40, true⟩]
    ∃ out, m.Intact ∧ m.access [2] [5] 12 = .ok out ∧ out.map.at? 2 = none ∧
      out.map.at? 1 = some ⟨⟨[2], [3]⟩, 5, true⟩ ∧
      out.map.at? 3 = some ⟨⟨[20], [30]⟩, 40, true⟩ := by
  intro p m
  have h : m.Intact := ofZones_intact (by decide)
  obtain ⟨out, hout⟩ := exists_access m [2] [5] (d := 12) (by decide)
  obtain ⟨r, i, new, hr, hrec, -, -, hrest, hframe, -⟩ := access_frame h hout
  have hone := hrec.receives h (Span.between_proper m.order [2] [5])
  have hjoin : m.receive ⟨[2], [5]⟩ 12 =
      .ok (m.receiveJoining 0 ⟨⟨[1], [4]⟩, 20, true⟩ ⟨[2], [5]⟩ 12) := by rfl
  obtain rfl := Except.ok.inj (hjoin.symm.trans hr)
  obtain rfl : i = 0 := by
    rcases Nat.eq_zero_or_pos i with hi | hi
    · exact hi
    · exact absurd (hrest 0 (Nat.ne_of_lt hi)) (by decide)
  -- a zone that is linked to the widened one would be covered by what it is merged into
  have hoff : ¬ (m.receiveJoining 0 ⟨⟨[1], [4]⟩, 20, true⟩ ⟨[2], [5]⟩ 12).map.Linked 0 3 := by
    intro hlinked
    have hcovers := merged_covers_linked (hone.write.intact h)
      (u := ⟨⟨[1], [5]⟩, 32, false⟩) (y := ⟨⟨[20], [30]⟩, 40, true⟩) (by decide) hlinked (by decide)
    exact absurd hcovers (by decide +kernel)
  have hrun : (m.access [2] [5] 12).toOption.map (fun out => out.map.at? 2) = some none := by
    decide +kernel
  rw [hout] at hrun
  exact ⟨out, h, hout, Option.some.inj hrun, hframe 1 _ (by decide) (by decide) (Or.inl (by decide)),
    hframe 3 _ (by decide) (by decide) (Or.inr hoff)⟩

end HeatMap

end TierIndex
