import Mathlib.Algebra.Order.BigOperators.Group.List
import Mathlib.Algebra.Order.Group.Int
import TierIndex.Proofs.Components
import TierIndex.Proofs.HotKeys
import TierIndex.Proofs.Refusal
import TierIndex.Proofs.SplitKeys

set_option autoImplicit false

/-! # Heat that comes only adds

An access that brings heat is never refused, and no key loses by it, although zones may be cut down to
remainders, merged in a chain or freed on the way (`access_only_adds`). The zone that takes the heat
reaches as far as it did and becomes no colder (`Reception.grown`). Settling keeps for every key a
zone of the heat that it had, at any heat: over a key of both zones a split leaves the shared piece,
which is as hot as either, and over a key of one of them a piece with its heat (`HeldAt.splitAt`);
a merge ends with a zone that is as hot as each one that went into it (`HeldAt.mergeAt`). The lookup
answers with the hottest zone, so its answer does not fall.
-/

namespace TierIndex

variable {o : KeyOrder}

/-! ## As hot as each of the zones -/

/-- Over its own keys a zone is no hotter than the two together. -/
theorem le_jointHeat {a b : Zone} {k : Key} (ha : a.Sound o) (hb : b.Sound o)
    (hk : a.span.Holds o k) : a.heat ≤ jointHeat o a b k := by
  unfold jointHeat
  by_cases hkb : b.span.Holds o k
  · have hle := ha.heat_le
    have hpos := hb.heat_pos
    rw [if_pos ⟨hk, hkb⟩]
    omega
  · rw [if_neg fun hboth => hkb hboth.2, if_pos hk]

/-- A union of sound zones is as hot as each of them. -/
theorem Unites.le_heat {l : List Zone} {y z : Zone} (h : Unites o l z) (hl : ∀ x ∈ l, x.Sound o)
    (hy : y ∈ l) : y.heat ≤ z.heat := by
  have hnonneg : ∀ t ∈ l.map Zone.heat, (0 : Int) ≤ t := by
    intro t ht
    obtain ⟨x, hx, rfl⟩ := List.mem_map.mp ht
    have hpos := (hl x hx).heat_pos
    omega
  have hsum : y.heat ≤ (l.map Zone.heat).sum :=
    List.single_le_sum hnonneg y.heat (List.mem_map.mpr ⟨y, hy, rfl⟩)
  have hmax := (hl y hy).heat_le
  rw [h.heat_eq]
  omega

namespace HeatMap

variable {m m' : HeatMap} {i j : Nat} {a b u : Zone} {t : Int} {k : Key}

/-! ## The heat of a key -/

/-- The heat of the zone that is found for the key, zero if none is. -/
def heatAt (m : HeatMap) (k : Key) : Int :=
  match m.find? k with
  | none => 0
  | some z => z.heat

theorem Intact.heatAt_nonneg (h : m.Intact) (k : Key) : 0 ≤ m.heatAt k := by
  unfold heatAt
  split
  · exact Int.le_refl 0
  · next hz =>
      have hpos := (h.sound_of_mem (find?_mem hz).1).heat_pos
      omega

theorem Intact.heatAt_le (h : m.Intact) (k : Key) : m.heatAt k ≤ maxHeat := by
  unfold heatAt
  split
  · decide
  · next hz => exact (h.sound_of_mem (find?_mem hz).1).heat_le

/-- A key is at least as hot as some positive heat if a zone of that heat holds it. -/
theorem le_heatAt_iff (ht : 0 < t) : t ≤ m.heatAt k ↔ m.HeldAt t k := by
  unfold heatAt
  constructor
  · intro hle
    split at hle
    · omega
    · next z hz =>
        obtain ⟨hmem, hk⟩ := find?_mem hz
        obtain ⟨i, hi⟩ := mem_zones.mp hmem
        exact ⟨i, z, hi, hle, hk⟩
  · rintro ⟨i, y, hi, hty, hk⟩
    have hy : y ∈ m.zones := mem_zones.mpr ⟨i, hi⟩
    split
    · next hz => exact absurd hk (find?_eq_none.mp hz y hy)
    · next z hz => exact Int.le_trans hty (heat_le_of_find? hz hy hk)

theorem heatAt_le_heatAt (h' : m'.Intact) (hheld : ∀ t, m.HeldAt t k → m'.HeldAt t k) :
    m.heatAt k ≤ m'.heatAt k := by
  by_cases hpos : 0 < m.heatAt k
  · have hkept := hheld _ ((le_heatAt_iff hpos).mp (Int.le_refl _))
    exact (le_heatAt_iff hpos).mpr hkept
  · have hnonneg := h'.heatAt_nonneg k
    omega

/-! ## Settling -/

theorem HeldAt.splitAt (hk : m.HeldAt t k) (h : m.Intact) (hij : i ≠ j) (ha : m.at? i = some a)
    (hb : m.at? j = some b) (hmeets : a.span.Meets m.order b.span) :
    (m.splitAt i a j b).HeldAt t k := by
  rw [heldAt_iff (splitAt_params m i a j b)]
  have hsa := h.sound i a ha
  have hsb := h.sound j b hb
  -- a key of the two zones lies in a piece that is as hot as the two together
  have hpiece : a.span.Holds m.order k ∨ b.span.Holds m.order k → t ≤ jointHeat m.order a b k →
      ∃ l z, (m.splitAt i a j b).at? l = some z ∧ t ≤ z.heat ∧ z.span.Holds m.order k := by
    intro hkab ht
    obtain ⟨l, z, hz, hkz, hjoint⟩ := exists_pieceOf_joint h hij ha hb hmeets hkab
    exact ⟨l, z, hz.2, hjoint ▸ ht, hkz⟩
  obtain ⟨l, z, hz, ht, hkz⟩ := hk
  by_cases hli : l = i
  · rw [hli] at hz
    cases ha.symm.trans hz
    exact hpiece (Or.inl hkz) (Int.le_trans ht (le_jointHeat hsa hsb hkz))
  · by_cases hlj : l = j
    · rw [hlj] at hz
      cases hb.symm.trans hz
      refine hpiece (Or.inr hkz) (Int.le_trans ht ?_)
      rw [jointHeat_comm (Or.inr hkz)]
      exact le_jointHeat hsb hsa hkz
    · exact ⟨l, z, at?_splitAt_of_ne hij ha hb hli hlj hz, ht, hkz⟩

theorem HeldAt.mergeAt (hk : m.HeldAt t k) (h : m.Intact) (hu : m.at? i = some u) :
    (m.mergeAt i).1.HeldAt t k := by
  rw [heldAt_iff (mergeAt_params m i)]
  have hunites := merged_unites h hu
  have hsound : ∀ y ∈ ((i, u) :: m.absorbed i u).map Prod.snd, y.Sound m.order := by
    intro y hy
    obtain ⟨e, he, rfl⟩ := List.mem_map.mp hy
    rcases List.mem_cons.mp he with rfl | he
    · exact h.sound i u hu
    · exact h.sound e.1 e.2 ((mem_absorbed h).mp he).1
  -- what goes into the final zone is covered by it, and is no hotter
  have hfinal : ∀ l z, (l, z) ∈ (i, u) :: m.absorbed i u → t ≤ z.heat → z.span.Holds m.order k →
      ∃ l z, (m.mergeAt i).1.at? l = some z ∧ t ≤ z.heat ∧ z.span.Holds m.order k := by
    intro l z he ht hkz
    have hmem : z ∈ ((i, u) :: m.absorbed i u).map Prod.snd := List.mem_map.mpr ⟨(l, z), he, rfl⟩
    exact ⟨i, m.merged i u, at?_mergeAt_self h hu, Int.le_trans ht (hunites.le_heat hsound hmem),
      (hunites.covers z hmem).holds hkz⟩
  obtain ⟨l, z, hz, ht, hkz⟩ := hk
  by_cases hli : l = i
  · rw [hli] at hz
    cases hu.symm.trans hz
    exact hfinal i u List.mem_cons_self ht hkz
  · by_cases hin : l ∈ (m.absorbed i u).map Prod.fst
    · obtain ⟨⟨l', y⟩, he, rfl⟩ := List.mem_map.mp hin
      cases hz.symm.trans ((mem_absorbed h).mp he).1
      exact hfinal l' z (List.mem_cons_of_mem _ he) ht hkz
    · refine ⟨l, z, ?_, ht, hkz⟩
      rw [at?_mergeAt_absorbed hu, if_neg hli, if_neg hin]
      exact hz

/-- **Settling takes no heat from any key**, at whatever heat. -/
theorem HeldAt.settle (hk : m.HeldAt t k) (h : m.Intact) (i : Nat) : (m.settle i).HeldAt t k := by
  cases hu : m.at? i with
  | none =>
      rw [settle_of_none hu]
      exact hk
  | some u =>
      rcases settle_cases hu with ⟨hs, -⟩ | ⟨j, v, hs, -, hv, -, hij, hmeets, -⟩ | hs
      · rw [hs]
        exact hk
      · rw [hs]
        exact hk.splitAt h hij hu hv hmeets
      · rw [hs]
        exact hk.mergeAt h hu

/-! ## Receiving -/

section

variable {s : Span} {d : Int} {r : Receipt} {new : Option Zone}

/-- **The zone that takes the heat grows**: it covers the accessed span and the keys that it held,
and is no colder than it was. -/
theorem Reception.grown (h : m.Intact) (hrec : Reception m s d r i new) (hd : 0 < d) :
    ∃ u, new = some u ∧ u.span.Covers m.order s ∧
      ∀ z, m.at? i = some z → u.span.Covers m.order z.span ∧ z.heat ≤ u.heat := by
  have hnonneg : 0 ≤ d := Int.le_of_lt hd
  cases hrec with
  | @spent _ z _ hz _ _ _ hzero =>
      -- a rise leaves some heat
      have hpos := (h.sound i z hz).heat_pos
      have hle : z.heat ≤ Zone.shiftHeat z.heat d := Zone.le_shiftHeat hnonneg
      omega
  | @shifted _ z _ _ hz hcov =>
      refine ⟨_, rfl, hcov, fun y hy => ?_⟩
      cases hz.symm.trans hy
      exact ⟨Span.covers_refl _ _, Zone.le_shiftHeat hnonneg⟩
  | @joined _ z hz =>
      refine ⟨_, rfl, Span.union_covers_right _ _ _, fun y hy => ?_⟩
      cases hz.symm.trans hy
      exact ⟨Span.union_covers_left _ _ _, Zone.le_poolHeat (h.sound i z hz).heat_le hnonneg⟩
  | @widened _ z hz =>
      refine ⟨_, rfl, Span.union_covers_right _ _ _, fun y hy => ?_⟩
      cases hz.symm.trans hy
      exact ⟨Span.union_covers_left _ _ _, Zone.le_poolHeat (h.sound i z hz).heat_le hnonneg⟩
  | fresh hslot =>
      refine ⟨_, rfl, Span.covers_refl _ _, fun y hy => ?_⟩
      rw [place_at? hslot] at hy
      cases hy

/-- Receiving takes no heat from any key. -/
theorem HeldAt.receive (hk : m.HeldAt t k) (h : m.Intact) (hrec : Reception m s d r i new)
    (hone : Receives m s r i new) (hd : 0 < d) : r.map.HeldAt t k := by
  rw [heldAt_iff hone.write.params]
  obtain ⟨u, hnew, -, hgrown⟩ := hrec.grown h hd
  obtain ⟨l, z, hz, ht, hkz⟩ := hk
  by_cases hli : l = i
  · rw [hli] at hz
    obtain ⟨hcov, hle⟩ := hgrown z hz
    exact ⟨i, u, hone.write.at?_self.trans hnew, Int.le_trans ht hle, hcov.holds hkz⟩
  · exact ⟨l, z, (hone.write.at?_of_ne hli).trans hz, ht, hkz⟩

/-- The keys that lie in a zone after receiving are the former ones and those of the accessed
span. -/
theorem heldAt_zero_receive (h : m.Intact) (hrec : Reception m s d r i new)
    (hone : Receives m s r i new) (hd : 0 < d) :
    r.map.HeldAt 0 k ↔ m.HeldAt 0 k ∨ s.Holds m.order k := by
  constructor
  · rw [heldAt_iff hone.write.params]
    rintro ⟨l, z, hz, -, hkz⟩
    have hformer : ∀ l z, m.at? l = some z → z.span.Holds m.order k → m.HeldAt 0 k := by
      intro l z hz hkz
      have hpos := (h.sound l z hz).heat_pos
      exact ⟨l, z, hz, by omega, hkz⟩
    rw [hone.write.at?] at hz
    split at hz
    · rcases hrec.holds_new hz hkz with hks | ⟨y, hy, hky⟩
      · exact Or.inr hks
      · exact Or.inl (hformer i y hy hky)
    · exact Or.inl (hformer l z hz hkz)
  · rintro (hk | hk)
    · exact hk.receive h hrec hone hd
    · rw [heldAt_iff hone.write.params]
      obtain ⟨u, hnew, hcov, -⟩ := hrec.grown h hd
      have hu : r.map.at? i = some u := hone.write.at?_self.trans hnew
      have hpos := ((hone.write.intact h).sound i u hu).heat_pos
      exact ⟨i, u, hu, by omega, hcov.holds hk⟩

end

/-! ## The access -/

/-- **Heat that comes only adds.** In an intact map an access that brings heat succeeds. The keys
that lie in a zone afterwards are those that did before and those of the accessed span, and every key
is found at least as hot as it was, up to the limit. -/
theorem access_only_adds (h : m.Intact) (x y : Key) {d : Int} (hd : 0 < d) :
    ∃ out, m.access x y d = .ok out ∧ ∀ k,
      ((∃ z ∈ out.map.zones, z.span.Holds m.order k) ↔
        (∃ z ∈ m.zones, z.span.Holds m.order k) ∨ (Span.between m.order x y).Holds m.order k) ∧
      m.heatAt k ≤ out.map.heatAt k ∧ out.map.heatAt k ≤ maxHeat := by
  obtain ⟨out, hout⟩ := exists_access m x y hd
  have h' : out.map.Intact := h.access hout
  have ho : out.map.order = m.order := congrArg Params.order (access_params h hout)
  obtain ⟨r, hr, rfl⟩ := access_eq_ok hout
  obtain ⟨i, new, hrec⟩ := receive_cases hr
  have hone := hrec.receives h (Span.between_proper m.order x y)
  have hzero : 0 ≤ m.params.boiling :=
    Int.le_trans m.params.freezing_nonneg m.params.freezing_le_boiling
  refine ⟨_, hout, fun k => ⟨?_, ?_, h'.heatAt_le k⟩⟩
  · calc (∃ z ∈ r.settled.zones, z.span.Holds m.order k)
        ↔ r.settled.HeldAt 0 k := by rw [h'.heldAt_zero_iff, ho]
      _ ↔ r.map.HeldAt 0 k := heldAt_settled h hone hzero
      _ ↔ m.HeldAt 0 k ∨ (Span.between m.order x y).Holds m.order k :=
          heldAt_zero_receive h hrec hone hd
      _ ↔ _ := or_congr_left h.heldAt_zero_iff
  · refine heatAt_le_heatAt h' fun t hk => ?_
    have hreceived : r.map.HeldAt t k := hk.receive h hrec hone hd
    rcases hone.settled_cases with ⟨hsame, -⟩ | ⟨-, -, -, hsettled⟩
    · exact hsame ▸ hreceived
    · exact hsettled ▸ hreceived.settle (hone.write.intact h) i

/-- A new zone is split with the hot one that starts with it. Its slot is freed, the pooled heat is
cut off at the limit, and the cold zone within stays below. -/
theorem access_only_adds_same_start :
    let p : Params := ⟨.bytewise, 3, 10, 3, .lowest, by decide, by decide, by decide, by decide⟩
    let m := ofZones p [⟨⟨[1], [5]⟩, 20, true⟩, ⟨⟨[2], [3]⟩, 4, false⟩]
    0 < (245 : Int) ∧ m.Intact ∧
      ∃ out, m.access [9] [1] 245 = .ok out ∧
        out.map.slots = [some ⟨⟨[5], [9]⟩, 245, false⟩, some ⟨⟨[2], [3]⟩, 4, false⟩, none,
          some ⟨⟨[1], [5]⟩, 250, false⟩] ∧
        m.heatAt [2] ≤ out.map.heatAt [2] ∧ ∃ z ∈ out.map.zones, z.span.Holds .bytewise [9] := by
  intro p m
  have h : m.Intact := ofZones_intact (by decide)
  refine ⟨by decide, h, ?_⟩
  obtain ⟨out, hout, hadds⟩ := access_only_adds h [9] [1] (d := 245) (by decide)
  have hrun : (m.access [9] [1] 245).toOption.map (fun out => out.map.slots) =
      some [some ⟨⟨[5], [9]⟩, 245, false⟩, some ⟨⟨[2], [3]⟩, 4, false⟩, none,
        some ⟨⟨[1], [5]⟩, 250, false⟩] := by decide
  rw [hout] at hrun
  exact ⟨out, hout, Option.some.inj hrun, (hadds [2]).2.1, (hadds [9]).1.mpr (Or.inr (by decide))⟩

end HeatMap

end TierIndex
