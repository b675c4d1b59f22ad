import TierIndex.Proofs.Grammar

set_option autoImplicit false

/-! # Records that are read back

Reading undoes writing: the records of sound zones with keys that fit are read as these very
zones, in the same order (`decode_encode`). What is written for such a zone are the bytes of a valid
record that stands for it (`exists_fields`). Heat, ends and tier each need their own reason. A sound
heat is a single byte other than zero and passes through the clamps on both sides, the ends are in
the order that the reader asks for, and the tier byte is `0` or `1`.

In the other direction nothing is known about the bytes, but what is read from them is sound
(`decode_sound`).
-/

namespace TierIndex

namespace Record

variable {o : KeyOrder}

/-! ## The byte of a heat -/

theorem toNat_heatByte {h : Int} (hpos : 1 ≤ h) (hle : h ≤ maxHeat) :
    ((heatByte h).toNat : Int) = h := by
  have hmax : h ≤ 250 := hle
  have hclamp : max 0 (min h maxHeat) = h := by
    rw [Int.min_eq_left hle, Int.max_eq_right (by omega)]
  have hbyte : (heatByte h).toNat = h.toNat % 2 ^ 8 := by
    rw [heatByte, hclamp]
    rfl
  omega

theorem heatByte_ne_zero {h : Int} (hpos : 1 ≤ h) (hle : h ≤ maxHeat) : heatByte h ≠ 0 := by
  intro hzero
  have hval := toNat_heatByte hpos hle
  rw [hzero] at hval
  have : ((0 : UInt8).toNat : Int) = 0 := rfl
  omega

/-! ## Reading what was written -/

/-- **What is written for a zone** is a valid record that stands for the zone. -/
theorem exists_fields {z : Zone} (hz : z.Sound o) (hfit : Fits z) :
    ∃ r : Fields, r.Valid o ∧ r.bytes = ofZone z ∧ r.zone = z := by
  have hheat : min ((heatByte z.heat).toNat : Int) maxHeat = z.heat := by
    rw [toNat_heatByte hz.heat_pos hz.heat_le]
    exact Int.min_eq_left hz.heat_le
  refine ⟨⟨heatByte z.heat, if z.fast then 1 else 0, z.span.lo, z.span.hi, hfit.1, hfit.2⟩,
    ⟨heatByte_ne_zero hz.heat_pos hz.heat_le, ?_, hz.proper⟩, ?_, ?_⟩
  · cases z.fast
    · exact Or.inl rfl
    · exact Or.inr rfl
  · simp [Fields.bytes, ofZone]
  · obtain ⟨span, heat, fast⟩ := z
    cases fast <;> simp [Fields.zone, hheat]

theorem exists_joined {zs : List Zone} (hsound : ∀ z ∈ zs, z.Sound o)
    (hfits : ∀ z ∈ zs, Fits z) :
    ∃ rs : List Fields, (∀ r ∈ rs, r.Valid o) ∧ zs.flatMap ofZone = joined rs ∧
      zs = rs.map Fields.zone := by
  induction zs with
  | nil => exact ⟨[], by simp, rfl, rfl⟩
  | cons z zs ih =>
      obtain ⟨hz, hzs⟩ := List.forall_mem_cons.mp hsound
      obtain ⟨hfit, hfits⟩ := List.forall_mem_cons.mp hfits
      obtain ⟨r, hvalid, hbytes, hzone⟩ := exists_fields hz hfit
      obtain ⟨rs, hall, hjoined, hzones⟩ := ih hzs hfits
      refine ⟨r :: rs, List.forall_mem_cons.mpr ⟨hvalid, hall⟩, ?_, ?_⟩
      · rw [List.flatMap_cons, ← hbytes, hjoined]
        rfl
      · rw [List.map_cons, hzone, ← hzones]

theorem encode_eq_ok {zs : List Zone} {bytes : List UInt8} :
    encode zs = .ok bytes ↔ (∀ z ∈ zs, Fits z) ∧ bytes = zs.flatMap ofZone := by
  unfold encode
  constructor
  · intro h
    split at h
    · cases h
    · next hnone =>
        refine ⟨fun z hz => ?_, (Except.ok.inj h).symm⟩
        have hz' := List.find?_eq_none.mp hnone z hz
        simpa using hz'
  · rintro ⟨hfits, rfl⟩
    have hnone : (zs.find? fun z => ¬ Fits z) = none :=
      List.find?_eq_none.mpr fun z hz => by simpa using hfits z hz
    rw [hnone]

/-- **Reading undoes writing.** -/
theorem decode_encode {zs : List Zone} {bytes : List UInt8} (hsound : ∀ z ∈ zs, z.Sound o)
    (h : encode zs = .ok bytes) : decode o bytes = .ok zs := by
  obtain ⟨hfits, rfl⟩ := encode_eq_ok.mp h
  exact decode_eq_ok_iff.mpr (exists_joined hsound hfits)

/-! ## What is read is sound -/

theorem Fields.Valid.sound {r : Fields} (h : r.Valid o) : r.zone.Sound o where
  proper := h.in_order
  heat_pos := by
    have hpos : r.heat.toNat ≠ 0 := fun h0 => h.heat_ne (UInt8.toNat_inj.mp h0)
    show (1 : Int) ≤ min (r.heat.toNat : Int) 250
    omega
  heat_le := Int.min_le_right _ _

theorem decode_sound {bytes : List UInt8} {zs : List Zone} (h : decode o bytes = .ok zs) :
    ∀ z ∈ zs, z.Sound o := by
  obtain ⟨rs, hall, -, rfl⟩ := decode_eq_ok_iff.mp h
  intro z hz
  obtain ⟨r, hr, rfl⟩ := List.mem_map.mp hz
  exact (hall r hr).sound

end Record

end TierIndex
