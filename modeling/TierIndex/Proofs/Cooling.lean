import TierIndex.Proofs.Intact

set_option autoImplicit false

/-! # Cooled heat

The heat left by a cooling is the whole part of a rounded product. A factor below one stays away
from one by at least half the distance of two neighbouring numbers (`unitsInOne_le_gap`), and so
the product stays away from the heat by more than rounding adds to it (`scale_lt`). Cooling by any
factor between zero and one thus lowers every heat (`cooledHeat_fades`).
-/

namespace TierIndex

namespace Double

/-- Rounding a quotient does not reach a whole number that is more than one half above it. -/
theorem roundQuotient_lt {n d t : Nat} (h : n < d * t) (hgap : d < 2 * (d * t - n)) :
    roundQuotient n d < t := by
  have hq : n / d < t := Nat.div_lt_of_lt_mul h
  have hdiv : d * (n / d) + n % d = n := Nat.div_add_mod n d
  unfold roundQuotient
  dsimp only
  split
  · next hround =>
      -- below the last step to `t` what is left over is less than one half
      rcases Nat.lt_or_ge (n / d + 1) t with hlt | hge
      · exact hlt
      · have heq : t = n / d + 1 := Nat.le_antisymm hge hq
        have hlast : d * t = d * (n / d) + d := by rw [heq, Nat.mul_add, Nat.mul_one]
        omega
  · exact hq

theorem spacing_pos (n : Nat) : 0 < spacing n := by
  rw [spacing, Nat.one_shiftLeft]
  exact Nat.two_pow_pos _

/-- The spacing is the weight of the last of fifty-three places, or one. -/
theorem spacing_le (n : Nat) : spacing n = 1 ∨ spacing n <<< 52 ≤ n := by
  rcases Nat.lt_or_ge n.log2 52 with hlt | hge
  · left
    rw [spacing, Nat.sub_eq_zero_of_le (Nat.le_of_lt hlt), Nat.shiftLeft_zero]
  · right
    have hne : n ≠ 0 := by
      rintro rfl
      rw [Nat.log2_zero] at hge
      omega
    have hself := Nat.log2_self_le hne
    rwa [spacing, ← Nat.shiftLeft_add, Nat.sub_add_cancel hge, Nat.one_shiftLeft]

theorem unitsInOne_eq : ∃ k, 53 ≤ k ∧ unitsInOne = 1 <<< k := ⟨1074, by omega, by rw [unitsInOne]⟩

/-- Rounding does not reach a multiple of the spacing that is more than half of it away. -/
theorem nearest_lt {n t : Nat} (h : n < t) (ht : spacing n ∣ t)
    (hgap : spacing n < 2 * (t - n)) : nearest n < t := by
  obtain ⟨c, rfl⟩ := ht
  calc nearest n = roundQuotient n (spacing n) * spacing n := rfl
    _ < c * spacing n := Nat.mul_lt_mul_of_pos_right (roundQuotient_lt h hgap) (spacing_pos n)
    _ = spacing n * c := Nat.mul_comm _ _

/-- A number of at most `a + b` binary places has at most `b` of them from the place `a`
on. -/
theorem log2_sub_le {n a b : Nat} (h : n < 1 <<< (a + b)) : n.log2 - a ≤ b := by
  rcases Nat.eq_zero_or_pos n with rfl | hpos
  · rw [Nat.log2_zero, Nat.zero_sub]
    exact Nat.zero_le b
  · rw [Nat.one_shiftLeft] at h
    have := (Nat.log2_lt (Nat.ne_of_gt hpos)).mpr h
    omega

/-- Below one shifted by fifty-two places the spacing divides one. -/
theorem spacing_dvd_unitsInOne {n : Nat} (h : n < unitsInOne <<< 52) :
    spacing n ∣ unitsInOne := by
  obtain ⟨k, -, hk⟩ := unitsInOne_eq
  rw [hk, ← Nat.shiftLeft_add, Nat.add_comm] at h
  rw [hk, spacing, Nat.one_shiftLeft, Nat.one_shiftLeft]
  exact Nat.pow_dvd_pow 2 (log2_sub_le h)

/-! ## The product -/

/-- A number of fifty-three places that ends below a power of two stays away from it by the weight
of its last place. -/
theorem one_shiftLeft_le_gap {a p k : Nat} (ha : a < 1 <<< 53) (hp : p + 53 ≤ k) :
    1 <<< k ≤ ((1 <<< k) - a <<< p) <<< 53 := by
  obtain ⟨q, rfl⟩ := Nat.exists_eq_add_of_le hp
  have hwhole : 1 <<< (p + 53 + q) = (1 <<< p * 1 <<< q) <<< 53 := by
    simp only [Nat.shiftLeft_eq, Nat.one_mul, Nat.pow_add, Nat.mul_right_comm]
  have hplace : a <<< p + 1 <<< p ≤ (1 <<< p) <<< 53 :=
    calc a <<< p + 1 <<< p = (a + 1) <<< p := by simp only [Nat.shiftLeft_eq, Nat.add_mul]
      _ ≤ (1 <<< 53) <<< p := by
          rw [Nat.shiftLeft_eq _ p, Nat.shiftLeft_eq _ p]
          exact Nat.mul_le_mul_right _ ha
      _ = (1 <<< p) <<< 53 := by rw [← Nat.shiftLeft_add, ← Nat.shiftLeft_add, Nat.add_comm]
  have hone : 1 <<< p * 1 ≤ 1 <<< p * 1 <<< q := by
    rw [Nat.one_shiftLeft q]
    exact Nat.mul_le_mul_left _ (Nat.two_pow_pos q)
  rw [hwhole]
  omega

/-- **A number below one stays away from one** by at least the weight of the last of fifty-three
places. -/
theorem unitsInOne_le_gap {x : Double} (hx : x.units < unitsInOne) :
    unitsInOne ≤ (unitsInOne - x.units) <<< 53 := by
  obtain ⟨k, hk, hone⟩ := unitsInOne_eq
  have hfraction : x.fraction < 1 <<< 52 := Nat.mod_lt _ (by decide)
  rw [hone] at hx ⊢
  unfold units at hx ⊢
  split
  · simpa using one_shiftLeft_le_gap (p := 0) (show x.fraction < 1 <<< 53 by omega) hk
  · next hexp =>
      rw [if_neg hexp] at hx
      refine one_shiftLeft_le_gap (by omega) ?_
      -- the leading place of the number lies below the power
      have hlead : 1 <<< (52 + (x.exponent - 1)) < 1 <<< k :=
        calc 1 <<< (52 + (x.exponent - 1)) = (1 <<< 52) <<< (x.exponent - 1) :=
              Nat.shiftLeft_add ..
          _ ≤ ((1 <<< 52) + x.fraction) <<< (x.exponent - 1) := by
              rw [Nat.shiftLeft_eq _ (x.exponent - 1), Nat.shiftLeft_eq _ (x.exponent - 1)]
              exact Nat.mul_le_mul_right _ (Nat.le_add_right ..)
          _ < 1 <<< k := hx
      rw [Nat.one_shiftLeft, Nat.one_shiftLeft] at hlead
      have := (Nat.pow_lt_pow_iff_right (by decide)).mp hlead
      omega

/-- **A factor below one lowers every whole number.** -/
theorem scale_lt {x : Double} (hx : x.InUnit) {n : Nat} (hpos : 0 < n) (hn : n < 1 <<< 52) :
    x.scale n < n := by
  have hone : x.units < unitsInOne := hx.2.2.2
  have hlt : n * x.units < n * unitsInOne := Nat.mul_lt_mul_of_pos_left hone hpos
  have hsmall : n * x.units < unitsInOne <<< 52 := by
    rw [Nat.one_shiftLeft] at hn
    rw [Nat.shiftLeft_eq, Nat.mul_comm unitsInOne]
    exact Nat.lt_of_lt_of_le hlt (Nat.mul_le_mul_right _ (Nat.le_of_lt hn))
  have hdvd : spacing (n * x.units) ∣ n * unitsInOne :=
    Nat.dvd_mul_left_of_dvd (spacing_dvd_unitsInOne hsmall) n
  have hgap : n * unitsInOne ≤ (n * unitsInOne - n * x.units) <<< 53 :=
    calc n * unitsInOne ≤ n * (unitsInOne - x.units) <<< 53 :=
          Nat.mul_le_mul_left n (unitsInOne_le_gap hone)
      _ = (n * unitsInOne - n * x.units) <<< 53 := by
          rw [← Nat.mul_sub, Nat.shiftLeft_eq, Nat.shiftLeft_eq, Nat.mul_assoc]
  have hspacing : spacing (n * x.units) < 2 * (n * unitsInOne - n * x.units) := by
    rcases spacing_le (n * x.units) with heq | hle <;> omega
  exact Nat.div_lt_of_lt_mul (Nat.mul_comm n _ ▸ nearest_lt hlt hdvd hspacing)

end Double

namespace HeatMap

/-- Every heat is lowered, and none to less than zero. -/
abbrev Fades (decay : Int → Int) : Prop :=
  ∀ h : Int, 1 ≤ h → h ≤ maxHeat → 0 ≤ decay h ∧ decay h < h

theorem Fades.decays {decay : Int → Int} (h : Fades decay) : Decays decay := fun heat hpos hle =>
  ⟨(h heat hpos hle).1, Int.le_of_lt (h heat hpos hle).2⟩

theorem cooledHeat_fades {factor : Double} (h : factor.InUnit) : Fades (cooledHeat factor) := by
  intro heat hpos hle
  rw [maxHeat] at hle
  have hscale := Double.scale_lt h (n := heat.toNat) (by omega) (by omega)
  unfold cooledHeat
  omega

theorem cooledHeat_decays {factor : Double} (h : factor.InUnit) : Decays (cooledHeat factor) :=
  (cooledHeat_fades h).decays

variable {m m' : HeatMap} {factor : Double} {frozen : List Span}

theorem cool_eq_ok (hm : m.cool factor = .ok (m', frozen)) :
    factor.InUnit ∧ m.decayBy (cooledHeat factor) = (m', frozen) := by
  unfold cool at hm
  split at hm
  · next h => exact ⟨h, Except.ok.inj hm⟩
  · cases hm

theorem Intact.cool (h : m.Intact) (hm : m.cool factor = .ok (m', frozen)) : m'.Intact := by
  obtain ⟨hunit, hdecay⟩ := cool_eq_ok hm
  have hintact := h.decayBy (cooledHeat_decays hunit)
  rw [hdecay] at hintact
  exact hintact

end HeatMap

end TierIndex
