import TierIndex.Params

set_option autoImplicit false

/-! # Settings of a placer

What a user chooses: the parameters of the heat map, how often and how strongly it cools,
and how many moves may wait. Settings are plain numbers until they are checked; the checks
run in a fixed order and the first one that fails is reported.
-/

namespace TierIndex

/-- Unchecked settings, with the values that stand when nothing is chosen. -/
structure Settings where
  target : Nat := 1024
  boiling : Int := 10
  freezing : Int := 3
  policy : SlotPolicy := .lowest
  /-- The ticks from one cooling to the next. -/
  period : Int := 10
  /-- What a cooling leaves of every heat. -/
  factor : Double := .tenth
  /-- The moves that may wait in a queue. -/
  queue : Nat := 1024

namespace Settings

/-- The first reason why the settings cannot be used, if there is one. -/
def fault? (s : Settings) : Option SettingsFault :=
  if s.target = 0 then some .noTarget
  else if s.freezing < 0 ∨ maxHeat < s.boiling then some (.outsideHeats s.freezing s.boiling)
  else if s.boiling < s.freezing then some (.reversed s.boiling s.freezing)
  else if s.period < 1 then some .noPeriod
  else if ¬ s.factor.InUnit then some (.factorOutside s.factor)
  else if s.queue = 0 then some .noQueue
  else none

/-- The parameters of the heat map, if the settings can be used. -/
def params (s : Settings) (o : KeyOrder) : Except Fault Params :=
  match s.fault? with
  | some cause => .error (.settings cause)
  | none => Params.make o s.target s.boiling s.freezing s.policy

/-- Settings can be used exactly when none of them is out of its range. -/
theorem fault?_eq_none_iff {s : Settings} :
    s.fault? = none ↔
      0 < s.target ∧ 0 ≤ s.freezing ∧ s.freezing ≤ s.boiling ∧ s.boiling ≤ maxHeat ∧
        1 ≤ s.period ∧ s.factor.InUnit ∧ 0 < s.queue := by
  unfold fault?
  constructor
  · intro h
    split at h
    · cases h
    · split at h
      · cases h
      · split at h
        · cases h
        · split at h
          · cases h
          · split at h
            · cases h
            · split at h
              · cases h
              · next ht ho hr hp hf hq =>
                  exact ⟨by omega, by omega, by omega, by omega, by omega,
                    Decidable.not_not.mp hf, by omega⟩
  · rintro ⟨ht, hz, hr, hb, hp, hf, hq⟩
    rw [if_neg (by omega), if_neg (by omega), if_neg (by omega), if_neg (by omega),
      if_neg (Decidable.not_not.mpr hf), if_neg (by omega)]

end Settings

end TierIndex
