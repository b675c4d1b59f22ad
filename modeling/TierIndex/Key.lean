set_option autoImplicit false

/-! # Keys and their order

A key is a string of bytes. Keys are compared byte by byte, the shorter of two keys being
the smaller one when it begins the other. A store that keeps several versions of a key
appends a fixed number of version bytes to it; under the **versioned** order those bytes
are left out of every comparison, so that all versions of a key count as one.

Every comparison of the library goes through `KeyOrder.view`, the part of a key that the
order looks at: `a` is below `b` when the view of `a` is below the view of `b`.
-/

namespace TierIndex

/-- A key: a string of bytes. -/
abbrev Key := List UInt8

/-- The longest key that a stored record can hold, its length being written in one
byte. -/
def Key.maxLength : Nat := 255

/-- How keys are compared. -/
inductive KeyOrder where
  /-- All bytes count. -/
  | bytewise
  /-- The last `suffix` bytes are a version and do not count. -/
  | versioned (suffix : Nat)
  deriving DecidableEq

namespace KeyOrder

/-- The version length that is used when none is chosen. -/
def defaultSuffix : Nat := 8

/-- The bytes of a key that count. A key shorter than the version suffix has no version
part and counts as a whole. -/
def view : KeyOrder → Key → Key
  | .bytewise, k => k
  | .versioned n, k => if n ≤ k.length then k.take (k.length - n) else k

/-- `a` comes before `b` or counts as the same key. -/
abbrev Le (o : KeyOrder) (a b : Key) : Prop := o.view a ≤ o.view b

/-- `a` comes strictly before `b`. -/
abbrev Lt (o : KeyOrder) (a b : Key) : Prop := o.view a < o.view b

/-- `a` and `b` count as the same key. -/
abbrev Same (o : KeyOrder) (a b : Key) : Prop := o.view a = o.view b

/-- The order as a three-way comparison. -/
def compare (o : KeyOrder) (a b : Key) : Ordering :=
  if o.Lt a b then .lt else if o.Same a b then .eq else .gt

/-- The lesser of two keys; of two that count as the same, the first. -/
def least (o : KeyOrder) (a b : Key) : Key := if o.Lt b a then b else a

/-- The greater of two keys; of two that count as the same, the first. -/
def greatest (o : KeyOrder) (a b : Key) : Key := if o.Lt a b then b else a

/-! ## The order is a total preorder -/

theorem le_refl (o : KeyOrder) (a : Key) : o.Le a a := Std.le_refl _

theorem le_trans {o : KeyOrder} {a b c : Key} (h : o.Le a b) (h' : o.Le b c) : o.Le a c :=
  Std.le_trans h h'

theorem le_total (o : KeyOrder) (a b : Key) : o.Le a b ∨ o.Le b a := Std.le_total

theorem not_le {o : KeyOrder} {a b : Key} : ¬ o.Le a b ↔ o.Lt b a := Std.not_le

theorem not_lt {o : KeyOrder} {a b : Key} : ¬ o.Lt a b ↔ o.Le b a := Std.not_lt

theorem le_of_lt {o : KeyOrder} {a b : Key} (h : o.Lt a b) : o.Le a b := Std.le_of_lt h

theorem same_iff {o : KeyOrder} {a b : Key} : o.Same a b ↔ o.Le a b ∧ o.Le b a := by
  constructor
  · intro h
    exact ⟨Std.le_of_eq h, Std.le_of_eq h.symm⟩
  · rintro ⟨hab, hba⟩
    exact Std.le_antisymm hab hba

theorem lt_of_le_of_not_same {o : KeyOrder} {a b : Key} (h : o.Le a b) (h' : ¬ o.Same a b) :
    o.Lt a b :=
  not_le.mp fun hba => h' (same_iff.mpr ⟨h, hba⟩)

/-! ## What comparison says -/

theorem compare_eq_lt {o : KeyOrder} {a b : Key} : o.compare a b = .lt ↔ o.Lt a b := by
  unfold compare
  by_cases h : o.Lt a b
  · simp [h]
  · by_cases hs : o.Same a b
    · rw [if_neg h, if_pos hs]
      simp [h]
    · simp [h, hs]

theorem compare_eq_eq {o : KeyOrder} {a b : Key} : o.compare a b = .eq ↔ o.Same a b := by
  unfold compare
  by_cases h : o.Lt a b
  · have hs : ¬ o.Same a b := fun hs => not_le.mpr h (same_iff.mp hs).2
    simp [h, hs]
  · by_cases hs : o.Same a b
    · rw [if_neg h, if_pos hs]
      exact ⟨fun _ => hs, fun _ => rfl⟩
    · simp [h, hs]

theorem compare_eq_gt {o : KeyOrder} {a b : Key} : o.compare a b = .gt ↔ o.Lt b a := by
  unfold compare
  by_cases h : o.Lt a b
  · have hba : ¬ o.Lt b a := not_lt.mpr (le_of_lt h)
    simp [h, hba]
  · by_cases hs : o.Same a b
    · have hba : ¬ o.Lt b a := not_lt.mpr (same_iff.mp hs).1
      rw [if_neg h, if_pos hs]
      simp [hba]
    · have hba : o.Lt b a := lt_of_le_of_not_same (not_lt.mp h) fun hs' => hs hs'.symm
      simp [h, hs, hba]

/-! ## Bounds on the lesser and the greater key -/

theorem le_least_iff {o : KeyOrder} {a b c : Key} :
    o.Le c (o.least a b) ↔ o.Le c a ∧ o.Le c b := by
  unfold least
  by_cases h : o.Lt b a
  · rw [if_pos h]
    exact ⟨fun hc => ⟨le_trans hc (le_of_lt h), hc⟩, And.right⟩
  · rw [if_neg h]
    exact ⟨fun hc => ⟨hc, le_trans hc (not_lt.mp h)⟩, And.left⟩

theorem least_le_iff {o : KeyOrder} {a b c : Key} :
    o.Le (o.least a b) c ↔ o.Le a c ∨ o.Le b c := by
  unfold least
  by_cases h : o.Lt b a
  · rw [if_pos h]
    exact ⟨Or.inr, fun hc => hc.elim (le_trans (le_of_lt h)) id⟩
  · rw [if_neg h]
    exact ⟨Or.inl, fun hc => hc.elim id (le_trans (not_lt.mp h))⟩

theorem greatest_le_iff {o : KeyOrder} {a b c : Key} :
    o.Le (o.greatest a b) c ↔ o.Le a c ∧ o.Le b c := by
  unfold greatest
  by_cases h : o.Lt a b
  · rw [if_pos h]
    exact ⟨fun hc => ⟨le_trans (le_of_lt h) hc, hc⟩, And.right⟩
  · rw [if_neg h]
    exact ⟨fun hc => ⟨hc, le_trans (not_lt.mp h) hc⟩, And.left⟩

theorem le_greatest_iff {o : KeyOrder} {a b c : Key} :
    o.Le c (o.greatest a b) ↔ o.Le c a ∨ o.Le c b := by
  unfold greatest
  by_cases h : o.Lt a b
  · rw [if_pos h]
    exact ⟨Or.inr, fun hc => hc.elim (fun hca => le_trans hca (le_of_lt h)) id⟩
  · rw [if_neg h]
    exact ⟨Or.inl, fun hc => hc.elim id fun hcb => le_trans hcb (not_lt.mp h)⟩

end KeyOrder

end TierIndex
