import TierIndex.Params
import TierIndex.Select

set_option autoImplicit false

/-! # The heat map: zones in numbered slots

A heat map keeps its zones in a row of slots, some of which may be free. The number of a
slot matters: where a rule finds several equally good zones, it takes the one in the lowest
slot, and reports list zones in slot order. The map also carries a running count of its
zones, which every operation adjusts as it fills and frees slots.

Operations are described through two views: `at? i`, the zone in slot `i`, and `entries`,
all zones with their slot numbers in slot order.
-/

namespace TierIndex

/-- Zones in numbered slots, with the count of the zones. -/
structure HeatMap where
  params : Params
  slots : List (Option Zone)
  live : Nat

namespace HeatMap

/-- The map with as many free slots as the target asks for. -/
def empty (p : Params) : HeatMap := ⟨p, List.replicate p.target none, 0⟩

/-- The map that holds the given zones in the first slots, followed by as many free slots
as the target still asks for. -/
def ofZones (p : Params) (zs : List Zone) : HeatMap :=
  ⟨p, zs.map some ++ List.replicate (p.target - zs.length) none, zs.length⟩

/-- The order of the map's keys. -/
abbrev order (m : HeatMap) : KeyOrder := m.params.order

/-- The zone in slot `i`, if that slot exists and is in use. -/
def at? (m : HeatMap) (i : Nat) : Option Zone := m.slots[i]?.join

/-- The zones of a row of slots with their numbers, the first slot having number `n`. -/
def entriesFrom : Nat → List (Option Zone) → List (Nat × Zone)
  | _, [] => []
  | n, none :: l => entriesFrom (n + 1) l
  | n, some z :: l => (n, z) :: entriesFrom (n + 1) l

/-- The zones with their slot numbers, in slot order. -/
def entries (m : HeatMap) : List (Nat × Zone) := entriesFrom 0 m.slots

/-- The zones in slot order. -/
def zones (m : HeatMap) : List Zone := m.slots.filterMap id

/-- The number of slots, free ones included. -/
def capacity (m : HeatMap) : Nat := m.slots.length

/-- The lowest free slot. -/
def firstFree? (m : HeatMap) : Option Nat := m.slots.findIdx? Option.isNone

/-! ## Filling and freeing slots -/

/-- Replace the zone in slot `i`, which is in use. -/
def put (m : HeatMap) (i : Nat) (z : Zone) : HeatMap :=
  { m with slots := m.slots.set i (some z) }

/-- Free slot `i`, which is in use. -/
def free (m : HeatMap) (i : Nat) : HeatMap :=
  { m with slots := m.slots.set i none, live := m.live - 1 }

/-- Put one more zone into the given free slot, or behind all slots. The second component
is the number of its slot. -/
def place (m : HeatMap) (slot : Option Nat) (z : Zone) : HeatMap × Nat :=
  match slot with
  | some i => ({ m with slots := m.slots.set i (some z), live := m.live + 1 }, i)
  | none => ({ m with slots := m.slots ++ [some z], live := m.live + 1 }, m.slots.length)

/-- Put one more zone into the lowest free slot, or behind all slots if there is none. -/
def insert (m : HeatMap) (z : Zone) : HeatMap := (m.place m.firstFree? z).1

/-! ## Choosing a zone -/

/-- The hottest zone with the property, with its slot. -/
def hottest? (m : HeatMap) (p : Zone → Bool) : Option (Nat × Zone) :=
  leftmostBest (fun a b => b.2.heat < a.2.heat) (m.entries.filter fun e => p e.2)

/-- The hot zones with their slots. -/
def hotEntries (m : HeatMap) : List (Nat × Zone) :=
  m.entries.filter fun e => m.params.Hot e.2

/-- The hot zones outside slot `i` with their slots. -/
def hotOthers (m : HeatMap) (i : Nat) : List (Nat × Zone) :=
  m.hotEntries.filter fun e => e.1 ≠ i

/-! ## What the operations do to the views -/

theorem mem_entriesFrom {n i : Nat} {l : List (Option Zone)} {z : Zone} :
    (i, z) ∈ entriesFrom n l ↔ n ≤ i ∧ l[i - n]?.join = some z := by
  induction l generalizing n with
  | nil => simp [entriesFrom]
  | cons x l ih =>
      have hshift : n + 1 ≤ i → (x :: l)[i - n]? = l[i - (n + 1)]? := by
        intro h
        rw [show i - n = i - (n + 1) + 1 by omega]
        rfl
      rcases Nat.lt_trichotomy i n with hlt | heq | hgt
      · cases x <;> simp only [entriesFrom, List.mem_cons, Prod.mk.injEq, ih] <;> omega
      · subst heq
        have hbelow : ¬ i + 1 ≤ i := Nat.not_succ_le_self i
        cases x with
        | none => simp [entriesFrom, ih, hbelow]
        | some y => simp [entriesFrom, ih, hbelow, eq_comm]
      · have hne : i ≠ n := by omega
        rw [hshift hgt]
        cases x <;> simp [entriesFrom, ih, hne] <;> omega

theorem mem_entries {m : HeatMap} {i : Nat} {z : Zone} :
    (i, z) ∈ m.entries ↔ m.at? i = some z := by
  simp [entries, at?, mem_entriesFrom]

theorem entriesFrom_map_snd (n : Nat) (l : List (Option Zone)) :
    (entriesFrom n l).map Prod.snd = l.filterMap id := by
  induction l generalizing n with
  | nil => rfl
  | cons x l ih => cases x <;> simp [entriesFrom, ih]

theorem entries_map_snd (m : HeatMap) : m.entries.map Prod.snd = m.zones :=
  entriesFrom_map_snd 0 m.slots

/-- Slot numbers rise along the entries, so no slot is listed twice. -/
theorem entriesFrom_pairwise (n : Nat) (l : List (Option Zone)) :
    (entriesFrom n l).Pairwise fun a b => a.1 < b.1 := by
  induction l generalizing n with
  | nil => exact List.Pairwise.nil
  | cons x l ih =>
      cases x with
      | none => exact ih (n + 1)
      | some z =>
          refine List.Pairwise.cons ?_ (ih (n + 1))
          rintro ⟨i, y⟩ h
          have := (mem_entriesFrom.mp h).1
          show n < i
          omega

theorem entries_pairwise (m : HeatMap) : m.entries.Pairwise fun a b => a.1 < b.1 :=
  entriesFrom_pairwise 0 m.slots

theorem at?_eq_none_of_le {m : HeatMap} {i : Nat} (h : m.slots.length ≤ i) : m.at? i = none := by
  simp [at?, List.getElem?_eq_none h]

theorem lt_of_at? {m : HeatMap} {i : Nat} {z : Zone} (h : m.at? i = some z) :
    i < m.slots.length := by
  rcases Nat.lt_or_ge i m.slots.length with hlt | hge
  · exact hlt
  · rw [at?_eq_none_of_le hge] at h
    exact absurd h (by simp)

theorem at?_put {m : HeatMap} {i : Nat} {z : Zone} (hi : i < m.slots.length) (j : Nat) :
    (m.put i z).at? j = if j = i then some z else m.at? j := by
  by_cases h : j = i
  · subst h; simp [at?, put, hi]
  · simp [at?, put, h, List.getElem?_set_ne (Ne.symm h)]

theorem at?_free (m : HeatMap) (i j : Nat) :
    (m.free i).at? j = if j = i then none else m.at? j := by
  by_cases h : j = i
  · subst h
    by_cases hj : j < m.slots.length
    · simp [at?, free, hj]
    · have hlen : (m.slots.set j none).length ≤ j := by simp; omega
      simp [at?, free, List.getElem?_eq_none hlen]
  · simp [at?, free, h, List.getElem?_set_ne (Ne.symm h)]

theorem firstFree?_spec {m : HeatMap} {i : Nat} (h : m.firstFree? = some i) :
    i < m.slots.length ∧ m.at? i = none := by
  obtain ⟨hi, hnone, _⟩ := List.findIdx?_eq_some_iff_getElem.mp h
  refine ⟨hi, ?_⟩
  cases hz : m.slots[i] with
  | none => simp [at?, List.getElem?_eq_getElem hi, hz]
  | some z => simp [hz] at hnone

theorem at?_place {m : HeatMap} {slot : Option Nat} {z : Zone}
    (h : ∀ i, slot = some i → i < m.slots.length) (j : Nat) :
    (m.place slot z).1.at? j = if j = (m.place slot z).2 then some z else m.at? j := by
  cases slot with
  | some i =>
      have hi := h i rfl
      by_cases hj : j = i
      · subst hj; simp [at?, place, hi]
      · simp [at?, place, hj, List.getElem?_set_ne (Ne.symm hj)]
  | none =>
      rcases Nat.lt_trichotomy j m.slots.length with hlt | heq | hgt
      · simp [at?, place, List.getElem?_append_left hlt, Nat.ne_of_lt hlt]
      · subst heq; simp [at?, place]
      · have hge : (m.slots ++ [some z]).length ≤ j := by simp; omega
        simp [at?, place, List.getElem?_eq_none hge, List.getElem?_eq_none (Nat.le_of_lt hgt),
          Nat.ne_of_gt hgt]

end HeatMap

end TierIndex
