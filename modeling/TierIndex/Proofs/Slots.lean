import TierIndex.HeatMap.Settle

set_option autoImplicit false

/-! # Slots and their zones

Every operation of a heat map is made of four writes: replace a zone, free a slot, put a zone
into a free slot, append a slot. This file says what they do to the number of zones, to the
lowest free slot, and, for several slots freed in a row, to the view `at?`.
-/

namespace TierIndex

namespace HeatMap

/-! ## Zones and their number -/

theorem at?_eq_some {m : HeatMap} {i : Nat} {z : Zone} :
    m.at? i = some z ↔ m.slots[i]? = some (some z) := by
  simp [at?, Option.join_eq_some_iff]

theorem mem_zones {m : HeatMap} {z : Zone} : z ∈ m.zones ↔ ∃ i, m.at? i = some z := by
  simp only [zones, List.mem_filterMap, id, at?_eq_some]
  constructor
  · rintro ⟨x, hx, rfl⟩
    exact List.mem_iff_getElem?.mp hx
  · rintro ⟨i, hi⟩
    exact ⟨some z, List.mem_of_getElem? hi, rfl⟩

@[simp] theorem zones_empty (p : Params) : (empty p).zones = [] := by
  simp [empty, zones]

@[simp] theorem at?_empty (p : Params) (i : Nat) : (empty p).at? i = none := by
  cases hz : (empty p).at? i with
  | none => rfl
  | some z =>
      have hmem : z ∈ (empty p).zones := mem_zones.mpr ⟨i, hz⟩
      rw [zones_empty] at hmem
      cases hmem

/-- What holds of the zones in any two slots holds of any two zones of the list of zones, and the
other way round. -/
theorem pairwise_zones_iff {m : HeatMap} {R : Zone → Zone → Prop} (hsymm : ∀ x y, R x y → R y x) :
    m.zones.Pairwise R ↔
      ∀ i j x y, i ≠ j → m.at? i = some x → m.at? j = some y → R x y := by
  have hslot : ∀ i (hi : i < m.slots.length), m.at? i = m.slots[i] := fun i hi => by
    simp [at?, hi]
  unfold zones
  rw [List.pairwise_filterMap, List.pairwise_iff_getElem]
  constructor
  · intro h
    have hlt : ∀ i j x y, i < j → m.at? i = some x → m.at? j = some y → R x y :=
      fun i j x y hij hx hy => h i j (lt_of_at? hx) (lt_of_at? hy) hij x
        ((hslot i _).symm.trans hx) y ((hslot j _).symm.trans hy)
    intro i j x y hij hx hy
    rcases Nat.lt_or_gt_of_ne hij with hlt' | hgt
    · exact hlt i j x y hlt' hx hy
    · exact hsymm y x (hlt j i y x hgt hy hx)
  · intro h i j hi hj hij x hx y hy
    exact h i j x y (Nat.ne_of_lt hij) ((hslot i hi).trans hx) ((hslot j hj).trans hy)

/-- As many zones as slots in use. -/
theorem length_zones (m : HeatMap) : m.zones.length = m.slots.countP Option.isSome := by
  rw [zones, List.length_filterMap_eq_countP]
  rfl

/-- The number of zones after slot `i` has been set: the old zone of the slot goes, the new
one comes. -/
theorem length_zones_set {m : HeatMap} {i : Nat} (hi : i < m.slots.length) (x : Option Zone)
    (n : Nat) :
    (⟨m.params, m.slots.set i x, n⟩ : HeatMap).zones.length =
      m.zones.length - (if (m.at? i).isSome then 1 else 0) + (if x.isSome then 1 else 0) := by
  have hat : m.at? i = m.slots[i] := by simp [at?, hi]
  rw [length_zones, length_zones, hat]
  exact List.countP_set hi

theorem length_zones_pos {m : HeatMap} {i : Nat} {y : Zone} (hy : m.at? i = some y) :
    0 < m.zones.length :=
  List.length_pos_of_mem (mem_zones.mpr ⟨i, hy⟩)

theorem length_zones_put {m : HeatMap} {i : Nat} {y : Zone} (hy : m.at? i = some y) (z : Zone) :
    (m.put i z).zones.length = m.zones.length := by
  have h : (m.put i z).zones.length = _ := length_zones_set (lt_of_at? hy) (some z) m.live
  have hpos := length_zones_pos hy
  -- one zone is taken off and one put back, so there has to be one
  rw [h, hy]
  simp
  omega

theorem length_zones_free {m : HeatMap} {i : Nat} {y : Zone} (hy : m.at? i = some y) :
    (m.free i).zones.length = m.zones.length - 1 := by
  have h : (m.free i).zones.length = _ := length_zones_set (lt_of_at? hy) none (m.live - 1)
  rw [h, hy]
  simp

/-- The slot, if one is given, exists and is free. -/
abbrev Vacant (m : HeatMap) (slot : Option Nat) : Prop :=
  ∀ i ∈ slot, i < m.slots.length ∧ m.at? i = none

open scoped List in
/-- One more zone, wherever it is put. -/
theorem zones_place_perm {m : HeatMap} {slot : Option Nat} (hs : m.Vacant slot) (z : Zone) :
    (m.place slot z).1.zones.Perm (z :: m.zones) := by
  cases slot with
  | none =>
      have hzones : (m.place none z).1.zones = m.zones ++ [z] := by simp [place, zones]
      rw [hzones]
      exact List.perm_append_singleton z m.zones
  | some i =>
      obtain ⟨hi, hnone⟩ := hs i rfl
      have hget : m.slots[i] = none := by simpa [at?, hi] using hnone
      have hold : m.slots = m.slots.take i ++ none :: m.slots.drop (i + 1) := by
        rw [← hget, List.getElem_cons_drop, List.take_append_drop]
      have hnew : m.slots.set i (some z) = m.slots.take i ++ some z :: m.slots.drop (i + 1) :=
        List.set_eq_take_append_cons_drop.trans (if_pos hi)
      calc (m.place (some i) z).1.zones
          = (m.slots.set i (some z)).filterMap id := rfl
        _ = (m.slots.take i).filterMap id ++ z :: (m.slots.drop (i + 1)).filterMap id := by
            rw [hnew, List.filterMap_append]
            rfl
        _ ~ z :: ((m.slots.take i).filterMap id ++ (m.slots.drop (i + 1)).filterMap id) :=
            List.perm_middle
        _ = z :: (m.slots.take i ++ none :: m.slots.drop (i + 1)).filterMap id := by
            rw [List.filterMap_append]
            rfl
        _ = z :: m.zones := by rw [← hold, zones]

theorem length_zones_place {m : HeatMap} {slot : Option Nat} (h : m.Vacant slot) (z : Zone) :
    (m.place slot z).1.zones.length = m.zones.length + 1 :=
  (zones_place_perm h z).length_eq

/-- Entries that stand in the order of their slots are all different. -/
theorem nodup_of_rising {l : List (Nat × Zone)} (h : l.Pairwise fun e f => e.1 < f.1) :
    l.Nodup := by
  apply h.imp
  intro e f hlt heq
  rw [heq] at hlt
  exact Nat.lt_irrefl f.1 hlt

/-! ## The slots stay the slots -/

@[simp] theorem put_params (m : HeatMap) (i : Nat) (z : Zone) : (m.put i z).params = m.params :=
  rfl

@[simp] theorem free_params (m : HeatMap) (i : Nat) : (m.free i).params = m.params := rfl

@[simp] theorem place_params (m : HeatMap) (slot : Option Nat) (z : Zone) :
    (m.place slot z).1.params = m.params := by
  cases slot <;> rfl

@[simp] theorem put_length (m : HeatMap) (i : Nat) (z : Zone) :
    (m.put i z).slots.length = m.slots.length := by
  simp [put]

@[simp] theorem free_length (m : HeatMap) (i : Nat) :
    (m.free i).slots.length = m.slots.length := by
  simp [free]

theorem place_length_le (m : HeatMap) (slot : Option Nat) (z : Zone) :
    m.slots.length ≤ (m.place slot z).1.slots.length := by
  cases slot <;> simp [place]

/-! ## One slot and the others -/

section

variable {m : HeatMap} {i j : Nat} {y : Zone}

theorem at?_put_of_ne (hy : m.at? i = some y) (hj : j ≠ i) (z : Zone) :
    (m.put i z).at? j = m.at? j := by
  rw [at?_put (lt_of_at? hy), if_neg hj]

/-- Replacing a zone by itself changes nothing. -/
theorem put_self (hy : m.at? i = some y) : m.put i y = m := by
  obtain ⟨hi, hget⟩ := List.getElem?_eq_some_iff.mp (at?_eq_some.mp hy)
  have hset : m.slots.set i (some y) = m.slots := hget ▸ List.set_getElem_self hi
  rw [put, hset]

theorem put_put (m : HeatMap) (i : Nat) (u v : Zone) : (m.put i u).put i v = m.put i v := by
  rw [put, put, put, List.set_set]

theorem free_put (hj : j ≠ i) (m : HeatMap) (u : Zone) :
    (m.put i u).free j = (m.free j).put i u := by
  rw [put, free, put, free, List.set_comm _ _ (Ne.symm hj)]

/-- A change of one slot as a change of all slots that leaves the others as they are. -/
theorem slots_set {f : Zone → Option Zone} (hy : m.at? i = some y)
    (hf : ∀ j z, j ≠ i → m.at? j = some z → f z = some z) :
    m.slots.set i (f y) = m.slots.map (·.bind f) := by
  have hget := at?_eq_some.mp hy
  apply List.ext_getElem?
  intro j
  rw [List.getElem?_map]
  by_cases hj : j = i
  · subst hj
    rw [List.getElem?_set_self (lt_of_at? hy), hget]
    rfl
  · rw [List.getElem?_set_ne (Ne.symm hj)]
    cases hx : m.slots[j]? with
    | none => rfl
    | some x =>
        cases x with
        | none => rfl
        | some z => exact congrArg some (hf j z hj (at?_eq_some.mpr hx)).symm

/-- Of entries in different slots, freeing the first leaves the others. -/
theorem at?_free_head {e : Nat × Zone} {l : List (Nat × Zone)}
    (hnd : ((e :: l).map Prod.fst).Nodup) (hl : ∀ f ∈ e :: l, m.at? f.1 = some f.2) :
    ∀ f ∈ l, (m.free e.1).at? f.1 = some f.2 := by
  intro f hf
  have hne : f.1 ≠ e.1 := by
    intro heq
    exact (List.nodup_cons.mp hnd).1 (heq ▸ List.mem_map.mpr ⟨f, hf, rfl⟩)
  rw [at?_free, if_neg hne]
  exact hl f (List.mem_cons_of_mem e hf)

theorem mergeAt_of_none (h : m.at? i = none) : m.mergeAt i = (m, 0) := by
  rw [mergeAt, h]

theorem settle_of_none (h : m.at? i = none) : m.settle i = m := by
  rw [settle, h]

end

/-! ## The slot of one more zone -/

/-- The slot that `insert` fills. -/
def freshSlot (m : HeatMap) : Nat := m.firstFree?.getD m.slots.length

theorem vacant_firstFree? (m : HeatMap) : m.Vacant m.firstFree? :=
  fun _ h => firstFree?_spec h

theorem at?_freshSlot (m : HeatMap) : m.at? m.freshSlot = none := by
  unfold freshSlot
  cases h : m.firstFree? with
  | none => exact at?_eq_none_of_le (Nat.le_refl _)
  | some i => exact (firstFree?_spec h).2

theorem ne_freshSlot {m : HeatMap} {i : Nat} {y : Zone} (hy : m.at? i = some y) :
    i ≠ m.freshSlot := by
  rintro rfl
  rw [at?_freshSlot] at hy
  cases hy

theorem at?_insert (m : HeatMap) (z : Zone) (j : Nat) :
    (m.insert z).at? j = if j = m.freshSlot then some z else m.at? j := by
  have hslot : (m.place m.firstFree? z).2 = m.freshSlot := by
    unfold freshSlot
    cases m.firstFree? <;> rfl
  rw [insert, at?_place fun i hi => (firstFree?_spec hi).1, hslot]

/-- Replacing a zone leaves the lowest free slot where it was. -/
theorem freshSlot_put {m : HeatMap} {i : Nat} {y : Zone} (hy : m.at? i = some y) (z : Zone) :
    (m.put i z).freshSlot = m.freshSlot := by
  have hlt := lt_of_at? hy
  have hget : m.slots[i] = some y := by simpa [at?, hlt] using hy
  have hsame : (m.slots.set i (some z)).map Option.isNone = m.slots.map Option.isNone := by
    rw [List.map_set]
    apply List.ext_getElem (by simp)
    intro j _ hj
    by_cases hij : i = j
    · subst hij
      simp [hget]
    · simp [List.getElem_set_ne hij]
  have hfind : (m.put i z).firstFree? = m.firstFree? := by
    show List.findIdx? Option.isNone (m.slots.set i (some z)) = List.findIdx? Option.isNone m.slots
    have := congrArg (List.findIdx? id) hsame
    rwa [List.findIdx?_map, List.findIdx?_map] at this
  rw [freshSlot, freshSlot, hfind, put_length]

/-! ## Several slots freed -/

@[simp] theorem freeAll_params (m : HeatMap) (l : List (Nat × Zone)) :
    (m.freeAll l).params = m.params := by
  induction l generalizing m with
  | nil => rfl
  | cons e l ih => exact ih (m.free e.1)

@[simp] theorem freeAll_length (m : HeatMap) (l : List (Nat × Zone)) :
    (m.freeAll l).slots.length = m.slots.length := by
  induction l generalizing m with
  | nil => rfl
  | cons e l ih => exact (ih (m.free e.1)).trans (free_length m e.1)

theorem at?_freeAll (m : HeatMap) (l : List (Nat × Zone)) (j : Nat) :
    (m.freeAll l).at? j = if j ∈ l.map Prod.fst then none else m.at? j := by
  induction l generalizing m with
  | nil => simp [freeAll]
  | cons e l ih =>
      show ((m.free e.1).freeAll l).at? j = _
      rw [ih, at?_free]
      by_cases hj : j = e.1
      · rw [if_pos hj, if_pos (List.mem_map.mpr ⟨e, List.mem_cons_self, hj.symm⟩), ite_self]
      · rw [if_neg hj, List.map_cons]
        simp only [List.mem_cons, hj, false_or]

theorem freeAll_append (m : HeatMap) (l l' : List (Nat × Zone)) :
    m.freeAll (l ++ l') = (m.freeAll l).freeAll l' :=
  List.foldl_append

theorem freeAll_put {l : List (Nat × Zone)} {i : Nat} (hi : i ∉ l.map Prod.fst) (m : HeatMap)
    (u : Zone) : (m.put i u).freeAll l = (m.freeAll l).put i u := by
  induction l generalizing m with
  | nil => rfl
  | cons e l ih =>
      rw [List.map_cons, List.mem_cons, not_or] at hi
      show ((m.put i u).free e.1).freeAll l = ((m.free e.1).freeAll l).put i u
      rw [free_put (Ne.symm hi.1), ih hi.2]

/-- Several slots freed and one filled again. -/
theorem at?_put_freeAll {m : HeatMap} {i : Nat} {u : Zone} (hu : m.at? i = some u)
    (l : List (Nat × Zone)) (z : Zone) (j : Nat) :
    ((m.freeAll l).put i z).at? j =
      if j = i then some z else if j ∈ l.map Prod.fst then none else m.at? j := by
  have hlt : i < (m.freeAll l).slots.length := by
    rw [freeAll_length]
    exact lt_of_at? hu
  rw [at?_put hlt, at?_freeAll]

end HeatMap

end TierIndex
