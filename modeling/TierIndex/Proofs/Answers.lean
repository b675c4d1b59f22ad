import TierIndex.HeatMap.Query
import TierIndex.Proofs.Slots

set_option autoImplicit false

/-! # What a heat map answers for a key

A key is **hot** when some hot zone holds it. The hottest zone that holds a key is hot exactly
if the key is (`find?_hot_iff`), so the answer for a key can be read off the hot zones alone,
without asking which zone is found. An answer that is said to be uniform is the right one for
every key of the zone (`findUniform?_uniform`).

Answers depend on the zones and their order only, and not on the slots between them
(`find?_congr`).
-/

namespace TierIndex

universe u v

/-- The best of mapped elements is the mapped best one. -/
theorem leftmostBest_map {α : Type u} {β : Type v} (beats : β → β → Bool) (f : α → β)
    (l : List α) :
    (leftmostBest (fun a b => beats (f a) (f b)) l).map f = leftmostBest beats (l.map f) := by
  induction l with
  | nil => rfl
  | cons a l ih =>
      rw [List.map_cons, leftmostBest, leftmostBest, ← ih]
      cases leftmostBest (fun a b => beats (f a) (f b)) l with
      | none => rfl
      | some b =>
          dsimp only [Option.map_some]
          split <;> rfl

/-- The hotter one of two zones beats the other. -/
def hotter (a b : Zone) : Bool := b.heat < a.heat

theorem hotter_ranking : Ranking hotter where
  asymm := by
    intro a b h
    have hab : b.heat < a.heat := of_decide_eq_true h
    exact decide_eq_false (by omega)
  strict := by
    intro a b c h
    have hab : b.heat < a.heat := of_decide_eq_true h
    by_cases hac : c.heat < a.heat
    · exact Or.inl (decide_eq_true hac)
    · exact Or.inr (decide_eq_true (by omega))

theorem Ranking.comap {α : Type u} {β : Type v} {beats : β → β → Bool} (hr : Ranking beats)
    (f : α → β) : Ranking fun a b => beats (f a) (f b) :=
  ⟨fun a b => hr.asymm (f a) (f b), fun a b c => hr.strict (f a) (f b) (f c)⟩

/-- Of the entries that it does not beat, the chosen one stands in the lowest slot. -/
theorem slot_le_of_leftmostBest {α : Type u} {beats : Nat × α → Nat × α → Bool}
    {l : List (Nat × α)} {a b : Nat × α} (hl : l.Pairwise fun a b => a.1 < b.1)
    (ha : leftmostBest beats l = some a) (hb : b ∈ l) (hab : beats a b = false) : a.1 ≤ b.1 := by
  obtain ⟨l₁, l₂, rfl, hbeats⟩ := leftmostBest_split ha
  rcases List.mem_append.mp hb with hbefore | hafter
  · -- what stands before it is beaten
    rw [hbeats b hbefore] at hab
    cases hab
  · rcases List.mem_cons.mp hafter with rfl | hlater
    · exact Nat.le_refl _
    · have hrest := (List.pairwise_append.mp hl).2.1
      exact Nat.le_of_lt ((List.pairwise_cons.mp hrest).1 b hlater)

namespace HeatMap

/-- Some hot zone holds the key. -/
def HotAt (m : HeatMap) (k : Key) : Prop :=
  ∃ i z, m.at? i = some z ∧ m.params.Hot z ∧ z.span.Holds m.order k

section

variable {m m' : HeatMap} {k : Key} {z : Zone}

/-! ## The hottest zone -/

/-- Of the zones with the property, the one in slot `i` is the hottest, and of several such the one
in the lowest slot. -/
structure Hottest (m : HeatMap) (p : Zone → Bool) (i : Nat) (z : Zone) : Prop where
  at_eq : m.at? i = some z
  suits : p z = true
  heat_le : ∀ j y, m.at? j = some y → p y = true → y.heat ≤ z.heat
  slot_le : ∀ j y, m.at? j = some y → p y = true → y.heat = z.heat → i ≤ j

theorem hottest?_eq_some {p : Zone → Bool} {i : Nat} (h : m.hottest? p = some (i, z)) :
    m.Hottest p i z := by
  have hentry : ∀ j y, m.at? j = some y → p y = true → (j, y) ∈ m.entries.filter fun e => p e.2 :=
    fun j y hy hp => List.mem_filter.mpr ⟨mem_entries.mpr hy, hp⟩
  obtain ⟨hmem, hp⟩ := List.mem_filter.mp (leftmostBest_mem h)
  have hbest : ∀ j y, m.at? j = some y → p y = true → y.heat ≤ z.heat := fun j y hy hp =>
    Int.not_lt.mp (of_decide_eq_false
      (leftmostBest_unbeaten (hotter_ranking.comap Prod.snd) h (j, y) (hentry j y hy hp)))
  refine ⟨mem_entries.mp hmem, hp, hbest, fun j y hy hpy heq => ?_⟩
  have hnot : ¬ y.heat < z.heat := by omega
  exact slot_le_of_leftmostBest (m.entries_pairwise.filter _) h (hentry j y hy hpy)
    (decide_eq_false hnot)

theorem hottest?_eq_none {p : Zone → Bool} :
    m.hottest? p = none ↔ ∀ i z, m.at? i = some z → p z ≠ true := by
  unfold hottest?
  rw [leftmostBest_eq_none, List.filter_eq_nil_iff]
  exact ⟨fun h i z hz => h (i, z) (mem_entries.mpr hz), fun h e he => h e.1 e.2 (mem_entries.mp he)⟩

/-- The zone that is found, without its slot. -/
theorem find?_eq (m : HeatMap) (k : Key) :
    m.find? k = leftmostBest hotter (m.zones.filter fun z => z.span.Holds m.order k) := by
  unfold find? findSlot? hottest?
  rw [← entries_map_snd, List.filter_map]
  exact leftmostBest_map hotter Prod.snd _

theorem find?_mem (h : m.find? k = some z) : z ∈ m.zones ∧ z.span.Holds m.order k := by
  rw [find?_eq] at h
  obtain ⟨hmem, hk⟩ := List.mem_filter.mp (leftmostBest_mem h)
  exact ⟨hmem, of_decide_eq_true hk⟩

/-- No zone that holds the key is hotter than the one that is found. -/
theorem heat_le_of_find? (h : m.find? k = some z) {y : Zone} (hy : y ∈ m.zones)
    (hk : y.span.Holds m.order k) : y.heat ≤ z.heat := by
  rw [find?_eq] at h
  have hmem : y ∈ m.zones.filter fun z => z.span.Holds m.order k :=
    List.mem_filter.mpr ⟨hy, decide_eq_true hk⟩
  have hbeat := leftmostBest_unbeaten hotter_ranking h y hmem
  exact Int.not_lt.mp (of_decide_eq_false hbeat)

theorem find?_eq_none : m.find? k = none ↔ ∀ z ∈ m.zones, ¬ z.span.Holds m.order k := by
  rw [find?_eq, leftmostBest_eq_none, List.filter_eq_nil_iff]
  constructor
  · intro h z hz hk
    exact h z hz (decide_eq_true hk)
  · intro h z hz hk
    exact h z hz (of_decide_eq_true hk)

/-- **The found zone is hot exactly if the key is.** -/
theorem find?_hot_iff : (∃ z, m.find? k = some z ∧ m.params.Hot z) ↔ m.HotAt k := by
  constructor
  · rintro ⟨z, hz, hot⟩
    obtain ⟨hmem, hk⟩ := find?_mem hz
    obtain ⟨i, hi⟩ := mem_zones.mp hmem
    exact ⟨i, z, hi, hot, hk⟩
  · rintro ⟨i, y, hi, hot, hk⟩
    have hy : y ∈ m.zones := mem_zones.mpr ⟨i, hi⟩
    cases hz : m.find? k with
    | none => exact absurd hk (find?_eq_none.mp hz y hy)
    | some z => exact ⟨z, rfl, Int.le_trans hot (heat_le_of_find? hz hy hk)⟩

theorem hot_iff_of_find? (h : m.find? k = some z) : m.params.Hot z ↔ m.HotAt k := by
  rw [← find?_hot_iff, h]
  constructor
  · intro hot
    exact ⟨z, rfl, hot⟩
  · rintro ⟨y, hy, hot⟩
    cases hy
    exact hot

/-! ## Uniform answers -/

theorem clearOfHot_iff {s : Span} :
    m.clearOfHot s = true ↔
      ∀ i z, m.at? i = some z → m.params.Hot z → ¬ z.span.Meets m.order s := by
  unfold clearOfHot hotEntries
  rw [List.all_eq_true]
  constructor
  · intro h i z hz hot
    have hmem : (i, z) ∈ m.entries.filter fun e => m.params.Hot e.2 :=
      List.mem_filter.mpr ⟨mem_entries.mpr hz, decide_eq_true hot⟩
    exact of_decide_eq_true (h (i, z) hmem)
  · rintro h ⟨i, z⟩ he
    obtain ⟨hmem, hot⟩ := List.mem_filter.mp he
    exact decide_eq_true (h i z (mem_entries.mp hmem) (of_decide_eq_true hot))

/-- A zone that is found, and whose answer is said to be uniform, lies wholly on its own side of
the boiling point. -/
theorem findUniform?_uniform (h : m.findUniform? k = some (z, true)) :
    z.span.Holds m.order k ∧ ∀ k', z.span.Holds m.order k' → (m.params.Hot z ↔ m.HotAt k') := by
  obtain ⟨y, hy, heq⟩ := Option.map_eq_some_iff.mp h
  obtain ⟨rfl, huniform⟩ := Prod.mk.inj heq
  obtain ⟨hmem, hk⟩ := find?_mem hy
  obtain ⟨i, hi⟩ := mem_zones.mp hmem
  refine ⟨hk, fun k' hk' => ⟨fun hot => ⟨i, y, hi, hot, hk'⟩, ?_⟩⟩
  rintro ⟨j, w, hw, hot, hwk⟩
  rcases (Bool.or_eq_true _ _).mp huniform with hhot | hclear
  · exact of_decide_eq_true hhot
  · -- a hot zone that holds a key of a cold zone meets it
    have hmeets : w.span.Meets m.order y.span := Span.meets_of_holds hwk hk'
    exact absurd hmeets (clearOfHot_iff.mp hclear j w hw hot)

theorem findUniform?_find? {b : Bool} (h : m.findUniform? k = some (z, b)) :
    m.find? k = some z := by
  obtain ⟨y, hy, heq⟩ := Option.map_eq_some_iff.mp h
  obtain ⟨rfl, -⟩ := Prod.mk.inj heq
  exact hy

theorem findUniform?_eq_none : m.findUniform? k = none ↔ m.find? k = none :=
  Option.map_eq_none_iff

/-! ## Answers depend on the zones only -/

theorem find?_congr (hz : m.zones = m'.zones) (ho : m.order = m'.order) (k : Key) :
    m.find? k = m'.find? k := by
  rw [find?_eq, find?_eq, hz, ho]

theorem clearOfHot_congr (hz : m.zones = m'.zones) (ho : m.order = m'.order)
    (hb : m.params.boiling = m'.params.boiling) (s : Span) :
    m.clearOfHot s = m'.clearOfHot s := by
  have key : ∀ m : HeatMap, m.clearOfHot s =
      (m.zones.filter fun z => m.params.boiling ≤ z.heat).all fun z =>
        ¬ z.span.Meets m.order s := by
    intro m
    rw [← entries_map_snd, List.filter_map, List.all_map]
    rfl
  simp only [key, hz, ho, hb]

theorem findUniform?_congr (hz : m.zones = m'.zones) (ho : m.order = m'.order)
    (hb : m.params.boiling = m'.params.boiling) (k : Key) :
    m.findUniform? k = m'.findUniform? k := by
  have hclear := clearOfHot_congr hz ho hb
  simp only [findUniform?, find?_congr hz ho, hclear, Params.Hot, hb]

theorem misplaced_congr (hz : m.zones = m'.zones) (hb : m.params.boiling = m'.params.boiling)
    (hf : m.params.freezing = m'.params.freezing) : m.misplaced = m'.misplaced := by
  simp only [misplaced, Params.Hot, hz, hb, hf]

theorem hotAt_congr (hz : m.zones = m'.zones) (ho : m.order = m'.order)
    (hb : m.params.boiling = m'.params.boiling) (k : Key) : m.HotAt k ↔ m'.HotAt k := by
  simp only [← find?_hot_iff, find?_congr hz ho, Params.Hot, hb]

end

end HeatMap

end TierIndex
