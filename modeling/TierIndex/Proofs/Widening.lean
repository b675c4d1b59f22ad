import TierIndex.Proofs.Growth

set_option autoImplicit false

/-! # Which cold zone is widened

Past the target, an access that is not hot itself widens the cold zone whose union with the
accessed span is smallest. Of two unions the one that ends first is smaller, and of two that end
alike the one that starts last. This is a strict weak order (`smallerUnion_ranking`), and only
unions with the same ends are not told apart by it (`same_of_not_smallerUnion`). So there is one
smallest union, in whatever order the zones stand in the slots (`SmallestBelow.same_of_perm`), and
the slot of a zone counts only among the zones that have this union. No union lies strictly inside
the smallest one, because it would end earlier, or end alike and start later
(`not_strictlyInside`).

The search is a scan of the slots, which carries along the best union so far (`scanColdUnions`).
After any number of slots this is the smallest union of the zones seen (`seen_scanned`). That
determines the slot, so the scan ends in the slot that the map is defined to find
(`scanColdUnions_eq`).
-/

namespace TierIndex

/-- All keys of `s` are keys of `t`, but `t` has further keys. -/
def Span.StrictlyInside (o : KeyOrder) (s t : Span) : Prop :=
  (∀ k, s.Holds o k → t.Holds o k) ∧ ∃ k, t.Holds o k ∧ ¬ s.Holds o k

namespace HeatMap

/-! ## Smaller unions -/

section

variable {o : KeyOrder} {u v w : Span}

theorem smallerUnion_iff :
    smallerUnion o u v = true ↔ o.Lt u.hi v.hi ∨ (o.Same u.hi v.hi ∧ o.Lt v.lo u.lo) := by
  simp [smallerUnion]

theorem smallerUnion_eq_false :
    smallerUnion o u v = false ↔ o.Lt v.hi u.hi ∨ (o.Same v.hi u.hi ∧ o.Le u.lo v.lo) := by
  rw [← Bool.not_eq_true, smallerUnion_iff, not_or, not_and, KeyOrder.not_lt, KeyOrder.not_lt]
  constructor
  · rintro ⟨hhi, hlo⟩
    by_cases hsame : o.Same v.hi u.hi
    · exact Or.inr ⟨hsame, hlo hsame.symm⟩
    · exact Or.inl (KeyOrder.lt_of_le_of_not_same hhi hsame)
  · rintro (hlt | ⟨hsame, hlo⟩)
    · have hne : ¬ o.Same u.hi v.hi := fun hsame =>
        KeyOrder.not_le.mpr hlt (KeyOrder.same_iff.mp hsame).1
      exact ⟨KeyOrder.le_of_lt hlt, fun hsame => absurd hsame hne⟩
    · exact ⟨(KeyOrder.same_iff.mp hsame).1, fun _ => hlo⟩

/-- To be no smaller is transitive. -/
theorem smallerUnion_eq_false_trans (huv : smallerUnion o u v = false)
    (hvw : smallerUnion o v w = false) : smallerUnion o u w = false := by
  rw [smallerUnion_eq_false] at huv hvw ⊢
  rcases huv with huv | ⟨hvu, hlo⟩
  · rcases hvw with hvw | ⟨hwv, -⟩
    · exact Or.inl (Std.lt_trans hvw huv)
    · exact Or.inl (Std.lt_of_le_of_lt (KeyOrder.same_iff.mp hwv).1 huv)
  · rcases hvw with hvw | ⟨hwv, hlo'⟩
    · exact Or.inl (Std.lt_of_lt_of_le hvw (KeyOrder.same_iff.mp hvu).1)
    · exact Or.inr ⟨hwv.trans hvu, KeyOrder.le_trans hlo hlo'⟩

/-- **Unions are ranked.** -/
theorem smallerUnion_ranking (o : KeyOrder) : Ranking (smallerUnion o) where
  asymm := by
    intro u v huv
    rw [smallerUnion_iff] at huv
    rw [smallerUnion_eq_false]
    exact huv.imp_right fun h => ⟨h.1, KeyOrder.le_of_lt h.2⟩
  strict := by
    intro u v w huv
    cases huw : smallerUnion o u w with
    | true => exact Or.inl rfl
    | false =>
        cases hwv : smallerUnion o w v with
        | true => exact Or.inr rfl
        | false => exact absurd (smallerUnion_eq_false_trans huw hwv) (by simp [huv])

/-- Only unions with the same ends are not told apart. -/
theorem same_of_not_smallerUnion (huv : smallerUnion o u v = false)
    (hvu : smallerUnion o v u = false) : u.Same o v := by
  rw [smallerUnion_eq_false] at huv hvu
  rcases huv with huv | ⟨hhi, hlo⟩
  · rcases hvu with hvu | ⟨hhi, -⟩
    · exact absurd (KeyOrder.le_of_lt hvu) (KeyOrder.not_le.mpr huv)
    · exact absurd (KeyOrder.same_iff.mp hhi).1 (KeyOrder.not_le.mpr huv)
  · rcases hvu with hvu | ⟨-, hlo'⟩
    · exact absurd (KeyOrder.same_iff.mp hhi).1 (KeyOrder.not_le.mpr hvu)
    · exact ⟨KeyOrder.same_iff.mpr ⟨hlo, hlo'⟩, hhi.symm⟩

theorem not_smallerUnion_of_same (h : u.Same o v) : smallerUnion o u v = false :=
  smallerUnion_eq_false.mpr (Or.inr ⟨h.2.symm, (KeyOrder.same_iff.mp h.1).1⟩)

/-- What lies strictly inside a proper span is smaller. -/
theorem not_strictlyInside (hv : v.Proper o) (h : smallerUnion o v u = false) :
    ¬ v.StrictlyInside o u := by
  rintro ⟨hkeys, k, hk, hnot⟩
  have hlo : o.Le u.lo v.lo := (hkeys v.lo ⟨o.le_refl _, hv⟩).1
  have hhi : o.Le v.hi u.hi := (hkeys v.hi ⟨hv, o.le_refl _⟩).2
  -- the two ends are the same, so that there is no further key
  rcases smallerUnion_eq_false.mp h with hlt | ⟨hsame, hle⟩
  · exact KeyOrder.not_le.mpr hlt hhi
  · exact hnot ⟨KeyOrder.le_trans hle hk.1, KeyOrder.le_trans hk.2 (KeyOrder.same_iff.mp hsame).1⟩

end

/-! ## The smallest union of all -/

section

variable {m : HeatMap} {s u : Span} {i j n : Nat} {y z : Zone}

/-- The zone in slot `i` is cold and meets the span. -/
def ColdMeeting (m : HeatMap) (s : Span) (i : Nat) (z : Zone) : Prop :=
  m.at? i = some z ∧ ¬ m.params.Hot z ∧ z.span.Meets m.order s

/-- The span of the zone after it has been widened over `s`. -/
abbrev widened (m : HeatMap) (s : Span) (z : Zone) : Span := z.span.union m.order s

/-- Of the cold zones that meet the span and stand below slot `n`, the one in slot `i` has the
smallest union with it. Others may have the same union, but they stand in higher slots. -/
structure SmallestBelow (m : HeatMap) (s : Span) (n i : Nat) (z : Zone) : Prop where
  cold : m.ColdMeeting s i z
  lt : i < n
  first : ∀ j y, j < n → m.ColdMeeting s j y →
    smallerUnion m.order (m.widened s z) (m.widened s y) = true ∨
      ((m.widened s z).Same m.order (m.widened s y) ∧ i ≤ j)

theorem SmallestBelow.unbeaten (h : m.SmallestBelow s n i z) (hj : j < n)
    (hy : m.ColdMeeting s j y) : smallerUnion m.order (m.widened s y) (m.widened s z) = false := by
  rcases h.first j y hj hy with hsmaller | ⟨hsame, -⟩
  · exact (smallerUnion_ranking m.order).asymm _ _ hsmaller
  · exact not_smallerUnion_of_same (Span.same_comm.mp hsame)

/-- There is only one such slot. -/
theorem SmallestBelow.unique (h : m.SmallestBelow s n i z) (h' : m.SmallestBelow s n j y) :
    i = j := by
  -- by symmetry it is enough to bound one slot by the other
  have hle : ∀ {i j z y}, m.SmallestBelow s n i z → m.SmallestBelow s n j y → i ≤ j := by
    intro i j z y h h'
    rcases h.first j y h'.lt h'.cold with hsmaller | ⟨-, hle⟩
    · rw [h'.unbeaten h.lt h.cold] at hsmaller
      cases hsmaller
    · exact hle
  exact Nat.le_antisymm (hle h h') (hle h' h)

/-- The zone that is found is the one with the smallest union. -/
theorem smallestBelow_of_smallestColdUnion? (h : m.smallestColdUnion? s = some (i, z)) :
    m.SmallestBelow s m.capacity i z := by
  have hcold : m.ColdMeeting s i z := smallestColdUnion?_spec h
  refine ⟨hcold, lt_of_at? hcold.1, fun j y _ hy => ?_⟩
  have hmem : (j, y) ∈ m.entries.filter fun e =>
      ¬ m.params.Hot e.2 ∧ e.2.span.Meets m.order s :=
    List.mem_filter.mpr ⟨mem_entries.mpr hy.1, decide_eq_true hy.2⟩
  have hunbeaten : smallerUnion m.order (m.widened s y) (m.widened s z) = false :=
    leftmostBest_unbeaten ((smallerUnion_ranking m.order).comap fun e : Nat × Zone =>
      m.widened s e.2) h (j, y) hmem
  cases hsmaller : smallerUnion m.order (m.widened s z) (m.widened s y) with
  | true => exact Or.inl rfl
  | false =>
      have hslot : i ≤ j := slot_le_of_leftmostBest (m.entries_pairwise.filter _) h hmem hsmaller
      exact Or.inr ⟨same_of_not_smallerUnion hsmaller hunbeaten, hslot⟩

/-! ## The scan -/

/-- The best union so far and the union `u` of the zone in slot `i`: `u` replaces the best if it
ends earlier, or ends alike and starts later. -/
def keepSmaller (o : KeyOrder) (i : Nat) (u : Span) : Option (Nat × Span) → Option (Nat × Span)
  | none => some (i, u)
  | some (j, v) =>
      match o.compare u.hi v.hi with
      | .lt => some (i, u)
      | .eq => if o.compare u.lo v.lo = .gt then some (i, u) else some (j, v)
      | .gt => some (j, v)

/-- Look at slot `i`. A free slot, a hot zone and a zone that does not meet the span are passed
over. -/
def scanSlot (m : HeatMap) (s : Span) (best : Option (Nat × Span)) (i : Nat) :
    Option (Nat × Span) :=
  match m.at? i with
  | none => best
  | some z =>
      if m.params.Hot z ∨ ¬ z.span.Meets m.order s then best
      else keepSmaller m.order i (m.widened s z) best

/-- Look at the slots below `n`, from the first on. -/
def scanned (m : HeatMap) (s : Span) (n : Nat) : Option (Nat × Span) :=
  (List.range n).foldl (m.scanSlot s) none

/-- The slot in which a scan of all slots ends. -/
def scanColdUnions (m : HeatMap) (s : Span) : Option Nat :=
  (m.scanned s m.capacity).map Prod.fst

/-- What the scan carries along after it has seen the slots below `n`. -/
def Seen (m : HeatMap) (s : Span) (n : Nat) : Option (Nat × Span) → Prop
  | none => ∀ j y, j < n → ¬ m.ColdMeeting s j y
  | some (i, u) => ∃ z, m.SmallestBelow s n i z ∧ u = m.widened s z

theorem keepSmaller_some (o : KeyOrder) (u v : Span) :
    keepSmaller o i u (some (j, v)) = if smallerUnion o u v then some (i, u) else some (j, v) := by
  cases hhi : o.compare u.hi v.hi with
  | lt =>
      have hsmaller : smallerUnion o u v = true :=
        smallerUnion_iff.mpr (Or.inl (KeyOrder.compare_eq_lt.mp hhi))
      simp only [keepSmaller, hhi, hsmaller, if_true]
  | eq =>
      have hsame := KeyOrder.compare_eq_eq.mp hhi
      have hiff : smallerUnion o u v = true ↔ o.compare u.lo v.lo = .gt := by
        have hirrefl : ¬ o.Lt u.hi v.hi := KeyOrder.not_lt.mpr (KeyOrder.same_iff.mp hsame).2
        rw [smallerUnion_iff, KeyOrder.compare_eq_gt, or_iff_right hirrefl, and_iff_right hsame]
      simp only [keepSmaller, hhi, hiff]
  | gt =>
      have hnot : smallerUnion o u v = false :=
        smallerUnion_eq_false.mpr (Or.inl (KeyOrder.compare_eq_gt.mp hhi))
      simp only [keepSmaller, hhi, hnot, Bool.false_eq_true, if_false]

theorem scanSlot_of_coldMeeting (h : m.ColdMeeting s n z) (best : Option (Nat × Span)) :
    m.scanSlot s best n = keepSmaller m.order n (m.widened s z) best := by
  have hkeep : ¬ (m.params.Hot z ∨ ¬ z.span.Meets m.order s) := by
    rintro (hot | hnot)
    · exact h.2.1 hot
    · exact hnot h.2.2
  simp only [scanSlot, h.1, if_neg hkeep]

theorem scanSlot_of_not_coldMeeting (h : ∀ z, ¬ m.ColdMeeting s n z)
    (best : Option (Nat × Span)) : m.scanSlot s best n = best := by
  unfold scanSlot
  cases hz : m.at? n with
  | none => rfl
  | some z =>
      have hpass : m.params.Hot z ∨ ¬ z.span.Meets m.order s := by
        by_cases hot : m.params.Hot z
        · exact Or.inl hot
        · exact Or.inr fun hmeets => h z ⟨hz, hot, hmeets⟩
      exact if_pos hpass

/-! ## One slot more -/

/-- A zone whose union is smaller than all those before is the smallest now. -/
theorem smallestBelow_succ (hz : m.ColdMeeting s n z) (hall : ∀ j y, j < n → m.ColdMeeting s j y →
    smallerUnion m.order (m.widened s z) (m.widened s y) = true) :
    m.SmallestBelow s (n + 1) n z := by
  refine ⟨hz, Nat.lt_succ_self n, fun j y hj hy => ?_⟩
  rcases Nat.lt_succ_iff_lt_or_eq.mp hj with hlt | rfl
  · exact Or.inl (hall j y hlt hy)
  · cases hz.1.symm.trans hy.1
    exact Or.inr ⟨⟨rfl, rfl⟩, Nat.le_refl _⟩

/-- A zone whose union is smaller than the smallest one takes its place. -/
theorem SmallestBelow.replace (h : m.SmallestBelow s n i y) (hz : m.ColdMeeting s n z)
    (hsmaller : smallerUnion m.order (m.widened s z) (m.widened s y) = true) :
    m.SmallestBelow s (n + 1) n z := by
  refine smallestBelow_succ hz fun j w hj hw => ?_
  -- what `z` does not beat would beat what `z` beats
  refine ((smallerUnion_ranking m.order).strict _ _ (m.widened s w) hsmaller).resolve_right ?_
  rw [h.unbeaten hj hw]
  exact Bool.false_ne_true

/-- The smallest union stays the smallest unless the new one is smaller. -/
theorem SmallestBelow.keep (h : m.SmallestBelow s n i y) (hnot : ∀ z, m.ColdMeeting s n z →
    smallerUnion m.order (m.widened s z) (m.widened s y) = false) :
    m.SmallestBelow s (n + 1) i y := by
  refine ⟨h.cold, Nat.lt_succ_of_lt h.lt, fun j w hj hw => ?_⟩
  rcases Nat.lt_succ_iff_lt_or_eq.mp hj with hlt | rfl
  · exact h.first j w hlt hw
  · cases hyw : smallerUnion m.order (m.widened s y) (m.widened s w) with
    | true => exact Or.inl rfl
    | false =>
        exact Or.inr ⟨same_of_not_smallerUnion hyw (hnot w hw), Nat.le_of_lt h.lt⟩

/-- **One slot.** The scan goes on to carry the smallest union of the zones seen. -/
theorem Seen.scanSlot {best : Option (Nat × Span)} (h : m.Seen s n best) :
    m.Seen s (n + 1) (m.scanSlot s best n) := by
  by_cases hcold : ∃ z, m.ColdMeeting s n z
  · obtain ⟨z, hz⟩ := hcold
    rw [scanSlot_of_coldMeeting hz]
    cases best with
    | none =>
        have hfirst : m.SmallestBelow s (n + 1) n z :=
          smallestBelow_succ hz fun j y hj hy => absurd hy (h j y hj)
        exact ⟨z, hfirst, rfl⟩
    | some e =>
        obtain ⟨y, hy, hu⟩ := h
        rw [keepSmaller_some, hu]
        split
        · next hsmaller => exact ⟨z, hy.replace hz hsmaller, rfl⟩
        · next hnot =>
            refine ⟨y, hy.keep fun w hw => ?_, rfl⟩
            cases hz.1.symm.trans hw.1
            exact Bool.eq_false_iff.mpr hnot
  · have hnone : ∀ z, ¬ m.ColdMeeting s n z := fun z hz => hcold ⟨z, hz⟩
    rw [scanSlot_of_not_coldMeeting hnone]
    cases best with
    | none =>
        intro j y hj
        rcases Nat.lt_succ_iff_lt_or_eq.mp hj with hlt | rfl
        · exact h j y hlt
        · exact hnone y
    | some e =>
        obtain ⟨y, hy, hu⟩ := h
        exact ⟨y, hy.keep fun z hz => absurd hz (hnone z), hu⟩

/-! ## All slots -/

theorem seen_scanned (m : HeatMap) (s : Span) (n : Nat) : m.Seen s n (m.scanned s n) := by
  induction n with
  | zero => exact fun j y hj => absurd hj (Nat.not_lt_zero j)
  | succ n ih =>
      -- one slot more is one step of the scan
      have hstep : m.scanned s (n + 1) = m.scanSlot s (m.scanned s n) n := by
        rw [scanned, List.range_succ, List.foldl_append]
        rfl
      rw [hstep]
      exact ih.scanSlot

theorem smallestColdUnion?_isSome_iff :
    (m.smallestColdUnion? s).isSome ↔ ∃ i z, m.ColdMeeting s i z := by
  cases hfound : m.smallestColdUnion? s with
  | none =>
      rw [smallestColdUnion?_eq_none, forall_mem_zones] at hfound
      simp only [Option.isSome_none, Bool.false_eq_true, false_iff]
      rintro ⟨i, z, hz, hcold, hmeets⟩
      exact hfound i z hz hcold hmeets
  | some e => exact iff_of_true rfl ⟨e.1, e.2, smallestColdUnion?_spec hfound⟩

/-- **The scan ends in the slot of the smallest union.** -/
theorem scanColdUnions_eq (m : HeatMap) (s : Span) :
    m.scanColdUnions s = (m.smallestColdUnion? s).map Prod.fst := by
  have hseen := m.seen_scanned s m.capacity
  unfold scanColdUnions
  cases hscan : m.scanned s m.capacity with
  | none =>
      rw [hscan] at hseen
      cases hfound : m.smallestColdUnion? s with
      | none => rfl
      | some e =>
          have hcold := smallestColdUnion?_spec hfound
          exact absurd hcold (hseen e.1 e.2 (lt_of_at? hcold.1))
  | some b =>
      rw [hscan] at hseen
      obtain ⟨z, hz, -⟩ := hseen
      have hsome : (m.smallestColdUnion? s).isSome :=
        smallestColdUnion?_isSome_iff.mpr ⟨b.1, z, hz.cold⟩
      obtain ⟨e, hfound⟩ := Option.isSome_iff_exists.mp hsome
      rw [hfound]
      exact congrArg some (hz.unique (smallestBelow_of_smallestColdUnion? hfound))

/-! ## Another order of the slots -/

theorem exists_coldMeeting_iff :
    (∃ i, m.ColdMeeting s i z) ↔ z ∈ m.zones ∧ ¬ m.params.Hot z ∧ z.span.Meets m.order s := by
  rw [mem_zones, ← exists_and_right]
  rfl

theorem exists_coldMeeting_perm {l : List (Option Zone)} (hl : l.Perm m.slots) :
    (∃ i, ({ m with slots := l } : HeatMap).ColdMeeting s i z) ↔ ∃ i, m.ColdMeeting s i z := by
  have hzones : z ∈ ({ m with slots := l } : HeatMap).zones ↔ z ∈ m.zones :=
    (hl.filterMap id).mem_iff
  rw [exists_coldMeeting_iff, exists_coldMeeting_iff, hzones]

/-- **The smallest union does not depend on the order of the slots.** -/
theorem SmallestBelow.same_of_perm {l : List (Option Zone)} (hl : l.Perm m.slots)
    (h : m.SmallestBelow s m.capacity i z)
    (h' : ({ m with slots := l } : HeatMap).SmallestBelow s l.length j y) :
    (m.widened s y).Same m.order (m.widened s z) := by
  -- each of the two zones stands in some slot of the other map, whose choice it does not beat
  obtain ⟨i', hz⟩ := (exists_coldMeeting_perm hl).mpr ⟨i, h.cold⟩
  obtain ⟨j', hy⟩ := (exists_coldMeeting_perm hl).mp ⟨j, h'.cold⟩
  exact same_of_not_smallerUnion (h.unbeaten (lt_of_at? hy.1) hy) (h'.unbeaten (lt_of_at? hz.1) hz)

/-! ## The widened zone -/

/-- **The widened zone.** A scan of the slots finds a zone to be widened over a span exactly if some
cold zone meets the span. No cold zone that meets the span has a union with it that lies strictly
inside the union of the found zone: its union is larger, or the two unions are equal and its slot is
no lower. In any other order of the slots the found zone is one whose union has the same ends. -/
theorem widened_union_least (hs : s.Proper m.order) :
    m.scanColdUnions s = (m.smallestColdUnion? s).map Prod.fst ∧
    ((m.smallestColdUnion? s).isSome ↔ ∃ j y, m.ColdMeeting s j y) ∧
    ∀ i z, m.smallestColdUnion? s = some (i, z) →
      m.ColdMeeting s i z ∧
      (∀ j y, m.ColdMeeting s j y →
        ¬ (m.widened s y).StrictlyInside m.order (m.widened s z) ∧
        (smallerUnion m.order (m.widened s z) (m.widened s y) = true ∨
          ((m.widened s z).Same m.order (m.widened s y) ∧ i ≤ j))) ∧
      ∀ l : List (Option Zone), l.Perm m.slots →
        ∃ j y, ({ m with slots := l } : HeatMap).smallestColdUnion? s = some (j, y) ∧
          (∃ j', m.ColdMeeting s j' y) ∧ (m.widened s y).Same m.order (m.widened s z) := by
  refine ⟨scanColdUnions_eq m s, smallestColdUnion?_isSome_iff, fun i z hfound => ?_⟩
  have hsmallest := smallestBelow_of_smallestColdUnion? hfound
  refine ⟨hsmallest.cold, fun j y hy => ⟨?_, ?_⟩, fun l hl => ?_⟩
  · have hcover := Span.union_covers_right m.order y.span s
    have hproper : (m.widened s y).Proper m.order :=
      KeyOrder.le_trans hcover.1 (KeyOrder.le_trans hs hcover.2)
    exact not_strictlyInside hproper (hsmallest.unbeaten (lt_of_at? hy.1) hy)
  · exact hsmallest.first j y (lt_of_at? hy.1) hy
  · obtain ⟨i', hz⟩ := (exists_coldMeeting_perm hl).mpr ⟨i, hsmallest.cold⟩
    obtain ⟨⟨j, y⟩, hfound'⟩ := Option.isSome_iff_exists.mp
      (smallestColdUnion?_isSome_iff.mpr ⟨i', z, hz⟩)
    have hsmallest' := smallestBelow_of_smallestColdUnion? hfound'
    have hother := (exists_coldMeeting_perm hl).mp ⟨j, hsmallest'.cold⟩
    exact ⟨j, y, hfound', hother, hsmallest.same_of_perm hl hsmallest'⟩

end

/-- Three cold zones meet the span, and a hot one. The union of `far` ends latest. Those of `left`
and `right` count as equal, though they start with different bytes, and the lower slot decides. With
the slots reversed it is the other of the two that is found. -/
theorem widened_union_least_reversed :
    let p : Params := ⟨.versioned 1, 2, 10, 3, .lowest, by decide, by decide, by decide, by decide⟩
    let s : Span := ⟨[5, 9], [40, 0]⟩
    let hot : Zone := ⟨⟨[6, 0], [20, 0]⟩, 20, true⟩
    let far : Zone := ⟨⟨[7, 0], [45, 0]⟩, 2, false⟩
    let left : Zone := ⟨⟨[5, 1], [30, 2]⟩, 4, true⟩
    let right : Zone := ⟨⟨[15, 0], [25, 7]⟩, 2, false⟩
    let m : HeatMap := ⟨p, [some hot, some far, some left, none, some right], 4⟩
    let m' : HeatMap := { m with slots := m.slots.reverse }
    s.Proper m.order ∧ m.scanColdUnions s = some 2 ∧
      ¬ (m.widened s far).StrictlyInside m.order (m.widened s left) ∧
      smallerUnion m.order (m.widened s left) (m.widened s far) = true ∧
      m.smallestColdUnion? s = some (2, left) ∧ m'.smallestColdUnion? s = some (0, right) ∧
      (m.widened s right).Same m.order (m.widened s left) ∧
      m.widened s right ≠ m.widened s left := by
  intro p s hot far left right m m'
  have hs : s.Proper m.order := by decide
  have hfound : m.smallestColdUnion? s = some (2, left) := by decide
  have hfound' : m'.smallestColdUnion? s = some (0, right) := by decide
  have hfar : m.ColdMeeting s 1 far := ⟨by decide, by decide, by decide⟩
  obtain ⟨hscan, -, hchosen⟩ := widened_union_least (m := m) hs
  obtain ⟨-, hbest, horder⟩ := hchosen 2 left hfound
  obtain ⟨hinside, hlarger⟩ := hbest 1 far hfar
  obtain ⟨j, y, hother, -, hsame⟩ := horder m.slots.reverse (List.reverse_perm _)
  cases hother.symm.trans hfound'
  rw [hfound] at hscan
  have hslot : ¬ 2 ≤ 1 := by decide
  exact ⟨hs, hscan, hinside, hlarger.resolve_right fun h => hslot h.2, hfound, hfound', hsame,
    by decide⟩

end HeatMap

end TierIndex
