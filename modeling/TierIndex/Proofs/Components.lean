import Mathlib.Algebra.Ring.Int.Defs
import Mathlib.Logic.Relation
import TierIndex.Proofs.Merge

set_option autoImplicit false

/-! # What a merge reaches

The hot zones of a map are the nodes of a graph in which those that meet are joined by an edge. A
merge starts at one of them and absorbs round after round what the growing zone meets. Nothing
further away can be met: every key of the growing zone is a key of a zone that it has absorbed
(`gather_reaches`). And nothing on the way can be missed, because a zone that meets an absorbed one
meets the final one as well (`merged_covers_linked`). So the absorbed entries are the connected
component of the start (`mem_absorbed_iff_linked`).

What the final zone is does not depend on the order of the absorptions, although the heat is cut off
at every step: it **unites** the zones of the component.
-/

namespace TierIndex

variable {o : KeyOrder}

/-! ## The union of several zones -/

/-- The zone `z` unites the zones of the list: it reaches from their least start to their greatest
end, holds their keys and no others, has their summed heat, cut off at the limit, and is in the fast
tier if all of them are. -/
structure Unites (o : KeyOrder) (l : List Zone) (z : Zone) : Prop where
  covers : ∀ y ∈ l, z.span.Covers o y.span
  lo_mem : ∃ y ∈ l, z.span.lo = y.span.lo
  hi_mem : ∃ y ∈ l, z.span.hi = y.span.hi
  holds : ∀ k, z.span.Holds o k ↔ ∃ y ∈ l, y.span.Holds o k
  heat_eq : z.heat = min maxHeat (l.map Zone.heat).sum
  fast_eq : z.fast = l.all Zone.fast

namespace Unites

variable {u z : Zone} {ws : List Zone}

theorem single (hz : z.heat ≤ maxHeat) : Unites o [z] z where
  covers y hy := by
    rw [List.mem_singleton.mp hy]
    exact Span.covers_refl o z.span
  lo_mem := ⟨z, List.mem_singleton_self z, rfl⟩
  hi_mem := ⟨z, List.mem_singleton_self z, rfl⟩
  holds k := by simp
  heat_eq := by
    simp only [List.map_cons, List.map_nil, List.sum_cons, List.sum_nil]
    omega
  fast_eq := by simp

/-- One more zone. Cutting the heat off now and again later is the same as cutting it off once. -/
theorem absorb (h : Unites o ws u) (hmeets : z.span.Meets o u.span) (hz : 0 ≤ z.heat) :
    Unites o (ws ++ [z]) (u.absorb o z) where
  covers y hy := by
    rcases List.mem_append.mp hy with hy | hy
    · exact (Span.union_covers_left o u.span z.span).trans (h.covers y hy)
    · rw [List.mem_singleton.mp hy]
      exact Span.union_covers_right o u.span z.span
  lo_mem := by
    show ∃ y ∈ ws ++ [z], o.least u.span.lo z.span.lo = y.span.lo
    unfold KeyOrder.least
    split
    · exact ⟨z, by simp, rfl⟩
    · obtain ⟨y, hy, heq⟩ := h.lo_mem
      exact ⟨y, List.mem_append_left _ hy, heq⟩
  hi_mem := by
    show ∃ y ∈ ws ++ [z], o.greatest u.span.hi z.span.hi = y.span.hi
    unfold KeyOrder.greatest
    split
    · exact ⟨z, by simp, rfl⟩
    · obtain ⟨y, hy, heq⟩ := h.hi_mem
      exact ⟨y, List.mem_append_left _ hy, heq⟩
  holds k := by
    calc (u.absorb o z).span.Holds o k
        ↔ u.span.Holds o k ∨ z.span.Holds o k := Span.holds_union_iff (Span.meets_comm.mp hmeets)
      _ ↔ (∃ y ∈ ws, y.span.Holds o k) ∨ z.span.Holds o k := by rw [h.holds]
      _ ↔ ∃ y ∈ ws ++ [z], y.span.Holds o k := by
          simp only [List.mem_append, List.mem_singleton, or_and_right, exists_or, exists_eq_left]
  heat_eq := by
    have hsum : ((ws ++ [z]).map Zone.heat).sum = (ws.map Zone.heat).sum + z.heat := by simp
    show min maxHeat (u.heat + z.heat) = _
    -- past the limit the sum stays past it, because no heat is negative
    rw [hsum, h.heat_eq]
    omega
  fast_eq := by
    show (u.fast && z.fast) = _
    rw [h.fast_eq, List.all_append]
    simp

end Unites

section

variable {u : Zone} {ws : List Zone} {l : List (Nat × Zone)}

theorem unites_absorbAll (h : Unites o ws u) (hl : SoundAll o l)
    (hmeets : ∀ e ∈ l, e.2.span.Meets o u.span) :
    Unites o (ws ++ l.map Prod.snd) (absorbAll o u l) := by
  induction l generalizing u ws with
  | nil => simpa [absorbAll] using h
  | cons e l ih =>
      have hpos : 0 ≤ e.2.heat := Int.le_trans (by decide) (hl e List.mem_cons_self).heat_pos
      have hfirst := h.absorb (hmeets e List.mem_cons_self) hpos
      have hrest := ih hfirst (fun f hf => hl f (List.mem_cons_of_mem e hf)) fun f hf =>
        (Span.union_covers_left o u.span e.2.span).meets (hmeets f (List.mem_cons_of_mem e hf))
      show Unites o (ws ++ (e :: l).map Prod.snd) (absorbAll o (u.absorb o e.2) l)
      simpa using hrest

/-- A merge ends with the union of the growing zone and the absorbed ones. -/
theorem unites_gather (h : Unites o ws u) (hl : SoundAll o l) :
    Unites o (ws ++ (gather o u l).2.map Prod.snd) (gather o u l).1 := by
  -- the list of what has been united so far grows from round to round
  revert ws
  fun_induction gather o u l
  case case1 u l hnear =>
    intro ws h
    simpa using h
  case case2 u l hnear round r ih =>
    intro ws h
    have hround : Unites o (ws ++ round.map Prod.snd) (absorbAll o u round) :=
      unites_absorbAll h hl.near fun e he => (mem_near.mp (mem_sortByStart.mp he)).2
    simpa using ih hl.far hround

end

/-- **A merge reaches nothing but what is linked to its start.** What holds of the entries that meet
the growing zone, and passes from an entry to those that meet it, holds of all absorbed entries. -/
theorem gather_reaches {P : Nat × Zone → Prop} {u : Zone} {l : List (Nat × Zone)}
    (hu : u.Sound o) (hl : SoundAll o l) (hstart : ∀ e ∈ l, e.2.span.Meets o u.span → P e)
    (hstep : ∀ e ∈ l, ∀ f ∈ l, P e → f.2.span.Meets o e.2.span → P f) :
    ∀ e ∈ (gather o u l).2, P e := by
  fun_induction gather o u l with
  | case1 u l hnear => simp
  | case2 u l hnear round r ih =>
      have hround : ∀ e ∈ round, (e ∈ l ∧ e.2.span.Meets o u.span) := fun e he =>
        mem_near.mp (mem_sortByStart.mp he)
      have hgrown : (absorbAll o u round).Sound o := absorbAll_sound hu hl.near
      have hnext : ∀ f ∈ far o u l, f.2.span.Meets o (absorbAll o u round).span → P f := by
        intro f hf hmeets
        obtain ⟨hfl, hoff⟩ := mem_far.mp hf
        -- a key that the two have in common comes from a zone of this round
        obtain ⟨k, hkf, hk⟩ := (Span.meets_iff_exists (hl f hfl).proper hgrown.proper).mp hmeets
        rcases (holds_absorbAll fun e he => (hround e he).2).mp hk with hku | ⟨e, he, hke⟩
        · exact absurd (Span.meets_of_holds hkf hku) hoff
        · obtain ⟨hel, hmeetsu⟩ := hround e he
          exact hstep e hel f hfl (hstart e hel hmeetsu) (Span.meets_of_holds hkf hke)
      have hrest := ih hgrown hl.far hnext fun e he f hf =>
        hstep e (mem_far.mp he).1 f (mem_far.mp hf).1
      intro e he
      rcases List.mem_append.mp he with he | he
      · exact hstart e (hround e he).1 (hround e he).2
      · exact hrest e he

namespace HeatMap

/-! ## Connected components -/

/-- The slots hold hot zones that meet. -/
def Overlap (m : HeatMap) (i j : Nat) : Prop :=
  ∃ x y, m.at? i = some x ∧ m.at? j = some y ∧ m.params.Hot x ∧ m.params.Hot y ∧
    x.span.Meets m.order y.span

/-- The slots are joined by a chain of overlapping hot zones. -/
def Linked (m : HeatMap) : Nat → Nat → Prop := Relation.ReflTransGen m.Overlap

/-- The entries are the connected component of the hot zone in slot `r`, each listed once. -/
structure Component (m : HeatMap) (r : Nat) (l : List (Nat × Zone)) : Prop where
  nodup : (l.map Prod.fst).Nodup
  mem_iff : ∀ j y, (j, y) ∈ l ↔ m.at? j = some y ∧ m.params.Hot y ∧ m.Linked r j

variable {m : HeatMap} {i j k : Nat} {u x y : Zone}

theorem Overlap.symm (h : m.Overlap i j) : m.Overlap j i := by
  obtain ⟨x, y, hx, hy, hotx, hoty, hmeets⟩ := h
  exact ⟨y, x, hy, hx, hoty, hotx, Span.meets_comm.mp hmeets⟩

theorem Linked.refl (m : HeatMap) (i : Nat) : m.Linked i i := Relation.ReflTransGen.refl

theorem Overlap.linked (h : m.Overlap i j) : m.Linked i j := Relation.ReflTransGen.single h

theorem Linked.trans (h : m.Linked i j) (h' : m.Linked j k) : m.Linked i k :=
  Relation.ReflTransGen.trans h h'

theorem Linked.symm (h : m.Linked i j) : m.Linked j i := by
  induction h with
  | refl => exact Linked.refl m i
  | tail _ hlast ih => exact hlast.symm.linked.trans ih

/-- Only hot zones are linked to a hot zone. -/
theorem Linked.hot (h : m.Linked i j) (hx : m.at? i = some x) (hot : m.params.Hot x) :
    ∃ y, m.at? j = some y ∧ m.params.Hot y := by
  induction h with
  | refl => exact ⟨x, hx, hot⟩
  | tail _ hlast _ =>
      obtain ⟨-, y, -, hy, -, hoty, -⟩ := hlast
      exact ⟨y, hy, hoty⟩

/-- No chain of hot zones leads to a cold one. -/
theorem not_linked_of_cold (hx : m.at? i = some x) (hot : m.params.Hot x) (hy : m.at? j = some y)
    (hcold : ¬ m.params.Hot y) : ¬ m.Linked i j := by
  intro hlinked
  obtain ⟨y', hy', hoty⟩ := hlinked.hot hx hot
  cases hy.symm.trans hy'
  exact hcold hoty

theorem ne_of_not_linked (hoff : ¬ m.Linked i j) : j ≠ i := by
  rintro rfl
  exact hoff (Linked.refl m j)

/-! ## The component of a merge -/

theorem merged_unites (h : m.Intact) (hu : m.at? i = some u) :
    Unites m.order (((i, u) :: m.absorbed i u).map Prod.snd) (m.merged i u) :=
  unites_gather (Unites.single (h.sound i u hu).heat_le) (h.soundAll_hotOthers i)

theorem absorbed_linked (h : m.Intact) (hu : m.at? i = some u) (hot : m.params.Hot u)
    (hy : (j, y) ∈ m.absorbed i u) : m.Linked i j := by
  have hreached := gather_reaches (P := fun e => m.Linked i e.1) (h.sound i u hu)
    (h.soundAll_hotOthers i) ?_ ?_
  · exact hreached (j, y) hy
  · rintro ⟨j, y⟩ he hmeets
    obtain ⟨hy, hoty, -⟩ := mem_hotOthers.mp he
    exact Overlap.linked ⟨u, y, hu, hy, hot, hoty, Span.meets_comm.mp hmeets⟩
  · rintro ⟨j, y⟩ he ⟨k, z⟩ hf hlinked hmeets
    obtain ⟨hy, hoty, -⟩ := mem_hotOthers.mp he
    obtain ⟨hz, hotz, -⟩ := mem_hotOthers.mp hf
    have hstep : m.Overlap j k := ⟨y, z, hy, hz, hoty, hotz, Span.meets_comm.mp hmeets⟩
    exact hlinked.trans hstep.linked

/-- Everything that is linked to the start of a merge is covered by the zone it ends with. -/
theorem merged_covers_linked (h : m.Intact) (hu : m.at? i = some u) (hlinked : m.Linked i j)
    (hy : m.at? j = some y) : (m.merged i u).span.Covers m.order y.span := by
  induction hlinked generalizing y with
  | refl =>
      cases hu.symm.trans hy
      exact merged_covers
  | @tail j k _ hlast ih =>
      obtain ⟨x, z, hx, hz, -, hotz, hmeets⟩ := hlast
      cases hz.symm.trans hy
      -- the final zone covers the zone before on the chain, so it meets this one
      have hreached : y.span.Meets m.order (m.merged i u).span :=
        (ih hx).meets (Span.meets_comm.mp hmeets)
      by_cases hk : k = i
      · rw [hk] at hy
        cases hu.symm.trans hy
        exact merged_covers
      · have habsorbed : (k, y) ∈ m.absorbed i u := (mem_absorbed h).mpr ⟨hy, hotz, hk, hreached⟩
        have hmem : y ∈ ((i, u) :: m.absorbed i u).map Prod.snd :=
          List.mem_map.mpr ⟨(k, y), List.mem_cons_of_mem _ habsorbed, rfl⟩
        exact (merged_unites h hu).covers y hmem

/-- **A merge absorbs a connected component.** -/
theorem mem_absorbed_iff_linked (h : m.Intact) (hu : m.at? i = some u) (hot : m.params.Hot u) :
    (j, y) ∈ m.absorbed i u ↔ m.at? j = some y ∧ j ≠ i ∧ m.Linked i j := by
  constructor
  · intro hmem
    obtain ⟨hy, -, hne, -⟩ := (mem_absorbed h).mp hmem
    exact ⟨hy, hne, absorbed_linked h hu hot hmem⟩
  · rintro ⟨hy, hne, hlinked⟩
    obtain ⟨y', hy', hoty⟩ := hlinked.hot hu hot
    cases hy.symm.trans hy'
    have hcovers := merged_covers_linked h hu hlinked hy
    exact (mem_absorbed h).mpr ⟨hy, hoty, hne, hcovers.meets_self (h.sound j y hy).proper⟩

/-- **A merge leaves alone what is not linked** to its start. -/
theorem at?_mergeAt_of_not_linked (h : m.Intact) (hu : m.at? i = some u) (hot : m.params.Hot u)
    (hoff : ¬ m.Linked i j) : (m.mergeAt i).1.at? j = m.at? j := by
  have hkept : j ∉ (m.absorbed i u).map Prod.fst := by
    intro hmem
    obtain ⟨⟨k, y⟩, hy, rfl⟩ := List.mem_map.mp hmem
    exact hoff (absorbed_linked h hu hot hy)
  rw [at?_mergeAt_absorbed hu, if_neg (ne_of_not_linked hoff), if_neg hkept]

theorem component_absorbed (h : m.Intact) (hu : m.at? i = some u) (hot : m.params.Hot u) :
    m.Component i ((i, u) :: m.absorbed i u) where
  nodup := List.nodup_cons.mpr ⟨notMem_absorbed h, absorbed_nodup h⟩
  mem_iff j y := by
    rw [List.mem_cons, mem_absorbed_iff_linked h hu hot, Prod.mk.injEq]
    constructor
    · rintro (⟨rfl, rfl⟩ | ⟨hy, -, hlinked⟩)
      · exact ⟨hu, hot, Linked.refl m j⟩
      · obtain ⟨y', hy', hoty⟩ := hlinked.hot hu hot
        cases hy.symm.trans hy'
        exact ⟨hy, hoty, hlinked⟩
    · rintro ⟨hy, -, hlinked⟩
      by_cases hj : j = i
      · rw [hj] at hy
        exact Or.inl ⟨hj, Option.some.inj (hy.symm.trans hu)⟩
      · exact Or.inr ⟨hy, hj, hlinked⟩

end HeatMap

end TierIndex
