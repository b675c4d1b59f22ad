import TierIndex.HeatMap.Settle
import TierIndex.Proofs.Answers

set_option autoImplicit false

/-! # Keys without their version bytes

The **view** of a span, of a zone and of a whole heat map has the views of the keys in place of the
keys. It is ordered bytewise, so that nothing of a key is left out of a comparison any more. A
relation between spans is the same proposition before and after, because it compares the views in
either case; and whatever keeps one of two keys keeps the view of that key (`KeyOrder.least_view`).
So the rounds of a merge and the pieces of a split of views are the views of the rounds and of the
pieces (`gather_view`, `pieces_view`).
-/

namespace TierIndex

namespace KeyOrder

variable (o : KeyOrder) (a b : Key)

theorem least_view :
    KeyOrder.bytewise.least (o.view a) (o.view b) = o.view (o.least a b) :=
  (apply_ite o.view (o.Lt b a) b a).symm

theorem greatest_view :
    KeyOrder.bytewise.greatest (o.view a) (o.view b) = o.view (o.greatest a b) :=
  (apply_ite o.view (o.Lt a b) b a).symm

end KeyOrder

/-! ## Spans and zones -/

/-- The span with the views of its ends. -/
def Span.view (o : KeyOrder) (s : Span) : Span := ⟨o.view s.lo, o.view s.hi⟩

/-- The zone with the view of its span. -/
def Zone.view (o : KeyOrder) (z : Zone) : Zone := { z with span := z.span.view o }

@[simp] theorem Zone.view_heat (o : KeyOrder) (z : Zone) : (z.view o).heat = z.heat := rfl

/-- The entry with the view of its zone. -/
def viewEntry (o : KeyOrder) (e : Nat × Zone) : Nat × Zone := (e.1, e.2.view o)

section

variable (o : KeyOrder)

theorem Span.between_view (a b : Key) :
    Span.between .bytewise (o.view a) (o.view b) = (Span.between o a b).view o :=
  (apply_ite (Span.view o) (o.Lt b a) ⟨b, a⟩ ⟨a, b⟩).symm

theorem Span.union_view (s t : Span) :
    (s.view o).union .bytewise (t.view o) = (s.union o t).view o := by
  unfold Span.union Span.view
  rw [KeyOrder.least_view, KeyOrder.greatest_view]

theorem Zone.absorb_view (u v : Zone) :
    (u.view o).absorb .bytewise (v.view o) = (u.absorb o v).view o := by
  unfold Zone.absorb Zone.view
  rw [Span.union_view]

end

/-! ## Lists of entries -/

section

variable (o : KeyOrder)

theorem near_view (u : Zone) (l : List (Nat × Zone)) :
    near .bytewise (u.view o) (l.map (viewEntry o)) = (near o u l).map (viewEntry o) :=
  List.filter_map

theorem far_view (u : Zone) (l : List (Nat × Zone)) :
    far .bytewise (u.view o) (l.map (viewEntry o)) = (far o u l).map (viewEntry o) :=
  List.filter_map

theorem sortByStart_view (l : List (Nat × Zone)) :
    sortByStart .bytewise (l.map (viewEntry o)) = (sortByStart o l).map (viewEntry o) := by
  symm
  exact List.map_mergeSort fun _ _ _ _ => rfl

theorem absorbAll_view (u : Zone) (l : List (Nat × Zone)) :
    absorbAll .bytewise (u.view o) (l.map (viewEntry o)) = (absorbAll o u l).view o := by
  induction l generalizing u with
  | nil => rfl
  | cons e l ih =>
      show absorbAll .bytewise ((u.view o).absorb .bytewise (e.2.view o)) _ = _
      rw [Zone.absorb_view, ih]
      rfl

theorem gather_view (u : Zone) (l : List (Nat × Zone)) :
    gather .bytewise (u.view o) (l.map (viewEntry o)) =
      ((gather o u l).1.view o, (gather o u l).2.map (viewEntry o)) := by
  fun_induction gather o u l with
  | case1 u l h =>
      rw [gather, near_view, h]
      rfl
  | case2 u l h round r ih =>
      have hround : sortByStart .bytewise (near .bytewise (u.view o) (l.map (viewEntry o))) =
          round.map (viewEntry o) := by
        rw [near_view, sortByStart_view]
      have hne : near .bytewise (u.view o) (l.map (viewEntry o)) ≠ [] := by
        rw [near_view]
        exact mt List.map_eq_nil_iff.mp h
      rw [gather, if_neg hne, hround, far_view]
      dsimp only
      rw [absorbAll_view, ih, List.map_append]

end

/-! ## Pieces -/

/-- The pieces with the views of their spans. -/
def Pieces.view (o : KeyOrder) (c : Pieces) : Pieces :=
  ⟨c.head.view o, c.shared.view o, c.tail.view o⟩

theorem pieces_view (o : KeyOrder) (a b : Zone) :
    pieces .bytewise (a.view o) (b.view o) = (pieces o a b).view o := by
  have hlo : KeyOrder.bytewise.Le (a.view o).span.lo (b.view o).span.lo ↔
      o.Le a.span.lo b.span.lo := Iff.rfl
  have hhi : KeyOrder.bytewise.Le (a.view o).span.hi (b.view o).span.hi ↔
      o.Le a.span.hi b.span.hi := Iff.rfl
  unfold pieces
  by_cases h : o.Le a.span.lo b.span.lo
  · rw [if_pos (hlo.mpr h), if_pos h]
    by_cases h' : o.Le a.span.hi b.span.hi
    · rw [if_pos (hhi.mpr h'), if_pos h']
      rfl
    · rw [if_neg (mt hhi.mp h'), if_neg h']
      rfl
  · rw [if_neg (mt hlo.mp h), if_neg h]
    by_cases h' : o.Le a.span.hi b.span.hi
    · rw [if_pos (hhi.mpr h'), if_pos h']
      rfl
    · rw [if_neg (mt hhi.mp h'), if_neg h']
      rfl

end TierIndex
