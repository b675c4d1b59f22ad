import TierIndex.HeatMap.Basic

set_option autoImplicit false

/-! # Settling overlaps of hot zones

Hot zones should not overlap beyond a shared end. A hot zone that has just come up or grown
is **settled** against its rivals, the other hot zones that meet it. With a single rival,
and the map not past its target, the two are **split**: what only one of them covered keeps
that one's heat, and what both covered becomes a third zone with the pooled heat. In every
other case the zone is **merged** with its rivals, with the rivals of the union, and so on
until none is left.
-/

namespace TierIndex

/-! ## Merging -/

/-- Entries by the start of their span; of equal starts the earlier entry stays first. -/
def sortByStart (o : KeyOrder) (l : List (Nat × Zone)) : List (Nat × Zone) :=
  l.mergeSort fun a b => o.Le a.2.span.lo b.2.span.lo

/-- The zone `u` with all zones of the list absorbed, from left to right. -/
def absorbAll (o : KeyOrder) (u : Zone) (l : List (Nat × Zone)) : Zone :=
  l.foldl (fun w e => w.absorb o e.2) u

/-- The entries whose zone meets `u`. -/
def near (o : KeyOrder) (u : Zone) (l : List (Nat × Zone)) : List (Nat × Zone) :=
  l.filter fun e => e.2.span.Meets o u.span

/-- The entries whose zone does not meet `u`. -/
def far (o : KeyOrder) (u : Zone) (l : List (Nat × Zone)) : List (Nat × Zone) :=
  l.filter fun e => ¬ e.2.span.Meets o u.span

theorem length_far_lt {o : KeyOrder} {u : Zone} {l : List (Nat × Zone)} (h : near o u l ≠ []) :
    (far o u l).length < l.length := by
  obtain ⟨e, he⟩ := List.exists_mem_of_ne_nil _ h
  obtain ⟨hmem, hmeets⟩ := List.mem_filter.mp he
  exact List.length_filter_lt_length_iff_exists.mpr ⟨e, hmem, by simpa using hmeets⟩

/-- The zone `u` merged with every zone of the list that it reaches, directly or through
others, and the entries it has absorbed. Each round absorbs all entries that meet the zone
as it is at the start of the round. -/
def gather (o : KeyOrder) (u : Zone) (l : List (Nat × Zone)) : Zone × List (Nat × Zone) :=
  if near o u l = [] then (u, [])
  else
    let round := sortByStart o (near o u l)
    let r := gather o (absorbAll o u round) (far o u l)
    (r.1, round ++ r.2)
termination_by l.length
decreasing_by exact length_far_lt ‹_›

namespace HeatMap

/-- Free the slots of the entries. -/
def freeAll (m : HeatMap) (l : List (Nat × Zone)) : HeatMap :=
  l.foldl (fun m e => m.free e.1) m

/-- Merge the zone in slot `i` with every hot zone that it reaches, and count the absorbed
ones. The union stays in slot `i`. -/
def mergeAt (m : HeatMap) (i : Nat) : HeatMap × Nat :=
  match m.at? i with
  | none => (m, 0)
  | some u =>
      let (v, absorbed) := gather m.order u (m.hotOthers i)
      ((m.freeAll absorbed).put i v, absorbed.length)

/-- Merge all hot zones that overlap, and count the absorbed ones. The hot zones are
visited by their starts, as they stand before the first merge. -/
def mergeHot (m : HeatMap) : HeatMap × Nat :=
  (sortByStart m.order m.hotEntries).foldl
    (fun (m, n) e => let (m', k) := m.mergeAt e.1; (m', n + k)) (m, 0)

end HeatMap

/-! ## Splitting -/

/-- The pieces of two overlapping zones, in key order. -/
structure Pieces where
  head : Zone
  shared : Zone
  tail : Zone

/-- Two overlapping zones, cut where the second one starts and where the first one ends. The
head has heat and tier of the zone that starts first, the tail those of the zone that reaches
there, and what both covered has the pooled heat. -/
def pieces (o : KeyOrder) (a b : Zone) : Pieces :=
  -- which zone starts first, and which one ends last
  let (opener, follower) := if o.Le a.span.lo b.span.lo then (a, b) else (b, a)
  let (closer, outlaster) := if o.Le a.span.hi b.span.hi then (a, b) else (b, a)
  { head := { opener with span := ⟨opener.span.lo, follower.span.lo⟩ }
    shared := ⟨⟨follower.span.lo, closer.span.hi⟩, Zone.poolHeat a.heat b.heat, a.fast && b.fast⟩
    tail := { outlaster with span := ⟨closer.span.hi, outlaster.span.hi⟩ } }

/-- Of the slots `i` of `a` and `j` of `b`, the one of the zone that starts first, and the
other one. -/
def splitSlots (o : KeyOrder) (i : Nat) (a : Zone) (j : Nat) (b : Zone) : Nat × Nat :=
  if o.Le a.span.lo b.span.lo then (i, j) else (j, i)

namespace HeatMap

/-- Free slot `i` if its zone has shrunk to a single key. -/
def dropPoint (m : HeatMap) (i : Nat) (z : Zone) : HeatMap :=
  if m.order.Same z.span.lo z.span.hi then m.free i else m

/-- Split the overlapping zones `a` in slot `i` and `b` in slot `j`. The zone that starts
first leaves its slot to the head, the other one to the tail, and the shared piece becomes a
zone of its own. A piece of a single key at either end is already covered by the shared one,
and its slot is freed. -/
def splitAt (m : HeatMap) (i : Nat) (a : Zone) (j : Nat) (b : Zone) : HeatMap :=
  let c := pieces m.order a b
  let (p, q) := splitSlots m.order i a j b
  ((((m.put p c.head).put q c.tail).insert c.shared).dropPoint p c.head).dropPoint q c.tail

/-! ## Choosing between the two -/

/-- The hot zones outside slot `i` that meet `u`. -/
def rivals (m : HeatMap) (i : Nat) (u : Zone) : List (Nat × Zone) :=
  near m.order u (m.hotOthers i)

/-- Settle the hot zone in slot `i` against its rivals. -/
def settle (m : HeatMap) (i : Nat) : HeatMap :=
  match m.at? i with
  | none => m
  | some u =>
      match m.rivals i u with
      | [] => m
      | [(j, v)] => if m.live ≤ m.params.target then m.splitAt i u j v else (m.mergeAt i).1
      | _ => (m.mergeAt i).1

end HeatMap

end TierIndex
