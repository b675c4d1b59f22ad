import Mathlib.Data.List.Sort
import TierIndex.Proofs.Components

set_option autoImplicit false

/-! # A merge as a loop over the map

A merge can be carried out on the map itself. A round lists the slots of the hot zones that meet the
growing one and absorbs them one after the other, each time freeing a slot; as the zone has grown by
then, another round is needed, until the list comes back empty. Nothing in this loop says that it
ends.

It does, because a round with any work leaves fewer other hot zones (`hotOthers_afterRound`), and
it ends in what the merge is defined as (`mergeLoop_eq`), because a round does to the map what the
first step of `gather` does to the lists of entries (`mergeAt_afterRound`). So it ends in the union
of the connected component of the slot it was started for.
-/

namespace TierIndex

namespace HeatMap

/-! ## The loop -/

/-- Free slot `j` and absorb its zone into the one in slot `i`. -/
def absorbSlot (i : Nat) (m : HeatMap) (j : Nat) : HeatMap :=
  match m.at? i, m.at? j with
  | some u, some v => (m.free j).put i (u.absorb m.order v)
  | _, _ => m

/-- The slots of the hot zones that meet the one in slot `i`, in the order of their absorption. -/
def work (m : HeatMap) (i : Nat) : List Nat :=
  match m.at? i with
  | none => []
  | some u => (sortByStart m.order (m.rivals i u)).map Prod.fst

/-- One round: absorb the listed slots, and count them. -/
def absorbWork (i : Nat) (s : HeatMap × Nat) (js : List Nat) : HeatMap × Nat :=
  js.foldl (fun s j => (absorbSlot i s.1 j, s.2 + 1)) s

/-- Round after round, until there is no work. The result is missing if it takes more looks at the
work than are allowed. -/
def mergeLoop (i : Nat) : Nat → HeatMap × Nat → Option (HeatMap × Nat)
  | 0, _ => none
  | looks + 1, s =>
      if s.1.work i = [] then some s
      else mergeLoop i looks (absorbWork i s (s.1.work i))

/-! ## One round -/

section

variable {m : HeatMap} {i j : Nat} {u : Zone} {l : List (Nat × Zone)} {n : Nat}

/-- Absorbing the slots of entries one by one comes to absorbing their zones at once. -/
theorem absorbWork_eq (hu : m.at? i = some u) (hl : ∀ e ∈ l, m.at? e.1 = some e.2)
    (hnd : (l.map Prod.fst).Nodup) (hi : i ∉ l.map Prod.fst) :
    absorbWork i (m, n) (l.map Prod.fst) =
      ((m.freeAll l).put i (absorbAll m.order u l), n + l.length) := by
  induction l generalizing m n u with
  | nil =>
      show (m, n) = (m.put i u, n)
      rw [put_self hu]
  | cons e l ih =>
      have he := hl e List.mem_cons_self
      rw [List.map_cons, List.mem_cons, not_or] at hi
      have hfirst : absorbSlot i m e.1 = (m.free e.1).put i (u.absorb m.order e.2) := by
        rw [absorbSlot, hu, he]
      have hfree : (m.free e.1).at? i = some u := by
        rw [at?_free, if_neg hi.1, hu]
      have hgrown : ((m.free e.1).put i (u.absorb m.order e.2)).at? i =
          some (u.absorb m.order e.2) := by
        rw [at?_put (lt_of_at? hfree), if_pos rfl]
      have hrest : ∀ f ∈ l, ((m.free e.1).put i (u.absorb m.order e.2)).at? f.1 = some f.2 := by
        intro f hf
        have hne : f.1 ≠ i := fun heq => hi.2 (heq ▸ List.mem_map_of_mem hf)
        rw [at?_put_of_ne hfree hne]
        exact at?_free_head hnd hl f hf
      calc absorbWork i (m, n) ((e :: l).map Prod.fst)
          = absorbWork i (absorbSlot i m e.1, n + 1) (l.map Prod.fst) := rfl
        _ = ((((m.free e.1).put i (u.absorb m.order e.2)).freeAll l).put i
              (absorbAll m.order (u.absorb m.order e.2) l), n + 1 + l.length) := by
            rw [hfirst, ih hgrown hrest (List.nodup_cons.mp hnd).2 hi.2]
            rfl
        _ = ((m.freeAll (e :: l)).put i (absorbAll m.order u (e :: l)),
              n + (e :: l).length) := by
            rw [freeAll_put hi.2, put_put, List.length_cons, Nat.add_assoc, Nat.add_comm 1]
            rfl

/-- The entries of a round, in the order of their absorption. -/
def round (m : HeatMap) (i : Nat) (u : Zone) : List (Nat × Zone) :=
  sortByStart m.order (m.rivals i u)

/-- The map after a round. -/
def afterRound (m : HeatMap) (i : Nat) (u : Zone) : HeatMap :=
  (m.freeAll (m.round i u)).put i (absorbAll m.order u (m.round i u))

theorem mem_round {z : Zone} : (j, z) ∈ m.round i u ↔
    m.at? j = some z ∧ m.params.Hot z ∧ j ≠ i ∧ z.span.Meets m.order u.span := by
  rw [round, mem_sortByStart, rivals, mem_near, mem_hotOthers, and_assoc, and_assoc]

theorem round_nodup (m : HeatMap) (i : Nat) (u : Zone) : ((m.round i u).map Prod.fst).Nodup := by
  have hperm : ((m.round i u).map Prod.fst).Perm ((m.rivals i u).map Prod.fst) :=
    (sortByStart_perm _).map Prod.fst
  exact hperm.nodup_iff.mpr ((m.hotOthers_nodup i).sublist (List.filter_sublist.map Prod.fst))

theorem notMem_round (m : HeatMap) (i : Nat) (u : Zone) : i ∉ (m.round i u).map Prod.fst := by
  intro hi
  obtain ⟨⟨j, z⟩, he, rfl⟩ := List.mem_map.mp hi
  exact (mem_round.mp he).2.2.1 rfl

theorem at?_of_mem_round : ∀ e ∈ m.round i u, m.at? e.1 = some e.2 :=
  fun _ he => (mem_round.mp he).1

/-- What the loop does in a round. -/
theorem absorbWork_work (hu : m.at? i = some u) (n : Nat) :
    absorbWork i (m, n) (m.work i) = (m.afterRound i u, n + (m.round i u).length) := by
  have hwork : m.work i = (m.round i u).map Prod.fst := by
    rw [work, hu]
    rfl
  rw [hwork, absorbWork_eq hu at?_of_mem_round (m.round_nodup i u) (m.notMem_round i u)]
  rfl

theorem at?_afterRound (hu : m.at? i = some u) (j : Nat) :
    (m.afterRound i u).at? j =
      if j = i then some (absorbAll m.order u (m.round i u))
      else if j ∈ (m.round i u).map Prod.fst then none
      else m.at? j :=
  at?_put_freeAll hu (m.round i u) _ j

theorem afterRound_params (m : HeatMap) (i : Nat) (u : Zone) :
    (m.afterRound i u).params = m.params := by
  rw [afterRound, put_params, freeAll_params]

theorem afterRound_order (m : HeatMap) (i : Nat) (u : Zone) : (m.afterRound i u).order = m.order :=
  congrArg Params.order (m.afterRound_params i u)

theorem Intact.afterRound (h : m.Intact) (hu : m.at? i = some u) : (m.afterRound i u).Intact :=
  h.put_freeAll hu (m.round_nodup i u) at?_of_mem_round (m.notMem_round i u)
    (absorbAll_sound (h.sound i u hu) (h.soundAll_hotOthers i).near)

/-- **One round.** The other hot zones that are left are those that did not meet the growing one. -/
theorem hotOthers_afterRound (hu : m.at? i = some u) :
    (m.afterRound i u).hotOthers i = far m.order u (m.hotOthers i) := by
  have hasymm : Std.Antisymm fun e f : Nat × Zone => e.1 < f.1 :=
    ⟨fun e f hef hfe => absurd hef (Nat.lt_asymm hfe)⟩
  have hirrefl : Std.Irrefl fun e f : Nat × Zone => e.1 < f.1 := ⟨fun e => Nat.lt_irrefl e.1⟩
  -- both lists stand in the order of the slots, so it is enough that they have the same members
  refine List.Pairwise.eq_of_mem_iff (hotOthers_pairwise _ i)
    ((m.hotOthers_pairwise i).filter _) ?_
  rintro ⟨j, z⟩
  rw [mem_far, mem_hotOthers, mem_hotOthers, afterRound_params, at?_afterRound hu]
  constructor
  · rintro ⟨hz, hot, hj⟩
    rw [if_neg hj] at hz
    split at hz
    · cases hz
    · next hkept =>
        refine ⟨⟨hz, hot, hj⟩, fun hmeets => hkept ?_⟩
        exact List.mem_map.mpr ⟨(j, z), mem_round.mpr ⟨hz, hot, hj, hmeets⟩, rfl⟩
  · rintro ⟨⟨hz, hot, hj⟩, hoff⟩
    have hkept : j ∉ (m.round i u).map Prod.fst := by
      intro hmem
      obtain ⟨⟨j', z'⟩, he, rfl⟩ := List.mem_map.mp hmem
      obtain ⟨hz', -, -, hmeets⟩ := mem_round.mp he
      cases hz.symm.trans hz'
      exact hoff hmeets
    rw [if_neg hj, if_neg hkept]
    exact ⟨hz, hot, hj⟩

theorem round_eq_nil_iff : m.round i u = [] ↔ near m.order u (m.hotOthers i) = [] := by
  have hperm : (m.round i u).Perm (near m.order u (m.hotOthers i)) := sortByStart_perm _
  constructor
  · intro h
    exact (h ▸ hperm).nil_eq.symm
  · intro h
    exact (h ▸ hperm).eq_nil

/-- **One round of a merge.** A merge is a round and then a merge of what the round has left. -/
theorem mergeAt_afterRound (h : m.Intact) (hu : m.at? i = some u) (hround : m.round i u ≠ []) :
    m.mergeAt i = (((m.afterRound i u).mergeAt i).1,
      (m.round i u).length + ((m.afterRound i u).mergeAt i).2) := by
  have hgrown : (m.afterRound i u).at? i = some (absorbAll m.order u (m.round i u)) := by
    rw [at?_afterRound hu, if_pos rfl]
  generalize hw : absorbAll m.order u (m.round i u) = w at hgrown
  have hgather : gather m.order u (m.hotOthers i) =
      ((m.afterRound i u).merged i w, m.round i u ++ (m.afterRound i u).absorbed i w) := by
    rw [gather, if_neg (mt round_eq_nil_iff.mpr hround), merged, absorbed, hotOthers_afterRound hu,
      afterRound_order, ← hw]
    rfl
  have hmerged : m.merged i u = (m.afterRound i u).merged i w := by rw [HeatMap.merged, hgather]
  have habsorbed : m.absorbed i u = m.round i u ++ (m.afterRound i u).absorbed i w := by
    rw [HeatMap.absorbed, hgather]
  have hi : i ∉ ((m.afterRound i u).absorbed i w).map Prod.fst :=
    notMem_absorbed (h.afterRound hu)
  rw [mergeAt_eq hu, mergeAt_eq hgrown, hmerged, habsorbed, freeAll_append, List.length_append]
  congr 1
  calc ((m.freeAll (m.round i u)).freeAll ((m.afterRound i u).absorbed i w)).put i
        ((m.afterRound i u).merged i w)
      = (((m.freeAll (m.round i u)).freeAll ((m.afterRound i u).absorbed i w)).put i w).put i
          ((m.afterRound i u).merged i w) := (put_put _ i w _).symm
    _ = ((m.afterRound i u).freeAll ((m.afterRound i u).absorbed i w)).put i
          ((m.afterRound i u).merged i w) := by rw [← freeAll_put hi, ← hw]; rfl

/-- Without work nothing is merged. -/
theorem mergeAt_of_round_eq_nil (hu : m.at? i = some u) (hround : m.round i u = []) :
    m.mergeAt i = (m, 0) := by
  apply mergeAt_of_apart hu
  intro j z hz hot hj hmeets
  have hmem : (j, z) ∈ m.round i u := mem_round.mpr ⟨hz, hot, hj, hmeets⟩
  rw [hround] at hmem
  cases hmem

theorem work_eq_nil_iff (hu : m.at? i = some u) : m.work i = [] ↔ m.round i u = [] := by
  rw [work, hu]
  exact List.map_eq_nil_iff

/-! ## All rounds -/

/-- **The loop ends, and it ends in the merge.** It looks for work at most once more than there are
other hot zones. -/
theorem mergeLoop_eq (h : m.Intact) (hu : m.at? i = some u) {looks : Nat}
    (hlooks : (m.hotOthers i).length < looks) (n : Nat) :
    mergeLoop i looks (m, n) = some ((m.mergeAt i).1, n + (m.mergeAt i).2) := by
  -- induction on the looks; a round with work leaves fewer other hot zones
  induction looks generalizing m u n with
  | zero => omega
  | succ looks ih =>
      rw [mergeLoop]
      dsimp only
      by_cases hround : m.round i u = []
      · rw [if_pos ((work_eq_nil_iff hu).mpr hround), mergeAt_of_round_eq_nil hu hround]
        rfl
      · have hgrown : (m.afterRound i u).at? i = some (absorbAll m.order u (m.round i u)) := by
          rw [at?_afterRound hu, if_pos rfl]
        have hfewer : ((m.afterRound i u).hotOthers i).length < (m.hotOthers i).length := by
          rw [hotOthers_afterRound hu]
          exact length_far_lt (mt round_eq_nil_iff.mpr hround)
        have hrest := ih (h.afterRound hu) hgrown (by omega) (n + (m.round i u).length)
        rw [if_neg (mt (work_eq_nil_iff hu).mp hround), absorbWork_work hu, hrest,
          mergeAt_afterRound h hu hround, Nat.add_assoc]

end

/-! ## What the loop leaves -/

/-- The map `m'` is `m` with the component of the hot zone `u` in slot `i` merged into that slot.
The entries `l` are the rest of the component. -/
structure ComponentMergedAt (m : HeatMap) (i : Nat) (u : Zone) (l : List (Nat × Zone))
    (m' : HeatMap) : Prop where
  component : m.Component i ((i, u) :: l)
  /-- The union of the component shares no key with another hot zone, not even a boundary key. -/
  union : ∃ z, m'.at? i = some z ∧ Unites m.order (((i, u) :: l).map Prod.snd) z ∧
    ∀ j y, j ≠ i → m'.at? j = some y → m.params.Hot y →
      m.order.Lt y.span.hi z.span.lo ∨ m.order.Lt z.span.hi y.span.lo
  freed : ∀ e ∈ l, m'.at? e.1 = none
  kept : ∀ j, j ≠ i → j ∉ l.map Prod.fst → m'.at? j = m.at? j
  live : m'.live + l.length = m.live
  params : m'.params = m.params
  capacity : m'.capacity = m.capacity

theorem mergeAt_capacity (m : HeatMap) (i : Nat) : (m.mergeAt i).1.capacity = m.capacity := by
  cases hu : m.at? i with
  | none => rw [mergeAt_of_none hu]
  | some u =>
      rw [mergeAt_eq hu]
      exact (put_length _ _ _).trans (freeAll_length _ _)

theorem componentMergedAt {m : HeatMap} (h : m.Intact) {i : Nat} {u : Zone}
    (hu : m.at? i = some u) (hot : m.params.Hot u) :
    m.ComponentMergedAt i u (m.absorbed i u) (m.mergeAt i).1 where
  component := component_absorbed h hu hot
  union := by
    refine ⟨m.merged i u, at?_mergeAt_self h hu, merged_unites h hu, fun j y hj hy hoty => ?_⟩
    rcases at?_mergeAt_cases h hu hy with ⟨heq, -⟩ | ⟨-, -, hoff⟩
    · exact absurd heq hj
    · exact Span.not_meets.mp fun hmeets => hoff ⟨hoty, hmeets⟩
  freed := by
    intro e he
    have hmem : e.1 ∈ (m.absorbed i u).map Prod.fst := List.mem_map_of_mem he
    have hne : e.1 ≠ i := fun heq => notMem_absorbed h (heq ▸ hmem)
    rw [at?_mergeAt_absorbed hu, if_neg hne, if_pos hmem]
  kept := by
    intro j hj hkept
    rw [at?_mergeAt_absorbed hu, if_neg hj, if_neg hkept]
  live := by
    have hlive := mergeAt_live h i
    rw [mergeAt_eq hu] at hlive ⊢
    exact hlive
  params := mergeAt_params m i
  capacity := mergeAt_capacity m i

/-- **The loop ends with the component merged.** Started for a hot zone of an intact map, it looks
for work at most once more than there are other hot zones, and leaves the map that the merge is
defined to leave: the slot holds the union of what was joined to it by a chain of overlapping hot
zones, the others of these are freed, counted and gone from the count of the map, and every other
slot is as it was. No other hot zone meets the union. -/
theorem mergeLoop_closure {m : HeatMap} (h : m.Intact) {i : Nat} {u : Zone}
    (hu : m.at? i = some u) (hot : m.params.Hot u) :
    ∃ m' l, m.ComponentMergedAt i u l m' ∧ m.mergeAt i = (m', l.length) ∧
      ∀ looks, (m.hotOthers i).length < looks →
        mergeLoop i looks (m, 0) = some (m', l.length) := by
  have hcount : (m.mergeAt i).2 = (m.absorbed i u).length := by rw [mergeAt_eq hu]
  refine ⟨_, _, componentMergedAt h hu hot, Prod.ext rfl hcount, fun looks hlooks => ?_⟩
  rw [mergeLoop_eq h hu hlooks, Nat.zero_add, hcount]

/-- A chain of hot zones that share boundary keys only. The second of them is reached in the first
round and the last in the second; the third finds no work. A cold zone and a hot one further off
stay. -/
theorem mergeLoop_closure_chain :
    let p : Params := ⟨.bytewise, 6, 10, 3, .lowest, by decide, by decide, by decide, by decide⟩
    let m := ofZones p [⟨⟨[6], [9]⟩, 200, true⟩, ⟨⟨[20], [22]⟩, 15, true⟩, ⟨⟨[1], [4]⟩, 30, true⟩,
      ⟨⟨[2], [5]⟩, 4, false⟩, ⟨⟨[4], [6]⟩, 40, false⟩]
    ∃ m' l, mergeLoop 2 4 (m, 0) = some (m', 2) ∧ l.length = 2 ∧
      m.ComponentMergedAt 2 ⟨⟨[1], [4]⟩, 30, true⟩ l m' ∧
      m'.slots = [none, some ⟨⟨[20], [22]⟩, 15, true⟩, some ⟨⟨[1], [9]⟩, 250, false⟩,
        some ⟨⟨[2], [5]⟩, 4, false⟩, none, none] := by
  intro p m
  have hintact : m.Intact := ofZones_intact (by decide)
  obtain ⟨m', l, hmerged, hmerge, hloop⟩ :=
    mergeLoop_closure hintact (i := 2) (u := ⟨⟨[1], [4]⟩, 30, true⟩) (by decide) (by decide)
  have hslots : (m.mergeAt 2).1.slots = [none, some ⟨⟨[20], [22]⟩, 15, true⟩,
      some ⟨⟨[1], [9]⟩, 250, false⟩, some ⟨⟨[2], [5]⟩, 4, false⟩, none, none] := by decide +kernel
  have hcount : (m.mergeAt 2).2 = 2 := by decide +kernel
  rw [hmerge] at hslots hcount
  have hdone := hloop 4 (by decide)
  rw [show l.length = 2 from hcount] at hdone
  exact ⟨m', l, hdone, hcount, hmerged, hslots⟩

end HeatMap

end TierIndex
