import TierIndex.Proofs.Components

set_option autoImplicit false

/-! # What a pass of merges makes of the hot zones

A pass visits the hot zones by their starts, of equal starts the lower slot first, in an order that
is fixed before the first merge (`sortByStart_pairwise`). So when a hot zone is visited whose
component has not been merged yet, it is the first of its component, its **leader**, and the merge
takes the whole component into its slot. Components that have been merged stay as they are: the zone
of a leader holds keys of its component only, so what meets it belongs to the component as well
(`MergedUpTo.linked_of_meets`).

`MergedUpTo` says how far a pass has come, one visit is `MergedUpTo.visit`, and the whole pass is
`mergeHot_components`: the hot zones that are left are the unions of the connected components of the
hot zones before, one for each, in the slots of the leaders.
-/

namespace TierIndex

variable {o : KeyOrder}

/-! ## The order of the visits -/

/-- The entry `e` is visited before `f`: its zone starts first, or alike in a lower slot. -/
def StartsBefore (o : KeyOrder) (e f : Nat × Zone) : Prop :=
  o.Lt e.2.span.lo f.2.span.lo ∨ (o.Same e.2.span.lo f.2.span.lo ∧ e.1 < f.1)

instance (o : KeyOrder) (e f : Nat × Zone) : Decidable (StartsBefore o e f) :=
  inferInstanceAs (Decidable (_ ∨ _))

theorem StartsBefore.asymm {e f : Nat × Zone} (h : StartsBefore o e f) :
    ¬ StartsBefore o f e := by
  rintro (hlt' | ⟨hsame', hslot'⟩) <;> rcases h with hlt | ⟨hsame, hslot⟩
  · exact KeyOrder.not_le.mpr hlt (KeyOrder.le_of_lt hlt')
  · exact KeyOrder.not_le.mpr hlt' (KeyOrder.same_iff.mp hsame).1
  · exact KeyOrder.not_le.mpr hlt (KeyOrder.same_iff.mp hsame').1
  · omega

theorem startLe_trans (e f g : Nat × Zone) (hef : decide (o.Le e.2.span.lo f.2.span.lo) = true)
    (hfg : decide (o.Le f.2.span.lo g.2.span.lo) = true) :
    decide (o.Le e.2.span.lo g.2.span.lo) = true :=
  decide_eq_true (KeyOrder.le_trans (of_decide_eq_true hef) (of_decide_eq_true hfg))

theorem startLe_total (e f : Nat × Zone) :
    (decide (o.Le e.2.span.lo f.2.span.lo) || decide (o.Le f.2.span.lo e.2.span.lo)) = true := by
  simpa only [Bool.or_eq_true, decide_eq_true_eq] using o.le_total e.2.span.lo f.2.span.lo

/-- Sorting by starts is stable: entries of the same start stay in the order they are given in. -/
theorem sortByStart_filter (l : List (Nat × Zone)) (k : Key) :
    (sortByStart o l).filter (fun e => o.Same e.2.span.lo k) =
      l.filter fun e => o.Same e.2.span.lo k := by
  have hsame : (l.filter fun e => o.Same e.2.span.lo k).Pairwise
      fun e f => decide (o.Le e.2.span.lo f.2.span.lo) = true := by
    apply List.pairwise_of_forall_mem_list
    intro e he f hf
    have hek : o.Same e.2.span.lo k := of_decide_eq_true (List.mem_filter.mp he).2
    have hfk : o.Same f.2.span.lo k := of_decide_eq_true (List.mem_filter.mp hf).2
    exact decide_eq_true (KeyOrder.same_iff.mp (hek.trans hfk.symm)).1
  have hsub : (l.filter fun e => o.Same e.2.span.lo k).Sublist (sortByStart o l) :=
    List.sublist_mergeSort startLe_trans startLe_total hsame List.filter_sublist
  have hkept := hsub.filter fun e => decide (o.Same e.2.span.lo k)
  rw [List.filter_filter] at hkept
  simp only [Bool.and_self] at hkept
  exact (hkept.eq_of_length ((sortByStart_perm l).symm.filter _).length_eq).symm

/-- Entries that stand in the order of their slots are visited in the order `StartsBefore`. -/
theorem sortByStart_pairwise {l : List (Nat × Zone)} (hl : l.Pairwise fun e f => e.1 < f.1) :
    (sortByStart o l).Pairwise (StartsBefore o) := by
  have hsorted := List.pairwise_mergeSort (startLe_trans (o := o)) startLe_total l
  rw [List.pairwise_iff_forall_sublist] at hsorted ⊢
  intro e f hef
  have hle : o.Le e.2.span.lo f.2.span.lo := of_decide_eq_true (hsorted hef)
  by_cases hsame : o.Same e.2.span.lo f.2.span.lo
  · -- among the entries of this start the two stand as in the list, that is by their slots
    have hpair := hef.filter fun g => decide (o.Same g.2.span.lo f.2.span.lo)
    have hslots := hl.filter fun g => decide (o.Same g.2.span.lo f.2.span.lo)
    have hboth : ([e, f].filter fun g => decide (o.Same g.2.span.lo f.2.span.lo)) = [e, f] := by
      simpa using hsame
    rw [sortByStart_filter, hboth] at hpair
    exact Or.inr ⟨hsame, List.pairwise_iff_forall_sublist.mp hslots hpair⟩
  · exact Or.inl (KeyOrder.lt_of_le_of_not_same hle hsame)

/-- There is only one such order. -/
theorem sortByStart_eq {l l' : List (Nat × Zone)} (hl : l.Pairwise fun e f => e.1 < f.1)
    (hperm : l.Perm l') (hl' : l'.Pairwise (StartsBefore o)) : sortByStart o l = l' :=
  List.Perm.eq_of_pairwise (fun _ _ _ _ hef hfe => absurd hfe hef.asymm)
    (sortByStart_pairwise hl) hl' ((sortByStart_perm l).trans hperm)

namespace HeatMap

/-! ## Leaders -/

/-- The zone in slot `r` is hot and the first of its component. -/
def Leads (m : HeatMap) (r : Nat) : Prop :=
  ∃ u, m.at? r = some u ∧ m.params.Hot u ∧
    ∀ j y, m.at? j = some y → m.params.Hot y → m.Linked r j → j ≠ r →
      StartsBefore m.order (r, u) (j, y)

/-- A component has one leader. -/
theorem Leads.eq {m : HeatMap} {r s : Nat} (hr : m.Leads r) (hs : m.Leads s)
    (hlinked : m.Linked r s) : r = s := by
  obtain ⟨u, hu, hotu, hfirst⟩ := hr
  obtain ⟨v, hv, hotv, hfirst'⟩ := hs
  by_cases heq : r = s
  · exact heq
  · have hbefore := hfirst s v hv hotv hlinked (Ne.symm heq)
    exact absurd (hfirst' r u hu hotu hlinked.symm heq) hbefore.asymm

/-! ## How far a pass has come -/

/-- A pass over `m` has merged the components of the slots in `V`, and left the others alone. The
map is at `s.1` now, and `s.2` zones have been absorbed. -/
structure MergedUpTo (m : HeatMap) (s : HeatMap × Nat) (V : Nat → Prop) : Prop where
  intact : s.1.Intact
  params : s.1.params = m.params
  closed : ∀ i j, V i → m.Linked i j → V j
  untouched : ∀ j, ¬ V j → s.1.at? j = m.at? j
  led : ∀ j, V j → ∃ r, m.Leads r ∧ m.Linked r j
  /-- The slot of a leader holds the union of its component. -/
  kept : ∀ r, V r → m.Leads r → ∃ z l, s.1.at? r = some z ∧ m.params.Hot z ∧ m.Component r l ∧
    Unites m.order (l.map Prod.snd) z
  freed : ∀ j, V j → ¬ m.Leads j → s.1.at? j = none
  live : s.1.live + s.2 = m.live

theorem mergedUpTo_start {m : HeatMap} (h : m.Intact) : MergedUpTo m (m, 0) fun _ => False where
  intact := h
  params := rfl
  closed _ _ hV := hV.elim
  untouched _ _ := rfl
  led _ hV := hV.elim
  kept _ hV := hV.elim
  freed _ hV := hV.elim
  live := rfl

namespace MergedUpTo

variable {m : HeatMap} {s : HeatMap × Nat} {V : Nat → Prop} {i j : Nat} {x y z : Zone}

theorem order (hm : MergedUpTo m s V) : s.1.order = m.order := congrArg Params.order hm.params

theorem hot_iff (hm : MergedUpTo m s V) : s.1.params.Hot z ↔ m.params.Hot z := by
  rw [hm.params]

theorem sound (hm : MergedUpTo m s V) (hz : s.1.at? i = some z) : z.Sound m.order := by
  have hsound := hm.intact.sound i z hz
  rwa [hm.order] at hsound

/-- Only leaders are left of what has been merged. -/
theorem leads (hm : MergedUpTo m s V) (hV : V i) (hz : s.1.at? i = some z) : m.Leads i := by
  apply Classical.byContradiction
  intro hlead
  rw [hm.freed i hV hlead] at hz
  cases hz

/-- A key of a hot zone is a key of a hot zone before, one of the same component. -/
theorem member (hm : MergedUpTo m s V) (hz : s.1.at? i = some z) (hot : m.params.Hot z) {k : Key}
    (hk : z.span.Holds m.order k) :
    ∃ j y, m.at? j = some y ∧ m.params.Hot y ∧ m.Linked i j ∧ y.span.Holds m.order k := by
  by_cases hV : V i
  · obtain ⟨z', l, hz', -, hcomponent, hunites⟩ := hm.kept i hV (hm.leads hV hz)
    cases hz.symm.trans hz'
    obtain ⟨y, hy, hky⟩ := (hunites.holds k).mp hk
    obtain ⟨⟨j, y⟩, hmem, rfl⟩ := List.mem_map.mp hy
    obtain ⟨hat, hoty, hlinked⟩ := (hcomponent.mem_iff j y).mp hmem
    exact ⟨j, y, hat, hoty, hlinked, hky⟩
  · rw [hm.untouched i hV] at hz
    exact ⟨i, z, hz, hot, Linked.refl m i, hk⟩

/-- **Zones that meet belong together.** Hot zones that meet in the course of a pass stand for
components that were linked before. -/
theorem linked_of_meets (hm : MergedUpTo m s V) (hx : s.1.at? i = some x)
    (hy : s.1.at? j = some y) (hotx : m.params.Hot x) (hoty : m.params.Hot y)
    (hmeets : x.span.Meets m.order y.span) : m.Linked i j := by
  obtain ⟨k, hkx, hky⟩ :=
    (Span.meets_iff_exists (hm.sound hx).proper (hm.sound hy).proper).mp hmeets
  obtain ⟨i', x', hx', hotx', hlinked, hkx'⟩ := hm.member hx hotx hkx
  obtain ⟨j', y', hy', hoty', hlinked', hky'⟩ := hm.member hy hoty hky
  have hoverlap : m.Overlap i' j' :=
    ⟨x', y', hx', hy', hotx', hoty', Span.meets_of_holds hkx' hky'⟩
  exact (hlinked.trans hoverlap.linked).trans hlinked'.symm

/-- The hot zone that stands for a merged component meets no other one. -/
theorem isolated (hm : MergedUpTo m s V) (hV : V i) (hx : s.1.at? i = some x)
    (hy : s.1.at? j = some y) (hotx : m.params.Hot x) (hoty : m.params.Hot y) (hij : j ≠ i) :
    ¬ y.span.Meets m.order x.span := by
  intro hmeets
  have hlinked := hm.linked_of_meets hx hy hotx hoty (Span.meets_comm.mp hmeets)
  have hVj : V j := hm.closed i j hV hlinked
  exact hij ((hm.leads hV hx).eq (hm.leads hVj hy) hlinked).symm

/-- A component is merged as a whole. -/
theorem not_merged_of_linked (hm : MergedUpTo m s V) (hV : ¬ V i) (hlinked : m.Linked i j) :
    ¬ V j := fun hVj => hV (hm.closed j i hVj hlinked.symm)

/-- What has not been merged yet is linked as before. -/
theorem linked_iff (hm : MergedUpTo m s V) (hV : ¬ V i) : s.1.Linked i j ↔ m.Linked i j := by
  constructor
  · intro hlinked
    induction hlinked with
    | refl => exact Linked.refl m i
    | tail _ hlast ih =>
        obtain ⟨x, y, hx, hy, hotx, hoty, hmeets⟩ := hlast
        rw [hm.hot_iff] at hotx hoty
        rw [hm.order] at hmeets
        exact ih.trans (hm.linked_of_meets hx hy hotx hoty hmeets)
  · intro hlinked
    induction hlinked with
    | refl => exact Linked.refl s.1 i
    | @tail j k hlinked hlast ih =>
        -- the whole chain lies outside of `V`
        have hVj : ¬ V j := hm.not_merged_of_linked hV hlinked
        have hVk : ¬ V k := hm.not_merged_of_linked hVj hlast.linked
        have hstep : s.1.Overlap j k := by
          unfold Overlap
          rw [hm.untouched j hVj, hm.untouched k hVk, hm.order, hm.params]
          exact hlast
        exact ih.trans hstep.linked

/-! ## One visit -/

/-- Where the component has been merged already, a visit finds nothing to do. -/
theorem mergeAt_merged (hm : MergedUpTo m s V) (hV : V i) : s.1.mergeAt i = (s.1, 0) := by
  cases hz : s.1.at? i with
  | none => exact mergeAt_of_none hz
  | some z =>
      obtain ⟨z', -, hz', hot, -⟩ := hm.kept i hV (hm.leads hV hz)
      cases hz.symm.trans hz'
      -- the zone of a leader meets nothing outside of its component, and that has been freed
      apply mergeAt_of_apart hz
      intro j y hy hoty hj
      rw [hm.hot_iff] at hoty
      rw [hm.order]
      exact hm.isolated hV hz hy hot hoty hj

section

variable {u : Zone} (hm : MergedUpTo m s V) (hV : ¬ V i) (hu : m.at? i = some u)
  (hot : m.params.Hot u)

include hm hV hu

theorem at?_start : s.1.at? i = some u := (hm.untouched i hV).trans hu

theorem unites_absorbed :
    Unites m.order (((i, u) :: s.1.absorbed i u).map Prod.snd) (s.1.merged i u) := by
  have hunites := merged_unites hm.intact (hm.at?_start hV hu)
  rwa [hm.order] at hunites

theorem at?_visit_self : (countMerge s (i, u)).1.at? i = some (s.1.merged i u) :=
  at?_mergeAt_self hm.intact (hm.at?_start hV hu)

include hot

theorem component_absorbed : m.Component i ((i, u) :: s.1.absorbed i u) := by
  have hcomponent :=
    HeatMap.component_absorbed hm.intact (hm.at?_start hV hu) (hm.hot_iff.mpr hot)
  refine ⟨hcomponent.nodup, fun j y => ?_⟩
  rw [hcomponent.mem_iff, hm.params, hm.linked_iff hV]
  constructor
  · rintro ⟨hy, hoty, hlinked⟩
    have hVj : ¬ V j := hm.not_merged_of_linked hV hlinked
    exact ⟨hm.untouched j hVj ▸ hy, hoty, hlinked⟩
  · rintro ⟨hy, hoty, hlinked⟩
    have hVj : ¬ V j := hm.not_merged_of_linked hV hlinked
    exact ⟨(hm.untouched j hVj).trans hy, hoty, hlinked⟩

theorem mem_absorbed_iff : j ∈ (s.1.absorbed i u).map Prod.fst ↔ m.Linked i j ∧ j ≠ i := by
  have hcomponent := hm.component_absorbed hV hu hot
  constructor
  · intro hj
    obtain ⟨⟨j, y⟩, hmem, rfl⟩ := List.mem_map.mp hj
    refine ⟨((hcomponent.mem_iff j y).mp (List.mem_cons_of_mem _ hmem)).2.2, ?_⟩
    rintro rfl
    exact (List.nodup_cons.mp hcomponent.nodup).1 hj
  · rintro ⟨hlinked, hne⟩
    obtain ⟨y, hy, hoty⟩ := hlinked.hot hu hot
    rcases List.mem_cons.mp ((hcomponent.mem_iff j y).mpr ⟨hy, hoty, hlinked⟩) with heq | hmem
    · exact absurd (congrArg Prod.fst heq) hne
    · exact List.mem_map.mpr ⟨(j, y), hmem, rfl⟩

theorem at?_visit_of_linked (hj : m.Linked i j) (hne : j ≠ i) :
    (countMerge s (i, u)).1.at? j = none := by
  have hmem := (hm.mem_absorbed_iff hV hu hot).mpr ⟨hj, hne⟩
  show (s.1.mergeAt i).1.at? j = none
  rw [at?_mergeAt_absorbed (hm.at?_start hV hu), if_neg hne, if_pos hmem]

/-- Outside of the component nothing changes. -/
theorem at?_visit_of_not_linked (hj : ¬ m.Linked i j) :
    (countMerge s (i, u)).1.at? j = s.1.at? j := by
  have hoff : ¬ s.1.Linked i j := fun hlinked => hj ((hm.linked_iff hV).mp hlinked)
  exact at?_mergeAt_of_not_linked hm.intact (hm.at?_start hV hu) (hm.hot_iff.mpr hot) hoff

/-- The first visit of a component merges it into the slot of its leader. -/
theorem visit_leader (hlead : m.Leads i) :
    MergedUpTo m (countMerge s (i, u)) fun j => V j ∨ m.Linked i j where
  intact := hm.intact.mergeAt (hm.at?_start hV hu)
  params := (mergeAt_params s.1 i).trans hm.params
  closed := by
    rintro j k (hVj | hlinked) hjk
    · exact Or.inl (hm.closed j k hVj hjk)
    · exact Or.inr (hlinked.trans hjk)
  untouched j hj := by
    obtain ⟨hVj, hlinked⟩ := not_or.mp hj
    exact (hm.at?_visit_of_not_linked hV hu hot hlinked).trans (hm.untouched j hVj)
  led := by
    rintro j (hVj | hlinked)
    · exact hm.led j hVj
    · exact ⟨i, hlead, hlinked⟩
  kept := by
    rintro r (hVr | hlinked) hleadr
    · obtain ⟨z, l, hz, hrest⟩ := hm.kept r hVr hleadr
      have hoff : ¬ m.Linked i r := fun hlinked => hm.not_merged_of_linked hV hlinked hVr
      exact ⟨z, l, (hm.at?_visit_of_not_linked hV hu hot hoff).trans hz, hrest⟩
    · cases hlead.eq hleadr hlinked
      have hotz : m.params.Hot (s.1.merged i u) :=
        hm.hot_iff.mp (merged_hot hm.intact (hm.at?_start hV hu) (hm.hot_iff.mpr hot))
      exact ⟨s.1.merged i u, _, hm.at?_visit_self hV hu, hotz,
        hm.component_absorbed hV hu hot, hm.unites_absorbed hV hu⟩
  freed := by
    rintro j (hVj | hlinked) hnot
    · have hoff : ¬ m.Linked i j := fun hlinked => hm.not_merged_of_linked hV hlinked hVj
      exact (hm.at?_visit_of_not_linked hV hu hot hoff).trans (hm.freed j hVj hnot)
    · have hne : j ≠ i := by
        rintro rfl
        exact hnot hlead
      exact hm.at?_visit_of_linked hV hu hot hlinked hne
  live := by
    have hvisit := mergeAt_live hm.intact i
    have hbefore := hm.live
    show (s.1.mergeAt i).1.live + (s.2 + (s.1.mergeAt i).2) = m.live
    omega

end

/-- **One visit.** After the visit of a hot zone its component has been merged, provided that the
zone leads it if it had not been merged before. -/
theorem visit (hm : MergedUpTo m s V) {e : Nat × Zone} (he : e ∈ m.hotEntries)
    (hlead : ¬ V e.1 → m.Leads e.1) :
    MergedUpTo m (countMerge s e) fun j => V j ∨ m.Linked e.1 j := by
  obtain ⟨hu, hot⟩ := mem_hotEntries.mp he
  by_cases hV : V e.1
  · have hstep : countMerge s e = s := by
      rw [countMerge, hm.mergeAt_merged hV]
      rfl
    have hsame : (fun j => V j ∨ m.Linked e.1 j) = V := by
      funext j
      exact propext ⟨fun h => h.elim id (hm.closed e.1 j hV), Or.inl⟩
    rw [hstep, hsame]
    exact hm
  · exact hm.visit_leader hV hu hot (hlead hV)

/-! ## All visits -/

/-- **The rest of a pass.** The visits still to be made merge the components that have not been
merged yet. -/
theorem visits (hm : MergedUpTo m s V) {l : List (Nat × Zone)} (hl : ∀ e ∈ l, e ∈ m.hotEntries)
    (hsorted : l.Pairwise (StartsBefore m.order)) (hrest : ∀ e ∈ m.hotEntries, V e.1 ∨ e ∈ l) :
    ∃ W, MergedUpTo m (l.foldl countMerge s) W ∧ ∀ e ∈ m.hotEntries, W e.1 := by
  -- induction on the visits still to be made; the components merged so far are closed under links
  induction l generalizing s V with
  | nil => exact ⟨V, hm, fun e he => (hrest e he).resolve_right List.not_mem_nil⟩
  | cons e l ih =>
      obtain ⟨hfirst, hsorted'⟩ := List.pairwise_cons.mp hsorted
      have he := hl e List.mem_cons_self
      -- of an unmerged component every other zone is still to come
      have hlead : ¬ V e.1 → m.Leads e.1 := by
        intro hV
        obtain ⟨hu, hot⟩ := mem_hotEntries.mp he
        refine ⟨e.2, hu, hot, fun j y hy hoty hlinked hj => ?_⟩
        rcases hrest (j, y) (mem_hotEntries.mpr ⟨hy, hoty⟩) with hVj | hmem
        · exact absurd (hm.closed j e.1 hVj hlinked.symm) hV
        · rcases List.mem_cons.mp hmem with heq | hmem
          · exact absurd (congrArg Prod.fst heq) hj
          · exact hfirst (j, y) hmem
      refine ih (hm.visit he hlead) (fun f hf => hl f (List.mem_cons_of_mem e hf)) hsorted' ?_
      intro f hf
      rcases hrest f hf with hVf | hmem
      · exact Or.inl (Or.inl hVf)
      · rcases List.mem_cons.mp hmem with rfl | hmem
        · exact Or.inl (Or.inr (Linked.refl m f.1))
        · exact Or.inr hmem

end MergedUpTo

/-! ## The number of hot zones -/

theorem Intact.length_entries {m : HeatMap} (h : m.Intact) : m.entries.length = m.live := by
  rw [h.live_eq, ← entries_map_snd, List.length_map]

/-- Maps with the same cold zones differ in the number of their hot ones by as much as in the number
of all. -/
theorem length_hotEntries_of_cold {m m' : HeatMap} (h : m.Intact) (h' : m'.Intact)
    (hp : m'.params = m.params)
    (hcold : ∀ i z, ¬ m.params.Hot z → (m'.at? i = some z ↔ m.at? i = some z)) :
    m'.hotEntries.length + m.live = m.hotEntries.length + m'.live := by
  have hperm : (m'.entries.filter fun e => !decide (m.params.Hot e.2)).Perm
      (m.entries.filter fun e => !decide (m.params.Hot e.2)) := by
    refine (List.perm_ext_iff_of_nodup (nodup_of_rising (m'.entries_pairwise.filter _))
      (nodup_of_rising (m.entries_pairwise.filter _))).mpr ?_
    rintro ⟨i, z⟩
    simp only [List.mem_filter, mem_entries, Bool.not_eq_true', decide_eq_false_iff_not]
    exact and_congr_left fun hz => hcold i z hz
  have hall : ∀ l : List (Nat × Zone), (l.filter fun e => decide (m.params.Hot e.2)).length +
      (l.filter fun e => !decide (m.params.Hot e.2)).length = l.length := fun l => by
    have hsplit := (List.filter_append_perm (fun e => decide (m.params.Hot e.2)) l).length_eq
    rwa [List.length_append] at hsplit
  have hbefore := hall m.entries
  have hafter := hall m'.entries
  rw [h.length_entries] at hbefore
  rw [h'.length_entries, hperm.length_eq] at hafter
  unfold hotEntries
  rw [hp]
  omega

/-! ## The whole pass -/

/-- The hot zones of `m'` are the unions of the connected components of the hot zones of `m`, and the
cold zones are the same. -/
structure ComponentsMerged (m m' : HeatMap) : Prop where
  /-- Of the slots of a component exactly one holds a hot zone. -/
  unique : ∀ i x, m.at? i = some x → m.params.Hot x →
    ∃ r, (m.Linked i r ∧ ∃ z, m'.at? r = some z ∧ m.params.Hot z) ∧
      ∀ r', m.Linked i r' → (∃ z, m'.at? r' = some z ∧ m.params.Hot z) → r' = r
  /-- A hot zone is the union of a component, in the slot of its leader. -/
  union : ∀ r z, m'.at? r = some z → m.params.Hot z →
    m.Leads r ∧ ∃ l, m.Component r l ∧ Unites m.order (l.map Prod.snd) z
  disjoint : ∀ i j x y, i ≠ j → m'.at? i = some x → m'.at? j = some y → m.params.Hot x →
    m.params.Hot y → ¬ x.span.Meets m.order y.span
  cold : ∀ i z, ¬ m.params.Hot z → (m'.at? i = some z ↔ m.at? i = some z)

section

variable {m : HeatMap} {s : HeatMap × Nat} {V : Nat → Prop} {i : Nat} {z : Zone}

/-- When all hot zones have been visited, every hot zone that is left comes from a merge. -/
theorem MergedUpTo.merged_of_hot (hm : MergedUpTo m s V) (hall : ∀ e ∈ m.hotEntries, V e.1)
    (hz : s.1.at? i = some z) (hot : m.params.Hot z) : V i := by
  apply Classical.byContradiction
  intro hV
  have hbefore : m.at? i = some z := (hm.untouched i hV).symm.trans hz
  exact hV (hall (i, z) (mem_hotEntries.mpr ⟨hbefore, hot⟩))

/-- A slot whose component has been merged held a hot zone. -/
theorem MergedUpTo.hot_of_merged (hm : MergedUpTo m s V) (hV : V i) (hz : m.at? i = some z) :
    m.params.Hot z := by
  obtain ⟨r, ⟨u, hu, hotu, -⟩, hlinked⟩ := hm.led i hV
  obtain ⟨z', hz', hot⟩ := hlinked.hot hu hotu
  cases hz.symm.trans hz'
  exact hot

theorem MergedUpTo.componentsMerged (hm : MergedUpTo m s V)
    (hall : ∀ e ∈ m.hotEntries, V e.1) : m.ComponentsMerged s.1 where
  unique i x hx hot := by
    have hV : V i := hall (i, x) (mem_hotEntries.mpr ⟨hx, hot⟩)
    obtain ⟨r, hlead, hlinked⟩ := hm.led i hV
    have hVr := hm.closed i r hV hlinked.symm
    obtain ⟨z, l, hz, hotz, -⟩ := hm.kept r hVr hlead
    refine ⟨r, ⟨hlinked.symm, z, hz, hotz⟩, ?_⟩
    rintro r' hlinked' ⟨z', hz', -⟩
    have hlead' := hm.leads (hm.closed i r' hV hlinked') hz'
    exact hlead'.eq hlead (hlinked'.symm.trans hlinked.symm)
  union r z hz hot := by
    have hV := hm.merged_of_hot hall hz hot
    have hlead := hm.leads hV hz
    obtain ⟨z', l, hz', -, hcomponent, hunites⟩ := hm.kept r hV hlead
    cases hz.symm.trans hz'
    exact ⟨hlead, l, hcomponent, hunites⟩
  disjoint i j x y hij hx hy hotx hoty :=
    hm.isolated (hm.merged_of_hot hall hy hoty) hy hx hoty hotx hij
  cold i z hcold := by
    by_cases hV : V i
    · constructor
      · intro hz
        obtain ⟨z', -, hz', hot, -⟩ := hm.kept i hV (hm.leads hV hz)
        cases hz.symm.trans hz'
        exact absurd hot hcold
      · intro hz
        exact absurd (hm.hot_of_merged hV hz) hcold
    · rw [hm.untouched i hV]

end

/-- **A pass merges the connected components of the hot zones.** Whatever overlaps there are and in
whatever slots, afterwards there is one hot zone for each component, the union of its zones, in the
slot of the one that starts first; the pass counts the zones that have gone, and a second pass
changes nothing. -/
theorem mergeHot_components {m : HeatMap} (h : m.Intact) :
    m.ComponentsMerged m.mergeHot.1 ∧
      m.mergeHot.1.hotEntries.length + m.mergeHot.2 = m.hotEntries.length ∧
      m.mergeHot.1.mergeHot = (m.mergeHot.1, 0) := by
  have hsorted : (sortByStart m.order m.hotEntries).Pairwise (StartsBefore m.order) :=
    sortByStart_pairwise (m.entries_pairwise.filter _)
  obtain ⟨V, hm, hall⟩ := (mergedUpTo_start h).visits (fun e he => mem_sortByStart.mp he) hsorted
    fun e he => Or.inr (mem_sortByStart.mpr he)
  rw [← mergeHot_eq] at hm
  have hmerged := hm.componentsMerged hall
  refine ⟨hmerged, ?_, ?_⟩
  · have hcount := length_hotEntries_of_cold h hm.intact hm.params hmerged.cold
    have hlive := hm.live
    omega
  · apply mergeHot_of_apart
    rw [hm.order, hm.params]
    exact hmerged.disjoint

/-- A chain of hot zones in mixed order, two of which start together, and a cold zone among them. The
lower one of the two takes the chain in, and the sum of the heats is cut off. -/
theorem mergeHot_components_chain :
    let p : Params := ⟨.bytewise, 6, 10, 3, .lowest, by decide, by decide, by decide, by decide⟩
    let m := ofZones p [⟨⟨[6], [9]⟩, 200, true⟩, ⟨⟨[20], [22]⟩, 15, true⟩, ⟨⟨[1], [4]⟩, 30, true⟩,
      ⟨⟨[2], [5]⟩, 4, false⟩, ⟨⟨[3], [7]⟩, 40, true⟩, ⟨⟨[1], [2]⟩, 12, false⟩]
    m.mergeHot.1.slots = [none, some ⟨⟨[20], [22]⟩, 15, true⟩, some ⟨⟨[1], [9]⟩, 250, false⟩,
        some ⟨⟨[2], [5]⟩, 4, false⟩, none, none] ∧
      m.mergeHot.2 = 3 ∧ m.ComponentsMerged m.mergeHot.1 ∧
      m.mergeHot.1.mergeHot = (m.mergeHot.1, 0) := by
  intro p m
  have hintact : m.Intact := ofZones_intact (by decide)
  obtain ⟨hmerged, -, hsecond⟩ := mergeHot_components hintact
  have hvisits : sortByStart m.order m.hotEntries =
      [(2, ⟨⟨[1], [4]⟩, 30, true⟩), (5, ⟨⟨[1], [2]⟩, 12, false⟩), (4, ⟨⟨[3], [7]⟩, 40, true⟩),
        (0, ⟨⟨[6], [9]⟩, 200, true⟩), (1, ⟨⟨[20], [22]⟩, 15, true⟩)] :=
    sortByStart_eq (m.entries_pairwise.filter _) (by decide) (by decide)
  let u : Zone := ⟨⟨[1], [4]⟩, 30, true⟩
  let chain : List (Nat × Zone) :=
    [(5, ⟨⟨[1], [2]⟩, 12, false⟩), (4, ⟨⟨[3], [7]⟩, 40, true⟩), (0, ⟨⟨[6], [9]⟩, 200, true⟩)]
  -- two zones meet the first one that is visited, and with them it meets the third
  have hround : sortByStart m.order (near m.order u (m.hotOthers 2)) = chain.take 2 :=
    sortByStart_eq ((m.hotOthers_pairwise 2).filter _) (by decide) (by decide)
  have hgather : gather m.order u (m.hotOthers 2) = (⟨⟨[1], [9]⟩, 250, false⟩, chain) := by
    rw [gather, if_neg (by decide), hround]
    decide +kernel
  have hmerge : m.mergeAt 2 = ((m.freeAll chain).put 2 ⟨⟨[1], [9]⟩, 250, false⟩, 3) := by
    rw [mergeAt_eq (u := u) (by decide), absorbed, merged, hgather]
    rfl
  refine ⟨?_, ?_, hmerged, hsecond⟩
  · rw [mergeHot_eq, hvisits, List.foldl_cons, countMerge, hmerge]
    decide +kernel
  · rw [mergeHot_eq, hvisits, List.foldl_cons, countMerge, hmerge]
    decide +kernel

end HeatMap

end TierIndex
