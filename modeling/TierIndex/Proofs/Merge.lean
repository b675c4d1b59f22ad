import TierIndex.Proofs.Intact

set_option autoImplicit false

/-! # What a merge makes of the hot zones

Merging absorbs round after round whatever the growing zone meets. Three facts about the
result carry everything that is proved about merging:

* the absorbed entries are exactly the entries that the final zone meets (`gather_perm`);
* the final zone holds a key only if it or an absorbed zone held it before
  (`holds_gather`), because every union is one of spans that meet;
* in the map, the final zone stands in the slot of the growing one, the slots of the absorbed
  zones are free, and nothing else has changed (`at?_mergeAt`).
-/

namespace TierIndex

variable {o : KeyOrder}

/-! ## One round -/

theorem mem_near {u : Zone} {l : List (Nat × Zone)} {e : Nat × Zone} :
    e ∈ near o u l ↔ e ∈ l ∧ e.2.span.Meets o u.span := by
  simp [near]

theorem near_append (u : Zone) (l l' : List (Nat × Zone)) :
    near o u (l ++ l') = near o u l ++ near o u l' :=
  List.filter_append l l'

theorem mem_far {u : Zone} {l : List (Nat × Zone)} {e : Nat × Zone} :
    e ∈ far o u l ↔ e ∈ l ∧ ¬ e.2.span.Meets o u.span := by
  simp only [far, List.mem_filter, decide_eq_true_eq]

theorem sortByStart_perm (l : List (Nat × Zone)) : (sortByStart o l).Perm l :=
  List.mergeSort_perm _ _

theorem mem_sortByStart {l : List (Nat × Zone)} {e : Nat × Zone} :
    e ∈ sortByStart o l ↔ e ∈ l :=
  (sortByStart_perm l).mem_iff

theorem absorbAll_covers (u : Zone) (l : List (Nat × Zone)) :
    (absorbAll o u l).span.Covers o u.span := by
  induction l generalizing u with
  | nil => exact Span.covers_refl o u.span
  | cons e l ih => exact (ih (u.absorb o e.2)).trans (Span.union_covers_left o _ _)

theorem absorbAll_covers_mem {u : Zone} {l : List (Nat × Zone)} {e : Nat × Zone} (he : e ∈ l) :
    (absorbAll o u l).span.Covers o e.2.span := by
  induction l generalizing u with
  | nil => cases he
  | cons f l ih =>
      rcases List.mem_cons.mp he with rfl | he
      · exact (absorbAll_covers (u.absorb o e.2) l).trans (Span.union_covers_right o _ _)
      · exact ih he

/-- Absorbing zones that all meet `u` adds their keys and no others. -/
theorem holds_absorbAll {u : Zone} {l : List (Nat × Zone)}
    (h : ∀ e ∈ l, e.2.span.Meets o u.span) {k : Key} :
    (absorbAll o u l).span.Holds o k ↔
      u.span.Holds o k ∨ ∃ e ∈ l, e.2.span.Holds o k := by
  induction l generalizing u with
  | nil => simp [absorbAll]
  | cons e l ih =>
      have hmeet : u.span.Meets o e.2.span := Span.meets_comm.mp (h e List.mem_cons_self)
      have hrest : ∀ f ∈ l, f.2.span.Meets o (u.absorb o e.2).span := fun f hf =>
        (Span.union_covers_left o u.span e.2.span).meets (h f (List.mem_cons_of_mem e hf))
      have hunion : (u.absorb o e.2).span.Holds o k ↔ u.span.Holds o k ∨ e.2.span.Holds o k :=
        Span.holds_union_iff hmeet
      show (absorbAll o (u.absorb o e.2) l).span.Holds o k ↔ _
      rw [ih hrest, hunion, or_assoc]
      simp only [List.mem_cons, or_and_right, exists_or, exists_eq_left]

theorem absorbAll_sound {u : Zone} {l : List (Nat × Zone)} (hu : u.Sound o)
    (hl : ∀ e ∈ l, e.2.Sound o) : (absorbAll o u l).Sound o := by
  induction l generalizing u with
  | nil => exact hu
  | cons e l ih =>
      exact ih (Zone.absorb_sound hu (hl e List.mem_cons_self))
        fun f hf => hl f (List.mem_cons_of_mem e hf)

theorem le_absorbAll_heat {u : Zone} {l : List (Nat × Zone)} (hu : u.Sound o)
    (hl : ∀ e ∈ l, e.2.Sound o) : u.heat ≤ (absorbAll o u l).heat := by
  induction l generalizing u with
  | nil => exact Int.le_refl _
  | cons e l ih =>
      have he := hl e List.mem_cons_self
      have hpos : 0 ≤ e.2.heat := Int.le_trans (by decide) he.heat_pos
      have hfirst : u.heat ≤ (u.absorb o e.2).heat := Zone.le_poolHeat hu.heat_le hpos
      have hrest := ih (Zone.absorb_sound hu he) fun f hf => hl f (List.mem_cons_of_mem e hf)
      exact Int.le_trans hfirst hrest

/-! ## All rounds -/

/-- The zones of a list are sound. -/
abbrev SoundAll (o : KeyOrder) (l : List (Nat × Zone)) : Prop := ∀ e ∈ l, e.2.Sound o

theorem SoundAll.near {u : Zone} {l : List (Nat × Zone)} (hl : SoundAll o l) :
    SoundAll o (sortByStart o (near o u l)) := fun e he =>
  hl e (mem_near.mp (mem_sortByStart.mp he)).1

theorem SoundAll.far {u : Zone} {l : List (Nat × Zone)} (hl : SoundAll o l) :
    SoundAll o (far o u l) := fun e he => hl e (mem_far.mp he).1

theorem gather_sound {u : Zone} {l : List (Nat × Zone)} (hu : u.Sound o) (hl : SoundAll o l) :
    (gather o u l).1.Sound o := by
  fun_induction gather o u l with
  | case1 u l h => exact hu
  | case2 u l h round r ih => exact ih (absorbAll_sound hu hl.near) hl.far

theorem le_gather_heat {u : Zone} {l : List (Nat × Zone)} (hu : u.Sound o)
    (hl : SoundAll o l) : u.heat ≤ (gather o u l).1.heat := by
  fun_induction gather o u l with
  | case1 u l h => exact Int.le_refl _
  | case2 u l h round r ih =>
      have hround : (absorbAll o u round).Sound o := absorbAll_sound hu hl.near
      exact Int.le_trans (le_absorbAll_heat hu hl.near) (ih hround hl.far)

theorem gather_covers (u : Zone) (l : List (Nat × Zone)) :
    (gather o u l).1.span.Covers o u.span := by
  fun_induction gather o u l with
  | case1 u l h => exact Span.covers_refl o u.span
  | case2 u l h round r ih => exact ih.trans (absorbAll_covers u round)

/-- **Absorbed is what meets.** The entries that a merge absorbs are those that meet the zone
it ends with, so none that is left does. -/
theorem gather_perm {u : Zone} {l : List (Nat × Zone)} (hl : SoundAll o l) :
    (gather o u l).2.Perm (near o (gather o u l).1 l) := by
  fun_induction gather o u l with
  | case1 u l h => rw [h]
  | case2 u l h round r ih =>
      have hcover : r.1.span.Covers o (absorbAll o u round).span := gather_covers _ _
      -- what met the zone at the start of the round is covered by the zone at the end
      have hround : near o r.1 (near o u l) = near o u l := by
        refine List.filter_eq_self.mpr fun e he => decide_eq_true ?_
        have hmem : e ∈ round := mem_sortByStart.mpr he
        exact (hcover.trans (absorbAll_covers_mem hmem)).meets_self (hl.near e hmem).proper
      have hsplit : (near o u l ++ far o u l).Perm l := by
        have h := List.filter_append_perm (fun e => decide (e.2.span.Meets o u.span)) l
        simpa only [near, far, decide_not] using h
      calc (round ++ r.2).Perm (near o u l ++ near o r.1 (far o u l)) :=
            (sortByStart_perm _).append (ih hl.far)
        _ = near o r.1 (near o u l ++ far o u l) := by
            rw [near_append, hround]
        List.Perm _ (near o r.1 l) := hsplit.filter _

/-- **Nothing is added between the zones.** A key lies in the zone that a merge ends with
exactly if it lay in the growing zone or in an absorbed one. -/
theorem holds_gather {u : Zone} {l : List (Nat × Zone)} {k : Key} :
    (gather o u l).1.span.Holds o k ↔
      u.span.Holds o k ∨ ∃ e ∈ (gather o u l).2, e.2.span.Holds o k := by
  fun_induction gather o u l with
  | case1 u l h => simp
  | case2 u l h round r ih =>
      have hmeets : ∀ e ∈ round, e.2.span.Meets o u.span := fun e he =>
        (mem_near.mp (mem_sortByStart.mp he)).2
      rw [ih, holds_absorbAll hmeets, or_assoc]
      simp only [List.mem_append, or_and_right, exists_or]
      rfl

namespace HeatMap

/-! ## The hot zones of a map -/

theorem mem_hotEntries {m : HeatMap} {i : Nat} {z : Zone} :
    (i, z) ∈ m.hotEntries ↔ m.at? i = some z ∧ m.params.Hot z := by
  simp [hotEntries, mem_entries]

theorem mem_hotOthers {m : HeatMap} {i j : Nat} {z : Zone} :
    (j, z) ∈ m.hotOthers i ↔ m.at? j = some z ∧ m.params.Hot z ∧ j ≠ i := by
  simp [hotOthers, mem_hotEntries, and_assoc]

theorem Intact.soundAll_hotOthers {m : HeatMap} (h : m.Intact) (i : Nat) :
    SoundAll m.order (m.hotOthers i) := fun e he =>
  h.sound e.1 e.2 (mem_hotOthers.mp he).1

theorem hotOthers_pairwise (m : HeatMap) (i : Nat) :
    (m.hotOthers i).Pairwise fun a b => a.1 < b.1 :=
  (m.entries_pairwise.filter _).filter _

/-- No slot is listed twice. -/
theorem hotOthers_nodup (m : HeatMap) (i : Nat) : ((m.hotOthers i).map Prod.fst).Nodup := by
  refine List.pairwise_map.mpr ((m.hotOthers_pairwise i).imp ?_)
  intro a b hab
  exact Nat.ne_of_lt hab

/-! ## One merge in the map -/

/-- The zone that a merge of the zone `u` in slot `i` ends with. -/
def merged (m : HeatMap) (i : Nat) (u : Zone) : Zone := (gather m.order u (m.hotOthers i)).1

/-- The entries that a merge of the zone `u` in slot `i` absorbs. -/
def absorbed (m : HeatMap) (i : Nat) (u : Zone) : List (Nat × Zone) :=
  (gather m.order u (m.hotOthers i)).2

section

variable {m : HeatMap} {i : Nat} {u : Zone}

theorem mergeAt_eq (hu : m.at? i = some u) :
    m.mergeAt i = ((m.freeAll (m.absorbed i u)).put i (m.merged i u), (m.absorbed i u).length) := by
  rw [mergeAt, hu]
  rfl

theorem mem_absorbed (h : m.Intact) {j : Nat} {z : Zone} :
    (j, z) ∈ m.absorbed i u ↔
      m.at? j = some z ∧ m.params.Hot z ∧ j ≠ i ∧ z.span.Meets m.order (m.merged i u).span := by
  have hperm := gather_perm (u := u) (h.soundAll_hotOthers i)
  rw [absorbed, hperm.mem_iff, mem_near, mem_hotOthers, and_assoc, and_assoc]
  rfl

theorem absorbed_nodup (h : m.Intact) : ((m.absorbed i u).map Prod.fst).Nodup := by
  have hperm := (gather_perm (u := u) (h.soundAll_hotOthers i)).map Prod.fst
  refine hperm.nodup_iff.mpr ?_
  exact (m.hotOthers_nodup i).sublist (List.filter_sublist.map Prod.fst)

theorem notMem_absorbed (h : m.Intact) : i ∉ (m.absorbed i u).map Prod.fst := by
  intro hi
  obtain ⟨⟨j, z⟩, he, rfl⟩ := List.mem_map.mp hi
  exact ((mem_absorbed h).mp he).2.2.1 rfl

theorem merged_sound (h : m.Intact) (hu : m.at? i = some u) : (m.merged i u).Sound m.order :=
  gather_sound (h.sound i u hu) (h.soundAll_hotOthers i)

theorem merged_covers : (m.merged i u).span.Covers m.order u.span := gather_covers _ _

theorem merged_hot (h : m.Intact) (hu : m.at? i = some u) (hot : m.params.Hot u) :
    m.params.Hot (m.merged i u) :=
  Int.le_trans hot (le_gather_heat (h.sound i u hu) (h.soundAll_hotOthers i))

/-- A zone that no other hot zone meets is merged with nothing. -/
theorem mergeAt_of_apart (hu : m.at? i = some u)
    (hoff : ∀ j z, m.at? j = some z → m.params.Hot z → j ≠ i → ¬ z.span.Meets m.order u.span) :
    m.mergeAt i = (m, 0) := by
  have hnear : near m.order u (m.hotOthers i) = [] := by
    rw [List.eq_nil_iff_forall_not_mem]
    rintro ⟨j, z⟩ he
    obtain ⟨hmem, hmeets⟩ := mem_near.mp he
    obtain ⟨hz, hot, hj⟩ := mem_hotOthers.mp hmem
    exact hoff j z hz hot hj hmeets
  have hgather : gather m.order u (m.hotOthers i) = (u, []) := by rw [gather, if_pos hnear]
  have hmerged : m.merged i u = u := congrArg Prod.fst hgather
  have habsorbed : m.absorbed i u = [] := congrArg Prod.snd hgather
  rw [mergeAt_eq hu, hmerged, habsorbed]
  show (m.put i u, 0) = (m, 0)
  rw [put_self hu]

theorem mergeAt_params (m : HeatMap) (i : Nat) : (m.mergeAt i).1.params = m.params := by
  cases hu : m.at? i with
  | none => rw [mergeAt_of_none hu]
  | some u => rw [mergeAt_eq hu, put_params, freeAll_params]

theorem at?_mergeAt_absorbed (hu : m.at? i = some u) (j : Nat) :
    (m.mergeAt i).1.at? j =
      if j = i then some (m.merged i u)
      else if j ∈ (m.absorbed i u).map Prod.fst then none
      else m.at? j := by
  rw [mergeAt_eq hu]
  exact at?_put_freeAll hu (m.absorbed i u) _ j

/-- **The map after a merge.** The final zone stands in slot `i`, the hot zones that it meets
are gone, and every other slot is as it was. -/
theorem at?_mergeAt (h : m.Intact) (hu : m.at? i = some u) (j : Nat) :
    (m.mergeAt i).1.at? j =
      if j = i then some (m.merged i u)
      else (m.at? j).filter fun z =>
        ¬ (m.params.Hot z ∧ z.span.Meets m.order (m.merged i u).span) := by
  rw [at?_mergeAt_absorbed hu]
  by_cases hj : j = i
  · rw [if_pos hj, if_pos hj]
  · rw [if_neg hj, if_neg hj]
    cases hz : m.at? j with
    | none => simp
    | some z =>
        -- a slot is freed exactly if its zone is hot and meets the final one
        have hmem : j ∈ (m.absorbed i u).map Prod.fst ↔
            m.params.Hot z ∧ z.span.Meets m.order (m.merged i u).span := by
          constructor
          · intro hin
            obtain ⟨⟨j', z'⟩, he, rfl⟩ := List.mem_map.mp hin
            obtain ⟨hz', hot, -, hmeets⟩ := (mem_absorbed h).mp he
            cases hz.symm.trans hz'
            exact ⟨hot, hmeets⟩
          · rintro ⟨hot, hmeets⟩
            exact List.mem_map.mpr ⟨(j, z), (mem_absorbed h).mpr ⟨hz, hot, hj, hmeets⟩, rfl⟩
        by_cases hin : j ∈ (m.absorbed i u).map Prod.fst
        · have hgone := hmem.mp hin
          rw [if_pos hin, Option.filter_some, if_neg]
          exact fun hkeep => (of_decide_eq_true hkeep) hgone
        · have hkeep := decide_eq_true (mt hmem.mpr hin)
          rw [if_neg hin, Option.filter_some, if_pos hkeep]

theorem at?_mergeAt_self (h : m.Intact) (hu : m.at? i = some u) :
    (m.mergeAt i).1.at? i = some (m.merged i u) := by
  rw [at?_mergeAt h hu, if_pos rfl]

/-- A zone of the map after a merge is the final zone or an old one that stays apart
from it. -/
theorem at?_mergeAt_cases (h : m.Intact) (hu : m.at? i = some u) {j : Nat} {z : Zone}
    (hz : (m.mergeAt i).1.at? j = some z) :
    (j = i ∧ z = m.merged i u) ∨
      (j ≠ i ∧ m.at? j = some z ∧
        ¬ (m.params.Hot z ∧ z.span.Meets m.order (m.merged i u).span)) := by
  rw [at?_mergeAt h hu] at hz
  split at hz
  · next hj => exact Or.inl ⟨hj, (Option.some.inj hz).symm⟩
  · next hj =>
      obtain ⟨hold, hkeep⟩ := Option.filter_eq_some_iff.mp hz
      exact Or.inr ⟨hj, hold, of_decide_eq_true hkeep⟩

theorem Intact.freeAll (h : m.Intact) {l : List (Nat × Zone)} (hnd : (l.map Prod.fst).Nodup)
    (hl : ∀ e ∈ l, m.at? e.1 = some e.2) : (m.freeAll l).Intact := by
  induction l generalizing m with
  | nil => exact h
  | cons e l ih =>
      have he := hl e List.mem_cons_self
      exact ih (h.free he) (List.nodup_cons.mp hnd).2 (at?_free_head hnd hl)

theorem freeAll_live (h : m.Intact) {l : List (Nat × Zone)} (hnd : (l.map Prod.fst).Nodup)
    (hl : ∀ e ∈ l, m.at? e.1 = some e.2) : (m.freeAll l).live + l.length = m.live := by
  induction l generalizing m with
  | nil => rfl
  | cons e l ih =>
      have he := hl e List.mem_cons_self
      have hpos := h.live_pos he
      have hrest : ((m.free e.1).freeAll l).live + l.length = m.live - 1 :=
        ih (h.free he) (List.nodup_cons.mp hnd).2 (at?_free_head hnd hl)
      show ((m.free e.1).freeAll l).live + (l.length + 1) = m.live
      omega

/-- What a merge counts is what the map has lost. -/
theorem mergeAt_live (h : m.Intact) (i : Nat) : (m.mergeAt i).1.live + (m.mergeAt i).2 = m.live := by
  cases hu : m.at? i with
  | none =>
      rw [mergeAt_of_none hu]
      rfl
  | some u =>
      rw [mergeAt_eq hu]
      exact freeAll_live h (absorbed_nodup h) fun e he => ((mem_absorbed h).mp he).1

theorem Intact.put_freeAll (h : m.Intact) (hu : m.at? i = some u) {l : List (Nat × Zone)}
    (hnd : (l.map Prod.fst).Nodup) (hl : ∀ e ∈ l, m.at? e.1 = some e.2)
    (hi : i ∉ l.map Prod.fst) {z : Zone} (hz : z.Sound m.order) :
    ((m.freeAll l).put i z).Intact := by
  have hstill : (m.freeAll l).at? i = some u := by
    rw [at?_freeAll, if_neg hi]
    exact hu
  refine (h.freeAll hnd hl).put hstill ?_
  show z.Sound (m.freeAll l).params.order
  rw [freeAll_params]
  exact hz

theorem Intact.mergeAt (h : m.Intact) (hu : m.at? i = some u) : (m.mergeAt i).1.Intact := by
  rw [mergeAt_eq hu]
  exact h.put_freeAll hu (absorbed_nodup h) (fun e he => ((mem_absorbed h).mp he).1)
    (notMem_absorbed h) (merged_sound h hu)

end

/-! ## All merges of a pass -/

/-- The merge of one hot zone in a pass, with the count so far. -/
def countMerge (r : HeatMap × Nat) (e : Nat × Zone) : HeatMap × Nat :=
  ((r.1.mergeAt e.1).1, r.2 + (r.1.mergeAt e.1).2)

theorem mergeHot_eq (m : HeatMap) :
    m.mergeHot = (sortByStart m.order m.hotEntries).foldl countMerge (m, 0) := rfl

/-- The map after a pass, without the count. -/
theorem mergeHot_fst (m : HeatMap) :
    m.mergeHot.1 =
      (sortByStart m.order m.hotEntries).foldl (fun m e => (m.mergeAt e.1).1) m := by
  unfold mergeHot
  exact (List.foldl_hom Prod.fst fun _ _ => rfl).symm

/-- A pass over a map in which no two hot zones meet has nothing to do. -/
theorem mergeHot_of_apart {m : HeatMap}
    (hoff : ∀ i j y z, i ≠ j → m.at? i = some y → m.at? j = some z → m.params.Hot y →
      m.params.Hot z → ¬ y.span.Meets m.order z.span) : m.mergeHot = (m, 0) := by
  have hstep : ∀ e ∈ sortByStart m.order m.hotEntries, countMerge (m, 0) e = (m, 0) := by
    rintro ⟨i, u⟩ he
    obtain ⟨hu, hot⟩ := mem_hotEntries.mp (mem_sortByStart.mp he)
    have hmerge := mergeAt_of_apart hu fun j z hz hotz hj => hoff j i z u hj hz hu hotz hot
    simp [countMerge, hmerge]
  rw [mergeHot_eq]
  generalize sortByStart m.order m.hotEntries = l at hstep ⊢
  induction l with
  | nil => rfl
  | cons e l ih =>
      rw [List.foldl_cons, hstep e List.mem_cons_self]
      exact ih fun f hf => hstep f (List.mem_cons_of_mem e hf)

/-- **Induction over a pass of merges.** What the map has and every merge of a hot zone keeps,
the map has after the pass. -/
theorem mergeHot_induction {m : HeatMap} (h : m.Intact) {P : HeatMap → Prop} (start : P m)
    (step : ∀ (m' : HeatMap) (i : Nat) (u : Zone), m'.Intact → m'.params = m.params → P m' →
      m'.at? i = some u → m.params.Hot u → P (m'.mergeAt i).1) :
    m.mergeHot.1.Intact ∧ m.mergeHot.1.params = m.params ∧ P m.mergeHot.1 := by
  -- a slot that is still to be visited holds a hot zone or has been freed on the way
  have key : ∀ (l : List (Nat × Zone)) (m' : HeatMap), m'.Intact → m'.params = m.params → P m' →
      (∀ e ∈ l, ∀ z, m'.at? e.1 = some z → m.params.Hot z) →
      let m'' := l.foldl (fun m e => (m.mergeAt e.1).1) m'
      m''.Intact ∧ m''.params = m.params ∧ P m'' := by
    intro l
    induction l with
    | nil => intro m' h' hp hP _; exact ⟨h', hp, hP⟩
    | cons e l ih =>
        intro m' h' hp hP hhot
        have hrest := fun f hf => hhot f (List.mem_cons_of_mem e hf)
        show let m'' := l.foldl (fun m e => (m.mergeAt e.1).1) (m'.mergeAt e.1).1
          m''.Intact ∧ m''.params = m.params ∧ P m''
        cases hu : m'.at? e.1 with
        | none =>
            rw [mergeAt_of_none hu]
            exact ih m' h' hp hP hrest
        | some u =>
            have hot : m.params.Hot u := hhot e List.mem_cons_self u hu
            have hp' : (m'.mergeAt e.1).1.params = m.params := (mergeAt_params m' e.1).trans hp
            apply ih _ (h'.mergeAt hu) hp' (step m' e.1 u h' hp hP hu hot)
            intro f hf z hz
            rcases at?_mergeAt_cases h' hu hz with ⟨-, rfl⟩ | ⟨-, hold, -⟩
            · exact hp ▸ merged_hot h' hu (hp ▸ hot)
            · exact hrest f hf z hold
  rw [mergeHot_fst]
  apply key _ m h rfl start
  intro e he z hz
  obtain ⟨hat, hot⟩ := mem_hotEntries.mp (mem_sortByStart.mp he)
  cases hat.symm.trans hz
  exact hot

end HeatMap

end TierIndex
