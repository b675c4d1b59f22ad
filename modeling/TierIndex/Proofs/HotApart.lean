import TierIndex.Proofs.Checkpoint
import TierIndex.Proofs.Reachable

set_option autoImplicit false

/-! # Hot zones share at most a boundary key

The purpose of settling: of two hot zones, one ends where the other starts or before. A write
may break this for the one slot that it touches, and for no other pair of slots
(`HotApartBut`). Settling that slot restores it, whichever of the three ways it takes:

* without a rival, the zone of the slot does not even touch another hot zone;
* after a split, the pieces only touch each other, and a third hot zone, which touched the
  rival at most, touches the pieces at most;
* after a merge, the final zone meets no hot zone that is left.

Cooling and confirming move no span and raise no heat, and a saved map that is loaded has the
same zones as before.
-/

namespace TierIndex

namespace HeatMap

/-- Any two zones of different slots that are hot under `p` share at most a boundary key. -/
def HotApart (m : HeatMap) (p : Params) : Prop :=
  ∀ i j x y, i ≠ j → m.at? i = some x → m.at? j = some y → p.Hot x → p.Hot y →
    x.span.Apart p.order y.span

/-- The same, of the zones outside slot `s`. -/
def HotApartBut (m : HeatMap) (p : Params) (s : Nat) : Prop :=
  ∀ i j x y, i ≠ s → j ≠ s → i ≠ j → m.at? i = some x → m.at? j = some y → p.Hot x → p.Hot y →
    x.span.Apart p.order y.span

section

variable {m m' : HeatMap} {p : Params} {i j s : Nat} {u v : Zone}

theorem HotApart.but (h : m.HotApart p) (s : Nat) : m.HotApartBut p s :=
  fun i j x y _ _ => h i j x y

/-- It is enough to look at the slot that was left out. -/
theorem HotApartBut.close (h : m.HotApartBut p s)
    (hs : ∀ u, m.at? s = some u → p.Hot u → ∀ j y, j ≠ s → m.at? j = some y → p.Hot y →
      y.span.Apart p.order u.span) : m.HotApart p := by
  intro i j x y hij hx hy hotx hoty
  by_cases hi : i = s
  · rw [hi] at hx hij
    exact Span.apart_comm.mp (hs x hx hotx j y (Ne.symm hij) hy hoty)
  · by_cases hj : j = s
    · rw [hj] at hy
      exact hs y hy hoty i x hi hx hotx
    · exact h i j x y hi hj hij hx hy hotx hoty

/-- Spans stay apart where no span moves and no heat rises. -/
theorem HotApart.of_le (h : m.HotApart p)
    (hle : ∀ i z, m'.at? i = some z → ∃ y, m.at? i = some y ∧ z.span = y.span ∧ z.heat ≤ y.heat) :
    m'.HotApart p := by
  intro i j x y hij hx hy hotx hoty
  obtain ⟨x', hx', hspanx, hheatx⟩ := hle i x hx
  obtain ⟨y', hy', hspany, hheaty⟩ := hle j y hy
  rw [hspanx, hspany]
  exact h i j x' y' hij hx' hy' (Int.le_trans hotx hheatx) (Int.le_trans hoty hheaty)

/-! ## Settling -/

theorem hotApart_splitAt (h : m.Intact) (hbut : m.HotApartBut m.params i) (hij : i ≠ j)
    (hu : m.at? i = some u) (hv : m.at? j = some v) (hotv : m.params.Hot v)
    (hmeets : u.span.Meets m.order v.span)
    (hclear : ∀ k z, m.at? k = some z → m.params.Hot z → k ≠ i → k ≠ j →
      ¬ z.span.Meets m.order u.span) :
    (m.splitAt i u j v).HotApart m.params := by
  have hsu := h.sound i u hu
  have hsv := h.sound j v hv
  -- a third hot zone keeps off the rival, and so off the pieces
  have hthird : ∀ k l z w, (pieces m.order u v).At (splitSlots m.order i u j v).1 m.freshSlot
      (splitSlots m.order i u j v).2 k z → l ≠ i → l ≠ j → m.at? l = some w → m.params.Hot w →
      w.span.Apart m.order z.span := by
    intro k l z w hz hli hlj hw hotw
    have hkeeps := hbut l j w v hli (Ne.symm hij) hlj hw hv hotw hotv
    exact apart_of_has hsu hsv hmeets (h.sound l w hw).proper (hclear l w hw hotw hli hlj)
      hkeeps hz.has
  intro k l x y hkl hx hy hotx hoty
  rcases at?_splitAt_cases hij hu hv rfl hx with hpx | ⟨hki, hkj, hx'⟩
  · rcases at?_splitAt_cases hij hu hv rfl hy with hpy | ⟨hli, hlj, hy'⟩
    · exact apart_of_at hsu.proper hsv.proper hmeets hpx hpy hkl
    · exact Span.apart_comm.mp (hthird k l x y hpx hli hlj hy' hoty)
  · rcases at?_splitAt_cases hij hu hv rfl hy with hpy | ⟨hli, hlj, hy'⟩
    · exact hthird l k y x hpy hki hkj hx' hotx
    · exact hbut k l x y hki hli hkl hx' hy' hotx hoty

theorem hotApart_mergeAt (h : m.Intact) (hbut : m.HotApartBut m.params i)
    (hu : m.at? i = some u) : (m.mergeAt i).1.HotApart m.params := by
  -- outside slot `i` only old zones are left
  have hold : ∀ k z, k ≠ i → (m.mergeAt i).1.at? k = some z → m.at? k = some z ∧
      ¬ (m.params.Hot z ∧ z.span.Meets m.order (m.merged i u).span) := by
    intro k z hk hz
    rcases at?_mergeAt_cases h hu hz with ⟨heq, -⟩ | ⟨-, hz', hoff⟩
    · exact absurd heq hk
    · exact ⟨hz', hoff⟩
  refine HotApartBut.close (s := i) ?_ ?_
  · intro k l x y hk hl hkl hx hy hotx hoty
    exact hbut k l x y hk hl hkl (hold k x hk hx).1 (hold l y hl hy).1 hotx hoty
  · intro w hw _ l y hl hy hoty
    rw [at?_mergeAt_self h hu] at hw
    cases hw
    have hoff := (hold l y hl hy).2
    exact Span.apart_of_not_meets fun hmeets => hoff ⟨hoty, hmeets⟩

/-- **Settling a slot repairs what is wrong with it.** -/
theorem hotApart_settle (h : m.Intact) (hbut : m.HotApartBut m.params i) (hu : m.at? i = some u) :
    (m.settle i).HotApart m.params := by
  rcases settle_cases hu with ⟨hs, hclear⟩ | ⟨j, v, hs, -, hv, hotv, hij, hmeets, hclear⟩ | hs
  · rw [hs]
    apply hbut.close
    intro w hw _ l y hl hy hoty
    cases hu.symm.trans hw
    exact Span.apart_of_not_meets (hclear l y hy hoty hl)
  · rw [hs]
    exact hotApart_splitAt h hbut hij hu hv hotv hmeets hclear
  · rw [hs]
    exact hotApart_mergeAt h hbut hu

theorem hotApart_mergeHot (h : m.Intact) (ha : m.HotApart m.params) :
    m.mergeHot.1.HotApart m.params := by
  have hpass := mergeHot_induction h (P := fun m' => m'.HotApart m.params) ha
    fun m' i u h' hp ih hu _ => by
      rw [← hp] at ih ⊢
      exact hotApart_mergeAt h' (ih.but i) hu
  exact hpass.2.2

/-! ## Accesses -/

theorem hotApartBut_receives {t : Span} {r : Receipt} {new : Option Zone}
    (ha : m.HotApart m.params) (hrec : Receives m t r i new) :
    r.map.HotApartBut m.params i := by
  intro k l x y hk hl hkl hx hy hotx hoty
  rw [hrec.write.at?_of_ne hk] at hx
  rw [hrec.write.at?_of_ne hl] at hy
  exact ha k l x y hkl hx hy hotx hoty

theorem hotApart_access (h : m.Intact) (ha : m.HotApart m.params) {a b : Key} {d : Int}
    {out : Outcome} (hout : m.access a b d = .ok out) : out.map.HotApart m.params := by
  obtain ⟨r, i, new, -, hrec, rfl, ⟨hsame, hunmarked⟩ | ⟨u, hnew, -, hsettled⟩⟩ :=
    access_spec h hout
  · show r.settled.HotApart m.params
    rw [hsame]
    apply (hotApartBut_receives ha hrec).close
    intro u hu hotu l y hl hy hoty
    rw [hrec.write.at?_self] at hu
    have hquiet : r.unsettled = false := by
      cases hmark : r.unsettled with
      | false => rfl
      | true => exact absurd (hu.symm.trans (hunmarked hmark)) (by simp)
    -- what is hot and not marked was hot before, with the same span
    obtain ⟨w, hw, hotw, hspan⟩ := hrec.known hquiet u hu hotu
    rw [hrec.write.at?_of_ne hl] at hy
    exact hspan ▸ ha l i y w hl hy hw hoty hotw
  · have hu : r.map.at? i = some u := hrec.write.at?_self.trans hnew
    have hbut := hotApartBut_receives ha hrec
    show r.settled.HotApart m.params
    rw [hsettled]
    rw [← hrec.write.params] at hbut ⊢
    exact hotApart_settle (hrec.write.intact h) hbut hu

/-! ## Upkeep and loading -/

theorem HotApart.setTier (ha : m.HotApart p) (a b : Key) (fast : Bool) :
    (m.setTier a b fast).1.HotApart p := by
  apply ha.of_le
  intro i z hz
  rw [at?_of_slots (setTier_slots m a b fast)] at hz
  obtain ⟨y, hy, hmark⟩ := Option.bind_eq_some_iff.mp hz
  cases hmark
  exact ⟨y, hy, markTier_span _ _ _ y, Int.le_of_eq (markTier_heat _ _ _ y)⟩

theorem hotApart_decayBy (h : m.Intact) (ha : m.HotApart p) (c : Decay) :
    (m.decayBy c.left).1.HotApart p := by
  apply ha.of_le
  intro i z hz
  rw [at?_of_slots (m := m) rfl] at hz
  obtain ⟨y, hy, hcool⟩ := Option.bind_eq_some_iff.mp hz
  obtain ⟨-, rfl⟩ := coolSlot_eq_some.mp hcool
  have hs := h.sound i y hy
  exact ⟨y, hy, rfl, (c.decays y.heat hs.heat_pos hs.heat_le).2⟩

/-- Where the slots do not matter: any two zones of the list of zones. -/
theorem hotApart_iff_pairwise :
    m.HotApart p ↔
      m.zones.Pairwise fun x y => p.Hot x → p.Hot y → x.span.Apart p.order y.span :=
  (pairwise_zones_iff fun _ _ hapart hoty hotx => Span.apart_comm.mp (hapart hotx hoty)).symm

end

/-! ## Every run -/

/-- The maps that come about from an empty one under the given order and boiling point, when
only files are loaded that such maps have saved. Target, freezing point and slot policy may
differ from map to map. -/
inductive Descends (o : KeyOrder) (boiling : Int) : HeatMap → Prop
  | empty (p : Params) (ho : p.order = o) (hb : p.boiling = boiling) : Descends o boiling (.empty p)
  | serve {m : HeatMap} (h : Descends o boiling m) (q : MapRequest) : Descends o boiling (m.serve q)
  | reload {m saved : HeatMap} (h : Descends o boiling m) (hsaved : Descends o boiling saved)
      {f : Folder} (hf : saved.SavedIn f) : Descends o boiling (m.reload f)

theorem hotApart_serve {m : HeatMap} (h : m.Intact) (ha : m.HotApart m.params) (q : MapRequest) :
    (m.serve q).HotApart m.params := by
  rcases serve_cases m q with hs | ⟨a, b, d, out, hout, hs⟩ | ⟨a, b, fast, hs⟩ | ⟨c, hs⟩ | hs
  · rw [hs]
    exact ha
  · rw [hs]
    exact hotApart_access h ha hout
  · rw [hs]
    exact ha.setTier a b fast
  · rw [hs]
    exact hotApart_decayBy h ha c
  · rw [hs]
    exact hotApart_mergeHot h ha

/-- The invariant of the maps that descend from an empty one. -/
structure Settled (o : KeyOrder) (boiling : Int) (m : HeatMap) : Prop where
  intact : m.Intact
  order_eq : m.order = o
  boiling_eq : m.params.boiling = boiling
  apart : m.HotApart m.params

theorem Descends.settled {o : KeyOrder} {boiling : Int} {m : HeatMap} (h : Descends o boiling m) :
    Settled o boiling m := by
  induction h with
  | empty p ho hb =>
      refine ⟨Intact.empty p, ho, hb, fun i j x y _ hx => ?_⟩
      rw [at?_empty] at hx
      cases hx
  | @serve m _ q ih =>
      have hp := serve_params ih.intact q
      refine ⟨ih.intact.serve q, ?_, ?_, ?_⟩
      · rw [HeatMap.order, hp]
        exact ih.order_eq
      · rw [hp]
        exact ih.boiling_eq
      · rw [hp]
        exact hotApart_serve ih.intact ih.apart q
  | @reload m saved _ _ f hf ih ihs =>
      have hread : Checkpoint.read m.order f = .ok saved.zones := by
        rw [ih.order_eq, ← ihs.order_eq]
        exact read_of_saved ihs.intact hf
      have hload : m.reload f = ofZones m.params saved.zones := by
        simp [HeatMap.reload, load, hread, Except.map]
      have hp : (m.reload f).params = m.params := reload_params m f
      refine ⟨ih.intact.reload f, ?_, ?_, ?_⟩
      · rw [HeatMap.order, hp]
        exact ih.order_eq
      · rw [hp]
        exact ih.boiling_eq
      · have ho : m.params.order = saved.params.order := ih.order_eq.trans ihs.order_eq.symm
        have hb : m.params.boiling = saved.params.boiling :=
          ih.boiling_eq.trans ihs.boiling_eq.symm
        have hzones := hotApart_iff_pairwise.mp ihs.apart
        rw [hload, hotApart_iff_pairwise, zones_ofZones]
        show saved.zones.Pairwise fun x y => m.params.boiling ≤ x.heat → m.params.boiling ≤ y.heat →
          x.span.Apart m.params.order y.span
        rw [ho, hb]
        exact hzones

/-- **Hot zones share at most a boundary key**, in every map that comes about. -/
theorem Descends.hot_zones_apart {o : KeyOrder} {boiling : Int} {m : HeatMap}
    (h : Descends o boiling m) {i j : Nat} {x y : Zone} (hij : i ≠ j) (hx : m.at? i = some x)
    (hy : m.at? j = some y) (hotx : boiling ≤ x.heat) (hoty : boiling ≤ y.heat) :
    o.Le x.span.hi y.span.lo ∨ o.Le y.span.hi x.span.lo := by
  have hs := h.settled
  have hot : ∀ z : Zone, boiling ≤ z.heat → m.params.Hot z := fun z hz =>
    Int.le_trans (Int.le_of_eq hs.boiling_eq) hz
  have hapart := hs.apart i j x y hij hx hy (hot x hotx) (hot y hoty)
  rw [← hs.order_eq]
  exact hapart

/-- Two hot zones that overlap are split; the slots that were theirs and the new one hold zones
that touch. -/
theorem Descends.hot_zones_apart_split :
    let p : Params := ⟨.bytewise, 2, 10, 3, .lowest, by decide, by decide, by decide, by decide⟩
    let m := ((HeatMap.empty p).serve (.access [1] [5] 20)).serve (.access [3] [9] 30)
    ∃ x y, m.at? 0 = some x ∧ m.at? 2 = some y ∧ 10 ≤ x.heat ∧ 10 ≤ y.heat ∧
      (KeyOrder.bytewise.Le x.span.hi y.span.lo ∨ KeyOrder.bytewise.Le y.span.hi x.span.lo) := by
  intro p m
  have h : Descends .bytewise 10 m := ((Descends.empty p rfl rfl).serve _).serve _
  have hx : m.at? 0 = some ⟨⟨[1], [3]⟩, 20, false⟩ := by decide
  have hy : m.at? 2 = some ⟨⟨[3], [5]⟩, 50, false⟩ := by decide
  exact ⟨_, _, hx, hy, by decide, by decide,
    h.hot_zones_apart (by decide) hx hy (by decide) (by decide)⟩

end HeatMap

end TierIndex
