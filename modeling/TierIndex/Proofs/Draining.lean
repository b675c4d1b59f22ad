import TierIndex.Proofs.Reachable

set_option autoImplicit false

/-! # Cooling drains a heat map

One cooling goes over the slots once. In each slot in use it lowers the heat, reports the span if
the zone freezes by that, and frees the slot if no heat is left; the count is set right at the end
(`sweep`). The zones, the report and the count can be told apart (`sweep_eq`), which is how the
cooling of a map is defined.

Cooled again and again, each time by a factor of its own, a map loses all its zones: the greatest
heat falls with every pass, so there are no more passes than heats (`heat_le_of_passes`). On the
way nothing is reported twice or forgotten. What has been reported and what is still to be
reported, taken together, are at any time what was to be reported at the beginning
(`reports_conserved`).
-/

namespace TierIndex

namespace HeatMap

/-! ## One pass, slot by slot -/

/-- Let the heat of one slot after the other decay. The spans reported so far are `frozen`, the
slots freed so far are `spent` in number. -/
def sweep (p : Params) (decay : Int → Int) (frozen : List Span) (spent : Nat) :
    List (Option Zone) → List (Option Zone) × List Span × Nat
  | [] => ([], frozen, spent)
  | none :: slots =>
      let r := sweep p decay frozen spent slots
      (none :: r.1, r.2)
  | some z :: slots =>
      let cooled : Zone := { z with heat := decay z.heat }
      -- the span is taken down before the slot is freed
      let frozen := if freezes p decay z then frozen ++ [cooled.span] else frozen
      if cooled.heat = 0 then
        let r := sweep p decay frozen (spent + 1) slots
        (none :: r.1, r.2)
      else
        let r := sweep p decay frozen spent slots
        (some cooled :: r.1, r.2)

/-- The map after a pass, and the report of the pass. -/
def sweepBy (m : HeatMap) (decay : Int → Int) : HeatMap × List Span :=
  let r := sweep m.params decay [] 0 m.slots
  ({ m with slots := r.1, live := m.live - r.2.2 }, r.2.1)

/-- **What a pass does**, beginning anywhere. -/
theorem sweep_eq (p : Params) (decay : Int → Int) (frozen : List Span) (spent : Nat)
    (slots : List (Option Zone)) :
    sweep p decay frozen spent slots =
      (slots.map (·.bind (coolSlot decay)),
        frozen ++ ((slots.filterMap id).filter (freezes p decay)).map Zone.span,
        spent + (slots.filterMap id).countP fun z => decay z.heat = 0) := by
  induction slots generalizing frozen spent with
  | nil => simp [sweep]
  | cons slot slots ih =>
      cases slot with
      | none => simp [sweep, ih]
      | some z =>
          have hreport : ∀ l : List Span,
              (if freezes p decay z then frozen ++ [z.span] else frozen) ++ l =
                frozen ++ ((if freezes p decay z then [z.span] else []) ++ l) := by
            intro l
            split <;> simp
          have hfilter : (((z :: slots.filterMap id).filter (freezes p decay)).map Zone.span) =
              (if freezes p decay z then [z.span] else []) ++
                ((slots.filterMap id).filter (freezes p decay)).map Zone.span := by
            rw [List.filter_cons]
            split <;> rfl
          rw [sweep, List.filterMap_cons_some (f := id) (a := some z) (b := z) rfl, hfilter]
          by_cases hspent : decay z.heat = 0
          · simp [ih, hreport, hspent, coolSlot]
            omega
          · simp [ih, hreport, hspent, coolSlot]

theorem sweepBy_eq (m : HeatMap) (decay : Int → Int) : m.sweepBy decay = m.decayBy decay := by
  simp [sweepBy, sweep_eq, decayBy, zones]

/-! ## What is reported, by slot -/

section

variable {m : HeatMap} {decay : Int → Int}

/-- The zones that freeze in a pass, by slot and span. -/
def frozenBySlot (m : HeatMap) (decay : Int → Int) : List (Nat × Span) :=
  (m.entries.filter fun e => freezes m.params decay e.2).map fun e => (e.1, e.2.span)

/-- The zone lies in the fast tier and above the freezing point, so it has still to be reported
when it falls. -/
def unreported (p : Params) (z : Zone) : Bool := z.fast && p.freezing < z.heat

/-- The zones that have still to be reported, by slot and span. -/
def unreportedBySlot (m : HeatMap) : List (Nat × Span) :=
  (m.entries.filter fun e => unreported m.params e.2).map fun e => (e.1, e.2.span)

theorem decayBy_report (m : HeatMap) (decay : Int → Int) :
    (m.decayBy decay).2 = (m.frozenBySlot decay).map Prod.snd := by
  show (m.zones.filter (freezes m.params decay)).map Zone.span = _
  rw [← entries_map_snd, List.filter_map, frozenBySlot, List.map_map, List.map_map]
  rfl

/-- What the decay leaves of a list of entries. -/
def coolEntries (decay : Int → Int) (l : List (Nat × Zone)) : List (Nat × Zone) :=
  l.filterMap fun e => (coolSlot decay e.2).map (e.1, ·)

theorem entriesFrom_decay (n : Nat) (slots : List (Option Zone)) :
    entriesFrom n (slots.map (·.bind (coolSlot decay))) =
      coolEntries decay (entriesFrom n slots) := by
  induction slots generalizing n with
  | nil => rfl
  | cons slot slots ih =>
      cases slot with
      | none => exact ih (n + 1)
      | some z => cases hz : coolSlot decay z <;> simp [entriesFrom, coolEntries, hz, ih]

/-- A zone that has still to be reported is reported by a pass, or it has still to be reported
after it. Of the other zones none is reported, now or later. -/
theorem unreported_cases {p : Params} {o : KeyOrder} {z : Zone} (hd : Decays decay)
    (hz : z.Sound o) :
    let later := (coolSlot decay z).any (unreported p)
    (unreported p z = true ∧ freezes p decay z = true ∧ later = false) ∨
    (unreported p z = true ∧ freezes p decay z = false ∧ later = true) ∨
    (unreported p z = false ∧ freezes p decay z = false ∧ later = false) := by
  have hfreezing := p.freezing_nonneg
  obtain ⟨hge, hle⟩ := hd z.heat hz.heat_pos hz.heat_le
  cases hfast : z.fast with
  | false =>
      right
      right
      unfold coolSlot
      split <;> simp [unreported, freezes, hfast]
  | true =>
      unfold coolSlot
      split <;> simp [unreported, freezes, hfast] <;> omega

/-- **One pass reports what leaves the list** of the zones that have still to be reported. -/
theorem frozenBySlot_conserves (h : m.Intact) (hd : Decays decay) :
    (m.frozenBySlot decay ++ (m.decayBy decay).1.unreportedBySlot).Perm m.unreportedBySlot := by
  have hentries : (m.decayBy decay).1.entries = coolEntries decay m.entries :=
    entriesFrom_decay 0 m.slots
  have hsound : ∀ e ∈ m.entries, e.2.Sound m.order := fun e he =>
    h.sound e.1 e.2 (mem_entries.mp he)
  have hparams : (m.decayBy decay).1.params = m.params := rfl
  unfold frozenBySlot unreportedBySlot
  rw [hentries, hparams]
  generalize m.entries = l at hsound
  induction l with
  | nil => exact List.Perm.refl []
  | cons e l ih =>
      have hrest := ih fun e' he' => hsound e' (List.mem_cons_of_mem e he')
      have hcases := unreported_cases (p := m.params) hd (hsound e List.mem_cons_self)
      -- what becomes of the first entry: it is gone, or left with less heat
      cases hcool : coolSlot decay e.2 with
      | none =>
          have hnow : coolEntries decay (e :: l) = coolEntries decay l := by
            simp [coolEntries, hcool]
          rw [hnow]
          rcases hcases with ⟨hu, hf, -⟩ | ⟨-, -, hl⟩ | ⟨hu, hf, -⟩
          · simpa [hu, hf] using hrest
          · simp [hcool] at hl
          · simpa [hu, hf] using hrest
      | some y =>
          have hspan : y.span = e.2.span := by
            obtain ⟨-, rfl⟩ := coolSlot_eq_some.mp hcool
            rfl
          have hnow : coolEntries decay (e :: l) = (e.1, y) :: coolEntries decay l := by
            simp [coolEntries, hcool]
          rw [hnow]
          rcases hcases with ⟨hu, hf, hl⟩ | ⟨hu, hf, hl⟩ | ⟨hu, hf, hl⟩
          all_goals rw [hcool, Option.any_some] at hl
          · simpa [hu, hf, hl] using hrest
          · have hmiddle := List.perm_middle.trans (hrest.cons (e.1, e.2.span))
            simpa [hu, hf, hl, hspan] using hmiddle
          · simpa [hu, hf, hl] using hrest

/-- No slot is listed twice. -/
theorem unreportedBySlot_nodup (m : HeatMap) : (m.unreportedBySlot.map Prod.fst).Nodup := by
  have hrising : (m.entries.filter fun e => unreported m.params e.2).Pairwise
      fun a b => a.1 < b.1 := m.entries_pairwise.filter _
  rw [unreportedBySlot, List.map_map, List.Nodup, List.pairwise_map]
  exact hrising.imp fun hlt => Nat.ne_of_lt hlt

end

/-! ## Pass after pass -/

/-- The map after several passes, each with its own decay, and the report of each pass. -/
def passes (m : HeatMap) : List (Int → Int) → HeatMap × List (List Span)
  | [] => (m, [])
  | decay :: decays =>
      let (m', frozen) := m.decayBy decay
      let (m'', later) := m'.passes decays
      (m'', frozen :: later)

/-- What each pass reports, by slot and span. -/
def passesBySlot (m : HeatMap) : List (Int → Int) → List (List (Nat × Span))
  | [] => []
  | decay :: decays => m.frozenBySlot decay :: (m.decayBy decay).1.passesBySlot decays

/-- The map cooled by several factors, one after the other, and the report of each cooling. -/
def coolAll (m : HeatMap) : List Double → Except Fault (HeatMap × List (List Span))
  | [] => .ok (m, [])
  | factor :: factors =>
      match m.cool factor with
      | .error e => .error e
      | .ok (m', frozen) => (m'.coolAll factors).map fun r => (r.1, frozen :: r.2)

section

variable {m : HeatMap} {decays : List (Int → Int)}

/-- Cooling by factors is one way for heats to decay. -/
theorem coolAll_eq {factors : List Double} (h : ∀ factor ∈ factors, factor.InUnit) :
    m.coolAll factors = .ok (m.passes (factors.map cooledHeat)) := by
  induction factors generalizing m with
  | nil => rfl
  | cons factor factors ih =>
      have hrest := ih (m := (m.decayBy (cooledHeat factor)).1)
        fun f hf => h f (List.mem_cons_of_mem factor hf)
      rw [coolAll, cool, if_pos (h factor List.mem_cons_self)]
      dsimp only
      rw [hrest]
      rfl

theorem passes_reports (m : HeatMap) (decays : List (Int → Int)) :
    (m.passes decays).2 = (m.passesBySlot decays).map (·.map Prod.snd) := by
  induction decays generalizing m with
  | nil => rfl
  | cons decay decays ih =>
      show (m.decayBy decay).2 :: ((m.decayBy decay).1.passes decays).2 = _
      rw [decayBy_report, ih]
      rfl

theorem Intact.passes (h : m.Intact) (hd : ∀ decay ∈ decays, Decays decay) :
    (m.passes decays).1.Intact := by
  induction decays generalizing m with
  | nil => exact h
  | cons decay decays ih =>
      exact ih (h.decayBy (hd decay List.mem_cons_self))
        fun d hd' => hd d (List.mem_cons_of_mem decay hd')

/-- **Nothing is reported twice or forgotten.** -/
theorem reports_conserved (h : m.Intact) (hd : ∀ decay ∈ decays, Decays decay) :
    ((m.passesBySlot decays).flatten ++ (m.passes decays).1.unreportedBySlot).Perm
      m.unreportedBySlot := by
  induction decays generalizing m with
  | nil => exact List.Perm.refl _
  | cons decay decays ih =>
      have hfirst := hd decay List.mem_cons_self
      have hrest := ih (h.decayBy hfirst) fun d hd' => hd d (List.mem_cons_of_mem decay hd')
      have hstep := (hrest.append_left (m.frozenBySlot decay)).trans
        (frozenBySlot_conserves h hfirst)
      rw [← List.append_assoc] at hstep
      exact hstep

/-- **The greatest heat falls with every pass.** -/
theorem heat_le_of_passes {limit : Int} (h : m.Intact) (hd : ∀ decay ∈ decays, Fades decay)
    (hm : ∀ z ∈ m.zones, z.heat ≤ limit) :
    ∀ z ∈ (m.passes decays).1.zones, z.heat ≤ limit - decays.length := by
  induction decays generalizing m limit with
  | nil => simpa [passes] using hm
  | cons decay decays ih =>
      have hfirst := hd decay List.mem_cons_self
      have hlower : ∀ z ∈ (m.decayBy decay).1.zones, z.heat ≤ limit - 1 := by
        intro z hz
        rw [zones_of_slots (m := m) rfl] at hz
        obtain ⟨y, hy, hcool⟩ := List.mem_filterMap.mp hz
        obtain ⟨-, rfl⟩ := coolSlot_eq_some.mp hcool
        have hs := h.sound_of_mem hy
        have hfall := (hfirst y.heat hs.heat_pos hs.heat_le).2
        have hle := hm y hy
        show decay y.heat ≤ limit - 1
        omega
      have hrest := ih (h.decayBy hfirst.decays)
        (fun d hd' => hd d (List.mem_cons_of_mem decay hd')) hlower
      intro z hz
      have := hrest z hz
      rw [List.length_cons]
      omega

/-- After as many passes as there are heats no zone is left. -/
theorem zones_passes_eq_nil (h : m.Intact) (hd : ∀ decay ∈ decays, Fades decay)
    (hlong : maxHeat ≤ decays.length) : (m.passes decays).1.zones = [] := by
  have hintact := h.passes fun decay hmem => (hd decay hmem).decays
  have hle := heat_le_of_passes h hd fun z hz => (h.sound_of_mem hz).heat_le
  apply List.eq_nil_iff_forall_not_mem.mpr
  intro z hz
  have hpos := (hintact.sound_of_mem hz).heat_pos
  have := hle z hz
  omega

theorem unreportedBySlot_eq_nil (h : m.zones = []) : m.unreportedBySlot = [] := by
  rw [← entries_map_snd, List.map_eq_nil_iff] at h
  rw [unreportedBySlot, h]
  rfl

end

/-! ## Every run -/

/-- What one pass makes of a map, and what it reports. -/
structure CooledBy (m : HeatMap) (decay : Int → Int) (r : HeatMap × List Span) : Prop where
  /-- A zone stays in its slot with its span and its tier and has the heat that is left of its own,
  or its slot is freed if none is left. -/
  at_eq : ∀ i, r.1.at? i = (m.at? i).bind fun z =>
    if decay z.heat = 0 then none else some { z with heat := decay z.heat }
  params_eq : r.1.params = m.params
  capacity_eq : r.1.capacity = m.capacity
  /-- The count falls by the number of the slots that are freed. -/
  live_add : r.1.live + m.zones.countP (fun z => decay z.heat = 0) = m.live
  /-- In slot order, the spans of the zones of the fast tier that fall from above the freezing
  point to it or below, freed ones included. -/
  report_eq : r.2 = (m.zones.filter fun z =>
    z.fast && m.params.freezing < z.heat && decay z.heat ≤ m.params.freezing).map Zone.span

/-- What a run of passes makes of a map, and what it reports. -/
structure DrainedBy (m : HeatMap) (decays : List (Int → Int)) (r : HeatMap × List (List Span)) :
    Prop where
  reports_eq : r.2 = (m.passesBySlot decays).map (·.map Prod.snd)
  /-- No slot is reported twice. -/
  reported_once : ((m.passesBySlot decays).flatten.map Prod.fst).Nodup
  /-- What has been reported and what is left to report is what was to be reported. -/
  conserved : ((m.passesBySlot decays).flatten ++ r.1.unreportedBySlot).Perm m.unreportedBySlot
  /-- A run of as many passes as there are heats leaves no zone, and has reported everything. -/
  drained : maxHeat ≤ decays.length → r.1.zones = [] ∧ r.1.live = 0 ∧
    (m.passesBySlot decays).flatten.Perm m.unreportedBySlot

theorem cooledBy_decayBy {m : HeatMap} (h : m.Intact) (decay : Int → Int) :
    m.CooledBy decay (m.decayBy decay) where
  at_eq := at?_of_slots rfl
  params_eq := rfl
  capacity_eq := List.length_map ..
  live_add := by
    have hspent : m.zones.countP (fun z => decay z.heat = 0) ≤ m.live := by
      rw [h.live_eq]
      exact List.countP_le_length
    exact Nat.sub_add_cancel hspent
  report_eq := rfl

theorem drainedBy_passes {m : HeatMap} {decays : List (Int → Int)} (h : m.Intact)
    (hd : ∀ decay ∈ decays, Fades decay) : m.DrainedBy decays (m.passes decays) := by
  have hdecays : ∀ decay ∈ decays, Decays decay := fun decay hmem => (hd decay hmem).decays
  have hconserved := reports_conserved h hdecays
  refine ⟨passes_reports m decays, ?_, hconserved, fun hlong => ?_⟩
  · have hnodup := (hconserved.map Prod.fst).nodup_iff.mpr m.unreportedBySlot_nodup
    rw [List.map_append] at hnodup
    exact (List.nodup_append.mp hnodup).1
  · have hzones := zones_passes_eq_nil h hd hlong
    rw [unreportedBySlot_eq_nil hzones, List.append_nil] at hconserved
    refine ⟨hzones, ?_, hconserved⟩
    rw [(h.passes hdecays).live_eq, hzones, List.length_nil]

/-- **Cooling lets every zone decay for itself, reports what freezes, and drains the map.** Whatever
a reachable map is cooled by, if it lowers every heat, each zone keeps its place and takes on what
is left of its heat, and the report of the pass is complete. Over a run of passes every zone of the
fast tier above the freezing point is reported once, when it falls to it, and after as many passes
as there are heats the map is empty. Cooling by factors between zero and one is of this kind. -/
theorem Reachable.cooling_drains {m : HeatMap} (h : m.Reachable) :
    (∀ decay, Fades decay →
      m.CooledBy decay (m.decayBy decay) ∧ m.sweepBy decay = m.decayBy decay) ∧
    (∀ decays : List (Int → Int), (∀ decay ∈ decays, Fades decay) →
      m.DrainedBy decays (m.passes decays)) ∧
    (∀ factor : Double, factor.InUnit →
      Fades (cooledHeat factor) ∧ m.cool factor = .ok (m.decayBy (cooledHeat factor))) ∧
    (∀ factors : List Double, (∀ factor ∈ factors, factor.InUnit) →
      m.coolAll factors = .ok (m.passes (factors.map cooledHeat))) := by
  refine ⟨fun decay _ => ⟨cooledBy_decayBy h.intact decay, sweepBy_eq m decay⟩,
    fun decays hd => drainedBy_passes h.intact hd, fun factor hunit => ?_,
    fun factors hunit => coolAll_eq hunit⟩
  exact ⟨cooledHeat_fades hunit, by rw [cool, if_pos hunit]⟩

/-- A heat of `200` cooled by one tenth goes to `20`, to `2` and to nothing. The second pass reports
it, and no other one does. -/
theorem Reachable.cooling_drains_tenth :
    let p : Params := ⟨.bytewise, 2, 10, 3, .lowest, by decide, by decide, by decide, by decide⟩
    let m := ((HeatMap.empty p).serve (.access [1] [5] 200)).serve (.setTier [1] [5] true)
    let c := cooledHeat .tenth
    m.coolAll [.tenth, .tenth, .tenth] = .ok (m.passes [c, c, c]) ∧
      (m.passes [c, c, c]).2 = [[], [⟨[1], [5]⟩], []] ∧
      ((m.passesBySlot [c, c, c]).flatten ++ (m.passes [c, c, c]).1.unreportedBySlot).Perm
        [(0, ⟨[1], [5]⟩)] ∧
      (m.passes (List.replicate 250 c)).1.zones = [] := by
  intro p m c
  have hreach : m.Reachable := ((Reachable.empty p).serve _).serve _
  have hunit : Double.tenth.InUnit := by decide +kernel
  obtain ⟨-, hrun, hfactor, hfactors⟩ := hreach.cooling_drains
  obtain ⟨hfades, -⟩ := hfactor .tenth hunit
  have hthree := hrun [c, c, c] (by simpa using hfades)
  have hlong := hrun (List.replicate 250 c) fun decay hmem => List.eq_of_mem_replicate hmem ▸ hfades
  have hstart : m.unreportedBySlot = [(0, ⟨[1], [5]⟩)] := by decide
  refine ⟨hfactors _ (by simpa using hunit), by decide +kernel, hstart ▸ hthree.conserved,
    (hlong.drained ?_).1⟩
  rw [List.length_replicate]
  decide

end HeatMap

end TierIndex
