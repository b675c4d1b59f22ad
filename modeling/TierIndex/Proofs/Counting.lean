import Mathlib.Data.List.Defs
import TierIndex.Proofs.Counters
import TierIndex.Proofs.Sparse

set_option autoImplicit false

/-! # Separate spans are counted one by one

As long as any two spans that are accessed are the same or have no key in common, a heat map is a
row of counters (`Refines`): every call keeps it one and is replied to as the counters reply to it
(`Refines.handle`), and so does every run (`counts_separate_spans`). What carries a run is that the
zones never meet (`Refines.sparse`): an access then finds the zone of its span or makes one, however
far the map has passed its target, and there is nothing to settle or to merge.
-/

namespace TierIndex

/-! ## Refusals and results -/

/-- Both are refused for the same cause, or both give results that belong together. -/
inductive Matched {α β : Type} (R : α → β → Prop) : Except Fault α → Except Fault β → Prop where
  | refused (e : Fault) : Matched R (.error e) (.error e)
  | given {a : α} {b : β} (h : R a b) : Matched R (.ok a) (.ok b)

theorem Matched.map_left {α α' β : Type} {R : α → β → Prop} {R' : α' → β → Prop} {f : α → α'}
    {r : Except Fault α} {x : Except Fault β} (h : Matched R r x)
    (hf : ∀ a b, x = .ok b → R a b → R' (f a) b) : Matched R' (r.map f) x := by
  cases h with
  | refused e => exact .refused e
  | given h => exact .given (hf _ _ rfl h)

/-! ## Heat maps as counters -/

namespace HeatMap

/-- The zones of the map are the counters. -/
structure Refines {p : Params} (m : HeatMap) (c : Counters p) : Prop where
  params_eq : m.params = p
  intact : m.Intact
  zones_perm : m.zones.Perm c.zones

/-- What an access to a span leaves of the map are the counters that it leaves, and the report is
theirs and about this span. -/
structure AccessAgrees {p : Params} (s : Span) (m : HeatMap) (crossed : Bool) (span : Span)
    (x : Counters p × Bool) : Prop where
  refines : m.Refines x.1
  crossed_eq : crossed = x.2
  span_eq : span = s

namespace Refines

variable {p : Params} {m m' : HeatMap} {c : Counters p}

theorem mem_zones (h : m.Refines c) {z : Zone} : z ∈ m.zones ↔ z.entry ∈ c.entries :=
  h.zones_perm.mem_iff.trans Counters.mem_zones

theorem live_eq (h : m.Refines c) : m.live = c.entries.length := by
  rw [h.intact.live_eq, h.zones_perm.length_eq, Counters.zones, List.length_map]

theorem zones_distinct (h : m.Refines c) :
    m.zones.Pairwise fun y z => ¬ y.span.Same p.order z.span :=
  (List.pairwise_map.mpr c.distinct).perm h.zones_perm.symm (mt Span.same_comm.mp)

/-- **The zones do not meet** as long as the spans of the counters are separate. -/
theorem sparse (h : m.Refines c) (hsep : Separate p.order c.spans) :
    m.Sparse := by
  have hspan : ∀ z ∈ m.zones, z.span ∈ c.spans := fun z hz =>
    List.mem_map_of_mem (h.mem_zones.mp hz)
  show m.zones.Pairwise fun y z => ¬ y.span.Meets m.params.order z.span
  rw [h.params_eq]
  exact h.zones_distinct.imp_of_mem fun hy hz hne =>
    (hsep _ (hspan _ hy) _ (hspan _ hz)).resolve_left hne

/-- A change of all zones alike is a change of all counters alike. -/
theorem alter (h : m.Refines c) {f : Span → Counter → Option Counter}
    (hparams : m'.params = m.params) (hintact : m'.Intact)
    (hzones : m'.zones = m.zones.filterMap (Counter.onZone f)) : m'.Refines (c.alter f) where
  params_eq := hparams.trans h.params_eq
  intact := hintact
  zones_perm := by
    rw [hzones, Counters.zones_alter]
    exact h.zones_perm.filterMap _

/-- A change of the zone of one span is a change of its counter. -/
theorem set (h : m.Refines c) {s : Span} {i : Nat} {z : Zone} {x : Option Counter}
    (hz : m.at? i = some z) (hs : z.span.Same p.order s) (hparams : m'.params = m.params)
    (hintact : m'.Intact)
    (hslots : m'.slots = m.slots.set i (x.map fun x => Counter.zone (z.span, x))) :
    m'.Refines (c.set s x) := by
  refine h.alter hparams hintact (zones_of_slots ?_)
  rw [hslots, ← slots_set hz]
  · simp only [Counter.onZone, if_pos hs]
  · intro j y hj hy
    have hne : ¬ y.span.Same p.order z.span :=
      (pairwise_zones_iff fun _ _ => mt Span.same_comm.mp).mp h.zones_distinct j i y z hj hy hz
    have hys : ¬ y.span.Same p.order s := fun hys =>
      hne ⟨hys.1.trans hs.1.symm, hys.2.trans hs.2.symm⟩
    simp only [Counter.onZone, if_neg hys]
    rfl

/-- One more zone is one more counter. -/
theorem add (h : m.Refines c) {s : Span} {x : Counter} (hnone : c.counter? s = none)
    (hparams : m'.params = m.params) (hintact : m'.Intact)
    (hzones : m'.zones.Perm (Counter.zone (s, x) :: m.zones)) : m'.Refines (c.add s x hnone) where
  params_eq := hparams.trans h.params_eq
  intact := hintact
  zones_perm := hzones.trans (h.zones_perm.cons _)

/-! ## Accesses -/

/-- Heat for a zone of exactly the span is heat for its counter. -/
theorem receiveShift (h : m.Refines c) {s : Span} {i : Nat} {z : Zone} (hz : m.at? i = some z)
    (hs : z.span.Same p.order s) (d : Int) :
    Matched (fun r x => AccessAgrees s r.map r.crossed r.span x) (m.receiveShift i z d false s)
      (c.store s d) := by
  obtain rfl := h.params_eq
  have hsound := h.intact.sound i z hz
  have hentry : c.counter? s = some (z.span, ⟨z.heat, z.fast⟩) :=
    Counters.counter?_eq_some.mpr ⟨h.mem_zones.mp (HeatMap.mem_zones.mpr ⟨i, hz⟩), hs⟩
  rw [Counters.store_of_some hentry]
  unfold HeatMap.receiveShift
  dsimp only
  by_cases hd : d = 0
  · rw [if_pos hd, if_pos hd]
    exact .refused _
  · rw [if_neg hd, if_neg hd]
    by_cases hover : maxHeat < z.heat + d
    · -- the heat is dropped, and the zone is written back as it was
      have hafter : Zone.shiftHeat z.heat d = z.heat := if_pos hover
      have hne : z.heat ≠ 0 := by
        have := hsound.heat_pos
        omega
      rw [hafter, if_neg hne, if_pos hover, put_self hz]
      exact .given ⟨h, Params.crosses_self, rfl⟩
    · have hafter : Zone.shiftHeat z.heat d = max 0 (z.heat + d) := if_neg hover
      rw [if_neg hover]
      by_cases hspent : z.heat + d ≤ 0
      · have hzero : max 0 (z.heat + d) = 0 := by omega
        rw [hafter, hzero, if_pos rfl, if_pos hspent]
        exact .given ⟨h.set hz hs rfl (h.intact.free hz) rfl,
          Params.crosses_zero (Int.le_trans (by decide) hsound.heat_pos) hspent, rfl⟩
      · have hleft : max 0 (z.heat + d) = z.heat + d := by omega
        have hne : z.heat + d ≠ 0 := by omega
        rw [hafter, hleft, if_neg hne, if_neg hspent]
        have hkept : (m.put i { z with heat := z.heat + d }).Intact := by
          rw [← hleft, ← hafter]
          exact h.intact.put hz (shifted_sound hsound (by omega))
        exact .given ⟨h.set hz hs rfl hkept rfl, rfl, rfl⟩

/-- Heat for a new zone is heat for a new counter. -/
theorem receiveFresh (h : m.Refines c) {s : Span} (hproper : s.Proper m.order)
    (hnone : m.Unmatched s) (d : Int) :
    Matched (fun r x => AccessAgrees s r.map r.crossed r.span x) (m.receiveFresh s d)
      (c.store s d) := by
  obtain rfl := h.params_eq
  have hentry : c.counter? s = none := by
    refine Counters.counter?_eq_none.mpr fun e he hsame => ?_
    obtain ⟨i, hi⟩ := HeatMap.mem_zones.mp ((h.mem_zones (z := Counter.zone e)).mpr he)
    exact hnone i _ hi hsame
  rw [Counters.store_of_none hentry]
  unfold HeatMap.receiveFresh
  by_cases hd : d ≤ 0
  · rw [if_pos hd, if_pos hd]
    exact .refused _
  · have hslot := slotFor_vacant m (min d maxHeat)
    have hsound := fresh_sound hproper (Int.not_le.mp hd)
    rw [if_neg hd, if_neg hd]
    exact .given ⟨h.add hentry (place_params m _ _) (h.intact.place hslot hsound)
      (zones_place_perm hslot _), rfl, rfl⟩

/-- **Receiving an access** whose span is separate from the spans of all counters. -/
theorem receive (h : m.Refines c) {s : Span} (hproper : s.Proper m.order)
    (hs : ∀ e ∈ c.entries, e.1.Same p.order s ∨ ¬ e.1.Meets p.order s) (d : Int) :
    Matched (fun r x => AccessAgrees s r.map r.crossed r.span x) (m.receive s d) (c.store s d) := by
  obtain rfl := h.params_eq
  have hzone : ∀ i z, m.at? i = some z → z.span.Same m.order s ∨ ¬ z.span.Meets m.order s :=
    fun i z hz => hs _ (h.mem_zones.mp (HeatMap.mem_zones.mpr ⟨i, hz⟩))
  unfold HeatMap.receive
  rcases landing_of_separate hproper hzone d with ⟨i, z, hl, hz, hsame⟩ | ⟨hl, hnone⟩
  · rw [hl]
    exact h.receiveShift hz hsame d
  · rw [hl]
    exact h.receiveFresh hproper hnone d

/-- **Recording an access.** Nothing is settled, since the zones do not meet afterwards. -/
theorem access (h : m.Refines c) {spans : List Span} (hsep : Separate p.order spans)
    (hc : ∀ t ∈ c.spans, t ∈ spans) {a b : Key} (hs : Span.between p.order a b ∈ spans) (d : Int) :
    Matched (fun out x => AccessAgrees (Span.between p.order a b) out.map out.crossed out.span x)
      (m.access a b d) (c.store (Span.between p.order a b) d) := by
  obtain rfl := h.params_eq
  have hrec := h.receive (Span.between_proper m.order a b)
    (fun e he => hsep e.1 (hc e.1 (List.mem_map_of_mem he)) _ hs) d
  unfold HeatMap.access
  refine hrec.map_left fun r x hx ⟨hrefines, hcrossed, hspan⟩ => ⟨?_, hcrossed, hspan⟩
  have hspans : ∀ t ∈ x.1.spans, t ∈ spans := by
    intro t ht
    rcases Counters.spans_store hx t ht with rfl | hold
    · exact hs
    · exact hc t hold
  have hsparse := hrefines.sparse fun s hs t ht => hsep s (hspans s hs) t (hspans t ht)
  show r.settled.Refines x.1
  rw [settled_of_sparse hsparse]
  exact hrefines

/-! ## Upkeep and questions -/

theorem setTier (h : m.Refines c) (a b : Key) (fast : Bool) :
    (m.setTier a b fast).1.Refines (c.mark (Span.between p.order a b) fast).1 ∧
      (m.setTier a b fast).2 = (c.mark (Span.between p.order a b) fast).2 := by
  obtain rfl := h.params_eq
  have hparams : (m.setTier a b fast).1.params = m.params := rfl
  unfold Counters.mark
  dsimp only
  refine ⟨h.alter hparams (h.intact.setTier a b fast) ?_, ?_⟩
  · rw [zones_of_slots (setTier_slots m a b fast)]
    congr 1
    funext z
    by_cases hcov : (Span.between m.order a b).Covers m.order z.span
    · simp only [Function.comp_apply, markTier, Counter.onZone, if_pos hcov]
      rfl
    · simp only [Function.comp_apply, markTier, Counter.onZone, if_neg hcov]
      rfl
  · show m.zones.countP _ = c.entries.countP _
    rw [h.zones_perm.countP_eq, Counters.zones, List.countP_map]
    rfl

/-- The spans of the zones with a property are those of the counters with it. -/
theorem listed (h : m.Refines c) (f : Zone → Bool) :
    ((m.zones.filter f).map Zone.span).Perm
      ((c.entries.filter fun e => f (Counter.zone e)).map Prod.fst) := by
  have hsame : (c.zones.filter f).map Zone.span =
      (c.entries.filter fun e => f (Counter.zone e)).map Prod.fst := by
    rw [Counters.zones, List.filter_map, List.map_map]
    rfl
  rw [← hsame]
  exact (h.zones_perm.filter f).map Zone.span

theorem decay (h : m.Refines c) {left : Int → Int} (hd : Decays left) :
    (m.decayBy left).1.Refines (c.decay left).1 ∧
      (m.decayBy left).2.Perm (c.decay left).2 := by
  obtain rfl := h.params_eq
  have hparams : (m.decayBy left).1.params = m.params := rfl
  unfold Counters.decay
  dsimp only
  refine ⟨h.alter hparams (h.intact.decayBy hd) ?_, h.listed _⟩
  rw [zones_of_slots rfl]
  congr 1
  funext z
  unfold coolSlot Counter.onZone
  show (if left z.heat = 0 then none else some _) =
    (if left z.heat = 0 then none else some _).map _
  split <;> rfl

theorem cool (h : m.Refines c) (factor : Double) :
    Matched (fun r x => r.1.Refines x.1 ∧ r.2.Perm x.2) (m.cool factor) (c.cool factor) := by
  unfold HeatMap.cool Counters.cool
  by_cases hunit : factor.InUnit
  · rw [if_pos hunit, if_pos hunit]
    exact .given (h.decay (cooledHeat_decays hunit))
  · rw [if_neg hunit, if_neg hunit]
    exact .refused _

theorem find? (h : m.Refines c) (hsparse : m.Sparse) (k : Key) :
    m.find? k = (c.find? k).map Counter.zone := by
  obtain rfl := h.params_eq
  cases hfind : c.find? k with
  | none =>
      refine find?_eq_none.mpr fun z hz hk => ?_
      have hnone := List.find?_eq_none.mp hfind _ (h.mem_zones.mp hz)
      exact hnone (decide_eq_true hk)
  | some e =>
      unfold Counters.find? at hfind
      have hk := List.find?_some hfind
      have hmem : Counter.zone e ∈ m.zones := h.mem_zones.mpr (List.mem_of_find?_eq_some hfind)
      exact hsparse.find?_eq_some_iff.mpr ⟨hmem, of_decide_eq_true hk⟩

theorem findUniform? (h : m.Refines c) (hsparse : m.Sparse) (k : Key) :
    m.findUniform? k = (c.find? k).map fun e => (Counter.zone e, true) := by
  rw [hsparse.findUniform? k, h.find? hsparse k, Option.map_map]
  rfl

/-! ## Every call -/

/-- **One call.** -/
theorem handle (h : m.Refines c) {spans : List Span} (hsep : Separate p.order spans)
    (hc : ∀ t ∈ c.spans, t ∈ spans) (q : MapCall)
    (hq : ∀ s, q.span? p.order = some s → s ∈ spans) :
    (m.after q).Refines (c.handle q).1 ∧ (m.reply q).Agrees (c.handle q).2 := by
  have hsparse : m.Sparse := h.sparse fun s hs t ht => hsep s (hc s hs) t (hc t ht)
  cases q with
  | find k => exact ⟨h, congrArg MapReply.found (h.find? hsparse k)⟩
  | findUniform k => exact ⟨h, congrArg MapReply.uniform (h.findUniform? hsparse k)⟩
  | misplaced =>
      obtain rfl := h.params_eq
      exact ⟨h, h.listed _, h.listed _⟩
  | live => exact ⟨h, congrArg MapReply.count h.live_eq⟩
  | change q =>
      cases q with
      | access a b d =>
          have hacc := h.access hsep hc (hq _ rfl) d
          unfold HeatMap.after HeatMap.reply HeatMap.serve Counters.handle
          dsimp only
          generalize m.access a b d = r at hacc ⊢
          generalize c.store (Span.between p.order a b) d = x at hacc ⊢
          cases hacc with
          | refused e => exact ⟨h, rfl⟩
          | @given out x hagrees =>
              refine ⟨hagrees.refines, congrArg (MapReply.accessed ∘ Except.ok) ?_⟩
              exact Prod.ext hagrees.crossed_eq hagrees.span_eq
      | setTier a b fast =>
          obtain ⟨hrefines, hcount⟩ := h.setTier a b fast
          exact ⟨hrefines, congrArg MapReply.count hcount⟩
      | cool factor =>
          have hcool := h.cool factor
          unfold HeatMap.after HeatMap.reply HeatMap.serve Counters.handle
          dsimp only
          generalize m.cool factor = r at hcool ⊢
          generalize c.cool factor = x at hcool ⊢
          cases hcool with
          | refused e => exact ⟨h, rfl⟩
          | given hout => exact hout
      | decay way => exact h.decay way.decays
      | mergeHot =>
          have hmerge := hsparse.mergeHot
          refine ⟨?_, congrArg (MapReply.count ∘ Prod.snd) hmerge⟩
          show m.mergeHot.1.Refines c
          rw [hmerge]
          exact h

/-- **Every run.** The map stays the counters, and replies as they do. -/
theorem run (h : m.Refines c) {spans : List Span} (hsep : Separate p.order spans)
    (hc : ∀ t ∈ c.spans, t ∈ spans) (cs : List MapCall)
    (hcs : ∀ t ∈ accessed p.order cs, t ∈ spans) :
    (m.run cs).1.Refines (c.run cs).1 ∧
      List.Forall₂ MapReply.Agrees (m.run cs).2 (c.run cs).2 := by
  induction cs generalizing m c with
  | nil => exact ⟨h, .nil⟩
  | cons q cs ih =>
      have hq : ∀ s, q.span? p.order = some s → s ∈ spans := fun s hs =>
        hcs s (List.mem_filterMap.mpr ⟨q, List.mem_cons_self, hs⟩)
      have hrest : ∀ t ∈ accessed p.order cs, t ∈ spans := by
        intro t ht
        obtain ⟨q', hq', hs⟩ := List.mem_filterMap.mp ht
        exact hcs t (List.mem_filterMap.mpr ⟨q', List.mem_cons_of_mem q hq', hs⟩)
      have hnext : ∀ t ∈ (c.handle q).1.spans, t ∈ spans := fun t ht =>
        (Counters.spans_handle q t ht).elim (hq t) (hc t)
      obtain ⟨hrefines, hagrees⟩ := h.handle hsep hc q hq
      obtain ⟨hall, hreplies⟩ := ih hrefines hnext hrest
      rw [HeatMap.run_cons, Counters.run_cons]
      exact ⟨hall, .cons hagrees hreplies⟩

end Refines

/-- An empty map is no counters. -/
theorem refines_empty (p : Params) : (HeatMap.empty p).Refines (Counters.empty p) where
  params_eq := rfl
  intact := Intact.empty p
  zones_perm := by
    rw [zones_empty]
    exact .nil

/-- **Accesses to separate spans are counted one by one.** In a run of an empty map in which any two
of the accessed spans are the same or have no key in common, every reply is that of the counters:
reports and counts, what is found and whether it is uniform, the lists up to their order, and the
number of zones, whenever it is asked for. The zones are the counters throughout. -/
theorem counts_separate_spans (p : Params) (cs : List MapCall)
    (h : Separate p.order (accessed p.order cs)) :
    ((empty p).run cs).1.zones.Perm ((Counters.empty p).run cs).1.zones ∧
      ((empty p).run cs).1.live = ((Counters.empty p).run cs).1.entries.length ∧
      List.Forall₂ MapReply.Agrees ((empty p).run cs).2 ((Counters.empty p).run cs).2 := by
  obtain ⟨hrefines, hreplies⟩ :=
    (refines_empty p).run h (fun _ ht => nomatch ht) cs fun _ ht => ht
  exact ⟨hrefines.zones_perm, hrefines.live_eq, hreplies⟩

/-- Three spans in a map for one zone. The second one is confirmed, and then an access takes away so
much of its heat that it freezes. -/
theorem counts_separate_spans_past_target :
    let p : Params := ⟨.bytewise, 1, 10, 3, .lowest, by decide, by decide, by decide, by decide⟩
    let cs : List MapCall := [.change (.access [1] [2] 20), .change (.access [6] [5] 30),
      .change (.access [8] [9] 4), .live, .change (.setTier [4] [7] true),
      .change (.access [5] [6] (-28)), .misplaced]
    Separate p.order (accessed p.order cs) ∧
      ((empty p).run cs).1.zones =
        [⟨⟨[1], [2]⟩, 20, false⟩, ⟨⟨[5], [6]⟩, 2, true⟩, ⟨⟨[8], [9]⟩, 4, false⟩] ∧
      ((empty p).run cs).1.zones.Perm ((Counters.empty p).run cs).1.zones ∧
      ((empty p).run cs).1.live = 3 ∧ ((Counters.empty p).run cs).1.entries.length = 3 ∧
      List.Forall₂ MapReply.Agrees ((empty p).run cs).2 ((Counters.empty p).run cs).2 := by
  intro p cs
  have h : Separate p.order (accessed p.order cs) := by decide
  obtain ⟨hzones, hlive, hreplies⟩ := counts_separate_spans p cs h
  have hthree : ((empty p).run cs).1.live = 3 := by decide
  exact ⟨h, by decide, hzones, hthree, hlive.symm.trans hthree, hreplies⟩

end HeatMap

end TierIndex
