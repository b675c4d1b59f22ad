import TierIndex.HeatMap.Access
import TierIndex.Proofs.Answers
import TierIndex.Proofs.Intact

set_option autoImplicit false

/-! # What receiving an access does

An access is received in one of five ways (`receive_cases`): the zone it lands on loses all its
heat, or has its heat shifted, or is widened over the span, being hot or cold, or a new zone is
made. Whatever the way, receiving is a single write to a single slot (`Write`), and the span that
is reported covers the accessed span, the old zone of that slot and its new one. A zone that comes
out hot is marked for settling unless the slot held a hot zone of the same span before. All five
ways are brought into this one form by `receive_spec`; what does not depend on the way starts from
there.
-/

namespace TierIndex

/-- The zone that is landed on, with its slot. -/
def Landing.zone? : Landing → Option (Nat × Zone)
  | .exact i z | .inside i z | .joining i z | .widening i z => some (i, z)
  | .fresh => none

theorem Landing.zone?_of_at? {m : HeatMap} {l : Landing} {i : Nat} {z : Zone}
    (hl : l.zone? = some (i, z)) (hz : m.at? i = some z) :
    ∀ y, m.at? i = some y → l.zone? = some (i, y) := by
  intro y hy
  cases hz.symm.trans hy
  exact hl

namespace HeatMap

/-! ## One write -/

/-- The map `m'` is `m` with one write to slot `i`, which holds `new` afterwards. The slot is
in use when its zone is replaced or freed, and free when a zone is added. -/
inductive Write (m : HeatMap) : HeatMap → Nat → Option Zone → Prop where
  | put {i : Nat} {y z : Zone} (hy : m.at? i = some y) (hz : z.Sound m.order) :
      Write m (m.put i z) i (some z)
  | free {i : Nat} {y : Zone} (hy : m.at? i = some y) : Write m (m.free i) i none
  | place {slot : Option Nat} {z : Zone} (hs : m.Vacant slot) (hz : z.Sound m.order) :
      Write m (m.place slot z).1 (m.place slot z).2 (some z)

section

variable {m m' : HeatMap} {i : Nat} {new : Option Zone}

theorem Write.params (h : Write m m' i new) : m'.params = m.params := by
  cases h with
  | put => rfl
  | free => rfl
  | place => exact place_params m _ _

theorem Write.at? (h : Write m m' i new) (j : Nat) :
    m'.at? j = if j = i then new else m.at? j := by
  cases h with
  | put hy => exact at?_put (lt_of_at? hy) j
  | free => exact at?_free m i j
  | place hs => exact at?_place (fun i hi => (hs i hi).1) j

theorem Write.at?_self (h : Write m m' i new) : m'.at? i = new := by
  rw [h.at?, if_pos rfl]

theorem Write.at?_of_ne (h : Write m m' i new) {j : Nat} (hj : j ≠ i) : m'.at? j = m.at? j := by
  rw [h.at?, if_neg hj]

theorem Write.intact (h : Write m m' i new) (hm : m.Intact) : m'.Intact := by
  cases h with
  | put hy hz => exact hm.put hy hz
  | free hy => exact hm.free hy
  | place hs hz => exact hm.place hs hz

end

/-! ## Landing -/

/-- No zone has exactly the span. -/
def Unmatched (m : HeatMap) (s : Span) : Prop :=
  ∀ i z, m.at? i = some z → ¬ z.span.Same m.order s

/-- What is known of the zone that an access of heat `d` to the span `s` lands on. -/
def Suits (m : HeatMap) (s : Span) (d : Int) : Landing → Prop
  | .exact i z => m.Hottest (fun y => y.span.Same m.order s) i z
  | .inside i z => m.Unmatched s ∧ m.params.target < m.live ∧
      m.Hottest (fun y => m.params.Hot y ∧ y.span.Covers m.order s) i z
  | .joining i z => m.Unmatched s ∧ m.at? i = some z ∧ m.params.Hot z ∧
      z.span.Meets m.order s ∧ 0 < d
  | .widening i z => m.Unmatched s ∧ m.at? i = some z ∧ ¬ m.params.Hot z ∧
      z.span.Meets m.order s ∧ 0 < d
  | .fresh => m.Unmatched s

theorem firstHotMeeting?_spec {m : HeatMap} {s : Span} {i : Nat} {z : Zone}
    (h : m.firstHotMeeting? s = some (i, z)) :
    m.at? i = some z ∧ m.params.Hot z ∧ z.span.Meets m.order s := by
  obtain ⟨hmem, hmeets⟩ := List.mem_filter.mp (leftmostBest_mem h)
  obtain ⟨hentry, hot⟩ := List.mem_filter.mp hmem
  exact ⟨mem_entries.mp hentry, of_decide_eq_true hot, of_decide_eq_true hmeets⟩

theorem smallestColdUnion?_spec {m : HeatMap} {s : Span} {i : Nat} {z : Zone}
    (h : m.smallestColdUnion? s = some (i, z)) :
    m.at? i = some z ∧ ¬ m.params.Hot z ∧ z.span.Meets m.order s := by
  obtain ⟨hmem, hcold⟩ := List.mem_filter.mp (leftmostBest_mem h)
  obtain ⟨hnot, hmeets⟩ := of_decide_eq_true hcold
  exact ⟨mem_entries.mp hmem, hnot, hmeets⟩

theorem landing_suits (m : HeatMap) (s : Span) (d : Int) : m.Suits s d (m.landing s d) := by
  unfold landing
  cases hexact : m.hottest? fun z => z.span.Same m.order s with
  | some e => exact hottest?_eq_some hexact
  | none =>
      have hnone : m.Unmatched s := fun i z hz hsame =>
        hottest?_eq_none.mp hexact i z hz (decide_eq_true hsame)
      show m.Suits s d (if m.live ≤ m.params.target then .fresh else _)
      split
      · exact hnone
      · next hlive =>
          cases hinside : m.hottest? fun z => m.params.Hot z ∧ z.span.Covers m.order s with
          | some e => exact ⟨hnone, Nat.not_le.mp hlive, hottest?_eq_some hinside⟩
          | none =>
              show m.Suits s d (if d ≤ 0 then .fresh else _)
              split
              · exact hnone
              · next hd =>
                  have hpos : 0 < d := Int.not_le.mp hd
                  split
                  · cases hjoin : m.firstHotMeeting? s with
                    | some e =>
                        obtain ⟨hat, hot, hmeets⟩ := firstHotMeeting?_spec hjoin
                        exact ⟨hnone, hat, hot, hmeets, hpos⟩
                    | none => exact hnone
                  · cases hwiden : m.smallestColdUnion? s with
                    | some e =>
                        obtain ⟨hat, hcold, hmeets⟩ := smallestColdUnion?_spec hwiden
                        exact ⟨hnone, hat, hcold, hmeets, hpos⟩
                    | none => exact hnone

/-! ## The ways of receiving -/

/-- The ways in which an access of heat `d` to the span `s` is received: the receipt, the slot that
is written, and the zone that it holds afterwards. -/
inductive Reception (m : HeatMap) (s : Span) (d : Int) : Receipt → Nat → Option Zone → Prop where
  /-- A zone that covers the span loses all its heat. -/
  | spent {i : Nat} {z : Zone} {t : Span} (hz : m.at? i = some z) (hcov : z.span.Covers m.order s)
      (hts : t.Covers m.order s) (htz : t.Covers m.order z.span)
      (hzero : Zone.shiftHeat z.heat d = 0) :
      Reception m s d ⟨m.free i, none, false, m.params.crosses z.heat 0 z.fast, t⟩ i none
  /-- A zone that covers the span has its heat shifted. -/
  | shifted {i : Nat} {z : Zone} {t : Span} {covering : Bool} (hz : m.at? i = some z)
      (hcov : z.span.Covers m.order s) (hts : t.Covers m.order s) (htz : t.Covers m.order z.span)
      (hne : Zone.shiftHeat z.heat d ≠ 0) :
      Reception m s d
        ⟨m.put i { z with heat := Zone.shiftHeat z.heat d }, some i,
          m.params.boiling ≤ Zone.shiftHeat z.heat d && (z.heat < m.params.boiling || covering),
          m.params.crosses z.heat (Zone.shiftHeat z.heat d) z.fast, t⟩
        i (some { z with heat := Zone.shiftHeat z.heat d })
  /-- A hot zone is widened over the span. -/
  | joined {i : Nat} {z : Zone} (hz : m.at? i = some z) (hot : m.params.Hot z)
      (hmeets : z.span.Meets m.order s) (hd : 0 < d) :
      Reception m s d (m.receiveJoining i z s d) i
        (some ⟨z.span.union m.order s, Zone.poolHeat z.heat d, false⟩)
  /-- A cold zone is widened over the span. -/
  | widened {i : Nat} {z : Zone} (hz : m.at? i = some z) (hcold : ¬ m.params.Hot z)
      (hmeets : z.span.Meets m.order s) (hd : 0 < d) :
      Reception m s d (m.receiveWidening i z s d) i
        (some ⟨z.span.union m.order s, Zone.poolHeat z.heat d,
          z.fast && decide (z.span.Covers m.order s)⟩)
  /-- A new zone is put into a free slot. -/
  | fresh {slot : Option Nat} (hslot : m.Vacant slot) (hd : 0 < d) :
      Reception m s d
        ⟨(m.place slot ⟨s, min d maxHeat, false⟩).1, some (m.place slot ⟨s, min d maxHeat, false⟩).2,
          decide (m.params.boiling ≤ min d maxHeat), decide (m.params.boiling ≤ min d maxHeat), s⟩
        (m.place slot ⟨s, min d maxHeat, false⟩).2 (some ⟨s, min d maxHeat, false⟩)

section

variable {m : HeatMap} {s : Span} {d : Int} {r : Receipt} {i : Nat} {z : Zone} {new : Option Zone}

theorem slotFor_vacant (m : HeatMap) (heat : Int) : m.Vacant (m.slotFor heat) := by
  unfold slotFor
  split
  · exact vacant_firstFree? m
  · split
    · exact fun _ hi => absurd hi (by simp)
    · exact vacant_firstFree? m

theorem place_at? {slot : Option Nat} (hs : m.Vacant slot) (z : Zone) :
    m.at? (m.place slot z).2 = none := by
  cases slot with
  | some i => exact (hs i rfl).2
  | none => exact at?_eq_none_of_le (Nat.le_refl _)

theorem receiveShift_reception (hz : m.at? i = some z) (hcov : z.span.Covers m.order s)
    {covering : Bool} {t : Span} (hts : t.Covers m.order s) (htz : t.Covers m.order z.span)
    (hr : m.receiveShift i z d covering t = .ok r) : ∃ new, Reception m s d r i new := by
  unfold receiveShift at hr
  split at hr
  · cases hr
  · dsimp only at hr
    split at hr
    · next hzero =>
        cases hr
        rw [hzero]
        exact ⟨none, .spent hz hcov hts htz hzero⟩
    · next hne =>
        cases hr
        exact ⟨_, .shifted hz hcov hts htz hne⟩

/-- **How an access can be received.** A slot that is in use before it is written is the one that
the access lands on. -/
theorem receive_at_landing (hr : m.receive s d = .ok r) :
    ∃ i new, Reception m s d r i new ∧
      ∀ z, m.at? i = some z → (m.landing s d).zone? = some (i, z) := by
  have hsuits := landing_suits m s d
  unfold receive at hr
  cases hl : m.landing s d with
  | exact i z =>
      rw [hl] at hr hsuits
      obtain ⟨hcov, hcov'⟩ := Span.same_iff_covers.mp (of_decide_eq_true hsuits.suits)
      obtain ⟨new, hrec⟩ := receiveShift_reception hsuits.at_eq hcov (Span.covers_refl _ _) hcov' hr
      exact ⟨i, new, hrec, Landing.zone?_of_at? rfl hsuits.at_eq⟩
  | inside i z =>
      rw [hl] at hr hsuits
      obtain ⟨-, -, hbest⟩ := hsuits
      obtain ⟨-, hcov⟩ := of_decide_eq_true hbest.suits
      obtain ⟨new, hrec⟩ := receiveShift_reception hbest.at_eq hcov hcov (Span.covers_refl _ _) hr
      exact ⟨i, new, hrec, Landing.zone?_of_at? rfl hbest.at_eq⟩
  | joining i z =>
      rw [hl] at hr hsuits
      obtain ⟨-, hz, hot, hmeets, hd⟩ := hsuits
      cases hr
      exact ⟨i, _, .joined hz hot hmeets hd, Landing.zone?_of_at? rfl hz⟩
  | widening i z =>
      rw [hl] at hr hsuits
      obtain ⟨-, hz, hcold, hmeets, hd⟩ := hsuits
      cases hr
      exact ⟨i, _, .widened hz hcold hmeets hd, Landing.zone?_of_at? rfl hz⟩
  | fresh =>
      rw [hl] at hr
      unfold receiveFresh at hr
      dsimp only at hr
      split at hr
      · cases hr
      · next hd =>
          cases hr
          have hslot := slotFor_vacant m (min d maxHeat)
          refine ⟨_, _, .fresh hslot (Int.not_le.mp hd), fun z hz => ?_⟩
          rw [place_at? hslot] at hz
          cases hz

theorem receive_cases (hr : m.receive s d = .ok r) : ∃ i new, Reception m s d r i new := by
  obtain ⟨i, new, hrec, -⟩ := receive_at_landing hr
  exact ⟨i, new, hrec⟩

/-- A key of the zone that comes out is a key of the accessed span or of the zone that went in. -/
theorem Reception.holds_new {u : Zone} {k : Key} (hrec : Reception m s d r i new)
    (hnew : new = some u) (hk : u.span.Holds m.order k) :
    s.Holds m.order k ∨ ∃ z, m.at? i = some z ∧ z.span.Holds m.order k := by
  cases hrec with
  | spent => cases hnew
  | shifted hz =>
      cases hnew
      exact Or.inr ⟨_, hz, hk⟩
  | joined hz _ hmeets =>
      cases hnew
      exact ((Span.holds_union_iff hmeets).mp hk).symm.imp_right fun hkz => ⟨_, hz, hkz⟩
  | widened hz _ hmeets =>
      cases hnew
      exact ((Span.holds_union_iff hmeets).mp hk).symm.imp_right fun hkz => ⟨_, hz, hkz⟩
  | fresh =>
      cases hnew
      exact Or.inl hk

/-! ## Sound zones stay sound -/

/-- Shifting the heat of a sound zone keeps it sound, unless the heat is lost. -/
theorem shifted_sound (hz : z.Sound m.order) (hd : Zone.shiftHeat z.heat d ≠ 0) :
    ({ z with heat := Zone.shiftHeat z.heat d } : Zone).Sound m.order where
  proper := hz.proper
  heat_pos := by
    have hnonneg := Zone.shiftHeat_nonneg (Int.le_trans (by decide) hz.heat_pos) d
    show 1 ≤ Zone.shiftHeat z.heat d
    omega
  heat_le := Zone.shiftHeat_le hz.heat_le d

/-- Widening a zone over the span and adding positive heat keeps it sound. -/
theorem widened_sound (hz : z.Sound m.order) (hd : 0 < d) (fast : Bool) :
    (⟨z.span.union m.order s, Zone.poolHeat z.heat d, fast⟩ : Zone).Sound m.order where
  proper := Span.union_proper hz.proper s
  heat_pos := Int.le_trans hz.heat_pos (Zone.le_poolHeat hz.heat_le (Int.le_of_lt hd))
  heat_le := Zone.poolHeat_le _ _

/-- A new zone of positive heat is sound. -/
theorem fresh_sound (hs : s.Proper m.order) (hd : 0 < d) :
    (⟨s, min d maxHeat, false⟩ : Zone).Sound m.order where
  proper := hs
  heat_pos := by
    show 1 ≤ min d maxHeat
    rw [maxHeat]
    omega
  heat_le := Int.min_le_right d maxHeat

/-! ## One form for all ways -/

/-- The receipt `r` of an access to the span `s` comes from one write to slot `i`, which holds
`new` afterwards. -/
structure Receives (m : HeatMap) (s : Span) (r : Receipt) (i : Nat) (new : Option Zone) :
    Prop where
  write : Write m r.map i new
  slot : r.slot = new.map fun _ => i
  covers : r.span.Covers m.order s
  covers_old : ∀ y, m.at? i = some y → r.span.Covers m.order y.span
  covers_new : ∀ z, new = some z → r.span.Covers m.order z.span
  /-- Only a hot zone is marked for settling. -/
  hot : r.unsettled = true → ∀ z, new = some z → m.params.Hot z
  /-- A hot zone is not marked only if the slot held a hot zone of the same span. -/
  known : r.unsettled = false → ∀ z, new = some z → m.params.Hot z →
    ∃ y, m.at? i = some y ∧ m.params.Hot y ∧ y.span = z.span

theorem Reception.receives (h : m.Intact) (hs : s.Proper m.order) (hrec : Reception m s d r i new) :
    Receives m s r i new := by
  cases hrec with
  | spent hz hcov hts htz hzero =>
      refine ⟨.free hz, rfl, hts, fun y hy => ?_, ?_, ?_, ?_⟩
      · cases hz.symm.trans hy
        exact htz
      · exact fun _ hw => absurd hw (by simp)
      · exact fun _ _ hw => absurd hw (by simp)
      · exact fun _ _ hw => absurd hw (by simp)
  | @shifted _ z _ _ hz hcov hts htz hne =>
      refine ⟨.put hz (shifted_sound (h.sound _ _ hz) hne), rfl, hts, fun y hy => ?_,
        fun w hw => ?_, fun hu w hw => ?_, fun hu w hw hot => ?_⟩
      · cases hz.symm.trans hy
        exact htz
      · cases hw
        exact htz
      · cases hw
        exact of_decide_eq_true ((Bool.and_eq_true _ _).mp hu).1
      · cases hw
        refine ⟨z, hz, ?_, rfl⟩
        have hot' : m.params.boiling ≤ Zone.shiftHeat z.heat d := hot
        show m.params.boiling ≤ z.heat
        simp only [hot', decide_true, Bool.true_and, Bool.or_eq_false_iff,
          decide_eq_false_iff_not] at hu
        omega
  | joined hz hot hmeets hd =>
      have hsound := h.sound _ _ hz
      refine ⟨.put hz (widened_sound hsound hd false), rfl, Span.union_covers_right _ _ _,
        fun y hy => ?_, fun w hw => ?_, fun _ w hw => ?_, fun hu => ?_⟩
      · cases hz.symm.trans hy
        exact Span.union_covers_left _ _ _
      · cases hw
        exact Span.covers_refl _ _
      · cases hw
        exact Int.le_trans hot (Zone.le_poolHeat hsound.heat_le (Int.le_of_lt hd))
      · cases hu
  | @widened _ z hz hcold hmeets hd =>
      refine ⟨.put hz (widened_sound (h.sound _ _ hz) hd _), rfl, Span.union_covers_right _ _ _,
        fun y hy => ?_, fun w hw => ?_, fun hu w hw => ?_, fun hu w hw hot => ?_⟩
      · cases hz.symm.trans hy
        exact Span.union_covers_left _ _ _
      · cases hw
        exact Span.covers_refl _ _
      · cases hw
        exact of_decide_eq_true ((Bool.and_eq_true _ _).mp hu).2
      · -- a cold zone that comes out hot is always marked
        cases hw
        have hmarked : (m.receiveWidening i z s d).unsettled = true :=
          (Bool.and_eq_true _ _).mpr ⟨decide_eq_true (Int.not_le.mp hcold), decide_eq_true hot⟩
        rw [hmarked] at hu
        cases hu
  | fresh hslot hd =>
      refine ⟨.place hslot (fresh_sound hs hd), rfl, Span.covers_refl _ _, fun y hy => ?_,
        fun w hw => ?_, fun hu w hw => ?_, fun hu w hw hot => ?_⟩
      · rw [place_at? hslot] at hy
        cases hy
      · cases hw
        exact Span.covers_refl _ _
      · cases hw
        exact of_decide_eq_true hu
      · cases hw
        exact absurd hot (of_decide_eq_false hu)

/-- **Receiving is one write.** -/
theorem receive_spec (h : m.Intact) (hs : s.Proper m.order) (hr : m.receive s d = .ok r) :
    ∃ i new, Receives m s r i new := by
  obtain ⟨i, new, hrec⟩ := receive_cases hr
  exact ⟨i, new, hrec.receives h hs⟩

end

end HeatMap

end TierIndex
