import TierIndex.Proofs.Cooling
import TierIndex.Proofs.Settle

set_option autoImplicit false

/-! # Every write is in order

The operations of a heat map write to numbered slots, keep the count of the zones by hand and
add heats up, without looking whether the slot exists, whether the count can be lowered or
whether a heat leaves its range. Here each operation is written down once more with these
checks in front of every single write: it gives `none` as soon as a check fails. On an intact
map no check ever does (`access?_eq`, `mergeHot?_eq`, `cool?_eq`), so that the unchecked
operations never leave the slots, never lower a count of zero and never store a heat outside
`1` to the limit. Confirming goes over the slots as they are, and loading builds new ones, so
neither has a write to check.
-/

namespace TierIndex

namespace HeatMap

/-! ## Checked writes -/

/-- Replace the zone in slot `i`. Fails unless the slot is in use and the new zone sound. -/
def put? (m : HeatMap) (i : Nat) (z : Zone) : Option HeatMap :=
  if (m.at? i).isSome ∧ z.Sound m.order then some (m.put i z) else none

/-- Free slot `i`. Fails unless the slot is in use and the count positive. -/
def free? (m : HeatMap) (i : Nat) : Option HeatMap :=
  if (m.at? i).isSome ∧ 0 < m.live then some (m.free i) else none

/-- Put one more zone into the given slot, or behind all slots. Fails unless the slot exists
and is free, and the zone is sound. -/
def place? (m : HeatMap) (slot : Option Nat) (z : Zone) : Option (HeatMap × Nat) :=
  if m.Vacant slot ∧ z.Sound m.order then some (m.place slot z) else none

/-! ## Checked operations -/

def insert? (m : HeatMap) (z : Zone) : Option HeatMap := (m.place? m.firstFree? z).map Prod.fst

def dropPoint? (m : HeatMap) (i : Nat) (z : Zone) : Option HeatMap :=
  if m.order.Same z.span.lo z.span.hi then m.free? i else some m

def splitAt? (m : HeatMap) (i : Nat) (a : Zone) (j : Nat) (b : Zone) : Option HeatMap := do
  let c := pieces m.order a b
  let (p, q) := splitSlots m.order i a j b
  let m ← m.put? p c.head
  let m ← m.put? q c.tail
  let m ← m.insert? c.shared
  let m ← m.dropPoint? p c.head
  m.dropPoint? q c.tail

def freeAll? (m : HeatMap) (l : List (Nat × Zone)) : Option HeatMap :=
  l.foldlM (fun m e => m.free? e.1) m

/-- Fails also if there is no slot `i`. -/
def mergeAt? (m : HeatMap) (i : Nat) : Option (HeatMap × Nat) :=
  match m.slots[i]? with
  | none => none
  | some none => some (m, 0)
  | some (some u) => do
      let (v, absorbed) := gather m.order u (m.hotOthers i)
      let freed ← m.freeAll? absorbed
      let merged ← freed.put? i v
      return (merged, absorbed.length)

def mergeHot? (m : HeatMap) : Option (HeatMap × Nat) :=
  (sortByStart m.order m.hotEntries).foldlM
    (fun (m, n) e => (m.mergeAt? e.1).map fun (m', k) => (m', n + k)) (m, 0)

/-- Fails also if slot `i` is not in use. -/
def settle? (m : HeatMap) (i : Nat) : Option HeatMap :=
  match m.at? i with
  | none => none
  | some u =>
      match m.rivals i u with
      | [] => some m
      | [(j, v)] =>
          if m.live ≤ m.params.target then m.splitAt? i u j v else (m.mergeAt? i).map Prod.fst
      | _ => (m.mergeAt? i).map Prod.fst

def receiveShift? (m : HeatMap) (i : Nat) (z : Zone) (d : Int) (covering : Bool) (s : Span) :
    Option (Except Fault Receipt) :=
  if d = 0 then some (.error (.map .noHeat))
  else
    let after := Zone.shiftHeat z.heat d
    let crossed := m.params.crosses z.heat after z.fast
    if after = 0 then (m.free? i).map fun m' => .ok ⟨m', none, false, crossed, s⟩
    else
      let unsettled := m.params.boiling ≤ after && (z.heat < m.params.boiling || covering)
      (m.put? i { z with heat := after }).map fun m' => .ok ⟨m', some i, unsettled, crossed, s⟩

def receiveJoining? (m : HeatMap) (i : Nat) (z : Zone) (s : Span) (d : Int) : Option Receipt :=
  let grown := z.span.union m.order s
  (m.put? i ⟨grown, Zone.poolHeat z.heat d, false⟩).map fun m' => ⟨m', some i, true, true, grown⟩

def receiveWidening? (m : HeatMap) (i : Nat) (z : Zone) (s : Span) (d : Int) : Option Receipt :=
  let grown := z.span.union m.order s
  let after := Zone.poolHeat z.heat d
  let fast := z.fast && decide (z.span.Covers m.order s)
  let unsettled := z.heat < m.params.boiling && m.params.boiling ≤ after
  (m.put? i ⟨grown, after, fast⟩).map fun m' =>
    ⟨m', some i, unsettled, m.params.crosses z.heat after fast, grown⟩

def receiveFresh? (m : HeatMap) (s : Span) (d : Int) : Option (Except Fault Receipt) :=
  if d ≤ 0 then some (.error (.map (.coldStart d)))
  else
    let heat := min d maxHeat
    let hot := decide (m.params.boiling ≤ heat)
    (m.place? (m.slotFor heat) ⟨s, heat, false⟩).map fun (m', i) => .ok ⟨m', some i, hot, hot, s⟩

def receive? (m : HeatMap) (s : Span) (d : Int) : Option (Except Fault Receipt) :=
  match m.landing s d with
  | .exact i z => m.receiveShift? i z d false s
  | .inside i z => m.receiveShift? i z d true z.span
  | .joining i z => (m.receiveJoining? i z s d).map .ok
  | .widening i z => (m.receiveWidening? i z s d).map .ok
  | .fresh => m.receiveFresh? s d

end HeatMap

def Receipt.settled? (r : Receipt) : Option HeatMap :=
  match r.slot with
  | some i => if r.unsettled then r.map.settle? i else some r.map
  | none => some r.map

namespace HeatMap

def access? (m : HeatMap) (a b : Key) (d : Int) : Option (Except Fault Outcome) := do
  match ← m.receive? (Span.between m.order a b) d with
  | .error e => return .error e
  | .ok r =>
      let map ← r.settled?
      return .ok ⟨map, r.crossed, r.span⟩

/-- Fails unless every cooled heat lies between zero and the limit, and the count is at least
the number of zones that lose all heat. -/
def decayBy? (m : HeatMap) (decay : Int → Int) : Option (HeatMap × List Span) :=
  if (∀ z ∈ m.zones, 0 ≤ decay z.heat ∧ decay z.heat ≤ maxHeat) ∧
      m.zones.countP (fun z => decay z.heat = 0) ≤ m.live then
    some (m.decayBy decay)
  else none

def cool? (m : HeatMap) (factor : Double) : Option (Except Fault (HeatMap × List Span)) :=
  if factor.InUnit then (m.decayBy? (cooledHeat factor)).map .ok
  else some (.error (.map (.factorOutside factor)))

/-! ## No check of a write fails -/

section

variable {m : HeatMap} {i j : Nat}

theorem put?_eq {y z : Zone} (hy : m.at? i = some y) (hz : z.Sound m.order) :
    m.put? i z = some (m.put i z) :=
  if_pos ⟨by rw [hy]; rfl, hz⟩

theorem free?_eq (h : m.Intact) {y : Zone} (hy : m.at? i = some y) :
    m.free? i = some (m.free i) :=
  if_pos ⟨by rw [hy]; rfl, h.live_pos hy⟩

theorem place?_eq {slot : Option Nat} {z : Zone} (hs : m.Vacant slot) (hz : z.Sound m.order) :
    m.place? slot z = some (m.place slot z) :=
  if_pos ⟨hs, hz⟩

theorem insert?_eq {z : Zone} (hz : z.Sound m.order) : m.insert? z = some (m.insert z) := by
  rw [insert?, place?_eq (vacant_firstFree? m) hz]
  rfl

/-! ## No check of an operation fails -/

theorem dropPoint?_eq (h : m.Intact) {z : Zone} (hz : m.at? i = some z) :
    m.dropPoint? i z = some (m.dropPoint i z) := by
  unfold dropPoint? dropPoint
  split
  · exact free?_eq h hz
  · rfl

theorem splitAt?_eq (h : m.Intact) {a b : Zone} (hij : i ≠ j) (ha : m.at? i = some a)
    (hb : m.at? j = some b) (hmeets : a.span.Meets m.order b.span) :
    m.splitAt? i a j b = some (m.splitAt i a j b) := by
  obtain ⟨p, q, x, y, hpq, hne, hp, hq⟩ := exists_splitSlots hij ha hb
  have hsound : ∀ z, (pieces m.order a b).Has z → z.Sound m.order := fun z hz =>
    sound_of_has (h.sound i a ha) (h.sound j b hb) hmeets hz
  rw [splitAt_eq hpq]
  unfold splitAt?
  rw [hpq]
  generalize pieces m.order a b = c at hsound ⊢
  have hhead := hsound c.head (Or.inl rfl)
  have hshared := hsound c.shared (Or.inr (Or.inl rfl))
  have htail := hsound c.tail (Or.inr (Or.inr rfl))
  have hq' : (m.put p c.head).at? q = some y := (at?_put_of_ne hp (Ne.symm hne) _).trans hq
  have hintact := h.withPieces hne hp hq hsound
  have hatp := withPieces_head hne hp hq c
  calc (do
        let m₁ ← m.put? p c.head
        let m₂ ← m₁.put? q c.tail
        let m₃ ← m₂.insert? c.shared
        let m₄ ← m₃.dropPoint? p c.head
        m₄.dropPoint? q c.tail)
      = ((m.put p c.head).put? q c.tail).bind fun m₂ => (m₂.insert? c.shared).bind fun m₃ =>
          (m₃.dropPoint? p c.head).bind fun m₄ => m₄.dropPoint? q c.tail := by
        rw [put?_eq hp hhead]
        rfl
    _ = (((m.put p c.head).put q c.tail).insert? c.shared).bind fun m₃ =>
          (m₃.dropPoint? p c.head).bind fun m₄ => m₄.dropPoint? q c.tail := by
        rw [put?_eq hq' htail]
        rfl
    _ = ((m.withPieces p q c).dropPoint? p c.head).bind fun m₄ => m₄.dropPoint? q c.tail := by
        rw [insert?_eq (m := (m.put p c.head).put q c.tail) hshared]
        rfl
    _ = ((m.withPieces p q c).dropPoint p c.head).dropPoint? q c.tail := by
        rw [dropPoint?_eq hintact hatp]
        rfl
    _ = _ := dropPoint?_eq (hintact.dropPoint hatp) (dropPoint_tail hne hp hq c)

theorem freeAll?_eq (h : m.Intact) {l : List (Nat × Zone)} (hnd : (l.map Prod.fst).Nodup)
    (hl : ∀ e ∈ l, m.at? e.1 = some e.2) : m.freeAll? l = some (m.freeAll l) := by
  induction l generalizing m with
  | nil => rfl
  | cons e l ih =>
      have he := hl e List.mem_cons_self
      have hstep : m.freeAll? (e :: l) = (m.free e.1).freeAll? l := by
        rw [freeAll?, List.foldlM_cons, free?_eq h he]
        rfl
      rw [hstep]
      exact ih (h.free he) (List.nodup_cons.mp hnd).2 (at?_free_head hnd hl)

theorem mergeAt?_eq (h : m.Intact) (hi : i < m.slots.length) :
    m.mergeAt? i = some (m.mergeAt i) := by
  have hat : m.at? i = m.slots[i] := by simp [at?, hi]
  unfold mergeAt?
  rw [List.getElem?_eq_getElem hi]
  cases hu : m.slots[i] with
  | none => simp [mergeAt, hat, hu]
  | some u =>
      have hu' : m.at? i = some u := hat.trans hu
      have hfree : m.freeAll? (m.absorbed i u) = some (m.freeAll (m.absorbed i u)) :=
        freeAll?_eq h (absorbed_nodup h) fun e he => ((mem_absorbed h).mp he).1
      -- slot `i` itself is not among the freed ones
      have hstill : (m.freeAll (m.absorbed i u)).at? i = some u := by
        rw [at?_freeAll, if_neg (notMem_absorbed h)]
        exact hu'
      have hsound : (m.merged i u).Sound (m.freeAll (m.absorbed i u)).order := by
        rw [HeatMap.order, freeAll_params]
        exact merged_sound h hu'
      show (do
        let freed ← m.freeAll? (m.absorbed i u)
        let done ← freed.put? i (m.merged i u)
        return (done, (m.absorbed i u).length)) = _
      rw [mergeAt_eq hu', hfree, Option.bind_eq_bind, Option.bind_some, put?_eq hstill hsound]
      rfl

theorem mergeAt_length (m : HeatMap) (i : Nat) :
    (m.mergeAt i).1.slots.length = m.slots.length := by
  cases hu : m.at? i with
  | none => rw [mergeAt_of_none hu]
  | some u => rw [mergeAt_eq hu, put_length, freeAll_length]

theorem mergeHot?_eq (h : m.Intact) : m.mergeHot? = some m.mergeHot := by
  -- the slots to be visited were listed before the first merge; a merge keeps every slot
  have key : ∀ (l : List (Nat × Zone)) (m : HeatMap) (n : Nat), m.Intact →
      (∀ e ∈ l, e.1 < m.slots.length) →
      l.foldlM (fun (m, n) e => (m.mergeAt? e.1).map fun (m', k) => (m', n + k)) (m, n) =
        some (l.foldl (fun (m, n) e => let (m', k) := m.mergeAt e.1; (m', n + k)) (m, n)) := by
    intro l
    induction l with
    | nil => intro m n _ _; rfl
    | cons e l ih =>
        intro m n h hl
        have hlt := hl e List.mem_cons_self
        have hnext : (m.mergeAt e.1).1.Intact := by
          cases hu : m.at? e.1 with
          | none =>
              rw [mergeAt_of_none hu]
              exact h
          | some u => exact h.mergeAt hu
        have hrest : ∀ f ∈ l, f.1 < (m.mergeAt e.1).1.slots.length := fun f hf => by
          rw [mergeAt_length]
          exact hl f (List.mem_cons_of_mem e hf)
        rw [List.foldlM_cons]
        dsimp only
        rw [mergeAt?_eq h hlt]
        exact ih _ _ hnext hrest
  apply key _ m 0 h
  intro e he
  exact lt_of_at? (mem_hotEntries.mp (mem_sortByStart.mp he)).1

theorem settle?_eq (h : m.Intact) {u : Zone} (hu : m.at? i = some u) :
    m.settle? i = some (m.settle i) := by
  have hmerge : (m.mergeAt? i).map Prod.fst = some (m.mergeAt i).1 := by
    rw [mergeAt?_eq h (lt_of_at? hu)]
    rfl
  unfold settle? settle
  rw [hu]
  dsimp only
  cases hr : m.rivals i u with
  | nil => rfl
  | cons e l =>
      cases l with
      | cons e' l => exact hmerge
      | nil =>
          obtain ⟨j, v⟩ := e
          have hmem : (j, v) ∈ m.rivals i u := hr ▸ List.mem_cons_self
          obtain ⟨⟨hv, -, hj⟩, hmeets⟩ := mem_rivals.mp hmem
          dsimp only
          split
          · exact splitAt?_eq h (Ne.symm hj) hu hv (Span.meets_comm.mp hmeets)
          · exact hmerge

end

/-! ## No check of an access fails -/

section

variable {m : HeatMap} {i : Nat} {z : Zone} {s : Span} {d : Int}

theorem receiveShift?_eq (h : m.Intact) (hz : m.at? i = some z) (covering : Bool) :
    m.receiveShift? i z d covering s = some (m.receiveShift i z d covering s) := by
  have hsound := h.sound i z hz
  unfold receiveShift? receiveShift
  split
  · rfl
  · dsimp only
    split
    · rw [free?_eq h hz]
      rfl
    · rw [put?_eq hz (shifted_sound hsound ‹_›)]
      rfl

theorem receiveFresh?_eq (hs : s.Proper m.order) :
    m.receiveFresh? s d = some (m.receiveFresh s d) := by
  unfold receiveFresh? receiveFresh
  split
  · rfl
  · next hd =>
      dsimp only
      rw [place?_eq (slotFor_vacant m _) (fresh_sound hs (Int.not_le.mp hd))]
      rfl

theorem receive?_eq (h : m.Intact) (hs : s.Proper m.order) :
    m.receive? s d = some (m.receive s d) := by
  have hsuits := landing_suits m s d
  unfold receive? receive
  cases hl : m.landing s d with
  | exact i z =>
      rw [hl] at hsuits
      exact receiveShift?_eq h hsuits.at_eq false
  | inside i z =>
      rw [hl] at hsuits
      exact receiveShift?_eq h hsuits.2.2.at_eq true
  | joining i z =>
      rw [hl] at hsuits
      obtain ⟨-, hz, -, -, hd⟩ := hsuits
      dsimp only
      rw [receiveJoining?, put?_eq hz (widened_sound (h.sound i z hz) hd _)]
      rfl
  | widening i z =>
      rw [hl] at hsuits
      obtain ⟨-, hz, -, -, hd⟩ := hsuits
      dsimp only
      rw [receiveWidening?, put?_eq hz (widened_sound (h.sound i z hz) hd _)]
      rfl
  | fresh => exact receiveFresh?_eq hs

/-- **No access leaves the slots, lowers a count of zero or stores a heat out of range.** -/
theorem access?_eq (h : m.Intact) (a b : Key) (d : Int) :
    m.access? a b d = some (m.access a b d) := by
  unfold access? access
  rw [receive?_eq h (Span.between_proper m.order a b)]
  cases hr : m.receive (Span.between m.order a b) d with
  | error e => rfl
  | ok r =>
      obtain ⟨i, new, hrec⟩ := receive_spec h (Span.between_proper m.order a b) hr
      have hsettled : r.settled? = some r.settled := by
        unfold Receipt.settled? Receipt.settled
        rw [hrec.slot]
        cases hnew : new with
        | none => rfl
        | some u =>
            cases hu : r.unsettled with
            | false => rfl
            | true =>
                have hat : r.map.at? i = some u := hrec.write.at?_self.trans hnew
                exact settle?_eq (hrec.write.intact h) hat
      rw [Option.bind_eq_bind, Option.bind_some]
      dsimp only
      rw [hsettled]
      rfl

theorem decayBy?_eq (h : m.Intact) {decay : Int → Int} (hd : Decays decay) :
    m.decayBy? decay = some (m.decayBy decay) := by
  refine if_pos ⟨fun z hz => ?_, ?_⟩
  · have hs := h.sound_of_mem hz
    obtain ⟨hge, hle⟩ := hd z.heat hs.heat_pos hs.heat_le
    exact ⟨hge, Int.le_trans hle hs.heat_le⟩
  · rw [h.live_eq]
    exact List.countP_le_length

theorem cool?_eq (h : m.Intact) (factor : Double) : m.cool? factor = some (m.cool factor) := by
  unfold cool? cool
  split
  · next hunit =>
      rw [decayBy?_eq h (cooledHeat_decays hunit)]
      rfl
  · rfl

end

end HeatMap

end TierIndex
