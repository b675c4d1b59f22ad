import TierIndex.Proofs.Confirming

set_option autoImplicit false

/-! # Flushing and confirming until nothing is due

An engine that does nothing but flush and confirm every move that it is sent goes through rounds of
moves. Each round settles the zones that are one layer deeper, so after as many rounds as there are
zones nothing is due any more, and nothing becomes due again (`HeatMap.rounds_settle`). Only locked
twins, a hot and a frozen zone with the same ends of which one is misplaced, go on for ever
(`HeatMap.rounds_locked`): confirming the move of one misplaces the other.
-/

namespace TierIndex

namespace HeatMap

/-- The map after `n` rounds of moves. -/
def rounds (m : HeatMap) : Nat → HeatMap
  | 0 => m
  | n + 1 => (m.rounds n).confirmDue

section

variable {m : HeatMap}

theorem Intact.rounds (h : m.Intact) (n : Nat) : (m.rounds n).Intact := by
  induction n with
  | zero => exact h
  | succ n ih => exact ih.confirmDue

theorem length_zones_rounds (h : m.Intact) (n : Nat) :
    (m.rounds n).zones.length = m.zones.length := by
  induction n with
  | zero => rfl
  | succ n ih => rw [HeatMap.rounds, confirmDue_zones (h.rounds n), List.length_map, ih]

/-- One more layer is settled by every round. -/
theorem calm_rounds (h : m.Intact) {n : Nat} (hfree : ∀ i < n, ¬ (m.rounds i).Locked) :
    (m.rounds n).Calm n := by
  induction n with
  | zero => exact fun z _ hlt => absurd hlt (Nat.not_lt_zero _)
  | succ n ih =>
      have hcalm := ih fun i hi => hfree i (Nat.lt_succ_of_lt hi)
      exact hcalm.confirmDue (h.rounds n) (hfree n (Nat.lt_succ_self n))

theorem rounds_of_due_nil {n k : Nat} (hnil : (m.rounds n).due = []) (hk : n ≤ k) :
    m.rounds k = m.rounds n := by
  induction hk with
  | refl => rfl
  | step _ ih => rw [rounds, ih, confirmDue_of_nil hnil]

/-- **The rounds settle.** If no twins are locked in the first rounds, nothing is due after as many
rounds as there are zones, and ever after. -/
theorem rounds_settle (h : m.Intact) (hfree : ∀ i < m.zones.length, ¬ (m.rounds i).Locked) {n : Nat}
    (hn : m.zones.length ≤ n) : (m.rounds n).due = [] := by
  have hcalm := calm_rounds h hfree
  have hnil : (m.rounds m.zones.length).due = [] := by
    refine due_eq_nil_iff.mpr fun z hz => hcalm z hz ?_
    have hlt := depth_lt_length hz
    rw [length_zones_rounds h] at hlt
    exact hlt
  rw [rounds_of_due_nil hnil hn]
  exact hnil

/-- **Locked twins never settle.** -/
theorem rounds_locked (h : m.Intact) {i n : Nat} (hl : (m.rounds i).Locked) (hn : i ≤ n) :
    (m.rounds n).Locked := by
  induction hn with
  | refl => exact hl
  | step _ ih => exact ih.confirmDue (h.rounds _)

/-- Without twins nothing is ever locked. -/
theorem not_locked_rounds (h : m.Intact) (hfree : ∀ y z, ¬ m.Twins y z) (n : Nat) :
    ¬ (m.rounds n).Locked := by
  have hnone : ∀ y z, ¬ (m.rounds n).Twins y z := by
    induction n with
    | zero => exact hfree
    | succ n ih =>
        intro y z ht
        obtain ⟨y', z', ht'⟩ := twins_confirmDue (h.rounds n) ht
        exact ih y' z' ht'
  rintro ⟨y, z, ht, -⟩
  exact hnone y z ht

end

end HeatMap

/-! ## Rounds of a session -/

/-- The request that confirms a move. -/
def Move.confirmation (v : Move) : Request := .setTier v.span.lo v.span.hi v.toFast

/-- A flush sends the moves that are due, and counts them. -/
theorem Placer.flush_eq (p : Placer) : p.flush = (p.send p.map.due, p.map.due.length) := by
  simp [Placer.flush, HeatMap.due]

namespace Session

/-- The session after a flush and the confirmation of every move that it has sent, in order. -/
def round (σ : Session) : Session :=
  (σ.run (.flush :: σ.placer.map.due.map Move.confirmation)).1

/-- The session after `n` rounds. -/
def rounds (σ : Session) : Nat → Session
  | 0 => σ
  | n + 1 => (σ.rounds n).round

theorem run_confirmations_map (σ : Session) (vs : List Move) :
    (σ.run (vs.map Move.confirmation)).1.placer.map = vs.foldl HeatMap.confirm σ.placer.map := by
  induction vs generalizing σ with
  | nil => rfl
  | cons v vs ih => exact ih (σ.handle v.confirmation).1

theorem rounds_map (σ : Session) (n : Nat) :
    (σ.rounds n).placer.map = σ.placer.map.rounds n := by
  induction n with
  | zero => rfl
  | succ n ih =>
      have hround :=
        run_confirmations_map ((σ.rounds n).handle .flush).1 (σ.rounds n).placer.map.due
      rw [HeatMap.rounds, ← ih]
      exact hround

/-- **Flushing and confirming settles, unless twins are locked.** Whatever has been asked of a
placer with usable settings before, let the engine flush and confirm, round after round. If no hot
zone has the ends of a frozen one, or at least no such twins are found with one of them misplaced in
the first rounds, then after as many rounds as there are zones nothing is misplaced any more and a
flush sends nothing, in every later round. If twins are found with one of them misplaced, something
is misplaced in every later round. -/
theorem rounds_settle_or_lock {o : KeyOrder} {s : Settings} {out : Outlet} {p : Placer}
    (hp : Placer.new o s out = .ok p) (f : Folder) (before : List Request) :
    let σ := (run ⟨p, f⟩ before).1
    let m := σ.placer.map
    let Settled (n : Nat) :=
      (σ.rounds n).placer.map.misplaced = ⟨[], []⟩ ∧
        (σ.rounds n).placer.flush = ((σ.rounds n).placer, 0)
    ((∀ y z, ¬ m.Twins y z) → ∀ n, m.live ≤ n → Settled n) ∧
    ((∀ i < m.live, ¬ (σ.rounds i).placer.map.Locked) → ∀ n, m.live ≤ n → Settled n) ∧
    ∀ i, (σ.rounds i).placer.map.Locked →
      ∀ n, i ≤ n → (σ.rounds n).placer.map.misplaced.isEmpty = false := by
  intro σ m Settled
  have hcoherent : σ.placer.Coherent o s :=
    run_coherent (σ := ⟨p, f⟩) (Placer.new_coherent hp) before
  have h : m.Intact := hcoherent.intact
  have hsettled : ∀ n, (m.rounds n).due = [] → Settled n := by
    intro n hnil
    rw [← rounds_map σ n] at hnil
    refine ⟨HeatMap.due_eq_nil.mp hnil, ?_⟩
    rw [Placer.flush_eq, hnil]
    rfl
  have hall : (∀ i < m.live, ¬ (m.rounds i).Locked) → ∀ n, m.live ≤ n → Settled n := by
    intro hfree n hn
    rw [h.live_eq] at hfree hn
    exact hsettled n (HeatMap.rounds_settle h hfree hn)
  refine ⟨fun hfree => hall fun i _ => HeatMap.not_locked_rounds h hfree i, fun hfree => ?_,
    fun i hl n hn => ?_⟩
  · exact hall fun i hi => rounds_map σ i ▸ hfree i hi
  · rw [rounds_map] at hl
    rw [rounds_map]
    exact (HeatMap.rounds_locked h hl hn).misplaced_isEmpty

/-- A frozen zone of the fast tier encloses a hot one. The first round takes both out of the fast
tier, and the second one brings the inner one back. -/
theorem rounds_settle_or_lock_nested :
    let s : Settings := { target := 2 }
    let p : Placer := ⟨s, .empty ⟨.bytewise, 2, 10, 3, .lowest, by decide, by decide, by decide,
      by decide⟩, .empty, .start 10, .ledger []⟩
    let before : List Request := [.record [1] [9] 2, .record [3] [5] 20, .setTier [1] [9] true]
    let σ := (run ⟨p, .missing⟩ before).1
    (σ.rounds 0).placer.map.misplaced.isEmpty = false ∧
      (σ.rounds 1).placer.map.misplaced.isEmpty = false ∧
      (σ.rounds 2).placer.map.misplaced = ⟨[], []⟩ := by
  intro s p before σ
  have hp : Placer.new .bytewise s (.ledger []) = .ok p :=
    Placer.new_eq_ok (by decide +kernel) rfl _
  have hzones : σ.placer.map.zones = [⟨⟨[1], [9]⟩, 2, true⟩, ⟨⟨[3], [5]⟩, 20, true⟩] := by decide
  have hfree : ∀ y z, ¬ σ.placer.map.Twins y z := by
    rintro y z ⟨hy, hz, hhot, hfrozen, hsame⟩
    rw [hzones] at hy hz
    simp only [List.mem_cons, List.not_mem_nil, or_false] at hy hz
    rcases hy with rfl | rfl
    · exact absurd hhot (by decide)
    · rcases hz with rfl | rfl
      · exact absurd hsame (by decide)
      · exact absurd hfrozen (by decide)
  have hlive : σ.placer.map.live ≤ 2 := by decide
  obtain ⟨hsettles, -, -⟩ := rounds_settle_or_lock hp .missing before
  refine ⟨by decide, by decide, ?_⟩
  simpa only [σ] using (hsettles hfree 2 hlive).1

/-- Splitting two hot zones has left a hot piece with the ends of an older frozen zone. The moves of
the two take turns for ever. -/
theorem rounds_of_twins :
    let s : Settings := { target := 10 }
    let p : Placer := ⟨s, .empty ⟨.bytewise, 10, 10, 3, .lowest, by decide, by decide, by decide,
      by decide⟩, .empty, .start 10, .ledger []⟩
    let before : List Request := [.record [3] [5] 2, .record [1] [5] 20, .record [3] [9] 30]
    let σ := (run ⟨p, .missing⟩ before).1
    Placer.new .bytewise s (.ledger []) = .ok p ∧ s.freezing < s.boiling ∧
      σ.placer.map.zones = [⟨⟨[3], [5]⟩, 2, false⟩, ⟨⟨[1], [3]⟩, 20, false⟩,
        ⟨⟨[5], [9]⟩, 30, false⟩, ⟨⟨[3], [5]⟩, 50, false⟩] ∧
      ∀ n, (σ.rounds n).placer.map.misplaced.isEmpty = false := by
  intro s p before σ
  have hp : Placer.new .bytewise s (.ledger []) = .ok p :=
    Placer.new_eq_ok (by decide +kernel) rfl _
  have hcoherent : σ.placer.Coherent .bytewise s :=
    run_coherent (σ := ⟨p, .missing⟩) (Placer.new_coherent hp) before
  have hzones : σ.placer.map.zones = [⟨⟨[3], [5]⟩, 2, false⟩, ⟨⟨[1], [3]⟩, 20, false⟩,
      ⟨⟨[5], [9]⟩, 30, false⟩, ⟨⟨[3], [5]⟩, 50, false⟩] := by decide
  have hlocked : σ.placer.map.Locked := by
    refine ⟨⟨⟨[3], [5]⟩, 50, false⟩, ⟨⟨[3], [5]⟩, 2, false⟩, ⟨?_, ?_, ?_, ?_, ?_⟩, Or.inl rfl⟩
    · rw [hzones]
      decide
    · rw [hzones]
      decide
    · decide
    · decide
    · decide
  refine ⟨hp, by decide, hzones, fun n => ?_⟩
  rw [rounds_map]
  exact (HeatMap.rounds_locked (i := 0) hcoherent.intact hlocked (Nat.zero_le n)).misplaced_isEmpty

end Session

end TierIndex
