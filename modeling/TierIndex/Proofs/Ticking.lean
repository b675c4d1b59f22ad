import TierIndex.Proofs.Coherence

set_option autoImplicit false

/-! # The clock rings once in every period

The clock of a placer is only ever touched by ticks. After `n` ticks of a clock with period `P`
there are `P - n % P` steps left, so there is always one left (`Clock.step?_after`), and the tick
that takes the last one, number `P`, `2 P`, `3 P` and so on, rings. A clock that rings cools the
map as an explicit cooling by the factor of the settings would; a clock that does not ring leaves
everything but itself as it is.

A tick is a loop: an attempt that finds no step left is made again. Since there always is one left,
the first attempt is the last.
-/

namespace TierIndex

namespace Clock

/-! ## Attempts -/

/-- A tick is done after `n` attempts that have found no step left. -/
inductive DoneAfter (c : Clock) : Nat → Clock × Bool → Prop
  | done {r : Clock × Bool} (h : c.step? = some r) : DoneAfter c 0 r
  | again {n : Nat} {r : Clock × Bool} (h : c.step? = none) (hr : DoneAfter c n r) :
      DoneAfter c (n + 1) r

/-- Where a step is left, the first attempt succeeds. -/
theorem doneAfter_iff {c : Clock} {n : Nat} {r r' : Clock × Bool} (h : c.step? = some r) :
    c.DoneAfter n r' ↔ n = 0 ∧ r' = r := by
  constructor
  · intro hdone
    cases hdone with
    | done h' => exact ⟨rfl, Option.some.inj (h'.symm.trans h)⟩
    | again h' => rw [h] at h'; cases h'
  · rintro ⟨rfl, rfl⟩
    exact .done h

/-! ## Tick after tick -/

/-- The clock of period `P` after `n` ticks. -/
def after (P n : Nat) : Clock := ⟨P, P - n % P⟩

variable {P : Nat}

/-- The remainder goes up by one, or starts anew when a period is full. -/
theorem succ_mod_cases (hP : 0 < P) (n : Nat) :
    (P ∣ n + 1 ∧ n % P + 1 = P ∧ (n + 1) % P = 0) ∨
      (¬ P ∣ n + 1 ∧ n % P + 1 < P ∧ (n + 1) % P = n % P + 1) := by
  have hlt := Nat.mod_lt n hP
  have hsum : n + 1 = n % P + 1 + P * (n / P) := by
    have := Nat.mod_add_div n P
    omega
  rcases Nat.lt_or_ge (n % P + 1) P with hless | hfull
  · have hmod : (n + 1) % P = n % P + 1 := by
      rw [hsum, Nat.add_mul_mod_self_left, Nat.mod_eq_of_lt hless]
    refine Or.inr ⟨fun hdvd => ?_, hless, hmod⟩
    have := Nat.mod_eq_zero_of_dvd hdvd
    omega
  · have heq : n % P + 1 = P := by omega
    have hmod : (n + 1) % P = 0 := by
      rw [hsum, heq, Nat.add_mul_mod_self_left, Nat.mod_self]
    exact Or.inl ⟨Nat.dvd_of_mod_eq_zero hmod, heq, hmod⟩

/-- **One tick.** There is a step left, and the clock rings if the period divides the number of the
tick. -/
theorem step?_after (hP : 0 < P) (n : Nat) :
    (after P n).step? = some (after P (n + 1), decide (P ∣ n + 1)) := by
  have hlt := Nat.mod_lt n hP
  have hleft : P - n % P ≠ 0 := by omega
  unfold step? after
  rw [if_neg hleft]
  rcases succ_mod_cases hP n with ⟨hdvd, hfull, hmod⟩ | ⟨hdvd, hless, hmod⟩
  · have hlast : P - n % P = 1 := by omega
    rw [if_pos hlast, hmod, decide_eq_true hdvd]
    rfl
  · have hmore : P - n % P ≠ 1 := by omega
    have hnext : P - n % P - 1 = P - (n % P + 1) := by omega
    rw [if_neg hmore, hmod, decide_eq_false hdvd, hnext]

theorem tick_after (hP : 0 < P) (n : Nat) :
    (after P n).tick = (after P (n + 1), decide (P ∣ n + 1)) := by
  rw [tick, step?_after hP]
  rfl

theorem start_eq (hP : 0 < P) : start P = after P 0 := by
  have hmax : max P 1 = P := Nat.max_eq_left hP
  simp [start, after, hmax]

end Clock

/-! ## Nothing else touches the clock -/

namespace Placer

variable {o : KeyOrder} {s : Settings} {p : Placer} {out : Outlet} {f : Folder}

theorem record_clock (p : Placer) (a b : Key) (d : Int) :
    (p.record a b d).1.clock = p.clock := by
  unfold record
  cases p.map.access a b d <;> rfl

theorem cool_clock (p : Placer) (factor : Double) : (p.cool factor).1.clock = p.clock := by
  unfold cool
  cases p.map.cool factor <;> rfl

theorem belongsFast_clock (p : Placer) (k : Key) : (p.belongsFast k).1.clock = p.clock := by
  unfold belongsFast
  cases p.memo.lookup p.order k with
  | some b => rfl
  | none =>
      cases p.map.findUniform? k with
      | none => rfl
      | some r =>
          obtain ⟨z, uniform⟩ := r
          cases uniform <;> rfl

theorem load_clock (p : Placer) (f : Folder) : (p.load f).1.clock = p.clock := by
  unfold load
  cases p.map.load f <;> rfl

theorem new_clock (hp : new o s out = .ok p) : p.clock = .start s.period := by
  obtain ⟨q, -, rfl⟩ := map_eq_ok.mp hp
  rfl

theorem restore_clock (hp : restore o s out f = .ok p) : p.clock = .start s.period := by
  unfold restore at hp
  split at hp
  · cases hp
  · next q hq =>
      split at hp
      · cases hp
        exact new_clock hq
      · split at hp
        · cases hp
        · next hload =>
            cases hp
            have hclock := q.load_clock f
            rw [hload] at hclock
            exact hclock.trans (new_clock hq)

/-- Settings that a placer runs under can be used. -/
theorem Coherent.fault?_eq_none (h : p.Coherent o s) : s.fault? = none := by
  have hparams := h.params_eq
  unfold Settings.params at hparams
  cases hfault : s.fault? with
  | none => rfl
  | some cause =>
      rw [hfault] at hparams
      cases hparams

/-- The placer with another clock. -/
def withClock (p : Placer) (clock : Clock) : Placer := { p with clock }

theorem cool_withClock (p : Placer) (clock : Clock) (factor : Double) :
    (p.withClock clock).cool factor = ((p.cool factor).1.withClock clock, (p.cool factor).2) := by
  simp only [cool, withClock]
  cases p.map.cool factor <;> rfl

/-- What a tick does when the clock rings, and when it does not. -/
theorem tick_eq (p : Placer) :
    p.tick =
      if p.clock.tick.2 then
        ((p.cool p.settings.factor).1.withClock p.clock.tick.1,
          (p.cool p.settings.factor).2.map fun _ => true)
      else (p.withClock p.clock.tick.1, .ok false) := by
  have hcool := p.cool_withClock p.clock.tick.1 p.settings.factor
  simp only [withClock] at hcool
  unfold tick
  simp only [hcool, withClock]

/-- Cooling by a factor that can be used does not fail. -/
theorem Coherent.cool_ok (h : p.Coherent o s) : ∃ n, (p.cool s.factor).2 = .ok n := by
  obtain ⟨-, -, -, -, -, hunit, -⟩ := Settings.fault?_eq_none_iff.mp h.fault?_eq_none
  unfold Placer.cool HeatMap.cool
  rw [if_pos hunit]
  exact ⟨_, rfl⟩

end Placer

/-! ## Every run -/

/-- The request is a tick. -/
def Request.isTick : Request → Bool
  | .tick => true
  | _ => false

namespace Session

variable {o : KeyOrder} {s : Settings} {σ : Session} {P n : Nat}

theorem handle_clock {q : Request} (hq : q ≠ .restart) :
    (σ.handle q).1.placer.clock =
      if q.isTick then σ.placer.clock.tick.1 else σ.placer.clock := by
  cases q with
  | tick =>
      show σ.placer.tick.1.clock = _
      rw [Placer.tick_eq]
      cases σ.placer.clock.tick.2 <;> rfl
  | record a b d => exact σ.placer.record_clock a b d
  | cool factor => exact σ.placer.cool_clock factor
  | belongsFast k => exact σ.placer.belongsFast_clock k
  | load => exact σ.placer.load_clock σ.folder
  | restart => exact absurd rfl hq
  | _ => rfl

/-- **Every run.** The clock counts the ticks and nothing else. -/
theorem run_clock (hP : 0 < P) (h : σ.placer.clock = .after P n) {qs : List Request}
    (hqs : ∀ q ∈ qs, q ≠ .restart) :
    (σ.run qs).1.placer.clock = .after P (n + qs.countP Request.isTick) := by
  induction qs generalizing σ n with
  | nil => exact h
  | cons q qs ih =>
      have hfirst := handle_clock (σ := σ) (hqs q List.mem_cons_self)
      have hrest : ∀ q' ∈ qs, q' ≠ .restart := fun q' hq' => hqs q' (List.mem_cons_of_mem q hq')
      rw [h, Clock.tick_after hP] at hfirst
      rw [List.countP_cons]
      cases hq : q.isTick with
      | true =>
          rw [hq, if_pos rfl] at hfirst
          rw [if_pos rfl, Nat.add_comm _ 1, ← Nat.add_assoc]
          exact ih hfirst hrest
      | false =>
          rw [hq] at hfirst
          exact ih hfirst hrest

/-- The clock after a run of a placer that has just been made. -/
theorem exists_clock_after {out : Outlet} {p : Placer} {f₀ : Folder}
    (hp : Placer.new o s out = .ok p ∨ Placer.restore o s out f₀ = .ok p) (f : Folder)
    {qs : List Request} (hqs : ∀ q ∈ qs, q ≠ .restart) :
    ∃ P : Nat, s.period = P ∧ 0 < P ∧
      (run ⟨p, f⟩ qs).1.placer.clock = .after P (qs.countP Request.isTick) := by
  have hcoherent : p.Coherent o s := hp.elim Placer.new_coherent Placer.restore_coherent
  obtain ⟨-, -, -, -, hperiod, -⟩ := Settings.fault?_eq_none_iff.mp hcoherent.fault?_eq_none
  have hP : s.period = (s.period.toNat : Int) := by omega
  have hpos : 0 < s.period.toNat := by omega
  have hstart : p.clock = .after s.period.toNat 0 := by
    rw [hp.elim Placer.new_clock Placer.restore_clock, hP, Clock.start_eq hpos, ← hP]
  have hrun := run_clock (σ := ⟨p, f⟩) hpos hstart hqs
  rw [Nat.zero_add] at hrun
  exact ⟨s.period.toNat, hP, hpos, hrun⟩

/-- A tick that rings has the effect of a cooling, which succeeds. -/
theorem handle_tick_of_ring (h : σ.placer.Coherent o s) (hring : σ.placer.clock.tick.2 = true) :
    (∃ k, (σ.handle (.cool s.factor)).2 = .count k) ∧
      σ.handle .tick =
        ({ (σ.handle (.cool s.factor)).1 with
          placer := (σ.handle (.cool s.factor)).1.placer.withClock σ.placer.clock.tick.1 },
        .flag true) := by
  obtain ⟨k, hk⟩ := h.cool_ok
  have htick := σ.placer.tick_eq
  rw [if_pos hring, h.settings_eq, hk] at htick
  constructor
  · refine ⟨k, ?_⟩
    show Reply.ofCount (σ.placer.cool s.factor).2 = .count k
    rw [hk]
    rfl
  · show σ.advance σ.placer.tick .ofFlag = _
    rw [htick]
    rfl

/-- A tick that does not ring changes nothing but the clock. -/
theorem handle_tick_of_silence (hquiet : σ.placer.clock.tick.2 = false) :
    σ.handle .tick =
      ({ σ with placer := σ.placer.withClock σ.placer.clock.tick.1 }, .flag false) := by
  have htick := σ.placer.tick_eq
  rw [hquiet, if_neg Bool.false_ne_true] at htick
  show σ.advance σ.placer.tick .ofFlag = _
  rw [htick]
  rfl

/-- **The map is cooled once in every period, whatever happens in between.** Take a placer that has
just been made, new or from a saved map, and ask it for anything but a new start. After `n` ticks
there are as many steps left as the period has more than the remainder of `n`, which is between one
and the period, and the loop of a tick ends with its first attempt. The next tick succeeds and
tells whether the period divides its number. If it does, the tick has the effect of a cooling by
the factor of the settings, which succeeds, and otherwise it changes nothing but the clock. -/
theorem tick_cools_once_per_period {out : Outlet} {p : Placer} {f₀ : Folder}
    (hp : Placer.new o s out = .ok p ∨ Placer.restore o s out f₀ = .ok p) (f : Folder)
    {qs : List Request} (hqs : ∀ q ∈ qs, q ≠ .restart) :
    let σ := (run ⟨p, f⟩ qs).1
    let n := qs.countP Request.isTick
    let clock := σ.placer.clock
    let ticked := σ.handle .tick
    let cooled := σ.handle (.cool s.factor)
    ((clock.remaining : Int) = s.period - n % s.period ∧ 1 ≤ clock.remaining ∧
      (clock.remaining : Int) ≤ s.period) ∧
    (∀ attempts r, clock.DoneAfter attempts r ↔ attempts = 0 ∧ r = clock.tick) ∧
    ticked.2 = .flag (decide (s.period ∣ n + 1)) ∧
    (s.period ∣ n + 1 → (∃ k, cooled.2 = .count k) ∧
      ticked.1 = { cooled.1 with placer := cooled.1.placer.withClock clock.tick.1 }) ∧
    (¬ s.period ∣ n + 1 →
      ticked.1 = { σ with placer := σ.placer.withClock clock.tick.1 }) := by
  intro σ n clock ticked cooled
  have hcoherent : p.Coherent o s := hp.elim Placer.new_coherent Placer.restore_coherent
  have hσ : σ.placer.Coherent o s := run_coherent (σ := ⟨p, f⟩) hcoherent qs
  obtain ⟨P, hP, hpos, hclock⟩ : ∃ P : Nat, s.period = P ∧ 0 < P ∧ clock = .after P n :=
    exists_clock_after hp f hqs
  have hmod : n % P < P := Nat.mod_lt n hpos
  have hleft : clock.remaining = P - n % P := by rw [hclock]; rfl
  have hdvd : s.period ∣ n + 1 ↔ P ∣ n + 1 := by
    rw [hP]
    exact_mod_cast Int.natCast_dvd_natCast
  have hrang : clock.tick.2 = decide (s.period ∣ n + 1) := by
    rw [hclock, Clock.tick_after hpos, decide_eq_decide, hdvd]
  refine ⟨⟨?_, ?_, ?_⟩, fun attempts r => ?_, ?_, fun hring => ?_, fun hquiet => ?_⟩
  · rw [hleft, hP, Int.ofNat_sub (Nat.le_of_lt hmod), Int.natCast_emod]
  · omega
  · omega
  · rw [hclock, Clock.doneAfter_iff (Clock.step?_after hpos n), Clock.tick_after hpos]
  · rw [← hrang]
    cases hring : clock.tick.2 with
    | true => exact congrArg Prod.snd (handle_tick_of_ring hσ hring).2
    | false => exact congrArg Prod.snd (handle_tick_of_silence hring)
  · obtain ⟨hcool, htick⟩ := handle_tick_of_ring hσ (hrang.trans (decide_eq_true hring))
    exact ⟨hcool, congrArg Prod.fst htick⟩
  · exact congrArg Prod.fst (handle_tick_of_silence (hrang.trans (decide_eq_false hquiet)))

/-- With a period of three, the third tick is the first to cool, although a cooling out of turn and
a load that failed came before it. -/
theorem tick_cools_once_per_period_third :
    let s : Settings := { target := 4, period := 3 }
    let p : Placer := ⟨s, .empty ⟨.bytewise, 4, 10, 3, .lowest, by decide, by decide, by decide,
      by decide⟩, .empty, .start 3, .ledger []⟩
    let qs : List Request := [.tick, .record [1] [5] 20, .cool .tenth, .load, .record [5] [1] 0,
      .tick, .belongsFast [3]]
    Placer.new .bytewise s (.ledger []) = .ok p ∧
      (run ⟨p, .missing⟩ qs).1.placer.clock.remaining = 1 ∧
      ((run ⟨p, .missing⟩ qs).1.handle .tick).2 = .flag true ∧
      ∃ k, ((run ⟨p, .missing⟩ qs).1.handle (.cool s.factor)).2 = .count k := by
  intro s p qs
  have hp : Placer.new .bytewise s (.ledger []) = .ok p :=
    Placer.new_eq_ok (by decide +kernel) rfl _
  have hmade : Placer.new .bytewise s (.ledger []) = .ok p ∨
      Placer.restore .bytewise s (.ledger []) .missing = .ok p := .inl hp
  have hqs : ∀ q ∈ qs, q ≠ .restart := by simp [qs]
  have hcount : qs.countP Request.isTick = 2 := rfl
  obtain ⟨⟨hleft, -, -⟩, -, hflag, hcool, -⟩ :=
    tick_cools_once_per_period hmade .missing hqs
  have hdvd : s.period ∣ ((2 : Nat) : Int) + 1 := by decide
  have hsteps : s.period - ((2 : Nat) : Int) % s.period = 1 := by decide
  rw [hcount] at hleft hflag hcool
  rw [hsteps] at hleft
  rw [decide_eq_true hdvd] at hflag
  exact ⟨hp, Int.natCast_inj.mp hleft, hflag, (hcool hdvd).1⟩

end Session

end TierIndex
