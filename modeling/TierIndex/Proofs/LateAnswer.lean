import TierIndex.Proofs.Coherence

set_option autoImplicit false

/-! # Late answers

An answer may be computed from the map at one time and handed to the memo at another, with any
requests in between. The memo takes it only if no new generation has begun. That is enough, because
whatever may change the side of a key begins a new generation, and what does not begin one (a
merge, a confirmed tier, a request that fails) leaves the side of every key as it was
(`Session.handle_follows`). So between two equal generation numbers either no key has changed its
side, or the number has gone once around.
-/

namespace TierIndex

/-! ## One request -/

/-- From `p` to `p'` a new generation begins, or every key stays on its side. -/
def Placer.Follows (p p' : Placer) : Prop :=
  p'.memo.generation = p.memo.generation + 1 ∨
    (p'.memo.generation = p.memo.generation ∧ ∀ k, p'.map.HotAt k ↔ p.map.HotAt k)

namespace Placer

variable {o : KeyOrder} {s : Settings} {p p' : Placer}

theorem Follows.refl (p : Placer) : p.Follows p := Or.inr ⟨rfl, fun _ => Iff.rfl⟩

/-- What keeps the map and the generation. -/
theorem Follows.of_eq (hm : p'.map = p.map) (hg : p'.memo.generation = p.memo.generation) :
    p.Follows p' := by
  refine Or.inr ⟨hg, fun k => ?_⟩
  rw [hm]

theorem record_follows (p : Placer) (a b : Key) (d : Int) : p.Follows (p.record a b d).1 := by
  unfold record
  cases p.map.access a b d with
  | error e => exact Follows.refl p
  | ok out => exact Or.inl rfl

theorem cool_follows (p : Placer) (factor : Double) : p.Follows (p.cool factor).1 := by
  unfold cool
  cases p.map.cool factor with
  | error e => exact Follows.refl p
  | ok r => exact Or.inl rfl

theorem tick_follows (p : Placer) : p.Follows p.tick.1 := by
  unfold tick
  obtain ⟨clock, rang⟩ := p.clock.tick
  cases rang with
  | false => exact Follows.refl p
  | true => exact cool_follows { p with clock } p.settings.factor

theorem load_follows (p : Placer) (f : Folder) : p.Follows (p.load f).1 := by
  unfold load
  cases p.map.load f with
  | error e => exact Follows.refl p
  | ok r => exact Or.inl rfl

/-- A question may fill the memo, but never begins a generation. -/
theorem belongsFast_follows (p : Placer) (k : Key) : p.Follows (p.belongsFast k).1 := by
  unfold belongsFast
  cases p.memo.lookup p.order k with
  | some b => exact Follows.refl p
  | none =>
      cases p.map.findUniform? k with
      | none => exact Follows.refl p
      | some r =>
          obtain ⟨z, uniform⟩ := r
          cases uniform with
          | false => exact Follows.refl p
          | true =>
              refine Follows.of_eq rfl ?_
              show (p.memo.refresh p.memo.generation z.span _).1.generation = _
              rw [Memo.refresh, if_pos rfl]

theorem Coherent.mergeHot_follows (h : p.Coherent o s) : p.Follows p.mergeHot.1 :=
  Or.inr ⟨rfl, fun k => HeatMap.hotAt_mergeHot h.intact k⟩

theorem setTier_follows (p : Placer) (a b : Key) (fast : Bool) : p.Follows (p.setTier a b fast).1 :=
  Or.inr ⟨rfl, fun k => HeatMap.hotAt_setTier p.map a b fast k⟩

end Placer

/-! ## Every run -/

/-- Fewer steps than there are generations do not come back to the first one. -/
theorem eq_zero_of_add_ofNat {g : UInt64} {n : Nat} (hn : n < UInt64.size)
    (h : g + .ofNat n = g) : n = 0 := by
  have h' := congrArg UInt64.toNat h
  rw [UInt64.toNat_add, UInt64.toNat_ofNat', Nat.mod_eq_of_lt hn] at h'
  have hg := g.toNat_lt
  unfold UInt64.size at hn
  omega

namespace Session

variable {o : KeyOrder} {s : Settings} {σ : Session}

/-- A request other than a new start begins a new generation, or every key stays on its side. -/
theorem handle_follows (h : σ.placer.Coherent o s) {q : Request} (hq : q ≠ .restart) :
    σ.placer.Follows (σ.handle q).1.placer := by
  cases q with
  | record a b d => exact σ.placer.record_follows a b d
  | setTier a b fast => exact σ.placer.setTier_follows a b fast
  | tick => exact σ.placer.tick_follows
  | cool factor => exact σ.placer.cool_follows factor
  | mergeHot => exact h.mergeHot_follows
  | flush => exact Placer.Follows.of_eq rfl rfl
  | belongsFast k => exact σ.placer.belongsFast_follows k
  | lookup k => exact Placer.Follows.refl _
  | save => exact Placer.Follows.refl _
  | load => exact σ.placer.load_follows σ.folder
  | restart => exact absurd rfl hq
  | take n => exact Placer.Follows.of_eq rfl rfl
  | disconnect => exact Placer.Follows.of_eq rfl rfl
  | arrange f => exact Placer.Follows.refl _

/-- The number of the requests that begin a new generation. -/
def renewals (σ : Session) : List Request → Nat
  | [] => 0
  | q :: qs =>
      let σ' := (σ.handle q).1
      let first := if σ'.placer.memo.generation = σ.placer.memo.generation then 0 else 1
      first + σ'.renewals qs

/-- A run counts its new generations in the memo, and without one every key stays on its side. -/
theorem run_follows (h : σ.placer.Coherent o s) {qs : List Request} (hqs : .restart ∉ qs) :
    let p := (σ.run qs).1.placer
    p.memo.generation = σ.placer.memo.generation + .ofNat (σ.renewals qs) ∧
      (σ.renewals qs = 0 → ∀ k, p.map.HotAt k ↔ σ.placer.map.HotAt k) := by
  induction qs generalizing σ with
  | nil => exact ⟨(UInt64.add_zero _).symm, fun _ _ => Iff.rfl⟩
  | cons q qs ih =>
      have hq : q ≠ .restart := fun hq => hqs (hq ▸ List.mem_cons_self)
      obtain ⟨hgen, hsame⟩ := ih (handle_coherent h q) fun hqs' => hqs (List.mem_cons_of_mem q hqs')
      rcases handle_follows h hq with hnew | ⟨hold, hkeep⟩
      · have hne : σ.placer.memo.generation + 1 ≠ σ.placer.memo.generation := fun h =>
          absurd (eq_zero_of_add_ofNat (n := 1) (by decide) h) (by decide)
        have hcount : σ.renewals (q :: qs) = 1 + (σ.handle q).1.renewals qs := by
          rw [renewals, hnew, if_neg hne]
        refine ⟨?_, fun h0 => by omega⟩
        calc ((σ.handle q).1.run qs).1.placer.memo.generation
            = σ.placer.memo.generation + 1 + .ofNat ((σ.handle q).1.renewals qs) := by
              rw [hgen, hnew]
          _ = σ.placer.memo.generation + .ofNat (σ.renewals (q :: qs)) := by
              rw [hcount, UInt64.add_assoc, UInt64.ofNat_add]
              rfl
      · have hcount : σ.renewals (q :: qs) = (σ.handle q).1.renewals qs := by
          rw [renewals, if_pos hold, Nat.zero_add]
        rw [hcount]
        refine ⟨hgen.trans (by rw [hold]), fun h0 k => ?_⟩
        exact (hsame h0 k).trans (hkeep k)

/-- **A late answer is never stale.** Whatever has been asked of a placer with usable settings
before, let the zone of a key be uniform, so that its answer holds for its whole span. After any
further requests, successful or not, and fewer new generations than there are generation numbers,
the memo is handed that answer with the generation number that was read beside it. It refuses the
answer and stays as it was, or it remembers the answer, and that is for every key of the span what
the hottest zone that now holds the key says. -/
theorem late_answer_not_stale {out : Outlet} {p : Placer} (hp : Placer.new o s out = .ok p)
    (f : Folder) (before after : List Request) (k : Key) (z : Zone)
    (hz : (run ⟨p, f⟩ before).1.placer.map.findUniform? k = some (z, true))
    (hafter : .restart ∉ after) (hfew : renewals (run ⟨p, f⟩ before).1 after < UInt64.size) :
    let σ := (run ⟨p, f⟩ before).1
    let τ := (run σ after).1
    let hot := decide (s.boiling ≤ z.heat)
    let r := τ.placer.memo.refresh σ.placer.memo.generation z.span hot
    (r.2 = false ∧ r.1 = τ.placer.memo) ∨
    (r.2 = true ∧ r.1.answer = some (z.span, hot) ∧
      ∀ k', z.span.Holds o k' →
        (hot = true ↔ ∃ y, τ.placer.map.find? k' = some y ∧ s.boiling ≤ y.heat)) := by
  intro σ τ hot r
  have hσ : σ.placer.Coherent o s := run_coherent (σ := ⟨p, f⟩) (Placer.new_coherent hp) before
  have hτ : τ.placer.Coherent o s := run_coherent hσ after
  obtain ⟨hgen, hsame⟩ := run_follows hσ hafter
  by_cases h : τ.placer.memo.generation = σ.placer.memo.generation
  · right
    have hr : r = ({ τ.placer.memo with answer := some (z.span, hot) }, true) := if_pos h
    rw [hr]
    refine ⟨rfl, rfl, fun k' hk' => ?_⟩
    have hnone : renewals σ after = 0 := eq_zero_of_add_ofNat hfew (hgen.symm.trans h)
    have hk : z.span.Holds σ.placer.order k' := by
      rw [hσ.order_eq]
      exact hk'
    calc hot = true ↔ σ.placer.map.params.Hot z := by
          rw [decide_eq_true_eq, Params.Hot, (Settings.params_eq_ok hσ.params_eq).2.1]
      _ ↔ σ.placer.map.HotAt k' := (HeatMap.findUniform?_uniform hz).2 k' hk
      _ ↔ τ.placer.map.HotAt k' := (hsame hnone k').symm
      _ ↔ ∃ y, τ.placer.map.find? k' = some y ∧ s.boiling ≤ y.heat := hτ.hotAt_iff k'
  · left
    have hr : r = (τ.placer.memo, false) := if_neg h
    rw [hr]
    exact ⟨rfl, rfl⟩

/-- A confirmed tier and a load from a missing directory begin no generation; the late answer is
remembered. After one more access it would be refused. -/
theorem late_answer_not_stale_confirmed :
    let s : Settings := { target := 2 }
    let p : Placer := ⟨s, .empty ⟨.bytewise, 2, 10, 3, .lowest, by decide, by decide, by decide,
      by decide⟩, .empty, .start 10, .ledger []⟩
    let z : Zone := ⟨⟨[1], [5]⟩, 20, false⟩
    let σ := (run ⟨p, .missing⟩ [.record [1] [5] 20]).1
    let τ := (run σ [.setTier [1] [5] true, .load]).1
    let late (q : Placer) := q.memo.refresh σ.placer.memo.generation z.span true
    (late τ.placer).2 = true ∧
      (late (τ.run [.record [1] [5] 1]).1.placer).2 = false ∧
      ∃ y, τ.placer.map.find? [4] = some y ∧ 10 ≤ y.heat := by
  intro s p z σ τ late
  have hp : Placer.new .bytewise s (.ledger []) = .ok p :=
    Placer.new_eq_ok (by decide +kernel) rfl _
  have htaken : (late τ.placer).2 = true := by decide
  have hlate := late_answer_not_stale hp .missing [.record [1] [5] 20]
    [.setTier [1] [5] true, .load] [2] z (by decide) (by simp) (by decide)
  rcases hlate with ⟨hrefused, -⟩ | ⟨-, -, hright⟩
  · exact absurd (htaken.symm.trans hrefused) (by decide)
  · exact ⟨htaken, by decide, (hright [4] (by decide)).mp rfl⟩

end Session

end TierIndex
