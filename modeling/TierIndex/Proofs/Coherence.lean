import TierIndex.Placer.Session
import TierIndex.Proofs.Cooling
import TierIndex.Proofs.HotKeys
import TierIndex.Proofs.Reachable

set_option autoImplicit false

/-! # The memo never goes stale

A placer answers from its memo where it can, and the memo is not told of every change of the
map. It need not be: merging and confirming change no answer, an access changes none outside
the span for which the memo is asked to drop its answer, and after a cooling or a load nothing
is remembered. So the remembered answer is right for every key of its span
(`Placer.Coherent`), after every request, whether it succeeds or fails, and the placer answers
for every key what its map alone would answer.
-/

namespace TierIndex

/-! ## The memo -/

namespace Memo

variable {m : Memo} {o : KeyOrder} {s t : Span} {b : Bool} {k : Key}

theorem lookup_eq_some : m.lookup o k = some b ↔ ∃ s, m.answer = some (s, b) ∧ s.Holds o k := by
  unfold lookup
  cases h : m.answer with
  | none => simp
  | some a =>
      obtain ⟨s, c⟩ := a
      dsimp only
      constructor
      · intro hk
        split at hk
        · next hs =>
            cases hk
            exact ⟨s, rfl, hs⟩
        · cases hk
      · rintro ⟨s', heq, hk⟩
        cases heq
        exact if_pos hk

theorem dropMeeting_answer (h : (m.dropMeeting o t).answer = some (s, b)) :
    m.answer = some (s, b) ∧ ¬ s.Meets o t := by
  obtain ⟨hold, hkeep⟩ := Option.filter_eq_some_iff.mp h
  exact ⟨hold, of_decide_eq_true hkeep⟩

theorem refresh_answer (m : Memo) (s : Span) (b : Bool) :
    (m.refresh m.generation s b).1.answer = some (s, b) := by
  rw [refresh, if_pos rfl]

end Memo

/-! ## Settings and parameters -/

theorem Settings.params_eq_ok {s : Settings} {o : KeyOrder} {p : Params} (h : s.params o = .ok p) :
    p.order = o ∧ p.boiling = s.boiling ∧ p.freezing = s.freezing := by
  unfold Settings.params at h
  split at h
  · cases h
  · unfold Params.make at h
    split at h
    · cases h
    · split at h
      · cases h
      · split at h
        · cases h
        · cases h
          exact ⟨rfl, rfl, rfl⟩

namespace Placer

/-- The placer runs under the given order and settings, its map is intact, and the remembered
answer is the right one for every key of its span. -/
structure Coherent (o : KeyOrder) (s : Settings) (p : Placer) : Prop where
  settings_eq : p.settings = s
  params_eq : s.params o = .ok p.map.params
  intact : p.map.Intact
  remembered : ∀ t b, p.memo.answer = some (t, b) → ∀ k, t.Holds p.order k →
    (b = true ↔ p.map.HotAt k)

section

variable {o : KeyOrder} {s : Settings} {p p' : Placer}

theorem Coherent.order_eq (h : p.Coherent o s) : p.order = o := (Settings.params_eq_ok h.params_eq).1

theorem Coherent.hotAt_iff (h : p.Coherent o s) (k : Key) :
    p.map.HotAt k ↔ ∃ z, p.map.find? k = some z ∧ s.boiling ≤ z.heat := by
  have hboiling : p.map.params.boiling = s.boiling := (Settings.params_eq_ok h.params_eq).2.1
  simp only [← HeatMap.find?_hot_iff, Params.Hot, hboiling]

/-- **What keeps a placer coherent.** A new map may only be intact, and a remembered answer may
only stay where it does not change. -/
theorem Coherent.of_map (h : p.Coherent o s) (hs : p'.settings = p.settings)
    (hp : p'.map.params = p.map.params) (hm : p'.map.Intact)
    (hmemo : ∀ t b, p'.memo.answer = some (t, b) → p.memo.answer = some (t, b) ∧
      ∀ k, t.Holds p.order k → (p'.map.HotAt k ↔ p.map.HotAt k)) : p'.Coherent o s where
  settings_eq := hs.trans h.settings_eq
  params_eq := by
    rw [hp]
    exact h.params_eq
  intact := hm
  remembered := by
    intro t b ht k hk
    have horder : p'.order = p.order := congrArg Params.order hp
    rw [horder] at hk
    obtain ⟨hold, hsame⟩ := hmemo t b ht
    rw [hsame k hk]
    exact h.remembered t b hold k hk

/-- What changes neither the map nor the memo keeps a placer coherent. -/
theorem Coherent.of_eq (h : p.Coherent o s) (hs : p'.settings = p.settings) (hm : p'.map = p.map)
    (hmemo : p'.memo = p.memo) : p'.Coherent o s := by
  refine h.of_map hs (congrArg HeatMap.params hm) (hm ▸ h.intact) fun t b ht => ⟨hmemo ▸ ht, ?_⟩
  intro k _
  rw [hm]

/-! ## Answers -/

/-- **One question.** The answer is that of the map, and a remembered answer is right for every
key. -/
theorem Coherent.belongsFast (h : p.Coherent o s) (k : Key) :
    ((p.belongsFast k).2 = true ↔ p.map.HotAt k) ∧ (p.belongsFast k).1.Coherent o s := by
  unfold Placer.belongsFast
  cases hlookup : p.memo.lookup p.order k with
  | some b =>
      -- the memo answers, and what it remembers is right
      obtain ⟨t, ht, hk⟩ := Memo.lookup_eq_some.mp hlookup
      exact ⟨h.remembered t b ht k hk, h⟩
  | none =>
      dsimp only
      cases hfind : p.map.findUniform? k with
      | none =>
          have hnone := HeatMap.findUniform?_eq_none.mp hfind
          refine ⟨?_, h⟩
          rw [← HeatMap.find?_hot_iff, hnone]
          simp
      | some r =>
          obtain ⟨z, uniform⟩ := r
          have hz := HeatMap.findUniform?_find? hfind
          have hanswer : decide (p.map.params.Hot z) = true ↔ p.map.HotAt k := by
            rw [decide_eq_true_eq]
            exact HeatMap.hot_iff_of_find? hz
          cases uniform with
          | false => exact ⟨hanswer, h⟩
          | true =>
              -- the answer is remembered for the whole zone
              refine ⟨hanswer, h.settings_eq, h.params_eq, h.intact, ?_⟩
              intro t b ht k' hk'
              have ht' : some (z.span, decide (p.map.params.Hot z)) = some (t, b) :=
                (Memo.refresh_answer p.memo z.span _).symm.trans ht
              cases ht'
              rw [decide_eq_true_eq]
              exact (HeatMap.findUniform?_uniform hfind).2 k' hk'

/-! ## Changes -/

theorem Coherent.send (h : p.Coherent o s) (vs : List Move) : (p.send vs).Coherent o s :=
  h.of_eq rfl rfl rfl

theorem Coherent.record (h : p.Coherent o s) (a b : Key) (d : Int) :
    (p.record a b d).1.Coherent o s := by
  unfold Placer.record
  cases hout : p.map.access a b d with
  | error e => exact h
  | ok out =>
      have hchanged : Coherent o s
          { p with map := out.map, memo := p.memo.dropMeeting p.order out.span } := by
        refine h.of_map rfl (HeatMap.access_params h.intact hout) (h.intact.access hout)
          fun t c ht => ?_
        obtain ⟨hold, hoff⟩ := Memo.dropMeeting_answer ht
        refine ⟨hold, fun k hk => HeatMap.hotAt_access h.intact hout fun hk' => ?_⟩
        -- a key of both spans would have made the memo drop its answer
        exact hoff (Span.meets_of_holds hk hk')
      exact hchanged.send _

theorem Coherent.cool (h : p.Coherent o s) (factor : Double) :
    (p.cool factor).1.Coherent o s := by
  unfold Placer.cool
  cases hcool : p.map.cool factor with
  | error e => exact h
  | ok r =>
      obtain ⟨m, frozen⟩ := r
      obtain ⟨-, hdecay⟩ := HeatMap.cool_eq_ok hcool
      have hparams : m.params = p.map.params :=
        (congrArg (fun r => r.1.params) hdecay).symm
      have hcooled : Coherent o s { p with map := m, memo := p.memo.clear } :=
        h.of_map rfl hparams (h.intact.cool hcool) fun _ _ ht => nomatch ht
      exact hcooled.send _

theorem Coherent.tick (h : p.Coherent o s) : p.tick.1.Coherent o s := by
  have hclock : ∀ c, Coherent o s { p with clock := c } := fun c => h.of_eq rfl rfl rfl
  unfold Placer.tick
  obtain ⟨c, rang⟩ := p.clock.tick
  cases rang with
  | false => exact hclock c
  | true => exact (hclock c).cool p.settings.factor

theorem Coherent.mergeHot (h : p.Coherent o s) : p.mergeHot.1.Coherent o s :=
  h.of_map rfl (HeatMap.mergeHot_params h.intact) h.intact.mergeHot fun _ _ ht =>
    ⟨ht, fun k _ => HeatMap.hotAt_mergeHot h.intact k⟩

theorem Coherent.setTier (h : p.Coherent o s) (a b : Key) (fast : Bool) :
    (p.setTier a b fast).1.Coherent o s :=
  h.of_map rfl rfl (h.intact.setTier a b fast) fun _ _ ht =>
    ⟨ht, fun k _ => HeatMap.hotAt_setTier p.map a b fast k⟩

theorem Coherent.load (h : p.Coherent o s) (f : Folder) : (p.load f).1.Coherent o s := by
  unfold Placer.load
  cases hload : p.map.load f with
  | error e => exact h
  | ok r =>
      obtain ⟨m, n⟩ := r
      have hm : m = p.map.reload f := by rw [HeatMap.reload, hload]
      refine h.of_map rfl ?_ ?_ fun t b ht => nomatch ht
      · show m.params = p.map.params
        rw [hm, HeatMap.reload_params]
      · show m.Intact
        rw [hm]
        exact h.intact.reload f

/-! ## New starts -/

theorem new_eq_ok {q : Params} (hs : s.fault? = none)
    (hq : Params.make o s.target s.boiling s.freezing s.policy = .ok q) (out : Outlet) :
    new o s out = .ok ⟨s, .empty q, .empty, .start s.period, out⟩ := by
  unfold new Settings.params
  rw [hs]
  dsimp only
  rw [hq]
  rfl

theorem new_coherent {out : Outlet} (hp : new o s out = .ok p) : p.Coherent o s := by
  obtain ⟨q, hq, rfl⟩ := map_eq_ok.mp hp
  exact ⟨rfl, hq, HeatMap.Intact.empty q, fun _ _ ht => nomatch ht⟩

theorem restore_coherent {out : Outlet} {f : Folder} (hp : restore o s out f = .ok p) :
    p.Coherent o s := by
  unfold restore at hp
  split at hp
  · cases hp
  · next q hq =>
      have hnew := new_coherent hq
      split at hp
      · cases hp
        exact hnew
      · split at hp
        · cases hp
        · next hload =>
            cases hp
            have hcoherent := hnew.load f
            rw [hload] at hcoherent
            exact hcoherent

end

end Placer

/-! ## Every run -/

namespace Session

variable {o : KeyOrder} {s : Settings} {σ : Session}

theorem handle_coherent (h : σ.placer.Coherent o s) (q : Request) :
    (σ.handle q).1.placer.Coherent o s := by
  cases q with
  | record a b d => exact h.record a b d
  | setTier a b fast => exact h.setTier a b fast
  | tick => exact h.tick
  | cool factor => exact h.cool factor
  | mergeHot => exact h.mergeHot
  | flush => exact h.send _
  | belongsFast k => exact (h.belongsFast k).2
  | lookup k => exact h
  | save => exact h
  | load => exact h.load σ.folder
  | restart =>
      unfold handle
      dsimp only
      split
      · exact h
      · next hrestore =>
          have hcoherent := Placer.restore_coherent hrestore
          rw [h.order_eq, h.settings_eq] at hcoherent
          exact hcoherent
  | take n => exact h.of_eq rfl rfl rfl
  | disconnect => exact h.of_eq rfl rfl rfl
  | arrange f => exact h

theorem run_coherent (h : σ.placer.Coherent o s) (qs : List Request) :
    (σ.run qs).1.placer.Coherent o s := by
  induction qs generalizing σ with
  | nil => exact h
  | cons q qs ih => exact ih (handle_coherent h q)

/-- **Asking the placer is asking its map.** Whatever has been asked of a placer with usable
settings before, it answers for every key what the hottest zone that holds the key says, and
what it remembers is what that zone says for every key of the remembered span. -/
theorem belongsFast_iff_find {out : Outlet} {p : Placer} (hp : Placer.new o s out = .ok p)
    (f : Folder) (qs : List Request) :
    let q := (run ⟨p, f⟩ qs).1.placer
    (∀ k, (q.belongsFast k).2 = true ↔ ∃ z, q.map.find? k = some z ∧ s.boiling ≤ z.heat) ∧
    ∀ t b, q.memo.answer = some (t, b) → ∀ k, t.Holds o k →
      (b = true ↔ ∃ z, q.map.find? k = some z ∧ s.boiling ≤ z.heat) := by
  intro q
  have h : q.Coherent o s := run_coherent (σ := ⟨p, f⟩) (Placer.new_coherent hp) qs
  have hboiling : q.map.params.boiling = s.boiling := (Settings.params_eq_ok h.params_eq).2.1
  have hot : ∀ k, q.map.HotAt k ↔ ∃ z, q.map.find? k = some z ∧ s.boiling ≤ z.heat := by
    intro k
    simp only [← HeatMap.find?_hot_iff, Params.Hot, hboiling]
  constructor
  · intro k
    rw [(h.belongsFast k).1, hot]
  · intro t b ht k hk
    rw [← h.order_eq] at hk
    rw [h.remembered t b ht k hk, hot]

/-- The second access splits the zone that is remembered, far beyond the remembered answer. -/
theorem belongsFast_iff_find_split :
    let s : Settings := { target := 2 }
    let p : Placer := ⟨s, .empty ⟨.bytewise, 2, 10, 3, .lowest, by decide, by decide, by decide,
      by decide⟩, .empty, .start 10, .ledger []⟩
    let q := (run ⟨p, .missing⟩ [.record [1] [5] 20, .belongsFast [2], .record [3] [9] 30]).1.placer
    Placer.new .bytewise s (.ledger []) = .ok p ∧ (q.belongsFast [7]).2 = true ∧
      ∃ z, q.map.find? [7] = some z ∧ 10 ≤ z.heat := by
  intro s p q
  have hfault : s.fault? = none := by decide +kernel
  have hp : Placer.new .bytewise s (.ledger []) = .ok p := by
    unfold Placer.new Settings.params
    rw [hfault]
    rfl
  have hfast : (q.belongsFast [7]).2 = true := by decide
  exact ⟨hp, hfast, ((belongsFast_iff_find hp _ _).1 [7]).mp hfast⟩

end Session

end TierIndex
