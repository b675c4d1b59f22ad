import TierIndex.Proofs.Reachable

set_option autoImplicit false

/-! # Which keys are confirmed fast

A key is **fast** when some zone of the fast tier holds it. No request makes a key fast, except
the one that confirms it:

* an access clears the tier of a zone that it widens, and a new zone starts outside the fast tier;
* a merge ends in the fast tier only if all its zones were there, and it adds no key between them;
* a piece of a split is part of the zone whose tier it takes, and the shared piece is fast only if
  both zones were.

So in every run without loads the fast keys lie in spans that were confirmed on the way
(`fast_only_if_confirmed`).
-/

namespace TierIndex

/-! ## Pieces and merged zones -/

section

variable {o : KeyOrder} {a b u z : Zone} {l : List (Nat × Zone)} {k : Key}

/-- A key of a fast piece lies in a fast one of the two zones. -/
theorem fast_of_has (h : a.span.Meets o b.span) (hz : (pieces o a b).Has z) (hfast : z.fast = true)
    (hk : z.span.Holds o k) :
    (a.fast = true ∧ a.span.Holds o k) ∨ (b.fast = true ∧ b.span.Holds o k) := by
  have hcut : CutFrom o a b z ∨ CutFrom o b a z →
      (a.fast = true ∧ a.span.Holds o k) ∨ (b.fast = true ∧ b.span.Holds o k) := by
    rintro (hc | hc)
    · exact Or.inl ⟨hc.fast_eq.symm.trans hfast, hc.covers.holds hk⟩
    · exact Or.inr ⟨hc.fast_eq.symm.trans hfast, hc.covers.holds hk⟩
  rcases hz with rfl | rfl | rfl
  · exact hcut (head_cut h)
  · have hboth : (a.fast && b.fast) = true := hfast
    exact Or.inl ⟨((Bool.and_eq_true _ _).mp hboth).1, (holds_shared_iff.mp hk).1⟩
  · exact hcut (tail_cut h)

theorem absorbAll_fast :
    (absorbAll o u l).fast = true ↔ u.fast = true ∧ ∀ e ∈ l, e.2.fast = true := by
  induction l generalizing u with
  | nil => simp [absorbAll]
  | cons e l ih =>
      have habsorb : (u.absorb o e.2).fast = true ↔ u.fast = true ∧ e.2.fast = true :=
        Bool.and_eq_true _ _ ▸ Iff.rfl
      show (absorbAll o (u.absorb o e.2) l).fast = true ↔ _
      rw [ih, habsorb, List.forall_mem_cons, and_assoc]

/-- A merge ends in the fast tier exactly if all its zones are there. -/
theorem gather_fast :
    (gather o u l).1.fast = true ↔ u.fast = true ∧ ∀ e ∈ (gather o u l).2, e.2.fast = true := by
  fun_induction gather o u l with
  | case1 u l h => simp
  | case2 u l h round r ih =>
      have hround : (absorbAll o u round).fast = true ↔ u.fast = true ∧ ∀ e ∈ round, e.2.fast = true :=
        absorbAll_fast
      rw [ih, hround, and_assoc, List.forall_mem_append]

end

namespace HeatMap

/-- Some zone of the fast tier holds the key. -/
def FastAt (m : HeatMap) (k : Key) : Prop :=
  ∃ i z, m.at? i = some z ∧ z.fast = true ∧ z.span.Holds m.order k

/-- The zone is not in the fast tier, or all its keys are fast. -/
def Backed (m : HeatMap) (z : Zone) : Prop :=
  z.fast = true → ∀ k, z.span.Holds m.order k → m.FastAt k

section

variable {m m' : HeatMap} {i j : Nat} {u a b y z : Zone} {k : Key}

theorem backed_of_at? (hz : m.at? i = some z) : m.Backed z :=
  fun hfast _ hk => ⟨i, z, hz, hfast, hk⟩

/-- A part of a zone, of the same tier, is backed by the zone. -/
theorem Backed.of_covers (hy : m.Backed y) (hcov : y.span.Covers m.order z.span)
    (hfast : z.fast = true → y.fast = true) : m.Backed z :=
  fun hz k hk => hy (hfast hz) k (hcov.holds hk)

/-- No key becomes fast where every zone is backed by the zones before. -/
theorem fastAt_of_backed (hp : m'.params = m.params)
    (h : ∀ i z, m'.at? i = some z → m.Backed z) (hk : m'.FastAt k) : m.FastAt k := by
  obtain ⟨i, z, hz, hfast, hkz⟩ := hk
  have ho : m'.order = m.order := congrArg Params.order hp
  rw [ho] at hkz
  exact h i z hz hfast k hkz

/-! ## Settling and merging -/

theorem fastAt_splitAt (hij : i ≠ j) (ha : m.at? i = some a) (hb : m.at? j = some b)
    (hmeets : a.span.Meets m.order b.span) (hk : (m.splitAt i a j b).FastAt k) : m.FastAt k := by
  apply fastAt_of_backed (splitAt_params m i a j b) _ hk
  intro l z hz
  rcases at?_splitAt_cases hij ha hb rfl hz with hpiece | ⟨-, -, hold⟩
  · intro hfast k hkz
    rcases fast_of_has hmeets hpiece.has hfast hkz with ⟨hfasta, hka⟩ | ⟨hfastb, hkb⟩
    · exact ⟨i, a, ha, hfasta, hka⟩
    · exact ⟨j, b, hb, hfastb, hkb⟩
  · exact backed_of_at? hold

theorem fastAt_mergeAt (h : m.Intact) (hu : m.at? i = some u) (hk : (m.mergeAt i).1.FastAt k) :
    m.FastAt k := by
  apply fastAt_of_backed (mergeAt_params m i) _ hk
  intro l z hz
  rcases at?_mergeAt_cases h hu hz with ⟨-, rfl⟩ | ⟨-, hold, -⟩
  · intro hfast k hkz
    obtain ⟨hfastu, hfastl⟩ := gather_fast.mp hfast
    rcases holds_gather.mp hkz with hku | ⟨⟨j, y⟩, he, hky⟩
    · exact ⟨i, u, hu, hfastu, hku⟩
    · exact ⟨j, y, ((mem_absorbed h).mp he).1, hfastl _ he, hky⟩
  · exact backed_of_at? hold

theorem fastAt_settle (h : m.Intact) (hu : m.at? i = some u) (hk : (m.settle i).FastAt k) :
    m.FastAt k := by
  rcases settle_cases hu with ⟨hs, -⟩ | ⟨j, v, hs, -, hv, -, hij, hmeets, -⟩ | hs
  · rwa [hs] at hk
  · rw [hs] at hk
    exact fastAt_splitAt hij hu hv hmeets hk
  · rw [hs] at hk
    exact fastAt_mergeAt h hu hk

theorem fastAt_mergeHot (h : m.Intact) (hk : m.mergeHot.1.FastAt k) : m.FastAt k := by
  have hpass := mergeHot_induction h (P := fun m' => m'.FastAt k → m.FastAt k) id
    fun m' i u h' _ ih hu _ hk' => ih (fastAt_mergeAt h' hu hk')
  exact hpass.2.2 hk

/-! ## Accesses -/

/-- The zone that comes out of receiving an access is backed: it is fast only if it is one that
was fast already and has not grown. -/
theorem Reception.backed {s : Span} {d : Int} {r : Receipt} {new : Option Zone}
    (hrec : Reception m s d r i new) (hz : new = some z) : m.Backed z := by
  cases hrec with
  | spent => cases hz
  | shifted hy =>
      cases hz
      exact (backed_of_at? hy).of_covers (Span.covers_refl _ _) id
  | joined =>
      cases hz
      intro hfast
      cases hfast
  | widened hy =>
      cases hz
      intro hfast
      obtain ⟨hfasty, hcov⟩ := (Bool.and_eq_true _ _).mp hfast
      -- a zone that covers the span is widened to itself
      have hsame := Span.covers_union_iff.mpr ⟨Span.covers_refl _ _, of_decide_eq_true hcov⟩
      exact (backed_of_at? hy).of_covers hsame (fun _ => hfasty) hfast
  | fresh =>
      cases hz
      intro hfast
      cases hfast

theorem fastAt_access (h : m.Intact) {a b : Key} {d : Int} {out : Outcome}
    (hout : m.access a b d = .ok out) (hk : out.map.FastAt k) : m.FastAt k := by
  obtain ⟨r, hr, rfl⟩ := access_eq_ok hout
  obtain ⟨i, new, hrec⟩ := receive_cases hr
  have hone := hrec.receives h (Span.between_proper m.order a b)
  have hreceived : r.map.FastAt k := by
    rcases hone.settled_cases with ⟨hsame, -⟩ | ⟨u, hnew, -, hsettled⟩
    · exact hsame ▸ hk
    · have hu : r.map.at? i = some u := hone.write.at?_self.trans hnew
      have hk' : r.settled.FastAt k := hk
      rw [hsettled] at hk'
      exact fastAt_settle (hone.write.intact h) hu hk'
  apply fastAt_of_backed hone.write.params _ hreceived
  intro j z hz
  rw [hone.write.at?] at hz
  split at hz
  · exact hrec.backed hz
  · exact backed_of_at? hz

/-! ## Confirming and cooling -/

/-- Confirming makes a key fast only if it confirms it. -/
theorem fastAt_setTier {c d : Key} {fast : Bool} (hk : (m.setTier c d fast).1.FastAt k) :
    m.FastAt k ∨ (fast = true ∧ (Span.between m.order c d).Holds m.order k) := by
  obtain ⟨i, z, hz, hfast, hkz⟩ := hk
  rw [at?_of_slots (setTier_slots m c d fast)] at hz
  obtain ⟨y, hy, hmark⟩ := Option.bind_eq_some_iff.mp hz
  cases hmark
  rw [markTier_span] at hkz
  unfold markTier at hfast
  split at hfast
  · next hcov => exact Or.inr ⟨hfast, hcov.holds hkz⟩
  · exact Or.inl ⟨i, y, hy, hfast, hkz⟩

theorem fastAt_decayBy {decay : Int → Int} (hk : (m.decayBy decay).1.FastAt k) : m.FastAt k := by
  obtain ⟨i, z, hz, hfast, hkz⟩ := hk
  rw [at?_of_slots (m := m) rfl] at hz
  obtain ⟨y, hy, hcool⟩ := Option.bind_eq_some_iff.mp hz
  obtain ⟨-, rfl⟩ := coolSlot_eq_some.mp hcool
  exact ⟨i, y, hy, hfast, hkz⟩

end

/-! ## Every run -/

/-- **One request.** A key that is fast afterwards was fast before, or it has just been
confirmed. -/
theorem fastAt_serve {m : HeatMap} (h : m.Intact) {q : MapRequest} {k : Key}
    (hk : (m.serve q).FastAt k) :
    m.FastAt k ∨ ∃ a b, q = .setTier a b true ∧ (Span.between m.order a b).Holds m.order k := by
  cases q with
  | access a b d =>
      cases hout : m.access a b d with
      | error e =>
          rw [serve, hout] at hk
          exact Or.inl hk
      | ok out =>
          rw [serve, hout] at hk
          exact Or.inl (fastAt_access h hout hk)
  | setTier a b fast =>
      rcases fastAt_setTier hk with hold | ⟨rfl, hin⟩
      · exact Or.inl hold
      · exact Or.inr ⟨a, b, rfl, hin⟩
  | cool factor =>
      cases hcool : m.cool factor with
      | error e =>
          rw [serve, hcool] at hk
          exact Or.inl hk
      | ok r =>
          obtain ⟨m', frozen⟩ := r
          obtain ⟨-, hdecay⟩ := cool_eq_ok hcool
          rw [serve, hcool] at hk
          have hk' : (m.decayBy (cooledHeat factor)).1.FastAt k := by
            rw [hdecay]
            exact hk
          exact Or.inl (fastAt_decayBy hk')
  | decay c => exact Or.inl (fastAt_decayBy hk)
  | mergeHot => exact Or.inl (fastAt_mergeHot h hk)

/-- The map after several requests, one after the other. -/
def serveAll (m : HeatMap) (qs : List MapRequest) : HeatMap := qs.foldl serve m

/-- **Several requests.** A key that is fast afterwards was fast before, or it has been confirmed
on the way. -/
theorem fastAt_serveAll {m : HeatMap} (h : m.Intact) {qs : List MapRequest} {k : Key}
    (hk : (m.serveAll qs).FastAt k) :
    m.FastAt k ∨
      ∃ a b, .setTier a b true ∈ qs ∧ (Span.between m.order a b).Holds m.order k := by
  induction qs generalizing m with
  | nil => exact Or.inl hk
  | cons q qs ih =>
      have ho : (m.serve q).order = m.order := congrArg Params.order (serve_params h q)
      rcases ih (h.serve q) hk with hone | ⟨a, b, hmem, hin⟩
      · rcases fastAt_serve h hone with hold | ⟨a, b, rfl, hin⟩
        · exact Or.inl hold
        · exact Or.inr ⟨a, b, List.mem_cons_self, hin⟩
      · rw [ho] at hin
        exact Or.inr ⟨a, b, List.mem_cons_of_mem q hmem, hin⟩

theorem not_fastAt_empty (p : Params) (k : Key) : ¬ (HeatMap.empty p).FastAt k := by
  rintro ⟨i, z, hz, -, -⟩
  rw [at?_empty] at hz
  cases hz

/-- **No key is fast unless it has been confirmed.** In a reachable map only the confirming of a
span makes keys fast: a key that is fast after any other request was fast before it. So after a run
that starts from an empty map and loads nothing, every fast key lies in a span that was confirmed
in the run. -/
theorem fast_only_if_confirmed :
    (∀ (m : HeatMap) (q : MapRequest) (k : Key), m.Reachable →
      (∀ a b, q ≠ .setTier a b true) → (m.serve q).FastAt k → m.FastAt k) ∧
    (∀ (p : Params) (qs : List MapRequest) (k : Key), ((empty p).serveAll qs).FastAt k →
      ∃ a b, .setTier a b true ∈ qs ∧ (Span.between p.order a b).Holds p.order k) := by
  constructor
  · intro m q k hm hq hk
    rcases fastAt_serve hm.intact hk with hold | ⟨a, b, heq, -⟩
    · exact hold
    · exact absurd heq (hq a b)
  · intro p qs k hk
    exact (fastAt_serveAll (Intact.empty p) hk).resolve_left (not_fastAt_empty p k)

/-- A fast zone is split by an access that overlaps it; what lies beyond the confirmed span is not
fast. -/
theorem fast_only_if_confirmed_split :
    let p : Params := ⟨.bytewise, 4, 10, 3, .lowest, by decide, by decide, by decide, by decide⟩
    let qs : List MapRequest := [.access [1] [5] 20, .setTier [1] [5] true]
    let m := (empty p).serveAll qs
    (m.serve (.access [3] [9] 30)).zones =
        [⟨⟨[1], [3]⟩, 20, true⟩, ⟨⟨[5], [9]⟩, 30, false⟩, ⟨⟨[3], [5]⟩, 50, false⟩] ∧
      (m.serve (.access [3] [9] 30)).FastAt [2] ∧ m.FastAt [2] ∧
      ∃ a b, .setTier a b true ∈ qs ∧ (Span.between .bytewise a b).Holds .bytewise [2] := by
  intro p qs m
  have hm : m.Reachable :=
    ((Reachable.empty p).serve (.access [1] [5] 20)).serve (.setTier [1] [5] true)
  have hfast : (m.serve (.access [3] [9] 30)).FastAt [2] :=
    ⟨0, ⟨⟨[1], [3]⟩, 20, true⟩, by decide, by decide, by decide⟩
  have hbefore : m.FastAt [2] :=
    fast_only_if_confirmed.1 m (.access [3] [9] 30) [2] hm nofun hfast
  exact ⟨by decide, hfast, hbefore, fast_only_if_confirmed.2 p qs [2] hbefore⟩

end HeatMap

end TierIndex
