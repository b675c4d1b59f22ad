import TierIndex.Proofs.Checkpoint
import TierIndex.Proofs.Coherence

set_option autoImplicit false

/-! # A restart from a saved map

A save of an intact map whose zones fit is done wherever the file can be replaced, and every map
of the same order that loads the file comes out with the same zones in the same order. Free
slots are not saved, so the zones move to other slots; but answers depend on the zones only, and
of equally hot ones the first is found before and after.

The file cannot be replaced where a directory has the name of the temporary file. A save then
fails for every map and leaves everything as it was (`HeatMap.save_of_temp_directory`).

A placer that starts from the file has forgotten what it remembered and answers alike, because
both placers answer what the zones say.
-/

namespace TierIndex

namespace HeatMap

variable {m m' : HeatMap} {f : Folder}

theorem ofZones_capacity (p : Params) (zs : List Zone) :
    (ofZones p zs).capacity = max p.target zs.length := by
  show (zs.map some ++ List.replicate (p.target - zs.length) none).length = _
  rw [List.length_append, List.length_map, List.length_replicate]
  omega

/-- A save is done, and counts the zones. -/
theorem Intact.save (h : m.Intact) (hfits : ∀ z ∈ m.zones, Record.Fits z)
    (hf : Checkpoint.Replaceable f) : ∃ g, m.save f = (g, .ok m.live) ∧ m.SavedIn g := by
  obtain ⟨bytes, hencode⟩ : ∃ bytes, Record.encode m.zones = .ok bytes :=
    ⟨_, Record.encode_eq_ok.mpr ⟨hfits, rfl⟩⟩
  have hreplace : Checkpoint.replace f bytes = (Checkpoint.replaced f bytes, .ok ()) :=
    Checkpoint.replace_eq_ok_iff.mpr ⟨hf, rfl⟩
  have hsave : m.save f = (Checkpoint.replaced f bytes, .ok m.live) :=
    save_eq_ok.mpr ⟨h.live_eq, bytes, hencode, hreplace⟩
  exact ⟨_, hsave, f, _, _, hsave, rfl⟩

/-- **A directory under the temporary name stops a save.** -/
theorem save_of_temp_directory (hfits : ∀ z ∈ m.zones, Record.Fits z)
    (hdir : f.item? Checkpoint.tempName = some .directory) :
    m.save f = (f, .error (.storage .isDirectory)) := by
  have hencode : Record.encode m.zones = .ok _ := Record.encode_eq_ok.mpr ⟨hfits, rfl⟩
  rw [save_eq, hencode]
  dsimp only
  rw [Checkpoint.replace_of_temp_directory hdir]
  rfl

/-- What is loaded is what was saved. -/
theorem load_of_saved (h : m.Intact) (hs : m.SavedIn f) (ho : m'.order = m.order) :
    m'.load f = .ok (ofZones m'.params m.zones, m.live) := by
  unfold load
  rw [ho, read_of_saved h hs, h.live_eq]
  rfl

end HeatMap

namespace Placer

variable {o : KeyOrder} {s : Settings} {p p' : Placer} {f : Folder}

/-- Coherent placers with the same zones answer alike. -/
theorem Coherent.belongsFast_congr (h : p.Coherent o s) (h' : p'.Coherent o s)
    (hz : p'.map.zones = p.map.zones) (k : Key) :
    (p'.belongsFast k).2 = (p.belongsFast k).2 := by
  have hp : p'.map.params = p.map.params := Except.ok.inj (h'.params_eq.symm.trans h.params_eq)
  have hhot : p'.map.HotAt k ↔ p.map.HotAt k :=
    HeatMap.hotAt_congr hz (congrArg Params.order hp) (congrArg Params.boiling hp) k
  rw [Bool.eq_iff_iff, (h'.belongsFast k).1, (h.belongsFast k).1]
  exact hhot

theorem Coherent.restore (h : p.Coherent o s) (hs : p.map.SavedIn f) (out : Outlet) :
    ∃ p', restore o s out f = .ok p' ∧ p'.map.zones = p.map.zones := by
  obtain ⟨q, hq⟩ : ∃ q, new o s out = .ok q := by
    unfold new
    rw [h.params_eq]
    exact ⟨_, rfl⟩
  -- both maps have the order that they were started with
  have ho : q.map.order = p.map.order := (new_coherent hq).order_eq.trans h.order_eq.symm
  have hload : q.load f = ({ q with
      map := .ofZones q.map.params p.map.zones, memo := q.memo.clear }, .ok p.map.live) := by
    unfold Placer.load
    rw [HeatMap.load_of_saved h.intact hs ho]
  obtain ⟨bytes, -, hfile⟩ := hs.file
  refine ⟨{ q with map := .ofZones q.map.params p.map.zones, memo := q.memo.clear }, ?_,
    HeatMap.zones_ofZones q.map.params p.map.zones⟩
  unfold Placer.restore
  rw [hq, hfile]
  dsimp only
  rw [hload]

end Placer

/-! ## The index after a restart -/

/-- **A restart preserves the index.** A reachable map whose zones fit is saved wherever the
file can be replaced. Every map of the same order then loads its zones, all of them and in the
same order, and with the same thresholds it gives the same answers. A placer that starts from
the file answers for every key as the saved one does, whatever that one has been asked
before. -/
theorem restart_preserves_index :
    (∀ (m : HeatMap) (f : Folder), m.Reachable → (∀ z ∈ m.zones, Record.Fits z) →
      Checkpoint.Replaceable f →
      ∃ g, m.save f = (g, .ok m.live) ∧
        ∀ m₁ : HeatMap, m₁.order = m.order →
          ∃ m₂, m₁.load g = .ok (m₂, m.live) ∧ m₂.zones = m.zones ∧ m₂.live = m.zones.length ∧
            m₂.capacity = max m₁.params.target m.zones.length ∧
            (m₁.params.boiling = m.params.boiling → m₁.params.freezing = m.params.freezing →
              (∀ k, m₂.find? k = m.find? k) ∧ (∀ k, m₂.findUniform? k = m.findUniform? k) ∧
                m₂.misplaced = m.misplaced)) ∧
    (∀ (o : KeyOrder) (s : Settings) (out out' : Outlet) (p : Placer) (f f' : Folder)
      (qs : List Request), Placer.new o s out = .ok p →
      let q := (Session.run ⟨p, f⟩ qs).1.placer
      (∀ z ∈ q.map.zones, Record.Fits z) → Checkpoint.Replaceable f'.create →
      ∃ g q', q.save f' = (g, .ok q.map.live) ∧ Placer.restore o s out' g = .ok q' ∧
        q'.map.zones = q.map.zones ∧ ∀ k, (q'.belongsFast k).2 = (q.belongsFast k).2) := by
  constructor
  · intro m f hm hfits hf
    have h := hm.intact
    obtain ⟨g, hsave, hsaved⟩ := h.save hfits hf
    refine ⟨g, hsave, fun m₁ ho => ⟨_, HeatMap.load_of_saved h hsaved ho, ?_⟩⟩
    have hzones := HeatMap.zones_ofZones m₁.params m.zones
    refine ⟨hzones, rfl, HeatMap.ofZones_capacity _ _, fun hb hfr => ⟨?_, ?_, ?_⟩⟩
    · exact HeatMap.find?_congr hzones ho
    · exact HeatMap.findUniform?_congr hzones ho hb
    · exact HeatMap.misplaced_congr hzones hb hfr
  · intro o s out out' p f f' qs hp q hfits hf'
    have h : q.Coherent o s := Session.run_coherent (σ := ⟨p, f⟩) (Placer.new_coherent hp) qs
    obtain ⟨g, hsave, hsaved⟩ := h.intact.save hfits hf'
    obtain ⟨q', hrestore, hzones⟩ := h.restore hsaved out'
    refine ⟨g, q', hsave, hrestore, hzones, ?_⟩
    exact h.belongsFast_congr (Placer.restore_coherent hrestore) hzones

/-- The map is saved over an older file and loaded into a map that asks for more slots; the
placer is saved into a new directory. -/
theorem restart_preserves_index_split :
    let s : Settings := { target := 2 }
    let p : Params := ⟨.bytewise, 2, 10, 3, .lowest, by decide, by decide, by decide, by decide⟩
    let m := ((HeatMap.empty p).serve (.access [1] [5] 20)).serve (.access [3] [9] 30)
    let m₁ : HeatMap := .empty { p with target := 8, target_pos := by decide }
    let p₀ : Placer := ⟨s, .empty p, .empty, .start 10, .ledger []⟩
    let qs : List Request := [.record [1] [5] 20, .record [3] [9] 30, .belongsFast [2]]
    (∃ g m₂, m.save ⟨some [("segtable.data", .file [7])]⟩ = (g, .ok 3) ∧
      m₁.load g = .ok (m₂, 3) ∧ m₂.zones = m.zones ∧ m₂.capacity = 8 ∧
      m₂.find? [4] = m.find? [4]) ∧
    ∃ q g q', q = (Session.run ⟨p₀, .missing⟩ qs).1.placer ∧ q.save .missing = (g, .ok 3) ∧
      Placer.restore .bytewise s (.ledger []) g = .ok q' ∧
      (q'.belongsFast [2]).2 = (q.belongsFast [2]).2 := by
  intro s p m m₁ p₀ qs
  have hzones : m.zones =
      [⟨⟨[1], [3]⟩, 20, false⟩, ⟨⟨[5], [9]⟩, 30, false⟩, ⟨⟨[3], [5]⟩, 50, false⟩] := by decide
  have hfits : ∀ z ∈ m.zones, Record.Fits z := by
    rw [hzones]
    decide
  constructor
  · have hfirst := (HeatMap.Reachable.empty p).serve (.access [1] [5] 20)
    have hm : m.Reachable := hfirst.serve _
    have hparams : m.params = p := (HeatMap.serve_params hfirst.intact _).trans
      (HeatMap.serve_params (HeatMap.Intact.empty p) _)
    have hlive : m.live = 3 := by decide
    obtain ⟨g, hsave, hany⟩ := restart_preserves_index.1 m ⟨some [("segtable.data", .file [7])]⟩ hm
      hfits ⟨by decide, by decide, by decide⟩
    obtain ⟨m₂, hload, hloaded, -, hcapacity, hsame⟩ :=
      hany m₁ (congrArg Params.order hparams).symm
    have hanswer := hsame (congrArg Params.boiling hparams).symm
      (congrArg Params.freezing hparams).symm
    rw [hlive] at hsave hload
    rw [hzones] at hcapacity
    exact ⟨g, m₂, hsave, hload, hloaded, hcapacity, hanswer.1 [4]⟩
  · have hp : Placer.new .bytewise s (.ledger []) = .ok p₀ := by
      have hfault : s.fault? = none := by decide +kernel
      unfold Placer.new Settings.params
      rw [hfault]
      rfl
    have hlive : (Session.run ⟨p₀, .missing⟩ qs).1.placer.map.live = 3 := by decide
    have hsame : (Session.run ⟨p₀, .missing⟩ qs).1.placer.map.zones = m.zones := by decide
    have hfits' : ∀ z ∈ (Session.run ⟨p₀, .missing⟩ qs).1.placer.map.zones, Record.Fits z := by
      rw [hsame]
      exact hfits
    have hf : Checkpoint.Replaceable (Folder.create .missing) := ⟨by decide, by decide, by decide⟩
    obtain ⟨g, q', hsave, hrestore, -, hanswer⟩ := restart_preserves_index.2 .bytewise s
      (.ledger []) (.ledger []) p₀ .missing .missing qs hp hfits' hf
    rw [hlive] at hsave
    exact ⟨_, g, q', rfl, hsave, hrestore, hanswer [2]⟩

/-- It is not enough that the data directory exists and that no directory has the name of the file:
here one has the name of the temporary file. -/
theorem not_saved_over_temp_directory :
    let p : Params := ⟨.bytewise, 2, 10, 3, .lowest, by decide, by decide, by decide, by decide⟩
    let m := (HeatMap.empty p).serve (.access [1] [5] 4)
    let f : Folder := ⟨some [("segtable.data", .file []), ("segtable.data.tmp", .directory)]⟩
    m.save f = (f, .error (.storage .isDirectory)) ∧
      ¬ ∀ (m : HeatMap) (f : Folder), m.Reachable → (∀ z ∈ m.zones, Record.Fits z) →
        f.items? ≠ none → f.item? Checkpoint.fileName ≠ some .directory →
          ∃ g, m.save f = (g, .ok m.live) := by
  intro p m f
  have hm : m.Reachable := (HeatMap.Reachable.empty p).serve _
  have hfits : ∀ z ∈ m.zones, Record.Fits z := by
    have hzones : m.zones = [⟨⟨[1], [5]⟩, 4, false⟩] := by decide
    rw [hzones]
    decide
  have hfails : m.save f = (f, .error (.storage .isDirectory)) :=
    HeatMap.save_of_temp_directory hfits (by decide)
  refine ⟨hfails, fun hall => ?_⟩
  obtain ⟨g, hsave⟩ := hall m f hm hfits (by decide) (by decide)
  cases hfails.symm.trans hsave

end TierIndex
