import TierIndex.Placer.Basic
import TierIndex.Proofs.Checkpoint
import TierIndex.Proofs.Reachable

set_option autoImplicit false

/-! # Saving and loading are all or nothing

A save may fail before anything is written, because a key is too long, when the temporary file is
written, because there is no directory or one has its name, or when it is renamed, because a
directory stands in its way. Whatever has been done by then is undone: the directory is what it was,
except that a leftover temporary file of earlier times may be gone (`replace_eq_error`). A save that
is done leaves the records of the zones and no temporary file (`item?_replaced_of_ne`).

A load reads and checks the whole file before it touches the map, so a load that fails leaves the
map as it was, and the placer with it.
-/

namespace TierIndex

/-! ## The directory -/

namespace Folder

variable {f : Folder} {name : String}

theorem item?_create (f : Folder) (name : String) : f.create.item? name = f.item? name := rfl

theorem create_of_items? (h : f.items? ≠ none) : f.create = f := by
  rcases f with ⟨_ | l⟩
  · exact absurd rfl h
  · rfl

/-- A name that stands for nothing need not be removed. -/
theorem remove_of_item?_eq_none (h : f.item? name = none) : f.remove name = f := by
  rcases f with ⟨_ | l⟩
  · rfl
  · have hall : ∀ e ∈ l, e.1 ≠ name := by
      rintro ⟨n, x⟩ he rfl
      have hfree : ∀ e ∈ l, (n == e.1) = false := by
        simpa [item?, items] using List.lookup_eq_none_iff.mp h
      simpa using hfree _ he
    have hfilter : l.filter (fun e => e.1 ≠ name) = l :=
      List.filter_eq_self.mpr fun e he => by simpa using hall e he
    show (⟨some (l.filter fun e => e.1 ≠ name)⟩ : Folder) = ⟨some l⟩
    rw [hfilter]

/-- Removing a name undoes what it has just been made to stand for. -/
theorem remove_set (f : Folder) (name : String) (item : Item) :
    (f.set name item).remove name = f.remove name := by
  rcases f with ⟨_ | l⟩
  · rfl
  · simp [set, remove]

/-- Nothing is removed where there is no file. -/
theorem removeFile_of_item? (h : ∀ bytes, f.item? name ≠ some (.file bytes)) :
    f.removeFile name = f := by
  unfold removeFile
  split
  · next bytes hfile => exact absurd hfile (h bytes)
  · rfl

theorem removeFile_set_file (h : f.items? ≠ none) (bytes : List UInt8) :
    (f.set name (.file bytes)).removeFile name = f.remove name := by
  have hfile : (f.set name (.file bytes)).item? name = some (.file bytes) := by
    rw [item?_set h, if_pos rfl]
  rw [removeFile, hfile]
  exact remove_set f name (.file bytes)

end Folder

/-! ## The file is replaced or left -/

namespace Checkpoint

variable {f g : Folder} {bytes : List UInt8}

/-- **A failed replacement undoes its work.** -/
theorem replace_eq_error {e : Fault} (h : replace f bytes = (g, .error e)) :
    g = f ∨ g = f.remove tempName := by
  unfold replace at h
  cases hwrite : f.write tempName bytes with
  | error cause =>
      -- nothing was written: the directory is missing, or a directory has the temporary name
      left
      rw [hwrite] at h
      obtain ⟨rfl, -⟩ := Prod.mk.inj h
      apply Folder.removeFile_of_item?
      intro old hold
      have hpresent : f.items? ≠ none := by
        intro hnone
        simp [Folder.item?, Folder.items, hnone] at hold
      have hdone : f.write tempName bytes = .ok (f.set tempName (.file bytes)) :=
        Folder.write_eq_ok.mpr ⟨hpresent, by simp [hold], rfl⟩
      cases hwrite.symm.trans hdone
  | ok written =>
      right
      obtain ⟨hpresent, -, rfl⟩ := Folder.write_eq_ok.mp hwrite
      rw [hwrite] at h
      dsimp only at h
      split at h
      · obtain ⟨rfl, -⟩ := Prod.mk.inj h
        exact Folder.removeFile_set_file hpresent bytes
      · cases h

theorem item?_replaced_of_ne (h : f.items? ≠ none) (bytes : List UInt8) {name : String}
    (hname : name ≠ fileName) :
    (replaced f bytes).item? name = if name = tempName then none else f.item? name := by
  have hset : (f.set tempName (.file bytes)).items? ≠ none := (Folder.items?_set ..).mpr h
  have hremove : ((f.set tempName (.file bytes)).remove tempName).items? ≠ none :=
    (Folder.items?_remove ..).mpr hset
  rw [replaced, Folder.item?_set hremove, if_neg hname, Folder.item?_remove]
  split
  · rfl
  · next htemp => rw [Folder.item?_set h, if_neg htemp]

end Checkpoint

/-! ## Saving -/

open Checkpoint (fileName tempName)

/-- A save of the zones that starts from the directory `f` and comes to the directory `g` is all or
nothing. -/
inductive AllOrNothing (zs : List Zone) (f g : Folder) : Except Fault Nat → Prop
  /-- The file holds the records of the zones, the temporary file is gone, and no other name has
  changed. -/
  | done {bytes : List UInt8} (encoded : Record.encode zs = .ok bytes)
      (file : g.item? fileName = some (.file bytes)) (temp : g.item? tempName = none)
      (others : ∀ name, name ≠ fileName → name ≠ tempName → g.item? name = f.item? name) :
      AllOrNothing zs f g (.ok zs.length)
  /-- No name but the temporary file's has changed, and there is no temporary file, unless nothing
  was done at all. Where there was none before, nothing has changed. -/
  | undone {e : Fault} (file : g.item? fileName = f.item? fileName)
      (others : ∀ name, name ≠ tempName → g.item? name = f.item? name)
      (temp : g.item? tempName = none ∨ g = f)
      (same : f.item? tempName = none → g = f) :
      AllOrNothing zs f g (.error e)

theorem AllOrNothing.of_removed {zs : List Zone} {f g : Folder} {e : Fault}
    (h : g = f ∨ g = f.remove tempName) : AllOrNothing zs f g (.error e) := by
  rcases h with rfl | rfl
  · exact .undone rfl (fun _ _ => rfl) (Or.inr rfl) fun _ => rfl
  · have hkeep : ∀ name, name ≠ tempName → (f.remove tempName).item? name = f.item? name := by
      intro name hname
      rw [Folder.item?_remove, if_neg hname]
    have hgone : (f.remove tempName).item? tempName = none := by
      rw [Folder.item?_remove, if_pos rfl]
    exact .undone (hkeep _ Checkpoint.fileName_ne_tempName) hkeep (Or.inl hgone)
      Folder.remove_of_item?_eq_none

/-- A save that fails where there is no temporary file changes nothing. -/
theorem AllOrNothing.eq_of_failed {zs : List Zone} {f g : Folder} {r : Except Fault Nat}
    (h : AllOrNothing zs f g r) (hr : ¬ ∃ n, r = .ok n) (htemp : f.item? tempName = none) :
    g = f := by
  cases h with
  | done => exact absurd ⟨_, rfl⟩ hr
  | undone file others temp same => exact same htemp

namespace HeatMap

variable {m : HeatMap} {f : Folder}

theorem save_all_or_nothing (m : HeatMap) (f : Folder) :
    AllOrNothing m.zones f (m.save f).1 (m.save f).2 := by
  cases hsave : m.save f with
  | mk g r =>
  cases r with
  | ok n =>
      obtain ⟨rfl, bytes, hencode, hreplace⟩ := save_eq_ok.mp hsave
      obtain ⟨hf, rfl⟩ := Checkpoint.replace_eq_ok_iff.mp hreplace
      refine .done hencode (Checkpoint.item?_replaced hf.present bytes) ?_ ?_
      · rw [Checkpoint.item?_replaced_of_ne hf.present bytes Checkpoint.fileName_ne_tempName.symm,
          if_pos rfl]
      · intro name hfile htemp
        rw [Checkpoint.item?_replaced_of_ne hf.present bytes hfile, if_neg htemp]
  | error e =>
      apply AllOrNothing.of_removed
      unfold save at hsave
      split at hsave
      · -- a key is too long, and the directory has not been touched
        exact Or.inl (Prod.mk.inj hsave).1.symm
      · next bytes n hbytes =>
          rcases hreplace : Checkpoint.replace f bytes with ⟨f', e' | u⟩
          · rw [hreplace] at hsave
            obtain ⟨rfl, -⟩ := Prod.mk.inj hsave
            exact Checkpoint.replace_eq_error hreplace
          · -- a replacement that is done makes the save done
            rw [hreplace] at hsave
            cases (Prod.mk.inj hsave).2

/-- When a save is done, in terms of the zones and the directory. -/
theorem save_done_iff :
    (∃ n, (m.save f).2 = .ok n) ↔ (∀ z ∈ m.zones, Record.Fits z) ∧ Checkpoint.Replaceable f := by
  constructor
  · rintro ⟨n, hn⟩
    obtain ⟨-, bytes, hencode, hreplace⟩ := save_eq_ok.mp (Prod.ext rfl hn)
    exact ⟨(Record.encode_eq_ok.mp hencode).1, (Checkpoint.replace_eq_ok_iff.mp hreplace).1⟩
  · rintro ⟨hfits, hf⟩
    have hencode := Record.encode_eq_ok.mpr ⟨hfits, rfl⟩
    have hreplace : Checkpoint.replace f (m.zones.flatMap Record.ofZone) =
        (Checkpoint.replaced f (m.zones.flatMap Record.ofZone), .ok ()) :=
      Checkpoint.replace_eq_ok_iff.mpr ⟨hf, rfl⟩
    exact ⟨_, congrArg Prod.snd (save_eq_ok.mpr ⟨rfl, _, hencode, hreplace⟩)⟩

/-! ## Loading -/

/-- The file is there and is read, under the order, as these zones. -/
def Loadable (o : KeyOrder) (f : Folder) (zs : List Zone) : Prop :=
  ∃ bytes, f.item? fileName = some (.file bytes) ∧ Record.decode o bytes = .ok zs

theorem read_eq_ok {o : KeyOrder} {zs : List Zone} :
    Checkpoint.read o f = .ok zs ↔ Loadable o f zs := by
  unfold Checkpoint.read Folder.read Loadable
  cases f.item? fileName with
  | none => simp
  | some item => cases item <;> simp

/-- **A load takes over the whole file or leaves the map.** -/
theorem load_all_or_nothing (m : HeatMap) (f : Folder) :
    (∃ zs, Loadable m.order f zs ∧ m.load f = .ok (ofZones m.params zs, zs.length)) ∨
      (∀ zs, ¬ Loadable m.order f zs) ∧ ∃ e, m.load f = .error e := by
  unfold load
  cases hread : Checkpoint.read m.order f with
  | ok zs => exact Or.inl ⟨zs, read_eq_ok.mp hread, rfl⟩
  | error e =>
      refine Or.inr ⟨fun zs hzs => ?_, e, rfl⟩
      cases hread.symm.trans (read_eq_ok.mpr hzs)

end HeatMap

/-! ## Maps and placers -/

/-- **Saves and loads, of a map or of a placer, are all or nothing.** A save is done exactly when
every key is short enough and no directory is missing or in the way. A placer's save creates the
directory before, and this changes no name. A load that fails leaves the map, and leaves the placer
with its map, memo and generation. -/
theorem checkpoint_all_or_nothing (m : HeatMap) (p : Placer) (f : Folder) :
    (AllOrNothing m.zones f (m.save f).1 (m.save f).2 ∧
      ((∃ n, (m.save f).2 = .ok n) ↔
        (∀ z ∈ m.zones, Record.Fits z) ∧ Checkpoint.Replaceable f) ∧
      ((∃ zs, HeatMap.Loadable m.order f zs ∧
          m.load f = .ok (.ofZones m.params zs, zs.length)) ∨
        (∀ zs, ¬ HeatMap.Loadable m.order f zs) ∧ (∃ e, m.load f = .error e) ∧
          m.reload f = m)) ∧
    AllOrNothing p.map.zones f.create (p.save f).1 (p.save f).2 ∧
      (∀ name, f.create.item? name = f.item? name) ∧ (f.items? ≠ none → f.create = f) ∧
      ((∃ n, (p.save f).2 = .ok n) ↔
        (∀ z ∈ p.map.zones, Record.Fits z) ∧ Checkpoint.Replaceable f.create) ∧
      ((∃ zs, HeatMap.Loadable p.order f zs ∧
          p.load f =
            ({ p with map := .ofZones p.map.params zs, memo := p.memo.clear }, .ok zs.length)) ∨
        (∀ zs, ¬ HeatMap.Loadable p.order f zs) ∧ ∃ e, p.load f = (p, .error e)) := by
  refine ⟨⟨m.save_all_or_nothing f, HeatMap.save_done_iff, ?_⟩,
    p.map.save_all_or_nothing f.create, f.item?_create, Folder.create_of_items?,
    HeatMap.save_done_iff, ?_⟩
  · rcases m.load_all_or_nothing f with hdone | ⟨hnone, e, hload⟩
    · exact Or.inl hdone
    · refine Or.inr ⟨hnone, ⟨e, hload⟩, ?_⟩
      rw [HeatMap.reload, hload]
  · rcases p.map.load_all_or_nothing f with ⟨zs, hzs, hload⟩ | ⟨hnone, e, hload⟩
    · refine Or.inl ⟨zs, hzs, ?_⟩
      rw [Placer.load, hload]
    · refine Or.inr ⟨hnone, e, ?_⟩
      rw [Placer.load, hload]

/-- A directory has the name of the file; a key of 256 bytes is not written over an old file; a file
of two bytes is not read. -/
theorem checkpoint_all_or_nothing_blocked :
    let params : Params :=
      ⟨.bytewise, 2, 10, 3, .lowest, by decide, by decide, by decide, by decide⟩
    let m : HeatMap := .ofZones params [⟨⟨[1], [5]⟩, 20, true⟩]
    let key : Key := List.replicate 256 7
    let long : HeatMap := .ofZones params [⟨⟨[], key⟩, 20, true⟩]
    let p : Placer := ⟨{}, m, ⟨some (⟨[1], [5]⟩, true), 4⟩, .start 10, .ledger []⟩
    let inWay : Folder := ⟨some [("segtable.data", .directory)]⟩
    let old : Folder := ⟨some [("segtable.data", .file [1, 2])]⟩
    (m.save inWay).1 = inWay ∧ (long.save old).1 = old ∧
      ((∃ n, (m.save old).2 = .ok n) ∧ (m.save old).1.item? "segtable.data.tmp" = none) ∧
      ∃ e, p.load old = (p, .error e) := by
  intro params m key long p inWay old
  obtain ⟨⟨hblocked, hblocked_iff, -⟩, -⟩ := checkpoint_all_or_nothing m p inWay
  obtain ⟨⟨hlong, hlong_iff, -⟩, -⟩ := checkpoint_all_or_nothing long p old
  obtain ⟨⟨hgood, hgood_iff, -⟩, -, -, -, -, hload⟩ := checkpoint_all_or_nothing m p old
  refine ⟨hblocked.eq_of_failed ?_ (by decide), hlong.eq_of_failed ?_ (by decide), ?_, ?_⟩
  · rw [hblocked_iff]
    rintro ⟨-, hf⟩
    exact hf.file (by decide)
  · rw [hlong_iff]
    rintro ⟨hfits, -⟩
    rw [HeatMap.zones_ofZones] at hfits
    have hshort : key.length ≤ 255 := (hfits _ (List.mem_singleton_self _)).2
    have hlength : key.length = 256 := List.length_replicate
    omega
  · obtain ⟨n, hn⟩ := hgood_iff.mpr ⟨by decide, ⟨by decide, by decide, by decide⟩⟩
    refine ⟨⟨n, hn⟩, ?_⟩
    rw [hn] at hgood
    cases hgood with
    | done encoded file temp others => exact temp
  · rcases hload with ⟨zs, ⟨bytes, hfile, hdecode⟩, -⟩ | ⟨-, hfailed⟩
    · cases (show old.item? Checkpoint.fileName = some (.file [1, 2]) by decide).symm.trans hfile
      rw [Record.decode, Record.decodeFrom] at hdecode
      cases hdecode
    · exact hfailed

end TierIndex
