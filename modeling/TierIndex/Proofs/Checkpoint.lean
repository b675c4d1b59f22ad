import TierIndex.Proofs.Intact
import TierIndex.Proofs.RoundTrip
import TierIndex.Store.Checkpoint

set_option autoImplicit false

/-! # Saving and loading

A save is done exactly when all zones fit and the file can be replaced (`save_eq_ok`,
`replace_eq_ok_iff`). What it leaves under the name of the file are the records of the zones in
slot order. An intact map has sound zones only, so whoever loads the file under the same order
reads these very zones (`read_of_saved`).
-/

namespace TierIndex

/-! ## Replacing the file -/

namespace Folder

variable {f g : Folder} {name : String} {bytes : List UInt8}

theorem items?_set (f : Folder) (name : String) (item : Item) :
    (f.set name item).items? ≠ none ↔ f.items? ≠ none := by
  simp [set]

theorem items?_remove (f : Folder) (name : String) :
    (f.remove name).items? ≠ none ↔ f.items? ≠ none := by
  simp [remove]

theorem write_eq_ok : f.write name bytes = .ok g ↔
    f.items? ≠ none ∧ f.item? name ≠ some .directory ∧ g = f.set name (.file bytes) := by
  unfold write
  cases hitems : f.items? with
  | none => simp
  | some l =>
      dsimp only
      split
      · next hdir => simp [hdir]
      · next hfree =>
          constructor
          · intro h
            cases h
            exact ⟨Option.some_ne_none l, hfree, rfl⟩
          · rintro ⟨-, -, rfl⟩
            rfl

theorem write_of_directory (h : f.item? name = some .directory) :
    f.write name bytes = .error .isDirectory := by
  unfold write
  cases hitems : f.items? with
  | none => simp [item?, items, hitems] at h
  | some l => simp only [h]

theorem rename_eq_ok {old new : String} : f.rename old new = .ok g ↔
    ∃ bytes, f.item? old = some (.file bytes) ∧ f.item? new ≠ some .directory ∧
      g = (f.remove old).set new (.file bytes) := by
  unfold rename
  cases hold : f.item? old with
  | none => simp
  | some x =>
      cases x with
      | directory => simp
      | file bytes =>
          dsimp only
          split
          · next hdir => simp [hdir]
          · next hfree =>
              constructor
              · intro h
                cases h
                exact ⟨bytes, rfl, hfree, rfl⟩
              · rintro ⟨_, heq, -, rfl⟩
                cases heq
                rfl

end Folder

namespace Checkpoint

variable {f g : Folder} {bytes : List UInt8}

/-- The directory exists, and neither the file nor the temporary file is a directory. -/
structure Replaceable (f : Folder) : Prop where
  present : f.items? ≠ none
  file : f.item? fileName ≠ some .directory
  temp : f.item? tempName ≠ some .directory

theorem fileName_ne_tempName : fileName ≠ tempName := by decide

/-- The directory after the file has been replaced. -/
def replaced (f : Folder) (bytes : List UInt8) : Folder :=
  ((f.set tempName (.file bytes)).remove tempName).set fileName (.file bytes)

theorem item?_replaced (h : f.items? ≠ none) (bytes : List UInt8) :
    (replaced f bytes).item? fileName = some (.file bytes) := by
  have hpresent : ((f.set tempName (.file bytes)).remove tempName).items? ≠ none := by
    rw [Folder.items?_remove, Folder.items?_set]
    exact h
  rw [replaced, Folder.item?_set hpresent, if_pos rfl]

/-- **When the file can be replaced.** -/
theorem replace_eq_ok_iff :
    replace f bytes = (g, .ok ()) ↔ Replaceable f ∧ g = replaced f bytes := by
  have hwritten : f.items? ≠ none → (f.set tempName (.file bytes)).item? tempName =
      some (.file bytes) ∧ (f.set tempName (.file bytes)).item? fileName = f.item? fileName := by
    intro h
    constructor
    · rw [Folder.item?_set h, if_pos rfl]
    · rw [Folder.item?_set h, if_neg fileName_ne_tempName]
  constructor
  · intro h
    unfold replace at h
    split at h
    · cases h
    · next written hwrite =>
        obtain ⟨hpresent, htemp, rfl⟩ := Folder.write_eq_ok.mp hwrite
        obtain ⟨htemp', hfile'⟩ := hwritten hpresent
        split at h
        · cases h
        · next renamed hrename =>
            obtain ⟨bytes', hbytes, hfile, rfl⟩ := Folder.rename_eq_ok.mp hrename
            cases htemp'.symm.trans hbytes
            cases h
            exact ⟨⟨hpresent, hfile' ▸ hfile, htemp⟩, rfl⟩
  · rintro ⟨⟨hpresent, hfile, htemp⟩, rfl⟩
    obtain ⟨htemp', hfile'⟩ := hwritten hpresent
    have hwrite : f.write tempName bytes = .ok (f.set tempName (.file bytes)) :=
      Folder.write_eq_ok.mpr ⟨hpresent, htemp, rfl⟩
    have hrename : (f.set tempName (.file bytes)).rename tempName fileName =
        .ok (replaced f bytes) :=
      Folder.rename_eq_ok.mpr ⟨bytes, htemp', hfile'.symm ▸ hfile, rfl⟩
    unfold replace
    rw [hwrite]
    dsimp only
    rw [hrename]

/-- Where a directory has the name of the temporary file, there is nothing to write to and nothing
to remove. -/
theorem replace_of_temp_directory (h : f.item? tempName = some .directory) :
    replace f bytes = (f, .error (.storage .isDirectory)) := by
  have hkept : f.removeFile tempName = f := by
    unfold Folder.removeFile
    rw [h]
  unfold replace
  rw [Folder.write_of_directory h]
  dsimp only
  rw [hkept]

end Checkpoint

/-! ## Saving and loading a map -/

namespace HeatMap

variable {m : HeatMap} {f g : Folder} {n : Nat}

/-- The records of the zones replace the file, if there are such records. -/
theorem save_eq (m : HeatMap) (f : Folder) : m.save f =
    match Record.encode m.zones with
    | .error e => (f, .error e)
    | .ok bytes => (Checkpoint.replace f bytes).map id (Except.map fun _ => m.zones.length) := by
  have hzones : m.slots.filterMap id = m.zones := rfl
  unfold save Record.append
  dsimp only
  rw [hzones]
  cases Record.encode m.zones <;> rfl

/-- **When a save is done.** -/
theorem save_eq_ok : m.save f = (g, .ok n) ↔
    n = m.zones.length ∧
      ∃ bytes, Record.encode m.zones = .ok bytes ∧ Checkpoint.replace f bytes = (g, .ok ()) := by
  rw [save_eq]
  cases henc : Record.encode m.zones with
  | error e => simp
  | ok bytes =>
      simp only [Except.ok.injEq, exists_eq_left']
      obtain ⟨f', e | u⟩ := Checkpoint.replace f bytes
      · simp [Except.map]
      · simp [Except.map, eq_comm, and_comm]

/-- The directory holds the file that a save of the map has left. -/
def SavedIn (m : HeatMap) (f : Folder) : Prop :=
  ∃ f₀ g n, m.save f₀ = (g, .ok n) ∧ f.item? Checkpoint.fileName = g.item? Checkpoint.fileName

/-- The file then holds the records of the zones. -/
theorem SavedIn.file (hs : m.SavedIn f) :
    ∃ bytes, Record.encode m.zones = .ok bytes ∧
      f.item? Checkpoint.fileName = some (.file bytes) := by
  obtain ⟨f₀, g, n, hsave, hfile⟩ := hs
  obtain ⟨-, bytes, henc, hrep⟩ := save_eq_ok.mp hsave
  obtain ⟨hok, rfl⟩ := Checkpoint.replace_eq_ok_iff.mp hrep
  rw [Checkpoint.item?_replaced hok.present] at hfile
  exact ⟨bytes, henc, hfile⟩

/-- **A saved map is read back.** -/
theorem read_of_saved (h : m.Intact) (hs : m.SavedIn f) :
    Checkpoint.read m.order f = .ok m.zones := by
  obtain ⟨bytes, henc, hfile⟩ := hs.file
  unfold Checkpoint.read Folder.read
  rw [hfile]
  exact Record.decode_encode (fun z hz => h.sound_of_mem hz) henc

end HeatMap

end TierIndex
