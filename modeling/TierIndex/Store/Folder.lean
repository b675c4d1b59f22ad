import TierIndex.Fault

set_option autoImplicit false

/-! # A directory of files

The data directory as far as the library can tell it apart: it may not exist yet, and it
holds files and directories by name. Four operations change it, and each is refused where a
file system would refuse it: a file cannot be created in a missing directory, and neither
written nor renamed over a directory.
-/

namespace TierIndex

/-- What a name in a directory stands for. -/
inductive Item where
  | file (bytes : List UInt8)
  | directory
  deriving DecidableEq

/-- A directory that may not exist, with the items it holds. Each name occurs once. -/
structure Folder where
  items? : Option (List (String × Item))
  deriving DecidableEq

namespace Folder

/-- A directory that does not exist. -/
def missing : Folder := ⟨none⟩

/-- A directory without items. -/
def empty : Folder := ⟨some []⟩

/-- The items, none if the directory does not exist. -/
def items (f : Folder) : List (String × Item) := f.items?.getD []

/-- What the name stands for, if anything. -/
def item? (f : Folder) (name : String) : Option Item := f.items.lookup name

/-- The items by name. -/
def listing (f : Folder) : Option (List (String × Item)) :=
  f.items?.map fun l => l.mergeSort fun a b => a.1 ≤ b.1

/-! ## Changes -/

/-- Let the name stand for the item and for nothing else, in an existing directory. -/
def set (f : Folder) (name : String) (item : Item) : Folder :=
  ⟨f.items?.map fun l => (name, item) :: l.filter fun e => e.1 ≠ name⟩

/-- Let the name stand for nothing. -/
def remove (f : Folder) (name : String) : Folder :=
  ⟨f.items?.map fun l => l.filter fun e => e.1 ≠ name⟩

/-- Create the directory if it is missing. -/
def create (f : Folder) : Folder := ⟨some f.items⟩

/-- The bytes of the file of this name. -/
def read (f : Folder) (name : String) : Except StorageFault (List UInt8) :=
  match f.item? name with
  | some (.file bytes) => .ok bytes
  | some .directory => .error .isDirectory
  | none => .error .notFound

/-- Create or overwrite the file of this name. -/
def write (f : Folder) (name : String) (bytes : List UInt8) : Except StorageFault Folder :=
  match f.items? with
  | none => .error .notFound
  | some _ =>
      match f.item? name with
      | some .directory => .error .isDirectory
      | _ => .ok (f.set name (.file bytes))

/-- Let the name `new` stand for the file that `old` stands for, and `old` for nothing. -/
def rename (f : Folder) (old new : String) : Except StorageFault Folder :=
  match f.item? old with
  | some (.file bytes) =>
      match f.item? new with
      | some .directory => .error .isDirectory
      | _ => .ok ((f.remove old).set new (.file bytes))
  | some .directory => .error .isDirectory
  | none => .error .notFound

/-- Remove the file of this name, if there is one. -/
def removeFile (f : Folder) (name : String) : Folder :=
  match f.item? name with
  | some (.file _) => f.remove name
  | _ => f

/-! ## What the changes do to names -/

theorem lookup_filter_ne {l : List (String × Item)} {name other : String} :
    (l.filter fun e => e.1 ≠ name).lookup other =
      if other = name then none else l.lookup other := by
  induction l with
  | nil => simp
  | cons e l ih =>
      obtain ⟨n, x⟩ := e
      by_cases hn : n = name
      · subst hn
        by_cases ho : other = n
        · subst ho; simpa using ih
        · have hne : (other == n) = false := by simpa using ho
          simpa [List.lookup_cons, hne, ho] using ih
      · by_cases ho : other = n
        · subst ho; simp [hn]
        · have hne : (other == n) = false := by simpa using ho
          simpa [List.filter_cons, hn, List.lookup_cons, hne] using ih

theorem item?_remove (f : Folder) (name other : String) :
    (f.remove name).item? other = if other = name then none else f.item? other := by
  rcases f with ⟨_ | l⟩
  · simp [remove, item?, items]
  · exact lookup_filter_ne

theorem item?_set {f : Folder} (h : f.items? ≠ none) (name other : String) (item : Item) :
    (f.set name item).item? other = if other = name then some item else f.item? other := by
  rcases f with ⟨_ | l⟩
  · exact absurd rfl h
  · by_cases ho : other = name
    · subst ho; simp [set, item?, items]
    · have hne : (other == name) = false := by simpa using ho
      have := @lookup_filter_ne l name other
      simpa [set, item?, items, List.lookup_cons, hne, ho] using this

end Folder

end TierIndex
