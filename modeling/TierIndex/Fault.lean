import TierIndex.Zone
import TierIndex.Numeric.Shortest

set_option autoImplicit false

/-! # What can go wrong

Every failure of the library is a value that names its cause. Causes come in four groups:
settings that cannot be used, requests that the heat map refuses, stored bytes that are
not records, and files that cannot be reached. The wording of all of them is
`Fault.message`.
-/

namespace TierIndex

/-- Why settings cannot be used. -/
inductive SettingsFault where
  /-- The target number of zones is zero. -/
  | noTarget
  /-- A threshold lies outside the heats. -/
  | outsideHeats (freezing boiling : Int)
  /-- The boiling point lies below the freezing point. -/
  | reversed (boiling freezing : Int)
  /-- The cooling period is below one tick. -/
  | noPeriod
  /-- The cooling factor does not lie strictly between zero and one. -/
  | factorOutside (factor : Double)
  /-- The move queue has no room. -/
  | noQueue

/-- Why the heat map refuses a request. -/
inductive MapFault where
  /-- The target number of zones is zero. -/
  | noTarget
  /-- The boiling point lies below the freezing point. -/
  | reversed (boiling freezing : Int)
  /-- A threshold lies outside the heats. -/
  | outsideHeats
  /-- An access to a known zone brings no heat. -/
  | noHeat
  /-- A new zone would start without positive heat. -/
  | coldStart (heat : Int)
  /-- The cooling factor does not lie strictly between zero and one. -/
  | factorOutside (factor : Double)
  /-- A key is too long to be stored. -/
  | keyTooLong (bytes : Nat)

/-- The parts of a stored record that can be cut short. -/
inductive RecordPart where
  | header
  | loKey
  | hiLength
  | hiKey
  deriving DecidableEq

/-- Why stored bytes are not records. Each cause names the place where the record that
fails begins. -/
inductive RecordFault where
  /-- The bytes end inside a part that needs more of them. -/
  | truncated (part : RecordPart) (offset need left : Nat)
  /-- The tier byte is neither zero nor one. -/
  | badTier (flag : UInt8) (offset : Nat)
  /-- The record has no heat. -/
  | zeroHeat (offset : Nat)
  /-- The record's span starts after its end. -/
  | reversed (offset : Nat)
  deriving DecidableEq

/-- Why a file cannot be reached. -/
inductive StorageFault where
  /-- There is no such file, or no directory to hold it. -/
  | notFound
  /-- A directory stands where the file should be. -/
  | isDirectory
  deriving DecidableEq

/-- A failure, by its group. -/
inductive Fault where
  | settings (cause : SettingsFault)
  | map (cause : MapFault)
  | record (cause : RecordFault)
  | storage (cause : StorageFault)

/-! ## Wording -/

/-- Why settings cannot be used, in words. Numbers that were given are repeated. -/
def SettingsFault.message : SettingsFault → String
  | .noTarget => "target_len must be >= 1"
  | .outsideHeats freezing boiling =>
      s!"thresholds must lie within [0, {maxHeat}], got freezing={freezing} boiling={boiling}"
  | .reversed boiling freezing =>
      s!"boiling_point ({boiling}) must be >= freezing_point ({freezing})"
  | .noPeriod => "cooling_period must be >= 1"
  | .factorOutside factor => "cooling_factor must be in (0, 1), got " ++ factor.text
  | .noQueue => "move_queue_capacity must be >= 1"

/-- Why a request is refused, in words. -/
def MapFault.message : MapFault → String
  | .noTarget => "target length must be >= 1"
  | .reversed boiling freezing =>
      s!"boiling point ({boiling}) must be >= freezing point ({freezing})"
  | .outsideHeats => s!"thresholds must lie within [0, {maxHeat}]"
  | .noHeat => "existing segment updated with a zero heat delta"
  | .coldStart heat => s!"new segment needs a positive heat, got {heat}"
  | .factorOutside factor => "cooling factor must be in (0, 1), got " ++ factor.text
  | .keyTooLong bytes =>
      s!"segment key of {bytes} bytes exceeds the persistable limit of {Key.maxLength}"

/-- The name of a part of a record. -/
def RecordPart.name : RecordPart → String
  | .header => "record header"
  | .loKey => "start key"
  | .hiLength => "end key length"
  | .hiKey => "end key"

/-- Why bytes are not records, in words. Each text names the place where the record that
fails begins. -/
def RecordFault.message : RecordFault → String
  | .truncated part offset need left =>
      s!"truncated {part.name} in record at offset {offset}: need {need} bytes, {left} left"
  | .badTier flag offset => s!"invalid tier flag {flag} in record at offset {offset}"
  | .zeroHeat offset => s!"record at offset {offset} has zero heat"
  | .reversed offset => s!"record at offset {offset} has start after end"

/-- Why a file cannot be reached, in one word. The sentence that a system has for it is left to the
system. -/
def StorageFault.message : StorageFault → String
  | .notFound => "NotFound"
  | .isDirectory => "IsADirectory"

/-- The text of a failure: its group and its cause. -/
def Fault.message : Fault → String
  | .settings cause => "Configuration error: " ++ cause.message
  | .map cause => "Invariant violation: " ++ cause.message
  | .record cause => "Segment table corruption detected: " ++ cause.message
  | .storage cause => "IO error: " ++ cause.message

end TierIndex
