import TierIndex.Inspect

set_option autoImplicit false

/-! # The inspection program

Reads its arguments and the file of a saved map, and prints `TierIndex.Invocation.report`. The
outer layer is here: how arguments are spelled, how the file is reached, and how an event is worded.
The log has the standard filter, and plain words, without the time and the place of an event.
-/

namespace TierIndex

/-! ## Arguments -/

namespace CommandLine

/-- How the program is called. -/
def usage : String :=
  "usage: [--data-dir DIR] [--suffix-len N] (dump | pending [--boiling N] [--freezing N])"

/-- The thresholds that follow `pending`. -/
def thresholds (boiling freezing : Int) : List String → Option View
  | [] => some (.pending boiling freezing)
  | flag :: value :: rest =>
      if flag = "--boiling" ∨ flag = "-b" then
        value.toInt?.bind fun n => thresholds n freezing rest
      else if flag = "--freezing" ∨ flag = "-f" then
        value.toInt?.bind fun n => thresholds boiling n rest
      else none
  | _ => none

/-- The call that arguments stand for, each value an argument of its own. The directory and the
suffix are those that stand when the arguments name none. -/
def callFrom (directory : String) (suffix : Nat) : List String → Option Invocation
  | ["dump"] => some ⟨directory, suffix, .dump⟩
  | "pending" :: rest => (thresholds 10 3 rest).map fun v => ⟨directory, suffix, v⟩
  | flag :: value :: rest =>
      if flag = "--data-dir" ∨ flag = "-d" then callFrom value suffix rest
      else if flag = "--suffix-len" then
        value.toNat?.bind fun n => callFrom directory n rest
      else none
  | _ => none

/-- The call that arguments stand for. -/
def call? (args : List String) : Option Invocation := callFrom "./heatrange_data" 0 args

end CommandLine

/-! ## Log and file -/

/-- An event in words: its level, its message and its data. -/
def Event.wording (e : Event) : String :=
  match e with
  | .loaded records path => " INFO " ++ e.message ++ s!" records={records} path={path}"
  | .failed _ => "ERROR " ++ e.message

/-- The data directory, with only the file of the saved map in it. -/
def readFolder (path : String) : IO Folder := do
  try
    let bytes ← IO.FS.readBinFile path
    return Folder.empty.set Checkpoint.fileName (.file bytes.toList)
  catch
    | .noFileOrDirectory .. => return Folder.missing
    | _ => return Folder.empty.set Checkpoint.fileName .directory

end TierIndex

open TierIndex

/-- Print the view that the arguments ask for. -/
def main (args : List String) : IO UInt32 := do
  match CommandLine.call? args with
  | none =>
      IO.eprintln CommandLine.usage
      return 2
  | some call =>
      let report := call.report (← readFolder call.path)
      IO.print (report.text (.filtered .standard Event.wording))
      return report.code.toUInt32
