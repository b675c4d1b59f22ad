import TierIndex.HeatMap.Query
import TierIndex.Store.Checkpoint
import TierIndex.Text.ByteLiteral

set_option autoImplicit false

/-! # Looking into a saved map

Two views of a saved heat map, as text. A **dump** lists all records with their number; the
**pending** view lists the moves that would be needed for given thresholds, the ways into
the fast tier first. No line of a view is printed unless the whole file can be read.

The program also reports events, and its log writes to the same output. Which events the log
lets through is set from outside, and how it words them is its own affair; so the output is
given in two parts, the lines of the view and the events between them.
-/

namespace TierIndex

/-- What to show. -/
inductive View where
  | dump
  | pending (boiling freezing : Int)
  deriving DecidableEq

namespace View

/-- The order of keys with a version suffix of `n` bytes, where zero stands for none. -/
def orderOfSuffix (n : Nat) : KeyOrder := if n = 0 then .bytewise else .versioned n

/-- Text moved to the right end of a column of the given width. -/
def alignRight (width : Nat) (s : String) : String :=
  String.ofList (List.replicate (width - s.length) ' ') ++ s

/-- The two ends of a span. -/
def ends (s : Span) : String :=
  "start=" ++ ByteLiteral.ofKey s.lo ++ "  end=" ++ ByteLiteral.ofKey s.hi

/-- The line of one record. -/
def recordLine (i : Nat) (z : Zone) : String :=
  alignRight 5 (toString i) ++ "  heat=" ++ alignRight 3 (toString z.heat) ++
    "  fast=" ++ (if z.fast then "true" else "false") ++ "  " ++ ends z.span

/-- The lines of a dump. -/
def dumpLines (zs : List Zone) : List String :=
  zs.mapIdx recordLine ++ [toString zs.length ++ " segments"]

/-- The lines of the moves that are needed. -/
def pendingLines (l : HeatMap.Misplaced) : List String :=
  l.promote.map ("promote  " ++ ends ·) ++ l.demote.map ("demote   " ++ ends ·)

end View

/-! ## Events and their log -/

/-- What is reported besides the lines of a view. -/
inductive Event where
  /-- The records of a file have been loaded into a map. -/
  | loaded (records : Nat) (path : String)
  /-- The program has failed. -/
  | failed (cause : Fault)

/-- How grave an event is. -/
inductive Level where
  | error
  | warning
  | info

/-- The gravest level is the lowest one. -/
def Level.rank : Level → Nat
  | .error => 0
  | .warning => 1
  | .info => 2

namespace Event

def level : Event → Level
  | .loaded .. => .info
  | .failed _ => .error

/-- The event comes from the library, and not from the program that calls it. -/
def fromLibrary : Event → Bool
  | .loaded .. => true
  | .failed _ => false

def message : Event → String
  | .loaded .. => "segment table loaded"
  | .failed cause => "segtool failed: " ++ cause.message

end Event

/-- The last level that is let through, for the events of the library and for all others. Where
there is none, nothing is. -/
structure LogFilter where
  library : Option Level
  others : Option Level

namespace LogFilter

/-- The filter that stands when none is asked for. -/
def standard : LogFilter := ⟨some .info, some .warning⟩

/-- The filter lets the event through. -/
def passes (filter : LogFilter) (e : Event) : Bool :=
  (if e.fromLibrary then filter.library else filter.others).any fun last =>
    e.level.rank ≤ last.rank

end LogFilter

/-- What a log writes of an event. -/
abbrev Log := Event → String

/-- The log that writes nothing. -/
def Log.off : Log := fun _ => ""

/-- A log that writes what its filter lets through, one line for each event. -/
def Log.filtered (filter : LogFilter) (wording : Event → String) : Log := fun e =>
  if filter.passes e then wording e ++ "\n" else ""

/-! ## Reports -/

/-- What the program puts out: a line of a view, or an event. -/
inductive Output where
  | line (s : String)
  | event (e : Event)

/-- The text of an output. -/
def Output.text (log : Log) : Output → String
  | .line s => s ++ "\n"
  | .event e => log e

/-- The exit code of the program and all that it puts out. -/
structure Report where
  code : Nat
  output : List Output

/-- The text on the output of the program. -/
def Report.text (log : Log) (r : Report) : String := String.join (r.output.map (Output.text log))

/-- The version of the program. -/
def version : String := "0.1.0"

/-- What the program is called for. -/
structure Invocation where
  /-- The data directory. -/
  directory : String
  /-- The number of version bytes, where zero stands for the bytewise order. -/
  suffix : Nat
  view : View

namespace Invocation

/-- The path of the file. -/
def path (call : Invocation) : String :=
  if call.directory.toList.getLast?.all (· = '/') then call.directory ++ Checkpoint.fileName
  else call.directory ++ "/" ++ Checkpoint.fileName

/-- Read the file and put out the view. For the needed moves the records are loaded into a map
of the least target, which is an event. -/
def run (call : Invocation) (f : Folder) : Except Fault (List Output) :=
  let o := View.orderOfSuffix call.suffix
  match call.view with
  | .dump => (Checkpoint.read o f).map fun zs => (View.dumpLines zs).map .line
  | .pending boiling freezing =>
      match Params.make o 1 boiling freezing .lowest with
      | .error e => .error e
      | .ok p => ((HeatMap.empty p).load f).map fun (m, n) =>
          .event (.loaded n call.path) :: (View.pendingLines m.misplaced).map .line

/-- The report of a call. A failure is an event, and nothing else is put out. -/
def report (call : Invocation) (f : Folder) : Report :=
  match call.run f with
  | .error e => ⟨1, [.event (.failed e)]⟩
  | .ok out => ⟨0, out⟩

end Invocation

end TierIndex
