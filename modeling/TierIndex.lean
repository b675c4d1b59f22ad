import TierIndex.Fault
import TierIndex.HeatMap.Access
import TierIndex.HeatMap.Basic
import TierIndex.HeatMap.Query
import TierIndex.HeatMap.Settle
import TierIndex.HeatMap.Upkeep
import TierIndex.Inspect
import TierIndex.Key
import TierIndex.Main
import TierIndex.Numeric.Double
import TierIndex.Numeric.Shortest
import TierIndex.Params
import TierIndex.Placer.Basic
import TierIndex.Placer.Clock
import TierIndex.Placer.Memo
import TierIndex.Placer.Outlet
import TierIndex.Placer.Session
import TierIndex.Select
import TierIndex.Settings
import TierIndex.Span
import TierIndex.Store.Checkpoint
import TierIndex.Store.Folder
import TierIndex.Store.Record
import TierIndex.Text.ByteLiteral
import TierIndex.Zone
import TierIndex.Proofs.Slots
import TierIndex.Proofs.Intact
import TierIndex.Proofs.Merge
import TierIndex.Proofs.Split
import TierIndex.Proofs.Receive
import TierIndex.Proofs.Settle
import TierIndex.Proofs.Cooling
import TierIndex.Proofs.Guard
import TierIndex.Proofs.Reachable
import TierIndex.Proofs.Answers
import TierIndex.Proofs.HotKeys
import TierIndex.Proofs.Checkpoint
import TierIndex.Proofs.HotApart
import TierIndex.Proofs.Coherence
import TierIndex.Proofs.Restart
import TierIndex.Proofs.FastKeys
import TierIndex.Proofs.Report
import TierIndex.Proofs.Grammar
import TierIndex.Proofs.Calls
import TierIndex.Proofs.Sparse
import TierIndex.Proofs.Counters
import TierIndex.Proofs.Counting
import TierIndex.Proofs.Reading
import TierIndex.Proofs.Views
import TierIndex.Proofs.MapView
import TierIndex.Proofs.PlacerView
import TierIndex.Proofs.Versions
import TierIndex.Proofs.LateAnswer
import TierIndex.Proofs.Confirming
import TierIndex.Proofs.Rounds
import TierIndex.Proofs.Commands
import TierIndex.Proofs.AccessSpan
import TierIndex.Proofs.Refusal
import TierIndex.Proofs.SplitKeys
import TierIndex.Proofs.Components
import TierIndex.Proofs.MergePass
import TierIndex.Proofs.Adding
import TierIndex.Proofs.Growth
import TierIndex.Proofs.Writing
import TierIndex.Proofs.Frame
import TierIndex.Proofs.Uniform
import TierIndex.Proofs.Draining
import TierIndex.Proofs.AllOrNothing
import TierIndex.Proofs.History
import TierIndex.Proofs.Delivery
import TierIndex.Proofs.Ticking
import TierIndex.Proofs.Inspection
import TierIndex.Proofs.MergeLoop
import TierIndex.Proofs.Widening
