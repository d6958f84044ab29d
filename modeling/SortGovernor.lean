import SortGovernor.Bytes.LittleEndian
import SortGovernor.Engine.Basic
import SortGovernor.Engine.Cascade
import SortGovernor.Engine.CascadeFlat
import SortGovernor.Engine.Charges
import SortGovernor.Engine.Cleanup
import SortGovernor.Engine.Codec
import SortGovernor.Engine.Coverage
import SortGovernor.Engine.CoveredMerge
import SortGovernor.Engine.CoveredSort
import SortGovernor.Engine.Directories
import SortGovernor.Engine.Encoding
import SortGovernor.Engine.Execute
import SortGovernor.Engine.Faultless
import SortGovernor.Engine.FileNames
import SortGovernor.Engine.Files
import SortGovernor.Engine.HeapHeads
import SortGovernor.Engine.Holds
import SortGovernor.Engine.Ingest
import SortGovernor.Engine.Jobs
import SortGovernor.Engine.Merge
import SortGovernor.Engine.MergeFiles
import SortGovernor.Engine.MergeOutput
import SortGovernor.Engine.MergeRows
import SortGovernor.Engine.Metered
import SortGovernor.Engine.OnlyReads
import SortGovernor.Engine.Operation
import SortGovernor.Engine.Output
import SortGovernor.Engine.Reading
import SortGovernor.Engine.Requests
import SortGovernor.Engine.Results
import SortGovernor.Engine.RoundTrip
import SortGovernor.Engine.Run
import SortGovernor.Engine.RunCount
import SortGovernor.Engine.RunFile
import SortGovernor.Engine.RunFormat
import SortGovernor.Engine.ScratchFiles
import SortGovernor.Engine.Session
import SortGovernor.Engine.SessionInvariants
import SortGovernor.Engine.SessionState
import SortGovernor.Engine.SortRuns
import SortGovernor.Engine.Spill
import SortGovernor.Engine.Stays
import SortGovernor.Engine.Stream
import SortGovernor.Engine.Threshold
import SortGovernor.Engine.World
import SortGovernor.Plan.Planner
import SortGovernor.Plan.Soundness
import SortGovernor.Replay.Committed
import SortGovernor.Replay.Cursor
import SortGovernor.Replay.Jobs
import SortGovernor.Replay.Publication
import SortGovernor.Replay.Storage
import SortGovernor.Replay.Writer
import SortGovernor.Resumption.Abstraction
import SortGovernor.Resumption.Interference
import SortGovernor.Resumption.Logic
import SortGovernor.Resumption.Program
import SortGovernor.Resumption.Raises
import SortGovernor.Runtime.Actor
import SortGovernor.Runtime.Budget
import SortGovernor.Runtime.Charges
import SortGovernor.Runtime.CleanupProgress
import SortGovernor.Runtime.Conservation
import SortGovernor.Runtime.Coupling
import SortGovernor.Runtime.Coverage
import SortGovernor.Runtime.Discipline
import SortGovernor.Runtime.Endings
import SortGovernor.Runtime.Exclusion
import SortGovernor.Runtime.Execute
import SortGovernor.Runtime.Flights
import SortGovernor.Runtime.Guarantees
import SortGovernor.Runtime.Idle
import SortGovernor.Runtime.Keepers
import SortGovernor.Runtime.Ledger
import SortGovernor.Runtime.Machine
import SortGovernor.Runtime.Outstanding
import SortGovernor.Runtime.Owners
import SortGovernor.Runtime.Parties
import SortGovernor.Runtime.Parts
import SortGovernor.Runtime.Readers
import SortGovernor.Runtime.ReplayCleanup
import SortGovernor.Runtime.ReplayGuarantees
import SortGovernor.Runtime.ReplayRun
import SortGovernor.Runtime.ReplayScripts
import SortGovernor.Runtime.Replays
import SortGovernor.Runtime.ScratchAnswers
import SortGovernor.Runtime.ScratchOwners
import SortGovernor.Runtime.Sorts
import SortGovernor.Runtime.Tenure
import SortGovernor.Runtime.Turns
import SortGovernor.Service.Actor
import SortGovernor.Service.Admission
import SortGovernor.Sorting.Frontier
import SortGovernor.Sorting.Interleave
import SortGovernor.Sorting.Merge
import SortGovernor.Sorting.Packing
import SortGovernor.Sorting.PriorityQueue
import SortGovernor.Sorting.StableSort
