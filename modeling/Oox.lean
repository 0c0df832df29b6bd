import Oox.Library.Heap
import Oox.Library.Ledger
import Oox.Library.Columns
import Oox.Model.Instr
import Oox.Analysis.IssueChanges
import Oox.Forwarding.Get
import Oox.Preservation.Sound
import Oox.Ports.InBounds
import Oox.TaskBench.Bounds
import Oox.TaskBench.Schedules
import Oox.Waiting.Promise
import Oox.Waiting.Monitor
import Oox.Dispatch.Start
import Oox.Handover.Slot
import Oox.Handover.Readers
import Oox.Forwarding.Transparent
import Oox.Forwarding.Overtake
import Oox.Recovery.Overwrite
import Oox.Cancellation.Agreement
import Oox.Lifetime.Release
import Oox.Lifetime.Conversion
import Oox.Lifetime.Access
import Oox.Versions.Serialization
import Oox.Completion.Once
import Oox.RapidStart.Trapper
