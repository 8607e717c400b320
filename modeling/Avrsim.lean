import Avrsim.Infra.Loop
import Avrsim.Infra.Counter
import Avrsim.Infra.Budget
import Avrsim.Infra.Stretch
import Avrsim.Infra.Occupancy
import Avrsim.Infra.Crossings
import Avrsim.Infra.Pieces
import Avrsim.Infra.Groups
import Avrsim.Infra.Rearrange
import Avrsim.Infra.Writes
import Avrsim.Infra.Strtoul
import Avrsim.Infra.Digits
import Avrsim.Core
import Avrsim.Trace
import Avrsim.StackWatch
import Avrsim.Pin
import Avrsim.Mcu
import Avrsim.Loader
import Avrsim.MapFile
import Avrsim.Run
import Avrsim.Tool
import Avrsim.Isa
import Avrsim.Spec.History
import Avrsim.Spec.Observers
import Avrsim.Properties.Stepping
import Avrsim.Properties.Arrival
import Avrsim.Properties.CallSetup
import Avrsim.Properties.RegisterPairs
import Avrsim.Properties.RunSplit
import Avrsim.Properties.RunBudget
import Avrsim.Properties.Return
import Avrsim.Properties.CallCost
import Avrsim.Properties.TraceLog
import Avrsim.Properties.Reset
import Avrsim.Properties.Extents
import Avrsim.Properties.ReturnAddress
import Avrsim.Properties.CodeLabels
import Avrsim.Properties.MapLabels
import Avrsim.Properties.TotalCost
import Avrsim.Properties.TraceStatistics
import Avrsim.Properties.CallStarts
import Avrsim.Properties.StackMarks
import Avrsim.Properties.Independence
import Avrsim.Properties.PinLogs
import Avrsim.Properties.HexFlash
import Avrsim.Properties.Interchange
import Avrsim.Properties.ImageFormats
import Avrsim.Properties.Paint
import Avrsim.Properties.Numbers
import Avrsim.Properties.LeadingZeros
import Avrsim.Properties.CommandLine
import Avrsim.Properties.ExitCode
import Avrsim.Properties.Simulation
import Avrsim.Properties.Profile
import Avrsim.Properties.StackUse
import Avrsim.Properties.Measuring
import Avrsim.Properties.Growth
import Avrsim.Properties.Budgets
import Avrsim.Properties.WellFormed
import Avrsim.Properties.Report
import Avrsim.Properties.Instruments
import Avrsim.Properties.Rearrangement
import Avrsim.Properties.PinLevels
import Avrsim.Properties.Translation
import Avrsim.Properties.LateTraces
import Avrsim.Properties.Waits
import Avrsim.Properties.HexBytes
import Avrsim.Properties.Owners
import Avrsim.Properties.Memory
import Avrsim.Properties.LocalLabels
import Avrsim.Properties.Registrations
import Avrsim.Properties.FreshStart
import Avrsim.Properties.ToolImages
