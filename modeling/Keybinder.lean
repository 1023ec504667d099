import Keybinder.Library.Refeed
import Keybinder.MatchSoundness
import Keybinder.MapperRuns
import Keybinder.MapperIndices
import Keybinder.OutputOrder
import Keybinder.Reprocessing
import Keybinder.Tracking
import Keybinder.WaitEnforcement
import Keybinder.Completeness
import Keybinder.TypedStream
import Keybinder.Acceptance
import Keybinder.ReferenceMatcher
import Keybinder.LineFraming
import Keybinder.Pausing
import Keybinder.WaitingStates
import Keybinder.QueueDelivery
import Keybinder.BasicLayers
import Keybinder.KeyLogging
import Keybinder.ReleasedInput
import Keybinder.LoadProfile
import Keybinder.Bisimulation
import Keybinder.ListingOrder
import Keybinder.CounterRestarts
import Keybinder.Daemons
import Keybinder.ScriptFiles
import Keybinder.Normalization
import Keybinder.GenerationSafety
import Keybinder.AppTriggers
import Keybinder.ProfileFormat
import Keybinder.SequenceBinds
import Keybinder.Durations
import Keybinder.KeyMaps
import Keybinder.KeyboardConfig
import Keybinder.Responses
import Keybinder.WellFormed
import Keybinder.KnownPlaces
import Keybinder.MapperThread
import Keybinder.Library.Outbox
import Keybinder.Interpreter
import Keybinder.LinuxSystem
import Keybinder.Server
import Keybinder.Messages
import Keybinder.Transparency
import Keybinder.WindowsSystem
import Keybinder.MachineTree
import Keybinder.MacSystem
import Keybinder.AppFocusListener
import Keybinder.UnassignedReads
import Keybinder.BasicThreads
