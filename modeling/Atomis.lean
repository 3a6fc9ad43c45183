import Atomis.Lib.JsonScan
import Atomis.CollabRevision
import Atomis.MessageRevision
import Atomis.SchedulerInput
import Atomis.SchedulerOverlap
import Atomis.SchedulerSilence
import Atomis.SchedulerStop
import Atomis.SchedulerWatch
import Atomis.SessionTeardown
import Atomis.Store
import Atomis.StoreListing
import Atomis.ReadSources
import Atomis.RustProbes
import Atomis.ZigProbes
import Atomis.ZigTestRunner
import Atomis.RuntimeView
import Atomis.ProbeValues
import Atomis.SandboxRules
import Atomis.RustLogs
import Atomis.InlineLogs
import Atomis.TestPanel
import Atomis.StoreDisk
import Atomis.StoreInvariant
import Atomis.StoreRefusal
import Atomis.CreateSession
import Atomis.StoreOverwrite
import Atomis.Lib.CatchUp
import Atomis.PeerUpdate
import Atomis.NoLostUpdate
import Atomis.Lib.KeyPatch
import Atomis.PreferenceConvergence
import Atomis.OfflineQueue
import Atomis.WorkspaceStaysDeleted
import Atomis.NewestOperation
import Atomis.ReconnectConvergence
import Atomis.Workspace
import Atomis.Lib.Utf8
import Atomis.MarkerConservation
import Atomis.MarkerChunks
import Atomis.Lib.SyntaxTree
import Atomis.Lib.Splice
import Atomis.Lib.OneLine
import Atomis.ProbeId
import Atomis.RustLoopCaptures
import Atomis.RustGenerate
import Atomis.GoMarkers
import Atomis.ZigDiscards
import Atomis.ClangMarkers
import Atomis.PyInstrument
import Atomis.PySplice
import Atomis.PyRuns
import Atomis.PyGenerate
import Atomis.PyLines
import Atomis.PyWorker
import Atomis.Utf8Carry
import Atomis.Ndjson
import Atomis.LspDocuments
import Atomis.LspFraming
import Atomis.LspAttach
import Atomis.LspChunks
import Atomis.ZigErrorBundle
import Atomis.Supervisor
import Atomis.SupervisorVerdict
import Atomis.TestRun
import Atomis.TestAccounting
import Atomis.Lib.Zon
import Atomis.ZonManifest
import Atomis.ZonReaders
import Atomis.ZonRemoval
import Atomis.LspProxy
import Atomis.WorkerWire
import Atomis.TestNames
import Atomis.RustTestNames
import Atomis.Sandbox
import Atomis.Lib.Logged
import Atomis.ZigBundleArithmetic
import Atomis.HttpProxy
import Atomis.Lib.FileUrl
import Atomis.ClientUri
import Atomis.ClientFiles
import Atomis.Lib.GoSource
import Atomis.Lib.OpenFlag
import Atomis.Lib.Toml
import Atomis.GoImports
import Atomis.InputIsolation
import Atomis.InstrumentWorker
import Atomis.CargoManifest
import Atomis.Pyproject
import Atomis.Lib.Decimal
import Atomis.Lib.Regex
import Atomis.PanicLines
import Atomis.TerminalFolds
import Atomis.Lib.Ancestry
import Atomis.TreeRows
import Atomis.Lib.TwosComplement
import Atomis.Lowlevel
import Atomis.Ansi
import Atomis.HostGuard
import Atomis.Lib.Brackets
import Atomis.Surround
import Atomis.SurroundUndo
import Atomis.MarkerHoldback
import Atomis.ReadAll
import Atomis.CompileServerRuns
import Atomis.FileOrder
