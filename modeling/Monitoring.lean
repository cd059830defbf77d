import Monitoring.Lib.CText
import Monitoring.Lib.ChunkedRead
import Monitoring.Lib.InputStream
import Monitoring.Lib.LineSearch
import Monitoring.Lib.Lines
import Monitoring.Lib.MachineInt
import Monitoring.Lib.Raise
import Monitoring.Lib.Rank
import Monitoring.Lib.Run
import Monitoring.Lib.RunHeads
import Monitoring.Lib.SortUnique
import Monitoring.Lib.SqlLexer
import Monitoring.Lib.Table
import Monitoring.Lib.While
import Monitoring.Client.CallHome
import Monitoring.Client.Config
import Monitoring.Client.Drain
import Monitoring.Client.Frame
import Monitoring.Client.Gather
import Monitoring.Client.GuestTimer
import Monitoring.Client.Launches
import Monitoring.Client.LoggedIn
import Monitoring.Client.ProgramList
import Monitoring.Client.PushedList
import Monitoring.Client.RunningProc
import Monitoring.Client.Scripts
import Monitoring.Client.Users
import Monitoring.Client.WindowsList
import Monitoring.Server.Config
import Monitoring.Server.Database
import Monitoring.Server.EventBlock
import Monitoring.Server.GatherTask
import Monitoring.Server.MachineStatus
import Monitoring.Server.ProgramLists
import Monitoring.Server.Receive
import Monitoring.Server.Registry
import Monitoring.Server.RegistryThreads
import Monitoring.Server.Upload
import Monitoring.Proofs.FrameLayout
import Monitoring.Proofs.Drain
import Monitoring.Proofs.DrainInterleaving
import Monitoring.Proofs.EventStream
import Monitoring.Proofs.Gather
import Monitoring.Proofs.EventBitmap
import Monitoring.Proofs.Config
import Monitoring.Proofs.GuestTimer
import Monitoring.Proofs.ProgramList
import Monitoring.Proofs.BitPositions
import Monitoring.Proofs.Masterlist
import Monitoring.Proofs.Registry
import Monitoring.Proofs.RegistryThreads
import Monitoring.Proofs.Blacklist
import Monitoring.Proofs.Distribution
import Monitoring.Proofs.MachineStatus
import Monitoring.Proofs.Upload
import Monitoring.Proofs.ZeroBlock
import Monitoring.Proofs.Coverage
import Monitoring.Proofs.Timestamp
import Monitoring.Proofs.MeasuredMinute
import Monitoring.Proofs.Header
import Monitoring.Proofs.DecoderLoop
import Monitoring.Proofs.CutResponse
import Monitoring.Proofs.Scripts
import Monitoring.Proofs.Schedule
import Monitoring.Proofs.Launches
import Monitoring.Proofs.ProgramLists
import Monitoring.Proofs.Readers
import Monitoring.Proofs.Detection
import Monitoring.Proofs.SqlText
import Monitoring.Proofs.ProgramLock
import Monitoring.Proofs.PushedList
import Monitoring.Proofs.LoggedIn
import Monitoring.Proofs.LocalUser
import Monitoring.Proofs.GatherTask
import Monitoring.Proofs.ServerConfig
import Monitoring.Proofs.PoolEnds
import Monitoring.Proofs.RunServer
import Monitoring.Proofs.Pipeline
import Monitoring.Proofs.EveryMinute
import Monitoring.Proofs.ProgramBits
import Monitoring.Proofs.Contact
import Monitoring.Proofs.StatusServer
