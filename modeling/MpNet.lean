import MpNet.Library.Run
import MpNet.Library.CInt
import MpNet.Library.Memory
import MpNet.Library.Doorbell
import MpNet.Library.Framing
import MpNet.Library.Backlog
import MpNet.Shmq.Block
import MpNet.Shmq.Interleaving
import MpNet.Shmq.Layout
import MpNet.Shmq.Invariant
import MpNet.Shmq.Reachable
import MpNet.Shmq.FifoProperties
import MpNet.Shmq.FullQueueProperties
import MpNet.Shmq.PushCallProperties
import MpNet.Shmq.RepresentationProperties
import MpNet.Shmq.CapacityProperties
import MpNet.Shmq.Bell
import MpNet.Net.Wakeup
import MpNet.Net.FdTable
import MpNet.Net.Receive
import MpNet.Net.ReceiveProperties
import MpNet.Net.FramingProperties
import MpNet.Net.FdTableProperties
import MpNet.Session.Worker
import MpNet.Session.System
import MpNet.Session.Identity
import MpNet.Session.History
import MpNet.Session.AnswerProperties
import MpNet.Session.Callbacks
import MpNet.Session.CloseProperties
import MpNet.Session.Agreement
import MpNet.Session.AgreementProperties
import MpNet.Session.QuiescenceProperties
import MpNet.Net.EventLoop
import MpNet.Net.EventLoopProperties
import MpNet.Net.Output
import MpNet.Net.OutputProperties
import MpNet.Net.SendLimitProperties
import MpNet.Library.EdgeTrigger
import MpNet.Net.EdgeTriggered
import MpNet.Net.EdgeTriggeredProperties
import MpNet.Net.UnreadInputProperties
import MpNet.Library.Children
import MpNet.Process.ChildPids
import MpNet.Process.ChildPidsProperties
import MpNet.Library.Descriptors
import MpNet.Process.PipeEnds
import MpNet.Process.PipeEndsProperties
import MpNet.Process.PipeHolderProperties
import MpNet.Net.ReceiveBuffer
import MpNet.Net.ReceiveBufferProperties
import MpNet.Net.OutputBuffer
import MpNet.Net.OutputBufferProperties
import MpNet.Net.CloseOutputProperties
import MpNet.Net.Reentrance
import MpNet.Net.ReentranceProperties
import MpNet.Net.AcceptLoop
import MpNet.Net.AcceptLoopProperties
import MpNet.Net.SendPackage
import MpNet.Net.SendPackageProperties
import MpNet.Library.IntrusiveList
import MpNet.Net.Queues
import MpNet.Net.QueuesProperties
import MpNet.Net.EtinWalk
import MpNet.Net.EtinWalkProperties
import MpNet.Net.Delivery
import MpNet.Net.DeliveryProperties
import MpNet.Net.ListHeader
import MpNet.Net.ListHeaderProperties
import MpNet.Net.QueueOperations
import MpNet.Net.QueueOperationsProperties
import MpNet.Net.TableInvariant
import MpNet.Net.TableOperations
import MpNet.Net.TableOperationsProperties
import MpNet.Net.Sweeps
import MpNet.Net.SweepsProperties
import MpNet.Net.WorkerWakeup
import MpNet.Library.CString
import MpNet.Library.Cursor
import MpNet.Library.Tokens
import MpNet.Config.StrSplit
import MpNet.Config.StrSplitProperties
import MpNet.Config.BindConf
import MpNet.Config.BindConfProperties
import MpNet.Library.SlotTable
import MpNet.Library.Scanf
import MpNet.Config.Dictionary
import MpNet.Config.DictionaryProperties
import MpNet.Config.IniParser
import MpNet.Config.IniParserProperties
import MpNet.Config.IniLoadProperties
import MpNet.Config.Options
import MpNet.Config.OptionsProperties
import MpNet.Config.IniDump
import MpNet.Config.IniLineProperties
import MpNet.Config.IniDumpProperties
import MpNet.Config.IniRoundTripProperties
import MpNet.Session.Traffic
import MpNet.Session.RequestProperties
import MpNet.Session.AnswerOrderProperties
import MpNet.Session.Echo
import MpNet.Session.EchoProperties
import MpNet.Session.Crash
import MpNet.Session.CrashProperties
import MpNet.Process.RestartProperties
import MpNet.Process.QueueMappings
import MpNet.Process.QueueMappingsProperties
import MpNet.Process.Lifecycle
import MpNet.Process.LifecycleProperties
import MpNet.Library.AtomicObject
import MpNet.Shmq.AtomicQueueProperties
import MpNet.Session.SettleProperties
import MpNet.Library.Transactions
import MpNet.Session.SharedQueues
import MpNet.Session.SharedQueuesProperties
import MpNet.Net.OutputStreamProperties
import MpNet.Session.EchoSockets
import MpNet.Session.EchoReadProperties
import MpNet.Session.BufferProperties
import MpNet.Session.EchoSocketsProperties
