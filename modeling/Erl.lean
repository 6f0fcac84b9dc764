import Erl.Lib.System
import Erl.Lib.Bytes
import Erl.Lib.Decoder
import Erl.Lib.Ordered
import Erl.Lib.Heap
import Erl.Expect.Logic
import Erl.Expect.Guards
import Erl.Expect.Printing
import Erl.Rpc.Refinement
import Erl.Rpc.Malformed
import Erl.Rpc.PipeProgress
import Erl.Rpc.EventDelivery
import Erl.Rpc.Template
import Erl.Rpc.Policy
import Erl.Platform.Plugin
import Erl.Message.Building
import Erl.Message.Limits
import Erl.Message.Reservation
import Erl.Message.Serialization
import Erl.Queue.PipeBlocks
import Erl.Queue.MpmcDelivery
import Erl.Queue.MpmcProgress
import Erl.Queue.BasicProgress
import Erl.Queue.MpmcSequential
import Erl.Queue.SpscSequential
import Erl.Util.TriePaths
import Erl.Util.TrieMisses
import Erl.Net.Receive
import Erl.Net.Sockets
import Erl.Config.CommandLine
import Erl.Config.Meaning
import Erl.Config.SpecParser
import Erl.Config.Delivery
import Erl.Config.Decimal
import Erl.Config.Constraints
import Erl.Logging.Threads
import Erl.Logging.Terminal
import Erl.Logging.Callbacks
import Erl.Queue.EventBlocks
import Erl.Format.Tokens
import Erl.Format.Diagnostics
import Erl.Format.Paths
import Erl.Reflect.TypeHash
