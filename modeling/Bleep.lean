import Bleep.Lib.TransSys
import Bleep.Lib.Network
import Bleep.BL3.BlockTree
import Bleep.BL3.Rooted
import Bleep.BL3.PoWConverge
import Bleep.BL3.PoWTxs
import Bleep.BL3.PoWMining
import Bleep.Lib.Delivery
import Bleep.BL3.ProtocolLayerEx1
import Bleep.BL3.Gossip
import Bleep.BL1.Socket
import Bleep.BL2.Message
import Bleep.Lib.Framing
import Bleep.BL1.RecvBuffer
import Bleep.BL1.SocketLayer
import Bleep.BL1.Connection
import Bleep.BL3.TxPoolHistory
import Bleep.BL3.PoWOpen
import Bleep.BL3.PoWAccounts
import Bleep.BL3.PoWDoubleSpend
import Bleep.Interfaces.MemShare
import Bleep.BL3.PoWDisconnect
import Bleep.BL2.PeerManager
import Bleep.BL2.PeerConnectivityLayer
import Bleep.BL2.Node
import Bleep.BL2.NodeFaults
import Bleep.BL2.RecvMsg
import Bleep.BL2.PeerCounters
import Bleep.BL2.PeerLife
import Bleep.BL2.Numbers
import Bleep.BL2.BufferIsolation
import Bleep.BL2.QueuedEvents
import Bleep.BL2.ConnectEvents
import Bleep.BL2.ConnectFailure
import Bleep.BL1.RecvFaults
import Bleep.BL1.SocketLayerBitcoin
import Bleep.Utility.UInt256
import Bleep.Lib.LongDivision
import Bleep.Utility.UIntDiv
import Bleep.Lib.Digits
import Bleep.Utility.HashText
import Bleep.BL3.BlockHash
import Bleep.BL2.AddrManager
import Bleep.BL2.AddrSelection
import Bleep.BL2.EventLog
import Bleep.BL2.PingTimer
import Bleep.BL2.AddrRelay
import Bleep.Interfaces.ShadowClock
import Bleep.ShadowLayer
import Bleep.BL3.TreeCalls
import Bleep.BL3.SyncRound
import Bleep.BL3.RefusedBlocks
import Bleep.BL3.BlkReplies
import Bleep.Testlibs.TestResult
import Bleep.Lib.Draws
import Bleep.Utility.Random
import Bleep.Lib.Fifo
import Bleep.BL3.PoWEnds
import Bleep.BL2.Posting
import Bleep.Stack.Fabric
import Bleep.Stack.Stream
import Bleep.Stack.Refines
import Bleep.Stack.Simulation
import Bleep.Stack.Protocols
import Bleep.Stack.OverSockets
import Bleep.Lib.IteratedHash
import Bleep.Crypto.SHA256
import Bleep.BL3.HeaderDigest
import Bleep.Lib.EventLoop
import Bleep.MainEventManager
import Bleep.Lib.Descent
import Bleep.Stack.Settle
