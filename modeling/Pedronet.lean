import Pedronet.OrderedMultimap
import Pedronet.TimerChannel
import Pedronet.TimerHashWheel
import Pedronet.TimerHeapQueue.WakeUp
import Pedronet.Transition
import Pedronet.Pool
import Pedronet.TimerHashWheel.Placed
import Pedronet.TimerHashWheel.NotEarly
import Pedronet.Event
import Pedronet.Partition
import Pedronet.Poller
import Pedronet.EventQueue
import Pedronet.EventQueue.LockFree
import Pedronet.Poller.Locators
import Pedronet.EventQueue.Mutex
import Pedronet.EventLoop
import Pedronet.EventLoop.Shutdown
import Pedronet.SocketChannel
import Pedronet.TcpConnection
import Pedronet.TcpConnection.Outcomes
import Pedronet.TcpConnection.Shutdown
import Pedronet.TcpConnection.Stream
import Pedronet.TcpConnection.Threads
import Pedronet.TcpConnection.Delivery
import Pedronet.TcpConnection.BackPressure
import Pedronet.TcpConnection.Close
import Pedronet.TcpConnection.Order
import Pedronet.TcpConnection.LastCallback
import Pedronet.TcpConnection.Once
import Pedronet.EventLoop.Exclusive
import Pedronet.TcpConnection.WriteInterest
import Pedronet.TimerHashWheel.Waiting
import Pedronet.TimerHeapQueue.Concurrent
import Pedronet.TimerQueue
import Pedronet.TimerHashWheel.Complete
import Pedronet.TimerHashWheel.Stranded
import Pedronet.TimerHashWheel.Ends
import Pedronet.TcpConnection.Lifetime
import Pedronet.TcpServer
import Pedronet.TcpServer.Connections
import Pedronet.TcpServer.Close
import Pedronet.TcpServer.Owners
import Pedronet.Acceptor
import Pedronet.EpollSelector
import Pedronet.Selector
import Pedronet.TcpClient
import Pedronet.TcpClient.Attempts
import Pedronet.TcpClient.Connection
import Pedronet.TcpClient.Closers
import Pedronet.TcpClient.Agreement
import Pedronet.TcpClient.ForceClose
import Pedronet.TcpServer.Lock
import Pedronet.TimerChannel.Concurrent
import Pedronet.TimerChannel.LastProgrammed
import Pedronet.TimerChannel.Int64
import Pedronet.EventQueue.Size
import Pedronet.TcpConnection.WriteClosed
import Pedronet.TimerHeapQueue.Process
import Pedronet.Poller.Entries
import Pedronet.SocketChannel.Interest
import Pedronet.Acceptor.Accept
import Pedronet.TcpClient.Connect
import Pedronet.EventLoopGroup
import Pedronet.TimerChannel.Postponed
import Pedronet.TimerHeapQueue.Armed
import Pedronet.TimerHeapQueue.Paced
import Pedronet.Transition.Trace
import Pedronet.Executor
import Pedronet.EventQueue.Serves
import Pedronet.Transition.Leads
import Pedronet.EventQueue.Progress
import Pedronet.EventLoop.Serves
import Pedronet.EventLoop.Live
import Pedronet.EventLoop.Drains
import Pedronet.EventLoop.Returns
import Pedronet.Pipe
import Pedronet.TcpLink
import Pedronet.TcpLink.Graceful
import Pedronet.TimerHashWheel.Heartbeat
import Pedronet.RoundRobin
import Pedronet.EventLoopGroup.Tasks
import Pedronet.EventLoopGroup.Join
import Pedronet.Keyed
import Pedronet.Registry
import Pedronet.Poller.Delivers
import Pedronet.EpollSelector.Delivers
import Pedronet.Registry.Watched
import Pedronet.TcpConnection.Selected
import Pedronet.TimerService
import Pedronet.TimerHashWheel.Serves
import Pedronet.TimerHeapQueue.Serves
import Pedronet.TimerQueue.Serves
import Pedronet.TimerHashWheel.Paced
import Pedronet.TimerHeapQueue.Lateness
import Pedronet.TcpConnection.Flush
import Pedronet.TcpLink.Arrives
import Pedronet.Session
import Pedronet.TcpClient.Session
