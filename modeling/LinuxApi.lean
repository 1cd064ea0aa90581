import LinuxApi.Chat.Proof.Broadcast
import LinuxApi.Chat.Proof.Relay
import LinuxApi.Chat.Proof.Serve
import LinuxApi.Dir.Proof.FileCount
import LinuxApi.Echo.Clients
import LinuxApi.Echo.Convert
import LinuxApi.Echo.EtWork
import LinuxApi.Echo.Proof.Clients
import LinuxApi.Echo.Proof.Convert
import LinuxApi.Echo.Proof.EtWork
import LinuxApi.Echo.Proof.Servers
import LinuxApi.Epoll.Listen
import LinuxApi.Epoll.Proof.Listen
import LinuxApi.Http.Answer
import LinuxApi.Http.Buffers
import LinuxApi.Http.EpollClients
import LinuxApi.Http.EpollRead
import LinuxApi.Http.EpollSend
import LinuxApi.Http.EpollServer
import LinuxApi.Http.Files
import LinuxApi.Http.Libevent
import LinuxApi.Http.Proof.Answer
import LinuxApi.Http.Proof.Decode
import LinuxApi.Http.Proof.DirBuffers
import LinuxApi.Http.Proof.DoRead
import LinuxApi.Http.Proof.EpollClients
import LinuxApi.Http.Proof.EpollSegments
import LinuxApi.Http.Proof.EpollSend
import LinuxApi.Http.Proof.Framing
import LinuxApi.Http.Proof.GetLine
import LinuxApi.Http.Proof.Links
import LinuxApi.Http.Proof.Listing
import LinuxApi.Http.Proof.Parse
import LinuxApi.Http.Proof.Root
import LinuxApi.Http.Proof.Segments
import LinuxApi.Ipc.Fifo
import LinuxApi.Ipc.Proof.Fifo
import LinuxApi.Ipc.Proof.GrepPipe
import LinuxApi.Lib.CInt
import LinuxApi.Lib.EventLoop
import LinuxApi.Lib.Exchange
import LinuxApi.Lib.Fanout
import LinuxApi.Lib.Lines
import LinuxApi.Lib.Percent
import LinuxApi.Lib.Pipe
import LinuxApi.Lib.Signals
import LinuxApi.Lib.Slots
import LinuxApi.Poll.Proof.Clients
import LinuxApi.Poll.Proof.Reports
import LinuxApi.Poll.Proof.Table
import LinuxApi.Pool.Proof.Destroy
import LinuxApi.Pool.Proof.FreeArg
import LinuxApi.Pool.Proof.Grow
import LinuxApi.Pool.Proof.Once
import LinuxApi.Pool.Proof.Reject
import LinuxApi.Pool.Proof.Release
import LinuxApi.Pool.Proof.Retire
import LinuxApi.Pool.Proof.Shutdown
import LinuxApi.Pool.Proof.Sleepers
import LinuxApi.Pool.Proof.Wakeup
import LinuxApi.Select.Proof.Clients
import LinuxApi.Select.Proof.Server
import LinuxApi.Signal.Mask
import LinuxApi.Signal.Proof.Mask
import LinuxApi.Signal.Proof.Recycle
import LinuxApi.Signal.Recycle
import LinuxApi.Tcp.Proof.AcceptLoop
import LinuxApi.Tcp.Proof.Client
import LinuxApi.Tcp.Proof.ServerThread
import LinuxApi.Thread.Cond
import LinuxApi.Thread.Proof.Cond
import LinuxApi.Thread.Proof.Sem
import LinuxApi.Udp.Echo
import LinuxApi.Udp.Proof.Echo
