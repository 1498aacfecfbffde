import NetDesign.Run
import NetDesign.History
import NetDesign.Loop
import NetDesign.Cells
import NetDesign.FdTable
import NetDesign.Http
import NetDesign.Session
import NetDesign.Service
import NetDesign.Decimal
import NetDesign.Socket.Socket
import NetDesign.Uring.Ring
import NetDesign.Uring.Board
import NetDesign.Uring.Balance
import NetDesign.Uring.Outstanding
import NetDesign.Uring.Queue
import NetDesign.Uring.Progress
import NetDesign.Uring.Lockstep
import NetDesign.Uring.Session
import NetDesign.Uring.Service
import NetDesign.Uring.Realised
import NetDesign.IoUring.Dispatch
import NetDesign.IoUring.Proactor
import NetDesign.IoUring.CIoUring
import NetDesign.IoUring.Conservation
import NetDesign.IoUring.Progress
import NetDesign.IoUring.Lockstep
import NetDesign.IoUring.Bounds
import NetDesign.IoUring.Lifetime
import NetDesign.IoUring.Response
import NetDesign.IoUring.Ownership
import NetDesign.IoUring.Echo
import NetDesign.IoUring.Session
import NetDesign.IoUring.Service
import NetDesign.Reactor.Reactor
import NetDesign.Reactor.Wiring
import NetDesign.Reactor.Dispatch
import NetDesign.Reactor.Accept
import NetDesign.Reactor.Bounds
import NetDesign.Reactor.Buffer
import NetDesign.Reactor.Noninterference
import NetDesign.Reactor.Framing
import NetDesign.Reactor.Session
import NetDesign.Reactor.Service
import NetDesign.Reactor.Singleton
import NetDesign.SelectPoll.Server
import NetDesign.SelectPoll.Round
import NetDesign.SelectPoll.Select
import NetDesign.SelectPoll.Poll
import NetDesign.SelectPoll.Watched
import NetDesign.SelectPoll.Reported
import NetDesign.SelectPoll.Equivalence
import NetDesign.SelectPoll.Echo
import NetDesign.SelectPoll.Session
import NetDesign.SelectPoll.Service
import NetDesign.SelectPoll.Realised
import NetDesign.SelectPoll.Failure
import NetDesign.Coroutine.Frame
import NetDesign.Coroutine.Task
import NetDesign.Coroutine.Stepping
import NetDesign.Agreement

