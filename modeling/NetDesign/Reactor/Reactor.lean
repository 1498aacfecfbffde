import NetDesign.Run
import NetDesign.Cells
import NetDesign.FdTable

/-!
# `reactor` (reactor/reactor.hpp)

One thread waits for readiness events and runs the callback stored for the descriptor of
each. A step is one call of `epoll_wait`, the dispatch of one event of the batch it
returned, or a peer closing its sending side.

**Kernel.** `epoll_wait` returns any batch of distinct registered descriptors, with event
bits among those they are registered for; `EPOLLERR` and `EPOLLHUP` are not looked at, and an
event reported for them alone has neither bit. `close` removes a descriptor from the interest
set. The results of `accept`, `recv` and `send` are chosen by the environment, within what
was asked for.

**Memory.** An index outside `connlist` is undefined behaviour in C++. Here it reaches an item
of its own and, like every index, is recorded in `touched`.

**History.** `owner` (in an event), `log` and `shut` are read by no callback: the connection an
event was reported for, the system calls on each connection, newest first, and the peers that
closed their sending side.
-/

namespace NetDesign.Reactor

def bufferLength : Nat := 1024
def maxEventsSize : Nat := 1024

/-- What `send_cb` formats. -/
@[irreducible] def page : List Byte :=
  ascii "HTTP/1.1 200 OK\r\n" ++
  ascii "Accept-Ranges: bytes\r\n" ++
  ascii "Content-Length: 75\r\n" ++
  ascii "Content-Type: text/html\r\n" ++
  ascii "Date: Sat, 06 Aug 2023 13:16:46 GMT\r\n\r\n" ++
  ascii "<html><head><title>Dusong</title></head><body><h1>Dusong</h1></body></html>\r\n"

/-- The functions stored in callback slots. -/
inductive Callback
  | acceptCb
  | receiveCb
  | sendCb
  deriving DecidableEq, Repr

/-- `arFunc` is the union of `accept_func` and `receive_func`; a slot is `none` until it is
assigned. -/
structure ConnItem where
  fd : Int
  rbuffer : Cells Byte
  rlen : Int
  wbuffer : Cells Byte
  wlen : Int
  arFunc : Option Callback
  sendFunc : Option Callback

inductive EpollEvents
  | epollin
  | epollout
  deriving DecidableEq, Repr

inductive EpollCtl
  | add
  | mod
  | del
  deriving DecidableEq, Repr

structure EpollEvent where
  fd : Int
  epollin : Bool
  epollout : Bool
  owner : Option Nat
  deriving DecidableEq, Repr

/-- A system call on a connection: `closed` says whether the peer had closed its side. -/
inductive Call
  | accepted
  | received (bytes : List Byte)
  | failed
  | sent (bytes : List Byte) (res : Int)
  | closed (shut : Bool)
  deriving DecidableEq, Repr

/-- `events` is what is left of the batch being dispatched. -/
structure State where
  listenfd : Int
  events : List EpollEvent
  connlist : Int → ConnItem
  interest : Int → Option EpollEvents
  fds : FdTable
  touched : List Int
  log : Nat → List Call
  shut : Nat → Bool

/-- The result of the system call that a callback makes. -/
inductive Sys
  | accepted (fd : Int)
  | acceptFailed
  | received (bytes : List Byte)
  | recvFailed
  | sent (n : Nat)
  | sendFailed
  | idle
  deriving DecidableEq, Repr

inductive Act
  | wait (batch : List EpollEvent)
  | dispatch (r : Sys)
  | shutdown (c : Nat)
  deriving DecidableEq, Repr

namespace State

/-! ## The kernel -/

def Open (s : State) (fd : Int) : Prop := fd = s.listenfd ∨ s.fds.owner fd ≠ none

instance {s : State} {fd : Int} : Decidable (s.Open fd) :=
  inferInstanceAs (Decidable (_ ∨ _))

def epollCtl (s : State) (op : EpollCtl) (fd : Int) (ev : Option EpollEvents) : State :=
  match op with
  | .add =>
    if s.Open fd ∧ s.interest fd = none then
      { s with interest := Function.update s.interest fd ev }
    else s
  | .mod =>
    if s.interest fd ≠ none then { s with interest := Function.update s.interest fd ev } else s
  | .del => { s with interest := Function.update s.interest fd none }

/-- Record a system call on the connection that has `fd`. -/
def note (s : State) (fd : Int) (call : Call) : State :=
  match s.fds.owner fd with
  | some c => { s with log := Function.update s.log c (call :: s.log c) }
  | none => s

/-- Whether the peer of the connection that has `fd` has closed its side. -/
def peerShut (s : State) (fd : Int) : Bool := (s.fds.owner fd).any s.shut

def close (s : State) (fd : Int) : State :=
  let s := s.note fd (.closed (s.peerShut fd))
  { s with fds := s.fds.close fd, interest := Function.update s.interest fd none }

/-- `Socket::Accept`. -/
def accept (s : State) : Sys → Option (State × Int)
  | .accepted fd =>
    if 0 ≤ fd ∧ ¬ s.Open fd then
      some ({ s with fds := s.fds.accept fd }.note fd .accepted, fd)
    else none
  | .acceptFailed => some (s, -1)
  | _ => none

/-- `recv`: the bytes it stores, and its result. -/
def recv (s : State) (fd : Int) (len : Nat) : Sys → Option (State × List Byte × Int)
  | .received bytes =>
    if s.fds.owner fd ≠ none ∧ bytes.length ≤ len then
      some (s.note fd (.received bytes), bytes, bytes.length)
    else none
  | .recvFailed => some (s.note fd .failed, [], -1)
  | _ => none

def send (s : State) (fd : Int) (bytes : List Byte) : Sys → Option (State × Int)
  | .sent n =>
    if s.fds.owner fd ≠ none ∧ n ≤ bytes.length then
      some (s.note fd (.sent bytes n), n)
    else none
  | .sendFailed => some (s.note fd (.sent bytes (-1)), -1)
  | _ => none

/-- The event is about a registered descriptor, with bits it is registered for. -/
def Reports (s : State) (ev : EpollEvent) : Prop :=
  s.interest ev.fd ≠ none ∧ (ev.epollin = true → s.interest ev.fd = some .epollin) ∧
    (ev.epollout = true → s.interest ev.fd = some .epollout) ∧ ev.owner = s.fds.owner ev.fd

instance {s : State} {ev : EpollEvent} : Decidable (s.Reports ev) :=
  inferInstanceAs (Decidable (_ ∧ _ ∧ _ ∧ _))

/-- What one call of `epoll_wait` can return. -/
def Waits (s : State) (batch : List EpollEvent) : Prop :=
  (batch.map EpollEvent.fd).Nodup ∧ batch.length ≤ maxEventsSize ∧ ∀ ev ∈ batch, s.Reports ev

instance {s : State} {batch : List EpollEvent} : Decidable (s.Waits batch) :=
  inferInstanceAs (Decidable (_ ∧ _ ∧ ∀ ev ∈ batch, _))

/-! ## The code -/

/-- An access to `connlist[i]`. -/
def touch (s : State) (i : Int) : State := { s with touched := s.touched ++ [i] }

def setItem (s : State) (i : Int) (item : ConnItem) : State :=
  { s.touch i with connlist := Function.update s.connlist i item }

def setEvent (s : State) (fd : Int) (op : EpollCtl) (event : EpollEvents) : State :=
  s.epollCtl op fd (some event)

def acceptCb (s : State) (r : Sys) : Option State := do
  let (s, clientfd) ← s.accept r
  let s := s.setEvent clientfd .add .epollin
  let item := s.connlist clientfd
  return s.setItem clientfd
    { fd := clientfd
      rbuffer := item.rbuffer.fill 0 bufferLength 0
      rlen := 0
      wbuffer := item.wbuffer.fill 0 bufferLength 0
      wlen := 0
      arFunc := some .receiveCb
      sendFunc := some .sendCb }

/-- `receive_cb`: every result of `recv` but 0 is added to `rlen`. -/
def receiveCb (s : State) (fd : Int) (r : Sys) : Option State := do
  let item := s.connlist fd
  let idx := item.rlen
  let (s, bytes, cnt) ← s.recv fd (sizeT (bufferLength - idx)) r
  let s := s.setItem fd { item with rbuffer := item.rbuffer.write idx bytes }
  if cnt = 0 then
    return (s.epollCtl .del fd none).close fd
  else
    let item := s.connlist fd
    return (s.setItem fd { item with rlen := item.rlen + cnt }).setEvent fd .mod .epollout

/-- `send_cb`: the page and its terminator are formatted into `rbuffer`, and `rlen` bytes of
`rbuffer` are sent. -/
def sendCb (s : State) (fd : Int) (r : Sys) : Option State := do
  let item := s.connlist fd
  let s := s.setItem fd { item with rbuffer := item.rbuffer.write 0 (page ++ [0]) }
  let item := s.connlist fd
  let (s, _) ← s.send fd (item.rbuffer.read 0 (sizeT item.rlen)) r
  return s.setEvent fd .mod .epollin

/-- Call the function in a slot. An unassigned slot has no next state. -/
def call (s : State) (slot : Option Callback) (fd : Int) (r : Sys) : Option State :=
  match slot with
  | some .acceptCb => s.acceptCb r
  | some .receiveCb => s.receiveCb fd r
  | some .sendCb => s.sendCb fd r
  | none => none

/-- The body of the `for` loop of `run`. -/
def dispatch (s : State) (ev : EpollEvent) (r : Sys) : Option State :=
  let connfd := ev.fd
  if ev.epollin then
    (s.touch connfd).call (s.connlist connfd).arFunc connfd r
  else if ev.epollout then
    (s.touch connfd).call (s.connlist connfd).sendFunc connfd r
  else if r = .idle then some s else none

end State

/-- The object as its constructors leave it, and a listening socket: the buffers are as they
were in fresh storage, and no slot is assigned. -/
def construct (listenfd : Int) (storage : Int → ConnItem) : State where
  listenfd := listenfd
  events := []
  connlist i := { storage i with arFunc := none, sendFunc := none }
  interest _ := none
  fds := .initial
  touched := []
  log _ := []
  shut _ := false

/-- `init`. A socket that could not be opened makes `Bind` exit. -/
def init (listenfd : Int) (storage : Int → ConnItem) : Option State :=
  if 0 ≤ listenfd then
    let s := (construct listenfd storage).setEvent listenfd .add .epollin
    let item := s.connlist listenfd
    some (s.setItem listenfd { item with fd := listenfd, arFunc := some .acceptCb })
  else none

/-- `run`, one step at a time, and what peers do meanwhile. -/
def run (s : State) : Act → Option State
  | .wait batch => if s.events = [] ∧ s.Waits batch then some { s with events := batch } else none
  | .dispatch r =>
    match s.events with
    | ev :: rest => { s with events := rest }.dispatch ev r
    | [] => none
  | .shutdown c => some { s with shut := Function.update s.shut c true }

end NetDesign.Reactor
