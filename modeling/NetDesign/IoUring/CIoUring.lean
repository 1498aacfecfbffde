import NetDesign.IoUring.Dispatch

/-!
# The server of io_uring/c_io_uring.cc

`main` answers every request with one fixed page. There is a single `buffer`: every `recv`
of every connection stores into it, the READ branch formats the response into it, and every
`send` is sent from it.

`fromClient` and `formatted` are history: which cells of `buffer` hold bytes a `recv` stored,
and whether the last store was the READ branch's.
-/

namespace NetDesign.CIoUring

open Uring

def entriesLength : Nat := 1024
def bufferLength : Nat := 1024

/-- The locals of `main` whose addresses are handed to the kernel. -/
inductive Ptr
  | buffer
  | clientaddr
  | len
  deriving DecidableEq, Repr

structure Mem where
  sockfd : Int
  buffer : Cells Byte
  fromClient : Cells Bool
  formatted : Bool

/-- What the READ branch formats. -/
@[irreducible] def response : List Byte :=
  ascii "HTTP/1.1 200 OK\r\n" ++
  ascii "Accept-Ranges: bytes\r\n" ++
  ascii "Content-Length: 82\r\n" ++
  ascii "Content-Type: text/html\r\n" ++
  ascii "Date: Sat, 06 Aug 2023 13:16:46 GMT\r\n\r\n" ++
  ascii "<html><head><title>0voice.king</title></head><body><h1>King</h1></body></html>\r\n\r\n"

namespace Mem

/-- `sprintf(buffer, text)`: the text and its terminator. -/
def sprintf (m : Mem) (text : List Byte) : Mem :=
  { m with
    buffer := m.buffer.write 0 (text ++ [0])
    fromClient := m.fromClient.fill 0 (text.length + 1) false
    formatted := true }

/-- The kernel stores what a `recv` delivers. -/
def receive (m : Mem) (bytes : List Byte) : Mem :=
  { m with
    buffer := m.buffer.write 0 bytes
    fromClient := m.fromClient.fill 0 bytes.length true
    formatted := m.formatted && bytes.isEmpty }

end Mem

instance : Memory Mem Ptr where
  read m
    | .buffer, n => m.buffer.read 0 n
    | _, _ => []
  write m
    | .buffer, bytes => m.receive bytes
    | _, _ => m

abbrev State := St Mem Ptr ConnInfo

/-! ## The code -/

def setEventRecv (ring : State) (sockfd : Int) (buf : Ptr) (len : Nat) (flags : Int) :
    Option State :=
  ring.getSqe (prepRecv sockfd buf len flags ⟨sockfd, eventRead⟩)

def setEventSend (ring : State) (sockfd : Int) (buf : Ptr) (len : Nat) (flags : Int) :
    Option State :=
  ring.getSqe (prepSend sockfd buf len flags ⟨sockfd, eventWrite⟩)

def setEventAccept (ring : State) (sockfd : Int) (addr addrlen : Ptr) (flags : Int) :
    Option State :=
  ring.getSqe (prepAccept sockfd addr addrlen flags ⟨sockfd, eventAccept⟩)

/-- `main` up to its loop, with the descriptor `init_server` returns. The array is zeroed,
whatever the cells of the stack held. -/
def init (sockfd : Int) (stack : Cells Byte) : Option State :=
  setEventAccept
    (St.queueInit entriesLength
      ⟨sockfd, stack.fill 0 bufferLength 0, fun _ => false, false⟩)
    sockfd .clientaddr .len 0

/-- The branch of `main` for `EVENT_ACCEPT`. -/
def onAccept (ring : State) (res : Int) : Option State := do
  let ring ← setEventAccept ring ring.mem.sockfd .clientaddr .len 0
  let connfd := res
  setEventRecv ring connfd .buffer bufferLength 0

/-- The branch for `EVENT_READ`. -/
def onRead (ring : State) (fd ret : Int) : Option State :=
  if ret = 0 then some (ring.close fd)
  else if 0 < ret then
    setEventSend (ring.onMem (·.sprintf response)) fd .buffer response.length 0
  else some ring

/-- The branch for `EVENT_WRITE`. -/
def onWrite (ring : State) (fd _ret : Int) : Option State :=
  setEventRecv ring fd .buffer bufferLength 0

/-- The body of the `for` loop of `main`. -/
def handle : State → Cqe Ptr ConnInfo → Option State := dispatch onAccept onRead onWrite

/-- The length of `cqes`. -/
def cqesLength : Nat := 128

/-- The loop of `main`, together with the kernel. -/
def main : State → Act → Option State := step cqesLength handle

/-! ## Its plan -/

def plan : Plan Mem Ptr where
  listenfd := Mem.sockfd
  addr _ := .clientaddr
  addrlen _ := .len
  buf _ := .buffer
  recvLen := bufferLength
  sendLen _ := response.length
  accepted m _ := m
  read m _ _ := m.sprintf response
  wrote m _ := m

section Plan

variable {s t : State} {q : Cqe Ptr ConnInfo} {fd res : Int}

theorem onAccept_eq (h : onAccept (s.take q .accept fd) res = some t) :
    t = s.apply q (plan.acceptEffect s.mem fd res) := by
  simp only [onAccept, setEventAccept, setEventRecv, Option.bind_eq_bind, Option.bind_eq_some_iff,
    St.getSqe_eq_some] at h
  obtain ⟨s₁, ⟨-, rfl⟩, -, rfl⟩ := h
  simp [plan, Plan.acceptEffect, St.apply, St.take]

theorem onRead_eq (h : onRead (s.take q .recv fd) fd res = some t) :
    t = s.apply q (plan.readEffect s.mem fd res) := by
  rw [onRead] at h
  split_ifs at h with hzero hpos
  · cases h
    simp [Plan.readEffect, St.apply, St.take, St.close, hzero]
  · rw [setEventSend, St.getSqe_eq_some] at h
    obtain ⟨-, rfl⟩ := h
    simp [plan, Plan.readEffect, St.apply, St.take, St.onMem, hzero, hpos]
  · cases h
    simp [Plan.readEffect, St.apply, St.take, hzero, hpos]

theorem onWrite_eq (h : onWrite (s.take q .send fd) fd res = some t) :
    t = s.apply q (plan.writeEffect s.mem fd) := by
  rw [onWrite, setEventRecv, St.getSqe_eq_some] at h
  obtain ⟨-, rfl⟩ := h
  simp [plan, Plan.writeEffect, St.apply, St.take]

end Plan

/-- The loop of `main` as a completion server. -/
def server : Server Mem Ptr ConnInfo :=
  plan.server cqesLength onAccept onRead onWrite onAccept_eq onRead_eq onWrite_eq

end NetDesign.CIoUring
