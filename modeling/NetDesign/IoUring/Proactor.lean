import NetDesign.IoUring.Dispatch

/-!
# `proactor` (io_uring/my_io_uring.hpp)

The echo server with a table of connections: every connection receives into, and is echoed
from, the `rbuffer` of its own slot in `connect_list`.

An index outside the table is undefined behaviour in C++. Here it reaches a slot of its own
and, like every index, is recorded in `touched`, so that theorems can say which indices a
run uses. `terminators` records the slot and the offset of every terminator that is stored,
and `scopes` and `live` the activations that own a `clientaddr` and a `len`.
-/

namespace NetDesign.Proactor

open Uring

def maxConnect : Nat := 1024
def entriesLength : Nat := 1024
def bufferLength : Nat := 1024

structure ConnItem where
  fd : Int
  rbuffer : Cells Byte
  rlen : Int
  wbuffer : Cells Byte
  wlen : Int

/-- The objects whose addresses are handed to the kernel. -/
inductive Ptr
  | rbuffer (slot : Int)
  | clientaddr (scope : Nat)
  | len (scope : Nat)
  deriving DecidableEq, Repr

structure Mem where
  listenfd : Int
  connectList : Int → ConnItem
  touched : List Int
  terminators : List (Int × Int)
  scopes : Nat
  live : List Nat

namespace Mem

/-- An access to `connect_list[i]`. -/
def touch (m : Mem) (i : Int) : Mem := { m with touched := m.touched ++ [i] }

def setItem (m : Mem) (i : Int) (item : ConnItem) : Mem :=
  { m with connectList := Function.update m.connectList i item }

/-- A scope with a `clientaddr` and a `len` of its own opens, and closes. -/
def openScope (m : Mem) : Mem := { m with scopes := m.scopes + 1, live := m.scopes :: m.live }

def closeScope (m : Mem) : Mem := { m with live := m.live.tail }

def initConnectItem (m : Mem) (clientfd : Int) : Mem :=
  let item := m.connectList clientfd
  (m.touch clientfd).setItem clientfd
    { fd := clientfd
      rbuffer := item.rbuffer.fill 0 bufferLength 0
      rlen := 0
      wbuffer := item.wbuffer.fill 0 bufferLength 0
      wlen := 0 }

/-- `rbuffer[ret] = 0`. One past the end is the lowest byte of `rlen`. -/
def terminate (m : Mem) (clientfd ret : Int) : Mem :=
  let item := m.connectList clientfd
  ({ m with terminators := m.terminators ++ [(clientfd, ret)] }.touch clientfd).setItem clientfd
    (if ret = bufferLength then { item with rlen := item.rlen - item.rlen % 256 }
    else { item with rbuffer := item.rbuffer.write ret [0] })

end Mem

/-- The kernel moves bytes only through `rbuffer`; the peer address is not looked at. -/
instance : Memory Mem Ptr where
  read m
    | .rbuffer slot, n => (m.connectList slot).rbuffer.read 0 n
    | _, _ => []
  write m
    | .rbuffer slot, bytes =>
      m.setItem slot
        { m.connectList slot with rbuffer := (m.connectList slot).rbuffer.write 0 bytes }
    | _, _ => m

abbrev State := St Mem Ptr ConnInfo

/-! ## The code -/

def setEventRecv (s : State) (clientfd : Int) (buf : Ptr) (len : Nat) (flags : Int) :
    Option State :=
  s.getSqe (prepRecv clientfd buf len flags ⟨clientfd, eventRead⟩)

def setEventSend (s : State) (clientfd : Int) (buf : Ptr) (len : Nat) (flags : Int) :
    Option State :=
  s.getSqe (prepSend clientfd buf len flags ⟨clientfd, eventWrite⟩)

def setEventAccept (s : State) (addr addrlen : Ptr) (flags : Int) : Option State :=
  s.getSqe (prepAccept s.mem.listenfd addr addrlen flags ⟨s.mem.listenfd, eventAccept⟩)

/-- `init`, with the descriptor `init_socket` gets and the table as it is in fresh storage. -/
def init (listenfd : Int) (connectList : Int → ConnItem) : Option State := do
  let s : State := St.queueInit entriesLength ⟨listenfd, connectList, [], [], 0, []⟩
  let scope := s.mem.scopes
  let s := s.onMem Mem.openScope
  let s ← setEventAccept s (.clientaddr scope) (.len scope) 0
  return s.onMem Mem.closeScope

/-- The branch of `run` for `EVENT_ACCEPT`. -/
def onAccept (s : State) (res : Int) : Option State := do
  let scope := s.mem.scopes
  let s := s.onMem Mem.openScope
  let s ← setEventAccept s (.clientaddr scope) (.len scope) 0
  let connfd := res
  let s := s.onMem (·.initConnectItem connfd)
  let s ← setEventRecv (s.onMem (·.touch connfd)) connfd (.rbuffer connfd) bufferLength 0
  return s.onMem Mem.closeScope

/-- The branch for `EVENT_READ`: `ret` bytes are in the buffer already. -/
def onRead (s : State) (fd ret : Int) : Option State :=
  if ret = 0 then some (s.close fd)
  else if 0 < ret then
    setEventSend (s.onMem (·.terminate fd ret)) fd (.rbuffer fd) ret.toNat 0
  else some s

/-- The branch for `EVENT_WRITE`: the result is read and not used. -/
def onWrite (s : State) (fd _ret : Int) : Option State :=
  setEventRecv (s.onMem (·.touch fd)) fd (.rbuffer fd) bufferLength 0

/-- The body of the `for` loop of `run`. -/
def handle : State → Cqe Ptr ConnInfo → Option State := dispatch onAccept onRead onWrite

/-- The length of `cqes`. -/
def cqesLength : Nat := 128

/-- `run`, together with the kernel. -/
def run : State → Act → Option State := step cqesLength handle

/-! ## Its plan -/

def plan : Plan Mem Ptr where
  listenfd := Mem.listenfd
  addr m := .clientaddr m.scopes
  addrlen m := .len m.scopes
  buf := .rbuffer
  recvLen := bufferLength
  sendLen := Int.toNat
  accepted m connfd := ((m.openScope.initConnectItem connfd).touch connfd).closeScope
  read := Mem.terminate
  wrote := Mem.touch

section Plan

variable {s t : State} {q : Cqe Ptr ConnInfo} {fd res : Int}

theorem onAccept_eq (h : onAccept (s.take q .accept fd) res = some t) :
    t = s.apply q (plan.acceptEffect s.mem fd res) := by
  simp only [onAccept, setEventAccept, setEventRecv, Option.bind_eq_bind, Option.bind_eq_some_iff,
    St.getSqe_eq_some, Option.pure_def, Option.some.injEq] at h
  obtain ⟨s₁, ⟨-, rfl⟩, s₂, ⟨-, rfl⟩, rfl⟩ := h
  simp [plan, Plan.acceptEffect, St.apply, St.take, St.onMem, Mem.openScope, Mem.initConnectItem,
    Mem.touch, Mem.setItem]

theorem onRead_eq (h : onRead (s.take q .recv fd) fd res = some t) :
    t = s.apply q (plan.readEffect s.mem fd res) := by
  rw [onRead] at h
  split_ifs at h with hzero hpos
  · cases h
    simp [Plan.readEffect, St.apply, St.take, St.close, hzero]
  · rw [setEventSend, St.getSqe_eq_some] at h
    obtain ⟨-, rfl⟩ := h
    simp [plan, Plan.readEffect, St.apply, St.take, St.onMem, hzero, hpos]
  · cases h
    simp [Plan.readEffect, St.apply, St.take, hzero, hpos]

theorem onWrite_eq (h : onWrite (s.take q .send fd) fd res = some t) :
    t = s.apply q (plan.writeEffect s.mem fd) := by
  rw [onWrite, setEventRecv, St.getSqe_eq_some] at h
  obtain ⟨-, rfl⟩ := h
  simp [plan, Plan.writeEffect, St.apply, St.take, St.onMem]

end Plan

/-- `proactor` as a completion server. -/
def server : Server Mem Ptr ConnInfo :=
  plan.server cqesLength onAccept onRead onWrite onAccept_eq onRead_eq onWrite_eq

end NetDesign.Proactor
