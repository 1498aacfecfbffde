import NetDesign.Run
import NetDesign.Cells
import NetDesign.FdTable

/-!
# Completion-driven servers over `io_uring`

A server fills submission entries, submits them, and works through the completions the
kernel posts. This file has the rings, the kernel behind them and the server loop; what a
server does with one completion is a parameter.

**Rings.** `sq` holds the entries that were filled but not submitted, `inflight` those the
kernel has not executed, `done` the completions it has not posted and `cq` the posted ones.
The kernel executes any entry in flight and posts any completion at any time, so only `sq`
and `cq` have a meaningful order.

**Kernel.** A `recv` stores the bytes it delivers when it is executed, a `send` reads its
buffer when it is executed, and `accept` opens a descriptor that is not open. An operation
on a descriptor that is not open fails.

**History.** `cause`, `got`, `current`, `posted`, `handled` and `sends` record what happened
and are read by no server.
-/

namespace NetDesign.Uring

/-- How the kernel reaches the memory of a server through its pointers `α`. -/
class Memory (μ : Type*) (α : outParam Type*) where
  read : μ → α → Nat → List Byte
  write : μ → α → List Byte → μ

inductive Opcode
  | accept
  | recv
  | send
  deriving DecidableEq, Repr

/-- The connection an operation ran on, and the bytes it moved. -/
structure Delivery where
  conn : Nat
  bytes : List Byte
  deriving DecidableEq, Repr

/-- A submission entry. `addrlen` is the second pointer of an `accept`; `cause` is the
delivery of the completion during whose handling the entry was filled. -/
structure Sqe (α υ : Type*) where
  opcode : Opcode
  fd : Int
  addr : α
  len : Nat
  addrlen : Option α
  flags : Int
  userData : υ
  cause : Option Delivery

/-- A completion, with the entry it answers. -/
structure Cqe (α υ : Type*) where
  sqe : Sqe α υ
  res : Int
  got : Option Delivery

/-- The kernel copies `user_data` from the entry to its completion. -/
def Cqe.userData {α υ : Type*} (q : Cqe α υ) : υ := q.sqe.userData

section Prep

variable {α υ : Type*}

def prepAccept (fd : Int) (addr addrlen : α) (flags : Int) (userData : υ) : Sqe α υ :=
  ⟨.accept, fd, addr, 0, some addrlen, flags, userData, none⟩

def prepRecv (fd : Int) (buf : α) (len : Nat) (flags : Int) (userData : υ) : Sqe α υ :=
  ⟨.recv, fd, buf, len, none, flags, userData, none⟩

def prepSend (fd : Int) (buf : α) (len : Nat) (flags : Int) (userData : υ) : Sqe α υ :=
  ⟨.send, fd, buf, len, none, flags, userData, none⟩

end Prep

/-- The descriptor table, and the byte streams of every connection so far. -/
structure Net extends FdTable where
  rx : Nat → List Byte
  tx : Nat → List Byte

namespace Net

def initial : Net := ⟨.initial, fun _ => [], fun _ => []⟩

def accept (net : Net) (fd : Int) : Net := { net with toFdTable := net.toFdTable.accept fd }

def close (net : Net) (fd : Int) : Net := { net with toFdTable := net.toFdTable.close fd }

def receive (net : Net) (c : Nat) (bytes : List Byte) : Net :=
  { net with rx := Function.update net.rx c (net.rx c ++ bytes) }

def transmit (net : Net) (c : Nat) (bytes : List Byte) : Net :=
  { net with tx := Function.update net.tx c (net.tx c ++ bytes) }

section

variable (net : Net) {c k : Nat} (bytes : List Byte)

@[simp] theorem receive_rx_self : (net.receive c bytes).rx c = net.rx c ++ bytes :=
  Function.update_self _ _ _

theorem receive_rx_of_ne (h : k ≠ c) : (net.receive c bytes).rx k = net.rx k :=
  Function.update_of_ne h _ _

@[simp] theorem transmit_tx_self : (net.transmit c bytes).tx c = net.tx c ++ bytes :=
  Function.update_self _ _ _

theorem transmit_tx_of_ne (h : k ≠ c) : (net.transmit c bytes).tx k = net.tx k :=
  Function.update_of_ne h _ _

end

end Net

/-! ## The kernel -/

/-- What the environment decides about one execution: the descriptor, the bytes or the
count of a success, or the error number less one. -/
inductive Outcome
  | fail (errno : Nat)
  | accepted (fd : Int)
  | received (bytes : List Byte)
  | sent (n : Nat)

/-- An executed `send`: the memory the kernel found and how much it took. -/
structure Sending (μ α υ : Type*) where
  sqe : Sqe α υ
  conn : Nat
  mem : μ
  n : Nat

/-- The effect of an execution. -/
structure Performed (μ α υ : Type*) where
  net : Net
  mem : μ
  cqe : Cqe α υ
  sending : Option (Sending μ α υ)

section Kernel

variable {μ α υ : Type*} [Memory μ α]

/-- The bytes a `send` found in its buffer. -/
def Sending.bytes (x : Sending μ α υ) : List Byte := Memory.read x.mem x.sqe.addr x.sqe.len

/-- The kernel executes the entry `e`. -/
def perform (net : Net) (mem : μ) (e : Sqe α υ) : Outcome → Option (Performed μ α υ)
  | .fail errno => some ⟨net, mem, ⟨e, -(errno + 1), none⟩, none⟩
  | .accepted fd =>
    if e.opcode = .accept ∧ 0 ≤ fd ∧ fd ≠ e.fd ∧ net.owner fd = none then
      some ⟨net.accept fd, mem, ⟨e, fd, some ⟨net.count, []⟩⟩, none⟩
    else none
  | .received bytes =>
    match net.owner e.fd with
    | some c =>
      if e.opcode = .recv ∧ bytes.length ≤ e.len then
        some ⟨net.receive c bytes, Memory.write mem e.addr bytes,
          ⟨e, bytes.length, some ⟨c, bytes⟩⟩, none⟩
      else none
    | none => none
  | .sent n =>
    match net.owner e.fd with
    | some c =>
      if e.opcode = .send ∧ n ≤ e.len then
        let bytes := (Memory.read mem e.addr e.len).take n
        some ⟨net.transmit c bytes, mem, ⟨e, n, some ⟨c, bytes⟩⟩, some ⟨e, c, mem, n⟩⟩
      else none
    | none => none

/-- **What an execution can do.** -/
theorem perform_cases {net : Net} {mem : μ} {e : Sqe α υ} {o : Outcome} {p : Performed μ α υ}
    (h : perform net mem e o = some p) :
    (∃ errno, o = .fail errno ∧ p = ⟨net, mem, ⟨e, -(errno + 1), none⟩, none⟩) ∨
    (∃ fd, o = .accepted fd ∧ e.opcode = .accept ∧ 0 ≤ fd ∧ fd ≠ e.fd ∧ net.owner fd = none ∧
      p = ⟨net.accept fd, mem, ⟨e, fd, some ⟨net.count, []⟩⟩, none⟩) ∨
    (∃ bytes c, o = .received bytes ∧ e.opcode = .recv ∧ net.owner e.fd = some c ∧
      bytes.length ≤ e.len ∧
      p = ⟨net.receive c bytes, Memory.write mem e.addr bytes,
        ⟨e, bytes.length, some ⟨c, bytes⟩⟩, none⟩) ∨
    (∃ n c, o = .sent n ∧ e.opcode = .send ∧ net.owner e.fd = some c ∧ n ≤ e.len ∧
      p = ⟨net.transmit c ((Memory.read mem e.addr e.len).take n), mem,
        ⟨e, n, some ⟨c, (Memory.read mem e.addr e.len).take n⟩⟩, some ⟨e, c, mem, n⟩⟩) := by
  cases o with
  | fail errno =>
    simp only [perform, Option.some.injEq] at h
    exact .inl ⟨errno, rfl, h.symm⟩
  | accepted fd =>
    simp only [perform, Option.ite_none_right_eq_some, Option.some.injEq] at h
    obtain ⟨⟨hop, h0, hne, hown⟩, rfl⟩ := h
    exact .inr (.inl ⟨fd, rfl, hop, h0, hne, hown, rfl⟩)
  | received bytes =>
    simp only [perform] at h
    split at h
    · rename_i c hc
      simp only [Option.ite_none_right_eq_some, Option.some.injEq] at h
      obtain ⟨⟨hop, hlen⟩, rfl⟩ := h
      exact .inr (.inr (.inl ⟨bytes, c, rfl, hop, hc, hlen, rfl⟩))
    · cases h
  | sent n =>
    simp only [perform] at h
    split at h
    · rename_i c hc
      simp only [Option.ite_none_right_eq_some, Option.some.injEq] at h
      obtain ⟨⟨hop, hlen⟩, rfl⟩ := h
      exact .inr (.inr (.inr ⟨n, c, rfl, hop, hc, hlen, rfl⟩))
    · cases h

/-- A completion answers the entry that was executed. -/
theorem perform_sqe {net : Net} {mem : μ} {e : Sqe α υ} {o : Outcome} {p : Performed μ α υ}
    (h : perform net mem e o = some p) : p.cqe.sqe = e := by
  rcases perform_cases h with ⟨_, -, rfl⟩ | ⟨_, -, -, -, -, -, rfl⟩ | ⟨_, _, -, -, -, -, rfl⟩ |
    ⟨_, _, -, -, -, -, rfl⟩ <;> rfl

/-- An execution leaves memory alone, but for what a `recv` stores. -/
theorem perform_mem {net : Net} {mem : μ} {e : Sqe α υ} {o : Outcome} {p : Performed μ α υ}
    (h : perform net mem e o = some p) :
    p.mem = mem ∨ ∃ bytes, p.mem = Memory.write mem e.addr bytes := by
  rcases perform_cases h with ⟨_, -, rfl⟩ | ⟨_, -, -, -, -, -, rfl⟩ |
    ⟨bytes, _, -, -, -, -, rfl⟩ | ⟨_, _, -, -, -, -, rfl⟩
  · exact .inl rfl
  · exact .inl rfl
  · exact .inr ⟨bytes, rfl⟩
  · exact .inl rfl

end Kernel

/-! ## The rings -/

/-- Where the server loop is: before the submit, after it, or at entry `i` of a batch. -/
inductive Pc
  | head
  | waiting
  | batch (nready i : Nat)
  deriving DecidableEq, Repr

/-- A completion the server took, with the branch it took for it and the descriptor that
branch was given. -/
structure Handled (α υ : Type*) where
  cqe : Cqe α υ
  branch : Opcode
  fd : Int

structure St (μ α υ : Type*) where
  entries : Nat
  sq : List (Sqe α υ)
  inflight : List (Sqe α υ)
  done : List (Cqe α υ)
  cq : List (Cqe α υ)
  pc : Pc
  mem : μ
  net : Net
  current : Option Delivery
  posted : List (Cqe α υ)
  handled : List (Handled α υ)
  sends : List (Sending μ α υ)

namespace St

variable {μ α υ : Type*}

/-- `io_uring_queue_init_params`: empty rings of the given size. -/
def queueInit (entries : Nat) (mem : μ) : St μ α υ :=
  ⟨entries, [], [], [], [], .head, mem, .initial, none, [], [], []⟩

/-- `io_uring_get_sqe` and the filling of the entry it returns. A full queue gives a null
pointer, and the server that writes through it has no next state. -/
def getSqe (s : St μ α υ) (e : Sqe α υ) : Option (St μ α υ) :=
  if s.sq.length < s.entries then
    some { s with sq := s.sq ++ [{ e with cause := s.current }] }
  else none

theorem getSqe_eq_some {s t : St μ α υ} {e : Sqe α υ} :
    s.getSqe e = some t ↔
      s.sq.length < s.entries ∧ t = { s with sq := s.sq ++ [{ e with cause := s.current }] } := by
  simp [getSqe, eq_comm]

/-- The server writes its own memory. -/
def onMem (s : St μ α υ) (f : μ → μ) : St μ α υ := { s with mem := f s.mem }

/-- `io_uring_submit`. -/
def submit (s : St μ α υ) : St μ α υ :=
  { s with sq := [], inflight := s.inflight ++ s.sq }

/-- `io_uring_peek_batch_cqe`: how many completions it shows. -/
def peekBatch (s : St μ α υ) (count : Nat) : Nat := min count s.cq.length

/-- `io_uring_cq_advance`. -/
def cqAdvance (s : St μ α υ) (n : Nat) : St μ α υ := { s with cq := s.cq.drop n }

/-- `close`. -/
def close (s : St μ α υ) (fd : Int) : St μ α υ := { s with net := s.net.close fd }

/-- Record the branch taken for a completion. -/
def take (s : St μ α υ) (q : Cqe α υ) (branch : Opcode) (fd : Int) : St μ α υ :=
  { s with handled := s.handled ++ [⟨q, branch, fd⟩] }

end St

/-! ## The loop -/

/-- One step is taken by the server, or by the kernel: it executes the `k`-th entry in
flight, or posts its `k`-th completion. -/
inductive Act
  | program
  | exec (k : Nat) (o : Outcome)
  | post (k : Nat)

variable {μ α υ : Type*}

/-- One step of the server loop: submit; wait and peek at most `batch` completions; handle
one of them; release the batch. Waiting consumes nothing, and its result is not looked at. -/
def loopStep (batch : Nat) (handle : St μ α υ → Cqe α υ → Option (St μ α υ))
    (s : St μ α υ) : Option (St μ α υ) :=
  match s.pc with
  | .head => some { s.submit with pc := .waiting }
  | .waiting => some { s with pc := .batch (s.peekBatch batch) 0 }
  | .batch nready i =>
    if i < nready then
      match s.cq[i]? with
      | some q => (handle { s with pc := .batch nready (i + 1), current := q.got } q)
      | none => none
    else some { s.cqAdvance nready with pc := .head, current := none }

variable [Memory μ α]

/-- A step of the server and the kernel together. -/
def step (batch : Nat) (handle : St μ α υ → Cqe α υ → Option (St μ α υ)) (s : St μ α υ) :
    Act → Option (St μ α υ)
  | .program => loopStep batch handle s
  | .exec k o =>
    match s.inflight[k]? with
    | some e =>
      (perform s.net s.mem e o).map fun p =>
        { s with
          inflight := s.inflight.eraseIdx k
          done := s.done ++ [p.cqe]
          net := p.net
          mem := p.mem
          sends := s.sends ++ p.sending.toList }
    | none => none
  | .post k =>
    match s.done[k]? with
    | some q =>
      some { s with done := s.done.eraseIdx k, cq := s.cq ++ [q], posted := s.posted ++ [q] }
    | none => none

/-- The steps, one by one. -/
inductive Steps (batch : Nat) (handle : St μ α υ → Cqe α υ → Option (St μ α υ))
    (s : St μ α υ) : Act → St μ α υ → Prop
  | exec {k : Nat} {o : Outcome} {e : Sqe α υ} {p : Performed μ α υ} :
      s.inflight[k]? = some e → perform s.net s.mem e o = some p →
      Steps batch handle s (.exec k o)
        { s with
          inflight := s.inflight.eraseIdx k
          done := s.done ++ [p.cqe]
          net := p.net
          mem := p.mem
          sends := s.sends ++ p.sending.toList }
  | post {k : Nat} {q : Cqe α υ} :
      s.done[k]? = some q →
      Steps batch handle s (.post k)
        { s with done := s.done.eraseIdx k, cq := s.cq ++ [q], posted := s.posted ++ [q] }
  | submit : s.pc = .head → Steps batch handle s .program { s.submit with pc := .waiting }
  | peek :
      s.pc = .waiting →
      Steps batch handle s .program { s with pc := .batch (s.peekBatch batch) 0 }
  | handle {nready i : Nat} {q : Cqe α υ} {t : St μ α υ} :
      s.pc = .batch nready i → i < nready → s.cq[i]? = some q →
      handle { s with pc := .batch nready (i + 1), current := q.got } q = some t →
      Steps batch handle s .program t
  | release {nready i : Nat} :
      s.pc = .batch nready i → nready ≤ i →
      Steps batch handle s .program { s.cqAdvance nready with pc := .head, current := none }

/-- **What a step can do.** -/
theorem steps_of_step {batch : Nat} {handle : St μ α υ → Cqe α υ → Option (St μ α υ)}
    {s t : St μ α υ} {a : Act} (h : step batch handle s a = some t) :
    Steps batch handle s a t := by
  cases a with
  | exec k o =>
    simp only [step] at h
    split at h
    · rename_i e he
      obtain ⟨p, hp, rfl⟩ := Option.map_eq_some_iff.1 h
      exact .exec he hp
    · cases h
  | post k =>
    simp only [step] at h
    split at h
    · rename_i q hq
      cases h
      exact .post hq
    · cases h
  | program =>
    simp only [step, loopStep] at h
    split at h
    · rename_i hhead
      cases h
      exact .submit hhead
    · rename_i hwait
      cases h
      exact .peek hwait
    · rename_i nready i hbatch
      split_ifs at h with hi
      · split at h
        · rename_i q hq
          exact .handle hbatch hi hq h
        · cases h
      · cases h
        exact .release hbatch (Nat.not_lt.1 hi)

end NetDesign.Uring
