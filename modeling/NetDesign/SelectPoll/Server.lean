import NetDesign.Run
import NetDesign.Loop
import NetDesign.Cells
import NetDesign.FdTable

/-!
# Readiness loops (select_poll)

`select.cc` and `poll.cc` are the same loop around a different call: wait for readiness, accept
one client if the listener is ready, and answer every descriptor above the listener that is
ready with what it sent. A step is one round of the loop. What is watched, and how, is a
`Watcher`.

**Kernel.** The call that waits reports any of the descriptors it is asked about. `accept`
returns a descriptor that is not open, `recv` at most as many bytes as it is asked for, and only
from an open descriptor. `send` transmits all it is given or fails.

**Memory.** Watched descriptors are kept in fixed tables. An index outside them is undefined
behaviour in C++. Here it reaches an entry of its own and, like every index, is recorded in
`touched`.

**History.** `trace` has the system calls of a run, newest first, with the connection each was
made on.
-/

namespace NetDesign.SelectPoll

/-- The length of `buffer`. -/
def bufferLength : Nat := 128

/-- `FD_SETSIZE`, and the number of entries in `fds`. -/
def tableSize : Nat := 1024

inductive Call
  | accept (res : Int)
  | recv (fd : Int) (conn : Option Nat) (res : Option (List Byte))
  | send (fd : Int) (conn : Option Nat) (buf : Cells Byte) (len : Nat) (ok : Bool)
  | close (fd : Int)

/-- What the environment decides in one round: what is reported ready, unless the call fails;
the results of `accept` and, by descriptor, of `recv` and `send`; and what lies around `buffer`
on the stack. -/
structure Env where
  ready : Option (Int → Bool)
  accepted : Option Int
  received : Int → Option (List Byte)
  sent : Int → Bool
  stack : Cells Byte

/-- `others` are the descriptors that are open besides the listener and the clients. -/
structure State (ω : Type*) where
  sockfd : Int
  watch : ω
  mxfd : Int
  others : Int → Bool
  fds : FdTable
  touched : List Int
  trace : List Call

namespace State

variable {ω : Type*}

/-! ## The kernel -/

def Open (s : State ω) (fd : Int) : Prop :=
  fd = s.sockfd ∨ s.fds.owner fd ≠ none ∨ s.others fd = true

instance {s : State ω} {fd : Int} : Decidable (s.Open fd) :=
  inferInstanceAs (Decidable (_ ∨ _ ∨ _))

def call (s : State ω) (c : Call) : State ω := { s with trace := c :: s.trace }

/-- `Socket::Accept`. -/
def accept (s : State ω) : Option Int → Option (State ω × Int)
  | some fd =>
    if 0 ≤ fd ∧ ¬ s.Open fd then
      some ({ s with fds := s.fds.accept fd }.call (.accept fd), fd)
    else none
  | none => some (s.call (.accept (-1)), -1)

/-- `recv`: the bytes it stores, and its result. -/
def recv (s : State ω) (fd : Int) (len : Nat) :
    Option (List Byte) → Option (State ω × List Byte × Int)
  | some bytes =>
    if s.Open fd ∧ bytes.length ≤ len then
      some (s.call (.recv fd (s.fds.owner fd) (some bytes)), bytes, bytes.length)
    else none
  | none => some (s.call (.recv fd (s.fds.owner fd) none), [], -1)

def send (s : State ω) (fd : Int) (buf : Cells Byte) (len : Nat) (ok : Bool) : State ω :=
  s.call (.send fd (s.fds.owner fd) buf len ok)

def close (s : State ω) (fd : Int) : State ω :=
  { s with fds := s.fds.close fd, others := Function.update s.others fd false }.call (.close fd)

/-- An access to entry `i` of a table. -/
def touch (s : State ω) (i : Int) : State ω := { s with touched := s.touched ++ [i] }

end State

/-! ## The loop -/

/-- A way to watch descriptors: what a wait leaves, which descriptors it reported, and what is
done when a client comes and goes, neither of which changes what was reported. -/
structure Watcher (ω : Type*) where
  wait : State ω → Option (Int → Bool) → ω
  isReady : ω → Int → Bool
  add : ω → Int → ω
  forget : ω → Int → ω
  isReady_add : ∀ {v c fd}, isReady (add v c) fd = isReady v fd
  isReady_forget : ∀ {v c fd}, isReady (forget v c) fd = isReady v fd

namespace Watcher

variable {ω : Type*} (w : Watcher ω)

/-- The first half of a round: `sockfd` is ready, or not. -/
def accepting (env : Env) (s : State ω) : Option (State ω) :=
  let s := s.touch s.sockfd
  if w.isReady s.watch s.sockfd then do
    let (s, clientfd) ← s.accept env.accepted
    let s := s.touch clientfd
    return { s with watch := w.add s.watch clientfd, mxfd := max s.mxfd clientfd }
  else some s

/-- The body of the `for` loop. -/
def serve (env : Env) (fd : Int) (s : State ω) : Option (State ω) :=
  let s := s.touch fd
  if w.isReady s.watch fd then do
    let buffer := env.stack.fill 0 bufferLength 0
    let (s, bytes, count) ← s.recv fd bufferLength (env.received fd)
    let buffer := buffer.write 0 bytes
    if count = 0 then
      let s := s.touch fd
      return { s with watch := w.forget s.watch fd }.close fd
    else
      return s.send fd buffer (sizeT count) (env.sent fd)
  else some s

/-- One round of the `while` loop. -/
def main (s : State ω) (env : Env) : Option (State ω) := do
  let s := { s with watch := w.wait s env.ready }
  let s ← w.accepting env s
  forInt (s.sockfd + 1) (s.mxfd + 1) (w.serve env) s

end Watcher

/-! ## Rounds to run -/

/-- The standard streams. -/
def stdio : Int → Bool := fun fd => decide (0 ≤ fd ∧ fd < 3)

/-- `ready` are reported ready, and the same is received from all of them. -/
def round (ready : List Int) (accepted : Option Int) (received : Option (List Byte)) : Env where
  ready := some fun fd => decide (fd ∈ ready)
  accepted := accepted
  received _ := received
  sent _ := true
  stack _ := 0

/-- Two clients come, the first one says something and goes, and a third one gets its
descriptor. -/
def reusing : List Env :=
  [round [3] (some 4) none, round [3, 4] (some 5) (some (ascii "hi")), round [4] none (some []),
    round [3, 5] (some 4) (some (ascii "ho"))]

end NetDesign.SelectPoll
