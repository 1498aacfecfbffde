import NetDesign.Uring.Balance

/-!
# What the two `io_uring` servers share

Both servers keep a `conn_info` in `user_data`, branch on its event, and answer an accept by
an accept and a `recv`, a READ by a `send` or a `close`, and a WRITE by a `recv`. They differ
in the buffers they name, in the lengths they ask for and in what they do to their memory: a
`Plan` holds these, and `Plan.server` turns a plan and the code that follows it into a
completion server.
-/

namespace NetDesign

open Uring

def eventAccept : Int := 0
def eventRead : Int := 1
def eventWrite : Int := 2

/-- What the servers keep in `user_data`. -/
structure ConnInfo where
  fd : Int
  event : Int
  deriving DecidableEq, Repr

def ConnInfo.tag : Opcode × Int → ConnInfo
  | (.accept, fd) => ⟨fd, eventAccept⟩
  | (.recv, fd) => ⟨fd, eventRead⟩
  | (.send, fd) => ⟨fd, eventWrite⟩

variable {μ α : Type*}

/-- The chain of branches in the body of both `for` loops. The event is noted together with
the branch it led to. -/
def dispatch (onAccept : St μ α ConnInfo → Int → Option (St μ α ConnInfo))
    (onRead onWrite : St μ α ConnInfo → Int → Int → Option (St μ α ConnInfo))
    (s : St μ α ConnInfo) (entries : Cqe α ConnInfo) : Option (St μ α ConnInfo) :=
  let result := entries.userData
  if result.event = eventAccept then
    onAccept (s.take entries .accept result.fd) entries.res
  else if result.event = eventRead then
    onRead (s.take entries .recv result.fd) result.fd entries.res
  else if result.event = eventWrite then
    onWrite (s.take entries .send result.fd) result.fd entries.res
  else some s

/-- Where a server differs from the other. -/
structure Plan (μ α : Type*) where
  listenfd : μ → Int
  addr : μ → α
  addrlen : μ → α
  buf : Int → α
  recvLen : Nat
  sendLen : Int → Nat
  accepted : μ → Int → μ
  read : μ → Int → Int → μ
  wrote : μ → Int → μ

namespace Plan

variable (p : Plan μ α)

def acceptEffect (m : μ) (fd res : Int) : Effect μ α ConnInfo where
  mem := p.accepted m res
  prep :=
    [prepAccept (p.listenfd m) (p.addr m) (p.addrlen m) 0 ⟨p.listenfd m, eventAccept⟩,
      prepRecv res (p.buf res) p.recvLen 0 ⟨res, eventRead⟩]
  close := none
  branch := .accept
  fd := fd

def readEffect (m : μ) (fd res : Int) : Effect μ α ConnInfo where
  mem := if 0 < res then p.read m fd res else m
  prep := if 0 < res then [prepSend fd (p.buf fd) (p.sendLen res) 0 ⟨fd, eventWrite⟩] else []
  close := if res = 0 then some fd else none
  branch := .recv
  fd := fd

def writeEffect (m : μ) (fd : Int) : Effect μ α ConnInfo where
  mem := p.wrote m fd
  prep := [prepRecv fd (p.buf fd) p.recvLen 0 ⟨fd, eventRead⟩]
  close := none
  branch := .send
  fd := fd

/-- The effect of handling a completion, by the operation behind it. -/
def effect (m : μ) (q : Cqe α ConnInfo) : Effect μ α ConnInfo :=
  match q.sqe.opcode with
  | .accept => p.acceptEffect m q.sqe.fd q.res
  | .recv => p.readEffect m q.sqe.fd q.res
  | .send => p.writeEffect m q.sqe.fd

section Effect

variable {p} {m : μ} {q : Cqe α ConnInfo}

theorem effect_accept (h : q.sqe.opcode = .accept) :
    p.effect m q = p.acceptEffect m q.sqe.fd q.res := by
  rw [effect, h]

theorem effect_recv (h : q.sqe.opcode = .recv) :
    p.effect m q = p.readEffect m q.sqe.fd q.res := by
  rw [effect, h]

theorem effect_send (h : q.sqe.opcode = .send) : p.effect m q = p.writeEffect m q.sqe.fd := by
  rw [effect, h]

/-- **The entries a plan fills.** -/
theorem mem_tokens {x : Token α ConnInfo} (hx : x ∈ (p.effect m q).tokens q) :
    (q.sqe.opcode = .accept ∧
      (x = .waiting { prepAccept (p.listenfd m) (p.addr m) (p.addrlen m) 0
          ⟨p.listenfd m, eventAccept⟩ with cause := q.got } ∨
        x = .waiting { prepRecv q.res (p.buf q.res) p.recvLen 0 ⟨q.res, eventRead⟩ with
          cause := q.got })) ∨
    (q.sqe.opcode = .recv ∧ 0 < q.res ∧
      x = .waiting { prepSend q.sqe.fd (p.buf q.sqe.fd) (p.sendLen q.res) 0
        ⟨q.sqe.fd, eventWrite⟩ with cause := q.got }) ∨
    (q.sqe.opcode = .send ∧
      x = .waiting { prepRecv q.sqe.fd (p.buf q.sqe.fd) p.recvLen 0 ⟨q.sqe.fd, eventRead⟩ with
        cause := q.got }) := by
  obtain ⟨e, he, rfl⟩ := mem_effect_tokens.1 hx
  cases hop : q.sqe.opcode with
  | accept =>
    rw [effect_accept hop] at he
    rcases List.mem_pair.1 he with rfl | rfl
    · exact .inl ⟨rfl, .inl rfl⟩
    · exact .inl ⟨rfl, .inr rfl⟩
  | recv =>
    rw [effect_recv hop] at he
    simp only [readEffect] at he
    split_ifs at he with hres
    · cases List.mem_singleton.1 he
      exact .inr (.inl ⟨rfl, hres, rfl⟩)
    · cases he
  | send =>
    rw [effect_send hop] at he
    cases List.mem_singleton.1 he
    exact .inr (.inr ⟨rfl, rfl⟩)

end Effect

/-- Code that follows the plan, as a completion server. -/
def server (batch : Nat) (onAccept : St μ α ConnInfo → Int → Option (St μ α ConnInfo))
    (onRead onWrite : St μ α ConnInfo → Int → Int → Option (St μ α ConnInfo))
    (hAccept : ∀ {s t : St μ α ConnInfo} {q fd res}, onAccept (s.take q .accept fd) res = some t →
      t = s.apply q (p.acceptEffect s.mem fd res))
    (hRead : ∀ {s t : St μ α ConnInfo} {q fd res}, onRead (s.take q .recv fd) fd res = some t →
      t = s.apply q (p.readEffect s.mem fd res))
    (hWrite : ∀ {s t : St μ α ConnInfo} {q fd res}, onWrite (s.take q .send fd) fd res = some t →
      t = s.apply q (p.writeEffect s.mem fd)) : Server μ α ConnInfo where
  batch := batch
  handle := dispatch onAccept onRead onWrite
  tag := ConnInfo.tag
  listenfd := p.listenfd
  effect := p.effect
  handle_eq := by
    intro s q t hq h
    cases hop : q.sqe.opcode <;> simp only [Sqe.key, hop, ConnInfo.tag] at hq <;>
      simp only [dispatch, hq] at h
    · rw [effect_accept hop]
      exact hAccept h
    · rw [effect_recv hop]
      exact hRead h
    · rw [effect_send hop]
      exact hWrite h
  prep_key := by
    intro m q _
    cases hop : q.sqe.opcode <;> simp only [Sqe.key, hop]
    · rw [effect_accept hop]
      rfl
    · rw [effect_recv hop]
      by_cases hres : 0 < q.res <;> simp [readEffect, replies, hres, prepSend, Sqe.key]
    · rw [effect_send hop]
      rfl
  prep_tag := by
    intro m q _ e he
    cases hop : q.sqe.opcode
    · rw [effect_accept hop] at he
      rcases List.mem_pair.1 he with rfl | rfl <;> rfl
    · rw [effect_recv hop] at he
      simp only [readEffect] at he
      split_ifs at he
      · cases List.mem_singleton.1 he
        rfl
      · cases he
    · rw [effect_send hop] at he
      cases List.mem_singleton.1 he
      rfl
  close_eq := by
    intro m q _
    cases hop : q.sqe.opcode <;> simp [effect, hop, Sqe.key, closing, acceptEffect, readEffect,
      writeEffect]
  branch_eq := by
    intro m q _
    cases hop : q.sqe.opcode <;> simp [effect, hop, Sqe.key, acceptEffect, readEffect,
      writeEffect]

end Plan

end NetDesign
