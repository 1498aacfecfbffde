import NetDesign.Uring.Ring
import Mathlib.Data.Multiset.Count
import Mathlib.Data.Multiset.Filter
import Mathlib.Data.List.Perm.Basic
import Mathlib.Algebra.Order.Group.Multiset
import Mathlib.Tactic.Abel

/-!
# Operations as tokens

The rings of a server forget nothing but the order of its operations, and nothing about a
server depends on that order. The **board** keeps the multiset of outstanding operations:
a token is `waiting` until the kernel executes it and `ready` until the server has handled
its completion. Two moves are left:

* the kernel executes a waiting token, which becomes ready;
* the server handles a ready token, which is replaced by the entries it fills.

A `Server` is a completion handler together with the law it obeys: an accept is answered by
another accept and a `recv` on the new descriptor, a `recv` that delivered bytes by a
`send`, a `recv` that delivered none by a `close`, a `send` by a `recv`, and a `recv` that
failed by nothing.

Main result: `step_board`, every step of the rings is a move of the board or leaves it.
-/

namespace NetDesign.Uring

variable {μ α υ : Type*}

/-- What an entry asks for: the operation and its descriptor. -/
def Sqe.key (e : Sqe α υ) : Opcode × Int := (e.opcode, e.fd)

/-! ## Servers -/

/-- What the handling of one completion does. -/
structure Effect (μ α υ : Type*) where
  mem : μ
  prep : List (Sqe α υ)
  close : Option Int
  branch : Opcode
  fd : Int

/-- The operations that answer a completion, given the listening descriptor. -/
def replies (listenfd : Int) : Opcode × Int → Int → List (Opcode × Int)
  | (.accept, _), res => [(.accept, listenfd), (.recv, res)]
  | (.recv, fd), res => if 0 < res then [(.send, fd)] else []
  | (.send, fd), _ => [(.recv, fd)]

/-- The descriptor a completion makes the server close. -/
def closing : Opcode × Int → Int → Option Int
  | (.recv, fd), res => if res = 0 then some fd else none
  | _, _ => none

def St.apply (s : St μ α υ) (q : Cqe α υ) (f : Effect μ α υ) : St μ α υ :=
  { s with
    mem := f.mem
    sq := s.sq ++ f.prep.map fun e => { e with cause := s.current }
    net := f.close.elim s.net s.net.close
    handled := s.handled ++ [⟨q, f.branch, f.fd⟩] }

/-- A completion handler, its effect on a completion whose `user_data` names the operation
behind it, and the law of its effects. -/
structure Server (μ α υ : Type*) where
  batch : Nat
  handle : St μ α υ → Cqe α υ → Option (St μ α υ)
  tag : Opcode × Int → υ
  listenfd : μ → Int
  effect : μ → Cqe α υ → Effect μ α υ
  handle_eq : ∀ {s q t}, q.userData = tag q.sqe.key → handle s q = some t →
    t = s.apply q (effect s.mem q)
  prep_key : ∀ {m q}, q.userData = tag q.sqe.key →
    (effect m q).prep.map Sqe.key = replies (listenfd m) q.sqe.key q.res
  prep_tag : ∀ {m q}, q.userData = tag q.sqe.key →
    ∀ e ∈ (effect m q).prep, e.userData = tag e.key
  close_eq : ∀ {m q}, q.userData = tag q.sqe.key →
    (effect m q).close = closing q.sqe.key q.res
  branch_eq : ∀ {m q}, q.userData = tag q.sqe.key →
    ((effect m q).branch, (effect m q).fd) = q.sqe.key

/-! ## The board -/

inductive Token (α υ : Type*)
  | waiting (e : Sqe α υ)
  | ready (q : Cqe α υ)

/-- The entry behind a token. -/
def Token.sqe : Token α υ → Sqe α υ
  | .waiting e => e
  | .ready q => q.sqe

@[simp] theorem Token.sqe_waiting (e : Sqe α υ) : (Token.waiting e).sqe = e := rfl

@[simp] theorem Token.sqe_ready (q : Cqe α υ) : (Token.ready q).sqe = q.sqe := rfl

structure Board (μ α υ : Type*) where
  tokens : Multiset (Token α υ)
  mem : μ
  net : Net
  sends : List (Sending μ α υ)
  handled : List (Handled α υ)

inductive Move (α υ : Type*)
  | exec (e : Sqe α υ) (o : Outcome)
  | handle (q : Cqe α υ)

/-- The tokens of the entries an effect fills, while handling `q`. -/
def Effect.tokens (f : Effect μ α υ) (q : Cqe α υ) : Multiset (Token α υ) :=
  (f.prep : Multiset (Sqe α υ)).map fun e => .waiting { e with cause := q.got }

theorem mem_effect_tokens {f : Effect μ α υ} {q : Cqe α υ} {x : Token α υ} :
    x ∈ f.tokens q ↔ ∃ e ∈ f.prep, x = .waiting { e with cause := q.got } := by
  simp [Effect.tokens, eq_comm]

/-- A token that waits after an execution waited before it. -/
theorem waiting_mem_of_exec {b : Board μ α υ} {T : Multiset (Token α υ)} {e x : Sqe α υ}
    {q : Cqe α υ} (hT : b.tokens = .waiting e ::ₘ T)
    (hx : .waiting x ∈ (.ready q ::ₘ T : Multiset (Token α υ))) : .waiting x ∈ b.tokens := by
  rw [hT]
  rcases Multiset.mem_cons.1 hx with h | h
  · cases h
  · exact Multiset.mem_cons_of_mem h

/-! ## The tokens of the rings -/

/-- How many entries of the current batch are handled. -/
def Pc.taken : Pc → Nat
  | .batch _ i => i
  | _ => 0

namespace St

/-- The outstanding operations: filled, in flight, executed, and posted but not handled. -/
def tokens (s : St μ α υ) : Multiset (Token α υ) :=
  (s.sq : Multiset (Sqe α υ)).map .waiting + (s.inflight : Multiset (Sqe α υ)).map .waiting +
    (s.done : Multiset (Cqe α υ)).map .ready +
    (s.cq.drop s.pc.taken : Multiset (Cqe α υ)).map .ready

def board (s : St μ α υ) : Board μ α υ := ⟨s.tokens, s.mem, s.net, s.sends, s.handled⟩

/-- The move an action makes, if it makes one. -/
def move (s : St μ α υ) : Act → Option (Move α υ)
  | .program =>
    match s.pc with
    | .batch nready i => if i < nready then s.cq[i]?.map .handle else none
    | _ => none
  | .exec k o => s.inflight[k]?.map fun e => .exec e o
  | .post _ => none

/-- A batch was peeked from the completions there are, and is handled in order. -/
def PcOk (batch : Nat) (s : St μ α υ) : Prop :=
  ∀ nready i, s.pc = .batch nready i → i ≤ nready ∧ nready ≤ s.cq.length ∧ nready ≤ batch

end St

theorem coe_eraseIdx {β : Type*} {l : List β} {k : Nat} {x : β} (h : l[k]? = some x) :
    (l : Multiset β) = x ::ₘ (l.eraseIdx k : Multiset β) := by
  obtain ⟨hk, rfl⟩ := List.getElem?_eq_some_iff.1 h
  exact Multiset.coe_eq_coe.2 (List.getElem_cons_eraseIdx_perm hk).symm

/-- Posting a completion moves it behind those already posted. -/
theorem post_tokens {s : St μ α υ} {k : Nat} {q : Cqe α υ} (hi : s.pc.taken ≤ s.cq.length)
    (hq : s.done[k]? = some q) :
    { s with done := s.done.eraseIdx k, cq := s.cq ++ [q], posted := s.posted ++ [q] }.tokens =
      s.tokens := by
  simp only [St.tokens, List.drop_append_of_le_length hi, coe_eraseIdx hq, ← Multiset.coe_add,
    Multiset.coe_singleton, Multiset.map_add, Multiset.map_singleton, ← Multiset.singleton_add]
  abel

theorem St.PcOk.taken_le {batch : Nat} {s : St μ α υ} (h : s.PcOk batch) :
    s.pc.taken ≤ s.cq.length := by
  cases hpc : s.pc with
  | batch nready i =>
    obtain ⟨hi, hn, -⟩ := h nready i hpc
    exact hi.trans hn
  | _ => exact Nat.zero_le _

/-- The completion a batch has come to is outstanding. -/
theorem ready_mem_tokens {s : St μ α υ} {nready i : Nat} {q : Cqe α υ}
    (hpc : s.pc = .batch nready i) (hq : s.cq[i]? = some q) : .ready q ∈ s.tokens := by
  have hmem : q ∈ s.cq.drop i := by
    obtain ⟨hlt, rfl⟩ := List.getElem?_eq_some_iff.1 hq
    rw [List.drop_eq_getElem_cons hlt]
    exact List.mem_cons_self
  simp only [St.tokens, hpc, Pc.taken, Multiset.mem_add, Multiset.mem_map]
  exact .inr ⟨q, hmem, rfl⟩

/-! ## Moves -/

variable [Memory μ α]

inductive Moves (srv : Server μ α υ) (b : Board μ α υ) : Move α υ → Board μ α υ → Prop
  | exec {T : Multiset (Token α υ)} {e : Sqe α υ} {o : Outcome} {p : Performed μ α υ} :
      b.tokens = .waiting e ::ₘ T → perform b.net b.mem e o = some p →
      Moves srv b (.exec e o)
        ⟨.ready p.cqe ::ₘ T, p.mem, p.net, b.sends ++ p.sending.toList, b.handled⟩
  | handle {T : Multiset (Token α υ)} {q : Cqe α υ} :
      b.tokens = .ready q ::ₘ T →
      Moves srv b (.handle q)
        ⟨(srv.effect b.mem q).tokens q + T, (srv.effect b.mem q).mem,
          (srv.effect b.mem q).close.elim b.net b.net.close, b.sends,
          b.handled ++ [⟨q, (srv.effect b.mem q).branch, (srv.effect b.mem q).fd⟩]⟩

theorem Moves.ready_mem {srv : Server μ α υ} {b b' : Board μ α υ} {q : Cqe α υ}
    (h : Moves srv b (.handle q) b') : .ready q ∈ b.tokens := by
  cases h with
  | handle hT => exact hT ▸ Multiset.mem_cons_self _ _

theorem Moves.waiting_mem {srv : Server μ α υ} {b b' : Board μ α υ} {e : Sqe α υ} {o : Outcome}
    (h : Moves srv b (.exec e o) b') : .waiting e ∈ b.tokens := by
  cases h with
  | exec hT => exact hT ▸ Multiset.mem_cons_self _ _

/-- A handled completion leaves the queue and brings the entries it fills. -/
theorem handle_board {srv : Server μ α υ} {s t : St μ α υ} {nready i : Nat} {q : Cqe α υ}
    (hpc : s.pc = .batch nready i) (hq : s.cq[i]? = some q)
    (htag : q.userData = srv.tag q.sqe.key)
    (h : srv.handle { s with pc := .batch nready (i + 1), current := q.got } q = some t) :
    Moves srv s.board (.handle q) t.board := by
  obtain ⟨hi, rfl⟩ := List.getElem?_eq_some_iff.1 hq
  have hdrop : s.cq.drop i = s.cq[i] :: s.cq.drop (i + 1) := List.drop_eq_getElem_cons hi
  cases srv.handle_eq htag h
  have hbefore : s.board.tokens = .ready s.cq[i] ::ₘ
      ((s.sq : Multiset (Sqe α υ)).map .waiting + (s.inflight : Multiset (Sqe α υ)).map .waiting +
        (s.done : Multiset (Cqe α υ)).map .ready +
        (s.cq.drop (i + 1) : Multiset (Cqe α υ)).map .ready) := by
    simp only [St.board, St.tokens, hpc, Pc.taken]
    rw [hdrop, ← Multiset.cons_coe, Multiset.map_cons, Multiset.add_cons]
  convert Moves.handle hbefore using 1
  simp only [St.board, St.tokens, St.apply, Effect.tokens, Pc.taken, ← Multiset.coe_add,
    Multiset.map_add, Board.mk.injEq, and_true]
  rw [← Multiset.map_coe, Multiset.map_map]
  simp only [Function.comp_def]
  abel

/-- Executing an entry turns its token from waiting to ready. -/
theorem exec_board {srv : Server μ α υ} {s : St μ α υ} {k : Nat} {e : Sqe α υ} {o : Outcome}
    {p : Performed μ α υ} (he : s.inflight[k]? = some e)
    (hp : perform s.net s.mem e o = some p) :
    Moves srv s.board (.exec e o)
      { s with
        inflight := s.inflight.eraseIdx k
        done := s.done ++ [p.cqe]
        net := p.net
        mem := p.mem
        sends := s.sends ++ p.sending.toList }.board := by
  have hbefore : s.board.tokens = .waiting e ::ₘ
      ((s.sq : Multiset (Sqe α υ)).map .waiting +
        (s.inflight.eraseIdx k : Multiset (Sqe α υ)).map .waiting +
        (s.done : Multiset (Cqe α υ)).map .ready +
        (s.cq.drop s.pc.taken : Multiset (Cqe α υ)).map .ready) := by
    simp only [St.board, St.tokens]
    rw [coe_eraseIdx he, Multiset.map_cons, Multiset.add_cons, Multiset.cons_add,
      Multiset.cons_add]
  convert Moves.exec hbefore hp using 1
  simp only [St.board, St.tokens, ← Multiset.coe_add, Multiset.coe_singleton, Multiset.map_add,
    Multiset.map_singleton, Board.mk.injEq, and_true, ← Multiset.singleton_add]
  abel

/-- **The rings refine the board.** -/
theorem step_board (srv : Server μ α υ) {s t : St μ α υ} {a : Act} (hpc : s.PcOk srv.batch)
    (htag : ∀ x ∈ s.tokens, x.sqe.userData = srv.tag x.sqe.key)
    (h : step srv.batch srv.handle s a = some t) :
    (s.move a = none ∧ t.board = s.board) ∨
      ∃ m, s.move a = some m ∧ Moves srv s.board m t.board := by
  cases steps_of_step h with
  | @exec k o e p he hp => exact .inr ⟨.exec e o, by simp [St.move, he], exec_board he hp⟩
  | @post k q hq =>
    refine .inl ⟨rfl, ?_⟩
    have := post_tokens hpc.taken_le hq
    simp only [St.board, Board.mk.injEq, and_true]
    exact this
  | submit hhead =>
    refine .inl ⟨by simp [St.move, hhead], ?_⟩
    simp only [St.board, St.tokens, St.submit, hhead, Pc.taken, ← Multiset.coe_add,
      Multiset.map_add, Board.mk.injEq, and_true]
    simp only [Multiset.coe_nil, Multiset.map_zero]
    abel
  | peek hwait =>
    exact .inl ⟨by simp [St.move, hwait], by simp [St.board, St.tokens, hwait, Pc.taken]⟩
  | @handle nready i q _ hbatch hi hq hhandle =>
    refine .inr ⟨.handle q, by simp [St.move, hbatch, hi, hq], ?_⟩
    exact handle_board hbatch hq (htag (.ready q) (ready_mem_tokens hbatch hq)) hhandle
  | @release nready i hbatch hle =>
    have hin : i = nready := by
      obtain ⟨hi, -⟩ := hpc nready i hbatch
      omega
    refine .inl ⟨by simp [St.move, hbatch, hle], ?_⟩
    simp [St.board, St.tokens, St.cqAdvance, hbatch, Pc.taken, hin]

end NetDesign.Uring
