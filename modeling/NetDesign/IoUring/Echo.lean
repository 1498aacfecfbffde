import NetDesign.IoUring.Ownership

/-!
# The echoed stream of `proactor`

The WRITE branch does not look at its result: the `recv` it arms overwrites what a short
`send` left in the buffer. Until that happens the streams agree: what a connection has
received is what it was sent, followed by the *backlog* of the token on it, the bytes its
buffer holds.

* `echo_prefix` — as long as no `send` follows a short one on its connection, the bytes
  transmitted are a prefix of those received.
* `echo_gap` — one short `send` loses bytes.
-/

namespace NetDesign.Proactor

open Uring

/-! ## Backlogs -/

/-- The bytes of a delivery, if there was one. -/
def deliveredBytes (d : Option Delivery) : List Byte := (d.map Delivery.bytes).getD []

/-- The bytes a token still has to send. -/
def backlog : Token Ptr ConnInfo → List Byte
  | .waiting e => if e.opcode = .send then deliveredBytes e.cause else []
  | .ready q => if q.sqe.opcode = .recv ∧ 0 < q.res then deliveredBytes q.got else []

/-- A `send` on the connection `c` was short. -/
def Cut (sends : List (Sending Mem Ptr ConnInfo)) (c : Nat) : Prop :=
  ∃ x ∈ sends, x.conn = c ∧ x.n ≠ x.sqe.len

instance {sends : List (Sending Mem Ptr ConnInfo)} {c : Nat} : Decidable (Cut sends c) :=
  inferInstanceAs (Decidable (∃ x ∈ sends, x.conn = c ∧ x.n ≠ x.sqe.len))

/-- Connections not accepted yet have moved no byte. -/
structure Fresh (net : Net) : Prop where
  numbered : net.Numbered
  rx : ∀ c, net.count ≤ c → net.rx c = []
  tx : ∀ c, net.count ≤ c → net.tx c = []

/-- What the connection of a token received is what it was sent and the token's backlog. -/
def Level (b : ProactorBoard) (x : Token Ptr ConnInfo) : Prop :=
  ∀ fd c, x.target = some fd → b.net.owner fd = some c → ¬ Cut b.sends c →
    b.net.rx c = b.net.tx c ++ backlog x

structure Streams (b : ProactorBoard) : Prop where
  fresh : Fresh b.net
  level : ∀ x ∈ b.tokens, Level b x
  echoed : ∀ c, b.net.tx c <+: b.net.rx c

variable {b b' : ProactorBoard} {m : Move Ptr ConnInfo} {net : Net} {fd : Int} {c : Nat}
  {bytes : List Byte}

/-! ## Connections to come -/

theorem Fresh.accept (h : Fresh net) (fd : Int) : Fresh (net.accept fd) where
  numbered := h.numbered.accept fd
  rx k hk := h.rx k (Nat.le_of_succ_le hk)
  tx k hk := h.tx k (Nat.le_of_succ_le hk)

theorem Fresh.close (h : Fresh net) (fd : Int) : Fresh (net.close fd) :=
  ⟨h.numbered.close fd, h.rx, h.tx⟩

theorem Fresh.receive (h : Fresh net) (hc : net.owner fd = some c) :
    Fresh (net.receive c bytes) where
  numbered := h.numbered
  rx k hk := (net.receive_rx_of_ne _ (h.numbered.ne_of_count_le hc hk)).trans (h.rx k hk)
  tx := h.tx

theorem Fresh.transmit (h : Fresh net) (hc : net.owner fd = some c) :
    Fresh (net.transmit c bytes) where
  numbered := h.numbered
  rx := h.rx
  tx k hk := (net.transmit_tx_of_ne _ (h.numbered.ne_of_count_le hc hk)).trans (h.tx k hk)

/-! ## The streams stay level -/

/-- Only a `recv` fails, and no `send` follows a short one. -/
def MoveLevel (b : ProactorBoard) : Move Ptr ConnInfo → Prop
  | .exec e (.fail _) => e.opcode = .recv
  | .exec e (.sent _) => ∀ c, b.net.owner e.fd = some c → ¬ Cut b.sends c
  | _ => True

section Exec

variable {T : Multiset (Token Ptr ConnInfo)} {e : Sqe Ptr ConnInfo} {x : Token Ptr ConnInfo}

theorem Streams.level_waiting (hb : Streams b) (hT : b.tokens = .waiting e ::ₘ T) :
    Level b (.waiting e) :=
  hb.level _ (hT ▸ Multiset.mem_cons_self _ _)

theorem Streams.level_rest (hb : Streams b) (hT : b.tokens = .waiting e ::ₘ T) (hx : x ∈ T) :
    Level b x :=
  hb.level x (hT ▸ Multiset.mem_cons_of_mem hx)

/-- The other tokens are on other connections. -/
theorem Streams.conn_ne (hb : Streams b) (hbal : Balanced Set.univ b)
    (hT : b.tokens = .waiting e ::ₘ T) (hne : e.opcode ≠ .accept)
    (hown : b.net.owner e.fd = some c) (hx : x ∈ T) {fd' : Int} {c' : Nat}
    (ht : x.target = some fd') (hc' : b.net.owner fd' = some c') : c' ≠ c := by
  have hfd : fd' ≠ e.fd := by
    intro heq
    exact hbal.others hT (Token.target_waiting_of_ne hne) (Set.mem_univ _) x hx (heq ▸ ht)
  exact hb.fresh.numbered.ne_of_fd_ne hc' hown hfd

/-- A failed `recv` moves no byte. -/
theorem streams_failed {errno : Nat} (hb : Streams b) (hT : b.tokens = .waiting e ::ₘ T)
    (hop : e.opcode = .recv) :
    Streams ⟨.ready ⟨e, -(errno + 1), none⟩ ::ₘ T, b.mem, b.net, b.sends, b.handled⟩ := by
  have hne : e.opcode ≠ .accept := by rw [hop]; decide
  refine ⟨hb.fresh, ?_, hb.echoed⟩
  intro x hx
  rcases Multiset.mem_cons.1 hx with rfl | hxT
  · intro fd c ht hc hcut
    rw [Token.target_ready_of_ne hne] at ht
    have hlevel := hb.level_waiting hT fd c ((Token.target_waiting_of_ne hne).trans ht) hc hcut
    have hneg : ¬ (0 : Int) < -(errno + 1) := by omega
    simpa only [backlog, hop, hneg, reduceCtorEq, if_false, and_false] using hlevel
  · exact hb.level_rest hT hxT

/-- A new connection has moved no byte, and no other token is about its descriptor. -/
theorem streams_accepted (hbal : Balanced Set.univ b) (hb : Streams b)
    (hT : b.tokens = .waiting e ::ₘ T) (hop : e.opcode = .accept)
    (hown : b.net.owner fd = none) :
    Streams ⟨.ready ⟨e, fd, some ⟨b.net.count, []⟩⟩ ::ₘ T, b.mem, b.net.accept fd, b.sends,
      b.handled⟩ := by
  refine ⟨hb.fresh.accept fd, ?_, hb.echoed⟩
  intro x hx x' c ht hc hcut
  have hnew : x' ≠ fd ∨ x = .ready ⟨e, fd, some ⟨b.net.count, []⟩⟩ := by
    by_contra hno
    rw [not_or, not_not] at hno
    obtain ⟨rfl, hx'⟩ := hno
    refine hbal.free x' (Set.mem_univ _) hown (mem_targets.2 ⟨x, ?_, ht⟩)
    exact hT ▸ Multiset.mem_cons_of_mem ((Multiset.mem_cons.1 hx).resolve_left hx')
  rcases FdTable.accept_cases hc with ⟨rfl, rfl⟩ | ⟨hne, hc'⟩
  · obtain rfl := hnew.resolve_left fun h => h rfl
    show b.net.rx b.net.count = b.net.tx b.net.count ++ backlog _
    rw [hb.fresh.rx _ le_rfl, hb.fresh.tx _ le_rfl]
    simp [backlog, hop]
  · rcases Multiset.mem_cons.1 hx with rfl | hxT
    · rw [Token.target_ready_of_eq hop] at ht
      exact absurd (Option.some.inj ht).symm hne
    · exact hb.level_rest hT hxT x' c ht hc' hcut

/-- The bytes of a `recv` are its connection's, and the backlog of its token. -/
theorem streams_received {mem : Mem} (hbal : Balanced Set.univ b) (hb : Streams b)
    (hT : b.tokens = .waiting e ::ₘ T) (hop : e.opcode = .recv)
    (hown : b.net.owner e.fd = some c) :
    Streams ⟨.ready ⟨e, bytes.length, some ⟨c, bytes⟩⟩ ::ₘ T, mem, b.net.receive c bytes, b.sends,
      b.handled⟩ := by
  have hne : e.opcode ≠ .accept := by rw [hop]; decide
  refine ⟨hb.fresh.receive hown, ?_, ?_⟩
  · intro x hx x' c' ht hc' hcut
    rcases Multiset.mem_cons.1 hx with rfl | hxT
    · rw [Token.target_ready_of_ne hne, Option.some.injEq] at ht
      subst ht
      cases Option.some.inj (hc'.symm.trans hown)
      have hlevel := hb.level_waiting hT e.fd c (Token.target_waiting_of_ne hne) hown hcut
      have hnil : backlog (.waiting e) = [] := by simp [backlog, hop]
      show (b.net.receive c bytes).rx c = b.net.tx c ++ _
      rw [Net.receive_rx_self, hlevel, hnil, List.append_nil]
      congr 1
      cases bytes with
      | nil => simp [backlog]
      | cons y ys => simp [backlog, hop, deliveredBytes]
    · show (b.net.receive c bytes).rx c' = b.net.tx c' ++ _
      rw [Net.receive_rx_of_ne _ _ (hb.conn_ne hbal hT hne hown hxT ht hc')]
      exact hb.level_rest hT hxT x' c' ht hc' hcut
  · intro k
    by_cases hk : k = c
    · subst hk
      rw [Net.receive_rx_self]
      exact (hb.echoed k).trans (List.prefix_append _ _)
    · rw [Net.receive_rx_of_ne _ _ hk]
      exact hb.echoed k

/-- A `send` that is not short leaves no backlog. After a short one nothing is claimed. -/
theorem streams_sent {n : Nat} (hbal : Balanced Set.univ b) (howned : Owned b) (hb : Streams b)
    (hT : b.tokens = .waiting e ::ₘ T) (hop : e.opcode = .send)
    (hown : b.net.owner e.fd = some c) (hfull : ¬ Cut b.sends c) :
    Streams ⟨.ready ⟨e, n, some ⟨c, (Memory.read b.mem e.addr e.len).take n⟩⟩ ::ₘ T, b.mem,
      b.net.transmit c ((Memory.read b.mem e.addr e.len).take n), b.sends ++ [⟨e, c, b.mem, n⟩],
      b.handled⟩ := by
  have hne : e.opcode ≠ .accept := by rw [hop]; decide
  have hwait : Owns b (.waiting e) := howned _ (hT ▸ Multiset.mem_cons_self _ _)
  obtain ⟨d, hcause, hlen, ⟨-, hread⟩, -⟩ := hwait.2 hop
  have haddr : e.addr = .rbuffer e.fd := hwait.1 hne
  have hlevel : b.net.rx c = b.net.tx c ++ d.bytes := by
    have := hb.level_waiting hT e.fd c (Token.target_waiting_of_ne hne) hown hfull
    simpa [backlog, hop, hcause, deliveredBytes] using this
  have htaken : (Memory.read b.mem e.addr e.len).take n = d.bytes.take n := by
    rw [haddr, hlen]
    exact congrArg (List.take n) hread
  simp only [htaken]
  refine ⟨hb.fresh.transmit hown, ?_, ?_⟩
  · intro x hx x' c' ht hc' hcut
    have hcut' : ¬ Cut b.sends c' := by
      rintro ⟨y, hy, hrest⟩
      exact hcut ⟨y, List.mem_append_left _ hy, hrest⟩
    rcases Multiset.mem_cons.1 hx with rfl | hxT
    · rw [Token.target_ready_of_ne hne, Option.some.injEq] at ht
      subst ht
      cases Option.some.inj (hc'.symm.trans hown)
      have hall : n = e.len := by
        by_contra hshort
        exact hcut ⟨_, List.mem_append_right _ (List.mem_singleton_self _), rfl, hshort⟩
      show b.net.rx c = (b.net.transmit c (d.bytes.take n)).tx c ++ _
      rw [Net.transmit_tx_self, hall, hlen, List.take_length, hlevel]
      simp [backlog, hop]
    · show b.net.rx c' = (b.net.transmit c (d.bytes.take n)).tx c' ++ _
      rw [Net.transmit_tx_of_ne _ _ (hb.conn_ne hbal hT hne hown hxT ht hc')]
      exact hb.level_rest hT hxT x' c' ht hc' hcut'
  · intro k
    show (b.net.transmit c (d.bytes.take n)).tx k <+: b.net.rx k
    by_cases hk : k = c
    · subst hk
      rw [Net.transmit_tx_self, hlevel]
      exact List.prefix_append_right_inj _ |>.2 (List.take_prefix _ _)
    · rw [Net.transmit_tx_of_ne _ _ hk]
      exact hb.echoed k

theorem streams_exec {o : Outcome} {p : Performed Mem Ptr ConnInfo} (hbal : Balanced Set.univ b)
    (howned : Owned b) (hb : Streams b) (hm : MoveLevel b (.exec e o))
    (hT : b.tokens = .waiting e ::ₘ T) (hp : perform b.net b.mem e o = some p) :
    Streams ⟨.ready p.cqe ::ₘ T, p.mem, p.net, b.sends ++ p.sending.toList, b.handled⟩ := by
  rcases perform_cases hp with ⟨errno, rfl, rfl⟩ | ⟨fd, rfl, hop, -, -, hown, rfl⟩ |
    ⟨bytes, c, rfl, hop, hown, -, rfl⟩ | ⟨n, c, rfl, hop, hown, -, rfl⟩
  · rw [Option.toList_none, List.append_nil]
    exact streams_failed hb hT hm
  · rw [Option.toList_none, List.append_nil]
    exact streams_accepted hbal hb hT hop hown
  · rw [Option.toList_none, List.append_nil]
    exact streams_received hbal hb hT hop hown
  · exact streams_sent hbal howned hb hT hop hown (hm c hown)

end Exec

/-- The entries filled for a completion take over its backlog. -/
theorem backlog_tokens {mem : Mem} {q : Cqe Ptr ConnInfo} {x : Token Ptr ConnInfo}
    (hx : x ∈ (plan.effect mem q).tokens q) :
    x.target = none ∨
      x.target = (Token.ready q).target ∧ backlog x = backlog (.ready q) := by
  rcases Plan.mem_tokens hx with ⟨hop, rfl | rfl⟩ | ⟨hop, hres, rfl⟩ | ⟨hop, rfl⟩
  · exact .inl rfl
  · exact .inr ⟨(Token.target_ready_of_eq hop).symm, by simp [backlog, hop, prepRecv]⟩
  · refine .inr ⟨(Token.target_ready_of_ne (by rw [hop]; decide)).symm, ?_⟩
    simp [backlog, hop, hres, prepSend]
  · refine .inr ⟨(Token.target_ready_of_ne (by rw [hop]; decide)).symm, ?_⟩
    simp [backlog, hop, prepRecv]

theorem streams_moves (hbal : Balanced Set.univ b) (howned : Owned b) (hb : Streams b)
    (hm : MoveLevel b m) (h : Moves server b m b') : Streams b' := by
  cases h with
  | exec hT hp => exact streams_exec hbal howned hb hm hT hp
  | @handle T q hT =>
    have hnet : ∀ o : Option Int, Fresh (o.elim b.net b.net.close) ∧
        ∀ fd c, (o.elim b.net b.net.close).owner fd = some c → b.net.owner fd = some c := by
      intro o
      cases o with
      | none => exact ⟨hb.fresh, fun _ _ h => h⟩
      | some x => exact ⟨hb.fresh.close x, fun _ _ h => (FdTable.close_cases h).2⟩
    have hbytes : ∀ o : Option Int, (o.elim b.net b.net.close).rx = b.net.rx ∧
        (o.elim b.net b.net.close).tx = b.net.tx := by
      intro o
      cases o <;> exact ⟨rfl, rfl⟩
    obtain ⟨hrx, htx⟩ := hbytes (plan.effect b.mem q).close
    obtain ⟨hfresh, howner⟩ := hnet (plan.effect b.mem q).close
    refine ⟨hfresh, fun x hx fd c ht hc hcut => ?_, fun c => ?_⟩
    · show ((plan.effect b.mem q).close.elim b.net b.net.close).rx c =
        ((plan.effect b.mem q).close.elim b.net b.net.close).tx c ++ _
      rw [hrx, htx]
      rcases Multiset.mem_add.1 hx with hx | hx
      · rcases backlog_tokens hx with hnone | ⟨htarget, hback⟩
        · rw [hnone] at ht
          cases ht
        · rw [hback]
          exact hb.level _ (hT ▸ Multiset.mem_cons_self _ _) fd c (htarget ▸ ht) (howner fd c hc)
            hcut
      · exact hb.level x (hT ▸ Multiset.mem_cons_of_mem hx) fd c ht (howner fd c hc) hcut
    · show ((plan.effect b.mem q).close.elim b.net b.net.close).tx c <+:
        ((plan.effect b.mem q).close.elim b.net b.net.close).rx c
      rw [hrx, htx]
      exact hb.echoed c

/-! ## Runs -/

/-- Every `send` transmits at least one byte, so no `send` fails. -/
def MoveTransmits : Move Ptr ConnInfo → Prop
  | .exec e (.fail _) => e.opcode ≠ .send
  | .exec _ (.sent n) => 0 < n
  | _ => True

instance {m : Move Ptr ConnInfo} : Decidable (MoveTransmits m) :=
  match m with
  | .exec _ (.fail _) => inferInstanceAs (Decidable (_ ≠ _))
  | .exec _ (.sent _) => inferInstanceAs (Decidable (_ < _))
  | .exec _ (.accepted _) | .exec _ (.received _) | .handle _ => inferInstanceAs (Decidable True)

/-- No `send` follows a short one on its connection. -/
def MoveAfterFull (s : State) : Move Ptr ConnInfo → Prop
  | .exec e (.sent _) => ∀ c ∈ s.net.owner e.fd, ¬ Cut s.sends c
  | _ => True

instance {s : State} {m : Move Ptr ConnInfo} : Decidable (MoveAfterFull s m) :=
  match m with
  | .exec _ (.sent _) => inferInstanceAs (Decidable (∀ c ∈ _, ¬ Cut s.sends c))
  | .exec _ (.fail _) | .exec _ (.accepted _) | .exec _ (.received _) | .handle _ =>
    inferInstanceAs (Decidable True)

/-- What the echo is promised: accepted descriptors in the table, and sends that transmit. -/
def Transmits (s : State) (a : Act) : Prop :=
  AcceptsInTable s a ∧ ∀ m ∈ s.move a, MoveTransmits m

instance {s : State} {a : Act} : Decidable (Transmits s a) :=
  inferInstanceAs (Decidable (_ ∧ ∀ m ∈ s.move a, MoveTransmits m))

def SendsAfterFull (s : State) (a : Act) : Prop := ∀ m ∈ s.move a, MoveAfterFull s m

instance {s : State} {a : Act} : Decidable (SendsAfterFull s a) :=
  inferInstanceAs (Decidable (∀ m ∈ s.move a, MoveAfterFull s m))

variable {listenfd : Int} {table : Int → ConnItem} {s₀ s t : State} {a : Act} {as : List Act}

theorem streams_init (hinit : init listenfd table = some s₀) : Streams s₀.board := by
  rw [init_eq hinit]
  have hnone : ∀ fd c, Net.initial.owner fd ≠ some c := fun _ _ h => by cases h
  exact ⟨⟨FdTable.numbered_initial, fun _ _ => rfl, fun _ _ => rfl⟩,
    fun x _ fd c _ hc => absurd hc (hnone fd c), fun _ => List.prefix_rfl⟩

theorem moveLevel (henv : Transmits s a) (hfull : SendsAfterFull s a)
    (hm : s.move a = some m) : MoveLevel s.board m := by
  cases m with
  | handle => trivial
  | exec e o =>
    cases o with
    | fail errno =>
      have hsend : e.opcode ≠ .send := henv.2 _ hm
      have haccept : e.opcode ≠ .accept := fun hop =>
        henv.1.noRefusal e errno hm hop (Set.mem_univ _)
      show e.opcode = .recv
      cases hop : e.opcode with
      | recv => rfl
      | accept => exact absurd hop haccept
      | send => exact absurd hop hsend
    | sent n => exact hfull _ hm
    | _ => trivial

theorem streams_step
    (hs : (Sound server Set.univ s ∧ Isolated s.board) ∧ Streams s.board)
    (henv : Transmits s a) (hfull : SendsAfterFull s a) (h : run s a = some t) :
    (Sound server Set.univ t ∧ Isolated t.board) ∧ Streams t.board := by
  obtain ⟨⟨hsound, hiso⟩, hstreams⟩ := hs
  refine ⟨isolated_step ⟨hsound, hiso⟩ henv.1 h, ?_⟩
  rcases step_board server hsound.pc hsound.tagged h with ⟨-, hsame⟩ | ⟨m, hmove, hm⟩
  · exact hsame ▸ hstreams
  · exact streams_moves hsound.balanced hiso.owned hstreams (moveLevel henv hfull hmove) hm

/-- **Echo without loss, up to the first short `send`.** In every run that executes no `send`
on a connection after a short one on it, the bytes transmitted on a connection are at every
moment a prefix of the bytes received on it. -/
theorem echo_prefix (hinit : init listenfd table = some s₀)
    (h : Run run (fun s a => Transmits s a ∧ SendsAfterFull s a) s₀ as s) (c : Nat) :
    s.net.tx c <+: s.net.rx c :=
  (h.invariant ⟨⟨init_sound hinit, isolated_init hinit⟩, streams_init hinit⟩
    fun hs hok hstep => streams_step hs hok.1 hok.2 hstep).2.echoed c

/-- The completion of a `send` on descriptor 5 is handled and the next `recv` submitted. -/
def rearming : List Act := [.post 0, .program, .program, .program, .program]

/-- Two rounds of echo, each in full. -/
theorem echo_prefix_hello :
    ∃ s₀ s, init 3 blankTable = some s₀ ∧
      exec run (fun s a => Transmits s a ∧ SendsAfterFull s a) s₀
        (accepting ++ echoing (ascii "hel") 3 ++ rearming ++ echoing (ascii "lo") 2) = some s ∧
      s.net.tx 0 = ascii "hello" ∧ s.net.tx 0 <+: s.net.rx 0 := by
  have hdone : ((init 3 blankTable).bind fun s₀ =>
      exec run (fun s a => Transmits s a ∧ SendsAfterFull s a) s₀
        (accepting ++ echoing (ascii "hel") 3 ++ rearming ++ echoing (ascii "lo") 2)).any
      (fun s => decide (s.net.tx 0 = ascii "hello")) = true := by
    decide +kernel
  obtain ⟨s₀, s, hinit, hexec, htx⟩ := exists_exec hdone
  exact ⟨s₀, s, hinit, hexec, htx, echo_prefix hinit (Run.of_exec hexec) 0⟩

/-- Of "abc" only the first byte is sent, and "d" follows it. -/
theorem echo_gap :
    ¬ ∀ (listenfd : Int) (table : Int → ConnItem) (s₀ s : State) (as : List Act),
      init listenfd table = some s₀ → Run run Transmits s₀ as s →
        ∀ c, s.net.tx c <+: s.net.rx c := by
  intro hclaim
  have hrun : ((init 3 blankTable).bind fun s₀ => exec run Transmits s₀
      (accepting ++ echoing (ascii "abc") 1 ++ rearming ++ echoing (ascii "d") 1)).any
        (fun s => decide (¬ s.net.tx 0 <+: s.net.rx 0)) = true := by
    decide +kernel
  obtain ⟨s₀, s, hinit, hexec, hgap⟩ := exists_exec hrun
  exact hgap (hclaim 3 _ s₀ s _ hinit (Run.of_exec hexec) 0)

end NetDesign.Proactor
