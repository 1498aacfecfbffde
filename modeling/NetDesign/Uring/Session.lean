import NetDesign.History
import NetDesign.Session
import NetDesign.Uring.Outstanding

/-!
# Sessions over the rings

Operations on different connections are in flight together, and complete in any order. Seen from
one connection nothing of this is left: the one token on its descriptor says where its session
stands. A `recv` waits while the connection is idle; once it delivered bytes an answer is due,
until the `send` for it is executed. A connection whose `recv` failed has no token any more.

* `Talks` — the log of every connection is a session, and its streams are what the log says.
* `talks_moves` — it stays so, for whatever the server is allowed to send.
-/

namespace NetDesign.Uring

variable {μ α υ : Type*}

/-! ## Events -/

section Event

variable [Memory μ α]

/-- What a move is to a connection. A connection is closed when the completion of a `recv` that
delivered nothing is handled. -/
def Move.event (b : Board μ α υ) : Move α υ → Option (Nat × Event Byte)
  | .exec _ (.accepted _) => some (b.net.count, .accepted)
  | .exec e (.received bytes) => (b.net.owner e.fd).map (·, .received bytes)
  | .exec e (.sent n) =>
    (b.net.owner e.fd).map (·, .sent ((Memory.read b.mem e.addr e.len).take n))
  | .exec e (.fail _) =>
    match e.opcode with
    | .accept => none
    | .recv => (b.net.owner e.fd).map (·, .failed)
    | .send => (b.net.owner e.fd).map (·, .unsent)
  | .handle q => (closing q.sqe.key q.res).bind fun fd => (b.net.owner fd).map (·, .closed)

/-- What an action is to a connection. -/
def St.event (s : St μ α υ) (a : Act) : Option (Nat × Event Byte) :=
  (s.move a).bind (Move.event s.board)

end Event

/-! ## Where a session stands -/

variable {Allowed : List (List Byte) → List Byte → Prop}

/-- The log of the connection a token is about. The bytes an answer is due for are with it. -/
def At (Allowed : List (List Byte) → List Byte → Prop) (log : List (Event Byte)) :
    Token α υ → Prop
  | .waiting e =>
    match e.opcode with
    | .accept => True
    | .recv => Session Allowed log .idle
    | .send => Session Allowed log .owing ∧ e.cause.map Delivery.bytes = (requests log).head?
  | .ready q =>
    match q.sqe.opcode with
    | .accept | .send => Session Allowed log .idle
    | .recv =>
      if 0 < q.res then
        Session Allowed log .owing ∧ q.got.map Delivery.bytes = (requests log).head?
      else Session Allowed log (if q.res = 0 then .ended else .lost)

/-- A connection has a token that says where its session stands, or was given up because its
`recv` failed, or is closed. -/
inductive Standing (Allowed : List (List Byte) → List Byte → Prop) (b : Board μ α υ) (c : Nat)
    (log : List (Event Byte)) : Prop
  | token {x : Token α υ} {fd : Int} :
      x ∈ b.tokens → x.target = some fd → b.net.owner fd = some c → At Allowed log x →
      Standing Allowed b c log
  | orphan {fd : Int} :
      b.net.owner fd = some c → fd ∉ b.targets → Session Allowed log .lost →
      Standing Allowed b c log
  | gone : (∀ fd, b.net.owner fd ≠ some c) → Session Allowed log .closed → Standing Allowed b c log

/-- The sessions of the connections accepted so far. -/
structure Talks (Allowed : List (List Byte) → List Byte → Prop) (b : Board μ α υ)
    (logs : Nat → List (Event Byte)) : Prop where
  numbered : b.net.Numbered
  fresh : ∀ c, b.net.count ≤ c → logs c = []
  standing : ∀ c < b.net.count, Standing Allowed b c (logs c)
  streams : ∀ c, b.net.rx c = input (logs c) ∧ b.net.tx c = output (logs c)

variable {b b' : Board μ α υ} {logs : Nat → List (Event Byte)} {log : List (Event Byte)}
  {c : Nat} {fd : Int} {T : Multiset (Token α υ)} {e : Sqe α υ} {q : Cqe α υ} {x : Token α υ}

theorem At.session (h : At Allowed log x) (hx : x.target ≠ none) :
    ∃ p, Session Allowed log p ∧ p ≠ .closed := by
  cases x with
  | waiting e =>
    cases hop : e.opcode with
    | accept => exact absurd (Token.target_waiting_of_eq hop) hx
    | recv =>
      simp only [At, hop] at h
      exact ⟨_, h, by decide⟩
    | send =>
      simp only [At, hop] at h
      exact ⟨_, h.1, by decide⟩
  | ready q =>
    cases hop : q.sqe.opcode with
    | recv =>
      simp only [At, hop] at h
      split_ifs at h
      · exact ⟨_, h.1, by decide⟩
      · exact ⟨_, h, by decide⟩
      · exact ⟨_, h, by decide⟩
    | accept | send =>
      simp only [At, hop] at h
      exact ⟨_, h, by decide⟩

/-- **Every log is a session**, and it is over when no descriptor is left. -/
theorem Standing.session (h : Standing Allowed b c log) :
    ∃ p, Session Allowed log p ∧ (p = .closed ↔ ∀ fd, b.net.owner fd ≠ some c) := by
  cases h with
  | token _ ht hown hat =>
    obtain ⟨p, hp, hne⟩ := hat.session (ht ▸ Option.some_ne_none _)
    exact ⟨p, hp, fun heq => absurd heq hne, fun hgone => absurd hown (hgone _)⟩
  | orphan hown _ hlost =>
    exact ⟨_, hlost, Stage.noConfusion, fun hgone => absurd hown (hgone _)⟩
  | gone hgone hclosed => exact ⟨_, hclosed, fun _ => hgone, fun _ => rfl⟩

/-- A connection is idle while a `recv` waits on it. -/
theorem Standing.recv (he : .waiting e ∈ b.tokens) (hk : e.key = (.recv, fd))
    (hc : b.net.owner fd = some c) (h : Session Allowed log .idle) : Standing Allowed b c log := by
  obtain ⟨hop, rfl⟩ := Prod.mk.inj hk
  refine .token he (Token.target_waiting_of_ne (by rw [hop]; decide)) hc ?_
  simp only [At, hop]
  exact h

/-- An answer is due while a `send` waits. -/
theorem Standing.send (he : .waiting e ∈ b.tokens) (hk : e.key = (.send, fd))
    (hc : b.net.owner fd = some c) (h : Session Allowed log .owing)
    (hcause : e.cause.map Delivery.bytes = (requests log).head?) : Standing Allowed b c log := by
  obtain ⟨hop, rfl⟩ := Prod.mk.inj hk
  refine .token he (Token.target_waiting_of_ne (by rw [hop]; decide)) hc ?_
  simp only [At, hop]
  exact ⟨h, hcause⟩

/-- The log of the connection `c`: a session that is over when no descriptor is left, with the
bytes that were moved. -/
def Conducted (Allowed : List (List Byte) → List Byte → Prop) (net : Net) (c : Nat)
    (log : List (Event Byte)) : Prop :=
  (∃ p, Session Allowed log p ∧ (p = .closed ↔ ∀ fd, net.owner fd ≠ some c)) ∧
    net.rx c = input log ∧ net.tx c = output log

theorem Talks.conducted (hb : Talks Allowed b logs) (hc : c < b.net.count) :
    Conducted Allowed b.net c (logs c) :=
  ⟨(hb.standing c hc).session, hb.streams c⟩

/-- An echo transmits a subsequence of what was received. -/
theorem Talks.echoed (hb : Talks Session.Echo b logs) (c : Nat) :
    (b.net.tx c).Sublist (b.net.rx c) := by
  obtain ⟨hrx, htx⟩ := hb.streams c
  rw [hrx, htx]
  rcases Nat.lt_or_ge c b.net.count with hc | hc
  · obtain ⟨⟨p, hsession, -⟩, -⟩ := hb.conducted hc
    exact hsession.output_sublist
  · rw [hb.fresh c hc]
    exact List.Sublist.refl _

/-- The delivery that a token is to answer. -/
def Token.due : Token α υ → Option Delivery
  | .waiting e => if e.opcode = .send then e.cause else none
  | .ready q => if q.sqe.opcode = .recv ∧ 0 < q.res then q.got else none

theorem exists_due {o : Option Delivery} {reqs : List (List Byte)}
    (h : o.map Delivery.bytes = reqs.head?) (hne : reqs ≠ []) :
    ∃ d, o = some d ∧ d.bytes = Session.newest reqs := by
  cases reqs with
  | nil => exact absurd rfl hne
  | cons chunk reqs =>
    obtain ⟨d, hd, hbytes⟩ := Option.map_eq_some_iff.1 h
    exact ⟨d, hd, hbytes⟩

/-- The token of a connection with an answer due has the request. -/
theorem At.due (h : At Allowed log x) (hx : x.target ≠ none) :
    (∃ p, Session Allowed log p ∧ p ≠ .owing) ∨
      ∃ d, x.due = some d ∧ d.bytes = Session.newest (requests log) ∧
        Session Allowed log .owing := by
  cases x with
  | waiting e =>
    cases hop : e.opcode with
    | accept => exact absurd (Token.target_waiting_of_eq hop) hx
    | recv =>
      simp only [At, hop] at h
      exact .inl ⟨_, h, by decide⟩
    | send =>
      simp only [At, hop] at h
      obtain ⟨d, hd, hbytes⟩ := exists_due h.2 h.1.requests_ne_nil
      exact .inr ⟨d, by rw [Token.due, if_pos hop, hd], hbytes, h.1⟩
  | ready q =>
    cases hop : q.sqe.opcode with
    | accept | send =>
      simp only [At, hop] at h
      exact .inl ⟨_, h, by decide⟩
    | recv =>
      simp only [At, hop] at h
      by_cases hpos : 0 < q.res
      · rw [if_pos hpos] at h
        obtain ⟨d, hd, hbytes⟩ := exists_due h.2 h.1.requests_ne_nil
        exact .inr ⟨d, by rw [Token.due, if_pos ⟨hop, hpos⟩, hd], hbytes, h.1⟩
      · rw [if_neg hpos] at h
        refine .inl ⟨_, h, ?_⟩
        split_ifs <;> decide

/-- Whatever was received was transmitted, but for a request that a token of the connection is
to answer. -/
theorem Talks.complete (hb : Talks Session.FullEcho b logs) (hall : .unsent ∉ logs c)
    (hc : c < b.net.count) :
    b.net.rx c = b.net.tx c ∨
      ∃ fd, b.net.owner fd = some c ∧ ∃ x ∈ b.tokens, x.target = some fd ∧
        ∃ d, x.due = some d ∧ b.net.rx c = b.net.tx c ++ d.bytes := by
  obtain ⟨hrx, htx⟩ := hb.streams c
  have hsettled : ∀ {p}, Session Session.FullEcho (logs c) p → p ≠ .owing →
      b.net.rx c = b.net.tx c := by
    intro p hsession hp
    rw [hrx, htx, hsession.output_eq_settled hall, Session.settled, if_neg hp]
  cases hb.standing c hc with
  | @token x fd hx ht hown hat =>
    have hne : x.target ≠ none := ht ▸ Option.some_ne_none fd
    rcases hat.due hne with ⟨p, hsession, hp⟩ | ⟨d, hd, hbytes, howing⟩
    · exact .inl (hsettled hsession hp)
    · refine .inr ⟨fd, hown, x, hx, ht, d, hd, ?_⟩
      rw [hrx, htx, howing.output_eq_settled hall, hbytes]
      exact Session.settled_owing howing
  | orphan _ _ hlost => exact .inl (hsettled hlost (by decide))
  | gone _ hclosed => exact .inl (hsettled hclosed (by decide))

/-- A connection stays where it is as long as its token and its descriptor do. -/
theorem Standing.frame (h : Standing Allowed b c log)
    (htok : ∀ y ∈ b.tokens, ∀ fd, y.target = some fd → b.net.owner fd = some c → y ∈ b'.tokens)
    (htar : ∀ fd ∈ b'.targets, b.net.owner fd = some c → fd ∈ b.targets)
    (hown : ∀ fd, b'.net.owner fd = some c ↔ b.net.owner fd = some c) :
    Standing Allowed b' c log := by
  cases h with
  | token hy ht hc hat => exact .token (htok _ hy _ ht hc) ht ((hown _).2 hc) hat
  | orphan hc hfree hlost =>
    exact .orphan ((hown _).2 hc) (fun hmem => hfree (htar _ hmem hc)) hlost
  | gone hgone hclosed => exact .gone (fun fd hc => hgone fd ((hown fd).1 hc)) hclosed

/-- The connection of a token stands where the token says. -/
theorem Talks.at (hb : Talks Allowed b logs) (hbal : Balanced {fd | 0 ≤ fd} b)
    (hnn : ∀ fd, b.net.owner fd ≠ none → 0 ≤ fd) (hT : b.tokens = x ::ₘ T)
    (hx : x.target = some fd) (hc : b.net.owner fd = some c) : At Allowed (logs c) x := by
  have h0 : 0 ≤ fd := hnn fd (hc ▸ Option.some_ne_none c)
  cases hb.standing c (hb.numbered.lt hc) with
  | @token y fd' hy ht hc' hat =>
    obtain rfl := hb.numbered.inj hc hc'
    rcases Multiset.mem_cons.1 (hT ▸ hy) with rfl | hyT
    · exact hat
    · exact absurd ht (hbal.others hT hx h0 y hyT)
  | orphan hc' hfree =>
    obtain rfl := hb.numbered.inj hc hc'
    exact absurd (mem_targets.2 ⟨x, hT ▸ Multiset.mem_cons_self _ _, hx⟩) hfree
  | gone hgone => exact absurd hc (hgone fd)

/-- The session of the connection `c` and what is outstanding on its descriptor: there is a token,
unless the `recv` failed or the connection is closed, and whatever token there is, is what the
session calls for. -/
structure Attended (Allowed : List (List Byte) → List Byte → Prop) (b : Board μ α υ) (c : Nat)
    (log : List (Event Byte)) : Prop where
  conducted : Conducted Allowed b.net c log
  standing : Standing Allowed b c log
  outstanding : ∀ fd, b.net.owner fd = some c → ∀ x ∈ b.tokens, x.target = some fd →
    At Allowed log x

theorem Talks.attended (hb : Talks Allowed b logs) (hbal : Balanced {fd | 0 ≤ fd} b)
    (hnn : ∀ fd, b.net.owner fd ≠ none → 0 ≤ fd) (hc : c < b.net.count) :
    Attended Allowed b c (logs c) where
  conducted := hb.conducted hc
  standing := hb.standing c hc
  outstanding fd hown x hx ht := by
    obtain ⟨T, hT⟩ := Multiset.exists_cons_of_mem hx
    exact hb.at hbal hnn hT ht hown

/-! ## The kernel's moves -/

/-- The execution of an operation on a descriptor: its completion takes its place. -/
theorem Talks.executed (hb : Talks Allowed b logs) (hT : b.tokens = .waiting e ::ₘ T)
    (hop : e.opcode ≠ .accept) (hq : q.sqe = e) {net : Net} (hfds : net.toFdTable = b.net.toFdTable)
    {mem : μ} {sends : List (Sending μ α υ)} {handled : List (Handled α υ)} {event : Event Byte}
    (hat : ∀ c, b.net.owner e.fd = some c → At Allowed (event :: logs c) (.ready q))
    (hstream : ∀ c, b.net.owner e.fd = some c →
      net.rx c = b.net.rx c ++ event.input ∧ net.tx c = b.net.tx c ++ event.output)
    (hkept : ∀ c, b.net.owner e.fd ≠ some c → net.rx c = b.net.rx c ∧ net.tx c = b.net.tx c) :
    Talks Allowed ⟨.ready q ::ₘ T, mem, net, sends, handled⟩
      (record logs ((b.net.owner e.fd).map (·, event))) := by
  have htar := targets_completed_of_ne hT hq hop
  refine ⟨?_, fun c hc => ?_, fun c hc => ?_, fun c => ?_⟩
  · rw [hfds]
    exact hb.numbered
  · rw [hfds] at hc
    rw [record_map_of_ne fun hown => absurd (hb.numbered.lt hown) (Nat.not_lt.2 hc)]
    exact hb.fresh c hc
  · rw [hfds] at hc
    by_cases hown : b.net.owner e.fd = some c
    · rw [hown, Option.map_some, record_self]
      have ht : (Token.ready q).target = some e.fd := by
        subst hq
        exact Token.target_ready_of_ne hop
      exact .token (Multiset.mem_cons_self _ _) ht (by rw [hfds]; exact hown) (hat c hown)
    · rw [record_map_of_ne hown]
      refine (hb.standing c hc).frame ?_ ?_ fun fd => by rw [hfds]
      · intro y hy fd ht hc'
        rcases Multiset.mem_cons.1 (hT ▸ hy) with rfl | hyT
        · rw [Token.target_waiting_of_ne hop] at ht
          exact absurd (Option.some.inj ht ▸ hc') hown
        · exact Multiset.mem_cons_of_mem hyT
      · intro fd hmem _
        rw [← htar]
        exact hmem
  · obtain ⟨hrx, htx⟩ := hb.streams c
    by_cases hown : b.net.owner e.fd = some c
    · obtain ⟨hrx', htx'⟩ := hstream c hown
      rw [hown, Option.map_some, record_self, input_cons, output_cons, hrx', htx', hrx, htx]
      exact ⟨rfl, rfl⟩
    · obtain ⟨hrx', htx'⟩ := hkept c hown
      rw [record_map_of_ne hown, hrx', htx']
      exact ⟨hrx, htx⟩

/-- A refused accept is about no connection. -/
theorem Talks.refused (hb : Talks Allowed b logs) (hnn : ∀ fd, b.net.owner fd ≠ none → 0 ≤ fd)
    (hT : b.tokens = .waiting e ::ₘ T) (hop : e.opcode = .accept) (hq : q.sqe = e)
    (hres : q.res < 0) (htok : b'.tokens = .ready q ::ₘ T) (hnet : b'.net = b.net) :
    Talks Allowed b' logs := by
  have htar : b'.targets = q.res ::ₘ b.targets := by
    rw [Board.targets, htok]
    exact targets_completed_of_eq hT hq hop
  refine ⟨hnet ▸ hb.numbered, hnet ▸ hb.fresh, fun c hc => ?_, hnet ▸ hb.streams⟩
  rw [hnet] at hc
  refine (hb.standing c hc).frame ?_ ?_ fun fd => by rw [hnet]
  · intro y hy fd ht _
    rcases Multiset.mem_cons.1 (hT ▸ hy) with rfl | hyT
    · rw [Token.target_waiting_of_eq hop] at ht
      cases ht
    · exact htok ▸ Multiset.mem_cons_of_mem hyT
  · intro fd hmem hc'
    rw [htar] at hmem
    refine (Multiset.mem_cons.1 hmem).resolve_left ?_
    have := hnn fd (hc' ▸ Option.some_ne_none c)
    omega

/-- A new connection is idle, and the others are as they were. -/
theorem Talks.opened (hb : Talks Allowed b logs) (hT : b.tokens = .waiting e ::ₘ T)
    (hop : e.opcode = .accept) (hq : q.sqe = e) (hres : q.res = fd)
    (hown : b.net.owner fd = none) (htok : b'.tokens = .ready q ::ₘ T)
    (hnet : b'.net = b.net.accept fd) :
    Talks Allowed b' (record logs (some (b.net.count, .accepted))) := by
  have htar : b'.targets = fd ::ₘ b.targets := by
    rw [Board.targets, htok, ← hres]
    exact targets_completed_of_eq hT hq hop
  have hnew : (record logs (some (b.net.count, .accepted))) b.net.count = [.accepted] := by
    rw [record_self, hb.fresh _ le_rfl]
  have hstream : ∀ log, input (.accepted :: log) = input log ∧
      output (.accepted :: log) = output (log : List (Event Byte)) := by
    intro log
    rw [input_cons, output_cons]
    exact ⟨List.append_nil _, List.append_nil _⟩
  refine ⟨hnet ▸ hb.numbered.accept fd, ?_, ?_, ?_⟩
  · intro c hc
    rw [hnet] at hc
    rw [record_of_ne (Nat.ne_of_gt hc)]
    exact hb.fresh c (Nat.le_of_succ_le hc)
  · intro c hc
    rw [hnet] at hc
    rcases Nat.lt_succ_iff_lt_or_eq.1 hc with hlt | rfl
    · rw [record_of_ne hlt.ne]
      have hfd : ∀ {x}, b.net.owner x = some c → x ≠ fd := by
        intro x hx heq
        rw [heq, hown] at hx
        cases hx
      refine (hb.standing c hlt).frame ?_ ?_ fun x => ?_
      · intro y hy x ht _
        rcases Multiset.mem_cons.1 (hT ▸ hy) with rfl | hyT
        · rw [Token.target_waiting_of_eq hop] at ht
          cases ht
        · exact htok ▸ Multiset.mem_cons_of_mem hyT
      · intro x hmem hx
        rw [htar] at hmem
        exact (Multiset.mem_cons.1 hmem).resolve_left (hfd hx)
      · rw [hnet]
        refine ⟨?_, ?_⟩
        · intro hx
          rcases FdTable.accept_cases hx with ⟨-, heq⟩ | ⟨-, hx⟩
          · exact absurd heq hlt.ne
          · exact hx
        · intro hx
          exact (FdTable.accept_owner_of_ne (hfd hx)).trans hx
    · rw [hnew]
      subst hq
      refine .token (htok ▸ Multiset.mem_cons_self _ _) (Token.target_ready_of_eq hop) ?_ ?_
      · rw [hnet, hres]
        exact FdTable.accept_owner_self
      · simp only [At, hop]
        exact .accepted
  · intro c
    rw [hnet]
    by_cases hc : c = b.net.count
    · subst hc
      rw [record_self, (hstream _).1, (hstream _).2]
      exact hb.streams _
    · rw [record_of_ne hc]
      exact hb.streams c

section Exec

variable [Memory μ α] {o : Outcome} {p : Performed μ α υ} {sends : List (Sending μ α υ)}
  {handled : List (Handled α υ)}

/-- An operation that failed moved no byte. -/
theorem Talks.failed (hb : Talks Allowed b logs) (hbal : Balanced {fd | 0 ≤ fd} b)
    (hnn : ∀ fd, b.net.owner fd ≠ none → 0 ≤ fd) (hT : b.tokens = .waiting e ::ₘ T)
    {errno : Nat} :
    Talks Allowed ⟨.ready ⟨e, -(errno + 1), none⟩ ::ₘ T, b.mem, b.net, sends, handled⟩
      (record logs (Move.event b (.exec e (.fail errno)))) := by
  have hneg : ¬ (0 : Int) < -(errno + 1) := by omega
  have hzero : (-(errno + 1) : Int) ≠ 0 := by omega
  have hat : ∀ c, e.opcode ≠ .accept → b.net.owner e.fd = some c →
      At Allowed (logs c) (.waiting e) := fun c hop hc =>
    hb.at hbal hnn hT (Token.target_waiting_of_ne hop) hc
  cases hop : e.opcode with
  | accept =>
    simp only [Move.event, hop, record_none]
    refine hb.refused hnn hT hop rfl ?_ rfl rfl
    show (-(errno + 1) : Int) < 0
    omega
  | recv =>
    simp only [hop, At, ne_eq, reduceCtorEq, not_false_eq_true, forall_const] at hat
    simp only [Move.event, hop]
    refine hb.executed hT (by rw [hop]; decide) (by rfl) (by rfl) (fun c hc => ?_) ?_ ?_
    · simp only [At, hop, if_neg hneg, if_neg hzero]
      exact .failed (hat c hc)
    · exact fun c _ => ⟨(List.append_nil _).symm, (List.append_nil _).symm⟩
    · exact fun c _ => ⟨rfl, rfl⟩
  | send =>
    simp only [hop, At, ne_eq, reduceCtorEq, not_false_eq_true, forall_const] at hat
    simp only [Move.event, hop]
    refine hb.executed hT (by rw [hop]; decide) (by rfl) (by rfl) (fun c hc => ?_) ?_ ?_
    · simp only [At, hop]
      exact .unsent (hat c hc).1
    · exact fun c _ => ⟨(List.append_nil _).symm, (List.append_nil _).symm⟩
    · exact fun c _ => ⟨rfl, rfl⟩

/-- The bytes a `recv` delivers are a request, unless there are none. -/
theorem Talks.received (hb : Talks Allowed b logs) (hbal : Balanced {fd | 0 ≤ fd} b)
    (hnn : ∀ fd, b.net.owner fd ≠ none → 0 ≤ fd) (hT : b.tokens = .waiting e ::ₘ T)
    (hop : e.opcode = .recv) (hown : b.net.owner e.fd = some c) {bytes : List Byte} {mem : μ} :
    Talks Allowed ⟨.ready ⟨e, bytes.length, some ⟨c, bytes⟩⟩ ::ₘ T, mem, b.net.receive c bytes,
      sends, handled⟩ (record logs (Move.event b (.exec e (.received bytes)))) := by
  have hne : e.opcode ≠ .accept := by rw [hop]; decide
  have hat : At Allowed (logs c) (.waiting e) :=
    hb.at hbal hnn hT (Token.target_waiting_of_ne hne) hown
  simp only [At, hop] at hat
  simp only [Move.event]
  refine hb.executed hT hne (by rfl) (by rfl) ?_ ?_ ?_
  · intro c' hc'
    obtain rfl := Option.some.inj (hown.symm.trans hc')
    simp only [At, hop]
    cases bytes with
    | nil => exact .ended hat
    | cons y bytes =>
      have hpos : (0 : Int) < (y :: bytes).length := by simp
      rw [if_pos hpos, requests_received (List.cons_ne_nil _ _)]
      exact ⟨.received hat (List.cons_ne_nil _ _), rfl⟩
  · intro c' hc'
    obtain rfl := Option.some.inj (hown.symm.trans hc')
    exact ⟨Net.receive_rx_self _ _, (List.append_nil _).symm⟩
  · intro c' hc'
    exact ⟨Net.receive_rx_of_ne _ _ fun heq => hc' (heq ▸ hown), rfl⟩

/-- What a `send` transmits is an answer. -/
theorem Talks.sent (hb : Talks Allowed b logs) (hbal : Balanced {fd | 0 ≤ fd} b)
    (hnn : ∀ fd, b.net.owner fd ≠ none → 0 ≤ fd) (hT : b.tokens = .waiting e ::ₘ T)
    (hop : e.opcode = .send) (hown : b.net.owner e.fd = some c) {n : Nat}
    (hallowed : e.cause.map Delivery.bytes = (requests (logs c)).head? →
      Allowed (requests (logs c)) ((Memory.read b.mem e.addr e.len).take n)) {d : Delivery} :
    Talks Allowed ⟨.ready ⟨e, n, some d⟩ ::ₘ T, b.mem,
      b.net.transmit c ((Memory.read b.mem e.addr e.len).take n), sends, handled⟩
      (record logs (Move.event b (.exec e (.sent n)))) := by
  have hne : e.opcode ≠ .accept := by rw [hop]; decide
  have hat : At Allowed (logs c) (.waiting e) :=
    hb.at hbal hnn hT (Token.target_waiting_of_ne hne) hown
  simp only [At, hop] at hat
  simp only [Move.event]
  refine hb.executed hT hne (by rfl) (by rfl) ?_ ?_ ?_
  · intro c' hc'
    obtain rfl := Option.some.inj (hown.symm.trans hc')
    simp only [At, hop]
    exact .sent hat.1 (hallowed hat.2)
  · intro c' hc'
    obtain rfl := Option.some.inj (hown.symm.trans hc')
    exact ⟨(List.append_nil _).symm, Net.transmit_tx_self _ _⟩
  · intro c' hc'
    exact ⟨rfl, Net.transmit_tx_of_ne _ _ fun heq => hc' (heq ▸ hown)⟩

end Exec

/-! ## The server's moves -/

/-- The entries that answer a completion keep its delivery as their cause. -/
theorem exists_reply {srv : Server μ α υ} {m : μ} (htag : q.userData = srv.tag q.sqe.key)
    {k : Opcode × Int} (hk : k ∈ replies (srv.listenfd m) q.sqe.key q.res) :
    ∃ e : Sqe α υ, .waiting e ∈ (srv.effect m q).tokens q ∧ e.key = k ∧ e.cause = q.got := by
  rw [← srv.prep_key htag] at hk
  obtain ⟨e, he, rfl⟩ := List.mem_map.1 hk
  exact ⟨_, mem_effect_tokens.2 ⟨e, he, rfl⟩, rfl, rfl⟩

/-- A completion is taken, and the connection it is about stands somewhere else. -/
theorem Talks.taken (hb : Talks Allowed b logs) (hT : b.tokens = .ready q ::ₘ T)
    (hx : (Token.ready q).target = some fd) (hsub : ∀ y ∈ T, y ∈ b'.tokens)
    (htar : ∀ x ∈ b'.targets, x ∈ b.targets) (hnet : b'.net = b.net)
    (hmoved : ∀ c, b.net.owner fd = some c → Standing Allowed b' c (logs c)) :
    Talks Allowed b' logs := by
  refine ⟨hnet ▸ hb.numbered, hnet ▸ hb.fresh, fun c hc => ?_, hnet ▸ hb.streams⟩
  rw [hnet] at hc
  by_cases hown : b.net.owner fd = some c
  · exact hmoved c hown
  · refine (hb.standing c hc).frame ?_ (fun x hmem _ => htar x hmem) fun x => by rw [hnet]
    intro y hy x ht hc'
    rcases Multiset.mem_cons.1 (hT ▸ hy) with rfl | hyT
    · cases hx.symm.trans ht
      exact absurd hc' hown
    · exact hsub y hyT

/-- A connection is closed when it has ended. -/
theorem Talks.closed (hb : Talks Allowed b logs) (hbal : Balanced {fd | 0 ≤ fd} b)
    (hnn : ∀ fd, b.net.owner fd ≠ none → 0 ≤ fd) (hT : b.tokens = .ready q ::ₘ T)
    (hop : q.sqe.opcode = .recv) (hres : q.res = 0) (hsub : ∀ y ∈ T, y ∈ b'.tokens)
    (htar : ∀ x ∈ b'.targets, x ∈ b.targets) (hnet : b'.net = b.net.close q.sqe.fd) :
    Talks Allowed b' (record logs ((b.net.owner q.sqe.fd).map (·, .closed))) := by
  have hx : (Token.ready q).target = some q.sqe.fd :=
    Token.target_ready_of_ne (by rw [hop]; decide)
  refine ⟨hnet ▸ hb.numbered.close _, fun c hc => ?_, fun c hc => ?_, fun c => ?_⟩
  · rw [hnet] at hc
    rw [record_map_of_ne fun hown => absurd (hb.numbered.lt hown) (Nat.not_lt.2 hc)]
    exact hb.fresh c hc
  · rw [hnet] at hc
    by_cases hown : b.net.owner q.sqe.fd = some c
    · have hat : At Allowed (logs c) (.ready q) := hb.at hbal hnn hT hx hown
      simp only [At, hop, hres, lt_irrefl, if_false, if_true] at hat
      rw [hown, Option.map_some, record_self]
      refine .gone (fun x hx' => ?_) (.closed hat)
      rw [hnet] at hx'
      obtain ⟨hne, hx'⟩ := FdTable.close_cases hx'
      exact hne (hb.numbered.inj hx' hown)
    · rw [record_map_of_ne hown]
      refine (hb.standing c hc).frame ?_ (fun x hmem _ => htar x hmem) fun x => ?_
      · intro y hy x ht hc'
        rcases Multiset.mem_cons.1 (hT ▸ hy) with rfl | hyT
        · cases hx.symm.trans ht
          exact absurd hc' hown
        · exact hsub y hyT
      · rw [hnet]
        refine ⟨fun hc' => (FdTable.close_cases hc').2, fun hc' => ?_⟩
        refine (FdTable.close_owner_of_ne ?_).trans hc'
        intro heq
        exact hown (heq ▸ hc')
  · rw [hnet]
    by_cases hown : b.net.owner q.sqe.fd = some c
    · rw [hown, Option.map_some, record_self, input_cons, output_cons]
      simp only [Event.input, Event.output, List.append_nil]
      exact hb.streams c
    · rw [record_map_of_ne hown]
      exact hb.streams c

/-- A handled completion never brings a target. -/
theorem Booked.targets_subset (h : Booked b (.handle q) b') : ∀ x ∈ b'.targets, x ∈ b.targets := by
  intro x hx
  cases h with
  | held _ _ htar => exact htar ▸ hx
  | closed _ _ htar | dropped _ _ htar => exact htar ▸ Multiset.mem_cons_of_mem hx

/-- Nothing is said before the first connection. -/
theorem talks_start (h : b.net = .initial) : Talks Allowed b fun _ => [] where
  numbered := h ▸ FdTable.numbered_initial
  fresh _ _ := rfl
  standing c hc := by
    rw [h] at hc
    cases hc
  streams _ := h ▸ ⟨rfl, rfl⟩

variable [Memory μ α] {srv : Server μ α υ} {m : Move α υ}

theorem talks_handle (hb : Talks Allowed b logs) (hbal : Balanced {fd | 0 ≤ fd} b)
    (hnn : ∀ fd, b.net.owner fd ≠ none → 0 ≤ fd) (htag : Tagged srv b)
    (h : Moves srv b (.handle q) b') :
    Talks Allowed b' (record logs (Move.event b (.handle q))) := by
  have hbook := h.booked htag
  have htar := hbook.targets_subset
  have hq : q.userData = srv.tag q.sqe.key := htag _ h.ready_mem
  cases h with
  | @handle T q hT =>
    have hsub : ∀ y ∈ T, y ∈ (srv.effect b.mem q).tokens q + T := fun y hy =>
      Multiset.mem_add.2 (.inr hy)
    have hclose := srv.close_eq (m := b.mem) hq
    have hreply := fun k => exists_reply (m := b.mem) (k := k) hq
    have hat : ∀ fd c, (Token.ready q).target = some fd → b.net.owner fd = some c →
        At Allowed (logs c) (.ready q) := fun fd c => hb.at hbal hnn hT
    cases hop : q.sqe.opcode with
    | accept =>
      have hkey : q.sqe.key = (.accept, q.sqe.fd) := by rw [Sqe.key, hop]
      have hx : (Token.ready q).target = some q.res := Token.target_ready_of_eq hop
      simp only [hkey, closing, replies] at hclose hreply
      simp only [At, hop] at hat
      simp only [Move.event, hkey, closing, Option.bind_none, record_none]
      refine hb.taken hT hx hsub htar (congrArg (Option.elim · _ _) hclose) fun c hc => ?_
      obtain ⟨e, he, hek, -⟩ := hreply (.recv, q.res) (by simp)
      refine .recv (Multiset.mem_add.2 (.inl he)) hek ?_ (hat _ c hx hc)
      rw [hclose]
      exact hc
    | send =>
      have hkey : q.sqe.key = (.send, q.sqe.fd) := by rw [Sqe.key, hop]
      have hx : (Token.ready q).target = some q.sqe.fd :=
        Token.target_ready_of_ne (by rw [hop]; decide)
      simp only [hkey, closing, replies] at hclose hreply
      simp only [At, hop] at hat
      simp only [Move.event, hkey, closing, Option.bind_none, record_none]
      refine hb.taken hT hx hsub htar (congrArg (Option.elim · _ _) hclose) fun c hc => ?_
      obtain ⟨e, he, hek, -⟩ := hreply (.recv, q.sqe.fd) (by simp)
      refine .recv (Multiset.mem_add.2 (.inl he)) hek ?_ (hat _ c hx hc)
      rw [hclose]
      exact hc
    | recv =>
      have hkey : q.sqe.key = (.recv, q.sqe.fd) := by rw [Sqe.key, hop]
      have hx : (Token.ready q).target = some q.sqe.fd :=
        Token.target_ready_of_ne (by rw [hop]; decide)
      simp only [hkey, closing, replies] at hclose hreply
      simp only [At, hop] at hat
      simp only [Move.event, hkey, closing]
      rcases lt_trichotomy q.res 0 with hneg | hzero | hpos
      · -- a failed `recv` leaves its descriptor without a token
        simp only [hneg.ne, if_false] at hclose
        simp only [hneg.ne, if_false, Option.bind_none, record_none]
        refine hb.taken hT hx hsub htar (congrArg (Option.elim · _ _) hclose) fun c hc => ?_
        have hlost := hat _ c hx hc
        rw [if_neg hneg.not_gt, if_neg hneg.ne] at hlost
        cases hbook with
        | held _ hrecv => exact absurd ⟨hop, hneg.le⟩ (hrecv q rfl)
        | closed _ hzero => exact absurd hzero hneg.ne
        | dropped _ _ hrest hnet =>
          refine .orphan ((congrFun hnet _).trans hc) ?_ hlost
          exact hbal.not_mem_rest hrest (hnn _ (hc ▸ Option.some_ne_none c))
      · simp only [hzero, if_true] at hclose
        simp only [hzero, if_true, Option.bind_some]
        exact hb.closed hbal hnn hT hop hzero hsub htar (congrArg (Option.elim · _ _) hclose)
      · simp only [hpos.ne', if_false] at hclose
        simp only [hpos.ne', if_false, Option.bind_none, record_none]
        refine hb.taken hT hx hsub htar (congrArg (Option.elim · _ _) hclose) fun c hc => ?_
        obtain ⟨e, he, hek, hcause⟩ := hreply (.send, q.sqe.fd) (by simp [hpos])
        have howing := hat _ c hx hc
        rw [if_pos hpos] at howing
        refine .send (Multiset.mem_add.2 (.inl he)) hek ?_ howing.1 ?_
        · rw [hclose]
          exact hc
        · rw [hcause]
          exact howing.2

/-- **Sessions go on**, as long as what is sent is allowed. -/
theorem talks_moves (hb : Talks Allowed b logs) (hbal : Balanced {fd | 0 ≤ fd} b)
    (hnn : ∀ fd, b.net.owner fd ≠ none → 0 ≤ fd) (htag : Tagged srv b)
    (hallowed : ∀ e n c, m = .exec e (.sent n) → .waiting e ∈ b.tokens → e.opcode = .send →
      b.net.owner e.fd = some c → e.cause.map Delivery.bytes = (requests (logs c)).head? →
      Allowed (requests (logs c)) ((Memory.read b.mem e.addr e.len).take n))
    (h : Moves srv b m b') : Talks Allowed b' (record logs (Move.event b m)) := by
  cases m with
  | handle q => exact talks_handle hb hbal hnn htag h
  | exec e o =>
    cases h with
    | @exec T _ _ p hT hp =>
      have he : .waiting e ∈ b.tokens := hT ▸ Multiset.mem_cons_self _ _
      rcases perform_cases hp with ⟨errno, rfl, rfl⟩ | ⟨fd, rfl, hop, -, -, hown, rfl⟩ |
        ⟨bytes, c, rfl, hop, hown, -, rfl⟩ | ⟨n, c, rfl, hop, hown, -, rfl⟩
      · exact hb.failed hbal hnn hT
      · exact hb.opened hT hop rfl rfl hown rfl rfl
      · exact hb.received hbal hnn hT hop hown
      · exact hb.sent hbal hnn hT hop hown (hallowed e n c rfl he hop hown)

/-! ## Runs -/

variable {s t : St μ α υ} {a : Act}

/-- An answer that is due is an allowed one, if the kernel executes it now. -/
def AnswersAllowed (Allowed : List (List Byte) → List Byte → Prop) (s : St μ α υ) (a : Act)
    (logs : Nat → List (Event Byte)) : Prop :=
  ∀ e n c, s.move a = some (.exec e (.sent n)) → .waiting e ∈ s.board.tokens → e.opcode = .send →
    s.net.owner e.fd = some c → e.cause.map Delivery.bytes = (requests (logs c)).head? →
    Allowed (requests (logs c)) ((Memory.read s.mem e.addr e.len).take n)

/-- If it is a `send`, it takes all its bytes, or fails. -/
def Move.Full : Move α υ → Prop
  | .exec e (.sent n) => n = e.len
  | _ => True

instance {m : Move α υ} : Decidable m.Full :=
  match m with
  | .exec _ (.sent _) => inferInstanceAs (Decidable (_ = _))
  | .exec _ (.fail _) | .exec _ (.accepted _) | .exec _ (.received _) | .handle _ =>
    inferInstanceAs (Decidable True)

/-- It is no `send` that fails. -/
def Move.Unfailing : Move α υ → Prop
  | .exec e (.fail _) => e.opcode ≠ .send
  | _ => True

instance {m : Move α υ} : Decidable m.Unfailing :=
  match m with
  | .exec _ (.fail _) => inferInstanceAs (Decidable (_ ≠ _))
  | .exec _ (.sent _) | .exec _ (.accepted _) | .exec _ (.received _) | .handle _ =>
    inferInstanceAs (Decidable True)

theorem Move.event_ne_unsent {m : Move α υ} (h : m.Unfailing) :
    m.event b ≠ some (c, .unsent) := by
  cases m with
  | handle q => simp [Move.event, Option.bind_eq_some_iff]
  | exec e o =>
    cases o with
    | fail errno =>
      have hne : e.opcode ≠ .send := h
      cases hop : e.opcode with
      | send => exact absurd hop hne
      | _ => simp [Move.event, hop]
    | _ => simp [Move.event]

/-- If no `send` fails, no log has one that did. -/
theorem unsent_not_mem {step : St μ α υ → Act → Option (St μ α υ)} {ok : St μ α υ → Act → Prop}
    {s₀ : St μ α υ} {as : List Act} (hok : ∀ {s a}, ok s a → ∀ m ∈ s.move a, m.Unfailing)
    (h : Run step ok s₀ as s) (c : Nat) : .unsent ∉ history step St.event s₀ as c := by
  refine h.history_invariant (fun _ logs => Event.unsent ∉ logs c) (by simp) ?_
  intro s logs a t hlog hallowed _
  have hne : s.event a ≠ some (c, .unsent) := by
    intro heq
    obtain ⟨m, hm, hevent⟩ := Option.bind_eq_some_iff.1 heq
    exact Move.event_ne_unsent (hok hallowed m hm) hevent
  rcases hevent : s.event a with _ | ⟨k, e⟩
  · exact hlog
  · by_cases hk : c = k
    · subst hk
      rw [record_self]
      rintro (_ | ⟨_, hmem⟩)
      · exact hne hevent
      · exact hlog hmem
    · rwa [record_of_ne hk]

theorem talks_step (hs : Sound srv {fd | 0 ≤ fd} s) (hb : Talks Allowed s.board logs)
    (hallowed : AnswersAllowed Allowed s a logs) (h : step srv.batch srv.handle s a = some t) :
    Talks Allowed t.board (record logs (s.event a)) := by
  rcases step_board srv hs.pc hs.tagged h with ⟨hmove, hsame⟩ | ⟨m, hmove, hm⟩
  · rw [St.event, hmove, hsame]
    exact hb
  · rw [St.event, hmove]
    refine talks_moves hb hs.balanced hs.owner_nonneg hs.tagged ?_ hm
    intro e n c heq
    exact hallowed e n c (heq ▸ hmove)

/-- **Sessions over a run**, for an invariant of the server that makes its answers allowed. -/
theorem talks_run (srv : Server μ α υ) (Inv : St μ α υ → Prop) {ok : St μ α υ → Act → Prop}
    {s₀ : St μ α υ} {as : List Act} (h₀ : Inv s₀) (hnet : s₀.net = .initial)
    (hInv : ∀ {s a t}, Inv s → ok s a → step srv.batch srv.handle s a = some t → Inv t)
    (hsound : ∀ {s}, Inv s → Sound srv {fd | 0 ≤ fd} s)
    (hallowed : ∀ {s a logs}, Inv s → ok s a → AnswersAllowed Allowed s a logs)
    (h : Run (step srv.batch srv.handle) ok s₀ as s) :
    Talks Allowed s.board (history (step srv.batch srv.handle) St.event s₀ as) := by
  refine (h.history_invariant (fun s logs => Inv s ∧ Talks Allowed s.board logs)
    ⟨h₀, talks_start hnet⟩ ?_).2
  intro s logs a t hs hok hstep
  exact ⟨hInv hs.1 hok hstep, talks_step (hsound hs.1) hs.2 (hallowed hs.1 hok) hstep⟩

end NetDesign.Uring
