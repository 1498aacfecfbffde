import NetDesign.Reactor.Reactor

/-!
# The wiring of `reactor`

Every registered descriptor is open and has its slot assigned, and a client is registered for
`EPOLLIN` when `receive_cb` is to run next and for `EPOLLOUT` when `send_cb` is. A callback
changes nothing but its own descriptor and one that was not open, so the events left in a
batch stay true.

* `Life` — the system calls on one connection, and what comes next on it.
* `Moves` — what a step can do, in terms of the items, the interest set and the log.
* `moves_of_run` — every step is one of the moves.
* `wired_run` — the wiring holds in every state of every run.
-/

namespace NetDesign.Reactor

/-! ## The life of a connection -/

/-- Which callback is to run next on a connection, if it is open. -/
inductive Phase
  | reading
  | writing
  | closed
  deriving DecidableEq, Repr

def EpollEvents.phase : EpollEvents → Phase
  | .epollin => .reading
  | .epollout => .writing

/-- A log, newest first, and the phase it ends in. -/
inductive Life : List Call → Phase → Prop
  | accepted : Life [.accepted] .reading
  | received {calls : List Call} {bytes : List Byte} :
      Life calls .reading → bytes ≠ [] → Life (.received bytes :: calls) .writing
  | failed {calls : List Call} : Life calls .reading → Life (.failed :: calls) .writing
  | sent {calls : List Call} {bytes : List Byte} {res : Int} :
      Life calls .writing → Life (.sent bytes res :: calls) .reading
  | closed {calls : List Call} {shut : Bool} :
      Life calls .reading → Life (.closed shut :: .received [] :: calls) .closed

/-! ## What a step can do -/

def ConnItem.formatted (item : ConnItem) : ConnItem :=
  { item with rbuffer := item.rbuffer.write 0 (page ++ [0]) }

/-- The bytes `send_cb` passes to `send`. -/
def ConnItem.output (item : ConnItem) : List Byte :=
  item.formatted.rbuffer.read 0 (sizeT item.rlen)

def ConnItem.append (item : ConnItem) (bytes : List Byte) : ConnItem :=
  { item with rbuffer := item.rbuffer.write item.rlen bytes, rlen := item.rlen + bytes.length }

@[simp] theorem ConnItem.formatted_rbuffer (item : ConnItem) :
    item.formatted.rbuffer = item.rbuffer.write 0 (page ++ [0]) := rfl

@[simp] theorem ConnItem.append_rbuffer (item : ConnItem) (bytes : List Byte) :
    (item.append bytes).rbuffer = item.rbuffer.write item.rlen bytes := rfl

/-- What `accept_cb` makes of the item of a new descriptor. -/
def ConnItem.cleared (item : ConnItem) (clientfd : Int) : ConnItem where
  fd := clientfd
  rbuffer := item.rbuffer.fill 0 bufferLength 0
  rlen := 0
  wbuffer := item.wbuffer.fill 0 bufferLength 0
  wlen := 0
  arFunc := some .receiveCb
  sendFunc := some .sendCb

/-- What a callback does to its connection, given the result of its system call. -/
inductive Served (item : ConnItem) :
    Sys → EpollEvents → Call → ConnItem → EpollEvents → Prop
  | received {bytes : List Byte} :
      bytes ≠ [] → bytes.length ≤ sizeT (bufferLength - item.rlen) →
      Served item (.received bytes) .epollin (.received bytes) (item.append bytes) .epollout
  | failed :
      Served item .recvFailed .epollin .failed { item with rlen := item.rlen - 1 } .epollout
  | sent {n : Nat} : n ≤ sizeT item.rlen →
      Served item (.sent n) .epollout (.sent item.output n) item.formatted .epollin
  | unsent :
      Served item .sendFailed .epollout (.sent item.output (-1)) item.formatted .epollin

namespace State

/-- `fd` is accepted as the next connection and registered for `EPOLLIN`. -/
def opened (s : State) (fd : Int) (item : ConnItem) (touched : List Int) : State :=
  { s with
    connlist := Function.update s.connlist fd item
    interest := Function.update s.interest fd (some .epollin)
    fds := s.fds.accept fd
    touched := touched
    log := Function.update s.log s.fds.count (.accepted :: s.log s.fds.count) }

/-- `accept_cb` goes on with the result of an `accept` that failed. -/
def refused (s : State) (item : ConnItem) (touched : List Int) : State :=
  { s with connlist := Function.update s.connlist (-1) item, touched := touched }

/-- A callback of connection `c` on `fd` has made a call. -/
def answered (s : State) (fd : Int) (c : Nat) (call : Call) (item : ConnItem)
    (m : EpollEvents) (touched : List Int) : State :=
  { s with
    connlist := Function.update s.connlist fd item
    interest := Function.update s.interest fd (some m)
    touched := touched
    log := Function.update s.log c (call :: s.log c) }

/-- Connection `c` on `fd` is closed. -/
def left (s : State) (fd : Int) (c : Nat) (touched : List Int) : State :=
  { s with
    interest := Function.update s.interest fd none
    fds := s.fds.close fd
    touched := touched
    log := Function.update s.log c (.closed (s.shut c) :: .received [] :: s.log c) }

end State

/-- The steps, each with the rest of the batch it leaves. -/
inductive Moves (s : State) : Act → State → Prop
  | wait {batch : List EpollEvent} :
      s.events = [] → s.Waits batch → Moves s (.wait batch) { s with events := batch }
  | shutdown {c : Nat} :
      Moves s (.shutdown c) { s with shut := Function.update s.shut c true }
  | idle {ev : EpollEvent} {rest : List EpollEvent} :
      s.events = ev :: rest → Moves s (.dispatch .idle) { s with events := rest }
  | opened {ev : EpollEvent} {rest : List EpollEvent} {fd : Int} {item : ConnItem}
      {touched : List Int} :
      s.events = ev :: rest → 0 ≤ fd → ¬ s.Open fd → item.rlen = 0 →
      item.arFunc = some .receiveCb → item.sendFunc = some .sendCb →
      Moves s (.dispatch (.accepted fd))
        (({ s with events := rest } : State).opened fd item touched)
  | refused {ev : EpollEvent} {rest : List EpollEvent} {item : ConnItem} {touched : List Int} :
      s.events = ev :: rest →
      Moves s (.dispatch .acceptFailed) (({ s with events := rest } : State).refused item touched)
  | answered {ev : EpollEvent} {rest : List EpollEvent} {c : Nat} {r : Sys} {m m' : EpollEvents}
      {call : Call} {item : ConnItem} {touched : List Int} :
      s.events = ev :: rest → s.fds.owner ev.fd = some c → s.interest ev.fd = some m →
      Served (s.connlist ev.fd) r m call item m' →
      Moves s (.dispatch r)
        (({ s with events := rest } : State).answered ev.fd c call item m' touched)
  | left {ev : EpollEvent} {rest : List EpollEvent} {c : Nat} {touched : List Int} :
      s.events = ev :: rest → s.fds.owner ev.fd = some c → s.interest ev.fd = some .epollin →
      Moves s (.dispatch (.received [])) (({ s with events := rest } : State).left ev.fd c touched)

/-! ## The wiring -/

/-- The slots of a client are assigned, and its interest is what its log calls for. -/
structure Client (item : ConnItem) (interest : Option EpollEvents) (calls : List Call) :
    Prop where
  arFunc : item.arFunc = some .receiveCb
  sendFunc : item.sendFunc = some .sendCb
  life : ∃ m, interest = some m ∧ Life calls m.phase

structure Wired (s : State) : Prop where
  nonneg : 0 ≤ s.listenfd
  listener : s.fds.owner s.listenfd = none ∧ s.interest s.listenfd = some .epollin ∧
    (s.connlist s.listenfd).arFunc = some .acceptCb
  numbered : s.fds.Numbered
  owned : ∀ {fd c}, s.fds.owner fd = some c →
    0 ≤ fd ∧ Client (s.connlist fd) (s.interest fd) (s.log c)
  closed : ∀ {c}, c < s.fds.count → (∀ fd, s.fds.owner fd ≠ some c) → Life (s.log c) .closed
  unborn : ∀ {c}, s.fds.count ≤ c → s.log c = []
  registered : ∀ {fd}, s.interest fd ≠ none → s.Open fd
  distinct : (s.events.map EpollEvent.fd).Nodup
  reports : ∀ ev ∈ s.events, s.Reports ev

variable {s t : State} {a : Act} {ev : EpollEvent} {r : Sys} {fd : Int} {c : Nat}
  {rest : List EpollEvent}

theorem State.note_owned {call : Call} (h : s.fds.owner fd = some c) :
    s.note fd call = { s with log := Function.update s.log c (call :: s.log c) } := by
  simp [State.note, h]

theorem Wired.owner_ne (h : Wired s) (hown : s.fds.owner fd = some c) : fd ≠ s.listenfd := by
  intro heq
  subst heq
  rw [h.listener.1] at hown
  cases hown

/-- A failed `accept` is not about a descriptor of a client. -/
theorem Wired.ne_neg_one (h : Wired s) (hown : s.fds.owner fd = some c) : fd ≠ -1 := by
  have := (h.owned hown).1
  omega

/-! ## Callbacks -/

theorem acceptCb_cases (hidle : ∀ {fd}, ¬ s.Open fd → s.interest fd = none)
    (hneg : ¬ s.Open (-1)) (h : s.acceptCb r = some t) :
    (∃ fd, r = .accepted fd ∧ 0 ≤ fd ∧ ¬ s.Open fd ∧
      t = s.opened fd ((s.connlist fd).cleared fd) (s.touched ++ [fd])) ∨
    (r = .acceptFailed ∧
      t = s.refused ((s.connlist (-1)).cleared (-1)) (s.touched ++ [-1])) := by
  simp only [State.acceptCb, Option.bind_eq_bind, Option.bind_eq_some_iff] at h
  obtain ⟨⟨s', fd⟩, haccept, h⟩ := h
  cases r with
  | accepted fd' =>
    simp only [State.accept] at haccept
    split_ifs at haccept with hfd
    cases haccept
    have hlog : ({ s with fds := s.fds.accept fd } : State).note fd .accepted =
        { s with
          fds := s.fds.accept fd
          log := Function.update s.log s.fds.count (.accepted :: s.log s.fds.count) } :=
      State.note_owned FdTable.accept_owner_self
    have hopen : ({ s with
        fds := s.fds.accept fd
        log := Function.update s.log s.fds.count (.accepted :: s.log s.fds.count) } : State).Open
          fd ∧ s.interest fd = none :=
      ⟨.inr (by simp), hidle hfd.2⟩
    rw [hlog] at h
    simp only [State.setEvent, State.epollCtl, if_pos hopen, Option.pure_def,
      Option.some.injEq] at h
    exact .inl ⟨fd, rfl, hfd.1, hfd.2, h.symm⟩
  | acceptFailed =>
    cases haccept
    have hclosed : ¬ (s.Open (-1) ∧ s.interest (-1) = none) := fun h => hneg h.1
    simp only [State.setEvent, State.epollCtl, if_neg hclosed, Option.pure_def,
      Option.some.injEq] at h
    exact .inr ⟨rfl, h.symm⟩
  | _ => cases haccept

theorem receiveCb_cases (hown : s.fds.owner fd = some c) (hin : s.interest fd = some .epollin)
    (h : s.receiveCb fd r = some t) :
    (∃ call item m touched, Served (s.connlist fd) r .epollin call item m ∧
      t = s.answered fd c call item m touched) ∨
    (r = .received [] ∧ ∃ touched, t = s.left fd c touched) := by
  simp only [State.receiveCb, Option.bind_eq_bind, Option.bind_eq_some_iff] at h
  obtain ⟨⟨s', bytes, cnt⟩, hrecv, h⟩ := h
  cases r with
  | received bytes' =>
    simp only [State.recv, State.note_owned hown] at hrecv
    split_ifs at hrecv with hlen
    cases hrecv
    have hin' : s.interest fd ≠ none := by rw [hin]; exact Option.some_ne_none _
    by_cases hnil : bytes = []
    · subst hnil
      refine .inr ⟨rfl, ?_⟩
      simp only [State.setItem, State.touch, State.epollCtl, State.close, State.note,
        State.peerShut, hown, Option.any_some, Cells.write_nil, List.length_nil, Nat.cast_zero,
        if_true, Function.update_idem, Function.update_self, Function.update_eq_self,
        Option.pure_def, Option.some.injEq] at h
      exact ⟨_, h.symm⟩
    · have hcnt : (bytes.length : Int) ≠ 0 := by simpa using hnil
      simp only [State.setItem, State.touch, State.setEvent, State.epollCtl, hcnt, if_false,
        if_pos hin', Function.update_idem, Function.update_self, Option.pure_def,
        Option.some.injEq] at h
      exact .inl ⟨_, _, _, _, .received hnil hlen.2, h.symm⟩
  | recvFailed =>
    simp only [State.recv, State.note_owned hown] at hrecv
    cases hrecv
    have hin' : s.interest fd ≠ none := by rw [hin]; exact Option.some_ne_none _
    have hcnt : (-1 : Int) ≠ 0 := by decide
    simp only [State.setItem, State.touch, State.setEvent, State.epollCtl, hcnt, if_false,
      if_pos hin', Function.update_idem, Function.update_self, Cells.write_nil, Option.pure_def,
      Option.some.injEq] at h
    exact .inl ⟨_, _, _, _, .failed, h.symm⟩
  | _ => cases hrecv

theorem sendCb_cases (hown : s.fds.owner fd = some c) (hout : s.interest fd = some .epollout)
    (h : s.sendCb fd r = some t) :
    ∃ call item m touched, Served (s.connlist fd) r .epollout call item m ∧
      t = s.answered fd c call item m touched := by
  have hout' : s.interest fd ≠ none := by rw [hout]; exact Option.some_ne_none _
  simp only [State.sendCb, Option.bind_eq_bind, Option.bind_eq_some_iff] at h
  obtain ⟨⟨s', res⟩, hsend, h⟩ := h
  cases r with
  | sent n =>
    simp only [State.send, State.setItem, State.touch, Function.update_self] at hsend
    split_ifs at hsend with hlen
    simp only [State.note, hown, Option.some.injEq, Prod.mk.injEq] at hsend
    obtain ⟨rfl, rfl⟩ := hsend
    simp only [State.setEvent, State.epollCtl, if_pos hout', Option.pure_def,
      Option.some.injEq] at h
    have hlen' : n ≤ sizeT (s.connlist fd).rlen := by simpa using hlen.2
    exact ⟨_, _, _, _, .sent hlen', h.symm⟩
  | sendFailed =>
    simp only [State.send, State.setItem, State.touch, Function.update_self, State.note, hown,
      Option.some.injEq, Prod.mk.injEq] at hsend
    obtain ⟨rfl, rfl⟩ := hsend
    simp only [State.setEvent, State.epollCtl, if_pos hout', Option.pure_def,
      Option.some.injEq] at h
    exact ⟨_, _, _, _, .unsent, h.symm⟩
  | _ => cases hsend

/-- The event at the head of a batch is about the listener or about a client. -/
theorem Wired.head_cases (hw : Wired s) (hev : s.events = ev :: rest) :
    (ev.fd = s.listenfd ∧ ev.owner = none ∧ (ev.epollout = true → False)) ∨
      ∃ c, ev.owner = some c ∧ s.fds.owner ev.fd = some c := by
  obtain ⟨hreg, -, hout, howner⟩ := hw.reports ev (hev ▸ List.mem_cons_self)
  rcases hw.registered hreg with hlisten | hown
  · refine .inl ⟨hlisten, by rw [howner, hlisten, hw.listener.1], fun h => ?_⟩
    have := hout h
    rw [hlisten, hw.listener.2.1] at this
    cases this
  · obtain ⟨c, hc⟩ := Option.ne_none_iff_exists'.1 hown
    exact .inr ⟨c, howner.trans hc, hc⟩

theorem Wired.idle (hw : Wired s) (h : ¬ s.Open fd) : s.interest fd = none :=
  by_contra fun hne => h (hw.registered hne)

theorem Wired.not_open_neg_one (hw : Wired s) : ¬ s.Open (-1) := by
  have hnn := hw.nonneg
  intro hyp
  rcases hyp with hlisten | hown
  · omega
  · obtain ⟨c, hc⟩ := Option.ne_none_iff_exists'.1 hown
    exact hw.ne_neg_one hc rfl

/-- **What a dispatch calls.** -/
theorem Wired.dispatch_cases (hw : Wired s) (hev : s.events = ev :: rest)
    (h : run s (.dispatch r) = some t) :
    (ev.fd = s.listenfd ∧ ev.epollin = true ∧
      (State.touch { s with events := rest } s.listenfd).acceptCb r = some t) ∨
    (∃ c, s.fds.owner ev.fd = some c ∧ s.interest ev.fd = some .epollin ∧
      (State.touch { s with events := rest } ev.fd).receiveCb ev.fd r = some t) ∨
    (∃ c, s.fds.owner ev.fd = some c ∧ s.interest ev.fd = some .epollout ∧
      (State.touch { s with events := rest } ev.fd).sendCb ev.fd r = some t) ∨
    (¬ ev.epollin = true ∧ r = .idle ∧ t = { s with events := rest }) := by
  obtain ⟨hreg, hin, hout, -⟩ := hw.reports ev (hev ▸ List.mem_cons_self)
  simp only [run, hev, State.dispatch] at h
  split_ifs at h with hepin hepout hidle
  · rcases hw.head_cases hev with ⟨hlisten, -⟩ | ⟨c, -, hc⟩
    · rw [hlisten, hw.listener.2.2] at h
      exact .inl ⟨hlisten, hepin, h⟩
    · rw [(hw.owned hc).2.arFunc] at h
      exact .inr (.inl ⟨c, hc, hin hepin, h⟩)
  · rcases hw.head_cases hev with ⟨-, -, hno⟩ | ⟨c, -, hc⟩
    · exact absurd hepout hno
    · rw [(hw.owned hc).2.sendFunc] at h
      exact .inr (.inr (.inl ⟨c, hc, hout hepout, h⟩))
  · exact .inr (.inr (.inr ⟨hepin, hidle, (Option.some.inj h).symm⟩))

/-- **What a step can do.** -/
theorem moves_of_run (hw : Wired s) (h : run s a = some t) : Moves s a t := by
  cases a with
  | wait batch =>
    simp only [run] at h
    split_ifs at h with hwait
    cases h
    exact .wait hwait.1 hwait.2
  | shutdown c =>
    cases h
    exact .shutdown
  | dispatch r =>
    cases hev : s.events with
    | nil => simp [run, hev] at h
    | cons ev rest =>
      rcases hw.dispatch_cases hev h with ⟨-, -, h⟩ | ⟨c, hc, hin, h⟩ | ⟨c, hc, hout, h⟩ |
        ⟨-, rfl, rfl⟩
      · rcases acceptCb_cases (s := State.touch { s with events := rest } s.listenfd) hw.idle
          hw.not_open_neg_one h with ⟨fd, rfl, h0, hfree, rfl⟩ | ⟨rfl, rfl⟩
        · exact .opened hev h0 hfree rfl rfl rfl
        · exact .refused hev
      · rcases receiveCb_cases (s := State.touch { s with events := rest } ev.fd) hc hin h
          with ⟨call, item, m, touched, hserved, rfl⟩ | ⟨rfl, touched, rfl⟩
        · exact .answered hev hc hin hserved
        · exact .left hev hc hin
      · obtain ⟨call, item, m, touched, hserved, rfl⟩ :=
          sendCb_cases (s := State.touch { s with events := rest } ev.fd) hc hout h
        exact .answered hev hc hout hserved
      · exact .idle hev

/-! ## The wiring is kept -/

theorem Served.slots {item item' : ConnItem} {m m' : EpollEvents} {call : Call}
    (h : Served item r m call item' m') :
    item'.arFunc = item.arFunc ∧ item'.sendFunc = item.sendFunc := by
  cases h <;> exact ⟨rfl, rfl⟩

/-- A callback takes the life of its connection one call further. -/
theorem Served.life {item item' : ConnItem} {m m' : EpollEvents} {call : Call}
    {calls : List Call} (h : Served item r m call item' m') (hlife : Life calls m.phase) :
    Life (call :: calls) m'.phase := by
  cases h with
  | received hne _ => exact .received hlife hne
  | failed => exact .failed hlife
  | sent _ => exact .sent hlife
  | unsent => exact .sent hlife

theorem State.Reports.frame (h : s.Reports ev) (hint : t.interest ev.fd = s.interest ev.fd)
    (hown : t.fds.owner ev.fd = s.fds.owner ev.fd) : t.Reports ev := by
  unfold State.Reports
  rw [hint, hown]
  exact h

/-- The events behind the head of a batch are about other descriptors. -/
theorem Wired.tail (hw : Wired s) (hev : s.events = ev :: rest) :
    (rest.map EpollEvent.fd).Nodup ∧ ∀ ev' ∈ rest, ev'.fd ≠ ev.fd ∧ s.Reports ev' := by
  have hdistinct := hw.distinct
  rw [hev, List.map_cons, List.nodup_cons] at hdistinct
  refine ⟨hdistinct.2, fun ev' hmem => ⟨fun heq => hdistinct.1 ?_, ?_⟩⟩
  · exact heq ▸ List.mem_map_of_mem hmem
  · exact hw.reports ev' (hev ▸ List.mem_cons_of_mem _ hmem)

theorem Wired.drop (hw : Wired s) (hev : s.events = ev :: rest) :
    Wired { s with events := rest } where
  __ := hw
  distinct := (hw.tail hev).1
  reports ev' hmem := ((hw.tail hev).2 ev' hmem).2

theorem Wired.opened {item : ConnItem} {touched : List Int} (hw : Wired s) (h0 : 0 ≤ fd)
    (hfree : ¬ s.Open fd) (har : item.arFunc = some .receiveCb)
    (hsend : item.sendFunc = some .sendCb) : Wired (s.opened fd item touched) := by
  have hne : s.listenfd ≠ fd := fun heq => hfree (.inl heq.symm)
  have hnone : s.fds.owner fd = none := by_contra fun hown => hfree (.inr hown)
  have hother : ∀ {c}, c < s.fds.count →
      Function.update s.log s.fds.count (.accepted :: s.log s.fds.count) c = s.log c :=
    fun hc => Function.update_of_ne (Nat.ne_of_lt hc) _ _
  refine {
    nonneg := hw.nonneg
    listener := ?_
    numbered := hw.numbered.accept fd
    owned := fun {x c} hx => ?_
    closed := fun {c} hc hall => ?_
    unborn := fun {c} hc => ?_
    registered := fun {x} hx => ?_
    distinct := hw.distinct
    reports := fun ev hmem => ?_ }
  · simp only [State.opened, FdTable.accept_owner_of_ne hne, Function.update_of_ne hne]
    exact hw.listener
  · rcases FdTable.accept_cases hx with ⟨rfl, rfl⟩ | ⟨hxf, hx⟩
    · refine ⟨h0, ?_⟩
      simp only [State.opened, Function.update_self, hw.unborn le_rfl]
      exact ⟨har, hsend, _, rfl, .accepted⟩
    · simp only [State.opened, Function.update_of_ne hxf, hother (hw.numbered.lt hx)]
      exact hw.owned hx
  · have hcfd : c ≠ s.fds.count := by
      intro heq
      subst heq
      exact hall fd FdTable.accept_owner_self
    have hlt : c < s.fds.count := Nat.lt_of_le_of_ne (Nat.le_of_lt_succ hc) hcfd
    simp only [State.opened, hother hlt]
    refine hw.closed hlt fun x hx => hall x ?_
    refine (FdTable.accept_owner_of_ne ?_).trans hx
    intro heq
    subst heq
    rw [hnone] at hx
    cases hx
  · have hlt : s.fds.count < c := hc
    simp only [State.opened, Function.update_of_ne hlt.ne']
    exact hw.unborn hlt.le
  · by_cases hxf : x = fd
    · refine .inr ?_
      simp only [State.opened, hxf, FdTable.accept_owner_self]
      exact Option.some_ne_none _
    · simp only [State.opened, Function.update_of_ne hxf] at hx
      refine (hw.registered hx).imp id fun hown => ?_
      simpa only [State.opened, FdTable.accept_owner_of_ne hxf] using hown
  · have hrep := hw.reports ev hmem
    have hne' : ev.fd ≠ fd := fun heq => hfree (heq ▸ hw.registered hrep.1)
    exact hrep.frame (Function.update_of_ne hne' _ _) (FdTable.accept_owner_of_ne hne')

theorem Wired.refused {item : ConnItem} {touched : List Int} (hw : Wired s) :
    Wired (s.refused item touched) := by
  have hne : s.listenfd ≠ -1 := by
    have := hw.nonneg
    omega
  exact {
    __ := hw
    listener := by simpa only [State.refused, Function.update_of_ne hne] using hw.listener
    owned := fun {x c} hx => by
      simpa only [State.refused, Function.update_of_ne (hw.ne_neg_one hx)] using hw.owned hx }

theorem Wired.answered {m m' : EpollEvents} {call : Call} {item : ConnItem}
    {touched : List Int} (hw : Wired s) (hc : s.fds.owner fd = some c)
    (hm : s.interest fd = some m) (hserved : Served (s.connlist fd) r m call item m')
    (hother : ∀ ev ∈ s.events, ev.fd ≠ fd) : Wired (s.answered fd c call item m' touched) := by
  have hne : s.listenfd ≠ fd := (hw.owner_ne hc).symm
  obtain ⟨h0, hclient⟩ := hw.owned hc
  obtain ⟨m₀, hm₀, hlife⟩ := hclient.life
  obtain rfl : m = m₀ := Option.some.inj (hm.symm.trans hm₀)
  refine {
    nonneg := hw.nonneg
    listener := by simpa only [State.answered, Function.update_of_ne hne] using hw.listener
    numbered := hw.numbered
    owned := fun {x k} hx => ?_
    closed := fun {k} hk hall => ?_
    unborn := fun {k} hk => ?_
    registered := fun {x} hx => ?_
    distinct := hw.distinct
    reports := fun ev hmem => ?_ }
  · by_cases hxf : x = fd
    · subst hxf
      obtain rfl : c = k := Option.some.inj (hc.symm.trans hx)
      refine ⟨h0, ?_⟩
      simp only [State.answered, Function.update_self]
      exact ⟨hserved.slots.1.trans hclient.arFunc, hserved.slots.2.trans hclient.sendFunc, _, rfl,
        hserved.life hlife⟩
    · have hkc : k ≠ c := hw.numbered.ne_of_fd_ne hx hc hxf
      simp only [State.answered, Function.update_of_ne hxf, Function.update_of_ne hkc]
      exact hw.owned hx
  · have hkc : k ≠ c := by
      intro heq
      subst heq
      exact hall _ hc
    simp only [State.answered, Function.update_of_ne hkc]
    exact hw.closed hk hall
  · simp only [State.answered, Function.update_of_ne (hw.numbered.ne_of_count_le hc hk)]
    exact hw.unborn hk
  · by_cases hxf : x = fd
    · refine .inr ?_
      simp only [State.answered, hxf, hc]
      exact Option.some_ne_none _
    · simp only [State.answered, Function.update_of_ne hxf] at hx
      exact hw.registered hx
  · exact (hw.reports ev hmem).frame (Function.update_of_ne (hother ev hmem) _ _) rfl

theorem Wired.left {touched : List Int} (hw : Wired s) (hc : s.fds.owner fd = some c)
    (hm : s.interest fd = some .epollin) (hother : ∀ ev ∈ s.events, ev.fd ≠ fd) :
    Wired (s.left fd c touched) := by
  have hne : s.listenfd ≠ fd := (hw.owner_ne hc).symm
  obtain ⟨m₀, hm₀, hlife⟩ := (hw.owned hc).2.life
  obtain rfl : .epollin = m₀ := Option.some.inj (hm.symm.trans hm₀)
  refine {
    nonneg := hw.nonneg
    listener := ?_
    numbered := hw.numbered.close fd
    owned := fun {x k} hx => ?_
    closed := fun {k} hk hall => ?_
    unborn := fun {k} hk => ?_
    registered := fun {x} hx => ?_
    distinct := hw.distinct
    reports := fun ev hmem => ?_ }
  · simp only [State.left, FdTable.close_owner_of_ne hne, Function.update_of_ne hne]
    exact hw.listener
  · obtain ⟨hxf, hx'⟩ := FdTable.close_cases hx
    have hkc : k ≠ c := hw.numbered.ne_of_fd_ne hx' hc hxf
    simp only [State.left, Function.update_of_ne hxf, Function.update_of_ne hkc]
    exact hw.owned hx'
  · by_cases hkc : k = c
    · subst hkc
      simp only [State.left, Function.update_self]
      exact .closed hlife
    · simp only [State.left, Function.update_of_ne hkc]
      refine hw.closed hk fun x hx => hall x ?_
      refine (FdTable.close_owner_of_ne ?_).trans hx
      intro heq
      subst heq
      exact hkc (Option.some.inj (hx.symm.trans hc))
  · simp only [State.left, Function.update_of_ne (hw.numbered.ne_of_count_le hc hk)]
    exact hw.unborn hk
  · by_cases hxf : x = fd
    · simp [State.left, hxf] at hx
    · simp only [State.left, Function.update_of_ne hxf] at hx
      refine (hw.registered hx).imp id fun hown => ?_
      simpa only [State.left, FdTable.close_owner_of_ne hxf] using hown
  · have hne' := hother ev hmem
    exact (hw.reports ev hmem).frame (Function.update_of_ne hne' _ _)
      (FdTable.close_owner_of_ne hne')

theorem wired_moves (hw : Wired s) (h : Moves s a t) : Wired t := by
  cases h with
  | wait _ hwaits => exact { hw with distinct := hwaits.1, reports := hwaits.2.2 }
  | shutdown => exact { hw with }
  | idle hev => exact hw.drop hev
  | opened hev h0 hfree _ har hsend => exact (hw.drop hev).opened h0 hfree har hsend
  | refused hev => exact (hw.drop hev).refused
  | answered hev hc hm hserved =>
    have hother := fun ev' hmem => ((hw.tail hev).2 ev' hmem).1
    exact (hw.drop hev).answered hc hm hserved hother
  | left hev hc hm =>
    have hother := fun ev' hmem => ((hw.tail hev).2 ev' hmem).1
    exact (hw.drop hev).left hc hm hother

/-! ## Runs -/

variable {listenfd : Int} {storage : Int → ConnItem} {s₀ : State} {as : List Act}
  {ok : State → Act → Prop}

theorem wired_init (hinit : init listenfd storage = some s₀) : Wired s₀ := by
  rw [init] at hinit
  split_ifs at hinit with h0
  cases hinit
  have hadd : (construct listenfd storage).Open listenfd ∧
      (construct listenfd storage).interest listenfd = none := ⟨.inl rfl, rfl⟩
  simp only [State.setEvent, State.epollCtl, if_pos hadd, State.setItem, State.touch]
  exact {
    nonneg := h0
    listener := ⟨rfl, Function.update_self _ _ _, by simp [construct]⟩
    numbered := FdTable.numbered_initial
    owned := fun h => by cases h
    closed := fun h => absurd h (Nat.not_lt_zero _)
    unborn := fun _ => rfl
    registered := fun {fd} h => by
      by_cases hfd : fd = listenfd
      · exact .inl hfd
      · simp only [Function.update_of_ne hfd] at h
        exact absurd rfl h
    distinct := List.nodup_nil
    reports := fun _ h => by cases h }

/-- No connection has been accepted after `init`. -/
theorem init_idle (hinit : init listenfd storage = some s₀) :
    s₀.fds = .initial ∧ s₀.log = fun _ => [] := by
  rw [init] at hinit
  split_ifs at hinit
  cases hinit
  simp only [State.setEvent, State.epollCtl, State.setItem, State.touch]
  split_ifs <;> exact ⟨rfl, rfl⟩

theorem wired_step (hw : Wired s) (h : run s a = some t) : Wired t :=
  wired_moves hw (moves_of_run hw h)

theorem wired_run (hinit : init listenfd storage = some s₀) (h : Run run ok s₀ as s) : Wired s :=
  h.invariant (wired_init hinit) fun hw _ hstep => wired_step hw hstep

/-- A log is empty, or that of a connection, which is closed when no descriptor is its own. -/
theorem Wired.life (hw : Wired s) (c : Nat) :
    (s.fds.count ≤ c ∧ s.log c = []) ∨
      ∃ ph, Life (s.log c) ph ∧ ((∀ fd, s.fds.owner fd ≠ some c) ↔ ph = .closed) := by
  by_cases hc : c < s.fds.count
  · refine .inr ?_
    by_cases hopen : ∃ fd, s.fds.owner fd = some c
    · obtain ⟨fd, hfd⟩ := hopen
      obtain ⟨-, -, m, -, hm⟩ := (hw.owned hfd).2
      refine ⟨_, hm, iff_of_false (fun hall => hall fd hfd) ?_⟩
      cases m <;> decide
    · have hall : ∀ fd, s.fds.owner fd ≠ some c := not_exists.1 hopen
      exact ⟨_, hw.closed hc hall, iff_of_true hall rfl⟩
  · exact .inl ⟨Nat.not_lt.1 hc, hw.unborn (Nat.not_lt.1 hc)⟩

end NetDesign.Reactor
