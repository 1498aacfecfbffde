import NetDesign.Reactor.Bounds

/-!
# What a connection of `reactor` has in its buffer

`rlen` is only ever added to, so after any number of rounds it is the number of bytes the
connection has received in all. The page is formatted over the first 201 bytes, and behind
them `rbuffer` holds what was received there. So what `send_cb` passes to `send` is a function
of what its own connection received.

* `buffered_run` — as long as no `recv` fails, buffers hold what their connection received
  and every `send` was given the `reply` to it.
* `hangup_iff` — a connection is hung up on by mistake exactly when `receive_cb` runs with a
  full buffer.
-/

namespace NetDesign.Reactor

/-- The bytes received on a connection, given its log. -/
def received : List Call → List Byte
  | [] => []
  | .received bytes :: calls => received calls ++ bytes
  | .accepted :: calls | .failed :: calls | .sent _ _ :: calls | .closed _ :: calls =>
    received calls

/-- What `send_cb` passes to `send` on a connection that has received `rx`. -/
def reply (rx : List Byte) : List Byte :=
  (page ++ [0] ++ rx.drop (page.length + 1)).take rx.length

example : reply (ascii "hello") = ascii "HTTP/" := by decide +kernel

/-- Every `send` was given the reply to what had been received before it. -/
def Replies : List Call → Prop
  | [] => True
  | call :: calls =>
    (∀ bytes res, call = .sent bytes res → bytes = reply (received calls)) ∧ Replies calls

/-- An item of a connection that has received `rx`. -/
structure Holds (item : ConnItem) (rx : List Byte) : Prop where
  rlen : item.rlen = rx.length
  le : rx.length ≤ bufferLength
  tail : ∀ (i : Nat) b, page.length < i → rx[i]? = some b → item.rbuffer i = b

structure Buffered (s : State) : Prop where
  items : ∀ {fd c}, s.fds.owner fd = some c → Holds (s.connlist fd) (received (s.log c))
  replies : ∀ c, Replies (s.log c)

variable {s t : State} {a : Act} {item item' : ConnItem} {r : Sys} {m m' : EpollEvents}
  {call : Call} {calls : List Call} {rx bytes : List Byte}

theorem Holds.inBounds (h : Holds item rx) : InBounds item := by
  have hle := h.le
  rw [inBounds_iff, h.rlen]
  omega

theorem Holds.sizeT_rlen (h : Holds item rx) : sizeT item.rlen = rx.length := by
  have hle := h.le
  have hlen : (bufferLength : Int) = 1024 := rfl
  have := sizeT_of_nonneg (x := item.rlen) (by rw [h.rlen]; omega) (by rw [h.rlen]; omega)
  rw [h.rlen] at this ⊢
  omega

theorem length_reply : (reply rx).length = rx.length := by
  simp only [reply, List.length_take, List.length_append, List.length_singleton,
    List.length_drop]
  omega

/-- The page covers the first bytes of the buffer, and what was received the rest. -/
theorem Holds.output (h : Holds item rx) : item.output = reply rx := by
  have htext : (page ++ [0]).length = page.length + 1 := by simp
  refine List.ext_getElem ?_ fun k hk hk' => ?_
  · rw [length_reply, ConnItem.output, Cells.length_read, h.sizeT_rlen]
  · have hlt : k < rx.length := length_reply ▸ hk'
    simp only [ConnItem.output, Cells.getElem_read, reply, List.getElem_take,
      ConnItem.formatted_rbuffer]
    by_cases hpage : k < (page ++ [0]).length
    · rw [List.getElem_append_left hpage]
      exact Cells.write_apply_of_inside hpage
    · rw [List.getElem_append_right (Nat.not_lt.1 hpage), List.getElem_drop]
      have hk0 : page.length + 1 + (k - (page ++ [0]).length) = k := by omega
      simp only [hk0]
      have hout : (0 : Int) + k = k := Int.zero_add _
      rw [hout, Cells.write_apply_of_outside (by omega)]
      exact h.tail k rx[k] (by omega) (List.getElem?_eq_getElem hlt)

/-- A `recv` adds its bytes to what the item holds. -/
theorem Holds.append (h : Holds item rx)
    (hroom : bytes.length ≤ sizeT (bufferLength - item.rlen)) :
    Holds (item.append bytes) (rx ++ bytes) := by
  have hsize := sizeT_room h.inBounds
  have hrlen := h.rlen
  refine ⟨?_, ?_, fun i b hi hb => ?_⟩
  · simp [ConnItem.append, hrlen]
  · rw [List.length_append]
    omega
  · by_cases hlt : i < rx.length
    · rw [List.getElem?_append_left hlt] at hb
      have hout : (i : Int) < item.rlen ∨ item.rlen + bytes.length ≤ i := by omega
      rw [ConnItem.append_rbuffer, Cells.write_apply_of_outside hout]
      exact h.tail i b hi hb
    · rw [List.getElem?_append_right (Nat.not_lt.1 hlt)] at hb
      obtain ⟨hk, rfl⟩ := List.getElem?_eq_some_iff.1 hb
      have hoff : (i : Int) = item.rlen + (i - rx.length : Nat) := by omega
      rw [ConnItem.append_rbuffer, hoff]
      exact Cells.write_apply_of_inside hk

/-- Formatting the page leaves what was received behind it. -/
theorem Holds.formatted (h : Holds item rx) : Holds item.formatted rx where
  rlen := h.rlen
  le := h.le
  tail i b hi hb := by
    have hout : (0 : Int) + (page ++ [0]).length ≤ i := by
      rw [List.length_append, List.length_singleton]
      omega
    rw [ConnItem.formatted_rbuffer, Cells.write_apply_of_outside (.inr hout)]
    exact h.tail i b hi hb

/-- A callback whose `recv` does not fail keeps the item in step with the log, and answers
with the reply. -/
theorem holds_of_served (h : Served item r m call item' m') (hr : r ≠ .recvFailed)
    (hitem : Holds item (received calls)) :
    Holds item' (received (call :: calls)) ∧
      ∀ bytes res, call = .sent bytes res → bytes = reply (received calls) := by
  cases h with
  | received _ hlen => exact ⟨hitem.append hlen, fun _ _ h => by cases h⟩
  | failed => exact absurd rfl hr
  | sent _ =>
    refine ⟨hitem.formatted, fun bytes res h => ?_⟩
    cases h
    exact hitem.output
  | unsent =>
    refine ⟨hitem.formatted, fun bytes res h => ?_⟩
    cases h
    exact hitem.output

theorem buffered_moves (hw : Wired s) (hb : Buffered s) (hok : RecvsReturn a)
    (h : Moves s a t) : Buffered t := by
  cases h with
  | wait => exact ⟨hb.items, hb.replies⟩
  | shutdown => exact ⟨hb.items, hb.replies⟩
  | idle => exact ⟨hb.items, hb.replies⟩
  | @opened ev rest fd item touched hev h0 hfree hrlen har hsend =>
    refine ⟨fun {x c} hx => ?_, fun c => ?_⟩
    · rcases FdTable.accept_cases hx with ⟨rfl, rfl⟩ | ⟨hxf, hx⟩
      · simp only [State.opened, Function.update_self, hw.unborn le_rfl]
        exact ⟨hrlen, Nat.zero_le _, fun i b _ hi => by cases hi⟩
      · simp only [State.opened, Function.update_of_ne hxf,
          Function.update_of_ne (hw.numbered.lt hx).ne]
        exact hb.items hx
    · by_cases hc : c = s.fds.count
      · subst hc
        simp only [State.opened, Function.update_self]
        exact ⟨fun _ _ h => (by cases h), hb.replies _⟩
      · simp only [State.opened, Function.update_of_ne hc]
        exact hb.replies c
  | refused hev =>
    refine ⟨fun {x c} hx => ?_, hb.replies⟩
    simp only [State.refused, Function.update_of_ne (hw.ne_neg_one hx)]
    exact hb.items hx
  | @answered ev rest c r m m' call item touched hev hc hm hserved =>
    have hr : r ≠ .recvFailed := by
      intro heq
      subst heq
      exact hok rfl
    obtain ⟨hitem, hreply⟩ := holds_of_served hserved hr (hb.items hc)
    refine ⟨fun {x k} hx => ?_, fun k => ?_⟩
    · by_cases hxf : x = ev.fd
      · subst hxf
        obtain rfl : c = k := Option.some.inj (hc.symm.trans hx)
        simp only [State.answered, Function.update_self]
        exact hitem
      · have hkc : k ≠ c := hw.numbered.ne_of_fd_ne hx hc hxf
        simp only [State.answered, Function.update_of_ne hxf, Function.update_of_ne hkc]
        exact hb.items hx
    · by_cases hkc : k = c
      · subst hkc
        simp only [State.answered, Function.update_self]
        exact ⟨hreply, hb.replies k⟩
      · simp only [State.answered, Function.update_of_ne hkc]
        exact hb.replies k
  | @left ev rest c touched hev hc hm =>
    refine ⟨fun {x k} hx => ?_, fun k => ?_⟩
    · obtain ⟨hxf, hx'⟩ := FdTable.close_cases hx
      have hkc : k ≠ c := hw.numbered.ne_of_fd_ne hx' hc hxf
      simp only [State.left, Function.update_of_ne hkc]
      exact hb.items hx'
    · by_cases hkc : k = c
      · subst hkc
        simp only [State.left, Function.update_self]
        exact ⟨fun _ _ h => (by cases h), fun _ _ h => (by cases h), hb.replies k⟩
      · simp only [State.left, Function.update_of_ne hkc]
        exact hb.replies k

/-! ## Runs -/

variable {listenfd : Int} {storage : Int → ConnItem} {s₀ : State} {as : List Act}
  {ok : State → Act → Prop}

theorem buffered_init (hinit : init listenfd storage = some s₀) : Buffered s₀ := by
  obtain ⟨hfds, hlog⟩ := init_idle hinit
  refine ⟨fun {fd c} hc => ?_, fun c => ?_⟩
  · rw [hfds] at hc
    cases hc
  · rw [hlog]
    trivial

theorem buffered_step (hok : ∀ s a, ok s a → RecvsReturn a) (hs : Wired s ∧ Buffered s)
    (ha : ok s a) (h : run s a = some t) : Wired t ∧ Buffered t :=
  ⟨wired_step hs.1 h, buffered_moves hs.1 hs.2 (hok s a ha) (moves_of_run hs.1 h)⟩

theorem buffered_run (hok : ∀ s a, ok s a → RecvsReturn a)
    (hinit : init listenfd storage = some s₀) (h : Run run ok s₀ as s) : Buffered s :=
  (h.invariant ⟨wired_init hinit, buffered_init hinit⟩
    fun hs ha hstep => buffered_step hok hs ha hstep).2

/-! ## Hanging up -/

/-- No `recv` fails, and one that returns 0 is at the end of the stream or asked for nothing. -/
def RecvsPosix (s : State) (a : Act) : Prop :=
  RecvsReturn a ∧ (a = .dispatch (.received []) → ∀ ev ∈ s.events.head?,
    s.peerShut ev.fd = true ∨ sizeT (bufferLength - (s.connlist ev.fd).rlen) = 0)

instance {a : Act} : Decidable (RecvsPosix s a) :=
  inferInstanceAs (Decidable (_ ∧ (_ → ∀ ev ∈ s.events.head?, _)))

/-- When `receive_cb` runs on a connection, the peer has closed its side or the connection
has received fewer bytes than `rbuffer` has. -/
def ReceivesWithRoom (s : State) : Act → Prop
  | .dispatch (.received _) => ∀ ev ∈ s.events.head?, ∀ c ∈ s.fds.owner ev.fd,
      s.shut c = true ∨ (received (s.log c)).length < bufferLength
  | _ => True

instance {a : Act} : Decidable (ReceivesWithRoom s a) :=
  match a with
  | .dispatch (.received _) =>
    inferInstanceAs (Decidable (∀ ev ∈ s.events.head?, ∀ c ∈ s.fds.owner ev.fd, _))
  | .dispatch (.accepted _) | .dispatch .acceptFailed | .dispatch .recvFailed
  | .dispatch (.sent _) | .dispatch .sendFailed | .dispatch .idle | .wait _ | .shutdown _ =>
    inferInstanceAs (Decidable True)

/-- `close` was called only on connections whose peer had closed its side. -/
def ClosedByPeer (s : State) : Prop := ∀ c, .closed false ∉ s.log c

/-- What a call on one connection means for a property of all logs. -/
theorem forall_update_and (P : List Call → Prop) {q : Prop} {log : Nat → List Call} {c : Nat}
    (h : P calls ↔ P (log c) ∧ q) :
    (∀ k, P (Function.update log c calls k)) ↔ (∀ k, P (log k)) ∧ q := by
  rw [Function.forall_update_iff log fun _ => P, h]
  refine ⟨?_, ?_⟩
  · intro hyp
    obtain ⟨⟨hself, hq⟩, hother⟩ := hyp
    refine ⟨fun k => ?_, hq⟩
    by_cases hk : k = c
    · exact hk ▸ hself
    · exact hother k hk
  · intro hyp
    obtain ⟨hall, hq⟩ := hyp
    exact ⟨⟨hall c, hq⟩, fun k _ => hall k⟩

theorem receivesWithRoom_iff {ev : EpollEvent} {rest : List EpollEvent} {c : Nat}
    {bytes : List Byte} (hev : s.events = ev :: rest) (hc : s.fds.owner ev.fd = some c) :
    ReceivesWithRoom s (.dispatch (.received bytes)) ↔
      s.shut c = true ∨ (received (s.log c)).length < bufferLength := by
  simp only [ReceivesWithRoom, hev, List.head?_cons, Option.mem_def, Option.some.injEq,
    forall_eq', hc]

/-- Where `recv` returns 0, there is room for more only if the peer has closed its side. -/
theorem receivesWithRoom_nil_iff {ev : EpollEvent} {rest : List EpollEvent} {c : Nat}
    (hb : Buffered s) (hok : RecvsPosix s (.dispatch (.received [])))
    (hev : s.events = ev :: rest) (hc : s.fds.owner ev.fd = some c) :
    ReceivesWithRoom s (.dispatch (.received [])) ↔ s.shut c = true := by
  have hitem := hb.items hc
  have hsize := sizeT_room hitem.inBounds
  have hrlen := hitem.rlen
  have hroom : s.shut c = true ∨ bufferLength ≤ (received (s.log c)).length := by
    have := hok.2 rfl ev (by rw [hev]; rfl)
    rw [State.peerShut, hc, Option.any_some] at this
    refine this.imp id fun hzero => ?_
    omega
  rw [receivesWithRoom_iff hev hc]
  constructor
  · rintro (hshut | hlt)
    · exact hshut
    · exact hroom.resolve_right (by omega)
  · exact .inl

theorem closedByPeer_moves (hb : Buffered s) (hok : RecvsPosix s a) (h : Moves s a t) :
    ClosedByPeer t ↔ ClosedByPeer s ∧ ReceivesWithRoom s a := by
  cases h with
  | wait => exact (and_iff_left trivial).symm
  | shutdown => exact (and_iff_left trivial).symm
  | idle => exact (and_iff_left trivial).symm
  | opened =>
    refine forall_update_and (.closed false ∉ ·) (Iff.trans ?_ (and_iff_left trivial).symm)
    simp
  | refused => exact (and_iff_left trivial).symm
  | @answered ev rest c r m m' call item touched hev hc hm hserved =>
    have hcall : .closed false ∉ call :: s.log c ↔ .closed false ∉ s.log c := by
      cases hserved <;> simp
    refine forall_update_and (.closed false ∉ ·) (hcall.trans (and_iff_left ?_).symm)
    cases hserved with
    | received hne hlen =>
      have hitem := hb.items hc
      have hsize := sizeT_room hitem.inBounds
      have hpos := List.length_pos_iff.2 hne
      have hrlen := hitem.rlen
      refine (receivesWithRoom_iff hev hc).2 (.inr ?_)
      omega
    | _ => trivial
  | @left ev rest c touched hev hc hm =>
    refine forall_update_and (.closed false ∉ ·) ?_
    rw [receivesWithRoom_nil_iff hb hok hev hc]
    cases s.shut c <;> simp

/-- **A live connection is hung up on only with a full buffer.** In every run in which `recv`
returns 0 only at the end of a stream or when it is asked for nothing, `receive_cb` closes
only connections whose peer has closed its side, exactly when it never runs on another one
that has received `BUFFER_LENGTH` bytes in all. -/
theorem hangup_iff (hinit : init listenfd storage = some s₀)
    (h : Run run RecvsPosix s₀ as s) :
    ClosedByPeer s ↔ Run run (fun s a => RecvsPosix s a ∧ ReceivesWithRoom s a) s₀ as s := by
  have hstart : ClosedByPeer s₀ := fun c => by
    rw [(init_idle hinit).2]
    exact List.not_mem_nil
  exact h.good_iff ⟨wired_init hinit, buffered_init hinit⟩
    (fun hs ha hstep => buffered_step (fun _ _ hok => hok.1) hs ha hstep) hstart
    fun hs ha hstep => closedByPeer_moves hs.2 ha (moves_of_run hs.1 hstep)

/-- The peer of connection 0 has closed its side, and the connection is closed. -/
def leaving : List Act :=
  [.shutdown 0, .wait [⟨5, true, false, some 0⟩], .dispatch (.received [])]

theorem hangup_leaving :
    ∃ s₀ s, init 3 blankStorage = some s₀ ∧
      exec run (fun s a => RecvsPosix s a ∧ ReceivesWithRoom s a) s₀
        (accepting ++ serving 0 (ascii "hi") 2 ++ leaving) = some s ∧
      s.fds.owner 5 = none ∧ ClosedByPeer s := by
  have hdone : ((init 3 blankStorage).bind fun s₀ =>
      exec run (fun s a => RecvsPosix s a ∧ ReceivesWithRoom s a) s₀
        (accepting ++ serving 0 (ascii "hi") 2 ++ leaving)).any
        (fun s => decide (s.fds.owner 5 = none)) = true := by
    decide +kernel
  obtain ⟨s₀, s, hinit, hexec, hown⟩ := exists_exec hdone
  have hrun := Run.of_exec hexec
  exact ⟨s₀, s, hinit, hexec, hown,
    (hangup_iff hinit (hrun.mono fun _ _ hok => hok.1)).2 hrun⟩

/-- A client sends 1024 bytes, is answered, and sends more: `recv` is asked for nothing. -/
theorem hangup_full :
    ¬ ∀ (listenfd : Int) (storage : Int → ConnItem) (s₀ s : State) (as : List Act),
      init listenfd storage = some s₀ → Run run RecvsPosix s₀ as s → ClosedByPeer s := by
  intro hclaim
  have hrun : ((init 3 blankStorage).bind fun s₀ => exec run RecvsPosix s₀
      (accepting ++ serving 0 (List.replicate 1024 120) 1024 ++
        [.wait [⟨5, true, false, some 0⟩], .dispatch (.received [])])).any
        (fun s => decide (.closed false ∈ s.log 0)) = true := by
    decide +kernel
  obtain ⟨s₀, s, hinit, hexec, hclosed⟩ := exists_exec hrun
  exact hclaim 3 _ s₀ s _ hinit (Run.of_exec hexec) 0 hclosed

end NetDesign.Reactor
