import NetDesign.Reactor.Dispatch

/-!
# `accept_cb` of `reactor`

Whatever `Accept` returns is registered and used as an index: -1 stands for a failure, and a
descriptor can be larger than the table.

* `acceptCb_atomic_iff` — one call of `accept_cb`.
* `accept_atomic_iff` — the calls of a run are atomic and in bounds exactly when every accept
  returns a descriptor that has a slot.
-/

namespace NetDesign.Reactor

/-- The item is that of a connection on `fd` that has received nothing. -/
structure Initialised (item : ConnItem) (fd : Int) : Prop where
  fd_eq : item.fd = fd
  rbuffer : ∀ i : Int, 0 ≤ i → i < bufferLength → item.rbuffer i = 0
  rlen : item.rlen = 0
  wbuffer : ∀ i : Int, 0 ≤ i → i < bufferLength → item.wbuffer i = 0
  wlen : item.wlen = 0
  arFunc : item.arFunc = some .receiveCb
  sendFunc : item.sendFunc = some .sendCb

/-- `accept_cb` leads from `s` to `t`: it uses slots of the table only, a result without a slot
changes nothing, and an accepted descriptor that is open is registered, with its slot
initialised. -/
structure Atomic (s t : State) (r : Sys) : Prop where
  inside : ∃ used, t.touched = s.touched ++ used ∧ ∀ i ∈ used, 0 ≤ i ∧ i < maxEventsSize
  unchanged : (∀ fd, r = .accepted fd → (maxEventsSize : Int) ≤ fd) →
    t.connlist = s.connlist ∧ t.events = s.events ∧ t.interest = s.interest
  registered : ∀ fd, r = .accepted fd → t.Open fd →
    t.interest fd = some .epollin ∧ Initialised (t.connlist fd) fd

variable {s t : State} {a : Act} {r : Sys} {fd : Int}

theorem ConnItem.cleared_initialised (item : ConnItem) : Initialised (item.cleared fd) fd where
  fd_eq := rfl
  rbuffer _ h0 h := Cells.fill_apply_of_inside h0 (by rwa [zero_add])
  rlen := rfl
  wbuffer _ h0 h := Cells.fill_apply_of_inside h0 (by rwa [zero_add])
  wlen := rfl
  arFunc := rfl
  sendFunc := rfl

/-- **One call of `accept_cb`.** -/
theorem acceptCb_atomic_iff (hidle : ∀ {fd}, ¬ s.Open fd → s.interest fd = none)
    (hneg : ¬ s.Open (-1)) (h : s.acceptCb r = some t) :
    Atomic s t r ↔ ∃ fd, r = .accepted fd ∧ fd < maxEventsSize := by
  rcases acceptCb_cases hidle hneg h with ⟨fd, rfl, h0, -, rfl⟩ | ⟨rfl, rfl⟩
  · have hused : ∀ used, (s.opened fd ((s.connlist fd).cleared fd) (s.touched ++ [fd])).touched =
        s.touched ++ used → used = [fd] := fun used heq => (List.append_cancel_left heq).symm
    refine ⟨?_, ?_⟩
    · intro hatomic
      obtain ⟨used, heq, hall⟩ := hatomic.inside
      rw [hused used heq] at hall
      exact ⟨fd, rfl, (hall fd (List.mem_singleton_self _)).2⟩
    · intro hlt
      obtain ⟨x, hx, hlt⟩ := hlt
      cases hx
      refine ⟨⟨[fd], rfl, ?_⟩, fun hout => ?_, fun x hx _ => ?_⟩
      · exact List.forall_mem_singleton.2 ⟨h0, hlt⟩
      · exact absurd (hout fd rfl) (not_le.2 hlt)
      · cases hx
        simp only [State.opened, Function.update_self]
        exact ⟨trivial, ConnItem.cleared_initialised _⟩
  · refine iff_of_false (fun hatomic => ?_) fun hyp => ?_
    · obtain ⟨used, heq, hall⟩ := hatomic.inside
      have hused : used = [-1] := (List.append_cancel_left heq).symm
      rw [hused] at hall
      exact absurd (hall (-1) (List.mem_singleton_self _)).1 (by decide)
    · obtain ⟨x, hx, -⟩ := hyp
      cases hx

/-! ## Runs -/

/-- The dispatch of an event of the listener is atomic and in bounds. -/
def AcceptsAtomically (s : State) (a : Act) : Prop :=
  ∀ ev rest r t, s.events = ev :: rest → ev.fd = s.listenfd → ev.epollin = true →
    a = .dispatch r → run s a = some t →
      Atomic (State.touch { s with events := rest } s.listenfd) t r

/-- A callback of a client makes no `accept`. -/
theorem Served.accepts {item item' : ConnItem} {m m' : EpollEvents} {call : Call}
    (h : Served item r m call item' m') :
    AcceptsInTable (.dispatch r) ∧ AcceptsReturn (.dispatch r) := by
  cases h <;> exact ⟨trivial, by simp [AcceptsReturn]⟩

theorem acceptsAtomically_iff (hw : Wired s) (h : run s a = some t) :
    AcceptsAtomically s a ↔ AcceptsInTable a ∧ AcceptsReturn a := by
  cases a with
  | wait batch =>
    exact iff_of_true (fun _ _ _ _ _ _ _ ha => by cases ha) ⟨trivial, by simp [AcceptsReturn]⟩
  | shutdown c =>
    exact iff_of_true (fun _ _ _ _ _ _ _ ha => by cases ha) ⟨trivial, by simp [AcceptsReturn]⟩
  | dispatch r =>
    cases hev : s.events with
    | nil => simp [run, hev] at h
    | cons ev rest =>
      -- Only an event of the listener calls `accept_cb`.
      have hother : (ev.fd = s.listenfd → ¬ ev.epollin = true) →
          AcceptsAtomically s (.dispatch r) := by
        intro hno ev' rest' _ _ hev' hlisten hepin
        cases hev.symm.trans hev'
        exact absurd hepin (hno hlisten)
      rcases hw.dispatch_cases hev h with ⟨hlisten, hepin, hcall⟩ | ⟨c, hc, hin, hcall⟩ |
        ⟨c, hc, hout, hcall⟩ | ⟨hepin, rfl, -⟩
      · have hiff : AcceptsAtomically s (.dispatch r) ↔
            Atomic (State.touch { s with events := rest } s.listenfd) t r := by
          refine ⟨fun hall => hall ev rest r t hev hlisten hepin rfl h, ?_⟩
          intro hatomic ev' rest' r' u hev' _ _ ha hu
          cases hev.symm.trans hev'
          cases ha
          cases h.symm.trans hu
          exact hatomic
        rw [hiff, acceptCb_atomic_iff (s := State.touch { s with events := rest } s.listenfd)
          hw.idle hw.not_open_neg_one hcall]
        rcases acceptCb_cases (s := State.touch { s with events := rest } s.listenfd) hw.idle
          hw.not_open_neg_one hcall with ⟨fd, rfl, -⟩ | ⟨rfl, -⟩
        · simp [AcceptsInTable, AcceptsReturn]
        · simp [AcceptsReturn]
      · refine iff_of_true (hother fun hlisten => absurd hlisten (hw.owner_ne hc)) ?_
        rcases receiveCb_cases (s := State.touch { s with events := rest } ev.fd) hc hin hcall
          with ⟨call, item, m, touched, hserved, -⟩ | ⟨rfl, -⟩
        · exact hserved.accepts
        · exact ⟨trivial, by simp [AcceptsReturn]⟩
      · refine iff_of_true (hother fun hlisten => absurd hlisten (hw.owner_ne hc)) ?_
        obtain ⟨call, item, m, touched, hserved, -⟩ :=
          sendCb_cases (s := State.touch { s with events := rest } ev.fd) hc hout hcall
        exact hserved.accepts
      · exact iff_of_true (hother fun _ => hepin) ⟨trivial, by simp [AcceptsReturn]⟩

variable {listenfd : Int} {storage : Int → ConnItem} {s₀ : State} {as : List Act}

/-- **Atomic accepts.** In every run, every call of `accept_cb` uses slots of the table only,
changes nothing when `Accept` fails or its descriptor has no slot, and leaves no descriptor
open that is not registered with its slot initialised, exactly when every `Accept` returns a
descriptor that has a slot. -/
theorem accept_atomic_iff (hinit : init listenfd storage = some s₀)
    (h : Run run (fun _ _ => True) s₀ as s) :
    Run run AcceptsAtomically s₀ as s ↔
      Run run (fun _ a => AcceptsInTable a ∧ AcceptsReturn a) s₀ as s :=
  h.guard_iff (wired_init hinit) (fun hw _ hstep => wired_step hw hstep)
    fun hw _ hstep => acceptsAtomically_iff hw hstep

theorem accept_atomic_accepting :
    ∃ s₀ s, init 3 blankStorage = some s₀ ∧
      exec run (fun _ a => AcceptsInTable a ∧ AcceptsReturn a) s₀ accepting = some s ∧
      s.interest 5 = some .epollin ∧ Run run AcceptsAtomically s₀ accepting.reverse s := by
  have hdone : ((init 3 blankStorage).bind fun s₀ =>
      exec run (fun _ a => AcceptsInTable a ∧ AcceptsReturn a) s₀ accepting).any
        (fun s => decide (s.interest 5 = some .epollin)) = true := by
    decide +kernel
  obtain ⟨s₀, s, hinit, hexec, hreg⟩ := exists_exec hdone
  have hrun := Run.of_exec hexec
  exact ⟨s₀, s, hinit, hexec, hreg,
    (accept_atomic_iff hinit (hrun.mono fun _ _ _ => trivial)).2 hrun⟩

/-- An `Accept` that fails has `connlist[-1]` written to. -/
theorem accept_overrun :
    ¬ ∀ (listenfd : Int) (storage : Int → ConnItem) (s₀ s : State) (as : List Act),
      init listenfd storage = some s₀ → Run run (fun _ _ => True) s₀ as s →
        Run run AcceptsAtomically s₀ as s := by
  intro hclaim
  have hrun : ((init 3 blankStorage).bind fun s₀ =>
      exec run (fun _ _ => True) s₀ [.wait [⟨3, true, false, none⟩]]).any
        (fun s => decide ((run s (.dispatch .acceptFailed)).isSome = true)) = true := by
    decide +kernel
  obtain ⟨s₀, s, hinit, hexec, hstep⟩ := exists_exec hrun
  obtain ⟨t, ht⟩ := Option.isSome_iff_exists.1 hstep
  have hs := Run.of_exec hexec
  obtain ⟨u, hu, hatomic, -⟩ := Run.cons_iff.1 (hclaim 3 _ s₀ t _ hinit (.cons hs trivial ht))
  cases hs.unique hu
  exact ((acceptsAtomically_iff (wired_run hinit hs) ht).1 hatomic).2 rfl

end NetDesign.Reactor
