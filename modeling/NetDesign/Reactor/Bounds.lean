import NetDesign.Reactor.Dispatch

/-!
# The receive buffer of `reactor`

`rlen` is a running sum of the results of `recv`, used as an offset, as what is taken off the
room left and, as a `size_t`, as the length of a `send`. A result within what was asked for
keeps it inside the buffer; a failed `recv` adds -1, which a buffer that is not empty absorbs.

* `buffer_bounds_iff` — the bounds hold throughout a run exactly when no `recv` of it fails on
  an empty buffer.
* `buffer_underrun` — one failed `recv` on a new connection breaks them.
-/

namespace NetDesign.Reactor

/-- The next `recv` stores inside `rbuffer`, and the next `send` is given a length inside it. -/
structure InBounds (item : ConnItem) : Prop where
  nonneg : 0 ≤ item.rlen
  le : item.rlen ≤ bufferLength
  recv : item.rlen + sizeT (bufferLength - item.rlen) ≤ bufferLength
  send : sizeT item.rlen ≤ bufferLength

theorem inBounds_iff {item : ConnItem} :
    InBounds item ↔ 0 ≤ item.rlen ∧ item.rlen ≤ bufferLength := by
  refine ⟨?_, ?_⟩
  · exact fun h => ⟨h.nonneg, h.le⟩
  · intro hyp
    obtain ⟨h0, hle⟩ := hyp
    have hlen : (bufferLength : Int) = 1024 := rfl
    have hrecv := sizeT_of_nonneg (x := bufferLength - item.rlen) (by omega) (by omega)
    have hsend := sizeT_of_nonneg h0 (by omega)
    exact ⟨h0, hle, by omega, by omega⟩

/-- The room for the next `recv`. -/
theorem sizeT_room {item : ConnItem} (h : InBounds item) :
    (sizeT (bufferLength - item.rlen) : Int) = bufferLength - item.rlen := by
  have hlen : (bufferLength : Int) = 1024 := rfl
  obtain ⟨h0, hle, -, -⟩ := h
  exact sizeT_of_nonneg (by omega) (by omega)

/-- The open client connections that have an item in `connlist` are in bounds. -/
def Bounded (s : State) : Prop :=
  ∀ fd c, s.fds.owner fd = some c → fd < maxEventsSize → InBounds (s.connlist fd)

/-- A `recv` that fails is not on an empty buffer. -/
def FailsOnData (s : State) (a : Act) : Prop :=
  a = .dispatch .recvFailed →
    ∀ ev ∈ s.events.head?, ev.fd < maxEventsSize → (s.connlist ev.fd).rlen ≠ 0

instance {s : State} {a : Act} : Decidable (FailsOnData s a) :=
  inferInstanceAs (Decidable (_ → ∀ ev ∈ s.events.head?, _))

variable {s t : State} {a : Act} {item item' : ConnItem} {r : Sys} {m m' : EpollEvents}
  {call : Call}

/-- What keeps an item in bounds. -/
theorem Served.inBounds_iff (h : Served item r m call item' m') (hin : InBounds item) :
    InBounds item' ↔ (r = .recvFailed → item.rlen ≠ 0) := by
  have hroom := sizeT_room hin
  rw [Reactor.inBounds_iff] at hin ⊢
  cases h with
  | received _ hlen =>
    refine iff_of_true ?_ (by simp)
    simp only [ConnItem.append]
    omega
  | failed =>
    simp only [forall_const]
    omega
  | sent _ => exact iff_of_true hin (by simp)
  | unsent => exact iff_of_true hin (by simp)

theorem bounded_moves (hw : Wired s) (hb : Bounded s) (h : Moves s a t) :
    Bounded t ↔ FailsOnData s a := by
  cases h with
  | wait => exact iff_of_true hb (by simp [FailsOnData])
  | shutdown => exact iff_of_true hb (by simp [FailsOnData])
  | idle => exact iff_of_true hb (by simp [FailsOnData])
  | @opened ev rest fd item touched hev h0 hfree hrlen har hsend =>
    refine iff_of_true (fun x c hx hlt => ?_) (by simp [FailsOnData])
    rcases FdTable.accept_cases hx with ⟨rfl, -⟩ | ⟨hxf, hx⟩
    · simp only [State.opened, Function.update_self, inBounds_iff, hrlen]
      decide
    · simp only [State.opened, Function.update_of_ne hxf]
      exact hb x c hx hlt
  | refused hev =>
    refine iff_of_true (fun x c hx hlt => ?_) (by simp [FailsOnData])
    simp only [State.refused, Function.update_of_ne (hw.ne_neg_one hx)]
    exact hb x c hx hlt
  | @answered ev rest c r m m' call item touched hev hc hm hserved =>
    refine ⟨fun hall hr ev' hev' hlt => ?_, fun hcond x k hx hlt => ?_⟩
    · rw [hev, List.head?_cons, Option.mem_some] at hev'
      subst hev'
      have hin' := hall ev.fd c hc hlt
      simp only [State.answered, Function.update_self] at hin'
      exact (hserved.inBounds_iff (hb ev.fd c hc hlt)).1 hin' (Act.dispatch.inj hr)
    · by_cases hxf : x = ev.fd
      · subst hxf
        simp only [State.answered, Function.update_self]
        refine (hserved.inBounds_iff (hb ev.fd c hc hlt)).2 fun hr => ?_
        exact hcond (by rw [hr]) ev (by rw [hev]; rfl) hlt
      · simp only [State.answered, Function.update_of_ne hxf]
        exact hb x k hx hlt
  | @left ev rest c touched hev hc hm =>
    refine iff_of_true (fun x k hx hlt => ?_) (by simp [FailsOnData])
    exact hb x k (FdTable.close_cases hx).2 hlt

variable {listenfd : Int} {storage : Int → ConnItem} {s₀ : State} {as : List Act}

theorem bounded_init (hinit : init listenfd storage = some s₀) : Bounded s₀ := by
  intro fd c hc
  rw [(init_idle hinit).1] at hc
  cases hc

/-- **The bounds of the receive buffer.** In every state of a run, every open connection with
an item in `connlist` receives into `rbuffer` and sends from it, exactly when no `recv` of the
run fails on such a connection while its `rlen` is 0. -/
theorem buffer_bounds_iff (hinit : init listenfd storage = some s₀)
    (h : Run run (fun _ _ => True) s₀ as s) :
    (Run run (fun s _ => Bounded s) s₀ as s ∧ Bounded s) ↔ Run run FailsOnData s₀ as s := by
  have hiff := h.always_iff (wired_init hinit) (fun hw _ hstep => wired_step hw hstep)
    (bounded_init hinit) fun hw hb _ hstep => bounded_moves hw hb (moves_of_run hw hstep)
  simpa only [true_and] using hiff

theorem buffer_bounds_serving :
    ∃ s₀ s, init 3 blankStorage = some s₀ ∧
      exec run FailsOnData s₀ (accepting ++ serving 0 (ascii "hi") 2) = some s ∧
      (s.connlist 5).rlen = 2 ∧ Bounded s := by
  have hdone : ((init 3 blankStorage).bind fun s₀ =>
      exec run FailsOnData s₀ (accepting ++ serving 0 (ascii "hi") 2)).any
        (fun s => decide ((s.connlist 5).rlen = 2)) = true := by
    decide +kernel
  obtain ⟨s₀, s, hinit, hexec, hrlen⟩ := exists_exec hdone
  have hrun := Run.of_exec hexec
  exact ⟨s₀, s, hinit, hexec, hrlen,
    ((buffer_bounds_iff hinit (hrun.mono fun _ _ _ => trivial)).2 hrun).2⟩

/-- Descriptor 5 is accepted, and its first `recv` fails. -/
def resetting : List Act :=
  accepting ++ [.wait [⟨5, true, false, some 0⟩], .dispatch .recvFailed]

/-- After one failed `recv` the offset of the next one is -1. -/
theorem buffer_underrun :
    ¬ ∀ (listenfd : Int) (storage : Int → ConnItem) (s₀ s : State) (as : List Act),
      init listenfd storage = some s₀ → Run run (fun _ _ => True) s₀ as s → Bounded s := by
  intro hclaim
  have hrun : ((init 3 blankStorage).bind fun s₀ => exec run (fun _ _ => True) s₀ resetting).any
      (fun s => decide (s.fds.owner 5 = some 0 ∧ (s.connlist 5).rlen = -1)) = true := by
    decide +kernel
  obtain ⟨s₀, s, hinit, hexec, hown, hrlen⟩ := exists_exec hrun
  have := (hclaim 3 _ s₀ s _ hinit (Run.of_exec hexec) 5 0 hown (by decide)).nonneg
  omega

end NetDesign.Reactor
