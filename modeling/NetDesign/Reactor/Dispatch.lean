import NetDesign.Reactor.Wiring

/-!
# Dispatch in `reactor`

* `Life.alternating` — the callbacks of a connection take turns.
* `dispatch_sound` — what holds at every dispatch, and the callbacks of every connection.
-/

namespace NetDesign.Reactor

/-! ## Alternation -/

/-- The callback that makes a system call on a connection. `close` is called by the
`receive_cb` whose `recv` returned 0. -/
def Call.callback : Call → Option Callback
  | .received _ | .failed => some .receiveCb
  | .sent _ _ => some .sendCb
  | .accepted | .closed _ => none

/-- The callbacks run on a connection, oldest first. -/
def callbacks (calls : List Call) : List Callback := calls.reverse.filterMap Call.callback

/-- `receive_cb`, `send_cb`, `receive_cb`, ... -/
def Alternating (l : List Callback) : Prop :=
  ∀ k f, l[k]? = some f → f = if k % 2 = 0 then .receiveCb else .sendCb

theorem callbacks_cons {call : Call} {calls : List Call} :
    callbacks (call :: calls) = callbacks calls ++ call.callback.toList := by
  rw [callbacks, List.reverse_cons, List.filterMap_append, callbacks]
  cases call <;> rfl

theorem Alternating.concat {l : List Callback} {f : Callback} (h : Alternating l)
    (hf : f = if l.length % 2 = 0 then .receiveCb else .sendCb) : Alternating (l ++ [f]) := by
  intro k g hk
  by_cases hlt : k < l.length
  · rw [List.getElem?_append_left hlt] at hk
    exact h k g hk
  · obtain ⟨hbound, rfl⟩ := List.getElem?_eq_some_iff.1 hk
    obtain rfl : k = l.length := by
      rw [List.length_append, List.length_singleton] at hbound
      omega
    simpa using hf

/-- The callbacks alternate, and the next one is that of the phase. -/
theorem Life.alternating {calls : List Call} {ph : Phase} (h : Life calls ph) :
    Alternating (callbacks calls) ∧
      ((callbacks calls).length % 2 = 0 ↔ ph = .reading) := by
  induction h with
  | accepted =>
    have hnone : callbacks [.accepted] = [] := rfl
    rw [hnone]
    exact ⟨fun k f hk => (by cases hk), by simp⟩
  | received _ _ ih | failed _ ih =>
    have heven := ih.2.2 rfl
    rw [callbacks_cons]
    refine ⟨ih.1.concat (by rw [if_pos heven]), ?_⟩
    simp only [Call.callback, Option.toList_some, List.length_append, List.length_singleton,
      reduceCtorEq, iff_false]
    omega
  | sent _ ih =>
    have hodd := mt ih.2.1 (by decide)
    rw [callbacks_cons]
    refine ⟨ih.1.concat (by rw [if_neg hodd]), ?_⟩
    simp only [Call.callback, Option.toList_some, List.length_append, List.length_singleton,
      iff_true]
    omega
  | closed _ ih =>
    have heven := ih.2.2 rfl
    rw [callbacks_cons, callbacks_cons]
    simp only [Call.callback, Option.toList_none, Option.toList_some, List.append_nil]
    refine ⟨ih.1.concat (by rw [if_pos heven]), ?_⟩
    simp only [List.length_append, List.length_singleton, reduceCtorEq, iff_false]
    omega

/-- `close` is the last call on a connection. -/
theorem Life.closed_notMem {calls : List Call} {ph : Phase} (h : Life calls ph)
    (hph : ph ≠ .closed) (shut : Bool) : .closed shut ∉ calls := by
  induction h with
  | accepted => simp
  | received hlife _ ih => simpa using ih (by decide)
  | failed hlife ih => simpa using ih (by decide)
  | sent hlife ih => simpa using ih (by decide)
  | closed => exact absurd rfl hph

/-- A connection ends with the `receive_cb` that closes it. -/
theorem Life.closed_iff {calls : List Call} {ph : Phase} (h : Life calls ph) :
    ph = .closed ↔ ∃ shut older, calls = .closed shut :: .received [] :: older := by
  refine ⟨?_, ?_⟩
  · intro heq
    subst heq
    cases h
    exact ⟨_, _, rfl⟩
  · intro hyp
    obtain ⟨shut, older, rfl⟩ := hyp
    by_contra hph
    exact h.closed_notMem hph shut List.mem_cons_self

theorem Life.closed_notMem_tail {calls : List Call} {ph : Phase} (h : Life calls ph)
    (shut : Bool) : .closed shut ∉ calls.tail := by
  by_cases hph : ph = .closed
  · subst hph
    cases h with
    | closed hlife => simpa using hlife.closed_notMem (by decide) shut
  · exact fun hmem => h.closed_notMem hph shut (List.mem_of_mem_tail hmem)

/-! ## Runs -/

variable {listenfd : Int} {storage : Int → ConnItem} {s₀ s : State} {as : List Act}

/-- An accepted descriptor has an item in `connlist`. -/
def AcceptsInTable : Act → Prop
  | .dispatch (.accepted fd) => fd < maxEventsSize
  | _ => True

/-- No `accept` fails. -/
def AcceptsReturn (a : Act) : Prop := a ≠ .dispatch .acceptFailed

/-- No `recv` fails. -/
def RecvsReturn (a : Act) : Prop := a ≠ .dispatch .recvFailed

instance {a : Act} : Decidable (AcceptsInTable a) :=
  match a with
  | .dispatch (.accepted _) => inferInstanceAs (Decidable (_ < _))
  | .dispatch .acceptFailed | .dispatch (.received _) | .dispatch .recvFailed
  | .dispatch (.sent _) | .dispatch .sendFailed | .dispatch .idle | .wait _ | .shutdown _ =>
    inferInstanceAs (Decidable True)

instance {a : Act} : Decidable (AcceptsReturn a) := inferInstanceAs (Decidable (_ ≠ _))

instance {a : Act} : Decidable (RecvsReturn a) := inferInstanceAs (Decidable (_ ≠ _))

/-- **Sound dispatch.** Whenever an event is dispatched, its descriptor is open and belongs
to the connection the event was reported for, the slot its bits select is assigned, with
`accept_cb` for the listener and no other; and on every connection the callbacks alternate,
beginning with `receive_cb` and ending with the one that closes it. -/
theorem dispatch_sound (hinit : init listenfd storage = some s₀)
    (h : Run run (fun _ a => AcceptsInTable a ∧ AcceptsReturn a ∧ RecvsReturn a) s₀ as s) :
    (∀ ev rest, s.events = ev :: rest →
      s.Open ev.fd ∧ s.fds.owner ev.fd = ev.owner ∧
      (ev.epollin = true → (s.connlist ev.fd).arFunc =
        some (if ev.fd = s.listenfd then .acceptCb else .receiveCb)) ∧
      (ev.epollout = true → ev.fd ≠ s.listenfd ∧ (s.connlist ev.fd).sendFunc = some .sendCb)) ∧
    (∀ c, Alternating (callbacks (s.log c))) ∧
    (∀ c < s.fds.count, (∀ fd, s.fds.owner fd ≠ some c) ↔
      ∃ shut older, s.log c = .closed shut :: .received [] :: older) ∧
    ∀ c shut, .closed shut ∉ (s.log c).tail := by
  have hw := wired_run hinit h
  refine ⟨fun ev rest hev => ?_, fun c => ?_, fun c hc => ?_, fun c shut => ?_⟩
  · obtain ⟨hreg, -, hout, howner⟩ := hw.reports ev (hev ▸ List.mem_cons_self)
    refine ⟨hw.registered hreg, howner.symm, fun _ => ?_, fun hepout => ?_⟩
    · rcases hw.head_cases hev with ⟨hlisten, -⟩ | ⟨c, -, hc⟩
      · rw [if_pos hlisten, hlisten]
        exact hw.listener.2.2
      · rw [if_neg (hw.owner_ne hc)]
        exact (hw.owned hc).2.arFunc
    · rcases hw.head_cases hev with ⟨-, -, hno⟩ | ⟨c, -, hc⟩
      · exact absurd hepout hno
      · exact ⟨hw.owner_ne hc, (hw.owned hc).2.sendFunc⟩
  · rcases hw.life c with ⟨-, hnil⟩ | ⟨ph, hph, -⟩
    · rw [hnil]
      exact fun k f hk => by cases hk
    · exact hph.alternating.1
  · rcases hw.life c with ⟨hle, -⟩ | ⟨ph, hph, hiff⟩
    · exact absurd hc (Nat.not_lt.2 hle)
    · exact hiff.trans hph.closed_iff
  · rcases hw.life c with ⟨-, hnil⟩ | ⟨ph, hph, -⟩
    · simp [hnil]
    · exact hph.closed_notMem_tail shut

/-- Storage that happens to be zero. -/
def blankStorage : Int → ConnItem := fun _ => ⟨0, fun _ => 0, 0, fun _ => 0, 0, none, none⟩

/-- The listener, descriptor 3, is ready, and descriptor 5 is accepted. -/
def accepting : List Act := [.wait [⟨3, true, false, none⟩], .dispatch (.accepted 5)]

/-- Connection `c` on descriptor 5 receives bytes, and `n` bytes are sent. -/
def serving (c : Nat) (bytes : List Byte) (n : Nat) : List Act :=
  [.wait [⟨5, true, false, some c⟩], .dispatch (.received bytes),
    .wait [⟨5, false, true, some c⟩], .dispatch (.sent n)]

/-- Connection 0 is closed, and its descriptor accepted again in the same batch. -/
def replacing : List Act :=
  [.wait [⟨5, true, false, some 0⟩, ⟨3, true, false, none⟩], .dispatch (.received []),
    .dispatch (.accepted 5)]

theorem dispatch_sound_replacing :
    ∃ s₀ s, init 3 blankStorage = some s₀ ∧
      exec run (fun _ a => AcceptsInTable a ∧ AcceptsReturn a ∧ RecvsReturn a) s₀
        (accepting ++ serving 0 (ascii "hi") 2 ++ replacing) = some s ∧
      s.fds.owner 5 = some 1 ∧ ∀ c, Alternating (callbacks (s.log c)) := by
  have hdone : ((init 3 blankStorage).bind fun s₀ =>
      exec run (fun _ a => AcceptsInTable a ∧ AcceptsReturn a ∧ RecvsReturn a) s₀
        (accepting ++ serving 0 (ascii "hi") 2 ++ replacing)).any
        (fun s => decide (s.fds.owner 5 = some 1)) = true := by
    decide +kernel
  obtain ⟨s₀, s, hinit, hexec, hown⟩ := exists_exec hdone
  exact ⟨s₀, s, hinit, hexec, hown, (dispatch_sound hinit (Run.of_exec hexec)).2.1⟩

end NetDesign.Reactor
