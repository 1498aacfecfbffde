import NetDesign.Reactor.Buffer

/-!
# Noninterference between connections of `reactor`

Every `send` was given the reply to what its own connection received before it, so the bytes
given to `send` on a connection are a function of its own events. Neither the other
connections, nor the descriptors, nor what `connlist` held before, come into it.

* `outputs_eq` — the function.
* `noninterference` — connections of two runs with the same events send the same bytes.
-/

namespace NetDesign.Reactor

/-- What happens to a connection, without what the server answers. -/
inductive Input
  | accepted
  | chunk (bytes : List Byte)
  | failed
  | writable
  deriving DecidableEq, Repr

def Call.input : Call → Option Input
  | .accepted => some .accepted
  | .received bytes => some (.chunk bytes)
  | .failed => some .failed
  | .sent _ _ => some .writable
  | .closed _ => none

def Call.output : Call → Option (List Byte)
  | .sent bytes _ => some bytes
  | .accepted | .received _ | .failed | .closed _ => none

/-- The events of a connection, newest first. -/
def State.inputs (s : State) (c : Nat) : List Input := (s.log c).filterMap Call.input

/-- The bytes given to each `send` on a connection, newest first. -/
def State.outputs (s : State) (c : Nat) : List (List Byte) := (s.log c).filterMap Call.output

/-- The bytes of the chunks that have arrived. -/
def chunks : List Input → List Byte
  | [] => []
  | .chunk bytes :: older => chunks older ++ bytes
  | .accepted :: older | .failed :: older | .writable :: older => chunks older

/-- What a server that knows only one connection sends on it. -/
def replies : List Input → List (List Byte)
  | [] => []
  | .writable :: older => reply (chunks older) :: replies older
  | .accepted :: older | .failed :: older | .chunk _ :: older => replies older

theorem received_eq_chunks (calls : List Call) :
    received calls = chunks (calls.filterMap Call.input) := by
  induction calls with
  | nil => rfl
  | cons call calls ih =>
    cases call <;> simp [received, List.filterMap_cons, Call.input, chunks, ih]

/-- Lawful answers are those of the server that knows only one connection. -/
theorem Replies.output_eq {calls : List Call} (h : Replies calls) :
    calls.filterMap Call.output = replies (calls.filterMap Call.input) := by
  induction calls with
  | nil => rfl
  | cons call calls ih =>
    have hrest := ih h.2
    cases call with
    | sent bytes res =>
      have hbytes : bytes = reply (received calls) := h.1 bytes res rfl
      simp only [List.filterMap_cons, Call.output, Call.input, replies, hrest, hbytes,
        received_eq_chunks]
    | _ => simpa only [List.filterMap_cons, Call.output, Call.input, replies] using hrest

/-! ## Runs -/

variable {listenfd listenfd' : Int} {storage storage' : Int → ConnItem}
  {s₀ s s₀' s' : State} {as as' : List Act}

/-- What a connection is sent depends on its own events alone. -/
theorem outputs_eq (hinit : init listenfd storage = some s₀)
    (h : Run run (fun _ a => AcceptsInTable a ∧ RecvsReturn a) s₀ as s) (c : Nat) :
    s.outputs c = replies (s.inputs c) :=
  ((buffered_run (fun _ _ hok => hok.2) hinit h).replies c).output_eq

/-- **Noninterference.** A connection of one run and a connection of another that see the same
events are sent the same bytes, and these are what the connection alone determines. -/
theorem noninterference (hinit : init listenfd storage = some s₀)
    (h : Run run (fun _ a => AcceptsInTable a ∧ RecvsReturn a) s₀ as s)
    (hinit' : init listenfd' storage' = some s₀')
    (h' : Run run (fun _ a => AcceptsInTable a ∧ RecvsReturn a) s₀' as' s') {c c' : Nat}
    (hsame : s.inputs c = s'.inputs c') :
    s.outputs c = s'.outputs c' ∧ s.outputs c = replies (s.inputs c) := by
  have hc := outputs_eq hinit h c
  have hc' := outputs_eq hinit' h' c'
  exact ⟨hc.trans ((congrArg replies hsame).trans hc'.symm), hc⟩

/-- Storage somebody else has used. -/
def usedStorage : Int → ConnItem := fun _ => ⟨7, fun _ => 255, 9, fun _ => 255, 9, none, none⟩

/-- A first connection, and one on the descriptor of an earlier connection. -/
theorem noninterference_reused :
    ∃ s₀ s s₀' s', init 3 blankStorage = some s₀ ∧ init 3 usedStorage = some s₀' ∧
      exec run (fun _ a => AcceptsInTable a ∧ RecvsReturn a) s₀
        (accepting ++ serving 0 (ascii "hi") 2) = some s ∧
      exec run (fun _ a => AcceptsInTable a ∧ RecvsReturn a) s₀'
        (accepting ++ serving 0 (ascii "secret") 6 ++ replacing ++ serving 1 (ascii "hi") 2) =
          some s' ∧
      s.outputs 0 = s'.outputs 1 := by
  have hfirst : ((init 3 blankStorage).bind fun s₀ =>
      exec run (fun _ a => AcceptsInTable a ∧ RecvsReturn a) s₀
        (accepting ++ serving 0 (ascii "hi") 2)).any
        (fun s => decide (s.inputs 0 = [.writable, .chunk (ascii "hi"), .accepted])) = true := by
    decide +kernel
  have hsecond : ((init 3 usedStorage).bind fun s₀ =>
      exec run (fun _ a => AcceptsInTable a ∧ RecvsReturn a) s₀
        (accepting ++ serving 0 (ascii "secret") 6 ++ replacing ++ serving 1 (ascii "hi") 2)).any
        (fun s => decide (s.inputs 1 = [.writable, .chunk (ascii "hi"), .accepted])) = true := by
    decide +kernel
  obtain ⟨s₀, s, hinit, hexec, hin⟩ := exists_exec hfirst
  obtain ⟨s₀', s', hinit', hexec', hin'⟩ := exists_exec hsecond
  exact ⟨s₀, s, s₀', s', hinit, hinit', hexec, hexec',
    (noninterference hinit (Run.of_exec hexec) hinit' (Run.of_exec hexec')
      (hin.trans hin'.symm)).1⟩

end NetDesign.Reactor
