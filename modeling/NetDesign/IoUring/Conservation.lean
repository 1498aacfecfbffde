import NetDesign.Uring.Outstanding
import NetDesign.Uring.Queue
import NetDesign.IoUring.Proactor
import NetDesign.IoUring.CIoUring

/-!
# Conservation of operations in the two `io_uring` servers

Both servers start with one accept in the queue, which is a sound state, so the books of
`NetDesign.Uring.Balance` hold in every state they reach.

* `Proactor.operations_conserved` — one accept, at most one operation on an open descriptor,
  none on any other, and every posted completion handled once by the branch it belongs to.
* `queue_never_full` — in both servers, the submission queue has room for every entry.
* `connection_kept_iff` — in both servers, the connections that are lost are those whose
  `recv` failed.
-/

namespace NetDesign

open Uring

theorem noOrphan_of_owner {μ α υ : Type*} {s : St μ α υ} (h : ∀ fd, s.net.owner fd = none) :
    s.NoOrphan :=
  fun fd hacc => absurd (h fd) hacc.1

namespace Proactor

variable {listenfd : Int} {table : Int → ConnItem} {s₀ s : State} {as : List Act}

/-- `init` leaves one accept in the queue. -/
theorem init_eq (h : init listenfd table = some s₀) :
    s₀ = { St.queueInit entriesLength ⟨listenfd, table, [], [], 1, []⟩ with
      sq := [prepAccept listenfd (.clientaddr 0) (.len 0) 0 ⟨listenfd, eventAccept⟩] } := by
  simp only [init, setEventAccept, Option.bind_eq_bind, Option.bind_eq_some_iff,
    St.getSqe_eq_some, Option.pure_def, Option.some.injEq] at h
  obtain ⟨s, ⟨-, rfl⟩, rfl⟩ := h
  rfl

theorem init_sound {D : Set Int} (h : init listenfd table = some s₀) : Sound server D s₀ := by
  rw [init_eq h]
  exact Sound.start rfl rfl _ _

/-- Every accept succeeds, with a descriptor in the table. -/
def AcceptsInTable (s : State) : Act → Prop
  | .exec _ (.accepted fd) => fd < maxConnect
  | .exec k (.fail _) => s.inflight[k]?.map Sqe.opcode ≠ some .accept
  | _ => True

instance {s : State} {a : Act} : Decidable (AcceptsInTable s a) :=
  match a with
  | .exec _ (.accepted _) => inferInstanceAs (Decidable (_ < _))
  | .exec _ (.fail _) => inferInstanceAs (Decidable (_ ≠ _))
  | .exec _ (.received _) | .exec _ (.sent _) | .post _ | .program =>
    inferInstanceAs (Decidable True)

theorem AcceptsInTable.noRefusal {D : Set Int} {a : Act} (h : AcceptsInTable s a) :
    NoRefusal D s a := by
  intro e errno hmove hop
  cases a with
  | exec k o =>
    obtain ⟨e', he', heq⟩ := Option.map_eq_some_iff.1 hmove
    cases heq
    exact absurd (by simp [he', hop]) h
  | program =>
    simp only [St.move] at hmove
    split at hmove
    · split_ifs at hmove
      obtain ⟨q, -, heq⟩ := Option.map_eq_some_iff.1 hmove
      cases heq
    · cases hmove
  | post => cases hmove

theorem sound_run (hinit : init listenfd table = some s₀) (h : Run run AcceptsInTable s₀ as s) :
    Sound server Set.univ s :=
  h.invariant (init_sound hinit) fun hs hok hstep => hs.step hok.noRefusal hstep

/-- **Conservation of operations.** In every state of every run: exactly one accept is
outstanding, at most one `recv` or `send` on an open descriptor and none on any other; the
completions handled so far followed by those in the queue are the posted ones, in order; and
each was handled by the branch, and for the descriptor, of the operation behind it. -/
theorem operations_conserved (hinit : init listenfd table = some s₀)
    (h : Run run AcceptsInTable s₀ as s) :
    s.outstanding.countP (fun e => e.opcode = .accept) = 1 ∧
      (∀ fd, s.outstanding.countP (fun e => e.opcode ≠ .accept ∧ e.fd = fd) ≤
        if (s.net.owner fd).isSome then 1 else 0) ∧
      s.handled.map Handled.cqe ++ s.cq.drop s.pc.taken = s.posted ∧
      ∀ x ∈ s.handled, (x.branch, x.fd) = (x.cqe.sqe.opcode, x.cqe.sqe.fd) := by
  have hs := sound_run hinit h
  exact ⟨hs.one_accept, fun fd => hs.ops_le (Set.mem_univ fd), hs.posted, hs.branch⟩

/-- A table nobody has written to yet. -/
def blankTable : Int → ConnItem := fun _ => ⟨0, fun _ => 0, 0, fun _ => 0, 0⟩

/-- A client connects as descriptor 5 and its `recv` is submitted. -/
def accepting : List Act :=
  [.program, .exec 0 (.accepted 5), .post 0, .program, .program, .program, .program]

/-- A completion is posted, and the server takes `n` steps. -/
def handling (n : Nat) : List Act := .post 0 :: List.replicate n .program

/-- Clients on descriptors 5 and 6 are answered at the same time. Then the first one goes, and a
third one gets its descriptor and is answered. -/
def reusing : List Act :=
  accepting ++ .exec 0 (.accepted 6) :: handling 4 ++
  [.exec 0 (.received (ascii "hi")), .exec 1 (.received (ascii "you")), .post 1] ++ handling 5 ++
  [.exec 1 (.sent 3), .exec 1 (.sent 2), .post 0] ++ handling 5 ++
  .exec 2 (.received []) :: handling 3 ++ .exec 0 (.accepted 5) :: handling 5 ++
  .exec 2 (.received (ascii "ho")) :: handling 4 ++ [.exec 2 (.sent 2)]

theorem operations_conserved_reusing :
    ∃ s₀ s, init 3 blankTable = some s₀ ∧ exec run AcceptsInTable s₀ reusing = some s ∧
      (s.net.owner 5 = some 2 ∧ s.net.owner 6 = some 1) ∧
      s.outstanding.countP (fun e => e.opcode = .accept) = 1 ∧
      (∀ fd, s.outstanding.countP (fun e => e.opcode ≠ .accept ∧ e.fd = fd) ≤
        if (s.net.owner fd).isSome then 1 else 0) ∧
      s.handled.map Handled.cqe ++ s.cq.drop s.pc.taken = s.posted ∧
      ∀ x ∈ s.handled, (x.branch, x.fd) = (x.cqe.sqe.opcode, x.cqe.sqe.fd) := by
  have hdone : ((init 3 blankTable).bind fun s₀ => exec run AcceptsInTable s₀ reusing).any
      (fun s => decide (s.net.owner 5 = some 2 ∧ s.net.owner 6 = some 1)) = true := by
    decide +kernel
  obtain ⟨s₀, s, hinit, hexec, howners⟩ := exists_exec hdone
  exact ⟨s₀, s, hinit, hexec, howners, operations_conserved hinit (Run.of_exec hexec)⟩

end Proactor

namespace CIoUring

variable {sockfd : Int} {stack : Cells Byte} {s₀ s : State} {as : List Act}

theorem init_eq (h : init sockfd stack = some s₀) :
    s₀ = { St.queueInit entriesLength
        ⟨sockfd, stack.fill 0 bufferLength 0, fun _ => false, false⟩ with
      sq := [prepAccept sockfd .clientaddr .len 0 ⟨sockfd, eventAccept⟩] } := by
  rw [init, setEventAccept, St.getSqe_eq_some] at h
  exact h.2

theorem init_sound {D : Set Int} (h : init sockfd stack = some s₀) : Sound server D s₀ := by
  rw [init_eq h]
  exact Sound.start rfl rfl _ _

end CIoUring

/-! ## The submission queue -/

section Room

variable {μ α : Type*} {s t u : St μ α ConnInfo} {e : Sqe α ConnInfo} {q : Cqe α ConnInfo}

/-- The READ branch of both servers goes through if there is room for one entry. -/
theorem read_isSome {res : Int} (h : u.sq.length < u.entries) :
    (if res = 0 then some s else if 0 < res then u.getSqe e else some t).isSome = true := by
  split_ifs
  · rfl
  · exact St.getSqe_isSome h
  · rfl

/-- A dispatch goes through if its branches do when there is room for two entries. -/
theorem dispatch_isSome {onAccept : St μ α ConnInfo → Int → Option (St μ α ConnInfo)}
    {onRead onWrite : St μ α ConnInfo → Int → Int → Option (St μ α ConnInfo)}
    (hAccept : ∀ u res, u.sq.length + 2 ≤ u.entries → (onAccept u res).isSome = true)
    (hRead : ∀ u fd res, u.sq.length < u.entries → (onRead u fd res).isSome = true)
    (hWrite : ∀ u fd res, u.sq.length < u.entries → (onWrite u fd res).isSome = true)
    (h : s.sq.length + 2 ≤ s.entries) :
    (dispatch onAccept onRead onWrite s q).isSome = true := by
  simp only [dispatch]
  split_ifs
  · exact hAccept _ _ h
  · exact hRead _ _ _ (Nat.lt_of_succ_lt h)
  · exact hWrite _ _ _ (Nat.lt_of_succ_lt h)
  · rfl

end Room

theorem Proactor.handle_isSome {s : Proactor.State} {q : Cqe Proactor.Ptr ConnInfo}
    (h : s.sq.length + 2 ≤ s.entries) : (Proactor.handle s q).isSome = true := by
  refine dispatch_isSome (fun u res hroom => ?_) (fun _ _ _ hroom => read_isSome hroom)
    (fun _ _ _ hroom => St.getSqe_isSome hroom) h
  refine St.bind_getSqe_isSome (Nat.lt_of_succ_lt hroom) fun t hlen hsize => ?_
  have hone : t.sq.length < t.entries := by
    rw [hlen, hsize]
    exact hroom
  exact St.bind_getSqe_isSome hone fun _ _ _ => rfl

theorem CIoUring.handle_isSome {s : CIoUring.State} {q : Cqe CIoUring.Ptr ConnInfo}
    (h : s.sq.length + 2 ≤ s.entries) : (CIoUring.handle s q).isSome = true := by
  refine dispatch_isSome (fun u res hroom => ?_) (fun _ _ _ hroom => read_isSome hroom)
    (fun _ _ _ hroom => St.getSqe_isSome hroom) h
  refine St.bind_getSqe_isSome (Nat.lt_of_succ_lt hroom) fun t hlen hsize => ?_
  refine St.getSqe_isSome ?_
  rw [hlen, hsize]
  exact hroom

/-- **The submission queue is never full.** Both servers start, and in every state of every
run at most 129 entries are filled and not submitted, and the next step of the server is
possible: no `io_uring_get_sqe` finds the ring full. -/
theorem queue_never_full (listenfd sockfd : Int) (table : Int → Proactor.ConnItem)
    (stack : Cells Byte) :
    (∃ s₀, Proactor.init listenfd table = some s₀ ∧
      ∀ as s, Run Proactor.run (fun _ _ => True) s₀ as s →
        s.sq.length ≤ 129 ∧ (Proactor.run s .program).isSome = true) ∧
    ∃ u₀, CIoUring.init sockfd stack = some u₀ ∧
      ∀ bs u, Run CIoUring.main (fun _ _ => True) u₀ bs u →
        u.sq.length ≤ 129 ∧ (CIoUring.main u .program).isSome = true := by
  have hsize : 128 + 2 ≤ 1024 := by decide
  have hone : 1 ≤ 128 + 1 := by decide
  refine ⟨⟨_, rfl, fun as s h => ?_⟩, ⟨_, rfl, fun bs u h => ?_⟩⟩
  · exact queue_run Proactor.server ⟨Proactor.init_sound rfl, hone, rfl⟩ hsize
      Proactor.handle_isSome h
  · exact queue_run CIoUring.server ⟨CIoUring.init_sound rfl, hone, rfl⟩ hsize
      CIoUring.handle_isSome h

/-! ## Orphaned connections -/

/-- **No orphans but by a failed `recv`.** In every run of either server, every connection
that was accepted and not closed has an operation outstanding, exactly when the run handled
no `recv` that failed on an open descriptor. -/
theorem connection_kept_iff {listenfd sockfd : Int} {table : Int → Proactor.ConnItem}
    {stack : Cells Byte} {s₀ s : Proactor.State} {u₀ u : CIoUring.State} {as bs : List Act}
    (hinit : Proactor.init listenfd table = some s₀)
    (h : Run Proactor.run (fun _ _ => True) s₀ as s)
    (hinit' : CIoUring.init sockfd stack = some u₀)
    (h' : Run CIoUring.main (fun _ _ => True) u₀ bs u) :
    (s.NoOrphan ↔ Run Proactor.run RecvsSucceed s₀ as s) ∧
      (u.NoOrphan ↔ Run CIoUring.main RecvsSucceed u₀ bs u) := by
  refine ⟨?_, ?_⟩
  · refine noOrphan_iff_run Proactor.server (Proactor.init_sound hinit) ?_ h
    rw [Proactor.init_eq hinit]
    exact noOrphan_of_owner fun _ => rfl
  · refine noOrphan_iff_run CIoUring.server (CIoUring.init_sound hinit') ?_ h'
    rw [CIoUring.init_eq hinit']
    exact noOrphan_of_owner fun _ => rfl

/-- Both servers keep the connection they accept. -/
theorem connection_kept_accepting :
    ∃ s₀ s u₀ u, Proactor.init 3 Proactor.blankTable = some s₀ ∧
      CIoUring.init 3 (fun _ => 0) = some u₀ ∧
      exec Proactor.run RecvsSucceed s₀ Proactor.accepting = some s ∧
      exec CIoUring.main RecvsSucceed u₀ Proactor.accepting = some u ∧
      (s.net.owner 5 = some 0 ∧ u.net.owner 5 = some 0) ∧ s.NoOrphan ∧ u.NoOrphan := by
  have hdone : ((Proactor.init 3 Proactor.blankTable).bind fun s₀ =>
      exec Proactor.run RecvsSucceed s₀ Proactor.accepting).any
        (fun s => decide (s.net.owner 5 = some 0)) = true := by
    decide +kernel
  have hdone' : ((CIoUring.init 3 fun _ => 0).bind fun u₀ =>
      exec CIoUring.main RecvsSucceed u₀ Proactor.accepting).any
        (fun u => decide (u.net.owner 5 = some 0)) = true := by
    decide +kernel
  obtain ⟨s₀, s, hinit, hexec, hown⟩ := exists_exec hdone
  obtain ⟨u₀, u, hinit', hexec', hown'⟩ := exists_exec hdone'
  have hrun := Run.of_exec hexec
  have hrun' := Run.of_exec hexec'
  obtain ⟨hkept, hkept'⟩ := connection_kept_iff hinit (hrun.mono fun _ _ _ => trivial) hinit'
    (hrun'.mono fun _ _ _ => trivial)
  exact ⟨s₀, s, u₀, u, hinit, hinit', hexec, hexec', ⟨hown, hown'⟩, hkept.2 hrun,
    hkept'.2 hrun'⟩

/-- A client connects as descriptor 5 and resets the connection; the server handles the
failed `recv` and is back at the head of its loop. -/
def resetting : List Act :=
  Proactor.accepting ++ [.exec 1 (.fail 103), .post 0, .program, .program, .program]

/-- Descriptor 5 is open, and only the accept is outstanding. -/
def Abandoned {μ α υ : Type*} (s : St μ α υ) : Prop :=
  s.pc = .head ∧ s.net.owner 5 = some 0 ∧ s.completed.length = 0 ∧
    s.outstanding.map Sqe.opcode = [.accept]

theorem Abandoned.orphan {μ α υ : Type*} {s : St μ α υ} (h : Abandoned s) : ¬ s.NoOrphan := by
  obtain ⟨-, hown, hnone, hout⟩ := h
  intro hno
  rw [List.length_eq_zero_iff] at hnone
  obtain ⟨e, he, hop, -⟩ := hno 5 ⟨by simp [hown], by simp [hnone]⟩
  have := List.mem_map_of_mem (f := Sqe.opcode) he
  rw [hout, List.mem_singleton] at this
  exact hop this

instance {μ α υ : Type*} {s : St μ α υ} : Decidable (Abandoned s) :=
  inferInstanceAs (Decidable (_ ∧ _ ∧ _ ∧ _))

/-- Neither server keeps every accepted connection armed. -/
theorem connection_lost :
    (¬ ∀ (listenfd : Int) (table : Int → Proactor.ConnItem) (s₀ s : Proactor.State)
        (as : List Act), Proactor.init listenfd table = some s₀ →
        Run Proactor.run (fun _ _ => True) s₀ as s → s.pc = .head → s.NoOrphan) ∧
    (¬ ∀ (sockfd : Int) (stack : Cells Byte) (s₀ s : CIoUring.State) (as : List Act),
      CIoUring.init sockfd stack = some s₀ →
        Run CIoUring.main (fun _ _ => True) s₀ as s → s.pc = .head → s.NoOrphan) := by
  refine ⟨?_, ?_⟩
  · intro hclaim
    have hrun : ((Proactor.init 3 Proactor.blankTable).bind fun s₀ =>
        exec Proactor.run (fun _ _ => True) s₀ resetting).any
          (fun s => decide (Abandoned s)) = true := by
      decide +kernel
    obtain ⟨s₀, s, hinit, hexec, hlost⟩ := exists_exec hrun
    exact hlost.orphan (hclaim 3 _ s₀ s _ hinit (Run.of_exec hexec) hlost.1)
  · intro hclaim
    have hrun : ((CIoUring.init 3 fun _ => 0).bind fun s₀ =>
        exec CIoUring.main (fun _ _ => True) s₀ resetting).any
          (fun s => decide (Abandoned s)) = true := by
      decide +kernel
    obtain ⟨s₀, s, hinit, hexec, hlost⟩ := exists_exec hrun
    exact hlost.orphan (hclaim 3 _ s₀ s _ hinit (Run.of_exec hexec) hlost.1)

end NetDesign
