import NetDesign.Uring.Progress
import NetDesign.IoUring.Conservation

/-!
# Progress of the two `io_uring` servers

Neither server keeps a completion waiting: `completions_handled`.
-/

namespace NetDesign

open Uring

/-- **No completion is forgotten or put off.** In both servers, in every state of every run, the
`d` completions that were posted and not handled are handled, in the order of posting, within
`d` steps of the server and three for each 128 of them, whatever the kernel executes and posts
meanwhile. The server can always take these steps. -/
theorem completions_handled {listenfd sockfd : Int} {table : Int → Proactor.ConnItem}
    {stack : Cells Byte} {s₀ s : Proactor.State} {u₀ u : CIoUring.State} {as bs : List Act}
    (hinit : Proactor.init listenfd table = some s₀)
    (h : Run Proactor.run (fun _ _ => True) s₀ as s)
    (hinit' : CIoUring.init sockfd stack = some u₀)
    (h' : Run CIoUring.main (fun _ _ => True) u₀ bs u) :
    Drains Proactor.cqesLength Proactor.handle s ∧
      Drains CIoUring.cqesLength CIoUring.handle u := by
  have hbatch : 0 < 128 := by decide
  have hentries : 128 + 2 ≤ 1024 := by decide
  have hone : 1 ≤ 128 + 1 := by decide
  refine ⟨?_, ?_⟩
  · have h₀ : Queued Proactor.server 1024 s₀ := by
      have hsound := Proactor.init_sound (D := {fd | 0 ≤ fd}) hinit
      cases Proactor.init_eq hinit
      exact ⟨hsound, hone, rfl⟩
    have hs : Queued Proactor.server 1024 s := h.invariant h₀ fun hs _ hstep => queued_step hs hstep
    exact hs.drains hbatch hentries Proactor.handle_isSome
  · have h₀ : Queued CIoUring.server 1024 u₀ := by
      have hsound := CIoUring.init_sound (D := {fd | 0 ≤ fd}) hinit'
      cases CIoUring.init_eq hinit'
      exact ⟨hsound, hone, rfl⟩
    have hu : Queued CIoUring.server 1024 u :=
      h'.invariant h₀ fun hs _ hstep => queued_step hs hstep
    exact hu.drains hbatch hentries CIoUring.handle_isSome

/-- A client has connected and both servers are to hear of it. -/
theorem completions_handled_connecting :
    ∃ s₀ s u₀ u, Proactor.init 3 Proactor.blankTable = some s₀ ∧
      CIoUring.init 3 (fun _ => 0) = some u₀ ∧
      exec Proactor.run (fun _ _ => True) s₀ (Proactor.accepting.take 3) = some s ∧
      exec CIoUring.main (fun _ _ => True) u₀ (Proactor.accepting.take 3) = some u ∧
      (s.posted.length - s.handled.length = 1 ∧ u.posted.length - u.handled.length = 1) ∧
      Drains Proactor.cqesLength Proactor.handle s ∧
      Drains CIoUring.cqesLength CIoUring.handle u := by
  have hdone : ((Proactor.init 3 Proactor.blankTable).bind fun s₀ =>
      exec Proactor.run (fun _ _ => True) s₀ (Proactor.accepting.take 3)).any
        (fun s => decide (s.posted.length - s.handled.length = 1)) = true := by
    decide +kernel
  have hdone' : ((CIoUring.init 3 fun _ => 0).bind fun u₀ =>
      exec CIoUring.main (fun _ _ => True) u₀ (Proactor.accepting.take 3)).any
        (fun u => decide (u.posted.length - u.handled.length = 1)) = true := by
    decide +kernel
  obtain ⟨s₀, s, hinit, hexec, hone⟩ := exists_exec hdone
  obtain ⟨u₀, u, hinit', hexec', hone'⟩ := exists_exec hdone'
  exact ⟨s₀, s, u₀, u, hinit, hinit', hexec, hexec', ⟨hone, hone'⟩,
    completions_handled hinit (Run.of_exec hexec) hinit' (Run.of_exec hexec')⟩

end NetDesign
