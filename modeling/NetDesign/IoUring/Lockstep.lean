import NetDesign.Uring.Lockstep
import NetDesign.IoUring.Conservation

/-!
# The two `io_uring` servers in lockstep

With the same actions, `proactor` and `main` of io_uring/c_io_uring.cc have the same operations
outstanding. They differ in the bytes they send and in where they keep them: `same_operations`.
-/

namespace NetDesign

open Uring

/-- A server keeps its listener if none of the writes of its plan touches it. -/
theorem Plan.keepsListenfd {μ α : Type*} [Memory μ α] {p : Plan μ α} {srv : Server μ α ConnInfo}
    (hlistenfd : srv.listenfd = p.listenfd) (heffect : srv.effect = p.effect)
    (hwrite : ∀ m addr bytes, p.listenfd (Memory.write m addr bytes) = p.listenfd m)
    (haccepted : ∀ m fd, p.listenfd (p.accepted m fd) = p.listenfd m)
    (hread : ∀ m fd res, p.listenfd (p.read m fd res) = p.listenfd m)
    (hwrote : ∀ m fd, p.listenfd (p.wrote m fd) = p.listenfd m) : KeepsListenfd srv where
  write := hlistenfd ▸ hwrite
  effect m q := by
    rw [hlistenfd, heffect]
    cases hop : q.sqe.opcode with
    | accept =>
      rw [Plan.effect_accept hop]
      exact haccepted m q.res
    | recv =>
      rw [Plan.effect_recv hop]
      show p.listenfd (if 0 < q.res then p.read m q.sqe.fd q.res else m) = p.listenfd m
      split_ifs
      · exact hread m q.sqe.fd q.res
      · rfl
    | send =>
      rw [Plan.effect_send hop]
      exact hwrote m q.sqe.fd

theorem Proactor.keepsListenfd : KeepsListenfd Proactor.server :=
  Plan.keepsListenfd (p := Proactor.plan) rfl rfl (fun _ addr _ => by cases addr <;> rfl)
    (fun _ _ => rfl) (fun _ _ _ => rfl) fun _ _ => rfl

theorem CIoUring.keepsListenfd : KeepsListenfd CIoUring.server :=
  Plan.keepsListenfd (p := CIoUring.plan) rfl rfl (fun _ addr _ => by cases addr <;> rfl)
    (fun _ _ => rfl) (fun _ _ _ => rfl) fun _ _ => rfl

/-- Sound states of both servers that are alike. -/
structure Paired (s : Proactor.State) (u : CIoUring.State) : Prop where
  proactor : Sound Proactor.server {fd | 0 ≤ fd} s
  main : Sound CIoUring.server {fd | 0 ≤ fd} u
  alike : Alike Proactor.server CIoUring.server s u

/-- **The two servers have the same operations outstanding.** If they listen on the same
descriptor and meet the same kernel, then after any number of steps they are at the same place of
the loop, the same operations are filled, in flight, executed with the same results and posted,
in the same order, the same descriptors are open, the same bytes were received on each
connection, and the same branches were taken for the same descriptors. -/
theorem same_operations {fd : Int} {table : Int → Proactor.ConnItem} {stack : Cells Byte}
    {s₀ s : Proactor.State} {u₀ u : CIoUring.State} {as : List Act}
    (hinit : Proactor.init fd table = some s₀) (hinit' : CIoUring.init fd stack = some u₀)
    (h : Run Proactor.run (fun _ _ => True) s₀ as s)
    (h' : Run CIoUring.main (fun _ _ => True) u₀ as u) :
    Alike Proactor.server CIoUring.server s u := by
  have h₀ : Paired s₀ u₀ := by
    refine ⟨Proactor.init_sound hinit, CIoUring.init_sound hinit', ?_⟩
    rw [Proactor.init_eq hinit, CIoUring.init_eq hinit']
    constructor <;> rfl
  have hpair : Paired s u := by
    refine h.together h₀ ?_ h'
    intro s u a t v hsu hstep hstep'
    exact ⟨hsu.proactor.step noRefusal_nonneg hstep, hsu.main.step noRefusal_nonneg hstep',
      alike_step rfl Proactor.keepsListenfd CIoUring.keepsListenfd hsu.proactor hsu.main hsu.alike
        hstep hstep'⟩
  exact hpair.alike

/-- A request of two bytes is answered, and the answer cut after one. -/
def answering : List Act :=
  Proactor.accepting ++ [.exec 1 (.received (ascii "hi")), .post 0, .program, .program, .program,
    .program, .exec 1 (.sent 1), .post 0, .program, .program]

theorem same_operations_answering :
    ∃ s₀ s u₀ u, Proactor.init 3 Proactor.blankTable = some s₀ ∧
      CIoUring.init 3 (fun _ => 0) = some u₀ ∧
      exec Proactor.run (fun _ _ => True) s₀ answering = some s ∧
      exec CIoUring.main (fun _ _ => True) u₀ answering = some u ∧
      (s.net.tx 0 = ascii "h" ∧ u.net.tx 0 = ascii "H") ∧
      Alike Proactor.server CIoUring.server s u := by
  have hdone : ((Proactor.init 3 Proactor.blankTable).bind fun s₀ =>
      exec Proactor.run (fun _ _ => True) s₀ answering).any
        (fun s => decide (s.net.tx 0 = ascii "h")) = true := by
    decide +kernel
  have hdone' : ((CIoUring.init 3 fun _ => 0).bind fun u₀ =>
      exec CIoUring.main (fun _ _ => True) u₀ answering).any
        (fun u => decide (u.net.tx 0 = ascii "H")) = true := by
    decide +kernel
  obtain ⟨s₀, s, hinit, hexec, htx⟩ := exists_exec hdone
  obtain ⟨u₀, u, hinit', hexec', htx'⟩ := exists_exec hdone'
  exact ⟨s₀, s, u₀, u, hinit, hinit', hexec, hexec', ⟨htx, htx'⟩,
    same_operations hinit hinit' (Run.of_exec hexec) (Run.of_exec hexec')⟩

end NetDesign
