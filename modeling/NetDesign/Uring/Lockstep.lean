import NetDesign.Uring.Outstanding

/-!
# Two servers on the same kernel

What a server has outstanding depends on its completions only by the operation behind each and
its result. So two servers that meet the same kernel have the same operations in the same places,
whatever they do to their memory and whichever bytes they send.

* `alike_step` — servers that take the same action stay alike.
-/

namespace NetDesign.Uring

variable {μ α υ μ' α' υ' : Type*}

/-- The operation behind a completion, and its result. -/
def Cqe.outcome (q : Cqe α υ) : (Opcode × Int) × Int := (q.sqe.key, q.res)

/-- What a server did with a completion. -/
def Handled.taken (x : Handled α υ) : Opcode × Int := (x.branch, x.fd)

/-- The same operations, results and descriptors, in the same places. -/
structure Alike (srv : Server μ α υ) (srv' : Server μ' α' υ') (s : St μ α υ) (u : St μ' α' υ') :
    Prop where
  pc : s.pc = u.pc
  listenfd : srv.listenfd s.mem = srv'.listenfd u.mem
  sq : s.sq.map Sqe.key = u.sq.map Sqe.key
  inflight : s.inflight.map Sqe.key = u.inflight.map Sqe.key
  done : s.done.map Cqe.outcome = u.done.map Cqe.outcome
  cq : s.cq.map Cqe.outcome = u.cq.map Cqe.outcome
  fds : s.net.toFdTable = u.net.toFdTable
  rx : s.net.rx = u.net.rx
  handled : s.handled.map Handled.taken = u.handled.map Handled.taken

/-- The listening descriptor is for good. -/
structure KeepsListenfd [Memory μ α] (srv : Server μ α υ) : Prop where
  write : ∀ m addr bytes, srv.listenfd (Memory.write m addr bytes) = srv.listenfd m
  effect : ∀ m q, srv.listenfd (srv.effect m q).mem = srv.listenfd m

section Lists

variable {β γ δ : Type*} {f : β → δ} {g : γ → δ} {l : List β} {l' : List γ} {k : Nat}

theorem map_getElem?_eq (h : l.map f = l'.map g) {x : β} {y : γ} (hx : l[k]? = some x)
    (hy : l'[k]? = some y) : f x = g y := by
  have hk := congrArg (·[k]?) h
  simpa [hx, hy] using hk

theorem map_eraseIdx_eq (h : l.map f = l'.map g) (k : Nat) :
    (l.eraseIdx k).map f = (l'.eraseIdx k).map g := by
  rw [← List.eraseIdx_map, ← List.eraseIdx_map, h]

theorem map_concat_eq (h : l.map f = l'.map g) {x : β} {y : γ} (hxy : f x = g y) :
    (l ++ [x]).map f = (l' ++ [y]).map g := by
  rw [List.map_append, List.map_append, h, List.map_singleton, List.map_singleton, hxy]

end Lists

variable [Memory μ α] [Memory μ' α']

/-- The kernel does the same for entries that ask for the same. -/
theorem perform_alike {net net' : Net} {m : μ} {m' : μ'} {e : Sqe α υ} {e' : Sqe α' υ'}
    {o : Outcome} {p : Performed μ α υ} {p' : Performed μ' α' υ'} (hkey : e.key = e'.key)
    (hfds : net.toFdTable = net'.toFdTable) (hrx : net.rx = net'.rx)
    (hp : perform net m e o = some p) (hp' : perform net' m' e' o = some p') :
    p.cqe.outcome = p'.cqe.outcome ∧ p.net.toFdTable = p'.net.toFdTable ∧ p.net.rx = p'.net.rx := by
  have hfd : e.fd = e'.fd := congrArg Prod.snd hkey
  have hcount : net.count = net'.count := congrArg FdTable.count hfds
  have howner : net.owner = net'.owner := congrArg FdTable.owner hfds
  rcases perform_cases hp with ⟨errno, rfl, rfl⟩ | ⟨fd, rfl, -, -, -, -, rfl⟩ |
    ⟨bytes, c, rfl, -, hown, -, rfl⟩ | ⟨n, c, rfl, -, hown, -, rfl⟩
  · rcases perform_cases hp' with ⟨_, heq, rfl⟩ | ⟨_, heq, -⟩ | ⟨_, _, heq, -⟩ | ⟨_, _, heq, -⟩ <;>
      cases heq
    exact ⟨by simp only [Cqe.outcome, hkey], hfds, hrx⟩
  · rcases perform_cases hp' with ⟨_, heq, -⟩ | ⟨_, heq, -, -, -, -, rfl⟩ | ⟨_, _, heq, -⟩ |
      ⟨_, _, heq, -⟩ <;> cases heq
    exact ⟨by simp only [Cqe.outcome, hkey], congrArg (FdTable.accept · fd) hfds, hrx⟩
  · rcases perform_cases hp' with ⟨_, heq, -⟩ | ⟨_, heq, -⟩ | ⟨_, c', heq, -, hown', -, rfl⟩ |
      ⟨_, _, heq, -⟩ <;> cases heq
    have hc : c = c' := by
      rw [howner, hfd, hown'] at hown
      exact (Option.some.inj hown).symm
    subst hc
    refine ⟨by simp only [Cqe.outcome, hkey], hfds, ?_⟩
    show Function.update net.rx c _ = Function.update net'.rx c _
    rw [hrx]
  · rcases perform_cases hp' with ⟨_, heq, -⟩ | ⟨_, heq, -⟩ | ⟨_, _, heq, -⟩ |
      ⟨_, c', heq, -, hown', -, rfl⟩ <;> cases heq
    exact ⟨by simp only [Cqe.outcome, hkey], hfds, hrx⟩

variable {srv : Server μ α υ} {srv' : Server μ' α' υ'} {s t : St μ α υ} {u v : St μ' α' υ'}
  {a : Act} {q : Cqe α υ} {q' : Cqe α' υ'}

omit [Memory μ α] in
/-- The entries a completion is answered by. -/
theorem map_key_prep (htag : q.userData = srv.tag q.sqe.key) (m : μ) (cause : Option Delivery) :
    ((srv.effect m q).prep.map fun e => { e with cause := cause }).map Sqe.key =
      replies (srv.listenfd m) q.outcome.1 q.outcome.2 := by
  rw [List.map_map]
  exact srv.prep_key htag

/-- Completions with the same outcome are handled alike. -/
theorem Alike.handled_alike (h : Alike srv srv' s u) (hkeep : KeepsListenfd srv)
    (hkeep' : KeepsListenfd srv') (htag : q.userData = srv.tag q.sqe.key)
    (htag' : q'.userData = srv'.tag q'.sqe.key) (hout : q.outcome = q'.outcome) :
    Alike srv srv' (s.apply q (srv.effect s.mem q)) (u.apply q' (srv'.effect u.mem q')) := by
  obtain ⟨hkey, hres⟩ := Prod.mk.inj hout
  have hclose : (srv.effect s.mem q).close = (srv'.effect u.mem q').close := by
    rw [srv.close_eq htag, srv'.close_eq htag', hkey, hres]
  have hfds : ((srv.effect s.mem q).close.elim s.net s.net.close).toFdTable =
      ((srv'.effect u.mem q').close.elim u.net u.net.close).toFdTable := by
    rw [hclose]
    cases (srv'.effect u.mem q').close with
    | none => exact h.fds
    | some fd => exact congrArg (FdTable.close · fd) h.fds
  have hrx : ((srv.effect s.mem q).close.elim s.net s.net.close).rx =
      ((srv'.effect u.mem q').close.elim u.net u.net.close).rx := by
    rw [hclose]
    cases (srv'.effect u.mem q').close with
    | none => exact h.rx
    | some fd => exact h.rx
  refine { h with listenfd := ?_, sq := ?_, fds := hfds, rx := hrx, handled := ?_ }
  · show srv.listenfd (srv.effect s.mem q).mem = srv'.listenfd (srv'.effect u.mem q').mem
    rw [hkeep.effect, hkeep'.effect, h.listenfd]
  · simp only [St.apply]
    rw [List.map_append, List.map_append, map_key_prep htag, map_key_prep htag', h.sq, hout,
      h.listenfd]
  · refine map_concat_eq h.handled ?_
    exact (srv.branch_eq htag).trans (hkey.trans (srv'.branch_eq htag').symm)

/-- **Servers that take the same action stay alike.** -/
theorem alike_step {D : Set Int} (hbatch : srv.batch = srv'.batch) (hkeep : KeepsListenfd srv)
    (hkeep' : KeepsListenfd srv') (hs : Sound srv D s) (hu : Sound srv' D u)
    (h : Alike srv srv' s u) (hstep : step srv.batch srv.handle s a = some t)
    (hstep' : step srv'.batch srv'.handle u a = some v) : Alike srv srv' t v := by
  cases steps_of_step hstep with
  | exec he hp =>
    cases steps_of_step hstep' with
    | exec he' hp' =>
      obtain ⟨hout, hfds, hrx⟩ :=
        perform_alike (map_getElem?_eq h.inflight he he') h.fds h.rx hp hp'
      refine { h with
        listenfd := ?_
        inflight := map_eraseIdx_eq h.inflight _
        done := map_concat_eq h.done hout
        fds := hfds
        rx := hrx }
      rcases perform_mem hp with hm | ⟨_, hm⟩ <;> rcases perform_mem hp' with hm' | ⟨_, hm'⟩ <;>
        simp only [hm, hm', hkeep.write, hkeep'.write, h.listenfd]
  | post hq =>
    cases steps_of_step hstep' with
    | post hq' =>
      exact { h with
        done := map_eraseIdx_eq h.done _
        cq := map_concat_eq h.cq (map_getElem?_eq h.done hq hq') }
  | submit hhead =>
    cases steps_of_step hstep' with
    | submit =>
      refine { h with pc := rfl, sq := rfl, inflight := ?_ }
      simp only [St.submit, List.map_append, h.sq, h.inflight]
    | peek hpc | handle hpc | release hpc => cases (h.pc.symm.trans hhead).symm.trans hpc
  | peek hwait =>
    cases steps_of_step hstep' with
    | peek =>
      refine { h with pc := ?_ }
      have hlen := congrArg List.length h.cq
      rw [List.length_map, List.length_map] at hlen
      simp only [St.peekBatch, hbatch, hlen]
    | submit hpc | handle hpc | release hpc => cases (h.pc.symm.trans hwait).symm.trans hpc
  | @handle nready i q _ hpc hi hq hhandle =>
    cases steps_of_step hstep' with
    | submit hpc' | peek hpc' => cases (h.pc.symm.trans hpc).symm.trans hpc'
    | release hpc' hle =>
      cases (h.pc.symm.trans hpc).symm.trans hpc'
      omega
    | @handle _ _ q' _ hpc' hi' hq' hhandle' =>
      cases (h.pc.symm.trans hpc).symm.trans hpc'
      have htag := hs.tagged (.ready q) (ready_mem_tokens hpc hq)
      have htag' := hu.tagged (.ready q') (ready_mem_tokens hpc' hq')
      cases srv.handle_eq htag hhandle
      cases srv'.handle_eq htag' hhandle'
      have hmid : Alike srv srv' { s with pc := .batch nready (i + 1), current := q.got }
          { u with pc := .batch nready (i + 1), current := q'.got } :=
        { h with pc := rfl }
      exact hmid.handled_alike hkeep hkeep' htag htag' (map_getElem?_eq h.cq hq hq')
  | @release nready i hpc hle =>
    cases steps_of_step hstep' with
    | submit hpc' | peek hpc' => cases (h.pc.symm.trans hpc).symm.trans hpc'
    | handle hpc' hi' =>
      cases (h.pc.symm.trans hpc).symm.trans hpc'
      omega
    | release hpc' =>
      cases (h.pc.symm.trans hpc).symm.trans hpc'
      refine { h with pc := rfl, cq := ?_ }
      simp only [St.cqAdvance, List.map_drop, h.cq]

end NetDesign.Uring
