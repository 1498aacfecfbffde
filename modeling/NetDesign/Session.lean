import Mathlib.Data.List.Basic
import Mathlib.Data.List.Infix

/-!
# Request–reply sessions

What a server that answers one request at a time does on one connection. A request is what one
receive delivers. While it is not answered nothing more is received, and the session ends when a
receive delivers nothing or fails. Which bytes may be sent in answer is a parameter, `Allowed`, of
what was received so far.

Logs are newest first.

* `Session` — a log of a connection, and the phase it ends in.
* `Session.unique` — the log determines the phase.
* `Session.length_requests` — every request but the last has had its answer.
* `Session.sends_allowed` — every answer is an allowed one.
* `Session.output_sublist` — an echo never invents, repeats or reorders a byte.
* `Session.output_eq_settled` — it loses none if every answer is complete.
-/

namespace NetDesign

variable {β : Type*}

/-- A call on a connection: `failed` is a receive, and `unsent` a send, that failed. -/
inductive Event (β : Type*)
  | accepted
  | received (chunk : List β)
  | failed
  | sent (bytes : List β)
  | unsent
  | closed
  deriving DecidableEq, Repr

namespace Event

/-- The bytes it delivers. -/
def input : Event β → List β
  | received chunk => chunk
  | _ => []

/-- The bytes it transmits. -/
def output : Event β → List β
  | sent bytes => bytes
  | _ => []

/-- A request is a receive that delivers bytes. -/
def request : Event β → Option (List β)
  | received [] => none
  | received chunk => some chunk
  | _ => none

/-- What a send that did not fail transmits. -/
def send : Event β → Option (List β)
  | sent bytes => some bytes
  | _ => none

def isUnsent : Event β → Bool
  | unsent => true
  | _ => false

end Event

/-- What is due on a connection: a request, an answer, its closing, or nothing any more because
it is closed, or because a receive failed. -/
inductive Stage
  | idle
  | owing
  | ended
  | closed
  | lost
  deriving DecidableEq, Repr

section Log

/-- The bytes received and transmitted, oldest first. -/
def input (log : List (Event β)) : List β := log.reverse.flatMap Event.input

def output (log : List (Event β)) : List β := log.reverse.flatMap Event.output

/-- The requests, newest first. -/
def requests (log : List (Event β)) : List (List β) := log.filterMap Event.request

/-- The answers, newest first, but for those that failed. -/
def sends (log : List (Event β)) : List (List β) := log.filterMap Event.send

/-- The number of answers that failed. -/
def failures (log : List (Event β)) : Nat := log.countP Event.isUnsent

variable {e : Event β} {log : List (Event β)} {chunk bytes : List β}

@[simp] theorem input_cons : input (e :: log) = input log ++ e.input := by
  simp [input]

theorem input_cons_of_nil (h : e.input = []) : input (e :: log) = input log := by
  rw [input_cons, h, List.append_nil]

@[simp] theorem output_cons : output (e :: log) = output log ++ e.output := by
  simp [output]

theorem output_cons_of_nil (h : e.output = []) : output (e :: log) = output log := by
  rw [output_cons, h, List.append_nil]

@[simp] theorem requests_received (h : chunk ≠ []) :
    requests (.received chunk :: log) = chunk :: requests log := by
  cases chunk with
  | nil => exact absurd rfl h
  | cons => rfl

theorem requests_cons_of_none (h : e.request = none) : requests (e :: log) = requests log :=
  List.filterMap_cons_none h

theorem mem_requests : chunk ∈ requests log ↔ .received chunk ∈ log ∧ chunk ≠ [] := by
  simp only [requests, List.mem_filterMap]
  constructor
  · rintro ⟨e, he, hreq⟩
    match e, hreq with
    | .received (b :: bs), rfl => exact ⟨he, List.cons_ne_nil _ _⟩
  · rintro ⟨he, hne⟩
    obtain ⟨b, bs, rfl⟩ := List.exists_cons_of_ne_nil hne
    exact ⟨_, he, rfl⟩

theorem sends_cons_of_none (h : e.send = none) : sends (e :: log) = sends log :=
  List.filterMap_cons_none h

theorem failures_unsent : failures (.unsent :: log) = failures log + 1 :=
  List.countP_cons_of_pos rfl

theorem failures_cons_of_not (h : e.isUnsent = false) : failures (e :: log) = failures log :=
  List.countP_cons_of_neg (ne_true_of_eq_false h)

/-- The requests hold all bytes received. -/
theorem input_eq (log : List (Event β)) : input log = (requests log).reverse.flatten := by
  induction log with
  | nil => rfl
  | cons e log ih =>
    rw [input_cons, ih]
    cases e with
    | received chunk =>
      cases chunk with
      | nil => exact List.append_nil _
      | cons b chunk => simp [requests, Event.request, Event.input]
    | _ => exact List.append_nil _

/-- The answers hold all bytes transmitted. -/
theorem output_eq (log : List (Event β)) : output log = (sends log).reverse.flatten := by
  induction log with
  | nil => rfl
  | cons e log ih =>
    rw [output_cons, ih]
    cases e with
    | sent bytes => simp [sends, Event.send, Event.output]
    | _ => exact List.append_nil _

end Log

/-- The log of a connection, where `Allowed requests bytes` is what may be sent in answer to
the newest of the requests. -/
inductive Session (Allowed : List (List β) → List β → Prop) : List (Event β) → Stage → Prop
  | accepted : Session Allowed [.accepted] .idle
  | received {log : List (Event β)} {chunk : List β} :
      Session Allowed log .idle → chunk ≠ [] → Session Allowed (.received chunk :: log) .owing
  | sent {log : List (Event β)} {bytes : List β} :
      Session Allowed log .owing → Allowed (requests log) bytes →
      Session Allowed (.sent bytes :: log) .idle
  | unsent {log : List (Event β)} :
      Session Allowed log .owing → Session Allowed (.unsent :: log) .idle
  | ended {log : List (Event β)} :
      Session Allowed log .idle → Session Allowed (.received [] :: log) .ended
  | closed {log : List (Event β)} :
      Session Allowed log .ended → Session Allowed (.closed :: log) .closed
  | failed {log : List (Event β)} :
      Session Allowed log .idle → Session Allowed (.failed :: log) .lost

namespace Session

variable {Allowed Allowed' : List (List β) → List β → Prop} {log : List (Event β)} {p q : Stage}

/-- **The log determines the stage.** -/
theorem unique (h : Session Allowed log p) (h' : Session Allowed' log q) : p = q := by
  cases h <;> cases h' <;> first | rfl | contradiction

/-- **One answer for each request**, and the last one may be due. -/
theorem length_requests (h : Session Allowed log p) :
    (requests log).length =
      (sends log).length + failures log + if p = .owing then 1 else 0 := by
  induction h with
  | accepted => rfl
  | received _ hne ih =>
    rw [requests_received hne, List.length_cons, sends_cons_of_none rfl, failures_cons_of_not rfl]
    exact congrArg Nat.succ ih
  | @sent log bytes _ _ ih =>
    rw [requests_cons_of_none rfl, failures_cons_of_not rfl, ih]
    exact Nat.add_right_comm _ _ _
  | unsent _ ih =>
    rw [requests_cons_of_none rfl, sends_cons_of_none rfl, failures_unsent, ih]
    rfl
  | ended _ ih | closed _ ih | failed _ ih =>
    rw [requests_cons_of_none rfl, sends_cons_of_none rfl, failures_cons_of_not rfl]
    exact ih

/-- Every answer is an allowed one. -/
theorem sends_allowed {P : List β → Prop} (h : Session (fun _ => P) log p) :
    ∀ bytes ∈ sends log, P bytes := by
  induction h with
  | accepted => exact fun _ hmem => by cases hmem
  | sent _ hbytes ih =>
    intro bytes hmem
    rcases List.mem_cons.1 hmem with rfl | hmem
    · exact hbytes
    · exact ih bytes hmem
  | received _ _ ih | unsent _ ih | ended _ ih | closed _ ih | failed _ ih =>
    rwa [sends_cons_of_none rfl]

/-- While an answer is due there is a request. -/
theorem requests_ne_nil (h : Session Allowed log .owing) : requests log ≠ [] := by
  intro hnil
  have hlen := h.length_requests
  rw [hnil, if_pos rfl] at hlen
  cases hlen

/-! ## Echoes -/

/-- The newest request, and nothing before there is one. -/
def newest (reqs : List (List β)) : List β := reqs.headD []

/-- The answer is a part of the newest request, from its start. -/
def Echo (reqs : List (List β)) (bytes : List β) : Prop := bytes <+: newest reqs

/-- The answer is the newest request. -/
def FullEcho (reqs : List (List β)) (bytes : List β) : Prop := bytes = newest reqs

/-- The bytes received before the request that is due, if one is. -/
def settled (p : Stage) (log : List (Event β)) : List β :=
  if p = .owing then (requests log).tail.reverse.flatten else input log

theorem settled_of_ne (hp : p ≠ .owing) : settled p log = input log := if_neg hp

theorem settled_owing (h : Session Allowed log .owing) :
    input log = settled .owing log ++ newest (requests log) := by
  rw [input_eq, settled, if_pos rfl]
  cases hreqs : requests log with
  | nil => exact absurd hreqs h.requests_ne_nil
  | cons chunk reqs => simp [newest]

theorem settled_received {chunk : List β} (hne : chunk ≠ []) :
    settled .owing (.received chunk :: log) = input log := by
  rw [settled, if_pos rfl, requests_received hne, List.tail_cons, input_eq]

/-- An echo that loses the tails of some requests. -/
theorem output_sublist_settled (h : Session Echo log p) :
    (output log).Sublist (settled p log) := by
  induction h with
  | accepted => exact List.Sublist.refl _
  | received h hne ih =>
    rw [settled_received hne, output_cons_of_nil rfl]
    rwa [settled_of_ne (by decide)] at ih
  | sent h hbytes ih =>
    rw [output_cons, settled_of_ne (by decide), input_cons_of_nil rfl, settled_owing h]
    exact ih.append hbytes.sublist
  | unsent h ih =>
    rw [output_cons_of_nil rfl, settled_of_ne (by decide), input_cons_of_nil rfl, settled_owing h]
    exact ih.trans (List.sublist_append_left _ _)
  | ended _ ih | closed _ ih | failed _ ih =>
    rw [output_cons_of_nil rfl, settled_of_ne (by decide), input_cons_of_nil rfl]
    rwa [settled_of_ne (by decide)] at ih

/-- **No byte is invented, repeated or moved.** -/
theorem output_sublist (h : Session Echo log p) : (output log).Sublist (input log) := by
  have hsub := h.output_sublist_settled
  by_cases hp : p = .owing
  · subst hp
    rw [settled_owing h]
    exact hsub.trans (List.sublist_append_left _ _)
  · rwa [settled_of_ne hp] at hsub

/-- **An echo in full.** -/
theorem output_eq_settled (h : Session FullEcho log p) (hall : .unsent ∉ log) :
    output log = settled p log := by
  induction h with
  | accepted => rfl
  | received h hne ih =>
    have hbefore := ih fun hmem => hall (List.mem_cons_of_mem _ hmem)
    rw [settled_of_ne (by decide)] at hbefore
    rwa [settled_received hne, output_cons_of_nil rfl]
  | @sent log bytes h hbytes ih =>
    have hbefore := ih fun hmem => hall (List.mem_cons_of_mem _ hmem)
    rw [output_cons, settled_of_ne (by decide), input_cons_of_nil rfl, settled_owing h, hbefore]
    exact congrArg (settled .owing log ++ ·) hbytes
  | unsent => exact absurd List.mem_cons_self hall
  | ended _ ih | closed _ ih | failed _ ih =>
    have hbefore := ih fun hmem => hall (List.mem_cons_of_mem _ hmem)
    rw [settled_of_ne (by decide)] at hbefore
    rwa [output_cons_of_nil rfl, settled_of_ne (by decide), input_cons_of_nil rfl]

end Session

end NetDesign
