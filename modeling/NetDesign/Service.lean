import NetDesign.Run
import NetDesign.History
import NetDesign.Session
import NetDesign.FdTable
import Mathlib.Data.Set.Card
import Mathlib.Data.List.TakeWhile

/-!
# A service with many clients

What the servers of this repository are for, all of them. Clients come, so many at a time, and
each has a session of its own, whatever the others do. The servers differ in what they answer,
in how much they have room for, and in whether a `recv` may fail; these are the `Rules`.

* `Service.Reachable` — what may have happened to the clients so far.
* `Service.Reachable.admits` — each has had a session that the rules admit.
* `Service.reachable_iff` — and it may have any of them, whatever the others have, as long as
  there is room for it.
* `Service.exists_alone` — a client that is alone may have any of them.
* `Service.stepwise_iff` — a service that goes on to the next stage of some at once comes to the
  same, as far as clients in these stages are concerned.
* `Service.Stepwise.exchanges`, `departures` — its steps, where nothing is due to clients in these
  stages, or only the close.
* `Service.lt_encard_iff` — there is room for one more as long as a descriptor is free.
* `Implements` — a program whose runs come to what the service may come to, and to all of it.
* `Implements.exhibits_iff` — so what is seen of its runs is known without them.
-/

namespace NetDesign

variable {β : Type*}

/-! ## Rules -/

/-- What may be sent in answer, which requests there is room for, newest first, how many clients
there may be at a time, and whether a receive may fail. -/
structure Rules (β : Type*) where
  Allowed : List (List β) → List β → Prop
  Fits : List (List β) → Prop
  capacity : ℕ∞
  Fails : Prop
  fits_nil : Fits []
  fits_of_cons : ∀ {chunk reqs}, Fits (chunk :: reqs) → Fits reqs

/-- Each request fits a buffer of its own. -/
def Rules.chunked (Allowed : List (List β) → List β → Prop) (limit : Nat) (capacity : ℕ∞)
    (Fails : Prop) : Rules β where
  Allowed := Allowed
  Fits reqs := ∀ chunk ∈ reqs, chunk.length ≤ limit
  capacity := capacity
  Fails := Fails
  fits_nil _ hmem := by cases hmem
  fits_of_cons h chunk hmem := h chunk (List.mem_cons_of_mem _ hmem)

/-- The log is a session within the rules. -/
structure Rules.Admits (r : Rules β) (log : List (Event β)) (p : Stage) : Prop where
  session : Session r.Allowed log p
  fits : r.Fits (requests log)
  fails : p = .lost → r.Fails

namespace Rules.Admits

variable {r : Rules β} {log : List (Event β)} {e : Event β} {p q : Stage} {chunk bytes : List β}

theorem ne_nil (h : r.Admits log p) : log ≠ [] := by
  rintro rfl
  cases h.session

theorem accepted : r.Admits [.accepted] .idle :=
  ⟨.accepted, r.fits_nil, fun h => by cases h⟩

theorem received (h : r.Admits log .idle) (hne : chunk ≠ [])
    (hfits : r.Fits (chunk :: requests log)) : r.Admits (.received chunk :: log) .owing :=
  ⟨.received h.session hne, by rwa [requests_received hne], fun h => by cases h⟩

theorem sent (h : r.Admits log .owing) (hbytes : r.Allowed (requests log) bytes) :
    r.Admits (.sent bytes :: log) .idle :=
  ⟨.sent h.session hbytes, requests_cons_of_none (e := .sent bytes) rfl ▸ h.fits,
    fun h => by cases h⟩

theorem unsent (h : r.Admits log .owing) : r.Admits (.unsent :: log) .idle :=
  ⟨.unsent h.session, requests_cons_of_none (e := .unsent) rfl ▸ h.fits, fun h => by cases h⟩

theorem ended (h : r.Admits log .idle) : r.Admits (.received [] :: log) .ended :=
  ⟨.ended h.session, requests_cons_of_none (e := .received []) rfl ▸ h.fits,
    fun h => by cases h⟩

theorem closed (h : r.Admits log .ended) : r.Admits (.closed :: log) .closed :=
  ⟨.closed h.session, requests_cons_of_none (e := .closed) rfl ▸ h.fits, fun h => by cases h⟩

/-- What was said before was within the rules. -/
theorem of_cons (h : r.Admits (e :: log) p) (hlog : log ≠ []) : ∃ q, r.Admits log q := by
  obtain ⟨hsession, hfits, hfails⟩ := h
  have hbefore : ∀ {q}, Session r.Allowed log q → q ≠ .lost → r.Fits (requests log) →
      ∃ q, r.Admits log q := fun {q} hq hne hfits => ⟨q, hq, hfits, fun h => absurd h hne⟩
  cases hsession with
  | accepted => exact absurd rfl hlog
  | received hidle hne =>
    rw [requests_received hne] at hfits
    exact hbefore hidle (by decide) (r.fits_of_cons hfits)
  | sent h | unsent h | ended h | closed h | failed h =>
    rw [requests_cons_of_none rfl] at hfits
    exact hbefore h (by decide) hfits

end Rules.Admits

/-! ## Stages -/

/-- The stage that the event leads to. -/
def Event.stage : Event β → Stage
  | .accepted | .sent _ | .unsent => .idle
  | .received [] => .ended
  | .received _ => .owing
  | .failed => .lost
  | .closed => .closed

theorem Session.stage_eq {Allowed : List (List β) → List β → Prop} {log : List (Event β)}
    {e : Event β} {p : Stage} (h : Session Allowed (e :: log) p) : e.stage = p := by
  cases h with
  | received _ hne =>
    obtain ⟨b, bs, rfl⟩ := List.exists_cons_of_ne_nil hne
    rfl
  | _ => rfl

/-- Every session began with an accept. -/
theorem Session.exists_append {Allowed : List (List β) → List β → Prop} {log : List (Event β)}
    {p : Stage} (h : Session Allowed log p) : ∃ es, log = es ++ [.accepted] := by
  induction h with
  | accepted => exact ⟨[], rfl⟩
  | received _ _ ih | sent _ _ ih | unsent _ ih | ended _ ih | closed _ ih | failed _ ih =>
    obtain ⟨es, rfl⟩ := ih
    exact ⟨_ :: es, rfl⟩

/-! ## The service -/

/-- The log ends with a close. -/
def isClosed : List (Event β) → Bool
  | .closed :: _ => true
  | _ => false

/-- Nothing happens after a close. -/
theorem Session.isClosed_of_cons {Allowed : List (List β) → List β → Prop} {log : List (Event β)}
    {e : Event β} {p : Stage} (h : Session Allowed (e :: log) p) : isClosed log = false := by
  cases h with
  | accepted => rfl
  | received h | sent h | unsent h | ended h | closed h | failed h => cases h <;> rfl

theorem Session.isClosed_iff {Allowed : List (List β) → List β → Prop} {log : List (Event β)}
    {p : Stage} (h : Session Allowed log p) : isClosed log = true ↔ p = .closed := by
  cases h <;> simp [isClosed]

/-- The clients so far are numbered in the order they came. -/
@[ext]
structure Service (β : Type*) where
  count : Nat
  logs : Nat → List (Event β)

namespace Service

variable {r : Rules β} {v : Service β} {log : List (Event β)} {e : Event β} {p : Stage} {c : Nat}

def start : Service β := ⟨0, fun _ => []⟩

/-- Of the clients that came before `c`, those that are still there. -/
def ahead (v : Service β) (c : Nat) : Finset Nat :=
  (Finset.range c).filter fun k => isClosed (v.logs k) = false

/-- The clients that are still there. -/
def opened (v : Service β) : Finset Nat := v.ahead v.count

/-- A client comes. -/
def connected (v : Service β) : Service β :=
  ⟨v.count + 1, record v.logs (some (v.count, .accepted))⟩

/-- Something happens to a client. -/
def said (v : Service β) (c : Nat) (e : Event β) : Service β :=
  { v with logs := record v.logs (some (c, e)) }

/-- All this happens to a client, newest first. -/
def spoke (v : Service β) (c : Nat) (es : List (Event β)) : Service β :=
  { v with logs := Function.update v.logs c (es ++ v.logs c) }

/-- What the service may come to. -/
inductive Reachable (r : Rules β) : Service β → Prop
  | start : Reachable r start
  | connected {v : Service β} :
      Reachable r v → (v.opened.card : ℕ∞) < r.capacity → Reachable r v.connected
  | said {v : Service β} {c : Nat} {e : Event β} {p : Stage} :
      Reachable r v → c < v.count → r.Admits (e :: v.logs c) p → Reachable r (v.said c e)

@[simp] theorem connected_logs_self :
    v.connected.logs v.count = .accepted :: v.logs v.count := record_self

theorem connected_logs_of_ne (h : c ≠ v.count) : v.connected.logs c = v.logs c :=
  record_of_ne h

@[simp] theorem said_logs_self : (v.said c e).logs c = e :: v.logs c := record_self

theorem said_logs_of_ne {k : Nat} (h : k ≠ c) : (v.said c e).logs k = v.logs k :=
  record_of_ne h

theorem mem_ahead {k : Nat} : k ∈ v.ahead c ↔ k < c ∧ isClosed (v.logs k) = false := by
  simp [ahead]

theorem mem_opened : c ∈ v.opened ↔ c < v.count ∧ isClosed (v.logs c) = false :=
  mem_ahead

theorem ahead_congr {v' : Service β} (h : ∀ k < c, v.logs k = v'.logs k) :
    v.ahead c = v'.ahead c := by
  refine Finset.filter_congr fun k hk => ?_
  rw [h k (Finset.mem_range.1 hk)]

namespace Reachable

theorem fresh (h : Reachable r v) : ∀ c, v.count ≤ c → v.logs c = [] := by
  induction h with
  | start => exact fun _ _ => rfl
  | @connected v _ _ ih =>
    intro c hc
    have hlt : v.count < c := hc
    exact (connected_logs_of_ne hlt.ne').trans (ih c hlt.le)
  | said _ hc _ ih =>
    intro k hk
    exact (said_logs_of_ne (Nat.lt_of_lt_of_le hc hk).ne').trans (ih k hk)

/-- **Every client has had a session within the rules.** -/
theorem admits (h : Reachable r v) : ∀ c < v.count, ∃ p, r.Admits (v.logs c) p := by
  induction h with
  | start => exact fun c hc => absurd hc (Nat.not_lt_zero c)
  | @connected v h _ ih =>
    intro c hc
    rcases Nat.lt_succ_iff_lt_or_eq.1 hc with hlt | rfl
    · rw [connected_logs_of_ne hlt.ne]
      exact ih c hlt
    · rw [connected_logs_self, h.fresh _ le_rfl]
      exact ⟨.idle, .accepted⟩
  | @said v c e p h hc hadmits ih =>
    intro k hk
    by_cases hkc : k = c
    · subst hkc
      exact ⟨p, by rwa [said_logs_self]⟩
    · rw [said_logs_of_ne hkc]
      exact ih k hk

/-- There was room for every client when it came. -/
theorem room (h : Reachable r v) : ∀ c < v.count, ((v.ahead c).card : ℕ∞) < r.capacity := by
  induction h with
  | start => exact fun c hc => absurd hc (Nat.not_lt_zero c)
  | @connected v _ hroom ih =>
    intro c hc
    have hsame : v.connected.ahead c = v.ahead c := ahead_congr fun k hk =>
      connected_logs_of_ne (Nat.ne_of_lt (Nat.lt_of_lt_of_le hk (Nat.lt_succ_iff.1 hc)))
    rw [hsame]
    rcases Nat.lt_succ_iff_lt_or_eq.1 hc with hlt | rfl
    · exact ih c hlt
    · exact hroom
  | @said v c e p _ _ hadmits ih =>
    intro k hk
    have hsub : (v.said c e).ahead k ⊆ v.ahead k := by
      intro j hj
      obtain ⟨hlt, hopen⟩ := mem_ahead.1 hj
      refine mem_ahead.2 ⟨hlt, ?_⟩
      by_cases hjc : j = c
      · exact hjc ▸ hadmits.session.isClosed_of_cons
      · rwa [said_logs_of_ne hjc] at hopen
    exact lt_of_le_of_lt (Nat.cast_le.2 (Finset.card_le_card hsub)) (ih k hk)

end Reachable

@[simp] theorem spoke_logs_self {es : List (Event β)} : (v.spoke c es).logs c = es ++ v.logs c :=
  Function.update_self _ _ _

theorem spoke_logs_of_ne {es : List (Event β)} {k : Nat} (h : k ≠ c) :
    (v.spoke c es).logs k = v.logs k :=
  Function.update_of_ne h _ _

theorem spoke_nil : v.spoke c [] = v :=
  Service.ext rfl (Function.update_eq_self _ _)

theorem spoke_cons {es : List (Event β)} : v.spoke c (e :: es) = (v.spoke c es).said c e := by
  refine Service.ext rfl (funext fun k => ?_)
  by_cases hk : k = c
  · subst hk
    simp
  · rw [said_logs_of_ne hk, spoke_logs_of_ne hk, spoke_logs_of_ne hk]

theorem Reachable.spoke {es : List (Event β)} (h : Reachable r v) (hc : c < v.count)
    (hadmits : r.Admits (es ++ v.logs c) p) : Reachable r (v.spoke c es) := by
  induction es generalizing p with
  | nil => rwa [spoke_nil]
  | cons e es ih =>
    obtain ⟨_, hbefore⟩ := h.admits c hc
    obtain ⟨_, hq⟩ := hadmits.of_cons (List.append_ne_nil_of_right_ne_nil es hbefore.ne_nil)
    rw [spoke_cons]
    exact (ih hq).said hc (by rwa [spoke_logs_self])

/-- **What the service may come to.** Each client has a session within the rules, whatever the
others have, and fewer than there is room for of those that came before it are still there. -/
theorem reachable_iff :
    Reachable r v ↔
      (∀ c < v.count, (∃ p, r.Admits (v.logs c) p) ∧ ((v.ahead c).card : ℕ∞) < r.capacity) ∧
        ∀ c, v.count ≤ c → v.logs c = [] := by
  refine ⟨fun h => ⟨fun c hc => ⟨h.admits c hc, h.room c hc⟩, h.fresh⟩, ?_⟩
  rintro ⟨hclients, hfresh⟩
  -- The last client comes, and has its session, after everything else has happened.
  induction hn : v.count generalizing v with
  | zero =>
    have hempty : v = start :=
      Service.ext hn (funext fun c => hfresh c (hn ▸ Nat.zero_le c))
    exact hempty ▸ .start
  | succ n ih =>
    let before : Service β := ⟨n, Function.update v.logs n []⟩
    have hlogs : ∀ {c}, c ≠ n → before.logs c = v.logs c := fun hc => Function.update_of_ne hc _ _
    have hnone : before.logs n = [] := Function.update_self _ _ _
    have hahead : ∀ {c}, c ≤ n → before.ahead c = v.ahead c := fun hc =>
      ahead_congr fun k hk => hlogs (Nat.ne_of_lt (Nat.lt_of_lt_of_le hk hc))
    have hbefore : Reachable r before := by
      refine ih (fun c hc => ?_) (fun c hc => ?_) rfl
      · rw [hlogs (Nat.ne_of_lt hc), hahead (Nat.le_of_lt hc)]
        exact hclients c (hn ▸ Nat.lt_succ_of_lt hc)
      · by_cases hcn : c = n
        · rw [hcn, hnone]
        · rw [hlogs hcn]
          exact hfresh c (hn ▸ Nat.lt_of_le_of_ne hc (Ne.symm hcn))
    obtain ⟨⟨p, hlast⟩, hroom⟩ := hclients n (hn ▸ n.lt_succ_self)
    rw [← hahead le_rfl] at hroom
    have hlog : before.connected.logs n = [.accepted] :=
      connected_logs_self.trans (congrArg _ hnone)
    obtain ⟨es, hes⟩ := hlast.session.exists_append
    have hsame : v = before.connected.spoke n es := by
      refine Service.ext hn (funext fun c => ?_)
      by_cases hcn : c = n
      · rw [hcn, spoke_logs_self, hlog, hes]
      · rw [spoke_logs_of_ne hcn, connected_logs_of_ne hcn, hlogs hcn]
    rw [hsame]
    refine (hbefore.connected hroom).spoke n.lt_succ_self (p := p) ?_
    rwa [hlog, ← hes]

/-- **A client that is alone may have any session within the rules.** -/
theorem exists_alone (hroom : 0 < r.capacity) (h : r.Admits log p) :
    ∃ v, Reachable r v ∧ v.count = 1 ∧ v.logs 0 = log := by
  refine ⟨⟨1, fun c => if c = 0 then log else []⟩, ?_, rfl, rfl⟩
  refine reachable_iff.2 ⟨fun c hc => ?_, fun c hc => if_neg (Nat.ne_of_gt hc)⟩
  obtain rfl : c = 0 := Nat.lt_one_iff.1 hc
  exact ⟨⟨p, h⟩, hroom⟩

/-! ### Clients that are seen in some stages only -/

/-- What the service may come to where a client goes on to the next stage in `Seen` at once. -/
inductive Stepwise (r : Rules β) (Seen : Stage → Prop) : Service β → Prop
  | start : Stepwise r Seen start
  | connected {v : Service β} :
      Stepwise r Seen v → (v.opened.card : ℕ∞) < r.capacity → Stepwise r Seen v.connected
  | spoke {v : Service β} {c : Nat} {e : Event β} {es : List (Event β)} {p : Stage} :
      Stepwise r Seen v → c < v.count → r.Admits (e :: (es ++ v.logs c)) p → Seen p →
      (∀ e ∈ es, ¬ Seen e.stage) → Stepwise r Seen (v.spoke c (e :: es))

/-- Every client is in a stage in `Seen`. -/
def InView (r : Rules β) (Seen : Stage → Prop) (v : Service β) : Prop :=
  ∀ c < v.count, ∃ p, r.Admits (v.logs c) p ∧ Seen p

section Stepwise

variable {Seen : Stage → Prop} [DecidablePred Seen]

omit [DecidablePred Seen] in
theorem Stepwise.reachable (h : Stepwise r Seen v) : Reachable r v := by
  induction h with
  | start => exact .start
  | connected _ hroom ih => exact ih.connected hroom
  | spoke _ hc hadmits _ _ ih => exact ih.spoke hc hadmits

omit [DecidablePred Seen] in
theorem Stepwise.inView (hidle : Seen .idle) (h : Stepwise r Seen v) : InView r Seen v := by
  induction h with
  | start => exact fun c hc => absurd hc (Nat.not_lt_zero c)
  | @connected v h _ ih =>
    intro c hc
    rcases Nat.lt_succ_iff_lt_or_eq.1 hc with hlt | rfl
    · rw [connected_logs_of_ne hlt.ne]
      exact ih c hlt
    · rw [connected_logs_self, h.reachable.fresh _ le_rfl]
      exact ⟨.idle, .accepted, hidle⟩
  | @spoke v c e es p _ _ hadmits hseen _ ih =>
    intro k hk
    by_cases hkc : k = c
    · subst hkc
      exact ⟨p, by rwa [spoke_logs_self], hseen⟩
    · rw [spoke_logs_of_ne hkc]
      exact ih k hk

/-- The log up to the last event after which the client was seen. -/
def lastSeen (Seen : Stage → Prop) [DecidablePred Seen] (log : List (Event β)) :
    List (Event β) :=
  log.dropWhile fun e => decide (¬ Seen e.stage)

theorem lastSeen_eq_self (h : r.Admits log p) (hseen : Seen p) : lastSeen Seen log = log := by
  obtain ⟨e, log, rfl⟩ := List.exists_cons_of_ne_nil h.ne_nil
  refine List.dropWhile_cons_of_neg ?_
  simpa [h.session.stage_eq] using hseen

/-- Since then it was not seen. -/
theorem exists_lastSeen (Seen : Stage → Prop) [DecidablePred Seen] (log : List (Event β)) :
    ∃ es, es ++ lastSeen Seen log = log ∧ ∀ e ∈ es, ¬ Seen e.stage :=
  ⟨_, List.takeWhile_append_dropWhile, fun _ he =>
    of_decide_eq_true
      (List.mem_takeWhile_imp (p := fun e : Event β => decide (¬ Seen e.stage)) he)⟩

/-- What was seen last of every client. -/
def seen (Seen : Stage → Prop) [DecidablePred Seen] (v : Service β) : Service β :=
  { v with logs := fun c => lastSeen Seen (v.logs c) }

theorem InView.seen_eq (h : InView r Seen v) (hfresh : ∀ c, v.count ≤ c → v.logs c = []) :
    v.seen Seen = v := by
  refine Service.ext rfl (funext fun c => ?_)
  rcases Nat.lt_or_ge c v.count with hc | hc
  · obtain ⟨p, hadmits, hseen⟩ := h c hc
    exact lastSeen_eq_self hadmits hseen
  · show lastSeen Seen (v.logs c) = v.logs c
    rw [hfresh c hc]
    rfl

/-- **What was seen last is come to stepwise.** -/
theorem Reachable.stepwise (hidle : Seen .idle) (hclosed : Seen .closed) (h : Reachable r v) :
    Stepwise r Seen (v.seen Seen) := by
  induction h with
  | start => exact .start
  | @connected v h hroom ih =>
    have hopened : (v.seen Seen).opened ⊆ v.opened := by
      intro c hc
      obtain ⟨hlt, hopen⟩ := mem_opened.1 hc
      refine mem_opened.2 ⟨hlt, Bool.eq_false_iff.2 fun hover => ?_⟩
      obtain ⟨p, hadmits⟩ := h.admits c hlt
      have hsame : lastSeen Seen (v.logs c) = v.logs c :=
        lastSeen_eq_self hadmits (hadmits.session.isClosed_iff.1 hover ▸ hclosed)
      exact Bool.false_ne_true (hopen.symm.trans ((congrArg isClosed hsame).trans hover))
    have hcard : ((v.seen Seen).opened.card : ℕ∞) < r.capacity :=
      lt_of_le_of_lt (Nat.cast_le.2 (Finset.card_le_card hopened)) hroom
    have hsame : v.connected.seen Seen = (v.seen Seen).connected := by
      refine Service.ext rfl (funext fun c => ?_)
      by_cases hc : c = v.count
      · subst hc
        show lastSeen Seen (v.connected.logs v.count) = (v.seen Seen).connected.logs v.count
        rw [connected_logs_self, h.fresh _ le_rfl]
        refine (lastSeen_eq_self (r := r) .accepted hidle).trans ?_
        refine (connected_logs_self.trans ?_).symm
        show .accepted :: lastSeen Seen (v.logs v.count) = _
        rw [h.fresh _ le_rfl]
        rfl
      · show lastSeen Seen (v.connected.logs c) = (v.seen Seen).connected.logs c
        rw [connected_logs_of_ne hc]
        exact (connected_logs_of_ne (v := v.seen Seen) hc).symm
    exact hsame ▸ ih.connected hcard
  | @said v c e p h hc hadmits ih =>
    have hstage : e.stage = p := hadmits.session.stage_eq
    by_cases hseen : Seen p
    · obtain ⟨es, hlog, hpassed⟩ := exists_lastSeen Seen (v.logs c)
      have hsame : (v.said c e).seen Seen = (v.seen Seen).spoke c (e :: es) := by
        refine Service.ext rfl (funext fun k => ?_)
        by_cases hk : k = c
        · subst hk
          show lastSeen Seen ((v.said k e).logs k) = _
          rw [said_logs_self, spoke_logs_self, lastSeen_eq_self hadmits hseen, List.cons_append]
          exact congrArg (e :: ·) hlog.symm
        · show lastSeen Seen ((v.said c e).logs k) = _
          rw [said_logs_of_ne hk, spoke_logs_of_ne hk]
          rfl
      rw [hsame]
      refine ih.spoke hc ?_ hseen hpassed
      show r.Admits (e :: (es ++ lastSeen Seen (v.logs c))) p
      rwa [hlog]
    · have hsame : (v.said c e).seen Seen = v.seen Seen := by
        refine Service.ext rfl (funext fun k => ?_)
        by_cases hk : k = c
        · subst hk
          show lastSeen Seen ((v.said k e).logs k) = lastSeen Seen (v.logs k)
          rw [said_logs_self]
          refine List.dropWhile_cons_of_pos ?_
          simpa [hstage] using hseen
        · show lastSeen Seen ((v.said c e).logs k) = lastSeen Seen (v.logs k)
          rw [said_logs_of_ne hk]
      rwa [hsame]

/-- **The two services agree on clients that are in view.** -/
theorem stepwise_iff (hidle : Seen .idle) (hclosed : Seen .closed) :
    Stepwise r Seen v ↔ Reachable r v ∧ InView r Seen v := by
  refine ⟨fun h => ⟨h.reachable, h.inView hidle⟩, ?_⟩
  rintro ⟨h, hview⟩
  exact hview.seen_eq h.fresh ▸ h.stepwise hidle hclosed

end Stepwise

/-! ### Exchanges -/

/-- Nothing is due. -/
def Quiet (p : Stage) : Prop := p = .idle ∨ p = .closed

instance : DecidablePred Quiet := fun _ => inferInstanceAs (Decidable (_ ∨ _))

theorem not_quiet_received {chunk : List β} : ¬ Quiet (Event.received chunk).stage := by
  cases chunk <;> simp [Quiet, Event.stage]

/-- Before a quiet stage something was received, in an idle one. -/
theorem exists_received {Allowed : List (List β) → List β → Prop} (h : Session Allowed (e :: log) p)
    (hp : Quiet p) (hlog : log ≠ []) :
    ∃ chunk log', log = .received chunk :: log' ∧ Session Allowed log' .idle ∧
      (chunk ≠ [] ∧ p = .idle ∨ chunk = [] ∧ e = .closed) := by
  cases h with
  | accepted => exact absurd rfl hlog
  | received | ended | failed => rcases hp with h | h <;> cases h
  | sent howing | unsent howing =>
    obtain ⟨⟩ | ⟨hidle, hne⟩ := howing
    exact ⟨_, _, rfl, hidle, .inl ⟨hne, rfl⟩⟩
  | closed hended =>
    cases hended with
    | ended hidle => exact ⟨_, _, rfl, hidle, .inr ⟨rfl, rfl⟩⟩

/-- **Where clients are seen in quiet stages only** they connect, have requests with their
answers, and leave. -/
theorem Stepwise.exchanges {P : Service β → Prop} (start : P Service.start)
    (connected : ∀ {v}, P v → (v.opened.card : ℕ∞) < r.capacity → P v.connected)
    (exchanged : ∀ {v c chunk e}, P v → c < v.count → Session r.Allowed (v.logs c) .idle →
      chunk ≠ [] → r.Admits (e :: .received chunk :: v.logs c) .idle →
      P (v.spoke c [e, .received chunk]))
    (left : ∀ {v c}, P v → c < v.count → Session r.Allowed (v.logs c) .idle →
      P (v.spoke c [.closed, .received []]))
    (h : Stepwise r Quiet v) : P v := by
  induction h with
  | start => exact start
  | connected _ hroom ih => exact connected ih hroom
  | @spoke v c e es _ h hc hadmits hquiet hpassed ih =>
    obtain ⟨q, hlog, hq⟩ := h.inView (.inl rfl) c hc
    obtain ⟨chunk, log', heq, hidle, hcases⟩ := exists_received hadmits.session hquiet
      (List.append_ne_nil_of_right_ne_nil es hlog.ne_nil)
    -- What was received was not seen, and everything before it was.
    have hes : es = [.received chunk] ∧ v.logs c = log' := by
      match es, heq, hpassed with
      | [], heq, _ =>
        rw [List.nil_append] at heq
        exact absurd ((heq ▸ hlog.session).stage_eq ▸ hq) not_quiet_received
      | [e'], heq, _ =>
        cases heq
        exact ⟨rfl, rfl⟩
      | e' :: e'' :: es, heq, hpassed =>
        cases heq
        exact absurd (.inl hidle.stage_eq) (hpassed e'' (by simp))
    obtain ⟨rfl, rfl⟩ := hes
    rcases hcases with ⟨hne, rfl⟩ | ⟨rfl, rfl⟩
    · exact exchanged ih hc hidle hne hadmits
    · exact left ih hc hidle

/-! ### Departures -/

/-- A connection is closed as soon as nothing more is received on it. -/
def Visible (p : Stage) : Prop := p ≠ .ended

instance : DecidablePred Visible := fun _ => inferInstanceAs (Decidable (_ ≠ _))

/-- Where a client is closed when no descriptor is its own, those that are still there are those
with a descriptor. -/
theorem mem_opened_iff_owner {fds : FdTable} {logs : Nat → List (Event β)}
    {Allowed : List (List β) → List β → Prop} (hnumbered : fds.Numbered)
    (h : c < fds.count →
      ∃ p, Session Allowed (logs c) p ∧ (p = .closed ↔ ∀ fd, fds.owner fd ≠ some c)) :
    c ∈ opened ⟨fds.count, logs⟩ ↔ ∃ fd, fds.owner fd = some c := by
  rw [mem_opened]
  refine ⟨?_, ?_⟩
  · rintro ⟨hc, hopen⟩
    obtain ⟨p, hsession, hp⟩ := h hc
    by_contra hgone
    have hclosed := hsession.isClosed_iff.2 (hp.2 fun fd hown => hgone ⟨fd, hown⟩)
    exact Bool.false_ne_true (hopen.symm.trans hclosed)
  · rintro ⟨fd, hown⟩
    obtain ⟨p, hsession, hp⟩ := h (hnumbered.lt hown)
    refine ⟨hnumbered.lt hown, Bool.eq_false_iff.2 fun hclosed => ?_⟩
    exact hp.1 (hsession.isClosed_iff.1 hclosed) fd hown

/-- **Room.** Where the clients that are still there are those with a descriptor, and `seats` are
the descriptors a client may have, one of them is free as long as there are fewer clients. -/
theorem lt_encard_iff {fds : FdTable} {seats : Set Int} (hnumbered : fds.Numbered)
    (hopened : ∀ c, c ∈ v.opened ↔ ∃ fd, fds.owner fd = some c)
    (hseats : ∀ fd, fds.owner fd ≠ none → fd ∈ seats) :
    (v.opened.card : ℕ∞) < seats.encard ↔ ∃ fd ∈ seats, fds.owner fd = none := by
  let taken : Set Int := {fd | fds.owner fd ≠ none}
  have himage : (fun fd => (fds.owner fd).getD 0) '' taken = (v.opened : Set Nat) := by
    ext c
    rw [Finset.mem_coe, hopened, Set.mem_image]
    constructor
    · rintro ⟨fd, hfd, rfl⟩
      obtain ⟨c, hc⟩ := Option.ne_none_iff_exists'.1 hfd
      exact ⟨fd, by simp [hc]⟩
    · rintro ⟨fd, hfd⟩
      exact ⟨fd, by simp [taken, hfd], by simp [hfd]⟩
  have hinj : Set.InjOn (fun fd => (fds.owner fd).getD 0) taken := by
    intro x hx y hy hxy
    obtain ⟨c, hc⟩ := Option.ne_none_iff_exists'.1 hx
    obtain ⟨c', hc'⟩ := Option.ne_none_iff_exists'.1 hy
    simp only [hc, hc', Option.getD_some] at hxy
    exact hnumbered.inj hc (hxy ▸ hc')
  have hcard : taken.encard = v.opened.card := by
    rw [← hinj.encard_image, himage, Set.encard_coe_eq_coe_finsetCard]
  have hfinite : taken.Finite := Set.encard_lt_top_iff.1 (hcard ▸ ENat.natCast_lt_top _)
  rw [← hcard]
  constructor
  · intro hlt
    by_contra hall
    have hsub : seats ⊆ taken := fun fd hfd hnone => hall ⟨fd, hfd, hnone⟩
    exact absurd hlt (not_lt.2 (Set.encard_le_encard hsub))
  · rintro ⟨fd, hfd, hnone⟩
    exact hfinite.encard_lt_encard ⟨hseats, fun hsub => hsub hfd hnone⟩

end Service

/-! ## Implementations -/

variable {σ α : Type*} {step : σ → α → Option σ} {ok : σ → α → Prop} {s₀ : σ}
  {view : List α → σ → Service β} {r : Rules β} {Seen : Stage → Prop}

/-- Some run is seen as `v`. -/
def Exhibits (step : σ → α → Option σ) (ok : σ → α → Prop) (s₀ : σ)
    (view : List α → σ → Service β) (v : Service β) : Prop :=
  ∃ as s, Run step ok s₀ as s ∧ view as s = v

/-- What is seen of the runs is what the service may come to, and all of it, where a client is
seen in the stages `Seen` only. -/
def Implements (step : σ → α → Option σ) (ok : σ → α → Prop) (s₀ : σ)
    (view : List α → σ → Service β) (r : Rules β) (Seen : Stage → Prop) : Prop :=
  ∀ v, Exhibits step ok s₀ view v ↔ Service.Reachable r v ∧ Service.InView r Seen v

/-- It is enough to come, step by step, to what the stepwise service does. -/
theorem Implements.of_stepwise [DecidablePred Seen] (hidle : Seen .idle) (hclosed : Seen .closed)
    (h : ∀ v, Exhibits step ok s₀ view v ↔ Service.Stepwise r Seen v) :
    Implements step ok s₀ view r Seen :=
  fun v => (h v).trans (Service.stepwise_iff hidle hclosed)

/-- **What is seen of an implementation**: sessions within the rules, which are independent of each
other, of as many clients as there is room for. -/
theorem Implements.exhibits_iff (h : Implements step ok s₀ view r Seen) {v : Service β} :
    Exhibits step ok s₀ view v ↔
      (∀ c < v.count, (∃ p, r.Admits (v.logs c) p ∧ Seen p) ∧
        ((v.ahead c).card : ℕ∞) < r.capacity) ∧ ∀ c, v.count ≤ c → v.logs c = [] := by
  rw [h v, Service.reachable_iff]
  refine ⟨?_, ?_⟩
  · rintro ⟨⟨hclients, hfresh⟩, hview⟩
    exact ⟨fun c hc => ⟨hview c hc, (hclients c hc).2⟩, hfresh⟩
  · rintro ⟨hclients, hfresh⟩
    refine ⟨⟨fun c hc => ?_, hfresh⟩, fun c hc => (hclients c hc).1⟩
    exact ⟨(hclients c hc).1.imp fun _ h => h.1, (hclients c hc).2⟩

/-- **The sessions of an implementation** are those within the rules. -/
theorem Implements.sessions (h : Implements step ok s₀ view r Seen) (hroom : 0 < r.capacity)
    (log : List (Event β)) :
    (∃ as s c, Run step ok s₀ as s ∧ c < (view as s).count ∧ (view as s).logs c = log) ↔
      ∃ p, r.Admits log p ∧ Seen p := by
  refine ⟨?_, ?_⟩
  · rintro ⟨as, s, c, hrun, hc, rfl⟩
    exact ((h _).1 ⟨as, s, hrun, rfl⟩).2 c hc
  · rintro ⟨p, hadmits, hseen⟩
    obtain ⟨v, hv, hcount, hlog⟩ := Service.exists_alone hroom hadmits
    have hview : Service.InView r Seen v := fun c hc => by
      obtain rfl : c = 0 := Nat.lt_one_iff.1 (hcount ▸ hc)
      exact ⟨p, hlog ▸ hadmits, hseen⟩
    obtain ⟨as, s, hrun, rfl⟩ := (h v).2 ⟨hv, hview⟩
    exact ⟨as, s, 0, hrun, hcount ▸ Nat.one_pos, hlog⟩

end NetDesign
