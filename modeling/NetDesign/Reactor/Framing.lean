import NetDesign.Http
import NetDesign.Reactor.Buffer
import Mathlib.Tactic.IntervalCases

/-!
# The response stream of `reactor`

`send_cb` formats a page of 200 bytes and sends as many bytes as its connection has received
in all. The header block and the 75 bytes its `Content-Length` declares are the first 198 of
them, so a `send` is a complete response and nothing else exactly when 198 bytes have been
received, and that happens once at most on a connection.

* `framed_reply` — when a reply is one response.
* `framed_iff` — the stream of every connection is well framed throughout a run exactly when
  every `send_cb` of the run is the first on its connection and finds 198 bytes received.
-/

namespace NetDesign.Reactor

open Http

/-! ## One reply -/

def answerLength : Nat := 198

/-- The page up to the end of the document. -/
@[irreducible] def answer : List Byte := page.take answerLength

@[irreducible] def document : List Byte :=
  ascii "<html><head><title>Dusong</title></head><body><h1>Dusong</h1></body></html>"

theorem page_eq : page = answer ++ ascii "\r\n" := by decide +kernel

theorem length_answer : answer.length = answerLength := by decide +kernel

theorem response_answer : response answer = some (document, []) := by decide +kernel

variable {body rx : List Byte}

/-- A short reply ends inside the response, a long one goes on behind it. -/
theorem reply_cases (rx : List Byte) :
    (∃ t, t ≠ [] ∧ reply rx ++ t = answer ∧ rx.length < answerLength) ∨
      ∃ t, reply rx = answer ++ t ∧ rx.length = answerLength + t.length := by
  obtain ⟨tail, hreply⟩ : ∃ tail, reply rx = (answer ++ tail).take rx.length := by
    refine ⟨ascii "\r\n" ++ [0] ++ rx.drop (page.length + 1), ?_⟩
    rw [reply, page_eq]
    simp only [List.append_assoc]
  by_cases hlt : rx.length < answerLength
  · refine .inl ⟨answer.drop rx.length, ?_, ?_, hlt⟩
    · rw [ne_eq, List.drop_eq_nil_iff, length_answer]
      omega
    · rw [hreply, List.take_append_of_le_length (by rw [length_answer]; omega),
        List.take_append_drop]
  · have hlong : reply rx = answer ++ tail.take (rx.length - answerLength) := by
      rw [hreply, List.take_append, length_answer,
        List.take_of_length_le (by rw [length_answer]; omega)]
    refine .inr ⟨_, hlong, ?_⟩
    have hlen := congrArg List.length hlong
    rwa [length_reply, List.length_append, length_answer] at hlen

/-- **A reply is one response only at one length.** -/
theorem framed_reply :
    Framed body 1 (reply rx) ↔ rx.length = answerLength ∧ body = document := by
  rw [framed_succ]
  simp only [framed_zero]
  rcases reply_cases rx with ⟨t, ht, hanswer, hlt⟩ | ⟨t, heq, hlen⟩
  · have hnone : response (reply rx) = none :=
      response_of_prefix (by rw [hanswer]; exact response_answer) ht
    simp only [hnone, reduceCtorEq, false_and, exists_false, false_iff, not_and]
    omega
  · rw [heq, response_append response_answer, List.nil_append, hlen]
    simp only [Option.some.injEq, Prod.mk.injEq]
    refine ⟨?_, ?_⟩
    · intro hyp
      obtain ⟨rest, ⟨rfl, rfl⟩, rfl⟩ := hyp
      exact ⟨by simp, rfl⟩
    · intro hyp
      obtain ⟨hzero, rfl⟩ := hyp
      have hnil : t = [] := List.length_eq_zero_iff.1 (by omega)
      exact ⟨t, ⟨rfl, rfl⟩, hnil⟩

/-! ## The replies of a connection -/

/-- What had been received at each `send`, newest first. -/
def rounds : List Call → List (List Byte)
  | [] => []
  | .sent _ _ :: calls => received calls :: rounds calls
  | .accepted :: calls | .received _ :: calls | .failed :: calls | .closed _ :: calls =>
    rounds calls

def Call.transmitted : Call → Option (List Byte)
  | .sent bytes res => some (bytes.take res.toNat)
  | .accepted | .received _ | .failed | .closed _ => none

/-- The bytes each `send` on a connection transmitted, oldest first. -/
def State.transmitted (s : State) (c : Nat) : List (List Byte) :=
  ((s.log c).filterMap Call.transmitted).reverse

/-- No `recv` failed, and every `send` transmitted all its bytes. -/
def Smooth (calls : List Call) : Prop :=
  ∀ call ∈ calls, call ≠ .failed ∧ ∀ bytes res, call = .sent bytes res → res = bytes.length

variable {calls : List Call} {ph : Phase}

theorem transmitted_eq (hsmooth : Smooth calls) (hreplies : Replies calls) :
    calls.filterMap Call.transmitted = (rounds calls).map reply := by
  induction calls with
  | nil => rfl
  | cons call calls ih =>
    have hrest := ih (fun x hx => hsmooth x (List.mem_cons_of_mem _ hx)) hreplies.2
    cases call with
    | sent bytes res =>
      have hbytes : bytes = reply (received calls) := hreplies.1 bytes res rfl
      have hres : res = bytes.length := (hsmooth _ List.mem_cons_self).2 bytes res rfl
      simp only [List.filterMap_cons, Call.transmitted, rounds, List.map_cons, hrest, hres,
        Int.toNat_natCast, List.take_length, hbytes]
    | _ => simpa only [List.filterMap_cons, Call.transmitted, rounds] using hrest

/-- A connection receives something between two sends. -/
theorem rounds_rising (hlife : Life calls ph) (hsmooth : Smooth calls) :
    (rounds calls).Pairwise (fun newer older => older.length < newer.length) ∧
      ∀ rx ∈ rounds calls, rx.length ≤ (received calls).length ∧
        (ph = .writing → rx.length < (received calls).length) := by
  have hdrop : ∀ {call calls}, Smooth (call :: calls) → Smooth calls :=
    fun h x hx => h x (List.mem_cons_of_mem _ hx)
  induction hlife with
  | accepted => exact ⟨List.Pairwise.nil, fun _ h => by cases h⟩
  | received hlife hne ih =>
    obtain ⟨hpair, hle⟩ := ih (hdrop hsmooth)
    have hpos := List.length_pos_iff.2 hne
    refine ⟨hpair, fun rx hrx => ?_⟩
    have hrx' := (hle rx hrx).1
    simp only [received, List.length_append]
    exact ⟨by omega, fun _ => by omega⟩
  | failed => exact absurd rfl (hsmooth _ List.mem_cons_self).1
  | sent hlife ih =>
    obtain ⟨hpair, hle⟩ := ih (hdrop hsmooth)
    refine ⟨List.pairwise_cons.2 ⟨fun rx hrx => (hle rx hrx).2 rfl, hpair⟩, fun rx hrx => ?_⟩
    refine ⟨?_, fun h => by cases h⟩
    rcases List.mem_cons.1 hrx with rfl | hrx
    · exact le_rfl
    · exact (hle rx hrx).1
  | closed hlife ih =>
    obtain ⟨hpair, hle⟩ := ih (hdrop (hdrop hsmooth))
    refine ⟨hpair, fun rx hrx => ⟨?_, fun h => by cases h⟩⟩
    simpa only [received, List.append_nil] using (hle rx hrx).1

/-! ## Streams -/

/-- After each call of `send_cb`, the stream of every connection is that many responses with
this body. -/
def WellFramed (body : List Byte) (s : State) : Prop :=
  ∀ c n, n ≤ (s.transmitted c).length → Framed body n ((s.transmitted c).take n).flatten

/-- There was no `send`, or one, with a reply that is one response. -/
def OneAnswer (body : List Byte) (rounds : List (List Byte)) : Prop :=
  rounds = [] ∨ ∃ rx, rounds = [rx] ∧ rx.length = answerLength ∧ body = document

/-- **Replies to a rising stream.** They are well framed when there is one, and it is one
response: the second would have to be as long as the first. -/
theorem framed_rounds {R : List (List Byte)}
    (hrising : R.Pairwise fun older newer => older.length < newer.length) :
    (∀ n ≤ R.length, Framed body n ((R.map reply).take n).flatten) ↔ OneAnswer body R := by
  refine ⟨?_, ?_⟩
  · intro h
    cases R with
    | nil => exact .inl rfl
    | cons rx R =>
      have hfirst : Framed body 1 (reply rx) := by simpa using h 1 (by simp)
      obtain ⟨hlen, hbody⟩ := framed_reply.1 hfirst
      refine .inr ⟨rx, ?_, hlen, hbody⟩
      cases R with
      | nil => rfl
      | cons rx' R =>
        have htwo : Framed body 2 (reply rx ++ reply rx') := by simpa using h 2 (by simp)
        obtain ⟨rest, hresp, hnil⟩ := framed_succ.1 hfirst
        cases framed_zero.1 hnil
        obtain ⟨rest', hresp', hsecond⟩ := framed_succ.1 htwo
        rw [response_append hresp] at hresp'
        cases hresp'
        have hlt : rx.length < rx'.length := (List.pairwise_cons.1 hrising).1 rx' (by simp)
        have := (framed_reply.1 hsecond).1
        omega
  · rintro (rfl | ⟨rx, rfl, hlen, hbody⟩) n hn
    · obtain rfl : n = 0 := Nat.le_zero.1 hn
      exact framed_zero.2 rfl
    · rw [List.length_singleton] at hn
      interval_cases n
      · exact framed_zero.2 rfl
      · simpa using framed_reply.2 ⟨hlen, hbody⟩

/-! ## Runs -/

/-- No `recv` and no `send` fails, and a `send` transmits all the bytes it is given. -/
def SendsAll (s : State) : Act → Prop
  | .dispatch (.sent n) => ∀ ev ∈ s.events.head?, n = sizeT (s.connlist ev.fd).rlen
  | .dispatch .sendFailed | .dispatch .recvFailed => False
  | _ => True

/-- `send_cb` runs on a connection for the first time, and 198 bytes have been received. -/
def AnswersOnce (body : List Byte) (s : State) : Act → Prop
  | .dispatch (.sent _) => ∀ ev ∈ s.events.head?, ∀ c ∈ s.fds.owner ev.fd,
      s.transmitted c = [] ∧ (received (s.log c)).length = answerLength ∧ body = document
  | _ => True

variable {s t : State} {a : Act}

instance : Decidable (SendsAll s a) :=
  match a with
  | .dispatch (.sent _) => inferInstanceAs (Decidable (∀ ev ∈ s.events.head?, _))
  | .dispatch .sendFailed | .dispatch .recvFailed => inferInstanceAs (Decidable False)
  | .dispatch (.accepted _) | .dispatch .acceptFailed | .dispatch (.received _)
  | .dispatch .idle | .wait _ | .shutdown _ => inferInstanceAs (Decidable True)

instance : Decidable (AnswersOnce body s a) :=
  match a with
  | .dispatch (.sent _) =>
    inferInstanceAs (Decidable (∀ ev ∈ s.events.head?, ∀ c ∈ s.fds.owner ev.fd, _))
  | .dispatch .sendFailed | .dispatch .recvFailed | .dispatch (.accepted _)
  | .dispatch .acceptFailed | .dispatch (.received _) | .dispatch .idle | .wait _
  | .shutdown _ => inferInstanceAs (Decidable True)

theorem SendsAll.recvsReturn (h : SendsAll s a) : RecvsReturn a := by
  intro heq
  subst heq
  exact h

/-- The logs of a run in which nothing fails. -/
structure Logged (s : State) : Prop where
  wired : Wired s
  buffered : Buffered s
  smooth : ∀ c, Smooth (s.log c)

theorem wellFramed_iff (h : Logged s) :
    WellFramed body s ↔ ∀ c, OneAnswer body (rounds (s.log c)) := by
  refine forall_congr' fun c => ?_
  have hrising : (rounds (s.log c)).Pairwise fun newer older => older.length < newer.length := by
    rcases h.wired.life c with ⟨-, hnil⟩ | ⟨ph, hlife, -⟩
    · rw [hnil]
      exact List.Pairwise.nil
    · exact (rounds_rising hlife (h.smooth c)).1
  have htrans : s.transmitted c = (rounds (s.log c)).reverse.map reply := by
    rw [State.transmitted, transmitted_eq (h.smooth c) (h.buffered.replies c), List.map_reverse]
  have hlen : (s.transmitted c).length = (rounds (s.log c)).reverse.length := by
    rw [htrans, List.length_map]
  rw [hlen, htrans]
  refine (framed_rounds (List.pairwise_reverse.2 hrising)).trans ?_
  simp [OneAnswer, List.reverse_eq_iff]

theorem smooth_cons {call : Call} :
    Smooth (call :: calls) ↔ Smooth calls ∧
      call ≠ .failed ∧ ∀ bytes res, call = .sent bytes res → res = bytes.length :=
  List.forall_mem_cons.trans and_comm

theorem smooth_moves (hs : ∀ c, Smooth (s.log c)) (hok : SendsAll s a) (h : Moves s a t) :
    ∀ c, Smooth (t.log c) := by
  cases h with
  | wait => exact hs
  | shutdown => exact hs
  | idle => exact hs
  | opened => exact (forall_update_and Smooth smooth_cons).2 ⟨hs, by simp⟩
  | refused => exact hs
  | @answered ev rest c r m m' call item touched hev hc hm hserved =>
    refine (forall_update_and Smooth smooth_cons).2 ⟨hs, ?_⟩
    cases hserved with
    | received => simp
    | failed => exact hok.elim
    | unsent => exact hok.elim
    | @sent n _ =>
      have hall : n = sizeT (s.connlist ev.fd).rlen := hok ev (by rw [hev]; rfl)
      refine ⟨Call.noConfusion, fun bytes res h => ?_⟩
      cases h
      rw [hall, ConnItem.output, Cells.length_read]
  | @left ev rest c touched hev hc hm =>
    refine (forall_update_and Smooth (q := True) ?_).2 ⟨hs, trivial⟩
    rw [smooth_cons, smooth_cons]
    simp

theorem logged_step (hs : Logged s) (hok : SendsAll s a) (h : run s a = some t) : Logged t := by
  have hm := moves_of_run hs.wired h
  exact ⟨wired_moves hs.wired hm, buffered_moves hs.wired hs.buffered hok.recvsReturn hm,
    smooth_moves hs.smooth hok hm⟩

theorem oneAnswer_cons {R : List (List Byte)} :
    OneAnswer body (rx :: R) ↔
      OneAnswer body R ∧ R = [] ∧ rx.length = answerLength ∧ body = document := by
  refine ⟨?_, ?_⟩
  · intro hyp
    rcases hyp with hnil | ⟨rx', heq, hlen, hbody⟩
    · cases hnil
    · cases heq
      exact ⟨.inl rfl, rfl, hlen, hbody⟩
  · intro hyp
    obtain ⟨-, rfl, hlen, hbody⟩ := hyp
    exact .inr ⟨rx, rfl, hlen, hbody⟩

/-- Only `send_cb` bears on the framing. -/
theorem oneAnswer_moves (hs : Logged s) (hok : SendsAll s a) (h : Moves s a t) :
    (∀ c, OneAnswer body (rounds (t.log c))) ↔
      (∀ c, OneAnswer body (rounds (s.log c))) ∧ AnswersOnce body s a := by
  cases h with
  | wait => exact (and_iff_left trivial).symm
  | shutdown => exact (and_iff_left trivial).symm
  | idle => exact (and_iff_left trivial).symm
  | opened =>
    refine forall_update_and (fun calls => OneAnswer body (rounds calls)) ?_
    exact (and_iff_left trivial).symm
  | refused => exact (and_iff_left trivial).symm
  | @answered ev rest c r m m' call item touched hev hc hm hserved =>
    refine forall_update_and (fun calls => OneAnswer body (rounds calls)) ?_
    cases hserved with
    | received => exact (and_iff_left trivial).symm
    | failed => exact hok.elim
    | unsent => exact hok.elim
    | @sent n _ =>
      have htrans : s.transmitted c = [] ↔ rounds (s.log c) = [] := by
        rw [State.transmitted, transmitted_eq (hs.smooth c) (hs.buffered.replies c),
          List.reverse_eq_nil_iff, List.map_eq_nil_iff]
      have hcond : AnswersOnce body s (.dispatch (.sent n)) ↔ rounds (s.log c) = [] ∧
          (received (s.log c)).length = answerLength ∧ body = document := by
        rw [← htrans]
        simp only [AnswersOnce, hev, List.head?_cons, Option.mem_def, Option.some.injEq,
          forall_eq', hc]
      rw [hcond]
      exact oneAnswer_cons
  | @left ev rest c touched hev hc hm =>
    refine forall_update_and (fun calls => OneAnswer body (rounds calls)) ?_
    exact (and_iff_left trivial).symm

variable {listenfd : Int} {storage : Int → ConnItem} {s₀ : State} {as : List Act}

theorem logged_init (hinit : init listenfd storage = some s₀) : Logged s₀ :=
  ⟨wired_init hinit, buffered_init hinit, fun c call hcall => by
    rw [(init_idle hinit).2] at hcall
    cases hcall⟩

/-- **The framing of responses.** In every run without failures and short sends, and whatever
is taken to be the body: after every call of `send_cb` the stream of its connection is as
many responses with that body as there were calls, exactly when each `send_cb` of the run is
the first on its connection and finds 198 bytes received, and the body is the document
without the line end behind it. -/
theorem framed_iff (hinit : init listenfd storage = some s₀)
    (h : Run run SendsAll s₀ as s) (body : List Byte) :
    WellFramed body s ↔ Run run (fun s a => SendsAll s a ∧ AnswersOnce body s a) s₀ as s := by
  have hstart : ∀ c, OneAnswer body (rounds (s₀.log c)) := fun c => by
    rw [(init_idle hinit).2]
    exact .inl rfl
  have hlogged : Logged s := h.invariant (logged_init hinit)
    fun hs hok hstep => logged_step hs hok hstep
  have hiff : (∀ c, OneAnswer body (rounds (s.log c))) ↔
      Run run (fun s a => SendsAll s a ∧ AnswersOnce body s a) s₀ as s :=
    h.good_iff (logged_init hinit) (fun hs hok hstep => logged_step hs hok hstep) hstart
      fun hs hok hstep => oneAnswer_moves hs hok (moves_of_run hs.wired hstep)
  exact (wellFramed_iff hlogged).trans hiff

/-- A request of exactly 198 bytes is answered by one response. -/
theorem framed_request :
    ∃ s₀ s, init 3 blankStorage = some s₀ ∧
      exec run (fun s a => SendsAll s a ∧ AnswersOnce document s a) s₀
        (accepting ++ serving 0 (List.replicate 198 120) 198) = some s ∧
      (s.transmitted 0).length = 1 ∧ WellFramed document s := by
  have hdone : ((init 3 blankStorage).bind fun s₀ =>
      exec run (fun s a => SendsAll s a ∧ AnswersOnce document s a) s₀
        (accepting ++ serving 0 (List.replicate 198 120) 198)).any
        (fun s => decide ((s.transmitted 0).length = 1)) = true := by
    decide +kernel
  obtain ⟨s₀, s, hinit, hexec, hlen⟩ := exists_exec hdone
  have hrun := Run.of_exec hexec
  exact ⟨s₀, s, hinit, hexec, hlen,
    (framed_iff hinit (hrun.mono fun _ _ hok => hok.1) document).2 hrun⟩

/-- A request of 18 bytes is answered by the first 18 bytes of the page, which are no response
with any body. -/
theorem framing_broken :
    ¬ ∃ body, ∀ (listenfd : Int) (storage : Int → ConnItem) (s₀ s : State) (as : List Act),
      init listenfd storage = some s₀ → Run run SendsAll s₀ as s → WellFramed body s := by
  intro hyp
  obtain ⟨body, hclaim⟩ := hyp
  have hrun : ((init 3 blankStorage).bind fun s₀ => exec run SendsAll s₀
      (accepting ++ serving 0 (ascii "GET / HTTP/1.1\r\n\r\n") 18)).any
        (fun s => decide (s.transmitted 0 = [ascii "HTTP/1.1 200 OK\r\nA"])) = true := by
    decide +kernel
  obtain ⟨s₀, s, hinit, hexec, htrans⟩ := exists_exec hrun
  have hframed := hclaim 3 _ s₀ s _ hinit (Run.of_exec hexec) 0 1 (by simp [htrans])
  rw [htrans] at hframed
  obtain ⟨rest, hresp, -⟩ := framed_succ.1 hframed
  have hnone : response ((List.take 1 [ascii "HTTP/1.1 200 OK\r\nA"]).flatten) = none := by
    decide +kernel
  rw [hnone] at hresp
  cases hresp

end NetDesign.Reactor
