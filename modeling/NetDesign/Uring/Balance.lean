import NetDesign.Uring.Board

/-!
# The books of a server: descriptors against outstanding operations

Every token but a waiting accept is about one descriptor, its *target*; a completed accept is
about the descriptor it returned. `Booked` lists what a move does to the multiset of targets
and to the descriptor table: a descriptor is opened together with the token of its accept,
closed together with the last token on it, or the token on it is dropped because its `recv`
failed. Nothing else changes the books.

* `Balanced` — on a set `D` of descriptors, an open one has at most one token and any other
  has none; there is exactly one accept.
* `Board.orphans` — the open descriptors without a token: they grow only when a failed `recv`
  is handled.
-/

namespace NetDesign.Uring

variable {μ α υ : Type*}

/-! ## Targets -/

def keyTarget : Opcode × Int → Option Int
  | (.accept, _) => none
  | (_, fd) => some fd

/-- The descriptor a token is about. -/
def Token.target : Token α υ → Option Int
  | .waiting e => keyTarget e.key
  | .ready q => if q.sqe.opcode = .accept then some q.res else some q.sqe.fd

def Board.targets (b : Board μ α υ) : Multiset Int := b.tokens.filterMap Token.target

/-- The number of outstanding accepts. -/
def Board.accepts (b : Board μ α υ) : Nat := b.tokens.countP fun x => x.sqe.opcode = .accept

theorem Token.target_ready_of_ne {q : Cqe α υ} (h : q.sqe.opcode ≠ .accept) :
    (Token.ready q).target = some q.sqe.fd := if_neg h

theorem Token.target_ready_of_eq {q : Cqe α υ} (h : q.sqe.opcode = .accept) :
    (Token.ready q).target = some q.res := if_pos h

theorem keyTarget_of_ne {k : Opcode × Int} (h : k.1 ≠ .accept) : keyTarget k = some k.2 := by
  obtain ⟨op, fd⟩ := k
  cases op with
  | accept => exact absurd rfl h
  | _ => rfl

theorem Token.target_waiting_of_ne {e : Sqe α υ} (h : e.opcode ≠ .accept) :
    (Token.waiting e).target = some e.fd := keyTarget_of_ne (k := e.key) h

theorem Token.target_waiting_of_eq {e : Sqe α υ} (h : e.opcode = .accept) :
    (Token.waiting e).target = none := by
  obtain ⟨op, fd, _⟩ := e
  cases h
  rfl

theorem mem_targets {b : Board μ α υ} {fd : Int} :
    fd ∈ b.targets ↔ ∃ x ∈ b.tokens, x.target = some fd := Multiset.mem_filterMap _ _

/-- The targets of the entries an effect fills depend only on what they ask for. -/
theorem targets_effect (f : Effect μ α υ) (q : Cqe α υ) :
    (f.tokens q).filterMap Token.target =
      ((f.prep.map Sqe.key : List (Opcode × Int)) : Multiset (Opcode × Int)).filterMap
        keyTarget := by
  rw [Effect.tokens, Multiset.filterMap_map, ← Multiset.map_coe, Multiset.filterMap_map]
  rfl

theorem targets_replies {srv : Server μ α υ} {m : μ} {q : Cqe α υ}
    (hq : q.userData = srv.tag q.sqe.key) :
    ((srv.effect m q).tokens q).filterMap Token.target =
      ((replies (srv.listenfd m) q.sqe.key q.res).filterMap keyTarget : Multiset Int) := by
  rw [targets_effect, srv.prep_key hq]
  rfl

theorem accepts_effect (f : Effect μ α υ) (q : Cqe α υ) :
    (f.tokens q).countP (fun x => x.sqe.opcode = .accept) =
      (f.prep.map Sqe.key).countP fun k => k.1 = .accept := by
  rw [Effect.tokens, Multiset.countP_map, ← Multiset.countP_eq_card_filter, Multiset.coe_countP,
    List.countP_map]
  rfl

/-! ## What a move books -/

variable [Memory μ α]

def Tagged (srv : Server μ α υ) (b : Board μ α υ) : Prop :=
  ∀ x ∈ b.tokens, x.sqe.userData = srv.tag x.sqe.key

inductive Booked (b : Board μ α υ) : Move α υ → Board μ α υ → Prop
  | opened {e : Sqe α υ} {fd : Int} {b' : Board μ α υ} :
      e.opcode = .accept → 0 ≤ fd → fd ≠ e.fd → b.net.owner fd = none →
      b'.targets = fd ::ₘ b.targets →
      b'.net.owner = Function.update b.net.owner fd (some b.net.count) →
      Booked b (.exec e (.accepted fd)) b'
  | refused {e : Sqe α υ} {errno : Nat} {b' : Board μ α υ} :
      e.opcode = .accept → b'.targets = (-(errno + 1) : Int) ::ₘ b.targets →
      b'.net.owner = b.net.owner → Booked b (.exec e (.fail errno)) b'
  | held {m : Move α υ} {b' : Board μ α υ} :
      (∀ e o, m = .exec e o → e.opcode ≠ .accept) →
      (∀ q, m = .handle q → ¬ (q.sqe.opcode = .recv ∧ q.res ≤ 0)) →
      b'.targets = b.targets → b'.net.owner = b.net.owner → Booked b m b'
  | closed {q : Cqe α υ} {b' : Board μ α υ} :
      q.sqe.opcode = .recv → q.res = 0 → b.targets = q.sqe.fd ::ₘ b'.targets →
      b'.net.owner = Function.update b.net.owner q.sqe.fd none → Booked b (.handle q) b'
  | dropped {q : Cqe α υ} {b' : Board μ α υ} :
      q.sqe.opcode = .recv → q.res < 0 → b.targets = q.sqe.fd ::ₘ b'.targets →
      b'.net.owner = b.net.owner → Booked b (.handle q) b'

section Booked

variable {srv : Server μ α υ} {b b' : Board μ α υ} {T : Multiset (Token α υ)} {e : Sqe α υ}
  {q : Cqe α υ}

omit [Memory μ α]

theorem targets_completed_of_ne (hT : b.tokens = .waiting e ::ₘ T) (hq : q.sqe = e)
    (hop : e.opcode ≠ .accept) : (Token.ready q ::ₘ T).filterMap Token.target = b.targets := by
  subst hq
  rw [Board.targets, hT, Multiset.filterMap_cons_some _ _ _ (Token.target_ready_of_ne hop),
    Multiset.filterMap_cons_some _ _ _ (Token.target_waiting_of_ne hop)]

theorem targets_completed_of_eq (hT : b.tokens = .waiting e ::ₘ T) (hq : q.sqe = e)
    (hop : e.opcode = .accept) :
    (Token.ready q ::ₘ T).filterMap Token.target = q.res ::ₘ b.targets := by
  subst hq
  rw [Board.targets, hT, Multiset.filterMap_cons_some _ _ _ (Token.target_ready_of_eq hop),
    Multiset.filterMap_cons_none _ _ (Token.target_waiting_of_eq hop)]

/-- The execution of a `recv` or a `send` changes nothing. -/
theorem Booked.executed {o : Outcome} (hop : e.opcode ≠ .accept) (htar : b'.targets = b.targets)
    (hnet : b'.net.owner = b.net.owner) : Booked b (.exec e o) b' := by
  refine .held ?_ ?_ htar hnet
  · intro e' o' heq
    cases heq
    exact hop
  · intro q heq
    cases heq

/-- Nor does the handling of anything but a `recv` that delivered no bytes. -/
theorem Booked.answered (hop : ¬ (q.sqe.opcode = .recv ∧ q.res ≤ 0))
    (htar : b'.targets = b.targets) (hnet : b'.net.owner = b.net.owner) :
    Booked b (.handle q) b' := by
  refine .held ?_ ?_ htar hnet
  · intro e o heq
    cases heq
  · intro q' heq
    cases heq
    exact hop

theorem booked_handle {handled : List (Handled α υ)} (htag : Tagged srv b)
    (hT : b.tokens = .ready q ::ₘ T) :
    Booked b (.handle q) ⟨(srv.effect b.mem q).tokens q + T, (srv.effect b.mem q).mem,
      (srv.effect b.mem q).close.elim b.net b.net.close, b.sends, handled⟩ := by
  have hq : q.userData = srv.tag q.sqe.key := htag (.ready q) (by simp [hT])
  have hclose := srv.close_eq (m := b.mem) hq
  have hafter := targets_replies (m := b.mem) hq
  obtain ⟨⟨op, fd, addr, len, addrlen, flags, ud, cause⟩, res, got⟩ := q
  cases op with
  | accept =>
    refine .answered (by simp) ?_ ?_
    · rw [Board.targets, Multiset.filterMap_add, hafter, Board.targets, hT,
        Multiset.filterMap_cons_some _ _ _ (Token.target_ready_of_eq rfl)]
      rfl
    · rw [hclose]
      rfl
  | send =>
    refine .answered (by simp) ?_ ?_
    · rw [Board.targets, Multiset.filterMap_add, hafter, Board.targets, hT,
        Multiset.filterMap_cons_some _ _ _ (Token.target_ready_of_ne (by simp))]
      rfl
    · rw [hclose]
      rfl
  | recv =>
    have hbefore : b.targets = fd ::ₘ T.filterMap Token.target := by
      rw [Board.targets, hT,
        Multiset.filterMap_cons_some _ _ _ (Token.target_ready_of_ne (by simp))]
    rcases lt_trichotomy res 0 with hneg | rfl | hpos
    · refine .dropped rfl hneg ?_ ?_
      · rw [hbefore, Board.targets, Multiset.filterMap_add, hafter]
        simp [replies, Sqe.key, hneg.le, keyTarget]
      · rw [hclose]
        simp [closing, Sqe.key, hneg.ne]
    · refine .closed rfl rfl ?_ ?_
      · rw [hbefore, Board.targets, Multiset.filterMap_add, hafter]
        simp [replies, Sqe.key, keyTarget]
      · rw [hclose]
        rfl
    · refine .answered (by simp [hpos]) ?_ ?_
      · rw [hbefore, Board.targets, Multiset.filterMap_add, hafter]
        simp [replies, Sqe.key, hpos, keyTarget]
      · rw [hclose]
        simp [closing, Sqe.key, hpos.ne']

end Booked

theorem booked_exec {b : Board μ α υ} {T : Multiset (Token α υ)} {e : Sqe α υ} {o : Outcome}
    {p : Performed μ α υ} {sends : List (Sending μ α υ)} {handled : List (Handled α υ)}
    (hT : b.tokens = .waiting e ::ₘ T) (hp : perform b.net b.mem e o = some p) :
    Booked b (.exec e o) ⟨.ready p.cqe ::ₘ T, p.mem, p.net, sends, handled⟩ := by
  rcases perform_cases hp with ⟨errno, rfl, rfl⟩ | ⟨fd, rfl, hop, h0, hne, hown, rfl⟩ |
    ⟨bytes, c, rfl, hop, hown, hlen, rfl⟩ | ⟨n, c, rfl, hop, hown, hlen, rfl⟩
  · by_cases hop : e.opcode = .accept
    · exact .refused hop (targets_completed_of_eq hT rfl hop) rfl
    · exact .executed hop (targets_completed_of_ne hT rfl hop) rfl
  · exact .opened hop h0 hne hown (targets_completed_of_eq hT rfl hop) rfl
  · have hne : e.opcode ≠ .accept := by rw [hop]; decide
    exact .executed hne (targets_completed_of_ne hT rfl hne) rfl
  · have hne : e.opcode ≠ .accept := by rw [hop]; decide
    exact .executed hne (targets_completed_of_ne hT rfl hne) rfl

/-- **What a move does to the books.** -/
theorem Moves.booked {srv : Server μ α υ} {b b' : Board μ α υ} {m : Move α υ}
    (htag : Tagged srv b) (h : Moves srv b m b') : Booked b m b' := by
  cases h with
  | exec hT hp => exact booked_exec hT hp
  | handle hT => exact booked_handle htag hT

/-- No move changes the number of accepts. -/
theorem Moves.accepts_eq {srv : Server μ α υ} {b b' : Board μ α υ} {m : Move α υ}
    (htag : Tagged srv b) (h : Moves srv b m b') : b'.accepts = b.accepts := by
  cases h with
  | @exec T e o p hT hp =>
    rw [Board.accepts, Board.accepts, hT, Multiset.countP_cons, Multiset.countP_cons]
    by_cases hop : e.opcode = .accept <;> simp [perform_sqe hp, hop]
  | @handle T q hT =>
    have hq : q.userData = srv.tag q.sqe.key := htag (.ready q) (by simp [hT])
    rw [Board.accepts, Board.accepts, hT, Multiset.countP_add, accepts_effect, srv.prep_key hq,
      Multiset.countP_cons]
    obtain ⟨⟨op, fd, addr, len, addrlen, flags, ud, cause⟩, res, got⟩ := q
    cases op with
    | recv => by_cases hres : 0 < res <;> simp [replies, Sqe.key, hres]
    | _ => simp [replies, Sqe.key, Nat.add_comm]

theorem Moves.tagged {srv : Server μ α υ} {b b' : Board μ α υ} {m : Move α υ}
    (htag : Tagged srv b) (h : Moves srv b m b') : Tagged srv b' := by
  cases h with
  | @exec T e o p hT hp =>
    intro x hx
    rcases Multiset.mem_cons.1 hx with rfl | hx
    · rw [Token.sqe_ready, perform_sqe hp]
      exact htag (.waiting e) (by simp [hT])
    · exact htag x (by simp [hT, hx])
  | @handle T q hT =>
    have hq : q.userData = srv.tag q.sqe.key := htag (.ready q) (by simp [hT])
    intro x hx
    rcases Multiset.mem_add.1 hx with hx | hx
    · obtain ⟨e, he, rfl⟩ := Multiset.mem_map.1 hx
      exact srv.prep_tag hq e (Multiset.mem_coe.1 he)
    · exact htag x (by simp [hT, hx])

/-! ## Balance -/

section Balance

omit [Memory μ α]

variable {b b' : Board μ α υ} {m : Move α υ} {D : Set Int}

/-- On the descriptors of `D`: at most one token on each, and none on one that is not open. -/
structure Balanced (D : Set Int) (b : Board μ α υ) : Prop where
  one : ∀ fd ∈ D, b.targets.count fd ≤ 1
  free : ∀ fd ∈ D, b.net.owner fd = none → fd ∉ b.targets

/-- A descriptor is targeted once. -/
theorem Balanced.not_mem_rest {fd : Int} {S : Multiset Int} (hb : Balanced D b)
    (htar : b.targets = fd ::ₘ S) (hfd : fd ∈ D) : fd ∉ S := by
  intro hmem
  have hone := hb.one fd hfd
  rw [htar, Multiset.count_cons_self] at hone
  have hpos := Multiset.count_pos.2 hmem
  omega

/-- Two tokens are never about the same descriptor. -/
theorem Balanced.others {x : Token α υ} {T : Multiset (Token α υ)} {fd : Int} (hb : Balanced D b)
    (hT : b.tokens = x ::ₘ T) (hx : x.target = some fd) (hfd : fd ∈ D) :
    ∀ y ∈ T, y.target ≠ some fd := by
  intro y hy hyt
  have htar : b.targets = fd ::ₘ T.filterMap Token.target := by
    rw [Board.targets, hT, Multiset.filterMap_cons_some _ _ _ hx]
  exact hb.not_mem_rest htar hfd ((Multiset.mem_filterMap _ _).2 ⟨y, hy, hyt⟩)

/-- **Balance is kept**, as long as no accept fails with a number in `D`. -/
theorem Balanced.booked (hb : Balanced D b) (h : Booked b m b')
    (hD : ∀ e errno, m = .exec e (.fail errno) → e.opcode = .accept →
      (-(errno + 1) : Int) ∉ D) : Balanced D b' := by
  cases h with
  | @opened e fd _ hop h0 hne hown htar hnet =>
    refine ⟨fun x hx => ?_, fun x hx hx' => ?_⟩
    · rw [htar, Multiset.count_cons]
      split_ifs with hxf
      · rw [hxf, Multiset.count_eq_zero.2 (hb.free fd (hxf ▸ hx) hown)]
      · exact hb.one x hx
    · have hxf : x ≠ fd := by
        intro heq
        subst heq
        simp [hnet] at hx'
      rw [hnet, Function.update_of_ne hxf] at hx'
      rw [htar, Multiset.mem_cons, not_or]
      exact ⟨hxf, hb.free x hx hx'⟩
  | @refused e errno _ hop htar hnet =>
    have hneg := hD e errno rfl hop
    refine ⟨fun x hx => ?_, fun x hx hx' => ?_⟩
    · rw [htar, Multiset.count_cons_of_ne (by rintro rfl; exact hneg hx)]
      exact hb.one x hx
    · rw [htar, Multiset.mem_cons, not_or]
      exact ⟨by rintro rfl; exact hneg hx, hb.free x hx (by rwa [hnet] at hx')⟩
  | held _ _ htar hnet => exact ⟨by rw [htar]; exact hb.one, by rw [htar, hnet]; exact hb.free⟩
  | @closed q _ hop hres htar hnet =>
    refine ⟨fun x hx => ?_, fun x hx hx' hmem => ?_⟩
    · exact (Multiset.count_le_of_le x (htar ▸ Multiset.le_cons_self _ _)).trans (hb.one x hx)
    · by_cases hxf : x = q.sqe.fd
      · subst hxf
        exact hb.not_mem_rest htar hx hmem
      · rw [hnet, Function.update_of_ne hxf] at hx'
        exact hb.free x hx hx' (htar ▸ Multiset.mem_cons_of_mem hmem)
  | @dropped q _ hop hres htar hnet =>
    refine ⟨fun x hx => ?_, fun x hx hx' hmem => ?_⟩
    · exact (Multiset.count_le_of_le x (htar ▸ Multiset.le_cons_self _ _)).trans (hb.one x hx)
    · exact hb.free x hx (hnet ▸ hx') (htar ▸ Multiset.mem_cons_of_mem hmem)

theorem owner_nonneg_booked (h : Booked b m b') (hb : ∀ fd, b.net.owner fd ≠ none → 0 ≤ fd) :
    ∀ fd, b'.net.owner fd ≠ none → 0 ≤ fd := by
  intro x hx
  cases h with
  | @opened e fd _ _ h0 _ _ _ hnet =>
    by_cases hxf : x = fd
    · rwa [hxf]
    · rw [hnet, Function.update_of_ne hxf] at hx
      exact hb x hx
  | @closed q _ _ _ _ hnet =>
    by_cases hxf : x = q.sqe.fd
    · simp [hnet, hxf] at hx
    · rw [hnet, Function.update_of_ne hxf] at hx
      exact hb x hx
  | refused _ _ hnet | held _ _ _ hnet | dropped _ _ _ hnet => exact hb x (hnet ▸ hx)

/-- An open descriptor nothing is outstanding on. -/
def Board.Orphan (b : Board μ α υ) (fd : Int) : Prop :=
  b.net.owner fd ≠ none ∧ fd ∉ b.targets

/-- The handling of a failed `recv` on an open descriptor. -/
def Abandons (b : Board μ α υ) (m : Move α υ) : Prop :=
  ∃ q, m = .handle q ∧ q.sqe.opcode = .recv ∧ q.res < 0 ∧ b.net.owner q.sqe.fd ≠ none

theorem not_abandons_exec {e : Sqe α υ} {o : Outcome} : ¬ Abandons b (.exec e o) := by
  rintro ⟨q, hq, -⟩
  cases hq

/-- **Orphans come from failed receives, and stay.** -/
theorem orphan_booked (hb : Balanced {fd | 0 ≤ fd} b) (hnn : ∀ fd, b.net.owner fd ≠ none → 0 ≤ fd)
    (h : Booked b m b') : (∃ fd, b'.Orphan fd) ↔ (∃ fd, b.Orphan fd) ∨ Abandons b m := by
  cases h with
  | @opened e fd _ hop h0 hne hown htar hnet =>
    simp only [not_abandons_exec, or_false, Board.Orphan, htar, hnet, Multiset.mem_cons, not_or]
    refine exists_congr fun x => ?_
    by_cases hxf : x = fd
    · subst hxf
      simp [hown]
    · simp [hxf]
  | @refused e errno _ hop htar hnet =>
    simp only [not_abandons_exec, or_false, Board.Orphan, htar, hnet, Multiset.mem_cons, not_or]
    refine exists_congr fun x => and_congr_right fun hx => ?_
    have hxn : x ≠ -(errno + 1 : Int) := by
      have := hnn x hx
      omega
    exact and_iff_right hxn
  | held _ hrecv htar hnet =>
    have hno : ¬ Abandons b m := by
      intro hyp
      obtain ⟨q, hq, hop, hres, -⟩ := hyp
      exact hrecv q hq ⟨hop, hres.le⟩
    simp only [hno, or_false, Board.Orphan, htar, hnet]
  | @closed q _ hop hres htar hnet =>
    have hno : ¬ Abandons b (.handle q) := by
      intro hyp
      obtain ⟨q', hq, -, hneg, -⟩ := hyp
      cases hq
      omega
    simp only [hno, or_false, Board.Orphan, htar, hnet, Multiset.mem_cons, not_or]
    refine exists_congr fun x => ?_
    by_cases hxf : x = q.sqe.fd
    · subst hxf
      simp
    · simp [hxf]
  | @dropped q _ hop hres htar hnet =>
    refine ⟨?_, ?_⟩
    · intro hyp
      obtain ⟨x, hx, hmem⟩ := hyp
      rw [hnet] at hx
      by_cases hxf : x = q.sqe.fd
      · exact .inr ⟨q, rfl, hop, hres, hxf ▸ hx⟩
      · exact .inl ⟨x, hx, by simp [htar, hxf, hmem]⟩
    · intro hyp
      rcases hyp with ⟨x, hx, hmem⟩ | ⟨q', hq, -, -, hown⟩
      · rw [htar, Multiset.mem_cons, not_or] at hmem
        exact ⟨x, hnet ▸ hx, hmem.2⟩
      · cases hq
        exact ⟨q.sqe.fd, hnet ▸ hown, hb.not_mem_rest htar (hnn _ hown)⟩

end Balance

/-! ## Sound states -/

/-- The books of a state of the rings are in order on `D`, and every posted completion was
handled, once, in the order of posting, by the branch and for the descriptor of its entry,
or is still in the queue. -/
structure Sound (srv : Server μ α υ) (D : Set Int) (s : St μ α υ) : Prop where
  pc : s.PcOk srv.batch
  tagged : Tagged srv s.board
  balanced : Balanced D s.board
  accepts : s.board.accepts = 1
  owner_nonneg : ∀ fd, s.net.owner fd ≠ none → 0 ≤ fd
  posted : s.handled.map Handled.cqe ++ s.cq.drop s.pc.taken = s.posted
  branch : ∀ h ∈ s.handled, (h.branch, h.fd) = h.cqe.sqe.key

/-- No accept fails with a number in `D`. -/
def NoRefusal (D : Set Int) (s : St μ α υ) (a : Act) : Prop :=
  ∀ e errno, s.move a = some (.exec e (.fail errno)) → e.opcode = .accept →
    (-(errno + 1) : Int) ∉ D

variable {srv : Server μ α υ} {D : Set Int} {s t : St μ α υ} {a : Act}

omit [Memory μ α] in
theorem Sound.mono {D' : Set Int} (hs : Sound srv D s) (hsub : D' ⊆ D) : Sound srv D' s :=
  { hs with
    balanced := ⟨fun fd hfd => hs.balanced.one fd (hsub hfd),
      fun fd hfd => hs.balanced.free fd (hsub hfd)⟩ }

/-- A batch stays within the completions it was peeked from. -/
theorem St.PcOk.step (hpc : s.PcOk srv.batch) (htag : Tagged srv s.board)
    (h : step srv.batch srv.handle s a = some t) : t.PcOk srv.batch := by
  intro nready i hbatch
  cases steps_of_step h with
  | exec => exact hpc nready i hbatch
  | post =>
    obtain ⟨hi, hn, hb⟩ := hpc nready i hbatch
    exact ⟨hi, by simp only [List.length_append]; omega, hb⟩
  | submit => cases hbatch
  | peek =>
    cases hbatch
    exact ⟨Nat.zero_le _, Nat.min_le_right _ _, Nat.min_le_left _ _⟩
  | @handle n j q _ hj hlt hq hhandle =>
    obtain ⟨-, hn, hb⟩ := hpc n j hj
    cases srv.handle_eq (htag (.ready q) (ready_mem_tokens hj hq)) hhandle
    cases hbatch
    exact ⟨hlt, hn, hb⟩
  | release => cases hbatch

/-- **Each posted completion is handled once, in order.** -/
theorem posted_step (hpc : s.PcOk srv.batch) (htag : Tagged srv s.board)
    (hs : s.handled.map Handled.cqe ++ s.cq.drop s.pc.taken = s.posted)
    (h : step srv.batch srv.handle s a = some t) :
    t.handled.map Handled.cqe ++ t.cq.drop t.pc.taken = t.posted := by
  cases steps_of_step h with
  | exec => exact hs
  | post => rw [← hs, List.append_assoc, List.drop_append_of_le_length hpc.taken_le]
  | submit hhead =>
    rw [hhead] at hs
    exact hs
  | peek hwait =>
    rw [hwait] at hs
    exact hs
  | @handle n i q _ hbatch hlt hq hhandle =>
    cases srv.handle_eq (htag (.ready q) (ready_mem_tokens hbatch hq)) hhandle
    obtain ⟨hi, rfl⟩ := List.getElem?_eq_some_iff.1 hq
    rw [hbatch, Pc.taken, List.drop_eq_getElem_cons hi] at hs
    simpa [St.apply, Pc.taken] using hs
  | @release n i hbatch hle =>
    obtain ⟨hi, -⟩ := hpc n i hbatch
    have hin : i = n := by omega
    rw [hbatch] at hs
    simpa [St.cqAdvance, Pc.taken, hin] using hs

theorem branch_moves {b b' : Board μ α υ} {m : Move α υ} (htag : Tagged srv b)
    (hb : ∀ h ∈ b.handled, (h.branch, h.fd) = h.cqe.sqe.key) (hm : Moves srv b m b') :
    ∀ h ∈ b'.handled, (h.branch, h.fd) = h.cqe.sqe.key := by
  cases hm with
  | exec => exact hb
  | @handle T q hT =>
    intro h hh
    rcases List.mem_append.1 hh with hh | hh
    · exact hb h hh
    · cases List.mem_singleton.1 hh
      exact srv.branch_eq (htag (.ready q) (by simp [hT]))

/-- **Sound states stay sound.** -/
theorem Sound.step (hs : Sound srv D s) (hok : NoRefusal D s a)
    (h : step srv.batch srv.handle s a = some t) : Sound srv D t := by
  have hpc := hs.pc.step hs.tagged h
  have hposted := posted_step hs.pc hs.tagged hs.posted h
  rcases step_board srv hs.pc hs.tagged h with ⟨-, hsame⟩ | ⟨m, hmove, hm⟩
  · have hnet : t.net = s.net := congrArg Board.net hsame
    have hhandled : t.handled = s.handled := congrArg Board.handled hsame
    exact {
      pc := hpc
      tagged := hsame ▸ hs.tagged
      balanced := hsame ▸ hs.balanced
      accepts := hsame ▸ hs.accepts
      owner_nonneg := hnet ▸ hs.owner_nonneg
      posted := hposted
      branch := hhandled ▸ hs.branch }
  · have hbook := hm.booked hs.tagged
    exact {
      pc := hpc
      tagged := hm.tagged hs.tagged
      balanced := hs.balanced.booked hbook fun e errno he => hok e errno (he ▸ hmove)
      accepts := (hm.accepts_eq hs.tagged).trans hs.accepts
      owner_nonneg := owner_nonneg_booked hbook hs.owner_nonneg
      posted := hposted
      branch := branch_moves hs.tagged hs.branch hm }

omit [Memory μ α] in
theorem start_tokens (e : Sqe α υ) (entries : Nat) (mem : μ) :
    ({ St.queueInit entries mem with sq := [e] } : St μ α υ).board.tokens = {.waiting e} := by
  simp [St.board, St.tokens, St.queueInit]

omit [Memory μ α] in
/-- The rings with one accept in the queue, as a server starts. -/
theorem Sound.start {e : Sqe α υ} (hop : e.opcode = .accept) (htag : e.userData = srv.tag e.key)
    (entries : Nat) (mem : μ) : Sound srv D { St.queueInit entries mem with sq := [e] } := by
  have htok := start_tokens e entries mem
  have htar : ({ St.queueInit entries mem with sq := [e] } : St μ α υ).board.targets = 0 := by
    rw [Board.targets, htok, ← Multiset.cons_zero,
      Multiset.filterMap_cons_none _ _ (Token.target_waiting_of_eq hop), Multiset.filterMap_zero]
  exact {
    pc := fun n i h => by cases h
    tagged := fun x hx => by
      rw [htok, Multiset.mem_singleton] at hx
      rw [hx]
      exact htag
    balanced := ⟨fun fd _ => by simp [htar], fun fd _ _ => by simp [htar]⟩
    accepts := by
      rw [Board.accepts, htok, ← Multiset.cons_zero, Multiset.countP_cons]
      simp [hop]
    owner_nonneg := fun fd h => absurd rfl h
    posted := rfl
    branch := fun h hh => by cases hh }

end NetDesign.Uring
