import NetworkFileShare.NameServer.Connections

/-!
# Reconnection of storage servers

* `Remembered` : the sockets that may still be closed; `Straight` : they are closed, or still belong to their
  connections. `reconnection_straight` : that is so as long as `accept` hands out no number that is still remembered
  (`FreshNumbers`); `reconnection_closes_itself`;
* `Tied` : the heartbeat threads, the slot and the registration of an id are of one run of the storage server.
  `deactivation_in_turn` : that is so as long as a storage server registers when no earlier heartbeat thread is left
  (`InTurn`), and then only the heartbeat connection of the slot's own run deactivates it; `deactivated_by_old`.
-/

namespace NetworkFileShare

/-! ## What is remembered -/

namespace Connections

/-- A registration of that id has its old sockets before it. -/
def Closing (s : Connections) (id : Int32) : Prop :=
  ∃ c th old, s.threads c = some th ∧ th.phase = .closingOld id old

/-- A registration still has the socket to close. -/
def StillToClose (s : Connections) (x : Sock) : Prop :=
  ∃ c th id old, s.threads c = some th ∧ th.phase = .closingOld id old ∧ x ∈ old

/-- A socket that may still be closed: of a thread, of a registration, or of a slot that is not about to be reset. -/
def Remembered (s : Connections) (x : Sock) : Prop :=
  (∃ c th, s.threads c = some th ∧ x = th.sock) ∨ s.StillToClose x ∨ ∃ id, s.SlotHolds id x ∧ ¬ s.Closing id

end Connections

/-- The thread of a command connection that is not registered yet. -/
def ConnThread.Pending (th : ConnThread) : Prop :=
  (∃ life, th.peer = .storage life) ∧ (th.phase = .greeting ∨ ∃ id old, th.phase = .closingOld id old)

/-- `accept` hands out no number that is still remembered. -/
def FreshNumbers (s : Connections) (e : ConnEvent) : Prop :=
  match e with
  | .accept _ n => ∀ x, s.Remembered x → x.fd ≠ n
  | _ => True

section Steps
variable {s t : Connections} {e : ConnEvent} {c d : Nat} {th th' : ConnThread} {id : Int32}

/-- Threads have the sockets of their connections, and a registration holds the mutex. -/
structure Threaded (s : Connections) : Prop where
  own : ∀ c th, s.threads c = some th → th.sock.conn = c ∧ c < s.next
  locked : ∀ c th id old, s.threads c = some th → th.phase = .closingOld id old → s.mutex = some c

theorem Threaded.not_closing (hs : Threaded s) (hfree : s.mutex = none) : ¬ s.Closing id := by
  rintro ⟨c, th, old, hc, hphase⟩
  have hlocked := hs.locked c th id old hc hphase
  rw [hfree] at hlocked
  cases hlocked

/-- A thread that is about to close old sockets has been, or has just taken the mutex. -/
theorem Threaded.step (hs : Threaded s) (h : ConnStep s e t) : Threaded t := by
  obtain ⟨hle, hlt⟩ := next_of_step h
  refine ⟨fun d th' hd => ?_, fun d th' id old hd hphase' => ?_⟩
  · rcases thread_of_step h hd with ⟨peer, n, he, rfl, rfl⟩ | ⟨th, hth, hsock, -, -⟩
    · exact ⟨rfl, hlt peer n he⟩
    · obtain ⟨hconn, hnext⟩ := hs.own d th hth
      exact ⟨hsock ▸ hconn, lt_of_lt_of_le hnext hle⟩
  · rcases thread_of_step h hd with ⟨peer, n, -, -, rfl⟩ | ⟨th, hth, -, -, hsame | hchange⟩
    · cases hphase'
    · have hlocked := hs.locked d th id old hth (hsame ▸ hphase')
      rcases mutex_of_step h with hmutex | ⟨hfree, -⟩ | ⟨c, th₁, id₁, rfl, hc, hphase₁⟩
      · rw [hmutex, hlocked]
      · rw [hfree] at hlocked
        cases hlocked
      · -- the registration that ends is that of `d`, which goes on to serve
        have hlocked₁ := hs.locked c th₁ id₁ [] hc hphase₁
        obtain rfl := Option.some.inj (hlocked.symm.trans hlocked₁)
        obtain ⟨th₂, id₂, life, hc₂, hphase₂, hpeer₂, rfl⟩ := h
        change Function.update s.threads d _ d = some th' at hd
        rw [Function.update_self] at hd
        obtain rfl := Option.some.inj hd
        cases hphase'
    · rw [hphase'] at hchange
      cases hchange with
      | register hgreet hpeer hfree hlocked hold => exact hlocked
      | closeOld hclosing =>
        obtain ⟨th₀, id₀, x, old₀, hc, hphase₀, rfl⟩ := h
        exact hs.locked d th _ _ hth hclosing

/-! ## Sockets are kept straight -/

/-- What is remembered is closed or still of its connection; the number of a connection that is not registered yet is
open, and in nobody else's hands. -/
structure Straight (s : Connections) : Prop where
  threaded : Threaded s
  straight : ∀ x, s.Remembered x → s.fds x.fd = none ∨ s.fds x.fd = some x.conn
  pending : ∀ c th, s.threads c = some th → th.Pending → s.fds th.sock.fd = some c
  others : ∀ c th x, s.threads c = some th → th.Pending → (s.StillToClose x ∨ ∃ id, s.SlotHolds id x) → x.conn ≠ c
  older : ∀ x, (s.StillToClose x ∨ ∃ id, s.SlotHolds id x) → x.conn < s.next

/-- What a step closes was remembered, and is not of a connection that is not registered yet. -/
theorem closed_of_step {x : Sock} (hs : Threaded s) (h : ConnStep s e t) (hx : x ∈ s.closes e) :
    s.Remembered x ∧ ((s.StillToClose x ∨ ∃ id, s.SlotHolds id x) ∨
      ∃ c th, s.threads c = some th ∧ th.phase = .leaving ∧ x = th.sock) := by
  cases e with
  | closeOld c =>
    obtain ⟨th, id, y, old, hc, hphase, -⟩ := h
    unfold Connections.closes at hx
    simp only [hc, Option.map_some, hphase, List.mem_singleton] at hx
    subst hx
    have hstill : s.StillToClose x := ⟨c, th, id, x :: old, hc, hphase, List.mem_cons_self⟩
    exact ⟨Or.inr (Or.inl hstill), Or.inl (Or.inl hstill)⟩
  | close c =>
    obtain ⟨th, hc, hphase, -⟩ := h
    simp only [Connections.closes, hc, Option.map_some, Option.toList_some, List.mem_singleton] at hx
    exact ⟨Or.inl ⟨c, th, hc, hx⟩, Or.inr ⟨c, th, hc, hphase, hx⟩⟩
  | expire id =>
    obtain ⟨k, hk, -, hfree, -⟩ := h
    simp only [Connections.closes, hk, Option.bind_some, Option.mem_toList] at hx
    have hholds : s.SlotHolds id x := ⟨k, hk, Or.inr hx⟩
    exact ⟨Or.inr (Or.inr ⟨id, hholds, hs.not_closing hfree⟩), Or.inl (Or.inr ⟨id, hholds⟩)⟩
  | _ => cases hx

/-- The number of a pending connection is not closed. -/
theorem Straight.pending_kept {x : Sock} (hs : Straight s) (h : ConnStep s e t) (hx : x ∈ s.closes e)
    (hc : s.threads c = some th) (hpend : th.Pending) : x.fd ≠ th.sock.fd := by
  obtain ⟨hrem, hwhose⟩ := closed_of_step hs.threaded h hx
  intro hfd
  have hopen := hs.pending c th hc hpend
  have hconn : x.conn = c := by
    rcases hs.straight x hrem with hnone | hsome
    · rw [hfd, hopen] at hnone
      cases hnone
    · rw [hfd, hopen] at hsome
      exact (Option.some.inj hsome).symm
  rcases hwhose with hheld | ⟨d, th', hd, hphase, rfl⟩
  · exact hs.others c th x hc hpend hheld hconn
  · rw [(hs.threaded.own d th' hd).1] at hconn
    subst hconn
    obtain rfl := Option.some.inj (hc.symm.trans hd)
    obtain ⟨-, hphase' | ⟨id, old, hphase'⟩⟩ := hpend <;> rw [hphase] at hphase' <;> cases hphase'

/-- A connection is pending from `accept` to its registration. -/
theorem pending_of_step (h : ConnStep s e t) (hd : t.threads d = some th') (hpend : th'.Pending) :
    (∃ peer n, e = .accept peer n ∧ d = s.next ∧ th'.sock = ⟨n, s.next⟩) ∨
      ∃ th, s.threads d = some th ∧ th'.sock = th.sock ∧ th.Pending := by
  rcases thread_of_step h hd with ⟨peer, n, he, hdn, rfl⟩ | ⟨th, hth, hsock, hpeer, hphase⟩
  · exact Or.inl ⟨peer, n, he, hdn, rfl⟩
  · refine Or.inr ⟨th, hth, hsock, hpeer ▸ hpend.1, ?_⟩
    rcases hphase with hsame | hchange
    · exact hsame ▸ hpend.2
    · obtain ⟨-, hgreet | ⟨id, old, hclosing⟩⟩ := hpend
      · rw [hgreet] at hchange
        cases hchange
      · rw [hclosing] at hchange
        cases hchange with
        | register hgreet => exact Or.inl hgreet
        | closeOld hclosing => exact Or.inr ⟨_, _, hclosing⟩

/-- The sockets that registrations still have to close come from a slot. -/
theorem stillToClose_of_step {x : Sock} (hs : Threaded s) (h : ConnStep s e t) (hx : t.StillToClose x) :
    s.Remembered x ∧ (s.StillToClose x ∨ ∃ id, s.SlotHolds id x) := by
  obtain ⟨d, th', id, old, hd, hclosing, hmem⟩ := hx
  rcases thread_of_step h hd with ⟨peer, n, -, -, rfl⟩ | ⟨th, hth, -, -, hsame | hchange⟩
  · cases hclosing
  · have hstill : s.StillToClose x := ⟨d, th, id, old, hth, hsame ▸ hclosing, hmem⟩
    exact ⟨Or.inr (Or.inl hstill), Or.inl hstill⟩
  · rw [hclosing] at hchange
    cases hchange with
    | register _ _ hfree _ hold =>
      exact ⟨Or.inr (Or.inr ⟨id, hold x hmem, hs.not_closing hfree⟩), Or.inr ⟨id, hold x hmem⟩⟩
    | closeOld hphase =>
      have hstill : s.StillToClose x := ⟨d, th, id, _, hth, hphase, List.mem_cons_of_mem _ hmem⟩
      exact ⟨Or.inr (Or.inl hstill), Or.inl hstill⟩

/-- What a slot holds it held before, or it is the socket of a thread that registers or introduces itself. -/
theorem slotHolds_of_step {x : Sock} (h : ConnStep s e t) (hx : t.SlotHolds id x) :
    s.SlotHolds id x ∨ ∃ c th, s.threads c = some th ∧ x = th.sock ∧
      (e = .finishRegister c ∨ e = .introduce c id ∧ ∃ life, th.peer = .heartbeat life) := by
  obtain ⟨k', hk', hheld⟩ := hx
  rcases slot_of_step h hk' with hk | ⟨c, th, life, he, hc, -, -, rfl⟩ | ⟨k, hk, hchange⟩
  · exact Or.inl ⟨k', hk, hheld⟩
  · rcases hheld with hsock | hhb
    · exact Or.inr ⟨c, th, hc, hsock, Or.inl he⟩
    · cases hhb
  · cases hchange with
    | register => exact Or.inl ⟨k, hk, hheld⟩
    | introduce hthread hpeer =>
      rcases hheld with hsock | hhb
      · exact Or.inl ⟨k, hk, Or.inl hsock⟩
      · exact Or.inr ⟨_, _, hthread, (Option.some.inj hhb).symm, Or.inr ⟨rfl, _, hpeer⟩⟩
    | heartbeatLost =>
      rcases hheld with hsock | hhb
      · exact Or.inl ⟨k, hk, Or.inl hsock⟩
      · cases hhb
    | expire =>
      rcases hheld with hsock | hhb
      · exact Or.inl ⟨k, hk, Or.inl hsock⟩
      · cases hhb

/-- A thread in another phase is not the one that is updated. -/
theorem thread_kept {v : Option ConnThread} {th₁ : ConnThread} (hd : s.threads d = some th)
    (hc : s.threads c = some th₁) (hne : th.phase ≠ th₁.phase) : Function.update s.threads c v d = some th := by
  rw [Function.update_of_ne, hd]
  rintro rfl
  rw [hd] at hc
  exact hne (congrArg ConnThread.phase (Option.some.inj hc))

/-- A registration goes on unless it ends. -/
theorem closing_of_step (hs : Threaded s) (h : ConnStep s e t) (hclosing : s.Closing id) :
    t.Closing id ∨ ∃ c th, e = .finishRegister c ∧ s.threads c = some th ∧ th.phase = .closingOld id [] := by
  obtain ⟨d, th, old, hd, hphase⟩ := hclosing
  have hkeep {th₁ : ConnThread} {c : Nat} {v : Option ConnThread} (hc : s.threads c = some th₁)
      (hne : th₁.phase ≠ .closingOld id old) : Function.update s.threads c v d = some th :=
    thread_kept hd hc fun hsame => hne (hsame ▸ hphase)
  have hbusy : s.mutex ≠ none := by
    rw [hs.locked d th id old hd hphase]
    exact Option.some_ne_none d
  cases e with
  | accept peer n =>
    obtain ⟨-, -, -, rfl⟩ := h
    refine Or.inl ⟨d, th, old, ?_, hphase⟩
    have hdn : d ≠ s.next := Nat.ne_of_lt (hs.own d th hd).2
    exact (Function.update_of_ne hdn _ _).trans hd
  | register c id' =>
    obtain ⟨-, -, -, -, -, hfree, -⟩ := h
    exact absurd hfree hbusy
  | closeOld c =>
    obtain ⟨th₁, id₁, x, old₁, hc, hphase₁, rfl⟩ := h
    left
    by_cases hdc : d = c
    · subst hdc
      obtain rfl := Option.some.inj (hd.symm.trans hc)
      obtain ⟨rfl, -⟩ := Phase.closingOld.inj (hphase.symm.trans hphase₁)
      exact ⟨d, _, old₁, Function.update_self _ _ _, rfl⟩
    · exact ⟨d, th, old, (Function.update_of_ne hdc _ _).trans hd, hphase⟩
  | finishRegister c =>
    obtain ⟨th₁, id₁, life, hc, hphase₁, -, -⟩ := h
    have hlocked := (hs.locked d th id old hd hphase).symm.trans (hs.locked c th₁ id₁ [] hc hphase₁)
    obtain rfl := Option.some.inj hlocked
    obtain rfl := Option.some.inj (hd.symm.trans hc)
    obtain ⟨rfl, rfl⟩ := Phase.closingOld.inj (hphase.symm.trans hphase₁)
    exact Or.inr ⟨d, th, rfl, hd, hphase⟩
  | watch c =>
    obtain ⟨-, -, -, -, -, -, hfree, -⟩ := h
    exact absurd hfree hbusy
  | introduce c id' =>
    obtain ⟨-, -, -, -, -, hfree, -⟩ := h
    exact absurd hfree hbusy
  | heartbeatLost c =>
    obtain ⟨-, -, -, -, -, -, hfree, -, -⟩ := h
    exact absurd hfree hbusy
  | leave c =>
    obtain ⟨th₁, hc, hgreet, rfl⟩ := h
    exact Or.inl ⟨d, th, old, hkeep hc (by rw [hgreet]; exact nofun), hphase⟩
  | close c =>
    obtain ⟨th₁, hc, hleaving, rfl⟩ := h
    exact Or.inl ⟨d, th, old, hkeep hc (by rw [hleaving]; exact nofun), hphase⟩
  | expire id' =>
    obtain ⟨-, -, -, hfree, -⟩ := h
    exact absurd hfree hbusy
  | fail c =>
    obtain rfl := h
    exact Or.inl ⟨d, th, old, hd, hphase⟩

/-- Nothing but the socket of a new connection is remembered that was not remembered before. -/
theorem remembered_of_step {x : Sock} (hs : Threaded s) (h : ConnStep s e t) (hx : t.Remembered x) :
    s.Remembered x ∨ ∃ peer, e = .accept peer x.fd ∧ x.conn = s.next := by
  rcases hx with ⟨d, th', hd, rfl⟩ | hstill | ⟨id, hholds, hnot⟩
  · rcases thread_of_step h hd with ⟨peer, n, he, -, rfl⟩ | ⟨th, hth, hsock, -, -⟩
    · exact Or.inr ⟨peer, he, rfl⟩
    · exact Or.inl (Or.inl ⟨d, th, hth, hsock⟩)
  · exact Or.inl (stillToClose_of_step hs h hstill).1
  · left
    rcases slotHolds_of_step h hholds with hold | ⟨c, th, hc, hsock, -⟩
    · by_cases hclosing : s.Closing id
      · -- the slot has been filled by the registration that ends
        rcases closing_of_step hs h hclosing with hgoes | ⟨c, th, rfl, hc, hphase⟩
        · exact absurd hgoes hnot
        · obtain ⟨th₁, id₁, life, hc₁, hphase₁, -, rfl⟩ := h
          obtain rfl := Option.some.inj (hc.symm.trans hc₁)
          obtain ⟨rfl, -⟩ := Phase.closingOld.inj (hphase.symm.trans hphase₁)
          obtain ⟨k', hk', hheld⟩ := hholds
          change findSlot id (putSlot ⟨id, th.sock, none, true, life⟩ s.slots) = some k' at hk'
          rw [findSlot_put_self (k := ⟨id, th.sock, none, true, life⟩)] at hk'
          obtain rfl := Option.some.inj hk'
          rcases hheld with hsock | hhb
          · exact Or.inl ⟨c, th, hc, hsock⟩
          · cases hhb
      · exact Or.inr (Or.inr ⟨id, hold, hclosing⟩)
    · exact Or.inl ⟨c, th, hc, hsock⟩

/-- What slots and registrations hold they held before, or it is the socket of a thread that is registered now. -/
theorem held_of_step {x : Sock} (hs : Threaded s) (h : ConnStep s e t)
    (hx : t.StillToClose x ∨ ∃ id, t.SlotHolds id x) :
    (s.StillToClose x ∨ ∃ id, s.SlotHolds id x) ∨
      ∃ c th, s.threads c = some th ∧ x = th.sock ∧ ∀ th', t.threads c = some th' → ¬ th'.Pending := by
  rcases hx with hstill | ⟨id, hholds⟩
  · exact Or.inl (stillToClose_of_step hs h hstill).2
  · rcases slotHolds_of_step h hholds with hold | ⟨c, th, hc, hsock, he⟩
    · exact Or.inl (Or.inr ⟨id, hold⟩)
    · refine Or.inr ⟨c, th, hc, hsock, fun th' hc' hpend => ?_⟩
      rcases he with rfl | ⟨rfl, life, hpeer⟩
      · obtain ⟨th₁, id₁, life, -, -, -, rfl⟩ := h
        change Function.update s.threads c _ c = some th' at hc'
        rw [Function.update_self] at hc'
        obtain rfl := Option.some.inj hc'
        obtain ⟨-, hphase | ⟨_, _, hphase⟩⟩ := hpend <;> cases hphase
      · rcases thread_of_step h hc' with ⟨_, _, he, -, -⟩ | ⟨th₁, hc₁, -, hpeer₁, -⟩
        · cases he
        · obtain ⟨⟨life', hstorage⟩, -⟩ := hpend
          obtain rfl := Option.some.inj (hc.symm.trans hc₁)
          rw [hpeer₁, hpeer] at hstorage
          cases hstorage

/-- **Every step keeps the sockets straight** when the numbers it hands out are fresh. -/
theorem Straight.step (hs : Straight s) (hfresh : FreshNumbers s e) (h : ConnStep s e t) : Straight t := by
  have hthreaded := hs.threaded.step h
  refine ⟨hthreaded, fun x hx => ?_, fun d th' hd hpend => ?_, fun d th' x hd hpend hx => ?_, fun x hx => ?_⟩
  · rcases remembered_of_step hs.threaded h hx with hrem | ⟨peer, rfl, hconn⟩
    · rcases fds_of_step h x.fd with hsame | ⟨hnone, -⟩ | ⟨peer, rfl, -, -⟩
      · rw [hsame]
        exact hs.straight x hrem
      · exact Or.inl hnone
      · exact absurd rfl (hfresh x hrem)
    · obtain ⟨-, -, -, rfl⟩ := h
      exact Or.inr (hconn ▸ Function.update_self _ _ _)
  · rcases pending_of_step h hd hpend with ⟨peer, n, rfl, rfl, hsock⟩ | ⟨th, hth, hsock, hbefore⟩
    · obtain ⟨-, -, -, rfl⟩ := h
      rw [hsock]
      exact Function.update_self _ _ _
    · have hopen := hs.pending d th hth hbefore
      rw [hsock]
      rcases fds_of_step h th.sock.fd with hsame | ⟨-, y, hy, hyfd⟩ | ⟨peer, -, hnone, -⟩
      · rw [hsame, hopen]
      · exact absurd hyfd (hs.pending_kept h hy hth hbefore)
      · rw [hopen] at hnone
        cases hnone
  · rcases held_of_step hs.threaded h hx with hheld | ⟨c, th, hc, rfl, hserves⟩
    · rcases pending_of_step h hd hpend with ⟨peer, n, -, rfl, -⟩ | ⟨th, hth, -, hbefore⟩
      · exact Nat.ne_of_lt (hs.older x hheld)
      · exact hs.others d th x hth hbefore hheld
    · rw [(hs.threaded.own c th hc).1]
      rintro rfl
      exact hserves th' hd hpend
  · rcases held_of_step hs.threaded h hx with hheld | ⟨c, th, hc, rfl, -⟩
    · exact lt_of_lt_of_le (hs.older x hheld) (next_of_step h).1
    · obtain ⟨hconn, hlt⟩ := hs.threaded.own c th hc
      rw [hconn]
      exact lt_of_lt_of_le hlt (next_of_step h).1

theorem Straight.start (base : Nat) : Straight (startListening base) where
  threaded := ⟨nofun, nofun⟩
  straight := by
    rintro x (⟨c, th, hc, -⟩ | ⟨c, th, id, old, hc, -⟩ | ⟨id, ⟨k, hk, -⟩, -⟩)
    · cases hc
    · cases hc
    · cases hk
  pending := nofun
  others := nofun
  older := by
    rintro x (⟨c, th, id, old, hc, -⟩ | ⟨id, k, hk, -⟩)
    · cases hc
    · cases hk

/-- **Reconnection keeps the sockets straight** as long as the numbers that are handed out are fresh: a registration
ends with the open socket of its own connection in the slot, and every `close` is of a number that is free or belongs
to the connection it is remembered for. -/
theorem reconnection_straight {base : Nat} {es : List ConnEvent}
    (h : Run (Guarded FreshNumbers ConnStep) (startListening base) es s) (hstep : ConnStep s e t) :
    (∀ c, e = .finishRegister c → ∃ th id k, s.threads c = some th ∧ th.phase = .closingOld id [] ∧
      findSlot id t.slots = some k ∧ k.sock = th.sock ∧ t.fds k.sock.fd = some c) ∧
    ∀ x ∈ s.closes e, s.fds x.fd = none ∨ s.fds x.fd = some x.conn := by
  have hs : Straight s := h.state_invariant (Straight.start base) fun _ _ _ hi hstep => hi.step hstep.1 hstep.2
  refine ⟨?_, fun x hx => hs.straight x (closed_of_step hs.threaded hstep hx).1⟩
  rintro c rfl
  obtain ⟨th, id, life, hc, hphase, hpeer, rfl⟩ := hstep
  refine ⟨th, id, ⟨id, th.sock, none, true, life⟩, hc, hphase,
    findSlot_put_self (k := ⟨id, th.sock, none, true, life⟩), rfl, ?_⟩
  exact hs.pending c th hc ⟨⟨life, hpeer⟩, Or.inr ⟨id, [], hphase⟩⟩

end Steps

/-- A registration of storage server 1 on the number 3. -/
def registeredOnce : Connections :=
  let s := (startListening 3).accept (.storage 0) 3
  (s.register 3 ⟨⟨3, 3⟩, .storage 0, .greeting⟩ 1).finishRegister 3 ⟨⟨3, 3⟩, .storage 0, .closingOld 1 []⟩ 1 0

theorem remembered_registeredOnce {x : Sock} (hx : registeredOnce.Remembered x) : x = ⟨3, 3⟩ := by
  have hthread : ∀ c th, registeredOnce.threads c = some th → th = ⟨⟨3, 3⟩, .storage 0, .serving 1⟩ := by
    intro c th hc
    by_cases h3 : c = 3
    · subst h3
      exact (Option.some.inj hc).symm
    · have hnone : registeredOnce.threads c = none := by
        unfold registeredOnce
        exact (Function.update_of_ne h3 _ _).trans ((Function.update_of_ne h3 _ _).trans (Function.update_of_ne h3 _ _))
      rw [hnone] at hc
      cases hc
  rcases hx with ⟨c, th, hc, rfl⟩ | ⟨c, th, id, old, hc, hphase, -⟩ | ⟨id, ⟨k, hk, hheld⟩, -⟩
  · rw [hthread c th hc]
  · rw [hthread c th hc] at hphase
    cases hphase
  · change findSlot id [⟨1, ⟨3, 3⟩, none, true, 0⟩] = some k at hk
    rw [findSlot_cons] at hk
    split at hk
    · obtain rfl := Option.some.inj hk
      rcases hheld with hsock | hhb
      · exact hsock
      · cases hhb
    · cases hk

/-- A second run of the storage server registers while the first is still connected. -/
def registeredAgain : List ConnEvent :=
  [.accept (.storage 0) 3, .register 3 1, .finishRegister 3, .accept (.storage 1) 4, .register 4 1, .closeOld 4]

/-- Storage server 1 registers and dies; its two threads end, and it connects again under the number of before. -/
def diedAndConnected : List ConnEvent :=
  [.accept (.storage 0) 3, .accept (.heartbeat 0) 4, .register 3 1, .finishRegister 3, .introduce 4 1, .fail 3,
    .fail 4, .heartbeatLost 4, .watch 3, .close 3, .accept (.storage 1) 3, .register 5 1]

theorem reconnection_straight_again : ∃ s t : Connections, Run ConnStep (startListening 3) registeredAgain s ∧
    (∀ c, ConnEvent.finishRegister 4 = .finishRegister c → ∃ th id k, s.threads c = some th ∧
      th.phase = .closingOld id [] ∧ findSlot id t.slots = some k ∧ k.sock = th.sock ∧ t.fds k.sock.fd = some c) ∧
    ∀ x ∈ s.closes (.finishRegister 4), s.fds x.fd = none ∨ s.fds x.fd = some x.conn := by
  have hstart : ∀ x, (startListening 3).Remembered x → x.fd ≠ 3 := by
    rintro x (⟨c, th, hc, -⟩ | ⟨c, th, id, old, hc, -⟩ | ⟨id, ⟨k, hk, -⟩, -⟩)
    · cases hc
    · cases hc
    · cases hk
  have hagain : ∀ x, registeredOnce.Remembered x → x.fd ≠ 4 := by
    intro x hx
    rw [remembered_registeredOnce hx]
    decide
  have hrun : ∃ s, Run (Guarded FreshNumbers ConnStep) (startListening 3) registeredAgain s ∧
      ∃ t, ConnStep s (.finishRegister 4) t := by
    refine ⟨_, Run.cons ⟨hstart, by decide, rfl, by decide, rfl⟩
      (Run.cons ⟨trivial, _, _, rfl, rfl, rfl, rfl, rfl⟩ (Run.cons ⟨trivial, _, _, _, rfl, rfl, rfl, rfl⟩
      (Run.cons ⟨hagain, by decide, rfl, by decide, rfl⟩ (Run.cons ⟨trivial, _, _, rfl, rfl, rfl, rfl, rfl⟩
      (Run.cons ⟨trivial, _, _, _, _, rfl, rfl, rfl⟩ .nil))))), ?_⟩
    exact ⟨_, _, _, _, rfl, rfl, rfl, rfl⟩
  obtain ⟨s, hrun, t, hstep⟩ := hrun
  exact ⟨s, t, hrun.unguarded, reconnection_straight hrun hstep⟩

/-- **The new registration closes its own socket**: the number that the slot still has of the dead connection is its
own by now. -/
theorem reconnection_closes_itself : ∃ s t u, Run ConnStep (startListening 3) diedAndConnected s ∧
    ConnStep s (.closeOld 5) t ∧ s.closes (.closeOld 5) = [⟨3, 3⟩] ∧ s.fds 3 = some 5 ∧
    ConnStep t (.finishRegister 5) u ∧ (findSlot 1 u.slots).map (·.sock) = some ⟨3, 5⟩ ∧ u.fds 3 = none := by
  refine ⟨_, _, _, Run.cons ⟨by decide, rfl, by decide, rfl⟩ (Run.cons ⟨by decide, rfl, by decide, rfl⟩
    (Run.cons ⟨_, _, rfl, rfl, rfl, rfl, rfl⟩ (Run.cons ⟨_, _, _, rfl, rfl, rfl, rfl⟩
    (Run.cons ⟨_, _, rfl, rfl, rfl, rfl, rfl⟩ (Run.cons rfl (Run.cons rfl
    (Run.cons ⟨_, _, _, rfl, rfl, rfl, rfl, Or.inl rfl, rfl⟩ (Run.cons ⟨_, _, _, rfl, rfl, rfl, rfl, rfl⟩
    (Run.cons ⟨_, rfl, rfl, rfl⟩ (Run.cons ⟨by decide, rfl, by decide, rfl⟩
    (Run.cons ⟨_, _, rfl, rfl, rfl, rfl, rfl⟩ .nil))))))))))),
    ⟨_, _, _, _, rfl, rfl, rfl⟩, rfl, rfl, ⟨_, _, _, rfl, rfl, rfl, rfl⟩, rfl, rfl⟩

/-! ## Heartbeats of earlier runs -/

/-- A storage server registers when no heartbeat thread of another run still serves its id, and a heartbeat thread
introduces itself when no other run has the slot of its id. -/
def InTurn (s : Connections) (e : ConnEvent) : Prop :=
  match e with
  | .register c id => ∀ th life d th' life', s.threads c = some th → th.peer = .storage life →
      s.threads d = some th' → th'.phase = .serving id → th'.peer = .heartbeat life' → life' = life
  | .introduce c id => ∀ th life k, s.threads c = some th → th.peer = .heartbeat life →
      findSlot id s.slots = some k → k.life = life
  | _ => True

/-- The heartbeat thread of the slot's own run gives up, on a connection that has failed or is not open any more. -/
def OwnFailure (s : Connections) (e : ConnEvent) (k : SsSlot) : Prop :=
  ∃ c th, e = .heartbeatLost c ∧ s.threads c = some th ∧ th.peer = .heartbeat k.life ∧
    (s.failed c = true ∨ s.fds th.sock.fd ≠ some c) ∧ ∀ x, k.hbSock = some x → x = th.sock

/-- The step is of a registration of that id. -/
def RegistersId (s : Connections) (e : ConnEvent) (id : Int32) : Prop :=
  (∃ c, e = .register c id) ∨ ∃ c th, e = .finishRegister c ∧ s.threads c = some th ∧ th.phase = .closingOld id []

/-- The heartbeat threads, the slot and the registration of an id are of one run of the storage server. -/
structure Tied (s : Connections) : Prop where
  threaded : Threaded s
  seen : ∀ c th, s.threads c = some th → th.peer ∈ s.connected
  once : ∀ c d th th', s.threads c = some th → s.threads d = some th' → th.peer = th'.peer → th.peer ≠ .client →
    c = d
  serving : ∀ c th id life k, s.threads c = some th → th.phase = .serving id → th.peer = .heartbeat life →
    findSlot id s.slots = some k → k.life = life
  closing : ∀ c d th th' id old life life', s.threads c = some th → th.phase = .closingOld id old →
    th.peer = .storage life → s.threads d = some th' → th'.phase = .serving id → th'.peer = .heartbeat life' →
    life' = life
  hb : ∀ id k x, findSlot id s.slots = some k → k.hbSock = some x → .heartbeat k.life ∈ s.connected ∧
    ∀ c th, s.threads c = some th → th.peer = .heartbeat k.life → th.sock = x

section Tied
variable {s t : Connections} {e : ConnEvent} {c d : Nat} {th th' : ConnThread} {id : Int32} {k k' : SsSlot}

theorem Tied.start (base : Nat) : Tied (startListening base) := by
  have hthread : ∀ {c th}, (startListening base).threads c ≠ some th := Option.some_ne_none _ |>.symm
  have hslot : ∀ {id k}, findSlot id (startListening base).slots ≠ some k := Option.some_ne_none _ |>.symm
  exact
    { threaded := ⟨fun _ _ h => absurd h hthread, fun _ _ _ _ h => absurd h hthread⟩
      seen := fun _ _ h => absurd h hthread
      once := fun _ _ _ _ h => absurd h hthread
      serving := fun _ _ _ _ _ h => absurd h hthread
      closing := fun _ _ _ _ _ _ _ _ h => absurd h hthread
      hb := fun _ _ _ h => absurd h hslot }

theorem Tied.seen_step (hs : Tied s) (h : ConnStep s e t) (hd : t.threads d = some th') : th'.peer ∈ t.connected := by
  obtain ⟨hsub, hnew⟩ := connected_of_step h
  rcases thread_of_step h hd with ⟨peer, n, he, -, rfl⟩ | ⟨th, hth, -, hpeer, -⟩
  · exact (hnew peer n he).1
  · rw [hpeer]
    exact hsub (hs.seen d th hth)

/-- The peer of a connection that is just accepted is of no thread yet. -/
theorem Tied.accept_new {peer : Peer} {n : Nat} (hs : Tied s) (h : ConnStep s e t) (he : e = .accept peer n)
    (hc : s.threads c = some th) (hclient : peer ≠ .client) : th.peer ≠ peer := by
  rintro rfl
  rcases ((connected_of_step h).2 th.peer n he).2 with hpeer | hnot
  · exact hclient hpeer
  · exact hnot (hs.seen c th hc)

theorem Tied.once_step (hs : Tied s) (h : ConnStep s e t) (hc : t.threads c = some th) (hd : t.threads d = some th')
    (hsame : th.peer = th'.peer) (hclient : th.peer ≠ .client) : c = d := by
  rcases thread_of_step h hc with ⟨peer, n, he, hcn, rfl⟩ | ⟨th₀, hth₀, -, hpeer₀, -⟩ <;>
    rcases thread_of_step h hd with ⟨peer', n', he', hdn, rfl⟩ | ⟨th₁, hth₁, -, hpeer₁, -⟩
  · rw [hcn, hdn]
  · exact absurd (hpeer₁.symm.trans hsame.symm) (hs.accept_new h he hth₁ hclient)
  · exact absurd (hpeer₀.symm.trans hsame) (hs.accept_new h he' hth₀ (hsame ▸ hclient))
  · exact hs.once c d th₀ th₁ hth₀ hth₁ (hpeer₀.symm.trans (hsame.trans hpeer₁))
      (hpeer₀ ▸ hclient)

/-- A heartbeat thread that serves an id has done so before, or introduces itself. -/
theorem serving_of_step {life : Nat} (h : ConnStep s e t) (hd : t.threads d = some th')
    (hserving : th'.phase = .serving id) (hpeer : th'.peer = .heartbeat life) :
    ∃ th, s.threads d = some th ∧ th.sock = th'.sock ∧ th.peer = .heartbeat life ∧
      (th.phase = .serving id ∨ e = .introduce d id ∧ s.mutex = none) := by
  rcases thread_of_step h hd with ⟨peer, n, -, -, rfl⟩ | ⟨th, hth, hsock, hpeer', hsame | hchange⟩
  · cases hserving
  · exact ⟨th, hth, hsock.symm, hpeer'.symm.trans hpeer, Or.inl (hsame ▸ hserving)⟩
  · rw [hserving] at hchange
    cases hchange with
    | finishRegister hclosing hstorage =>
      rw [← hpeer', hpeer] at hstorage
      cases hstorage
    | introduce hgreet hhb hfree => exact ⟨th, hth, hsock.symm, hpeer'.symm.trans hpeer, Or.inr ⟨rfl, hfree⟩⟩

/-- A slot changes its run only when a registration ends. -/
theorem life_of_step (h : ConnStep s e t) (hk' : findSlot id t.slots = some k') :
    (∃ k, findSlot id s.slots = some k ∧ k.life = k'.life) ∨
      ∃ c th, e = .finishRegister c ∧ s.threads c = some th ∧ th.phase = .closingOld id [] ∧
        th.peer = .storage k'.life := by
  rcases slot_of_step h hk' with hk | ⟨c, th, life, he, hc, hphase, hpeer, rfl⟩ | ⟨k, hk, hchange⟩
  · exact Or.inl ⟨k', hk, rfl⟩
  · exact Or.inr ⟨c, th, he, hc, hphase, hpeer⟩
  · cases hchange <;> exact Or.inl ⟨k, hk, rfl⟩

theorem Tied.serving_step {life : Nat} (hs : Tied s) (hturn : InTurn s e) (h : ConnStep s e t)
    (hd : t.threads d = some th') (hserving : th'.phase = .serving id) (hpeer : th'.peer = .heartbeat life)
    (hk' : findSlot id t.slots = some k') : k'.life = life := by
  obtain ⟨th, hth, -, hhb, hbefore | ⟨rfl, -⟩⟩ := serving_of_step h hd hserving hpeer
  · rcases life_of_step h hk' with ⟨k, hk, hlife⟩ | ⟨c, th₁, -, hc, hphase, hstorage⟩
    · rw [← hlife]
      exact hs.serving d th id life k hth hbefore hhb hk
    · exact (hs.closing c d th₁ th id [] _ life hc hphase hstorage hth hbefore hhb).symm
  · rcases life_of_step h hk' with ⟨k, hk, hlife⟩ | ⟨c, th₁, he, -⟩
    · rw [← hlife]
      exact hturn th life k hth hhb hk
    · cases he

theorem Tied.closing_step {old : List Sock} {life life' : Nat} (hs : Tied s) (hturn : InTurn s e)
    (h : ConnStep s e t) (hc : t.threads c = some th) (hclosing : th.phase = .closingOld id old)
    (hstorage : th.peer = .storage life) (hd : t.threads d = some th') (hserving : th'.phase = .serving id)
    (hpeer : th'.peer = .heartbeat life') : life' = life := by
  obtain ⟨th₁, hth₁, -, hhb, hbefore⟩ := serving_of_step h hd hserving hpeer
  rcases thread_of_step h hc with ⟨peer, n, -, -, rfl⟩ | ⟨th₀, hth₀, -, hpeer₀, hphase⟩
  · cases hclosing
  · rw [hpeer₀] at hstorage
    rcases hbefore with hbefore | ⟨rfl, hfree⟩
    · rcases hphase with hsame | hchange
      · exact hs.closing c d th₀ th₁ id old life life' hth₀ (hsame ▸ hclosing) hstorage hth₁ hbefore hhb
      · rw [hclosing] at hchange
        cases hchange with
        | register => exact hturn th₀ life d th₁ life' hth₀ hstorage hth₁ hbefore hhb
        | closeOld hphase₀ => exact hs.closing c d th₀ th₁ id _ life life' hth₀ hphase₀ hstorage hth₁ hbefore hhb
    · rcases hphase with hsame | hchange
      · have hbusy : s.Closing id := ⟨c, th₀, old, hth₀, hsame ▸ hclosing⟩
        exact absurd hbusy (hs.threaded.not_closing hfree)
      · rw [hclosing] at hchange
        cases hchange

theorem Tied.hb_step {x : Sock} (hs : Tied s) (hturn : InTurn s e) (h : ConnStep s e t)
    (hk' : findSlot id t.slots = some k') (hx : k'.hbSock = some x) : .heartbeat k'.life ∈ t.connected ∧
      ∀ c th, t.threads c = some th → th.peer = .heartbeat k'.life → th.sock = x := by
  obtain ⟨hsub, hnew⟩ := connected_of_step h
  -- the threads of that peer are those of before
  have hthreads {life : Nat} (hseen : .heartbeat life ∈ s.connected)
      (hold : ∀ c th, s.threads c = some th → th.peer = .heartbeat life → th.sock = x) :
      ∀ c th, t.threads c = some th → th.peer = .heartbeat life → th.sock = x := by
    intro c th hc hpeer
    rcases thread_of_step h hc with ⟨peer, n, he, -, rfl⟩ | ⟨th₀, hth₀, hsock₀, hpeer₀, -⟩
    · rcases (hnew peer n he).2 with hclient | hnot
      · rw [hclient] at hpeer
        cases hpeer
      · have hpeer : peer = .heartbeat life := hpeer
        rw [hpeer] at hnot
        exact absurd hseen hnot
    · rw [hsock₀]
      exact hold c th₀ hth₀ (hpeer₀.symm.trans hpeer)
  rcases slot_of_step h hk' with hk | ⟨_, _, _, -, -, -, -, rfl⟩ | ⟨k, hk, hchange⟩
  · obtain ⟨hseen, hold⟩ := hs.hb id k' x hk hx
    exact ⟨hsub hseen, hthreads hseen hold⟩
  · cases hx
  · cases hchange with
    | register =>
      obtain ⟨hseen, hold⟩ := hs.hb id k x hk hx
      exact ⟨hsub hseen, hthreads hseen hold⟩
    | introduce hthread hpeer =>
      rename_i c life th
      obtain rfl := Option.some.inj hx
      have hlife := hturn th life k hthread hpeer hk
      have hseen : .heartbeat k.life ∈ s.connected := by
        rw [hlife, ← hpeer]
        exact hs.seen c th hthread
      refine ⟨hsub hseen, hthreads hseen fun c' th' hc' hpeer' => ?_⟩
      have hsame : th'.peer = th.peer := by rw [hpeer', hpeer, hlife]
      obtain rfl := hs.once c' c th' th hc' hthread hsame (by rw [hpeer']; exact nofun)
      exact congrArg ConnThread.sock (Option.some.inj (hc'.symm.trans hthread))
    | heartbeatLost => cases hx
    | expire => cases hx

/-- **Every step keeps the runs tied** when registrations and introductions come in turn. -/
theorem Tied.step (hs : Tied s) (hturn : InTurn s e) (h : ConnStep s e t) : Tied t where
  threaded := hs.threaded.step h
  seen := fun _ _ => hs.seen_step h
  once := fun _ _ _ _ => hs.once_step h
  serving := fun _ _ _ _ _ => hs.serving_step hturn h
  closing := fun _ _ _ _ _ _ _ _ => hs.closing_step hturn h
  hb := fun _ _ _ => hs.hb_step hturn h

theorem failed_of_recvFails (h : s.RecvFails th) :
    s.failed th.sock.conn = true ∨ s.fds th.sock.fd ≠ some th.sock.conn := by
  rcases h with hfailed | hall
  · exact Or.inl hfailed
  · by_cases hopen : s.fds th.sock.fd = some th.sock.conn
    · rw [hopen] at hall
      exact Or.inl (by simpa using hall)
    · exact Or.inr hopen

/-- **Only its own heartbeat connection deactivates a slot**, outside of registrations and of the monitor, as long as
registrations and introductions come in turn. -/
theorem deactivation_in_turn {base : Nat} {es : List ConnEvent}
    (h : Run (Guarded InTurn ConnStep) (startListening base) es s) (hstep : ConnStep s e t)
    (hk : findSlot id s.slots = some k) (hk' : findSlot id t.slots = some k')
    (hdown : (k.active = true ∧ k'.active = false) ∨ (k.hbSock ≠ none ∧ k'.hbSock = none)) :
    OwnFailure s e k ∨ RegistersId s e id ∨ e = .expire id := by
  have hs : Tied s := h.state_invariant (Tied.start base) fun _ _ _ hi hstep => hi.step hstep.1 hstep.2
  rcases slot_of_step hstep hk' with hsame | ⟨c, th, _, he, hc, hphase, -, -⟩ | ⟨k₀, hk₀, hchange⟩
  · obtain rfl := Option.some.inj (hk.symm.trans hsame)
    rcases hdown with ⟨hon, hoff⟩ | ⟨hsome, hnone⟩
    · rw [hon] at hoff
      cases hoff
    · exact absurd hnone hsome
  · exact Or.inr (Or.inl (Or.inr ⟨c, th, he, hc, hphase⟩))
  · obtain rfl := Option.some.inj (hk.symm.trans hk₀)
    cases hchange with
    | register => exact Or.inr (Or.inl (Or.inl ⟨_, rfl⟩))
    | introduce =>
      rcases hdown with ⟨hon, hoff⟩ | ⟨-, hnone⟩
      · rw [show k.active = false from hoff] at hon
        cases hon
      · cases hnone
    | heartbeatLost hthread hserving hpeer hfails =>
      rename_i c life th
      have hlife := hs.serving c th id life k hthread hserving hpeer hk
      rw [← hlife] at hpeer
      refine Or.inl ⟨c, th, rfl, hthread, hpeer, ?_, fun x hx => ?_⟩
      · rw [← (hs.threaded.own c th hthread).1]
        exact failed_of_recvFails hfails
      · exact ((hs.hb id k x hk hx).2 c th hthread hpeer).symm
    | expire => exact Or.inr (Or.inr rfl)

end Tied

/-- Storage server 1 registers, its heartbeat thread introduces itself, and the connection of the heartbeats fails. -/
def heartbeatFails : List ConnEvent :=
  [.accept (.storage 0) 3, .register 3 1, .finishRegister 3, .accept (.heartbeat 0) 4, .introduce 4 1, .fail 4]

theorem deactivation_in_turn_once : ∃ s t k k', Run ConnStep (startListening 3) heartbeatFails s ∧
    ConnStep s (.heartbeatLost 4) t ∧ findSlot 1 s.slots = some k ∧ findSlot 1 t.slots = some k' ∧
    k.active = true ∧ k'.active = false ∧
    (OwnFailure s (.heartbeatLost 4) k ∨ RegistersId s (.heartbeatLost 4) 1 ∨
      ConnEvent.heartbeatLost 4 = .expire 1) := by
  have hregister : InTurn ((startListening 3).accept (.storage 0) 3) (.register 3 1) := by
    intro th life d th' life' _ _ hd hserving _
    by_cases h3 : d = 3
    · subst h3
      obtain rfl := Option.some.inj hd
      cases hserving
    · have hnone : ((startListening 3).accept (.storage 0) 3).threads d = none := Function.update_of_ne h3 _ _
      rw [hnone] at hd
      cases hd
  have hintroduce : InTurn (registeredOnce.accept (.heartbeat 0) 4) (.introduce 4 1) := by
    intro th life k hc hpeer hk
    obtain rfl := Option.some.inj hc
    obtain rfl := Option.some.inj hk
    exact Peer.heartbeat.inj hpeer
  have hrun : ∃ s, Run (Guarded InTurn ConnStep) (startListening 3) heartbeatFails s ∧
      (∃ t, ConnStep s (.heartbeatLost 4) t ∧ findSlot 1 t.slots = some ⟨1, ⟨3, 3⟩, none, false, 0⟩) ∧
      findSlot 1 s.slots = some ⟨1, ⟨3, 3⟩, some ⟨4, 4⟩, true, 0⟩ := by
    refine ⟨_, Run.cons ⟨trivial, by decide, rfl, by decide, rfl⟩
      (Run.cons ⟨hregister, _, _, rfl, rfl, rfl, rfl, rfl⟩ (Run.cons ⟨trivial, _, _, _, rfl, rfl, rfl, rfl⟩
      (Run.cons ⟨trivial, by decide, rfl, by decide, rfl⟩ (Run.cons ⟨hintroduce, _, _, rfl, rfl, rfl, rfl, rfl⟩
      (Run.cons ⟨trivial, rfl⟩ .nil))))), ?_, rfl⟩
    exact ⟨_, ⟨_, _, _, rfl, rfl, rfl, rfl, Or.inl rfl, rfl⟩, rfl⟩
  obtain ⟨s, hrun, ⟨t, hstep, hk'⟩, hk⟩ := hrun
  exact ⟨s, t, _, _, hrun.unguarded, hstep, hk, hk', rfl, rfl,
    deactivation_in_turn hrun hstep hk hk' (Or.inl ⟨rfl, rfl⟩)⟩

/-- Storage server 1 registers and dies, and a second run of it registers and introduces its heartbeats before the
first heartbeat thread has given up. -/
def registeredBefore : List ConnEvent :=
  [.accept (.storage 0) 3, .accept (.heartbeat 0) 4, .register 3 1, .finishRegister 3, .introduce 4 1, .fail 3,
    .fail 4, .accept (.storage 1) 5, .register 5 1, .closeOld 5, .closeOld 5, .finishRegister 5,
    .accept (.heartbeat 1) 3, .introduce 6 1]

/-- **The old heartbeat thread deactivates the new registration**, whose heartbeat connection is well. -/
theorem deactivated_by_old : ∃ s t k k', Run ConnStep (startListening 3) registeredBefore s ∧
    ConnStep s (.heartbeatLost 4) t ∧ findSlot 1 s.slots = some k ∧ findSlot 1 t.slots = some k' ∧
    k.active = true ∧ k'.active = false ∧ k.hbSock = some ⟨3, 6⟩ ∧ k'.hbSock = none ∧
    s.fds 3 = some 6 ∧ s.failed 6 = false ∧
    ¬ (OwnFailure s (.heartbeatLost 4) k ∨ RegistersId s (.heartbeatLost 4) 1 ∨
      ConnEvent.heartbeatLost 4 = .expire 1) := by
  have hrun : ∃ s, Run ConnStep (startListening 3) registeredBefore s ∧
      (∃ t, ConnStep s (.heartbeatLost 4) t ∧ findSlot 1 t.slots = some ⟨1, ⟨5, 5⟩, none, false, 1⟩) ∧
      findSlot 1 s.slots = some ⟨1, ⟨5, 5⟩, some ⟨3, 6⟩, true, 1⟩ ∧ s.fds 3 = some 6 ∧ s.failed 6 = false ∧
      s.threads 4 = some ⟨⟨4, 4⟩, .heartbeat 0, .serving 1⟩ := by
    refine ⟨_, Run.cons ⟨by decide, rfl, by decide, rfl⟩ (Run.cons ⟨by decide, rfl, by decide, rfl⟩
      (Run.cons ⟨_, _, rfl, rfl, rfl, rfl, rfl⟩ (Run.cons ⟨_, _, _, rfl, rfl, rfl, rfl⟩
      (Run.cons ⟨_, _, rfl, rfl, rfl, rfl, rfl⟩ (Run.cons rfl (Run.cons rfl
      (Run.cons ⟨by decide, rfl, by decide, rfl⟩ (Run.cons ⟨_, _, rfl, rfl, rfl, rfl, rfl⟩
      (Run.cons ⟨_, _, _, _, rfl, rfl, rfl⟩ (Run.cons ⟨_, _, _, _, rfl, rfl, rfl⟩
      (Run.cons ⟨_, _, _, rfl, rfl, rfl, rfl⟩ (Run.cons ⟨by decide, rfl, by decide, rfl⟩
      (Run.cons ⟨_, _, rfl, rfl, rfl, rfl, rfl⟩ .nil))))))))))))), ?_, rfl, rfl, rfl, rfl⟩
    exact ⟨_, ⟨_, _, _, rfl, rfl, rfl, rfl, Or.inl rfl, rfl⟩, rfl⟩
  obtain ⟨s, hrun, ⟨t, hstep, hk'⟩, hk, hopen, halive, hold⟩ := hrun
  refine ⟨s, t, _, _, hrun, hstep, hk, hk', rfl, rfl, rfl, rfl, hopen, halive, ?_⟩
  rintro (⟨c, th, he, hc, hpeer, -⟩ | (⟨c, he⟩ | ⟨c, th, he, -⟩) | he)
  · obtain rfl := ConnEvent.heartbeatLost.inj he
    obtain rfl := Option.some.inj (hold.symm.trans hc)
    cases hpeer
  · cases he
  · cases he
  · cases he

end NetworkFileShare
