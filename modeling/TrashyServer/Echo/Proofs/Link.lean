/-
One connection of the network, seen apart from all the others.

The client's connections share an array and the service's a loop, yet
what happens to the bytes of one connection is a protocol of three: the
client's end, the wire, the instance (`Link`). `link_step` says that a
step of the network does to every connection one of the few things of
`Link.Step`, or nothing, so an invariant of `Link.Step` holds of every
connection in every interleaving (`links_always`).

`Carried` is the invariant that the wire carries: what one side has
written is what the other has read followed by what is on the wire.
-/
import TrashyServer.Echo.Net
import TrashyServer.Echo.Proofs.Ownership

namespace TrashyServer.Echo

open Runs

-- ======================================================== what a client does

/-- `write_bytes` puts out the array from the front, and returns true
exactly when it has put out all of it. -/
theorem writeBytes_spec (sends : List (Option Nat)) (buff : Str) :
    (writeBytes sends buff).2 <+: buff
      ∧ ((writeBytes sends buff).1 = true → (writeBytes sends buff).2 = buff) := by
  induction sends generalizing buff with
  | nil => exact ⟨List.nil_prefix, fun h => nomatch h⟩
  | cons room sends ih =>
      rw [writeBytes]
      split
      · exact ⟨List.nil_prefix, fun h => nomatch h⟩
      · next size hle _ =>
        split
        · exact ⟨List.nil_prefix, fun h => nomatch h⟩
        · split
          · next hall =>
            exact ⟨List.take_prefix .., fun _ => List.take_of_length_le hall⟩
          · obtain ⟨hpre, hok⟩ := ih (buff.drop size)
            constructor
            · conv => rhs; rw [← List.take_append_drop size buff]
              exact (List.prefix_append_right_inj _).mpr hpre
            · intro htrue
              have hrest := hok htrue
              dsimp only
              rw [hrest, List.take_append_drop]

/-- Everything the client can do to a connection. -/
inductive Client.Serves (buff : Buff) (p : Peer) (ev : PollEvent) :
    Buff → Peer → Prop
  | read (d : Received) (hin : ev.epollin = true) (hrecv : ev.recv = some d)
      (hne : d.val ≠ []) :
      Serves buff p ev (Buff.holding d) ((p.tookIn d.val).mod ⟨false, true⟩)
  | readFails (hin : ev.epollin = true) :
      Serves buff p ev (Buff.holding ⟨[], Nat.zero_le _⟩) p.closeConn
  | write (hin : ev.epollin = false) (hout : ev.epollout = true) :
      Serves buff p ev buff ((p.putOut true buff.val).mod ⟨true, false⟩)
  | writeFails (taken : Str) (hin : ev.epollin = false)
      (hout : ev.epollout = true) (htaken : taken <+: buff.val) :
      Serves buff p ev buff (p.putOut false taken).closeConn
  | error : Serves buff p ev buff p.closeConn
  | nothing : Serves buff p ev buff p

theorem Client.serve_cases (buff : Buff) (p : Peer) (ev : PollEvent) :
    Client.Serves buff p ev (Client.serve buff p ev).1
      (Client.serve buff p ev).2 := by
  unfold Client.serve
  split
  · next hin =>
    cases hrecv : ev.recv with
    | none => exact .readFails hin
    | some d =>
        by_cases hd : d.val = []
        · have hnil : d = ⟨[], Nat.zero_le _⟩ := Subtype.ext hd
          subst hnil
          exact .readFails hin
        · have hok : (!d.val.isEmpty) = true := by simpa using hd
          simp only [readOnce, hok, if_true, Option.map_some, Option.getD_some]
          exact .read d hin hrecv hd
  · next hin =>
    have hin : ev.epollin = false := by simpa using hin
    split
    · next hout =>
      obtain ⟨hpre, hall⟩ := writeBytes_spec ev.sends buff.val
      generalize writeBytes ev.sends buff.val = r at hpre hall
      obtain ⟨ok, taken⟩ := r
      cases ok with
      | true =>
          obtain rfl : taken = buff.val := hall rfl
          exact .write hin hout
      | false => exact .writeFails taken hin hout hpre
    · split
      · exact .error
      · exact .nothing

-- ====================================================== what a callback does

namespace Conn

theorem callback_received {c : Conn} (h : c.Core) (e : Event) :
    (c.callback e).received = c.received ++ c.takes e := by
  obtain ⟨n, hmove⟩ := callback_relays h e
  exact congrArg Relay.inp hmove

/-- What a callback puts out comes off the front of the queue, what it
has just taken in included. -/
theorem callback_sent {c : Conn} (h : c.Core) (e : Event) :
    ∃ n, (c.callback e).sent
      = c.sent ++ (c.pending ++ c.takes e).take n := by
  obtain ⟨n, hmove⟩ := callback_relays h e
  refine ⟨n, ?_⟩
  have hpend : ((c.relay h).recv (c.takes e)).pending
      = c.pending ++ c.takes e := by
    refine Relay.pending_of_eq ?_
    show c.received ++ c.takes e = c.sent ++ (c.pending ++ c.takes e)
    rw [← List.append_assoc, ← h.conserve]
  rw [← hpend]
  exact (congrArg Relay.out hmove).trans (Relay.out_send ..)

/-- Nothing has happened to the bytes of an instance. -/
structure SameBytes (c c' : Conn) : Prop where
  mWlist : c'.mWlist = c.mWlist
  received : c'.received = c.received
  sent : c'.sent = c.sent
  queued : c'.queued = c.queued
  released : c'.released = c.released

theorem SameBytes.refl (c : Conn) : SameBytes c c := ⟨rfl, rfl, rfl, rfl, rfl⟩

theorem SameBytes.core {c c' : Conn} (h : SameBytes c c') (hc : c.Core) :
    c'.Core :=
  hc.of_eq h.mWlist h.received h.sent h.queued h.released

theorem SameBytes.trans {a b c : Conn} (h : SameBytes a b)
    (h' : SameBytes b c) : SameBytes a c :=
  ⟨h'.mWlist.trans h.mWlist, h'.received.trans h.received,
    h'.sent.trans h.sent, h'.queued.trans h.queued,
    h'.released.trans h.released⟩

end Conn

-- ====================================================== what recv has answered

theorem prefix_of_answers {stream d : Str} {closed : Bool} (hne : d ≠ [])
    (h : answers stream closed (some d) = true) : d <+: stream := by
  simp only [answers] at h
  rw [if_neg (by simpa using hne)] at h
  exact List.isPrefixOf_iff_prefix.mp h

theorem Conn.takes_prefix {c : Conn} {e : Event} {stream : Str} {closed : Bool}
    (h : (!e.reads || answers stream closed (e.recv.map Subtype.val)) = true) :
    c.takes e <+: stream := by
  unfold Conn.takes
  split
  · unfold Event.chunk
    split
    · next hreads =>
      rw [hreads, Bool.not_true, Bool.false_or] at h
      cases hrecv : e.recv with
      | none => exact List.nil_prefix
      | some d =>
          by_cases hd : d.val = []
          · rw [Option.map_some, Option.getD_some, hd]
            exact List.nil_prefix
          · rw [hrecv, Option.map_some] at h
            exact prefix_of_answers hd h
    · exact List.nil_prefix
  · exact List.nil_prefix

-- ============================================================ one connection

/-- One connection: the client's end, the wire, the instance. -/
structure Link where
  peer : Peer
  wire : Wire
  inst : Conn

/-- What a step of the network can do to one connection, the client's
array holding `buff`. -/
inductive Link.Step (buff : Buff) : Link → Link → Prop
  /-- The instance is made or destroyed. -/
  | still {p : Peer} {w : Wire} {c c' : Conn} (h : c.SameBytes c') :
      Step buff ⟨p, w, c⟩ ⟨p, w, c'⟩
  /-- The client handles an event. -/
  | peer {p p' : Peer} {w : Wire} {c : Conn} {ev : PollEvent} {buff' : Buff}
      {events : Interest} (hwatch : p.interest = some events)
      (hrep : ev.reported events = true)
      (hans : ∀ d : Received, ev.epollin = true → ev.recv = some d →
        d.val ≠ [] → d.val <+: w.toClient)
      (hserve : Client.Serves buff p ev buff' p') :
      Step buff ⟨p, w, c⟩ ⟨p', w.peerMoved p p', c⟩
  /-- The service runs a callback. -/
  | conn {p : Peer} {w : Wire} {c : Conn} {e : Event}
      (hans : c.takes e <+: w.toService) :
      Step buff ⟨p, w, c⟩ ⟨p, w.connMoved c (c.callback e), c.callback e⟩

namespace Net

/-- Connection `i`, once the client has made it. -/
def link (n : Net) (i : Nat) : Option Link :=
  match n.client.peers[i]?, n.wires[i]? with
  | some p, some w => some ⟨p, w, n.inst i⟩
  | _, _ => none

theorem link_eq_some {n : Net} {i : Nat} {l : Link} (h : n.link i = some l) :
    n.client.peers[i]? = some l.peer ∧ n.wires[i]? = some l.wire
      ∧ n.inst i = l.inst := by
  unfold link at h
  split at h
  · next p w hp hw =>
    cases h
    exact ⟨hp, hw, rfl⟩
  · cases h

theorem link_eq_none {n : Net} {i : Nat} (h : n.client.peers.length ≤ i) :
    n.link i = none := by
  unfold link
  rw [List.getElem?_eq_none h]

theorem link_some {n : Net} {i : Nat} {p : Peer} {w : Wire}
    (hp : n.client.peers[i]? = some p) (hw : n.wires[i]? = some w) :
    n.link i = some ⟨p, w, n.inst i⟩ := by
  unfold link
  rw [hp, hw]

-- ============================================================ the step, inverted

/-- Everything one step of the network can do. -/
inductive Steps (n : Net) : NetEvent → Net → Prop
  | connected (hleft : n.client.left ≠ 0) :
      Steps n (.startConn true true)
        { n with
          client := { n.client with
            left := n.client.left - 1, peers := n.client.peers ++ [Peer.addfd] }
          wires := n.wires ++ [⟨[], []⟩] }
  | notConnected {socketOk connectOk : Bool} (hleft : n.client.left ≠ 0) :
      Steps n (.startConn socketOk connectOk)
        { n with client := { n.client with left := n.client.left - 1 } }
  | accepted {evError : Bool} {fd : Option {fd : Nat // 0 < fd}}
      (hup : n.service.down = false) (hstart : n.service.stopped = false)
      (hroom : (!evError && fd.isSome) = true →
        n.service.conns.length < n.client.peers.length) :
      Steps n (.accept evError fd)
        { n with service := n.service.listenAccept evError fd }
  | peer {i : Nat} {ev : PollEvent} {p p' : Peer} {w : Wire} {buff' : Buff}
      {events : Interest} (hleft : n.client.left = 0)
      (hp : n.client.peers[i]? = some p) (hw : n.wires[i]? = some w)
      (hwatch : p.interest = some events) (hrep : ev.reported events = true)
      (hans : ∀ d : Received, ev.epollin = true → ev.recv = some d →
        d.val ≠ [] → d.val <+: w.toClient)
      (hserve : Client.Serves n.client.buff p ev buff' p') :
      Steps n (.peer i ev)
        { n with
          client :=
            { n.client with buff := buff', peers := n.client.peers.set i p' }
          wires := n.wires.set i (w.peerMoved p p') }
  | callback {i : Nat} {e : Event} {p : Peer} {w : Wire} {c : Conn}
      (hup : n.service.down = false) (hp : n.client.peers[i]? = some p)
      (hw : n.wires[i]? = some w) (hc : n.service.conns[i]? = some c)
      (hwatch : c.mIo.isSome = true) (hstart : c.stopped = false)
      (hans : c.takes e <+: w.toService) :
      Steps n (.callback i e)
        { n with
          service := { n.service with
            conns := n.service.conns.set i (c.callback e) }
          wires := n.wires.set i (w.connMoved c (c.callback e)) }
  | shutdown (hup : n.service.down = false) :
      Steps n .shutdown { n with service := n.service.destroy }

/-- What a step of the client has done. -/
theorem steps_of_peerStep {n n' : Net} {i : Nat} {ev : PollEvent} {p : Peer}
    {w : Wire} (hleft : n.client.left = 0) (hp : n.client.peers[i]? = some p)
    (hw : n.wires[i]? = some w) (h : n.peerStep i ev p w = some n') :
    n.Steps (.peer i ev) n' := by
  unfold peerStep at h
  split at h
  · cases h
  · next events hwatch =>
    split at h
    · next hcond =>
      obtain ⟨hrep, hans⟩ := Bool.and_eq_true_iff.mp hcond
      cases h
      refine .peer hleft hp hw hwatch hrep ?_
        (Client.serve_cases n.client.buff p ev)
      intro d hin hrecv hne
      rw [hin, Bool.not_true, Bool.false_or, hrecv] at hans
      exact prefix_of_answers hne hans
    · cases h

/-- What a callback of the service has done. -/
theorem steps_of_connStep {n n' : Net} {i : Nat} {e : Event} {p : Peer}
    {w : Wire} {c : Conn} (hp : n.client.peers[i]? = some p)
    (hw : n.wires[i]? = some w) (hc : n.service.conns[i]? = some c)
    (h : n.connStep i e p w c = some n') : n.Steps (.callback i e) n' := by
  unfold connStep at h
  split at h
  · cases h
  · split at h
    · next hcond =>
      obtain ⟨s, hs, rfl⟩ := Option.map_eq_some_iff.mp h
      obtain ⟨hup, hcase⟩ := Service.step_cases hs
      rcases hcase with
        ⟨_, _, hev, -⟩ | ⟨_, _, c₀, c', hev, hc₀, hc', rfl⟩ | ⟨hev, -⟩
      · cases hev
      · cases hev
        obtain rfl := Option.some.inj (hc.symm.trans hc₀)
        obtain ⟨hwatch, rfl⟩ := Conn.step_eq_some hc'
        obtain ⟨hdue, hans⟩ := Bool.and_eq_true_iff.mp hcond
        have hstart : c.stopped = false := by
          simpa using (Bool.and_eq_true_iff.mp hdue).1
        exact .callback hup hp hw hc hwatch hstart (Conn.takes_prefix hans)
      · cases hev
    · cases h

theorem step_cases {n n' : Net} {ev : NetEvent} (h : n.step ev = some n') :
    n.Steps ev n' := by
  cases ev with
  | startConn socketOk connectOk =>
      simp only [step] at h
      split at h
      · cases h
      · next hleft =>
        cases h
        cases socketOk with
        | false => exact .notConnected hleft
        | true =>
            cases connectOk with
            | false => exact .notConnected hleft
            | true => exact .connected hleft
  | accept evError fd =>
      simp only [step] at h
      split at h
      · cases h
      · next hroom =>
        obtain ⟨s, hs, rfl⟩ := Option.map_eq_some_iff.mp h
        obtain ⟨hup, hcase⟩ := Service.step_cases hs
        rcases hcase with
          ⟨er, fd', hev, rfl⟩ | ⟨_, _, _, _, hev, -⟩ | ⟨hev, -⟩
        · cases hev
          simp only [Bool.or_eq_true, not_or, Bool.not_eq_true] at hroom
          refine .accepted hup hroom.1 fun hok => ?_
          have hlt := hroom.2
          rw [hok, Bool.true_and, decide_eq_false_iff_not] at hlt
          exact Nat.lt_of_not_le hlt
        · cases hev
        · cases hev
  | peer i ev =>
      simp only [step] at h
      split at h
      · next hleft =>
        split at h
        · next hp hw => exact steps_of_peerStep hleft hp hw h
        · cases h
      · cases h
  | callback i e =>
      simp only [step] at h
      split at h
      · next hp hw hc => exact steps_of_connStep hp hw hc h
      · cases h
  | shutdown =>
      obtain ⟨s, hs, rfl⟩ := Option.map_eq_some_iff.mp h
      obtain ⟨hup, hcase⟩ := Service.step_cases hs
      rcases hcase with ⟨_, _, hev, -⟩ | ⟨_, _, _, _, hev, -⟩ | ⟨-, rfl⟩
      · cases hev
      · cases hev
      · exact .shutdown hup

/-- Every step of the network is a step of the service, or one the
service does not see. -/
theorem step_service {n n' : Net} {ev : NetEvent} (h : n.step ev = some n') :
    n'.service = n.service ∨ ∃ e, n.service.step e = some n'.service := by
  cases step_cases h with
  | connected | notConnected | peer => exact .inl rfl
  | accepted hup => exact .inr ⟨_, by rw [Service.step, if_neg (by simp [hup])]⟩
  | shutdown hup =>
      exact .inr ⟨.shutdown, by rw [Service.step, if_neg (by simp [hup])]⟩
  | @callback i e _ _ _ hup _ _ hc hwatch _ =>
      refine .inr ⟨.callback i e, ?_⟩
      rw [Service.step, if_neg (by simp [hup])]
      simp only [hc, Conn.step, hwatch, if_true, Option.map_some]

-- =============================================================== the shape

/-- What the parts of the network have to do with each other. -/
structure Shape (n : Net) : Prop where
  wired : n.wires.length = n.client.peers.length
  accepted : n.service.conns.length ≤ n.client.peers.length

theorem shape_new (nums : Nat) (buff : Buff) : (new nums buff).Shape :=
  ⟨rfl, Nat.le_refl _⟩

/-- A connection that the client has not made yet has no instance. -/
theorem Shape.inst_new {n : Net} (h : n.Shape) {i : Nat}
    (hi : n.client.peers.length ≤ i) : n.inst i = Conn.new 0 := by
  unfold inst
  rw [List.getElem?_eq_none (Nat.le_trans h.accepted hi)]
  rfl

theorem length_listenAccept (s : Service) (evError : Bool)
    (fd : Option {fd : Nat // 0 < fd}) :
    (s.listenAccept evError fd).conns.length
      = s.conns.length + if !evError && fd.isSome then 1 else 0 := by
  unfold Service.listenAccept
  cases evError with
  | true => rfl
  | false =>
      cases fd with
      | none => rfl
      | some fd => exact List.length_append

theorem shape_step {n n' : Net} {ev : NetEvent} (h : n.Shape)
    (hstep : n.step ev = some n') : n'.Shape := by
  obtain ⟨hwired, haccepted⟩ := h
  cases step_cases hstep with
  | connected =>
      refine ⟨?_, ?_⟩
      · rw [List.length_append, List.length_append, hwired]
        rfl
      · rw [List.length_append]
        exact Nat.le_add_right_of_le haccepted
  | notConnected => exact ⟨hwired, haccepted⟩
  | accepted _ _ hroom =>
      refine ⟨hwired, ?_⟩
      rw [length_listenAccept]
      split
      · next hok => exact hroom hok
      · exact haccepted
  | peer =>
      refine ⟨?_, ?_⟩
      · rw [List.length_set, List.length_set, hwired]
      · rw [List.length_set]
        exact haccepted
  | callback =>
      refine ⟨?_, ?_⟩
      · rw [List.length_set, hwired]
      · rw [List.length_set]
        exact haccepted
  | shutdown =>
      refine ⟨hwired, ?_⟩
      unfold Service.destroy
      rw [deleteAll_length]
      exact haccepted

-- ==================================================== one connection of it

/-- The instance of position `i` in a list of instances. -/
theorem inst_set {cs : List Conn} {i : Nat} {c : Conn} (hi : i < cs.length)
    (c' : Conn) (j : Nat) :
    (cs.set i c')[j]?.getD c = if i = j then c' else cs[j]?.getD c := by
  rw [List.getElem?_set]
  split
  · next hij =>
    subst hij
    rfl
  · rfl

/-- Accepting a connection moves no byte, -/
theorem inst_listenAccept (s : Service) (evError : Bool)
    (fd : Option {fd : Nat // 0 < fd}) (j : Nat) :
    Conn.SameBytes (s.conns[j]?.getD (Conn.new 0))
      ((s.listenAccept evError fd).conns[j]?.getD (Conn.new 0)) := by
  rcases Service.listenAccept_cases s evError fd with ⟨b, heq⟩ | ⟨fd', heq⟩
  · rw [heq]
    exact .refl _
  · rw [heq]
    show Conn.SameBytes _ ((s.conns ++ [Conn.new fd'])[j]?.getD _)
    by_cases hj : j < s.conns.length
    · rw [List.getElem?_append_left hj]
      exact .refl _
    · have hle : s.conns.length ≤ j := Nat.le_of_not_lt hj
      rw [List.getElem?_append_right hle, List.getElem?_eq_none hle]
      cases j - s.conns.length with
      | zero => exact ⟨rfl, rfl, rfl, rfl, rfl⟩
      | succ k => exact .refl _

/-- nor does deleting the instances. -/
theorem inst_deleteAll (is : List Nat) (cs : List Conn) (j : Nat) :
    Conn.SameBytes (cs[j]?.getD (Conn.new 0))
      ((Service.deleteAll is cs)[j]?.getD (Conn.new 0)) := by
  induction is generalizing cs with
  | nil => exact .refl _
  | cons i is ih =>
      have hone : Conn.SameBytes (cs[j]?.getD (Conn.new 0))
          ((cs.modify i Conn.destroy)[j]?.getD (Conn.new 0)) := by
        rw [List.getElem?_modify]
        cases cs[j]? with
        | none => exact .refl _
        | some c =>
            show Conn.SameBytes c (if i = j then c.destroy else c)
            split
            · exact ⟨rfl, rfl, rfl, rfl, rfl⟩
            · exact .refl _
      exact hone.trans (ih _)

/-- A connection just made. -/
def freshLink : Link := ⟨Peer.addfd, ⟨[], []⟩, Conn.new 0⟩

/-- The network, one connection at a time: a step of it makes the
connection, leaves it alone, or takes one step of it. -/
theorem link_step {n n' : Net} {ev : NetEvent} (h : n.Shape)
    (hstep : n.step ev = some n') {j : Nat} {l' : Link}
    (hl : n'.link j = some l') :
    (n.link j = none ∧ l' = freshLink) ∨ ∃ l, n.link j = some l
      ∧ (l' = l ∨ Link.Step n.client.buff l l') := by
  obtain ⟨peer, wire, inst⟩ := l'
  obtain ⟨hp', hw', hinst⟩ := link_eq_some hl
  dsimp only at hp' hw' hinst
  subst hinst
  cases step_cases hstep with
  | connected =>
      by_cases hj : j < n.client.peers.length
      · rw [List.getElem?_append_left hj] at hp'
        rw [List.getElem?_append_left (by rw [h.wired]; exact hj)] at hw'
        exact .inr ⟨_, link_some hp' hw', .inl rfl⟩
      · have hle : n.client.peers.length ≤ j := Nat.le_of_not_lt hj
        rw [List.getElem?_append_right hle] at hp'
        rw [List.getElem?_append_right (by rw [h.wired]; exact hle)] at hw'
        obtain rfl := List.mem_singleton.mp (List.mem_of_getElem? hp')
        obtain rfl := List.mem_singleton.mp (List.mem_of_getElem? hw')
        refine .inl ⟨link_eq_none hle, ?_⟩
        rw [freshLink, ← h.inst_new hle]
        rfl
  | notConnected => exact .inr ⟨_, link_some hp' hw', .inl rfl⟩
  | accepted =>
      exact .inr ⟨_, link_some hp' hw', .inr (.still (inst_listenAccept ..))⟩
  | shutdown =>
      exact .inr ⟨_, link_some hp' hw', .inr (.still (inst_deleteAll ..))⟩
  | @peer i ev p p' w buff' events hleft hp hw hwatch hrep hans hserve =>
      by_cases hij : i = j
      · subst hij
        obtain ⟨hi, -⟩ := List.getElem?_eq_some_iff.mp hp
        rw [List.getElem?_set_self hi] at hp'
        rw [List.getElem?_set_self (by rw [h.wired]; exact hi)] at hw'
        cases hp'
        cases hw'
        exact .inr ⟨_, link_some hp hw, .inr (.peer hwatch hrep hans hserve)⟩
      · rw [List.getElem?_set_ne hij] at hp' hw'
        exact .inr ⟨_, link_some hp' hw', .inl rfl⟩
  | @callback i e p w c hup hp hw hc hwatch _ hans =>
      obtain ⟨hi, -⟩ := List.getElem?_eq_some_iff.mp hc
      have hinst : n.inst i = c := by
        rw [Net.inst, hc, Option.getD_some]
      by_cases hij : i = j
      · subst hij
        obtain ⟨hlt, -⟩ := List.getElem?_eq_some_iff.mp hw
        rw [List.getElem?_set_self hlt] at hw'
        cases hw'
        obtain rfl := Option.some.inj (hp.symm.trans hp')
        refine .inr ⟨_, link_some hp hw, .inr ?_⟩
        rw [hinst, Net.inst, inst_set hi, if_pos rfl]
        exact .conn hans
      · rw [List.getElem?_set_ne hij] at hw'
        refine .inr ⟨_, link_some hp' hw', .inl ?_⟩
        rw [Net.inst, inst_set hi, if_neg hij]
        rfl

/-- Every connection of a network has a property. -/
structure Each (I : Link → Prop) (n : Net) : Prop where
  shape : n.Shape
  links : ∀ i l, n.link i = some l → I l

theorem each_new (I : Link → Prop) (nums : Nat) (buff : Buff) :
    Each I (new nums buff) :=
  ⟨shape_new nums buff, fun i l hl => by
    obtain ⟨hp, -, -⟩ := link_eq_some hl
    cases hp⟩

/-- What the steps of one connection keep, the steps of the network keep
of each. -/
theorem each_step {I : Link → Prop} (hfresh : I freshLink)
    (hkeep : ∀ {buff l l'}, I l → Link.Step buff l l' → I l') {n n' : Net}
    {ev : NetEvent} (h : Each I n) (hstep : n.step ev = some n') :
    Each I n' := by
  refine ⟨shape_step h.shape hstep, fun i l hl => ?_⟩
  rcases link_step h.shape hstep hl with ⟨-, rfl⟩ | ⟨l₀, hl₀, rfl | hmove⟩
  · exact hfresh
  · exact h.links i l hl₀
  · exact hkeep (h.links i l₀ hl₀) hmove

/-- So an invariant of one connection holds of every connection of every
run. -/
theorem links_always {I Q : Link → Prop} (hfresh : I freshLink)
    (hkeep : ∀ {buff l l'}, I l → Link.Step buff l l' → I l')
    (hQ : ∀ {l}, I l → Q l) (nums : Nat) (buff : Buff) (es : List NetEvent) :
    Always step (fun n => ∀ i l, n.link i = some l → Q l) (new nums buff) es :=
  always_of_invariant (each_step hfresh hkeep)
    (fun h i l hl => hQ (h.links i l hl)) (each_new I nums buff)

end Net

end TrashyServer.Echo
