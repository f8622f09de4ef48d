/-
The client and the service never wait for each other.

The client waits for input after each write, and the service may have
taken what it was sent and not yet passed it on. `echo_never_stuck`: as
long as a connection is open on both sides and libev has not stopped its
watcher for an error, one of the two has something to do on it that
moves bytes, and it needs no more room on the wire than an array takes,
so no buffer of the kernel filling up brings the two to a halt.
`echo_moves_le`: what there is to do between two writes of the client
comes to an end, each byte having three stages to pass.

The steps between are counted by the pipeline of RoundTrip.lean: `moved`
adds up what has been written and read on either side, and what a step
adds to it the step takes off `hops`, unless the client has put out
something new.
-/
import TrashyServer.Echo.Proofs.Turns

namespace TrashyServer.Echo

open Runs

namespace Link

-- ========================================================== the measures

/-- How many bytes have been written and read on either side. -/
def moved (l : Link) : Nat :=
  l.peer.sent.length + l.inst.received.length + l.inst.sent.length
    + l.peer.received.length

/-- How many stages the bytes on their way have still to pass. -/
def hops (l : Link) : Nat :=
  3 * l.wire.toService.length + 2 * l.inst.pending.length
    + l.wire.toClient.length

theorem hops_stages (l : Link) (h : l.Carried) :
    Pipeline.hops (l.stages h) = l.hops := by
  simp only [stages, Pipeline.hops, Conn.relay_pending,
    Relay.pending_of_eq h.up, Relay.pending_of_eq h.down, hops,
    List.length_cons, List.length_nil]
  omega

theorem outs_stages (l : Link) (h : l.Carried) :
    l.moved = l.peer.sent.length
      + ((l.stages h).map (·.out.length)).sum := by
  show _ = _ + (l.inst.received.length + (l.inst.sent.length
    + (l.peer.received.length + 0)))
  unfold moved
  omega

/-- No byte on its way has more than three stages to pass. -/
theorem hops_le (l : Link) (h : l.Carried) :
    l.hops ≤ 3 * (l.peer.sent.length - l.peer.received.length) := by
  have hle := Pipeline.hops_le (l.stages h)
  have hback := congrArg List.length h.round_trip
  rw [hops_stages, held_stages] at hle
  rw [List.length_append] at hback
  have hthree : (l.stages h).length = 3 := rfl
  rw [hthree] at hle
  omega

/-- What a step moves it takes off `hops`, and what the client puts out
is owed four moves. -/
theorem measure_step {buff : Buff} {l l' : Link} (h : l.Carried)
    (hstep : Link.Step buff l l') :
    ∃ x, l'.peer.sent = l.peer.sent ++ x ∧ l.moved ≤ l'.moved
      ∧ l'.hops + l'.moved = l.hops + l.moved + 4 * x.length := by
  have h' := carried_step h hstep
  obtain ⟨x, a, b, c, hsent, hstages⟩ := step_advances h h' hstep
  have hhops := Pipeline.hops_advance [a, b, c] x (l.stages h)
  have houts := Pipeline.outs_advance [a, b, c] x (l.stages h)
  rw [← hstages, hops_stages, hops_stages] at hhops
  rw [← hstages] at houts
  have hthree : (l.stages h).length = 3 := rfl
  rw [hthree] at hhops
  refine ⟨x, hsent, ?_, ?_⟩
  · rw [outs_stages l h, outs_stages l' h', houts, hsent, List.length_append]
    omega
  · rw [outs_stages l h, outs_stages l' h', houts, hsent, List.length_append]
    omega

end Link

namespace Net

-- ================================================== how much there is to do

/-- What has been moved on connection `i`. -/
def moved (n : Net) (i : Nat) : Nat := (n.link i).elim 0 Link.moved

/-- How many steps of a run move bytes of connection `i`. -/
def movesOf (i : Nat) : Net → List NetEvent → Nat
  | _, [] => 0
  | n, e :: es =>
      match n.step e with
      | none => 0
      | some n' => (if n'.moved i = n.moved i then 0 else 1) + movesOf i n' es

/-- The client makes connections and forgets none. -/
theorem peers_grow {n n' : Net} {ev : NetEvent} (hstep : n.step ev = some n') :
    n.client.peers.length ≤ n'.client.peers.length := by
  cases step_cases hstep with
  | connected =>
      rw [List.length_append]
      exact Nat.le_add_right ..
  | peer => rw [List.length_set]
  | notConnected | accepted | callback | shutdown => exact Nat.le_refl _

/-- So a connection stays one, and has made one of its steps or none. -/
theorem link_stays {n n' : Net} {ev : NetEvent} (h : n.Shape)
    (hstep : n.step ev = some n') {i : Nat} {l : Link}
    (hl : n.link i = some l) :
    ∃ l', n'.link i = some l' ∧ (l' = l ∨ Link.Step n.client.buff l l') := by
  have h' := shape_step h hstep
  obtain ⟨hp, -, -⟩ := link_eq_some hl
  have hlt : i < n'.client.peers.length :=
    Nat.lt_of_lt_of_le (List.getElem?_eq_some_iff.mp hp).1 (peers_grow hstep)
  have hlink := link_some (List.getElem?_eq_getElem hlt)
    (List.getElem?_eq_getElem (by rw [h'.wired]; exact hlt))
  refine ⟨_, hlink, ?_⟩
  rcases link_step h hstep hlink with ⟨hnone, -⟩ | ⟨l₀, hl₀, hcase⟩
  · rw [hl] at hnone
    cases hnone
  · obtain rfl := Option.some.inj (hl.symm.trans hl₀)
    exact hcase

/-- What is moved on a connection whose bytes are carried. -/
theorem movesOf_le {i : Nat} :
    ∀ {es : List NetEvent} {n n' : Net} {l : Link}, n.Shape →
      n.link i = some l → l.Carried → run step n es = some n' →
      ∃ l' x, n'.link i = some l' ∧ l'.peer.sent = l.peer.sent ++ x
        ∧ movesOf i n es + l'.hops ≤ l.hops + 4 * x.length := by
  intro es
  induction es with
  | nil =>
      intro n n' l _ hl _ hrun
      cases hrun
      exact ⟨l, [], hl, (List.append_nil _).symm, by simp [movesOf]⟩
  | cons e es ih =>
      intro n n' l h hl hc hrun
      cases he : n.step e with
      | none => rw [run_cons, he] at hrun; cases hrun
      | some n₁ =>
          rw [run_cons_some es he] at hrun
          obtain ⟨l₁, hl₁, hcase⟩ := link_stays h he hl
          -- a step that moves something takes it off the hops
          have hone : ∃ x, l₁.Carried ∧ l₁.peer.sent = l.peer.sent ++ x
              ∧ (if n₁.moved i = n.moved i then 0 else 1) + l₁.hops
                ≤ l.hops + 4 * x.length := by
            have hmoved : n₁.moved i = l₁.moved ∧ n.moved i = l.moved := by
              unfold moved
              rw [hl, hl₁]
              exact ⟨rfl, rfl⟩
            rw [hmoved.1, hmoved.2]
            rcases hcase with rfl | hstep
            · exact ⟨[], hc, (List.append_nil _).symm, by simp⟩
            · obtain ⟨x, hsent, hle, hsum⟩ := Link.measure_step hc hstep
              refine ⟨x, Link.carried_step hc hstep, hsent, ?_⟩
              split
              · omega
              · omega
          obtain ⟨x, hc₁, hsent, hcount⟩ := hone
          obtain ⟨l', y, hl', hsent', hcount'⟩ :=
            ih (shape_step h he) hl₁ hc₁ hrun
          refine ⟨l', x ++ y, hl', ?_, ?_⟩
          · rw [hsent', hsent, List.append_assoc]
          · rw [movesOf, he, List.length_append]
            dsimp only
            omega

end Net

/-- What there is to do between two writes comes to an end: from any
state of any run, the steps of a further run that move bytes of a
connection are at most as many as the stages that the bytes on their
way have still to pass, three each at most, and four more for each byte
the client puts out. -/
theorem echo_moves_le (nums : Nat) (buff : Buff) (es : List NetEvent) :
    Always Net.step
      (fun n => ∀ i l, n.link i = some l → ∀ es' n',
        run Net.step n es' = some n' →
        ∃ l' x, n'.link i = some l' ∧ l'.peer.sent = l.peer.sent ++ x
          ∧ Net.movesOf i n es' ≤ l.hops + 4 * x.length
          ∧ l.hops ≤ 3 * (l.peer.sent.length - l.peer.received.length))
      (Net.new nums buff) es := by
  refine always_of_invariant
    (Net.each_step Link.carried_fresh Link.carried_step)
    (fun {n} h i l hl es' n' hrun => ?_) (Net.each_new _ nums buff)
  have hc := h.links i l hl
  obtain ⟨l', x, hl', hsent, hcount⟩ := Net.movesOf_le h.shape hl hc hrun
  exact ⟨l', x, hl', hsent, Nat.le_of_add_right_le hcount, l.hops_le hc⟩

-- ============================================================ never at a halt

/-- A connection open at the client and live at the service, whose watcher
libev has not stopped for an error. -/
structure Link.Running (l : Link) : Prop where
  isOpen : l.peer.interest ≠ none
  live : l.inst.destroyed = 0
  called : l.inst.stopped = false

/-- Some step moves bytes of connection `i`, leaves it running, and puts
no more on either wire than an array takes. -/
def Net.Acts (n : Net) (i : Nat) (l : Link) : Prop :=
  ∃ ev n' l', n.step ev = some n' ∧ n'.link i = some l' ∧ l'.Running
    ∧ l.moved < l'.moved
    ∧ l'.wire.toService.length ≤ max l.wire.toService.length buffSize
    ∧ l'.wire.toClient.length ≤ max l.wire.toClient.length buffSize

section

variable {n : Net} {i : Nat} {p : Peer} {w : Wire} {c : Conn}
  (hp : n.client.peers[i]? = some p) (hw : n.wires[i]? = some w)
  (hc : n.service.conns[i]? = some c)

include hp hw hc

/-- The client can handle any event that its connection is watched for
and `recv` can answer. -/
theorem peer_step_link (hleft : n.client.left = 0) {events : Interest}
    (hopen : p.interest = some events) (ev : PollEvent)
    (hrep : ev.reported events = true)
    (hans : (!ev.epollin
      || answers w.toClient (n.instClosed i) (ev.recv.map Subtype.val)) = true) :
    ∃ n', n.step (.peer i ev) = some n'
      ∧ n'.link i = some ⟨(Client.serve n.client.buff p ev).2,
          w.peerMoved p (Client.serve n.client.buff p ev).2, c⟩ := by
  obtain ⟨hi, -⟩ := List.getElem?_eq_some_iff.mp hp
  obtain ⟨hj, -⟩ := List.getElem?_eq_some_iff.mp hw
  refine ⟨{ n with
    client := { n.client with
      buff := (Client.serve n.client.buff p ev).1
      peers := n.client.peers.set i (Client.serve n.client.buff p ev).2 }
    wires := n.wires.set i
      (w.peerMoved p (Client.serve n.client.buff p ev).2) }, ?_, ?_⟩
  · simp only [Net.step, if_pos hleft, hp, hw, Net.peerStep, hopen, hrep, hans,
      Bool.and_self, if_true]
  · refine (Net.link_some (List.getElem?_set_self hi)
      (List.getElem?_set_self hj)).trans ?_
    rw [Net.inst, hc, Option.getD_some]

/-- The service can run any callback that its watcher waits for and
`recv` can answer. -/
theorem conn_step_link (hup : n.service.down = false)
    (hstart : c.stopped = false) {events : EvSet} (hwatch : c.mIo = some events) (e : Event) (hdue : e.due events = true)
    (hans : (!e.reads
      || answers w.toService p.interest.isNone (e.recv.map Subtype.val)) = true) :
    ∃ n', n.step (.callback i e) = some n'
      ∧ n'.link i = some ⟨p, w.connMoved c (c.callback e), c.callback e⟩ := by
  obtain ⟨hi, -⟩ := List.getElem?_eq_some_iff.mp hc
  obtain ⟨hj, -⟩ := List.getElem?_eq_some_iff.mp hw
  have hstep : n.service.step (.callback i e)
      = some { n.service with
          conns := n.service.conns.set i (c.callback e) } := by
    rw [Service.step, if_neg (by simp [hup])]
    simp only [hc, Conn.step, hwatch, Option.isSome_some, if_true,
      Option.map_some]
  let n' : Net := { n with
    service := { n.service with
      conns := n.service.conns.set i (c.callback e) }
    wires := n.wires.set i (w.connMoved c (c.callback e)) }
  have hp' : n'.client.peers[i]? = some p := hp
  refine ⟨n', ?_, ?_⟩
  · simp only [Net.step, hp, hw, hc, Net.connStep, hwatch, hstart, hdue, hans,
      Bool.not_false, Bool.and_self, if_true, hstep, Option.map_some, n']
  · refine (Net.link_some hp' (List.getElem?_set_self hj)).trans ?_
    rw [Net.inst, Net.inst_set hi, if_pos rfl]

/-- The client reads what has come back. -/
theorem client_reads (hleft : n.client.left = 0) {events : Interest}
    (hopen : p.interest = some events) (hin : events.epollin = true)
    (hlive : c.destroyed = 0) (hstart : c.stopped = false)
    (hne : w.toClient ≠ []) :
    n.Acts i ⟨p, w, c⟩ := by
  let d : Received := ⟨w.toClient.take buffSize, List.length_take_le ..⟩
  have hd : d.val ≠ [] := by
    intro hnil
    rcases List.take_eq_nil_iff.mp hnil with hz | hz
    · cases hz
    · exact hne hz
  have hempty : d.val.isEmpty = false := by simpa using hd
  obtain ⟨n', hstep, hlink⟩ := peer_step_link hp hw hc hleft hopen
    ⟨true, false, false, some d, []⟩ (by simp [PollEvent.reported, hin])
    (by
      simp only [answers, Option.map_some, hempty, Bool.not_true, Bool.false_or,
        Bool.false_eq_true, if_false]
      exact List.isPrefixOf_iff_prefix.mpr (List.take_prefix ..))
  have hserve : (Client.serve n.client.buff p ⟨true, false, false, some d, []⟩).2
      = (p.tookIn d.val).mod ⟨false, true⟩ := by
    simp [Client.serve, readOnce, hempty]
  have hx : ((p.tookIn d.val).mod ⟨false, true⟩).sent = p.sent ++ [] :=
    (List.append_nil _).symm
  have hy : ((p.tookIn d.val).mod ⟨false, true⟩).received
      = p.received ++ d.val := rfl
  have hpos : 0 < d.val.length := List.length_pos_iff.mpr hd
  rw [hserve, Link.peerMoved_eq hx hy] at hlink
  refine ⟨_, n', _, hstep, hlink, ⟨?_, hlive, hstart⟩, ?_, ?_, ?_⟩
  · show p.interest.map _ ≠ none
    rw [hopen]
    exact Option.some_ne_none _
  · show p.sent.length + c.received.length + c.sent.length + p.received.length
      < p.sent.length + c.received.length + c.sent.length
        + (p.received ++ d.val).length
    rw [List.length_append]
    omega
  · simp
  · simp

/-- The service takes in what the client has sent. -/
theorem service_reads (hup : n.service.down = false) (hinv : c.Inv)
    (hopen : p.interest ≠ none) (hlive : c.destroyed = 0)
    (hstart : c.stopped = false) (hne : w.toService ≠ []) :
    n.Acts i ⟨p, w, c⟩ := by
  let d : Chunk := ⟨w.toService.take mMaxsize, List.length_take_le ..⟩
  let e : Event := ⟨false, true, false, some d, none⟩
  have hd : d.val ≠ [] := by
    intro hnil
    rcases List.take_eq_nil_iff.mp hnil with hz | hz
    · cases hz
    · exact hne hz
  have hempty : d.val.isEmpty = false := by simpa using hd
  have hwatch : c.mIo = some (Conn.wanted c.mWlist) := by
    have hio := hinv.rearmed
    rw [Conn.Rearmed, if_pos hlive] at hio
    exact hio
  have hread : (Conn.wanted c.mWlist).read = true := by
    unfold Conn.wanted
    split
    · rfl
    · rfl
  obtain ⟨n', hstep, hlink⟩ := conn_step_link hp hw hc hup hstart hwatch e
    (by simp [e, Event.due, hread])
    (by
      simp only [e, answers, Event.reads, Option.map_some, hempty, Bool.not_true,
        Bool.not_false, Bool.and_self, Bool.false_or, Bool.false_eq_true, if_false]
      exact List.isPrefixOf_iff_prefix.mpr (List.take_prefix ..))
  have heof : ¬ e.readsEof := by
    intro hgiven
    obtain ⟨-, -, r, hr, hnil⟩ := hgiven
    cases hr
    exact hd hnil
  have hx : (c.callback e).received = c.received ++ d.val := by
    rw [Conn.callback_received hinv.core, Conn.takes, if_pos hlive]
    rfl
  have hy : (c.callback e).sent = c.sent ++ [] := by
    rw [Conn.callback_eq, if_neg (by simp [e]), (Conn.rearm_silent _).2,
      List.append_nil]
    exact (Conn.afterRead_takes c (e := e) rfl).2
  have hpos : 0 < d.val.length := List.length_pos_iff.mpr hd
  rw [Link.connMoved_eq hx hy] at hlink
  refine ⟨_, n', _, hstep, hlink,
    ⟨hopen, (Conn.callback_no_eof hlive heof).1,
      (c.callback_stopped rfl).trans hstart⟩, ?_, ?_, ?_⟩
  · show p.sent.length + c.received.length + c.sent.length + p.received.length
      < p.sent.length + (c.callback e).received.length
        + (c.callback e).sent.length + p.received.length
    rw [hx, hy, List.length_append, List.length_append]
    omega
  · simp
  · simp

/-- The client writes, and there is room for the whole array. -/
theorem client_writes (hleft : n.client.left = 0) {events : Interest}
    (hopen : p.interest = some events) (hout : events.epollout = true)
    (hlive : c.destroyed = 0) (hstart : c.stopped = false)
    (hnone : w.toService = []) : n.Acts i ⟨p, w, c⟩ := by
  let buff := n.client.buff
  obtain ⟨n', hstep, hlink⟩ := peer_step_link hp hw hc hleft hopen
    ⟨false, true, false, none, [some buffSize]⟩
    (by simp [PollEvent.reported, hout]) rfl
  have hall : writeBytes [some buffSize] buff.val = (true, buff.val) := by
    simp only [writeBytes, sysWrite, Option.map_some, buff.property, Nat.min_self]
    rw [if_neg (by decide), if_pos (Nat.le_refl _)]
    exact congrArg (Prod.mk true)
      (List.take_of_length_le (Nat.le_of_eq buff.property))
  have hserve : (Client.serve buff p
      ⟨false, true, false, none, [some buffSize]⟩).2
      = (p.putOut true buff.val).mod ⟨true, false⟩ := by
    simp [Client.serve, hall]
  have hx : ((p.putOut true buff.val).mod ⟨true, false⟩).sent
      = p.sent ++ buff.val := rfl
  have hy : ((p.putOut true buff.val).mod ⟨true, false⟩).received
      = p.received ++ [] := (List.append_nil _).symm
  rw [hserve, Link.peerMoved_eq hx hy] at hlink
  refine ⟨_, n', _, hstep, hlink, ⟨?_, hlive, hstart⟩, ?_, ?_, ?_⟩
  · show p.interest.map _ ≠ none
    rw [hopen]
    exact Option.some_ne_none _
  · show p.sent.length + c.received.length + c.sent.length + p.received.length
      < (p.sent ++ buff.val).length + c.received.length + c.sent.length
        + p.received.length
    rw [List.length_append, buff.property, buffSize]
    omega
  · rw [hnone, List.nil_append, buff.property]
    exact Nat.le_max_right ..
  · exact Nat.le_max_left ..

end

/-- `write_cb` puts out no more than the socket has room for. -/
theorem Conn.writeCb_le (c : Conn) (r : Nat) :
    (c.writeCb (some r)).sent.length ≤ c.sent.length + r := by
  unfold Conn.writeCb
  split
  · exact Nat.le_add_right ..
  · next buff rest hq =>
    split
    · exact Nat.le_add_right ..
    · next size hle hw =>
      have hsize : min r buff.nbytes = size :=
        congrArg Subtype.val (Option.some.inj hw)
      have hlen : (c.sent ++ buff.dpos.take size).length ≤ c.sent.length + r := by
        rw [List.length_append, List.length_take]
        omega
      dsimp only
      split
      · exact hlen
      · exact hlen

section

variable {n : Net} {i : Nat} {p : Peer} {w : Wire} {c : Conn}
  (hp : n.client.peers[i]? = some p) (hw : n.wires[i]? = some w)
  (hc : n.service.conns[i]? = some c)

include hp hw hc

/-- The service writes from its queue, one byte if there is room for no
more. -/
theorem service_writes (hup : n.service.down = false) (hinv : c.Inv)
    (hopen : p.interest ≠ none) (hlive : c.destroyed = 0)
    (hstart : c.stopped = false) (hne : c.pending ≠ [])
    (hnone : w.toClient = []) : n.Acts i ⟨p, w, c⟩ := by
  let e : Event := ⟨false, false, true, none, some 1⟩
  have hqueue : c.mWlist ≠ [] := by
    intro hq
    rw [Conn.pending, hq] at hne
    exact hne rfl
  have hwatch : c.mIo = some evSetReadWrite := by
    have hio := hinv.rearmed
    rw [Conn.Rearmed, if_pos hlive, Conn.wanted,
      if_neg (by simpa using hqueue)] at hio
    exact hio
  obtain ⟨n', hstep, hlink⟩ :=
    conn_step_link hp hw hc hup hstart hwatch e rfl rfl
  have he : e.writeOnly := ⟨rfl, rfl, rfl, 1, rfl, Nat.le_refl 1⟩
  obtain ⟨hlive', k, hrelay, hpos⟩ := Conn.drain_callback hinv hlive he
  have hx : (c.callback e).received = c.received ++ [] :=
    (congrArg Relay.inp hrelay).trans (List.append_nil _).symm
  have hy : (c.callback e).sent = c.sent ++ c.pending.take k := by
    rw [← Conn.relay_pending hinv.core]
    exact (congrArg Relay.out hrelay).trans (Relay.out_send ..)
  have hcb : (c.callback e).sent = (c.writeCb (some 1)).sent := by
    rw [Conn.callback_eq, if_neg (by simp [e]), (Conn.rearm_silent _).2]
    simp [Conn.afterWrite, Conn.afterRead, e, Conn.onThis_live hlive]
  have hone : (c.pending.take k).length ≤ 1 := by
    have hle := c.writeCb_le 1
    rw [← hcb, hy, List.length_append] at hle
    omega
  have hmore : 1 ≤ (c.pending.take k).length := by
    have hk := hpos hqueue
    have hlen : 0 < c.pending.length := List.length_pos_iff.mpr hne
    rw [List.length_take]
    omega
  rw [Link.connMoved_eq hx hy] at hlink
  refine ⟨_, n', _, hstep, hlink,
    ⟨hopen, hlive', (c.callback_stopped rfl).trans hstart⟩, ?_, ?_, ?_⟩
  · show p.sent.length + c.received.length + c.sent.length + p.received.length
      < p.sent.length + (c.callback e).received.length
        + (c.callback e).sent.length + p.received.length
    rw [hx, hy, List.length_append, List.length_append]
    omega
  · exact Nat.le_max_left ..
  · have hroom : 1 ≤ buffSize := Nat.le_add_left ..
    rw [hnone, List.nil_append]
    exact Nat.le_trans hone (Nat.le_trans hroom (Nat.le_max_right ..))

end

/-- The client and the service never wait for each other: in every state
that a run reaches once the client has made its connections and before
the service is shut down, on every connection that was accepted, is open
on both sides and whose watcher libev has not stopped for an error some
step moves bytes and leaves it so, and puts no more on either wire than
an array takes, or than was there. -/
theorem echo_never_stuck (nums : Nat) (buff : Buff) (es : List NetEvent) :
    Always Net.step
      (fun n => n.client.left = 0 → n.service.down = false →
        ∀ i l, n.link i = some l → i < n.service.conns.length → l.Running →
          n.Acts i l)
      (Net.new nums buff) es := by
  refine always_of_invariant
    (I := fun n => n.Each (fun l => l.Carried ∧ l.peer.TakesTurns)
      ∧ n.service.Sound)
    (fun {n e n'} h he => ⟨?_, ?_⟩) (fun {n} h hleft hup i l hl hi hrun => ?_)
    ⟨Net.each_new _ nums buff, Service.sound_new⟩
  · exact Net.each_step ⟨Link.carried_fresh, turns_addfd⟩ turns_step h.1 he
  · rcases Net.step_service he with heq | ⟨e', he'⟩
    · rw [heq]
      exact h.2
    · exact Service.sound_step h.2 he'
  · obtain ⟨hcarried, hturns⟩ := h.1.links i l hl
    obtain ⟨hp, hw, hinst⟩ := Net.link_eq_some hl
    obtain ⟨p, w, c⟩ := l
    have hc : n.service.conns[i]? = some c := by
      rw [Net.inst, List.getElem?_eq_getElem hi, Option.getD_some] at hinst
      rw [List.getElem?_eq_getElem hi, hinst]
    have hinv : c.Inv := h.2 hup c (List.mem_of_getElem? hc)
    obtain ⟨events, hopen⟩ := Option.ne_none_iff_exists'.mp hrun.isOpen
    dsimp only at hp hw hopen
    by_cases hback : events.epollin = true ∧ w.toClient ≠ []
    · exact client_reads hp hw hc hleft hopen hback.1 hrun.live hrun.called
        hback.2
    · by_cases hsent : w.toService = []
      · cases hout : events.epollout with
        | true =>
            exact client_writes hp hw hc hleft hopen hout hrun.live hrun.called
              hsent
        | false =>
            -- it waits for input, so something is on its way: in the queue
            obtain ⟨-, hin, hwrites, -⟩ := hturns.watched events hopen
            have hinput : events.epollin = true := by
              by_contra hne
              have hzero := hin (by simpa using hne)
              have hone := hwrites hout
              dsimp only at hzero hone
              omega
            have hnone : w.toClient = [] := by
              by_contra hne
              exact hback ⟨hinput, hne⟩
            have hahead := hturns.ahead hopen hout
            have hlen := congrArg List.length hcarried.round_trip
            rw [hnone, hsent, List.nil_append, List.append_nil,
              List.length_append] at hlen
            have hqueued : c.pending ≠ [] := by
              intro hnil
              rw [hnil, List.length_nil] at hlen
              rw [buffSize] at hahead
              omega
            exact service_writes hp hw hc hup hinv hrun.isOpen hrun.live
              hrun.called hqueued hnone
      · exact service_reads hp hw hc hup hinv hrun.isOpen hrun.live hrun.called
          hsent

end TrashyServer.Echo
