/-
From the client to the service and back: nothing is lost, invented or
reordered on the way, whatever the interleaving, the short reads and
writes, the errors and the closes.

A connection is three relays in series (Lib/Pipeline.lean): the wire
up, the instance, the wire down. Every step of it is one `advance` of
the three (`step_advances`): the client lets something enter or takes
something off the last stage, and a callback moves bytes through the
first two. Conservation from end to end is then the pipeline's
`inp_eq_held`.
-/
import TrashyServer.Echo.Proofs.Link
import TrashyServer.Lib.Pipeline

namespace TrashyServer.Echo

open Runs

namespace Link

-- ========================================================== the invariant

/-- Each direction of the wire carries what was written on one side to
the other, and the instance keeps its own bytes. -/
structure Carried (l : Link) : Prop where
  core : l.inst.Core
  up : l.peer.sent = l.inst.received ++ l.wire.toService
  down : l.inst.sent = l.peer.received ++ l.wire.toClient

/-- What one event of the client moves. -/
theorem serves_moves {buff buff' : Buff} {p p' : Peer} {ev : PollEvent}
    {stream : Str} (h : Client.Serves buff p ev buff' p')
    (hans : ∀ d : Received, ev.epollin = true → ev.recv = some d →
      d.val ≠ [] → d.val <+: stream) :
    ∃ x y, p'.sent = p.sent ++ x ∧ p'.received = p.received ++ y
      ∧ y <+: stream := by
  cases h with
  | read d hin hrecv hne =>
      exact ⟨[], d.val, (List.append_nil _).symm, rfl, hans d hin hrecv hne⟩
  | write =>
      exact ⟨buff.val, [], rfl, (List.append_nil _).symm, List.nil_prefix⟩
  | writeFails taken =>
      exact ⟨taken, [], rfl, (List.append_nil _).symm, List.nil_prefix⟩
  | readFails | error | nothing =>
      exact ⟨[], [], (List.append_nil _).symm, (List.append_nil _).symm,
        List.nil_prefix⟩

/-- What both ends of the wire say after the client has moved `x` and
`y`. -/
theorem peerMoved_eq {w : Wire} {p p' : Peer} {x y : Str}
    (hx : p'.sent = p.sent ++ x) (hy : p'.received = p.received ++ y) :
    w.peerMoved p p' = ⟨w.toService ++ x, w.toClient.drop y.length⟩ := by
  unfold Wire.peerMoved
  rw [hx, hy, List.drop_left, List.length_append, Nat.add_sub_cancel_left]

/-- The same for the service. -/
theorem connMoved_eq {w : Wire} {c c' : Conn} {x y : Str}
    (hx : c'.received = c.received ++ x) (hy : c'.sent = c.sent ++ y) :
    w.connMoved c c' = ⟨w.toService.drop x.length, w.toClient ++ y⟩ := by
  unfold Wire.connMoved
  rw [hx, hy, List.drop_left, List.length_append, Nat.add_sub_cancel_left]

theorem carried_fresh : Net.freshLink.Carried :=
  ⟨Conn.core_new 0, rfl, rfl⟩

/-- Every step of a connection keeps it. -/
theorem carried_step {buff : Buff} {l l' : Link} (h : l.Carried)
    (hstep : Link.Step buff l l') : l'.Carried := by
  obtain ⟨hcore, hup, hdown⟩ := h
  cases hstep with
  | @still p w c c' hsame =>
      refine ⟨hsame.core hcore, ?_, ?_⟩
      · show p.sent = c'.received ++ w.toService
        rw [hsame.received]
        exact hup
      · show c'.sent = p.received ++ w.toClient
        rw [hsame.sent]
        exact hdown
  | @peer p p' w c ev buff' events _ _ hans hserve =>
      obtain ⟨x, y, hx, hy, rest, hrest⟩ := serves_moves hserve hans
      dsimp only at hup hdown
      refine ⟨hcore, ?_, ?_⟩
      · show p'.sent = c.received ++ (w.peerMoved p p').toService
        rw [peerMoved_eq hx hy, hx, hup, List.append_assoc]
      · show c.sent = p'.received ++ (w.peerMoved p p').toClient
        rw [peerMoved_eq hx hy, hy, hdown, ← hrest, List.drop_left,
          List.append_assoc]
  | @conn p w c e hans =>
      obtain ⟨rest, hrest⟩ := hans
      have hx := Conn.callback_received hcore e
      obtain ⟨n, hy⟩ := Conn.callback_sent hcore e
      dsimp only at hup hdown
      refine ⟨Conn.core_callback hcore e, ?_, ?_⟩
      · show p.sent = (c.callback e).received ++ (w.connMoved c _).toService
        rw [connMoved_eq hx hy, hx, hup, ← hrest, List.drop_left,
          List.append_assoc]
      · show (c.callback e).sent = p.received ++ (w.connMoved c _).toClient
        rw [connMoved_eq hx hy, hy, hdown, List.append_assoc]

-- ========================================================== the three stages

/-- The wire up, the instance, the wire down. -/
def stages (l : Link) (h : l.Carried) : List (Relay UInt8) :=
  [⟨l.peer.sent, l.inst.received, ⟨l.wire.toService, h.up.symm⟩⟩,
    l.inst.relay h.core,
    ⟨l.inst.sent, l.peer.received, ⟨l.wire.toClient, h.down.symm⟩⟩]

theorem stages_joined (l : Link) (h : l.Carried) :
    (l.stages h).IsChain Relay.Feeds :=
  List.isChain_cons_cons.mpr
    ⟨rfl, List.isChain_cons_cons.mpr ⟨rfl, List.isChain_singleton _⟩⟩

/-- What a connection holds: on the wire down, in the queue, on the wire
up. -/
theorem held_stages (l : Link) (h : l.Carried) :
    Pipeline.held (l.stages h)
      = l.wire.toClient ++ l.inst.pending ++ l.wire.toService := by
  simp only [stages, Pipeline.held, List.nil_append, Conn.relay_pending,
    Relay.pending_of_eq h.up, Relay.pending_of_eq h.down]

/-- The stages after one round, from the histories: what has entered,
and what each stage has passed on of what it held. -/
theorem stages_advance {l l' : Link} (h : l.Carried) (h' : l'.Carried)
    {x : Str} {a b c : Nat} (hsent : l'.peer.sent = l.peer.sent ++ x)
    (hup : l'.inst.received
      = l.inst.received ++ (l.wire.toService ++ x).take a)
    (hinst : l'.inst.sent
      = l.inst.sent
        ++ (l.inst.pending ++ (l.wire.toService ++ x).take a).take b)
    (hdown : l'.peer.received
      = l.peer.received ++ (l.wire.toClient
        ++ (l.inst.pending ++ (l.wire.toService ++ x).take a).take b).take c) :
    l'.stages h' = Pipeline.advance [a, b, c] x (l.stages h) := by
  unfold stages
  simp only [Pipeline.advance, Conn.relay_pending, Relay.pending_of_eq h.up,
    List.cons.injEq, and_true]
  refine ⟨Relay.eq_move hsent ?_, Relay.eq_move hup ?_, Relay.eq_move hinst ?_⟩
  · rw [Relay.pending_of_eq h.up]
    exact hup
  · rw [Conn.relay_pending]
    exact hinst
  · rw [Relay.pending_of_eq h.down]
    exact hdown

/-- What is at the front is taken by its length. -/
theorem take_of_front {x stream : Str} (h : x <+: stream) :
    (stream ++ []).take x.length = x := by
  rw [List.append_nil]
  exact (List.prefix_iff_eq_take.mp h).symm

/-- A step of the connection is one round of the pipeline. -/
theorem step_advances {buff : Buff} {l l' : Link} (h : l.Carried)
    (h' : l'.Carried) (hstep : Link.Step buff l l') :
    ∃ x a b c, l'.peer.sent = l.peer.sent ++ x
      ∧ l'.stages h' = Pipeline.advance [a, b, c] x (l.stages h) := by
  cases hstep with
  | @still p w c c' hsame =>
      have hsent : p.sent = p.sent ++ [] := (List.append_nil _).symm
      refine ⟨[], 0, 0, 0, hsent, stages_advance h h' hsent ?_ ?_ ?_⟩
      · simpa using hsame.received
      · simpa using hsame.sent
      · simp
  | @peer p p' w c ev buff' events _ _ hans hserve =>
      obtain ⟨x, y, hx, hy, hpre⟩ := serves_moves hserve hans
      refine ⟨x, 0, 0, y.length, hx, stages_advance h h' hx ?_ ?_ ?_⟩
      · simp
      · simp
      · simp only [List.take_zero, take_of_front hpre]
        exact hy
  | @conn p w c e hans =>
      have hsent : p.sent = p.sent ++ [] := (List.append_nil _).symm
      obtain ⟨n, hn⟩ := Conn.callback_sent h.core e
      refine ⟨[], (c.takes e).length, n, 0, hsent,
        stages_advance h h' hsent ?_ ?_ ?_⟩
      · simp only [take_of_front hans]
        exact Conn.callback_received h.core e
      · simp only [take_of_front hans]
        exact hn
      · simp

/-- End to end: what has entered is what has come back and what the
stages hold. -/
theorem Carried.round_trip {l : Link} (h : l.Carried) :
    l.peer.sent = l.peer.received
      ++ (l.wire.toClient ++ l.inst.pending ++ l.wire.toService) := by
  have hpipe := Pipeline.inp_eq_held _ _ (l.stages_joined h)
  rw [← l.held_stages h]
  exact hpipe

end Link

/-- End to end, in every interleaving of the client with the service and
of the connections with each other: what the client has put out on a
connection is what it has got back, what is on the wire to it, what is
queued, and what is on the wire to the service, in this order. -/
theorem echo_round_trip (nums : Nat) (buff : Buff) (es : List NetEvent) :
    Always Net.step
      (fun n => ∀ i l, n.link i = some l →
        l.peer.sent = l.peer.received
          ++ (l.wire.toClient ++ l.inst.pending ++ l.wire.toService))
      (Net.new nums buff) es :=
  Net.links_always Link.carried_fresh Link.carried_step
    Link.Carried.round_trip nums buff es

end TrashyServer.Echo
