/-
What the load client does in the long run.

- `client_takes_turns`: a connection that is still open has written and
  read in turn, a whole array at each write, and while it waits for
  input at least an array's worth of bytes is on its way. That the first
  turn is a write is no guard of the source: it is watched for both at
  first, and only conservation says that there is nothing to read yet.
- `bytes_of_the_array`: nothing initialises the array, and `memset` and
  `recv` are all that ever store into it, so each byte on any connection
  is one it held when `main` began, or 0. The request text the file
  declares is never sent.
-/
import TrashyServer.Echo.Proofs.RoundTrip

namespace TrashyServer.Echo

open Runs

-- ============================================================== the turns

/-- A connection has written and read in turn. -/
structure Peer.TakesTurns (p : Peer) : Prop where
  /-- A write that has returned true has put out a whole array. -/
  written : buffSize * p.writes ≤ p.sent.length
  /-- A read that has returned true has brought a byte at least, and an
  array at most. -/
  read : p.reads ≤ p.received.length
    ∧ p.received.length ≤ buffSize * p.reads
  /-- One is at most one ahead of the other, and it is the writes. -/
  turns : p.reads ≤ p.writes ∧ p.writes ≤ p.reads + 1
  /-- An open connection has put out whole arrays only. It is watched
  for one of input and output, whose turn it is, except that before its
  first write it is watched for both. -/
  watched : ∀ events, p.interest = some events →
    p.sent.length = buffSize * p.writes
      ∧ (events.epollin = false → p.writes = p.reads)
      ∧ (events.epollout = false → p.writes = p.reads + 1)
      ∧ (events = ⟨true, true⟩ → p.writes = 0)

/-- Waiting for input alone, a connection has an array's worth of bytes
on their way. -/
theorem Peer.TakesTurns.ahead {p : Peer} (h : p.TakesTurns)
    {events : Interest} (hopen : p.interest = some events)
    (hout : events.epollout = false) :
    p.received.length + buffSize ≤ p.sent.length := by
  obtain ⟨hsent, -, hwrites, -⟩ := h.watched events hopen
  have hle := h.read.2
  rw [hsent, hwrites hout, Nat.mul_succ]
  omega

/-- After `EPOLL_CTL_MOD` an open connection is watched for what it was
given. -/
theorem Peer.watched_mod {p : Peer} {events events' : Interest}
    (h : (p.mod events).interest = some events') : events = events' := by
  obtain ⟨old, -, heq⟩ := Option.map_eq_some_iff.mp h
  exact heq

theorem turns_addfd : Peer.addfd.TakesTurns :=
  ⟨Nat.le_refl _, ⟨Nat.le_refl _, Nat.le_refl _⟩,
    ⟨Nat.le_refl _, Nat.zero_le _⟩, by
      intro events h
      cases h
      exact ⟨rfl, (nomatch ·), (nomatch ·), fun _ => rfl⟩⟩

/-- Closing a connection counts nothing. -/
theorem turns_closeConn {p : Peer} (h : p.TakesTurns) :
    p.closeConn.TakesTurns :=
  ⟨h.written, h.read, h.turns, fun _ hopen => nomatch hopen⟩

/-- The client keeps it, as long as a connection that has put out
nothing gets nothing. -/
theorem turns_serves {buff buff' : Buff} {p p' : Peer} {ev : PollEvent}
    {events : Interest} (h : p.TakesTurns) (hopen : p.interest = some events)
    (hrep : ev.reported events = true)
    (hfirst : ∀ d : Received, ev.epollin = true → ev.recv = some d →
      p.sent = [] → d.val = [])
    (hserve : Client.Serves buff p ev buff' p') : p'.TakesTurns := by
  obtain ⟨hwritten, hread, hturns, hwatched⟩ := h
  obtain ⟨hsent, hin, hout, hboth⟩ := hwatched events hopen
  obtain ⟨inp, out⟩ := events
  obtain ⟨hrin, hrout⟩ := Bool.and_eq_true_iff.mp hrep
  cases hserve with
  | read d hepollin hrecv hne =>
      -- it is watched for input, and not for output too
      have hinp : inp = true := by simpa [hepollin] using hrin
      have hwrites : p.writes = p.reads + 1 := by
        refine hout ?_
        by_contra hboth'
        have houtp : out = true := by simpa using hboth'
        have hzero := hboth (by rw [hinp, houtp])
        have hnil : p.sent = [] := List.length_eq_zero_iff.mp (by
          rw [hsent, hzero, Nat.mul_zero])
        exact hne (hfirst d hepollin hrecv hnil)
      have hpos : 0 < d.val.length := List.length_pos_iff.mpr hne
      have hle := d.property
      refine ⟨hwritten, ⟨?_, ?_⟩, ⟨?_, ?_⟩, ?_⟩
      · show p.reads + 1 ≤ (p.received ++ d.val).length
        rw [List.length_append]
        omega
      · show (p.received ++ d.val).length ≤ buffSize * (p.reads + 1)
        rw [List.length_append, Nat.mul_succ]
        omega
      · exact Nat.le_of_eq hwrites.symm
      · show p.writes ≤ p.reads + 1 + 1
        omega
      · intro events' hopen'
        obtain rfl := Peer.watched_mod hopen'
        exact ⟨hsent, fun _ => hwrites, (nomatch ·), (nomatch ·)⟩
  | write hepollin hepollout =>
      -- it is watched for output, and has not written twice in a row
      have houtp : out = true := by simpa [hepollout] using hrout
      have hwrites : p.writes = p.reads := by
        cases inp with
        | false => exact hin rfl
        | true =>
            have hzero := hboth (by rw [houtp])
            omega
      have hlen : (p.sent ++ buff.val).length = buffSize * (p.writes + 1) := by
        rw [List.length_append, buff.property, hsent, Nat.mul_succ]
      refine ⟨Nat.le_of_eq hlen.symm, hread, ⟨?_, ?_⟩, ?_⟩
      · show p.reads ≤ p.writes + 1
        omega
      · show p.writes + 1 ≤ p.reads + 1
        omega
      · intro events' hopen'
        obtain rfl := Peer.watched_mod hopen'
        have hnext : p.writes + 1 = p.reads + 1 := congrArg (· + 1) hwrites
        exact ⟨hlen, (nomatch ·), fun _ => hnext, (nomatch ·)⟩
  | writeFails taken =>
      have hlen : buffSize * p.writes ≤ (p.sent ++ taken).length := by
        rw [List.length_append]
        omega
      exact ⟨hlen, hread, hturns, fun _ hopen' => nomatch hopen'⟩
  | readFails | error =>
      exact turns_closeConn ⟨hwritten, hread, hturns, hwatched⟩
  | nothing => exact ⟨hwritten, hread, hturns, hwatched⟩

/-- A step of a connection keeps the turns: nothing comes back on one
that has put out nothing. -/
theorem turns_step {buff : Buff} {l l' : Link}
    (h : l.Carried ∧ l.peer.TakesTurns) (hstep : Link.Step buff l l') :
    l'.Carried ∧ l'.peer.TakesTurns := by
  refine ⟨Link.carried_step h.1 hstep, ?_⟩
  obtain ⟨⟨hcore, hup, hdown⟩, hturns⟩ := h
  cases hstep with
  | still => exact hturns
  | conn => exact hturns
  | @peer p p' w c ev buff' events hopen hrep hans hserve =>
      refine turns_serves hturns hopen hrep (fun d hin hrecv hnil => ?_) hserve
      by_contra hne
      have hpre := hans d hin hrecv hne
      dsimp only at hup hdown
      rw [hnil] at hup
      have hnone : c.received = [] := (List.append_eq_nil_iff.mp hup.symm).1
      have hconserve := hcore.conserve
      dsimp only at hconserve
      rw [hnone] at hconserve
      rw [(List.append_eq_nil_iff.mp hconserve.symm).1] at hdown
      rw [(List.append_eq_nil_iff.mp hdown.symm).2] at hpre
      exact hne (List.prefix_nil.mp hpre)

/-- The client's connections take turns: in every interleaving each of
them writes a whole array, then reads, then writes again, beginning with
a write, and one that waits for input has at least an array's worth of
bytes on their way. -/
theorem client_takes_turns (nums : Nat) (buff : Buff) (es : List NetEvent) :
    Always Net.step
      (fun n => ∀ i l, n.link i = some l → l.peer.TakesTurns
        ∧ ∀ events, l.peer.interest = some events → events.epollout = false →
          l.peer.received.length + buffSize ≤ l.peer.sent.length)
      (Net.new nums buff) es :=
  Net.links_always (I := fun l => l.Carried ∧ l.peer.TakesTurns)
    ⟨Link.carried_fresh, turns_addfd⟩ turns_step
    (fun h => ⟨h.2, fun _ hopen hout => h.2.ahead hopen hout⟩) nums buff es

-- =================================================== where the bytes are from

/-- Bytes the array held at first, or 0. -/
def OfArray (buff : Buff) (bs : Str) : Prop :=
  ∀ b ∈ bs, b = nul ∨ b ∈ buff.val

theorem OfArray.front {buff : Buff} {bs bs' : Str} (h : OfArray buff bs')
    (hle : bs <+: bs') : OfArray buff bs :=
  fun b hb => h b (hle.subset hb)

theorem OfArray.append {buff : Buff} {bs bs' : Str} (h : OfArray buff bs)
    (h' : OfArray buff bs') : OfArray buff (bs ++ bs') := by
  intro b hb
  rcases List.mem_append.mp hb with hl | hr
  · exact h b hl
  · exact h' b hr

theorem ofArray_holding {buff : Buff} {d : Received} (h : OfArray buff d.val) :
    OfArray buff (Buff.holding d).val :=
  h.append fun _ hb => .inl (List.eq_of_mem_replicate hb)

/-- What is on its way back to the client, the client has put out. -/
theorem Link.Carried.subset {l : Link} (h : l.Carried) :
    ∀ b ∈ l.wire.toClient, b ∈ l.peer.sent := by
  intro b hb
  rw [h.up, h.core.conserve, h.down]
  simp only [List.mem_append]
  exact .inl (.inl (.inr hb))

/-- What the client puts out is from the front of the array, -/
theorem serves_puts {buff buff' : Buff} {p p' : Peer} {ev : PollEvent}
    (h : Client.Serves buff p ev buff' p') :
    ∃ x, p'.sent = p.sent ++ x ∧ x <+: buff.val := by
  cases h with
  | write => exact ⟨buff.val, rfl, List.prefix_rfl⟩
  | writeFails taken _ _ htaken => exact ⟨taken, rfl, htaken⟩
  | read | readFails | error | nothing =>
      exact ⟨[], (List.append_nil _).symm, List.nil_prefix⟩

/-- and what it stores there it has got from the wire. -/
theorem serves_stores {buff₀ buff buff' : Buff} {p p' : Peer} {ev : PollEvent}
    {stream : Str} (hbuff : OfArray buff₀ buff.val)
    (hstream : OfArray buff₀ stream)
    (hans : ∀ d : Received, ev.epollin = true → ev.recv = some d →
      d.val ≠ [] → d.val <+: stream)
    (h : Client.Serves buff p ev buff' p') : OfArray buff₀ buff'.val := by
  cases h with
  | read d hin hrecv hne =>
      exact ofArray_holding (hstream.front (hans d hin hrecv hne))
  | readFails => exact ofArray_holding fun _ hb => nomatch hb
  | write | writeFails | error | nothing => exact hbuff

/-- The invariant: the array and everything put out on any
connection. -/
structure AllOfArray (buff : Buff) (n : Net) : Prop where
  shape : n.Shape
  array : OfArray buff n.client.buff.val
  links : ∀ i l, n.link i = some l → l.Carried ∧ OfArray buff l.peer.sent

theorem allOfArray_step {buff : Buff} {n n' : Net} {ev : NetEvent}
    (h : AllOfArray buff n) (hstep : n.step ev = some n') :
    AllOfArray buff n' := by
  refine ⟨Net.shape_step h.shape hstep, ?_, fun i l hl => ?_⟩
  · cases Net.step_cases hstep with
    | connected | notConnected | accepted | callback | shutdown =>
        exact h.array
    | peer _ hp hw _ _ hans hserve =>
        obtain ⟨hcarried, hsent⟩ := h.links _ _ (Net.link_some hp hw)
        have hback : OfArray buff _ := fun b hb => hsent b (hcarried.subset b hb)
        exact serves_stores h.array hback hans hserve
  · rcases Net.link_step h.shape hstep hl with
      ⟨-, rfl⟩ | ⟨l₀, hl₀, rfl | hmove⟩
    · exact ⟨Link.carried_fresh, fun _ hb => nomatch hb⟩
    · exact h.links i l hl₀
    · obtain ⟨hcarried, hsent⟩ := h.links i l₀ hl₀
      refine ⟨Link.carried_step hcarried hmove, ?_⟩
      cases hmove with
      | still | conn => exact hsent
      | peer _ _ _ hserve =>
          obtain ⟨x, hx, hpre⟩ := serves_puts hserve
          show OfArray buff (Peer.sent _)
          rw [hx]
          exact hsent.append (h.array.front hpre)

/-- Where the bytes are from: in every state of every run, what is in
the client's array and what it has put out on any connection is made of
0 and of bytes that the array held before anything was stored in it. -/
theorem bytes_of_the_array (nums : Nat) (buff : Buff) (es : List NetEvent) :
    Always Net.step
      (fun n => OfArray buff n.client.buff.val
        ∧ ∀ i l, n.link i = some l → OfArray buff l.peer.sent)
      (Net.new nums buff) es := by
  refine always_of_invariant allOfArray_step
    (fun h => ⟨h.array, fun i l hl => (h.links i l hl).2⟩)
    ⟨Net.shape_new nums buff, fun b hb => .inr hb, fun i l hl => ?_⟩
  obtain ⟨hp, -, -⟩ := Net.link_eq_some hl
  cases hp

end TrashyServer.Echo
