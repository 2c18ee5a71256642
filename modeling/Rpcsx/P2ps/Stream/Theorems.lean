import Rpcsx.P2ps.Stream.Directions
import Rpcsx.Data.Interleaving

namespace Rpcsx.P2ps.Stream

open Rpcsx.Data Rpcsx.Data.Segments

structure Invariant (s : State) : Prop where
  silent : s.started = false → s.toServer = [] ∧ s.toClient = []
  pos : s.started = true → 0 < s.client.first
  curSeq : s.client.socket.curSeq = s.client.first + s.client.sent.length
  binding : Binding s.client.socket.status s.started s.clientBound s.accepted s.bound
  upward : Upward s.client.first s.client.sent s.clientBound s.accepted s.toServer
  downward : Downward s.client s.started s.clientBound s.accepted s.toClient

theorem Invariant.start (maxBacklog : Nat) : Invariant (State.start maxBacklog) where
  silent _ := ⟨rfl, rfl⟩
  pos := nofun
  curSeq := rfl
  binding := ⟨fun _ => ⟨rfl, rfl⟩, nofun, fun _ => rfl, nofun, nofun⟩
  upward := ⟨⟨nofun, nofun, nofun⟩, nofun, nofun, nofun⟩
  downward := ⟨fun _ => nofun, nofun, nofun, fun _ => ⟨rfl, rfl, rfl⟩, nofun⟩

section Step

variable {s s' : State}

theorem Binding.length_le {status : Status} {started clientBound : Bool} {accepted : List Endpoint}
    {bound : Option Nat} (h : Binding status started clientBound accepted bound)
    (hbound : clientBound = true) : accepted.length ≤ 1 := by
  rcases h.alone hbound with hnil | ⟨hlength, _⟩
  · rw [hnil]
    exact Nat.zero_le 1
  · exact Nat.le_of_eq hlength

theorem Binding.set {status : Status} {started clientBound : Bool} {accepted : List Endpoint}
    {bound : Option Nat} {index : Nat} {e e' : Endpoint}
    (h : Binding status started clientBound accepted bound) (he : accepted[index]? = some e)
    (hstatus : e'.socket.status = e.socket.status) :
    Binding status started clientBound (accepted.set index e') bound where
  idle hstarted := by
    obtain ⟨_, hnil⟩ := h.idle hstarted
    rw [hnil] at he
    cases he
  live := h.live
  dead := h.dead
  last k hk := by
    obtain ⟨hlength, e₁, he₁, hconnected⟩ := h.last k hk
    rw [List.length_set]
    refine ⟨hlength, ?_⟩
    by_cases hindex : index = k
    · subst hindex
      rw [he] at he₁
      cases he₁
      have hlt := (List.getElem?_eq_some_iff.mp he).1
      exact ⟨e', List.getElem?_set_self hlt, hstatus.trans hconnected⟩
    · rw [List.getElem?_set_ne hindex]
      exact ⟨e₁, he₁, hconnected⟩
  alone hbound := by
    rw [List.length_set]
    rcases h.alone hbound with hnil | hone
    · rw [hnil] at he
      cases he
    · exact Or.inr hone

theorem Invariant.connect (h : Invariant s) (hstarted : s.started = false) (rand : Nat) :
    Invariant (s.connect rand) := by
  obtain ⟨htoServer, htoClient⟩ := h.silent hstarted
  obtain ⟨_, haccepted⟩ := h.binding.idle hstarted
  refine ⟨nofun, fun _ => Nat.succ_pos rand, rfl, ?_, ?_, ?_⟩
  · refine ⟨nofun, fun _ => Or.inl rfl, nofun, h.binding.last, fun _ => Or.inl haccepted⟩
  · unfold State.connect
    dsimp only
    rw [htoServer, haccepted]
    refine ⟨⟨?_, ?_, ?_⟩, ?_, ?_, nofun⟩
    · intro p hp _
      rw [List.mem_singleton.mp hp]
      exact Nat.lt_succ_self rand
    · intro p hp hdata
      rw [List.mem_singleton.mp hp] at hdata
      exact absurd rfl hdata
    · intro p hp _ _ hdata
      rw [List.mem_singleton.mp hp] at hdata
      exact absurd rfl hdata
    · intro p hp _
      rw [List.mem_singleton.mp hp]
    · intro p hp hflags
      rw [List.mem_singleton.mp hp] at hflags
      change SYN ∈ [RST, FIN] at hflags
      exact absurd hflags (by decide)
  · unfold State.connect
    dsimp only
    rw [htoClient, haccepted]
    refine ⟨fun _ => nofun, nofun, nofun, fun _ => ⟨rfl, rfl, rfl⟩, ?_⟩
    intro _ hstatus
    exact absurd rfl hstatus

-- The first packets of a connection come to the listening socket.
theorem Invariant.handleListening (h : Invariant s) {p : Packet} (hp : p ∈ s.toServer)
    (hbound : s.bound = none) (rand : Nat) : Invariant (s.handleListening p rand) := by
  have hstarted : s.started = true := by
    cases hs : s.started with
    | true => rfl
    | false =>
        rw [(h.silent hs).1] at hp
        cases hp
  have hpos : ∀ e ∈ s.accepted, 0 < e.first := fun e he => (h.upward.accepted e he).pos
  unfold State.handleListening
  split
  · rename_i hsyn
    have hseq := h.upward.syn p hp hsyn
    split
    · refine ⟨fun hs => ?_, h.pos, h.curSeq, h.binding, h.upward, h.downward.refuse hpos⟩
      rw [hstarted] at hs
      cases hs
    · have hnew : Accepted s.client.first s.client.sent s.toServer
          ⟨⟨.connected, p.seq + 1, 0, .empty, rand + 1⟩, rand + 1, [], []⟩ := by
        refine ⟨⟨⟨List.nil_prefix, hseq, nofun, nofun, nofun, fun _ _ _ => nofun⟩, Nat.le_refl _⟩,
          rfl, Nat.succ_pos rand⟩
      refine ⟨fun hs => ?_, h.pos, h.curSeq, ?_, h.upward.append hnew, ?_⟩
      · rw [hstarted] at hs
        cases hs
      · refine ⟨fun hs => ?_, h.binding.live, h.binding.dead, ?_, ?_⟩
        · rw [hstarted] at hs
          cases hs
        · intro k hk
          cases hk
          refine ⟨?_, _, List.getElem?_concat_length, rfl⟩
          rw [List.length_append]
          rfl
        · intro hclient
          rcases h.binding.alone hclient with hnil | ⟨_, hzero⟩
          · right
            dsimp only
            rw [hnil]
            exact ⟨rfl, rfl⟩
          · rw [hbound] at hzero
            cases hzero
      · -- the first socket is the one whose stream the client reads
        cases haccepted : s.accepted with
        | nil =>
            have hrefused := h.downward.refused haccepted
            have hclient : s.client.socket.status = .handshaking := by
              by_contra hne
              obtain ⟨e, rest, hcons, _⟩ := h.downward.receiving hstarted hne
              rw [haccepted] at hcons
              cases hcons
            refine ⟨nofun, ?_, ?_, h.downward.quiet, fun _ hne => absurd hclient hne⟩
            · intro _ e he
              cases he
              refine ⟨?_, ?_, ?_⟩
              · intro q hq _
                rcases List.mem_cons.mp hq with rfl | hq
                · exact Nat.lt_succ_self rand
                · rw [hrefused q hq]
                  exact Nat.succ_pos rand
              · intro q hq hdata
                rcases List.mem_cons.mp hq with rfl | hq
                · exact absurd rfl hdata
                · rw [hrefused q hq] at hdata
                  exact absurd rfl hdata
              · intro q hq _ _ hdata
                rcases List.mem_cons.mp hq with rfl | hq
                · exact absurd rfl hdata
                · rw [hrefused q hq] at hdata
                  exact absurd rfl hdata
            · intro _ e he q hq hflags
              cases he
              rcases List.mem_cons.mp hq with rfl | hq
              · rfl
              · rw [hrefused q hq] at hflags
                cases hflags
        | cons head rest =>
            have hclient : s.clientBound = false := by
              cases hs : s.clientBound with
              | false => rfl
              | true =>
                  rcases h.binding.alone hs with hnil | ⟨_, hzero⟩
                  · rw [haccepted] at hnil
                    cases hnil
                  · rw [hbound] at hzero
                    cases hzero
            have hdown := h.downward
            rw [hclient] at hdown ⊢
            refine ⟨nofun, nofun, nofun, hdown.quiet, ?_⟩
            intro hs hstatus
            obtain ⟨e, rest', hcons, hrecv⟩ := hdown.receiving hs hstatus
            rw [haccepted] at hcons
            cases hcons
            exact ⟨_, _, rfl, hrecv⟩
  · exact h

theorem Invariant.started_of_mem (h : Invariant s) {p : Packet}
    (hp : p ∈ s.toServer ∨ p ∈ s.toClient) : s.started = true := by
  cases hs : s.started with
  | true => rfl
  | false =>
      obtain ⟨htoServer, htoClient⟩ := h.silent hs
      rw [htoServer, htoClient] at hp
      rcases hp with hp | hp <;> cases hp

theorem Invariant.recvServer (h : Invariant s) {p : Packet} (hp : p ∈ s.toServer) (rand : Nat) :
    ∃ s', s.recvServer p rand = some s' ∧ Invariant s' := by
  have hstarted := h.started_of_mem (Or.inl hp)
  have hsilent {toServer toClient : List Packet} :
      s.started = false → toServer = [] ∧ toClient = [] := by
    rw [hstarted]
    nofun
  unfold State.recvServer
  cases hbound : s.bound with
  | none => exact ⟨_, rfl, h.handleListening hp hbound rand⟩
  | some index =>
      obtain ⟨hlength, e, he, hconnected⟩ := h.binding.last index hbound
      obtain ⟨hrecv, hcur, hpos⟩ := h.upward.accepted e (List.mem_of_getElem? he)
      obtain ⟨socket, out, hhandle, hrecv', hcur', hout, hstatus⟩ :=
        hrecv.handleConnected h.upward.sending hp hconnected
      dsimp only
      rw [he]
      dsimp only
      rw [hhandle]
      refine ⟨_, rfl, hsilent, h.pos, h.curSeq, ?_, ?_, ?_⟩
      · -- a socket that stays connected stays bound
        dsimp only
        rcases hstatus with hstatus | ⟨hclosed, hflags⟩
        · have hopen : socket.status ≠ .closed := by
            rw [hstatus]
            nofun
          have hbinding := h.binding
          rw [hbound] at hbinding
          rw [if_neg hopen]
          exact hbinding.set he (hstatus.trans hconnected.symm)
        · have hclient := h.upward.reset p hp hflags
          rw [if_pos hclosed, hclient]
          refine ⟨?_, nofun, fun _ => h.binding.dead hclient, nofun, nofun⟩
          rw [hstarted]
          nofun
      · exact h.upward.set ⟨hrecv', hcur'.trans hcur, hpos⟩
      · have hfirst : ({ e with socket := socket } : Endpoint).first = e.first := rfl
        have hsent : ({ e with socket := socket } : Endpoint).sent = e.sent ++ [] :=
          (List.append_nil _).symm
        apply h.downward.replace h.binding.length_le he hfirst hsent
        · intro hsending
          rw [List.append_nil]
          apply hsending.control_append
          intro q hq
          obtain ⟨hseq, _, hdata⟩ := hout q hq
          exact ⟨hdata, by omega⟩
        · intro q hq hdata
          exact absurd (hout q hq).2.2 hdata
        · intro q hq
          rw [(hout q hq).2.1]
          decide

-- The client has handled a packet and is still bound.
theorem Invariant.moved (h : Invariant s) (hstarted : s.started = true) (hbound : s.clientBound = true)
    {socket : Socket} {out : List Packet} (hcur : socket.curSeq = s.client.socket.curSeq)
    (hstatus : socket.status = .handshaking ∨ socket.status = .connected)
    (hout : ∀ q ∈ out, IsAck q)
    (hdown : Downward { s.client with socket := socket } s.started s.clientBound s.accepted
      s.toClient) :
    Invariant { s with
      client := { s.client with socket := socket }
      clientBound := decide (socket.status ≠ .closed)
      toServer := out ++ s.toServer } := by
  have hopen : decide (socket.status ≠ .closed) = s.clientBound := by
    rw [hbound]
    rcases hstatus with hstatus | hstatus <;> rw [hstatus] <;> rfl
  rw [hopen]
  refine ⟨?_, h.pos, hcur.trans h.curSeq, ?_, h.upward.acks (h.pos hstarted) hout, hdown⟩
  · intro hs
    rw [hstarted] at hs
    cases hs
  · refine ⟨h.binding.idle, fun _ => hstatus, ?_, h.binding.last, h.binding.alone⟩
    intro hs
    rw [hbound] at hs
    cases hs

theorem Invariant.recvClient (h : Invariant s) {p : Packet} (hp : p ∈ s.toClient) (reset : Bool) :
    ∃ s', s.recvClient p reset = some s' ∧ Invariant s' := by
  have hstarted := h.started_of_mem (Or.inr hp)
  have hpos := h.pos hstarted
  have hidle {α : Prop} : s.started = false → α := by
    rw [hstarted]
    nofun
  unfold State.recvClient
  by_cases hbound : s.clientBound = true
  · rw [if_pos hbound]
    rcases h.binding.live hbound with hhandshaking | hconnected
    · obtain ⟨hgiven, havailable, hempty⟩ := h.downward.quiet (Or.inr hhandshaking)
      unfold Socket.handleConnected
      rw [hhandshaking]
      dsimp only
      split
      · rename_i hflags
        -- the socket of the other side exists
        obtain ⟨e, haccepted⟩ : ∃ e, s.accepted = [e] := by
          rcases h.binding.alone hbound with hnil | ⟨hlength, _⟩
          · rw [h.downward.refused hnil p hp] at hflags
            cases hflags
          · exact List.length_eq_one_iff.mp hlength
        have hseq := h.downward.synAck hbound e haccepted p hp hflags
        have hstoring : Storing e.first e.sent s.toClient { s.client with socket := { s.client.socket
            with dataBegSeq := p.seq + 1, status := .connected } } := by
          refine ⟨?_, ?_, ?_, ?_, ?_, ?_⟩
          · dsimp only
            rw [hgiven]
            exact List.nil_prefix
          · dsimp only
            rw [hgiven]
            exact hseq
          all_goals
            dsimp only
            rw [hempty]
          · nofun
          · nofun
          · nofun
          · exact fun _ _ _ => nofun
        obtain ⟨socket, out, hsend, hrecv, hstatus, hcur, hout⟩ := hstoring.sendAck
        change Socket.sendAck { s.client.socket with dataBegSeq := p.seq + 1, status := .connected } =
          _ at hsend
        change socket.status = .connected at hstatus
        rw [hsend]
        refine ⟨_, rfl, h.moved hstarted hbound hcur (Or.inr hstatus) hout ?_⟩
        apply h.downward.step
        · rintro (hs | hs)
          · exact hidle hs
          · rw [hstatus] at hs
            cases hs
        · intro _ _
          rw [hbound]
          exact ⟨e, [], haccepted, hrecv⟩
      · exact ⟨_, rfl, h.moved hstarted hbound rfl (Or.inl hhandshaking) nofun h.downward⟩
    · have hne : s.client.socket.status ≠ .handshaking := by
        rw [hconnected]
        nofun
      obtain ⟨e, rest, hone, hrecv⟩ := h.downward.receiving hstarted hne
      have hrest : rest = [] := by
        have hlength := h.binding.length_le hbound
        rw [hone, List.length_cons] at hlength
        exact List.length_eq_zero_iff.mp (by omega)
      rw [hrest] at hone
      have hsending := h.downward.sending hbound e hone
      rw [hbound] at hrecv
      obtain ⟨socket, out, hhandle, hrecv', hcur, hout, hstatus⟩ :=
        hrecv.handleConnected hsending hp hconnected
      rw [hhandle]
      have hdown : Downward { s.client with socket := socket } s.started s.clientBound s.accepted
          s.toClient := by
        apply h.downward.step
        · rintro (hs | hs)
          · exact hidle hs
          · rcases hstatus with hstatus | ⟨hstatus, _⟩ <;> rw [hstatus] at hs <;> cases hs
        · intro _ _
          rw [hbound]
          exact ⟨e, [], hone, hrecv'⟩
      rcases hstatus with hstatus | ⟨hclosed, _⟩
      · exact ⟨_, rfl, h.moved hstarted hbound hcur (Or.inr hstatus) hout hdown⟩
      · -- the stream is closed and no longer bound
        refine ⟨_, rfl, hidle, h.pos, hcur.trans h.curSeq, ?_, ?_, ?_⟩
        all_goals
          dsimp only
          rw [hclosed]
        · exact ⟨hidle, nofun, fun _ => rfl, h.binding.last, nofun⟩
        · exact (h.upward.acks hpos hout).close
        · exact hdown.close
  · rw [if_neg hbound]
    have hclosed : s.clientBound = false := by
      cases hs : s.clientBound with
      | true => exact absurd hs hbound
      | false => rfl
    split
    · refine ⟨_, rfl, hidle, h.pos, h.curSeq, h.binding, ?_, h.downward⟩
      have hreset : ∀ q ∈ [refusal], q.data = [] ∧ q.seq < s.client.first := by
        intro q hq
        rw [List.mem_singleton.mp hq]
        exact ⟨rfl, hpos⟩
      apply h.upward.control hreset
      · intro q hq
        rw [List.mem_singleton.mp hq]
        decide
      · exact fun _ _ _ => hclosed
    · exact ⟨s, rfl, h⟩

def Endpoint.extend (e : Endpoint) (buf : List UInt8) : Endpoint :=
  { e with
    socket := { e.socket with curSeq := e.socket.curSeq + buf.length }
    sent := e.sent ++ buf }

theorem sendto_eq {e e' : Endpoint} {buf : List UInt8} {packets : List Packet}
    (h : e.sendto buf = some (e', packets)) : e.socket.status ≠ .closed ∧
      Socket.chop buf.length buf e.socket.curSeq = some packets ∧ e' = e.extend buf := by
  unfold Endpoint.sendto Socket.sendto at h
  split at h
  · cases h
  · rename_i hopen
    rw [Option.map_map, Option.map_eq_some_iff] at h
    obtain ⟨new, hchop, heq⟩ := h
    cases heq
    exact ⟨hopen, hchop, rfl⟩

theorem Invariant.clientSendto (h : Invariant s) {buf : List UInt8} {client : Endpoint}
    {packets : List Packet} (hsend : s.client.sendto buf = some (client, packets)) :
    Invariant { s with client := client, toServer := packets ++ s.toServer } := by
  obtain ⟨hopen, hchop, rfl⟩ := sendto_eq hsend
  have hstarted : s.started = true := by
    cases hs : s.started with
    | true => rfl
    | false => exact absurd (h.binding.dead (h.binding.idle hs).1) hopen
  rw [h.curSeq] at hchop
  refine ⟨?_, h.pos, ?_, h.binding, h.upward.send hchop, ?_⟩
  · intro hs
    rw [hstarted] at hs
    cases hs
  · have hcur := h.curSeq
    dsimp only [Endpoint.extend]
    rw [List.length_append]
    omega
  · have hquiet : s.started = false ∨ (s.client.extend buf).socket.status = .handshaking →
      (s.client.extend buf).given = [] ∧ (s.client.extend buf).socket.dataAvailable = 0 ∧
        (s.client.extend buf).socket.receivedData.entries = [] := h.downward.quiet
    apply h.downward.step hquiet
    intro hs hstatus
    obtain ⟨e, rest, haccepted, hrecv⟩ := h.downward.receiving hs hstatus
    refine ⟨e, rest, haccepted, ⟨?_, hrecv.available⟩⟩
    exact ⟨hrecv.given, hrecv.beg, hrecv.within, hrecv.le, hrecv.apart, hrecv.settled⟩

-- Nothing is there to be read.
theorem recvfrom_quiet {e : Endpoint} (h : e.socket.dataAvailable = 0) (len : Nat) :
    e.recvfrom len = some e := by
  obtain ⟨⟨status, beg, available, received, cur⟩, first, sent, given⟩ := e
  change available = 0 at h
  subst h
  unfold Endpoint.recvfrom Socket.recvfrom
  simp only [Nat.zero_min, Socket.give, if_true, Option.map_some, Nat.sub_self, Nat.add_zero,
    List.append_nil]

theorem Receiving.endpoint {base : Nat} {stream : List UInt8} {packets : List Packet} {e : Endpoint}
    (h : Receiving base stream packets e) (len : Nat) :
    ∃ e', e.recvfrom len = some e' ∧ Receiving base stream packets e' ∧ e'.first = e.first ∧
      e'.sent = e.sent ∧ e'.socket.status = e.socket.status ∧ e'.socket.curSeq = e.socket.curSeq := by
  obtain ⟨socket, bytes, hrecv, hreceiving, hstatus, hcur⟩ := h.recvfrom len
  unfold Endpoint.recvfrom
  rw [hrecv]
  exact ⟨_, rfl, hreceiving, rfl, rfl, hstatus, hcur⟩

theorem Invariant.clientRecvfrom (h : Invariant s) (len : Nat) :
    ∃ client, s.client.recvfrom len = some client ∧ Invariant { s with client := client } := by
  by_cases hquiet : s.started = false ∨ s.client.socket.status = .handshaking
  · obtain ⟨_, havailable, _⟩ := h.downward.quiet hquiet
    exact ⟨_, recvfrom_quiet havailable len, h⟩
  · rw [not_or, Bool.not_eq_false] at hquiet
    obtain ⟨hstarted, hne⟩ := hquiet
    obtain ⟨e, rest, haccepted, hrecv⟩ := h.downward.receiving hstarted hne
    obtain ⟨client, hclient, hrecv', hfirst, hsent, hstatus, hcur⟩ := hrecv.endpoint len
    refine ⟨client, hclient, h.silent, ?_, ?_, ?_, ?_, ?_⟩
    · dsimp only
      rw [hfirst]
      exact h.pos
    · dsimp only
      rw [hcur, hfirst, hsent]
      exact h.curSeq
    · dsimp only
      rw [hstatus]
      exact h.binding
    · dsimp only
      rw [hfirst, hsent]
      exact h.upward
    · apply h.downward.step
      · rintro (hs | hs)
        · rw [hstarted] at hs
          cases hs
        · exact absurd (hstatus.symm.trans hs) hne
      · intro _ _
        exact ⟨e, rest, haccepted, hrecv'⟩

theorem Invariant.serverSendto (h : Invariant s) {index : Nat} {buf : List UInt8} {e e' : Endpoint}
    {packets : List Packet} (he : s.accepted[index]? = some e)
    (hsend : e.sendto buf = some (e', packets)) :
    Invariant { s with
      accepted := s.accepted.set index e'
      toClient := packets ++ s.toClient } := by
  obtain ⟨hrecv, hcur, hpos⟩ := h.upward.accepted e (List.mem_of_getElem? he)
  obtain ⟨_, hchop, rfl⟩ := sendto_eq hsend
  rw [hcur] at hchop
  have hparts := (chop_spec hchop).1
  have hfirst : (e.extend buf).first = e.first := rfl
  have hsent : (e.extend buf).sent = e.sent ++ buf := rfl
  refine ⟨?_, h.pos, h.curSeq, h.binding.set he rfl, ?_, ?_⟩
  · intro hs
    rw [(h.binding.idle hs).2] at he
    cases he
  · apply h.upward.set
    refine ⟨⟨?_, hrecv.available⟩, ?_, hpos⟩
    · exact ⟨hrecv.given, hrecv.beg, hrecv.within, hrecv.le, hrecv.apart, hrecv.settled⟩
    · dsimp only [Endpoint.extend]
      rw [List.length_append]
      omega
  · apply h.downward.replace h.binding.length_le he hfirst hsent
    · exact fun hsending => hsending.send hchop
    · exact fun q hq _ => (hparts q hq).2.2.1
    · intro q hq
      rw [(hparts q hq).2.1]
      decide

theorem Invariant.serverRecvfrom (h : Invariant s) {index : Nat} {e : Endpoint}
    (he : s.accepted[index]? = some e) (len : Nat) :
    ∃ e', e.recvfrom len = some e' ∧ Invariant { s with accepted := s.accepted.set index e' } := by
  obtain ⟨hrecv, hcur, hpos⟩ := h.upward.accepted e (List.mem_of_getElem? he)
  obtain ⟨e', heq, hrecv', hfirst, hsent, hstatus, hcur'⟩ := hrecv.endpoint len
  refine ⟨e', heq, h.silent, h.pos, h.curSeq, h.binding.set he hstatus, ?_, ?_⟩
  · apply h.upward.set
    refine ⟨hrecv', ?_, ?_⟩
    · rw [hcur', hcur, hfirst, hsent]
    · rw [hfirst]
      exact hpos
  · have hdown : Downward s.client s.started s.clientBound (s.accepted.set index e')
        ([] ++ s.toClient) := by
      apply h.downward.replace h.binding.length_le he hfirst (hsent.trans (List.append_nil _).symm)
      · intro hsending
        rw [List.append_nil]
        exact hsending
      · nofun
      · nofun
    exact hdown

theorem Invariant.step (h : Invariant s) (hstep : Step s s') : Invariant s' := by
  obtain ⟨action, hstep⟩ := hstep
  cases action with
  | connect rand =>
      unfold Stream.step at hstep
      dsimp only at hstep
      split at hstep
      · cases hstep
      · rename_i hstarted
        cases hstep
        exact h.connect (Bool.eq_false_iff.mpr hstarted) rand
  | deliverToServer index rand =>
      obtain ⟨p, hp, hrecv⟩ := Option.bind_eq_some_iff.mp hstep
      obtain ⟨s₁, heq, hs₁⟩ := h.recvServer (List.mem_of_getElem? hp) rand
      rw [heq] at hrecv
      cases hrecv
      exact hs₁
  | deliverToClient index reset =>
      obtain ⟨p, hp, hrecv⟩ := Option.bind_eq_some_iff.mp hstep
      obtain ⟨s₁, heq, hs₁⟩ := h.recvClient (List.mem_of_getElem? hp) reset
      rw [heq] at hrecv
      cases hrecv
      exact hs₁
  | accept =>
      unfold Stream.step at hstep
      dsimp only at hstep
      split at hstep
      · cases hstep
      · cases hstep
        exact ⟨h.silent, h.pos, h.curSeq, h.binding, h.upward, h.downward⟩
  | clientSendto buf =>
      obtain ⟨⟨client, packets⟩, hsend, heq⟩ := Option.map_eq_some_iff.mp hstep
      cases heq
      exact h.clientSendto hsend
  | clientRecvfrom len =>
      obtain ⟨client, hclient, hs₁⟩ := h.clientRecvfrom len
      obtain ⟨client', hrecv, heq⟩ := Option.map_eq_some_iff.mp hstep
      rw [hclient] at hrecv
      cases hrecv
      cases heq
      exact hs₁
  | serverSendto index buf =>
      obtain ⟨e, he, hsome⟩ := Option.bind_eq_some_iff.mp hstep
      obtain ⟨⟨e', packets⟩, hsend, heq⟩ := Option.map_eq_some_iff.mp hsome
      cases heq
      exact h.serverSendto he hsend
  | serverRecvfrom index len =>
      obtain ⟨e, he, hrecv⟩ := Option.bind_eq_some_iff.mp hstep
      obtain ⟨e', heq', hs₁⟩ := h.serverRecvfrom he len
      obtain ⟨e'', hrecv, heq⟩ := Option.map_eq_some_iff.mp hrecv
      rw [heq'] at hrecv
      cases hrecv
      cases heq
      exact hs₁

theorem Reachable.invariant (h : Reachable s) : Invariant s := by
  obtain ⟨maxBacklog, hrun⟩ := h
  exact Interleaving.invariant_of_reachable (Invariant.start maxBacklog)
    (fun _ _ hinv hstep => hinv.step hstep) hrun

-- What one side has got is the beginning of what the other side has sent. The client reads the
-- stream of the socket that was accepted first, the later ones come from a repeated SYN after
-- the connection has been closed.
theorem stream_safe (h : Reachable s) :
    (∀ e ∈ s.accepted, e.given <+: s.client.sent) ∧
      (∀ e, s.accepted.head? = some e → s.client.given <+: e.sent) ∧
      (s.accepted = [] → s.client.given = []) := by
  have hinv := h.invariant
  have hquiet : s.accepted = [] → s.client.given = [] := by
    intro hnil
    by_contra hgiven
    have hloud : ¬(s.started = false ∨ s.client.socket.status = .handshaking) :=
      fun hq => hgiven (hinv.downward.quiet hq).1
    rw [not_or, Bool.not_eq_false] at hloud
    obtain ⟨e, rest, hcons, _⟩ := hinv.downward.receiving hloud.1 hloud.2
    rw [hnil] at hcons
    cases hcons
  refine ⟨fun e he => (hinv.upward.accepted e he).receiving.given, ?_, hquiet⟩
  intro e he
  by_cases hq : s.started = false ∨ s.client.socket.status = .handshaking
  · rw [(hinv.downward.quiet hq).1]
    exact List.nil_prefix
  · rw [not_or, Bool.not_eq_false] at hq
    obtain ⟨e', rest, hcons, hrecv⟩ := hinv.downward.receiving hq.1 hq.2
    rw [hcons] at he
    cases he
    exact hrecv.given

end Step

-- Two bytes are sent, the packet arrives before a copy of the first one, and one byte is read.
def oneByte : List Action :=
  [.connect 5, .deliverToServer 0 9, .deliverToClient 0 false, .clientSendto [1, 2],
    .deliverToServer 0 0, .deliverToServer 2 0, .serverRecvfrom 0 1]

theorem oneByte_safe : ∃ s, Reachable s ∧ s.accepted.map (fun e => e.given) = [[1]] ∧
    (∀ e ∈ s.accepted, e.given <+: s.client.sent) ∧
      (∀ e, s.accepted.head? = some e → s.client.given <+: e.sent) ∧
      (s.accepted = [] → s.client.given = []) := by
  obtain ⟨s, hrun, hgiven⟩ : ∃ s, oneByte.foldlM step (State.start 1) = some s ∧
      s.accepted.map (fun e => e.given) = [[1]] := ⟨_, rfl, rfl⟩
  have hreachable : Reachable s :=
    ⟨1, Interleaving.reachable_of_foldlM (fun _ action _ h => ⟨action, h⟩) hrun⟩
  exact ⟨s, hreachable, hgiven, stream_safe hreachable⟩

end Rpcsx.P2ps.Stream
