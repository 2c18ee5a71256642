import Rpcsx.P2ps.Stream.Invariant

namespace Rpcsx.P2ps.Stream

open Rpcsx.Data Rpcsx.Data.Segments

-- An accepted socket and the stream of the client.
structure Accepted (first : Nat) (sent : List UInt8) (toServer : List Packet) (e : Endpoint) :
    Prop where
  receiving : Receiving first sent toServer e
  curSeq : e.socket.curSeq = e.first + e.sent.length
  pos : 0 < e.first

-- The way from the client to the listening side.
structure Upward (first : Nat) (sent : List UInt8) (clientBound : Bool) (accepted : List Endpoint)
    (toServer : List Packet) : Prop where
  sending : Sending first sent toServer
  syn : ∀ p ∈ toServer, p.flags = SYN → p.seq + 1 = first
  reset : ∀ p ∈ toServer, p.flags ∈ [RST, FIN] → clientBound = false
  accepted : ∀ e ∈ accepted, Accepted first sent toServer e

-- The answer to a connection that the listening side does not take.
def refusal : Packet := ⟨0, 0, RST, []⟩

-- The packets that the client may still get.
def arriving (clientBound : Bool) (packets : List Packet) : List Packet :=
  if clientBound then packets else []

-- The way back. The client reads the stream of the socket that was accepted first; there is no
-- other one as long as the client is bound.
structure Downward (client : Endpoint) (started clientBound : Bool) (accepted : List Endpoint)
    (toClient : List Packet) : Prop where
  refused : accepted = [] → ∀ p ∈ toClient, p = refusal
  sending : clientBound = true → ∀ e, accepted = [e] → Sending e.first e.sent toClient
  synAck : clientBound = true → ∀ e, accepted = [e] → ∀ p ∈ toClient,
    p.flags = SYN ||| ACK → p.seq + 1 = e.first
  quiet : started = false ∨ client.socket.status = .handshaking →
    client.given = [] ∧ client.socket.dataAvailable = 0 ∧ client.socket.receivedData.entries = []
  receiving : started = true → client.socket.status ≠ .handshaking → ∃ e rest,
    accepted = e :: rest ∧ Receiving e.first e.sent (arriving clientBound toClient) client

-- Which sockets are bound to the stream.
structure Binding (status : Status) (started clientBound : Bool) (accepted : List Endpoint)
    (bound : Option Nat) : Prop where
  idle : started = false → clientBound = false ∧ accepted = []
  live : clientBound = true → status = .handshaking ∨ status = .connected
  dead : clientBound = false → status = .closed
  last : ∀ k, bound = some k → accepted.length = k + 1 ∧
    ∃ e, accepted[k]? = some e ∧ e.socket.status = .connected
  alone : clientBound = true → accepted = [] ∨ accepted.length = 1 ∧ bound = some 0

section Upward

variable {first : Nat} {sent buf : List UInt8} {clientBound : Bool} {accepted : List Endpoint}
  {toServer new : List Packet} {e : Endpoint}

theorem Accepted.control (h : Accepted first sent toServer e) (hnew : ∀ q ∈ new, q.data = []) :
    Accepted first sent (new ++ toServer) e :=
  ⟨h.receiving.control hnew, h.curSeq, h.pos⟩

-- Packets without data that the client sends on the way.
theorem Upward.control (h : Upward first sent clientBound accepted toServer)
    (hdata : ∀ q ∈ new, q.data = [] ∧ q.seq < first) (hsyn : ∀ q ∈ new, q.flags ≠ SYN)
    (hreset : ∀ q ∈ new, q.flags ∈ [RST, FIN] → clientBound = false) :
    Upward first sent clientBound accepted (new ++ toServer) where
  sending := h.sending.control_append hdata
  syn p hp hflags := by
    rcases List.mem_append.mp hp with hp | hp
    · exact absurd hflags (hsyn p hp)
    · exact h.syn p hp hflags
  reset p hp hflags := by
    rcases List.mem_append.mp hp with hp | hp
    · exact hreset p hp hflags
    · exact h.reset p hp hflags
  accepted e he := (h.accepted e he).control fun q hq => (hdata q hq).1

theorem Upward.acks (h : Upward first sent clientBound accepted toServer) (hfirst : 0 < first)
    (hnew : ∀ q ∈ new, IsAck q) : Upward first sent clientBound accepted (new ++ toServer) := by
  apply h.control
  · intro q hq
    obtain ⟨hseq, hflags, hdata⟩ := hnew q hq
    exact ⟨hdata, by omega⟩
  · intro q hq
    rw [(hnew q hq).2.1]
    decide
  · intro q hq hflags
    rw [(hnew q hq).2.1] at hflags
    exact absurd hflags (by decide)

theorem Upward.close (h : Upward first sent clientBound accepted toServer) :
    Upward first sent false accepted toServer :=
  ⟨h.sending, h.syn, fun _ _ _ => rfl, h.accepted⟩

theorem Upward.set (h : Upward first sent clientBound accepted toServer) {index : Nat}
    (he : Accepted first sent toServer e) :
    Upward first sent clientBound (accepted.set index e) toServer where
  sending := h.sending
  syn := h.syn
  reset := h.reset
  accepted e' he' := by
    rcases List.mem_or_eq_of_mem_set he' with he' | rfl
    · exact h.accepted e' he'
    · exact he

theorem Upward.append (h : Upward first sent clientBound accepted toServer)
    (he : Accepted first sent toServer e) :
    Upward first sent clientBound (accepted ++ [e]) toServer where
  sending := h.sending
  syn := h.syn
  reset := h.reset
  accepted e' he' := by
    rcases List.mem_append.mp he' with he' | he'
    · exact h.accepted e' he'
    · rw [List.mem_singleton.mp he']
      exact he

theorem Upward.send (h : Upward first sent clientBound accepted toServer) {fuel : Nat}
    (hchop : Socket.chop fuel buf (first + sent.length) = some new) :
    Upward first (sent ++ buf) clientBound accepted (new ++ toServer) := by
  have hparts := (chop_spec hchop).1
  refine ⟨h.sending.send hchop, ?_, ?_, ?_⟩
  · intro p hp hflags
    rcases List.mem_append.mp hp with hp | hp
    · rw [(hparts p hp).2.1] at hflags
      cases hflags
    · exact h.syn p hp hflags
  · intro p hp hflags
    rcases List.mem_append.mp hp with hp | hp
    · rw [(hparts p hp).2.1] at hflags
      exact absurd hflags (by decide)
    · exact h.reset p hp hflags
  · intro e he
    obtain ⟨hrecv, hcur, hpos⟩ := h.accepted e he
    exact ⟨hrecv.extend buf fun q hq _ => (hparts q hq).2.2.1, hcur, hpos⟩

end Upward

section Downward

variable {client client' : Endpoint} {started clientBound : Bool} {accepted : List Endpoint}
  {toClient new : List Packet} {e e' : Endpoint} {index : Nat} {buf : List UInt8}

theorem arriving_extend {base : Nat} {stream : List UInt8}
    (h : Receiving base stream (arriving clientBound toClient) client)
    (hnew : ∀ q ∈ new, q.data ≠ [] → base + stream.length ≤ q.seq) :
    Receiving base (stream ++ buf) (arriving clientBound (new ++ toClient)) client := by
  cases clientBound with
  | true => exact h.extend buf hnew
  | false =>
      have hnone : ∀ q ∈ ([] : List Packet), q.data ≠ [] → base + stream.length ≤ q.seq := nofun
      exact h.extend buf hnone

-- The listening side refuses a connection.
theorem Downward.refuse (h : Downward client started clientBound accepted toClient)
    (hpos : ∀ e ∈ accepted, 0 < e.first) :
    Downward client started clientBound accepted (refusal :: toClient) where
  refused hnil p hp := by
    rcases List.mem_cons.mp hp with rfl | hp
    · rfl
    · exact h.refused hnil p hp
  sending hbound e he := by
    have hrefusal : ∀ q ∈ [refusal], q.data = [] ∧ q.seq < e.first := by
      intro q hq
      rw [List.mem_singleton.mp hq]
      exact ⟨rfl, hpos e (by rw [he]; exact List.mem_singleton_self e)⟩
    exact (h.sending hbound e he).control_append hrefusal
  synAck hbound e he p hp hflags := by
    rcases List.mem_cons.mp hp with rfl | hp
    · cases hflags
    · exact h.synAck hbound e he p hp hflags
  quiet := h.quiet
  receiving hstarted hstatus := by
    obtain ⟨e, rest, hrest, hrecv⟩ := h.receiving hstarted hstatus
    refine ⟨e, rest, hrest, ?_⟩
    have hrefusal : ∀ q ∈ [refusal], q.data ≠ [] → e.first + e.sent.length ≤ q.seq := by
      intro q hq hdata
      rw [List.mem_singleton.mp hq] at hdata
      exact absurd rfl hdata
    have hextend : Receiving e.first (e.sent ++ [])
      (arriving clientBound ([refusal] ++ toClient)) client := arriving_extend hrecv hrefusal
    rwa [List.append_nil] at hextend

-- A step of an accepted socket: it may send more of its stream.
theorem Downward.replace (h : Downward client started clientBound accepted toClient)
    (halone : clientBound = true → accepted.length ≤ 1) (he : accepted[index]? = some e)
    (hfirst : e'.first = e.first) (hsent : e'.sent = e.sent ++ buf)
    (hsending : Sending e.first e.sent toClient → Sending e.first (e.sent ++ buf) (new ++ toClient))
    (hbehind : ∀ q ∈ new, q.data ≠ [] → e.first + e.sent.length ≤ q.seq)
    (hflags : ∀ q ∈ new, q.flags ≠ SYN ||| ACK) :
    Downward client started clientBound (accepted.set index e') (new ++ toClient) := by
  cases accepted with
  | nil => cases he
  | cons head rest =>
      cases index with
      | zero =>
          cases he
          refine ⟨nofun, ?_, ?_, h.quiet, ?_⟩
          · intro hbound e₁ he₁
            cases he₁
            rw [hfirst, hsent]
            exact hsending (h.sending hbound _ rfl)
          · intro hbound e₁ he₁ p hp hpflags
            cases he₁
            rw [hfirst]
            rcases List.mem_append.mp hp with hp | hp
            · exact absurd hpflags (hflags p hp)
            · exact h.synAck hbound _ rfl p hp hpflags
          · intro hstarted hstatus
            obtain ⟨e₁, rest₁, hcons, hrecv⟩ := h.receiving hstarted hstatus
            cases hcons
            refine ⟨e', _, rfl, ?_⟩
            rw [hfirst, hsent]
            exact arriving_extend hrecv hbehind
      | succ index =>
          have hbound : clientBound = false := by
            cases clientBound with
            | false => rfl
            | true =>
                have hlt := List.getElem?_eq_some_iff.mp he
                have := halone rfl
                obtain ⟨hlt, _⟩ := hlt
                omega
          subst hbound
          refine ⟨nofun, nofun, nofun, h.quiet, ?_⟩
          intro hstarted hstatus
          obtain ⟨e₁, rest₁, hcons, hrecv⟩ := h.receiving hstarted hstatus
          cases hcons
          exact ⟨_, _, rfl, hrecv⟩

-- A step of the client.
theorem Downward.step (h : Downward client started clientBound accepted toClient)
    (hquiet : started = false ∨ client'.socket.status = .handshaking →
      client'.given = [] ∧ client'.socket.dataAvailable = 0 ∧
        client'.socket.receivedData.entries = [])
    (hrecv : started = true → client'.socket.status ≠ .handshaking → ∃ e rest,
      accepted = e :: rest ∧ Receiving e.first e.sent (arriving clientBound toClient) client') :
    Downward client' started clientBound accepted toClient :=
  ⟨h.refused, h.sending, h.synAck, hquiet, hrecv⟩

theorem Downward.close (h : Downward client started clientBound accepted toClient) :
    Downward client started false accepted toClient where
  refused := h.refused
  sending := nofun
  synAck := nofun
  quiet := h.quiet
  receiving hstarted hstatus := by
    obtain ⟨e, rest, hrest, hrecv⟩ := h.receiving hstarted hstatus
    exact ⟨e, rest, hrest, hrecv.subset⟩

end Downward

end Rpcsx.P2ps.Stream
