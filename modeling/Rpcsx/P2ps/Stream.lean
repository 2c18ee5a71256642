import Mathlib.Data.Nat.Basic
import Mathlib.Order.Basic
import Mathlib.Logic.Relation
import Rpcsx.Data.OrderedMap

namespace Rpcsx.P2ps.Stream

open Rpcsx.Data

-- p2ps_tcp_flags.
def FIN : Nat := 1

def SYN : Nat := 2

def RST : Nat := 4

def PSH : Nat := 8

def ACK : Nat := 16

-- p2ps_encapsulated_tcp and the data behind it. A packet whose length or checksum is wrong is
-- dropped before it is looked at.
structure Packet where
  seq : Nat
  ack : Nat
  flags : Nat
  data : List UInt8

inductive Status where
  | closed
  | listening
  | handshaking
  | connected
deriving DecidableEq

-- lv2_socket_p2ps, the part of a stream. Sequence numbers do not wrap.
structure Socket where
  status : Status
  dataBegSeq : Nat
  dataAvailable : Nat
  receivedData : OrderedMap Nat (List UInt8)
  curSeq : Nat

def Socket.start : Socket := ⟨.closed, 0, 0, .empty, 0⟩

def VPORT_P2P_HEADER_SIZE : Nat := 6

-- sizeof(p2ps_encapsulated_tcp).
def headerSize : Nat := 32

-- The loop of send_ack over the stored segments; none if it does not end.
def finalAck (m : OrderedMap Nat (List UInt8)) : Nat → Nat → Option Nat
  | 0, _ => none
  | fuel + 1, ack =>
      match m.find? ack with
      | some data => finalAck m fuel (ack + data.length)
      | none => some ack

namespace Socket

def sendAck (s : Socket) : Option (Socket × List Packet) :=
  (finalAck s.receivedData (s.receivedData.size + 1) s.dataBegSeq).map fun ack =>
    ({ s with dataAvailable := ack - s.dataBegSeq }, [⟨0, ack, ACK, []⟩])

-- The next state of the socket and the packets it sends.
def handleConnected (s : Socket) (header : Packet) : Option (Socket × List Packet) :=
  match s.status with
  | .handshaking =>
      -- only SYN|ACK is expected
      if header.flags = SYN ||| ACK then
        sendAck { s with dataBegSeq := header.seq + 1, status := .connected }
      else some (s, [])
  | .connected =>
      if header.flags ∈ [0, PSH, ACK, SYN, SYN ||| ACK] then
        if header.seq < s.dataBegSeq then
          -- the data has been processed already
          if header.flags ≠ ACK then s.sendAck else some (s, [])
        else
          sendAck { s with receivedData := (s.receivedData.emplace header.seq header.data).1 }
      else if header.flags ∈ [RST, FIN] then some ({ s with status := .closed }, [])
      else some (s, [])
  | _ => some (s, [])

-- The loop of recvfrom; none if it reads the first segment of an empty map.
def give : Nat → OrderedMap Nat (List UInt8) → Nat → List UInt8 →
    Option (OrderedMap Nat (List UInt8) × List UInt8)
  | 0, _, _, _ => none
  | fuel + 1, m, left, dest =>
      if left = 0 then some (m, dest)
      else
        match m.entries with
        | [] => none
        | (key, data) :: _ =>
            let toGive := min data.length left
            let m := if data.length ≠ toGive then (m.emplace (key + toGive) (data.drop toGive)).1
              else m
            match m.begin with
            | none => none
            | some first => give fuel (m.erase first) (left - toGive) (dest ++ data.take toGive)

-- recvfrom with the number of bytes that are asked for; an empty result is an error, the end of
-- the stream or a call that has to wait.
def recvfrom (s : Socket) (len : Nat) : Option (Socket × List UInt8) :=
  let toGive := min s.dataAvailable len
  (give (s.receivedData.size + 1) s.receivedData toGive []).map fun result =>
    ({ s with
      receivedData := result.1
      dataAvailable := s.dataAvailable - toGive
      dataBegSeq := s.dataBegSeq + toGive }, result.2)

def maxDataLen : Nat := 65535 - (VPORT_P2P_HEADER_SIZE + headerSize)

-- The packets of a buffer; none if generate_u2s_packet finds one too long.
def chop : Nat → List UInt8 → Nat → Option (List Packet)
  | 0, _, _ => some []
  | fuel + 1, buf, seq =>
      if buf = [] then some []
      else
        let len := min buf.length maxDataLen
        if VPORT_P2P_HEADER_SIZE + headerSize + len < 65535 then
          (chop fuel (buf.drop len) (seq + len)).map (⟨seq, 0, 0, buf.take len⟩ :: ·)
        else none

def sendto (s : Socket) (buf : List UInt8) : Option (Socket × List Packet) :=
  if s.status = .closed then none
  else (chop buf.length buf s.curSeq).map fun packets =>
    ({ s with curSeq := s.curSeq + buf.length }, packets)

end Socket

-- A socket with what has been given to sendto and got from recvfrom, and the first sequence number
-- of its own data.
structure Endpoint where
  socket : Socket
  first : Nat
  sent : List UInt8
  given : List UInt8

namespace Endpoint

def sendto (e : Endpoint) (buf : List UInt8) : Option (Endpoint × List Packet) :=
  (e.socket.sendto buf).map fun result =>
    ({ e with socket := result.1, sent := e.sent ++ buf }, result.2)

def recvfrom (e : Endpoint) (len : Nat) : Option Endpoint :=
  (e.socket.recvfrom len).map fun result =>
    { e with socket := result.1, given := e.given ++ result.2 }

end Endpoint

-- The connecting socket, the sockets that the listening one has created, the entry of the stream
-- in bound_p2p_streams at both ends, and every datagram that has been sent. The network may
-- deliver any of them at any time and any number of times, or never.
structure State where
  client : Endpoint
  started : Bool
  clientBound : Bool
  accepted : List Endpoint
  bound : Option Nat
  backlog : List Nat
  maxBacklog : Nat
  toServer : List Packet
  toClient : List Packet

def State.start (maxBacklog : Nat) : State where
  client := ⟨.start, 0, [], []⟩
  started := false
  clientBound := false
  accepted := []
  bound := none
  backlog := []
  maxBacklog := maxBacklog
  toServer := []
  toClient := []

inductive Action where
  -- the random number of a connection or of an accepted socket
  | connect (rand : Nat)
  | deliverToServer (index rand : Nat)
  -- `reset` is whether the vport of the client has no other socket
  | deliverToClient (index : Nat) (reset : Bool)
  | accept
  | clientSendto (buf : List UInt8)
  | clientRecvfrom (len : Nat)
  | serverSendto (index : Nat) (buf : List UInt8)
  | serverRecvfrom (index : Nat) (len : Nat)

namespace State

-- lv2_socket_p2ps::connect.
def connect (s : State) (rand : Nat) : State :=
  { s with
    client := ⟨⟨.handshaking, 0, 0, .empty, rand + 1⟩, rand + 1, [], []⟩
    started := true
    clientBound := true
    toServer := ⟨rand, 0, SYN, []⟩ :: s.toServer }

-- lv2_socket_p2ps::handle_listening.
def handleListening (s : State) (header : Packet) (rand : Nat) : State :=
  if header.flags = SYN then
    if s.backlog.length ≥ s.maxBacklog then { s with toClient := ⟨0, 0, RST, []⟩ :: s.toClient }
    else
      { s with
        accepted := s.accepted ++
          [⟨⟨.connected, header.seq + 1, 0, .empty, rand + 1⟩, rand + 1, [], []⟩]
        bound := some s.accepted.length
        toClient := ⟨rand, header.seq + 1, SYN ||| ACK, []⟩ :: s.toClient
        backlog := s.backlog ++ [s.accepted.length] }
  else s

-- nt_p2p_port::recv_data at the listening side; a stream that is closed is no longer bound.
def recvServer (s : State) (header : Packet) (rand : Nat) : Option State :=
  match s.bound with
  | none => some (s.handleListening header rand)
  | some index =>
      match s.accepted[index]? with
      | none => none
      | some e =>
          (e.socket.handleConnected header).map fun (socket, packets) =>
            { s with
              accepted := s.accepted.set index { e with socket := socket }
              bound := if socket.status = .closed then none else some index
              toClient := packets ++ s.toClient }

def recvClient (s : State) (header : Packet) (reset : Bool) : Option State :=
  if s.clientBound then
    (s.client.socket.handleConnected header).map fun (socket, packets) =>
      { s with
        client := { s.client with socket := socket }
        clientBound := decide (socket.status ≠ .closed)
        toServer := packets ++ s.toServer }
  else if reset ∧ header.flags ≠ RST then
    some { s with toServer := ⟨0, 0, RST, []⟩ :: s.toServer }
  else some s

end State

def step (s : State) : Action → Option State
  | .connect rand => if s.started then none else some (s.connect rand)
  | .deliverToServer index rand => s.toServer[index]?.bind fun header => s.recvServer header rand
  | .deliverToClient index reset => s.toClient[index]?.bind fun header => s.recvClient header reset
  | .accept =>
      match s.backlog with
      | [] => none
      | _ :: rest => some { s with backlog := rest }
  | .clientSendto buf =>
      (s.client.sendto buf).map fun (client, packets) =>
        { s with client := client, toServer := packets ++ s.toServer }
  | .clientRecvfrom len => (s.client.recvfrom len).map fun client => { s with client := client }
  | .serverSendto index buf =>
      s.accepted[index]?.bind fun e => (e.sendto buf).map fun (e, packets) =>
        { s with accepted := s.accepted.set index e, toClient := packets ++ s.toClient }
  | .serverRecvfrom index len =>
      s.accepted[index]?.bind fun e => (e.recvfrom len).map fun e =>
        { s with accepted := s.accepted.set index e }

def Step (s s' : State) : Prop := ∃ action, step s action = some s'

def Reachable (s : State) : Prop := ∃ maxBacklog, Relation.ReflTransGen Step (State.start maxBacklog) s

end Rpcsx.P2ps.Stream
