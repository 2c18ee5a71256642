import Mathlib.Logic.Relation
import Rpcsx.Data.Interleaving
import Rpcsx.Data.Walk
import Rpcsx.P2ps.Packet
import Rpcsx.P2ps.Stream

namespace Rpcsx.P2ps.Connected

open Data
open Rpcsx.P2ps.Stream (Status FIN SYN RST PSH ACK)

-- What the packets of a stream change in lv2_socket_p2ps. Sequence numbers wrap at 2^64.
structure Socket where
  status : Status
  dataBegSeq : Nat
  dataAvailable : Nat
  receivedData : OrderedMap Nat (List Byte)

def Socket.start : Socket := ⟨.closed, 0, 0, .empty⟩

-- A socket that handle_listening makes.
def Socket.accepted (dataBegSeq : Nat) : Socket := ⟨.connected, dataBegSeq, 0, .empty⟩

-- The loop of send_ack over the stored segments; none if it has not ended after some rounds.
def finalAck (receivedData : OrderedMap Nat (List Byte)) : Nat → Nat → Option Nat :=
  Walk.follow (fun seq => (receivedData.find? seq).map List.length) (2 ^ 64)

-- What a packet does: the acknowledgement it gives to confirm_data_received, the packet that is
-- sent and the result.
structure Outcome where
  socket : Socket
  confirmed : Option Nat
  sent : Option (List Byte)
  ret : Bool

namespace Socket

def sendAck (s : Socket) (rounds : Nat) (tcpHeader : Tcp) : Option (Socket × Option (List Byte)) :=
  (finalAck s.receivedData rounds s.dataBegSeq).map fun finalAck =>
    let sendHdr := (Tcp.start.setSrcPort tcpHeader.dstPort).setDstPort tcpHeader.srcPort
    ({ s with dataAvailable := (finalAck + 2 ^ 64 - s.dataBegSeq) % 2 ^ 64 },
      generateU2sPacket ((sendHdr.setFlags ACK).setAck finalAck) [])

-- The flags of the packets whose data is stored.
def carriers : List Nat := [0, PSH, ACK, SYN, SYN ||| ACK]

-- The sequence number that confirm_data_received is called with.
def confirmed (tcpHeader : Tcp) : Option Nat :=
  if tcpHeader.flags &&& ACK ≠ 0 then some tcpHeader.ack else none

def handleConnected (s : Socket) (rounds : Nat) (tcpHeader : Tcp) (data : List Byte) :
    Option Outcome :=
  let confirmed := confirmed tcpHeader
  match s.status with
  | .handshaking =>
      -- only SYN|ACK is expected
      if tcpHeader.flags = SYN ||| ACK then
        let s := { s with dataBegSeq := (tcpHeader.seq + 1) % 2 ^ 64, status := .connected }
        (s.sendAck rounds tcpHeader).map fun (s, sent) => ⟨s, confirmed, sent, true⟩
      else some ⟨s, confirmed, none, true⟩
  | .connected =>
      if tcpHeader.flags ∈ carriers then
        if tcpHeader.seq < s.dataBegSeq then
          -- the data has already been processed
          if tcpHeader.flags ≠ ACK then
            (s.sendAck rounds tcpHeader).map fun (s, sent) => ⟨s, confirmed, sent, true⟩
          else some ⟨s, confirmed, none, true⟩
        else
          let receivedData :=
            (s.receivedData.emplace tcpHeader.seq (data.take tcpHeader.length)).1
          let s := { s with receivedData := receivedData }
          (s.sendAck rounds tcpHeader).map fun (s, sent) => ⟨s, confirmed, sent, true⟩
      else if tcpHeader.flags ∈ [RST, FIN] then
        some ⟨{ s with status := .closed }, confirmed, none, false⟩
      else some ⟨s, confirmed, none, true⟩
  | _ => some ⟨s, none, none, false⟩

-- The loop of recvfrom; none if it reads the first segment of an empty map.
def give : Nat → OrderedMap Nat (List Byte) → Nat → List Byte →
    Option (OrderedMap Nat (List Byte) × List Byte)
  | 0, _, _, _ => none
  | rounds + 1, receivedData, leftToGive, destBuf =>
      if leftToGive = 0 then some (receivedData, destBuf)
      else
        match receivedData.entries with
        | [] => none
        | (key, curData) :: _ =>
            let toGive := min curData.length leftToGive
            let receivedData :=
              if curData.length ≠ toGive then
                (receivedData.emplace ((key + toGive) % 2 ^ 64) (curData.drop toGive)).1
              else receivedData
            match receivedData.begin with
            | none => none
            | some first =>
                give rounds (receivedData.erase first) (leftToGive - toGive)
                  (destBuf ++ curData.take toGive)

end Socket

inductive Received where
  | closed
  | wouldBlock
  | wait
  | data (bytes : List Byte)

-- No round is repeated: a segment that is not used up is the last one.
def Socket.recvfrom (s : Socket) (nonBlocking : Bool) (len : Nat) : Option (Socket × Received) :=
  if s.dataAvailable = 0 then
    if s.status = .closed then some (s, .closed)
    else if nonBlocking then some (s, .wouldBlock)
    else some (s, .wait)
  else
    let toGive := min s.dataAvailable len
    (give (s.receivedData.size + 1) s.receivedData toGive []).map fun result =>
      ({ s with
        receivedData := result.1
        dataAvailable := s.dataAvailable - toGive
        dataBegSeq := (s.dataBegSeq + toGive) % 2 ^ 64 }, .data result.2)

inductive Call where
  | recvData (datagram : List Byte)
  | connect
  | listen
  | recvfrom (nonBlocking : Bool) (len : Nat)
  -- close_stream, and set_status of the timeout thread
  | closeStream
  -- the socket is saved and made again
  | reload

-- The calls that end, with the state behind them.
def Moves (s : Socket) : Call → Socket → Prop
  | .recvData datagram, s' =>
      match recvStreamPacket datagram with
      | none => s' = s
      | some (tcpHeader, data) => ∃ rounds outcome,
          s.handleConnected rounds tcpHeader data = some outcome ∧ s' = outcome.socket
  | .connect, s' => s' = if s.status = .closed then ⟨.handshaking, 0, 0, .empty⟩ else s
  | .listen, s' => s' = { s with status := .listening }
  | .recvfrom nonBlocking len, s' => ∃ result, s.recvfrom nonBlocking len = some (s', result)
  | .closeStream, s' => s' = { s with status := .closed }
  | .reload, s' => s' = { s with dataAvailable := 0 }

def Created (s : Socket) : Prop :=
  s = Socket.start ∨ ∃ dataBegSeq, dataBegSeq < 2 ^ 64 ∧ s = Socket.accepted dataBegSeq

def Step (s s' : Socket) : Prop := ∃ call, Moves s call s'

-- The handler comes to its end for a packet.
def Ends (s : Socket) (tcpHeader : Tcp) (data : List Byte) : Prop :=
  ∃ rounds outcome, s.handleConnected rounds tcpHeader data = some outcome

-- The data of a packet goes into the map.
def Stores (s : Socket) (tcpHeader : Tcp) : Prop :=
  s.status = .connected ∧ tcpHeader.flags ∈ Socket.carriers ∧ s.dataBegSeq ≤ tcpHeader.seq ∧
    s.receivedData.find? tcpHeader.seq = none

def storedBytes (s : Socket) : Nat := (s.receivedData.entries.map fun entry => entry.2.length).sum

-- A packet that is stored has data, and the stored bytes are fewer than the sequence numbers.
structure Safe (s : Socket) (tcpHeader : Tcp) (data : List Byte) : Prop where
  nonempty : Stores s tcpHeader → data ≠ []
  small : storedBytes s + data.length < 2 ^ 64

def SafeCall (s : Socket) : Call → Prop
  | .recvData datagram =>
      ∀ tcpHeader data, recvStreamPacket datagram = some (tcpHeader, data) → Safe s tcpHeader data
  | _ => True

def SafeStep (s s' : Socket) : Prop := ∃ call, SafeCall s call ∧ Moves s call s'

structure Invariant (s : Socket) : Prop where
  begSeq : s.dataBegSeq < 2 ^ 64
  nonempty : ∀ entry ∈ s.receivedData.entries, entry.2 ≠ []

section Received

variable {datagram data : List Byte} {tcpHeader : Tcp}

theorem recv_length (h : recvStreamPacket datagram = some (tcpHeader, data)) :
    tcpHeader.length = data.length := by
  simp only [recvStreamPacket, Option.ite_none_left_eq_some] at h
  obtain ⟨-, -, -, -, -, -, -, hlength, -, -, h⟩ := h
  cases h
  rw [List.length_drop, Tcp.length, Tcp.setChecksum,
    Record.field_setField_of_apart _ _ (.inl (by decide))]
  exact not_not.mp hlength

theorem seq_lt (tcpHeader : Tcp) : tcpHeader.seq < 2 ^ 64 := by
  have h := Bytes.leValue_lt (Bytes.slice tcpHeader.bytes 8 8).reverse
  rw [List.length_reverse, Bytes.length_slice, tcpHeader.length_eq] at h
  exact h

end Received

section Walk

variable {receivedData : OrderedMap Nat (List Byte)} {pos : Nat}

theorem finalAck_ends (hpos : pos < 2 ^ 64) (hne : ∀ entry ∈ receivedData.entries, entry.2 ≠ [])
    (hsmall : (receivedData.entries.map fun entry => entry.2.length).sum < 2 ^ 64) :
    ∃ rounds last, finalAck receivedData rounds pos = some last := by
  have hentries : ∀ seq length, (receivedData.find? seq).map List.length = some length →
      (seq, length) ∈ receivedData.entries.map fun entry => (entry.1, entry.2.length) := by
    intro seq length h
    obtain ⟨data, hdata, rfl⟩ := Option.map_eq_some_iff.mp h
    obtain ⟨⟨key, data'⟩, hentry, rfl⟩ := Option.map_eq_some_iff.mp hdata
    have hkey := List.find?_some hentry
    simp only [decide_eq_true_eq] at hkey
    subst hkey
    exact List.mem_map.mpr ⟨_, List.mem_of_find?_eq_some hentry, rfl⟩
  have hlength : ∀ entry ∈ receivedData.entries.map fun entry => (entry.1, entry.2.length),
      0 < entry.2 := by
    intro entry hentry
    obtain ⟨stored, hstored, rfl⟩ := List.mem_map.mp hentry
    exact List.length_pos_iff.mpr (hne stored hstored)
  obtain ⟨last, hlast⟩ := Walk.follow_ends hpos hentries hlength (by rwa [List.map_map])
  exact ⟨_, last, hlast⟩

-- The walk does not leave an empty segment.
theorem finalAck_stuck (hpos : pos < 2 ^ 64) (h : receivedData.find? pos = some [])
    (rounds : Nat) : finalAck receivedData rounds pos = none :=
  Walk.follow_stuck hpos (by rw [h]; rfl) rounds

end Walk

section Steps

variable {s s' : Socket} {tcpHeader : Tcp} {data : List Byte}

theorem Invariant.start : Created s → Invariant s := by
  rintro (rfl | ⟨dataBegSeq, hlt, rfl⟩)
  · exact ⟨by decide, nofun⟩
  · exact ⟨hlt, nofun⟩

-- The acknowledgement of a socket that satisfies the invariant.
theorem Invariant.sendAck_ends (h : Invariant s) (hsmall : storedBytes s < 2 ^ 64) :
    ∃ rounds result, s.sendAck rounds tcpHeader = some result := by
  obtain ⟨rounds, last, hlast⟩ := finalAck_ends h.begSeq h.nonempty hsmall
  exact ⟨rounds, _, by rw [Socket.sendAck, hlast]; rfl⟩

theorem Invariant.sendAck (h : Invariant s) {rounds : Nat} {sent : Option (List Byte)}
    (hsend : s.sendAck rounds tcpHeader = some (s', sent)) : Invariant s' := by
  obtain ⟨last, -, hlast⟩ := Option.map_eq_some_iff.mp hsend
  cases hlast
  exact ⟨h.begSeq, h.nonempty⟩

-- The socket with the data of a packet, and the one that has got the answer to its SYN.
def store (s : Socket) (tcpHeader : Tcp) (data : List Byte) : Socket :=
  { s with receivedData := (s.receivedData.emplace tcpHeader.seq (data.take tcpHeader.length)).1 }

def greet (s : Socket) (tcpHeader : Tcp) : Socket :=
  { s with dataBegSeq := (tcpHeader.seq + 1) % 2 ^ 64, status := .connected }

-- A packet is acknowledged, or nothing is walked through.
theorem handleConnected_cases (s : Socket) (tcpHeader : Tcp) (data : List Byte) :
    (∃ outcome, (∀ rounds, s.handleConnected rounds tcpHeader data = some outcome) ∧
      (outcome.socket = s ∨ outcome.socket = { s with status := .closed })) ∨
    ∃ base confirmed, (∀ rounds, s.handleConnected rounds tcpHeader data =
      (base.sendAck rounds tcpHeader).map fun (s, sent) => ⟨s, confirmed, sent, true⟩) ∧
      (base = greet s tcpHeader ∨ base = s ∨ s.status = .connected ∧
        tcpHeader.flags ∈ Socket.carriers ∧ s.dataBegSeq ≤ tcpHeader.seq ∧
          base = store s tcpHeader data) := by
  cases hstatus : s.status with
  | closed => exact .inl ⟨_, fun _ => by rw [Socket.handleConnected, hstatus], .inl rfl⟩
  | listening => exact .inl ⟨_, fun _ => by rw [Socket.handleConnected, hstatus], .inl rfl⟩
  | handshaking =>
      by_cases hflags : tcpHeader.flags = SYN ||| ACK
      · exact .inr ⟨_, _, fun _ => by rw [Socket.handleConnected, hstatus]; exact if_pos hflags,
          .inl rfl⟩
      · exact .inl ⟨_, fun _ => by rw [Socket.handleConnected, hstatus]; exact if_neg hflags,
          .inl rfl⟩
  | connected =>
      by_cases hflags : tcpHeader.flags ∈ Socket.carriers
      · by_cases hold : tcpHeader.seq < s.dataBegSeq
        · by_cases hack : tcpHeader.flags = ACK
          · refine .inl ⟨⟨s, Socket.confirmed tcpHeader, none, true⟩, fun _ => ?_, .inl rfl⟩
            simp only [Socket.handleConnected, hstatus, if_pos hflags, if_pos hold]
            rw [if_neg (not_not.mpr hack)]
          · refine .inr ⟨s, Socket.confirmed tcpHeader, fun _ => ?_, .inr (.inl rfl)⟩
            simp only [Socket.handleConnected, hstatus, if_pos hflags, if_pos hold]
            rw [if_pos hack]
        · refine .inr ⟨store s tcpHeader data, Socket.confirmed tcpHeader, fun _ => ?_,
            .inr (.inr ⟨rfl, hflags, Nat.not_lt.mp hold, rfl⟩)⟩
          simp only [Socket.handleConnected, hstatus, if_pos hflags, if_neg hold]
          rw [store, hstatus]
      · by_cases hend : tcpHeader.flags ∈ [RST, FIN]
        · refine .inl ⟨⟨{ s with status := .closed }, Socket.confirmed tcpHeader, none, false⟩,
            fun _ => ?_, .inr rfl⟩
          simp only [Socket.handleConnected, hstatus, if_neg hflags, if_pos hend]
        · refine .inl ⟨⟨s, Socket.confirmed tcpHeader, none, true⟩, fun _ => ?_, .inl rfl⟩
          simp only [Socket.handleConnected, hstatus, if_neg hflags, if_neg hend]

theorem Invariant.store (h : Invariant s) (hlength : tcpHeader.length = data.length)
    (hne : s.receivedData.find? tcpHeader.seq = none → data ≠ []) :
    Invariant (store s tcpHeader data) where
  begSeq := h.begSeq
  nonempty := by
    intro entry hentry
    cases hfind : s.receivedData.find? tcpHeader.seq with
    | some old =>
        rw [Connected.store, OrderedMap.emplace, if_pos (by rw [hfind]; rfl)] at hentry
        exact h.nonempty entry hentry
    | none =>
        rcases OrderedMap.mem_emplace hentry with hold | rfl
        · exact h.nonempty entry hold
        · rw [hlength, List.take_length]
          exact hne hfind

theorem storedBytes_store (hlength : tcpHeader.length = data.length) :
    storedBytes (store s tcpHeader data) ≤ storedBytes s + data.length := by
  cases hfind : s.receivedData.find? tcpHeader.seq with
  | some old =>
      rw [storedBytes, store, OrderedMap.emplace, if_pos (by rw [hfind]; rfl)]
      exact Nat.le_add_right _ _
  | none =>
      have hperm := OrderedMap.emplace_perm (OrderedMap.find?_eq_none_iff.mp hfind)
        (data.take tcpHeader.length)
      have hsum := (hperm.map fun entry => entry.2.length).sum_eq
      rw [List.map_cons, List.sum_cons, hlength, List.take_length] at hsum
      rw [storedBytes, store, hlength, List.take_length, hsum, Nat.add_comm]
      rfl

-- The socket that a packet is acknowledged from.
theorem Safe.base (hsafe : Safe s tcpHeader data) (h : Invariant s)
    (hlength : tcpHeader.length = data.length) {base : Socket}
    (hbase : base = greet s tcpHeader ∨ base = s ∨ s.status = .connected ∧
      tcpHeader.flags ∈ Socket.carriers ∧ s.dataBegSeq ≤ tcpHeader.seq ∧
        base = Connected.store s tcpHeader data) :
    Invariant base ∧ storedBytes base < 2 ^ 64 := by
  have hsmall := hsafe.small
  rcases hbase with rfl | rfl | ⟨hstatus, hflags, hseq, rfl⟩
  · refine ⟨⟨Nat.mod_lt _ (by decide), h.nonempty⟩, ?_⟩
    have hsame : storedBytes (greet s tcpHeader) = storedBytes s := rfl
    omega
  · exact ⟨h, by omega⟩
  · refine ⟨h.store hlength fun hnew => hsafe.nonempty ⟨hstatus, hflags, hseq, hnew⟩, ?_⟩
    exact Nat.lt_of_le_of_lt (storedBytes_store hlength) hsmall

theorem Invariant.ends (h : Invariant s) (hsafe : Safe s tcpHeader data)
    (hlength : tcpHeader.length = data.length) : Ends s tcpHeader data := by
  rcases handleConnected_cases s tcpHeader data with ⟨outcome, hnow, -⟩ |
    ⟨base, confirmed, hack, hbase⟩
  · exact ⟨0, outcome, hnow 0⟩
  · obtain ⟨hinv, hsmall⟩ := hsafe.base h hlength hbase
    obtain ⟨rounds, result, hresult⟩ : ∃ rounds result,
        base.sendAck rounds tcpHeader = some result := hinv.sendAck_ends hsmall
    exact ⟨rounds, _, by rw [hack, hresult]; rfl⟩

theorem Invariant.handleConnected (h : Invariant s) (hsafe : Safe s tcpHeader data)
    (hlength : tcpHeader.length = data.length) {rounds : Nat} {outcome : Outcome}
    (hout : s.handleConnected rounds tcpHeader data = some outcome) : Invariant outcome.socket := by
  rcases handleConnected_cases s tcpHeader data with ⟨outcome', hnow, hsame⟩ |
    ⟨base, confirmed, hack, hbase⟩
  · rw [hnow] at hout
    cases hout
    rcases hsame with hsame | hsame
    · rwa [hsame]
    · rw [hsame]
      exact ⟨h.begSeq, h.nonempty⟩
  · rw [hack] at hout
    obtain ⟨⟨s', sent⟩, hsend, rfl⟩ := Option.map_eq_some_iff.mp hout
    exact (hsafe.base h hlength hbase).1.sendAck hsend

-- What is left of a segment is not empty.
theorem give_nonempty {rounds left : Nat} {m m' : OrderedMap Nat (List Byte)}
    {dest dest' : List Byte} (hne : ∀ entry ∈ m.entries, entry.2 ≠ [])
    (hgive : Socket.give rounds m left dest = some (m', dest')) :
    ∀ entry ∈ m'.entries, entry.2 ≠ [] := by
  induction rounds generalizing m left dest with
  | zero => cases hgive
  | succ rounds ih =>
      rw [Socket.give] at hgive
      split_ifs at hgive with hleft
      · cases hgive
        exact hne
      · split at hgive
        · cases hgive
        · rename_i key curData rest hentries
          have hrest : ∀ entry ∈ (if curData.length ≠ min curData.length left then
              (m.emplace ((key + min curData.length left) % 2 ^ 64)
                (curData.drop (min curData.length left))).1 else m).entries, entry.2 ≠ [] := by
            split_ifs with hpart
            · intro entry hentry
              rcases OrderedMap.mem_emplace hentry with hold | rfl
              · exact hne entry hold
              · intro hnil
                have hzero := List.length_eq_zero_iff.mpr hnil
                rw [List.length_drop] at hzero
                omega
            · exact hne
          dsimp only at hgive
          split at hgive
          · cases hgive
          · refine ih ?_ hgive
            intro entry hentry
            exact hrest entry (List.mem_filter.mp hentry).1

theorem Invariant.moves (h : Invariant s) {call : Call} (hsafe : SafeCall s call)
    (hmove : Moves s call s') : Invariant s' := by
  cases call with
  | recvData datagram =>
      simp only [Moves] at hmove
      cases hrecv : recvStreamPacket datagram with
      | none =>
          simp only [hrecv] at hmove
          rwa [hmove]
      | some packet =>
          obtain ⟨tcpHeader, data⟩ := packet
          simp only [hrecv] at hmove
          obtain ⟨rounds, outcome, hout, rfl⟩ := hmove
          exact h.handleConnected (hsafe tcpHeader data hrecv) (recv_length hrecv) hout
  | connect =>
      cases hmove
      split_ifs
      · exact ⟨by decide, nofun⟩
      · exact h
  | listen =>
      cases hmove
      exact ⟨h.begSeq, h.nonempty⟩
  | recvfrom nonBlocking len =>
      obtain ⟨result, hresult⟩ := hmove
      simp only [Socket.recvfrom] at hresult
      split_ifs at hresult
      · cases hresult
        exact h
      · cases hresult
        exact h
      · cases hresult
        exact h
      · obtain ⟨⟨m', dest'⟩, hgive, heq⟩ := Option.map_eq_some_iff.mp hresult
        cases heq
        exact ⟨Nat.mod_lt _ (by decide), give_nonempty h.nonempty hgive⟩
  | closeStream =>
      cases hmove
      exact ⟨h.begSeq, h.nonempty⟩
  | reload =>
      cases hmove
      exact ⟨h.begSeq, h.nonempty⟩

end Steps

-- In a run whose packets are safe, the handler comes to its end for every packet that is safe.
theorem handleConnected_ends {start s : Socket} (hstart : Created start)
    (hrun : Relation.ReflTransGen SafeStep start s) {datagram data : List Byte} {tcpHeader : Tcp}
    (hrecv : recvStreamPacket datagram = some (tcpHeader, data))
    (hsafe : Safe s tcpHeader data) : Ends s tcpHeader data := by
  have hinv : Invariant s := by
    apply Interleaving.invariant_of_reachable (Invariant.start hstart) _ hrun
    rintro t t' ht ⟨call, hcall, hmove⟩
    exact ht.moves hcall hmove
  exact hinv.ends hsafe (recv_length hrecv)

-- The first data of an accepted socket.
def greeting : Tcp :=
  (((((Tcp.start.setSeq 1000).setLength 5).setSrcPort 7).setDstPort 9).setFlags 0).setChecksum 0

theorem handleConnected_ends_hello : ∃ datagram,
    recvStreamPacket datagram = some (greeting, Bytes.ascii "hello") ∧
      Ends (.accepted 1000) greeting (Bytes.ascii "hello") := by
  obtain ⟨packet, hpacket⟩ : ∃ packet,
      generateU2sPacket greeting (Bytes.ascii "hello") = some packet :=
    Option.isSome_iff_exists.mp (generate_isSome.mpr (by decide))
  have hrecv := recv_generate (by decide) (by decide) (by decide) hpacket
  have hgreeting : greeting.setChecksum 0 = greeting := by decide
  rw [hgreeting] at hrecv
  have hsafe : Safe (.accepted 1000) greeting (Bytes.ascii "hello") :=
    ⟨fun _ => by decide, by decide⟩
  exact ⟨packet, hrecv,
    handleConnected_ends (.inr ⟨1000, by decide, rfl⟩) .refl hrecv hsafe⟩

-- A packet without data at the sequence number where the data of an accepted socket begins.
def probe : Tcp :=
  ((((Tcp.start.setSeq 1000).setSrcPort 7).setDstPort 9).setFlags PSH).setChecksum 0

theorem probe_received : ∃ datagram, recvStreamPacket datagram = some (probe, []) := by
  obtain ⟨packet, hpacket⟩ : ∃ packet, generateU2sPacket probe [] = some packet :=
    Option.isSome_iff_exists.mp (generate_isSome.mpr (by decide))
  have hrecv := recv_generate (by decide) (by decide) (by decide) hpacket
  have hprobe : probe.setChecksum 0 = probe := by decide
  rw [hprobe] at hrecv
  exact ⟨packet, hrecv⟩

theorem probe_never_ends : ¬∀ start s, Created start → Relation.ReflTransGen Step start s →
    ∀ datagram tcpHeader data, recvStreamPacket datagram = some (tcpHeader, data) →
      Ends s tcpHeader data := by
  intro hclaim
  obtain ⟨datagram, hrecv⟩ := probe_received
  obtain ⟨rounds, outcome, hout⟩ := hclaim (.accepted 1000) (.accepted 1000)
    (.inr ⟨1000, by decide, rfl⟩) .refl datagram probe [] hrecv
  have hflags : probe.flags ∈ Socket.carriers := by decide
  have hseq : probe.seq = 1000 := by decide
  have hstuck : finalAck (OrderedMap.empty.emplace probe.seq ([].take probe.length)).1 rounds
      1000 = none := by
    apply finalAck_stuck (by decide)
    rw [hseq, List.take_nil]
    rfl
  simp only [Socket.handleConnected, Socket.accepted, if_pos hflags, hseq, Nat.lt_irrefl,
    if_false, Socket.sendAck] at hout
  rw [hseq] at hstuck
  rw [hstuck] at hout
  cases hout

end Rpcsx.P2ps.Connected
