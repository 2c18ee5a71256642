import Rpcsx.Data.Bytes

namespace Rpcsx.P2ps

open Data Data.Bytes

-- `VPORT_P2P_HEADER_SIZE` and `sizeof(p2ps_encapsulated_tcp)`.
def vportP2pHeaderSize : Nat := 6

def tcpSize : Nat := 32

def P2P_FLAG_P2P : Nat := 1

def P2P_FLAG_P2PS : Nat := 2

-- `U2S0`
def P2PS_U2S_SIG : Nat := 0x55325330

-- `p2ps_encapsulated_tcp`, its last byte included, which is padding.
abbrev Tcp := Record tcpSize

namespace Tcp

def start : Tcp := (Record.ofBytes tcpSize []).setField 0 4 P2PS_U2S_SIG

variable (h : Tcp)

def signature : Nat := h.field 0 4
def length : Nat := h.field 4 4
def seq : Nat := h.field 8 8
def ack : Nat := h.field 16 8
def srcPort : Nat := h.field 24 2
def dstPort : Nat := h.field 26 2
def checksum : Nat := h.field 28 2
def flags : Nat := h.field 30 1

def setLength (value : Nat) : Tcp := h.setField 4 4 value
def setSeq (value : Nat) : Tcp := h.setField 8 8 value
def setAck (value : Nat) : Tcp := h.setField 16 8 value
def setSrcPort (value : Nat) : Tcp := h.setField 24 2 value
def setDstPort (value : Nat) : Tcp := h.setField 26 2 value
def setChecksum (value : Nat) : Tcp := h.setField 28 2 value
def setFlags (value : Nat) : Tcp := h.setField 30 1 value

end Tcp

-- The sum of the 16-bit words of a buffer, and of a last byte.
def checksumWords : List Byte → Nat → Nat
  | low :: high :: rest, sum => checksumWords rest ((sum + (low.val + 256 * high.val)) % 2 ^ 32)
  | [last], sum => (sum + last.val) % 2 ^ 32
  | [], sum => sum

def u2sTcpChecksum (buffer : List Byte) : Nat :=
  let cksum := checksumWords buffer 0
  let cksum := (cksum >>> 16) + cksum % 2 ^ 16
  let cksum := cksum + (cksum >>> 16)
  2 ^ 16 - 1 - cksum % 2 ^ 16

-- Nothing is returned where `ensure` fails.
def generateU2sPacket (header : Tcp) (data : List Byte) : Option (List Byte) :=
  let packetSize := vportP2pHeaderSize + tcpSize + data.length
  if packetSize < 65535 then
    let header' := header.setChecksum 0
    let checksum := u2sTcpChecksum (header'.bytes ++ data)
    some (leBytes 2 header.dstPort ++ leBytes 2 header.srcPort ++ leBytes 2 P2P_FLAG_P2PS ++
      (header'.setChecksum checksum).bytes ++ data)
  else none

-- The stream packet of a datagram that passes the checks of `recv_data`: its header, with the
-- checksum taken out, and its data.
def recvStreamPacket (datagram : List Byte) : Option (Tcp × List Byte) :=
  if datagram.length < 2 then none
  else
    let dstVport := leValue (slice datagram 0 2)
    if dstVport = 0 then none
    else if datagram.length < vportP2pHeaderSize then none
    else
      let vportFlags := leValue (slice datagram 4 2)
      let p2pData := datagram.drop vportP2pHeaderSize
      if vportFlags &&& P2P_FLAG_P2P ≠ 0 then none
      else if vportFlags &&& P2P_FLAG_P2PS = 0 then none
      else if p2pData.length < tcpSize then none
      else
        let header : Tcp := Record.ofBytes tcpSize (p2pData.take tcpSize)
        let data := p2pData.drop tcpSize
        if header.signature ≠ P2PS_U2S_SIG then none
        else if header.length ≠ p2pData.length - tcpSize then none
        else if header.dstPort ≠ dstVport then none
        else
          let header' := header.setChecksum 0
          if header.checksum ≠ u2sTcpChecksum (header'.bytes ++ data) then none
          else some (header', data)

theorem u2sTcpChecksum_lt (buffer : List Byte) : u2sTcpChecksum buffer < 2 ^ 16 := by
  simp only [u2sTcpChecksum]
  omega

section Generate

variable {header : Tcp} {data packet : List Byte}

theorem generate_length (h : generateU2sPacket header data = some packet) :
    packet.length = vportP2pHeaderSize + tcpSize + data.length := by
  simp only [generateU2sPacket] at h
  split_ifs at h
  cases h
  simp only [List.length_append, length_leBytes, Record.length_eq, vportP2pHeaderSize]

theorem generate_isSome : (generateU2sPacket header data).isSome ↔
    vportP2pHeaderSize + tcpSize + data.length < 65535 := by
  simp only [generateU2sPacket]
  split_ifs with h
  · simp [h]
  · simp [h]

-- The parts of a packet.
theorem generate_parts (h : generateU2sPacket header data = some packet) : ∃ checksum,
    packet = (leBytes 2 header.dstPort ++ leBytes 2 header.srcPort ++ leBytes 2 P2P_FLAG_P2PS) ++
      ((header.setChecksum checksum).bytes ++ data) ∧
      checksum = u2sTcpChecksum ((header.setChecksum 0).bytes ++ data) := by
  simp only [generateU2sPacket] at h
  split_ifs at h
  cases h
  refine ⟨_, ?_, rfl⟩
  rw [Tcp.setChecksum, Tcp.setChecksum, Record.setField_setField, List.append_assoc _ _ data]
  rfl

-- The header of a packet, and what is behind it.
def packetHeader (packet : List Byte) : Tcp :=
  Record.ofBytes tcpSize ((packet.drop vportP2pHeaderSize).take tcpSize)

-- The payload behind the headers.
theorem generate_drop (h : generateU2sPacket header data = some packet) :
    packet.drop (vportP2pHeaderSize + tcpSize) = data := by
  obtain ⟨checksum, rfl, -⟩ := generate_parts h
  rw [← List.append_assoc]
  apply List.drop_left'
  simp only [List.length_append, length_leBytes, Record.length_eq, vportP2pHeaderSize]

-- The fields of a header other than its checksum.
theorem generate_field (h : generateU2sPacket header data = some packet) {offset width : Nat}
    (hapart : offset + width ≤ 28 ∨ 30 ≤ offset) :
    (packetHeader packet).field offset width = header.field offset width := by
  obtain ⟨checksum, rfl, -⟩ := generate_parts h
  have hbytes := (header.setChecksum checksum).length_eq
  have hdrop : (leBytes 2 header.dstPort ++ leBytes 2 header.srcPort ++
      leBytes 2 P2P_FLAG_P2PS ++ ((header.setChecksum checksum).bytes ++ data)).drop
      vportP2pHeaderSize = (header.setChecksum checksum).bytes ++ data := by
    apply List.drop_left'
    simp only [List.length_append, length_leBytes, vportP2pHeaderSize]
  have hheader : Record.ofBytes tcpSize (header.setChecksum checksum).bytes =
      header.setChecksum checksum := Record.ext (Record.ofBytes_bytes hbytes)
  rw [packetHeader, hdrop, List.take_left' hbytes, hheader]
  exact header.field_setField_of_apart checksum hapart

-- A packet that is sent is received as it is.
theorem recv_generate (hsignature : header.signature = P2PS_U2S_SIG)
    (hlength : header.length = data.length) (hport : header.dstPort ≠ 0)
    (h : generateU2sPacket header data = some packet) :
    recvStreamPacket packet = some (header.setChecksum 0, data) := by
  have hsize := generate_length h
  obtain ⟨checksum, rfl, hchecksum⟩ := generate_parts h
  have hdst : header.dstPort < 2 ^ 16 := by
    have hlt := leValue_lt (slice header.bytes 26 2).reverse
    rw [List.length_reverse, length_slice, header.length_eq] at hlt
    exact hlt
  have hvport : leValue (slice (leBytes 2 header.dstPort ++ leBytes 2 header.srcPort ++
      leBytes 2 P2P_FLAG_P2PS ++ ((header.setChecksum checksum).bytes ++ data)) 0 2) =
      header.dstPort := by
    rw [List.append_assoc, List.append_assoc, slice_leBytes, leValue_leBytes]
    exact Nat.mod_eq_of_lt hdst
  have hflags : leValue (slice (leBytes 2 header.dstPort ++ leBytes 2 header.srcPort ++
      leBytes 2 P2P_FLAG_P2PS ++ ((header.setChecksum checksum).bytes ++ data)) 4 2) =
      P2P_FLAG_P2PS := by
    rw [List.append_assoc, List.append_assoc, slice_skip _ _ (by decide), slice_skip _ _ (by decide),
      slice_leBytes, leValue_leBytes]
    rfl
  have hdrop : (leBytes 2 header.dstPort ++ leBytes 2 header.srcPort ++
      leBytes 2 P2P_FLAG_P2PS ++ ((header.setChecksum checksum).bytes ++ data)).drop
      vportP2pHeaderSize = (header.setChecksum checksum).bytes ++ data := by
    apply List.drop_left'
    simp only [List.length_append, length_leBytes, vportP2pHeaderSize]
  have hbytes := (header.setChecksum checksum).length_eq
  have hheader : Record.ofBytes tcpSize (((header.setChecksum checksum).bytes ++ data).take
      tcpSize) = header.setChecksum checksum := by
    apply Record.ext
    rw [List.take_left' hbytes, Record.ofBytes_bytes hbytes]
  have hrest : ((header.setChecksum checksum).bytes ++ data).drop tcpSize = data :=
    List.drop_left' hbytes
  have hlong : ((header.setChecksum checksum).bytes ++ data).length = tcpSize + data.length := by
    rw [List.length_append, hbytes]
  have hkept {offset width : Nat} (h : offset + width ≤ 28 ∨ 30 ≤ offset) :
      (header.setChecksum checksum).field offset width = header.field offset width :=
    header.field_setField_of_apart checksum h
  have hstored : (header.setChecksum checksum).checksum = checksum := by
    have hlt := u2sTcpChecksum_lt ((header.setChecksum 0).bytes ++ data)
    rw [Tcp.checksum, Tcp.setChecksum, Record.field_setField _ _ (by decide), hchecksum]
    exact Nat.mod_eq_of_lt hlt
  have hzero : (header.setChecksum checksum).setChecksum 0 = header.setChecksum 0 :=
    header.setField_setField checksum 0
  simp only [recvStreamPacket, hvport, hflags, hdrop, hheader, hrest, hlong, hstored, hzero]
  rw [if_neg (by rw [hsize]; simp only [vportP2pHeaderSize]; omega), if_neg hport,
    if_neg (by rw [hsize]; omega), if_neg (by decide), if_neg (by decide), if_neg (by omega),
    if_neg, if_neg, if_neg, if_neg]
  · exact not_not.mpr hchecksum
  · exact not_not.mpr (hkept (.inl (by decide)))
  · rw [Tcp.length, hkept (.inl (by decide))]
    exact not_not.mpr (hlength.trans (Nat.add_sub_cancel_left _ _).symm)
  · rw [Tcp.signature, hkept (.inl (by decide))]
    exact not_not.mpr hsignature

end Generate

end Rpcsx.P2ps

namespace Rpcsx.P2ps.Sendto

open Data Data.Bytes

-- `p2ps_stream_status`
inductive Status where
  | streamClosed
  | streamListening
  | streamHandshaking
  | streamConnected
deriving DecidableEq

-- What `sendto` uses of a socket.
structure Socket where
  status : Status
  vport : Nat
  opAddr : Nat
  opPort : Nat
  opVport : Nat
  curSeq : BitVec 64

-- A call of `send_u2s_packet`, with a packet that has to be acknowledged.
structure Sent where
  packet : List Byte
  dstAddr : Nat
  dstPort : Nat
  seq : Nat
deriving DecidableEq

def SYS_NET_ECONNRESET : Int := 54

def maxDataLen : Nat := 65535 - (vportP2pHeaderSize + tcpSize)

-- The loop of `sendto`; the rounds are bounded by the length of the buffer.
def chop (s : Socket) (header : Tcp) (buf : List Byte) :
    Nat → Nat → BitVec 64 → Option (List Sent × BitVec 64)
  | 0, _, curSeq => some ([], curSeq)
  | rounds + 1, curTotalLen, curSeq =>
      if curTotalLen > 0 then do
        let curDataLen := min curTotalLen maxDataLen
        let header := (header.setLength curDataLen).setSeq curSeq.toNat
        let packet ← generateU2sPacket header (slice buf (buf.length - curTotalLen) curDataLen)
        let (sent, seq) ←
          chop s header buf rounds (curTotalLen - curDataLen) (curSeq + BitVec.ofNat 64 curDataLen)
        return (⟨packet, s.opAddr, s.opPort, header.seq⟩ :: sent, seq)
      else some ([], curSeq)

-- The result, the packets and the socket. Nothing is returned where the code throws: in `size32`
-- and in `generate_u2s_packet`.
def sendto (s : Socket) (buf : List Byte) : Option (Int × List Sent × Socket) :=
  if s.status = .streamClosed then some (-SYS_NET_ECONNRESET, [], s)
  else if buf.length < 2 ^ 32 then do
    let header := (Tcp.start.setSrcPort s.vport).setDstPort s.opVport
    let (sent, curSeq) ← chop s header buf buf.length buf.length s.curSeq
    return (buf.length, sent, { s with curSeq })
  else none

-- The packets carry the bytes of a buffer from a sequence number on, one slice behind the other.
inductive Segmented : BitVec 64 → List Byte → List Sent → Prop
  | nil (seq : BitVec 64) : Segmented seq [] []
  | cons {seq : BitVec 64} {data rest : List Byte} {sent : Sent} {more : List Sent}
      (hne : data ≠ []) (hdata : sent.packet.drop (vportP2pHeaderSize + tcpSize) = data)
      (hseq : (packetHeader sent.packet).field 8 8 = seq.toNat)
      (hsize : sent.packet.length < 65535)
      (hmore : Segmented (seq + BitVec.ofNat 64 data.length) rest more) :
      Segmented seq (data ++ rest) (sent :: more)

structure Sound (s : Socket) (buf : List Byte) : Prop where
  sent : ∃ result sent s', sendto s buf = some (result, sent, s') ∧
    Segmented s.curSeq buf sent ∧ result = buf.length ∧
      s'.curSeq = s.curSeq + BitVec.ofNat 64 buf.length

section

variable {s : Socket} {header : Tcp} {buf : List Byte}

-- A slice of the greatest length makes a packet of 65535 bytes.
theorem chop_of_long {rounds total : Nat} {seq : BitVec 64} (hlong : maxDataLen ≤ total)
    (hbuf : total ≤ buf.length) : chop s header buf (rounds + 1) total seq = none := by
  have hpos : total > 0 := Nat.lt_of_lt_of_le (by decide) hlong
  have hslice : (slice buf (buf.length - total) (min total maxDataLen)).length = maxDataLen := by
    rw [length_slice]
    omega
  have hnone : generateU2sPacket ((header.setLength (min total maxDataLen)).setSeq seq.toNat)
      (slice buf (buf.length - total) (min total maxDataLen)) = none := by
    rw [← Option.not_isSome_iff_eq_none, generate_isSome, hslice]
    decide
  rw [chop, if_pos hpos]
  simp only [hnone, Option.bind_eq_bind, Option.bind_none]

-- A short rest goes into one packet.
theorem chop_of_short {rounds : Nat} {seq : BitVec 64} (hrounds : 0 < rounds)
    (hshort : buf.length < maxDataLen) : ∃ sent,
      chop s header buf rounds buf.length seq = some (sent, seq + BitVec.ofNat 64 buf.length) ∧
        Segmented seq buf sent := by
  obtain ⟨rounds, rfl⟩ : ∃ n, rounds = n + 1 := ⟨rounds - 1, by omega⟩
  rcases Nat.eq_zero_or_pos buf.length with hzero | hpos
  · have hnil := List.length_eq_zero_iff.mp hzero
    subst hnil
    refine ⟨[], ?_, .nil seq⟩
    simp [chop]
  · have hmin : min buf.length maxDataLen = buf.length := by omega
    have hslice : slice buf (buf.length - buf.length) buf.length = buf := by
      rw [Nat.sub_self, slice, List.drop_zero, List.take_length]
    obtain ⟨packet, hpacket⟩ : ∃ packet, generateU2sPacket
        ((header.setLength buf.length).setSeq seq.toNat) buf = some packet := by
      refine Option.isSome_iff_exists.mp (generate_isSome.mpr ?_)
      simp only [maxDataLen, vportP2pHeaderSize, tcpSize] at *
      omega
    have hseq : Tcp.seq ((header.setLength buf.length).setSeq seq.toNat) = seq.toNat := by
      rw [Tcp.seq, Tcp.setSeq, Record.field_setField _ _ (by decide)]
      exact Nat.mod_eq_of_lt seq.isLt
    have hend (header : Tcp) : chop s header buf rounds (buf.length - buf.length)
        (seq + BitVec.ofNat 64 buf.length) = some ([], seq + BitVec.ofNat 64 buf.length) := by
      cases rounds with
      | zero => rfl
      | succ rounds => rw [Nat.sub_self, chop, if_neg (Nat.lt_irrefl 0)]
    refine ⟨[⟨packet, s.opAddr, s.opPort, seq.toNat⟩], ?_, ?_⟩
    · rw [chop, if_pos hpos]
      simp only [hmin, hslice, hpacket, hend, hseq, Option.bind_eq_bind, Option.bind_some]
      rfl
    · have hsegment : Segmented seq (buf ++ []) [⟨packet, s.opAddr, s.opPort, seq.toNat⟩] := by
        refine .cons ?_ (generate_drop hpacket) ?_ ?_ (.nil _)
        · rintro rfl
          exact Nat.lt_irrefl 0 hpos
        · exact (generate_field hpacket (.inl (by decide))).trans hseq
        · have hlength := generate_length hpacket
          simp only [maxDataLen, vportP2pHeaderSize, tcpSize] at *
          omega
      rwa [List.append_nil] at hsegment

theorem not_sound_of_long (hopen : s.status ≠ .streamClosed) (hlong : maxDataLen ≤ buf.length) :
    ¬Sound s buf := by
  rintro ⟨result, sent, s', hsend, -⟩
  obtain ⟨rounds, hrounds⟩ : ∃ rounds, buf.length = rounds + 1 :=
    ⟨buf.length - 1, by simp only [maxDataLen, vportP2pHeaderSize, tcpSize] at hlong; omega⟩
  have hnone : chop s ((Tcp.start.setSrcPort s.vport).setDstPort s.opVport) buf buf.length
      buf.length s.curSeq = none := by
    nth_rewrite 1 [hrounds]
    exact chop_of_long hlong (Nat.le_refl _)
  simp only [sendto, if_neg hopen, hnone, Option.bind_eq_bind, Option.bind_none, ite_self] at hsend
  cases hsend

theorem sendto_sound_iff (hopen : s.status ≠ .streamClosed) :
    Sound s buf ↔ buf.length < maxDataLen := by
  constructor
  · intro hsound
    by_contra hlong
    exact not_sound_of_long hopen (Nat.not_lt.mp hlong) hsound
  · intro hshort
    have hsize : buf.length < 2 ^ 32 := by
      simp only [maxDataLen, vportP2pHeaderSize, tcpSize] at hshort
      omega
    rcases Nat.eq_zero_or_pos buf.length with hzero | hpos
    · have hnil := List.length_eq_zero_iff.mp hzero
      subst hnil
      refine ⟨⟨0, [], s, ?_, .nil _, rfl, ?_⟩⟩
      · rw [sendto, if_neg hopen, if_pos (by decide)]
        rfl
      · simp
    · obtain ⟨sent, hsent, hsegmented⟩ : ∃ sent, chop s ((Tcp.start.setSrcPort s.vport).setDstPort
          s.opVport) buf buf.length buf.length s.curSeq =
            some (sent, s.curSeq + BitVec.ofNat 64 buf.length) ∧ Segmented s.curSeq buf sent :=
        chop_of_short hpos hshort
      refine ⟨⟨buf.length, sent, { s with curSeq := s.curSeq + BitVec.ofNat 64 buf.length }, ?_,
        hsegmented, rfl, rfl⟩⟩
      simp only [sendto, if_neg hopen, if_pos hsize, hsent, Option.bind_eq_bind, Option.bind_some]
      rfl

end

def openSocket : Socket := ⟨.streamConnected, 1, 0x0100007f, 3658, 2, 1000#64⟩

theorem sendto_sound_iff_hello :
    Sound openSocket (ascii "hello") ↔ (ascii "hello").length < maxDataLen :=
  sendto_sound_iff (by decide)

-- A buffer of the greatest slice length.
theorem greatest_slice_fails : ¬Sound openSocket (List.replicate 65497 0) :=
  not_sound_of_long (by decide) (by rw [List.length_replicate]; decide)

end Rpcsx.P2ps.Sendto
