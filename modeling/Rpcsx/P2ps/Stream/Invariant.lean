import Rpcsx.Data.Segments
import Rpcsx.P2ps.Stream

namespace Rpcsx.P2ps.Stream

open Rpcsx.Data Rpcsx.Data.Segments

variable {m : OrderedMap Nat (List UInt8)} {pos n fuel : Nat}
  {before after : List (Nat × List UInt8)}

theorem finalAck_split (hsplit : m.entries = before ++ after) (hbefore : ∀ s ∈ before, s.1 < pos)
    (hlaid : Laid pos after) (hne : ∀ s ∈ after, s.2 ≠ []) (hfuel : after.length < fuel) :
    finalAck m fuel pos = some (reach after pos) := by
  induction after generalizing before pos fuel with
  | nil =>
      obtain ⟨fuel, rfl⟩ : ∃ k, fuel = k + 1 := ⟨fuel - 1, by omega⟩
      have hfind : m.find? pos = none := by
        rw [OrderedMap.find?_eq_none_iff, hsplit, List.append_nil]
        intro s hs
        exact Nat.ne_of_lt (hbefore s hs)
      unfold finalAck
      rw [hfind]
      rfl
  | cons s rest ih =>
      obtain ⟨key, data⟩ := s
      obtain ⟨fuel, rfl⟩ : ∃ k, fuel = k + 1 := ⟨fuel - 1, by omega⟩
      have hrest := (List.pairwise_cons.mp hlaid.apart).1
      have hpos : 0 < data.length := List.length_pos_iff.mpr (hne _ List.mem_cons_self)
      unfold finalAck
      by_cases hkey : key = pos
      · subst hkey
        rw [OrderedMap.find?_at hsplit]
        have hreach : reach ((key, data) :: rest) key = reach rest (key + data.length) := if_pos rfl
        rw [hreach]
        have hnext : m.entries = (before ++ [(key, data)]) ++ rest := by
          rw [hsplit, List.append_assoc]
          rfl
        apply ih hnext
        · intro s hs
          rcases List.mem_append.mp hs with hs | hs
          · have := hbefore s hs
            omega
          · rw [List.mem_singleton.mp hs]
            dsimp only
            omega
        · exact hlaid.tail
        · exact fun s hs => hne s (List.mem_cons_of_mem _ hs)
        · rw [List.length_cons] at hfuel
          omega
      · have hle : pos ≤ key := hlaid.le _ List.mem_cons_self
        have hfind : m.find? pos = none := by
          rw [OrderedMap.find?_eq_none_iff, hsplit]
          intro s hs
          rcases List.mem_append.mp hs with hs | hs
          · exact Nat.ne_of_lt (hbefore s hs)
          · rcases List.mem_cons.mp hs with rfl | hs
            · exact hkey
            · have := hrest s hs
              dsimp only at this
              omega
        have hreach : reach ((key, data) :: rest) pos = pos := if_neg hkey
        rw [hfind, hreach]

-- The loop of send_ack ends where the contiguous data ends.
theorem finalAck_eq (hlaid : Laid pos m.entries) (hne : ∀ s ∈ m.entries, s.2 ≠ []) :
    finalAck m (m.size + 1) pos = some (reach m.entries pos) :=
  finalAck_split (List.nil_append m.entries).symm nofun hlaid hne (Nat.lt_succ_self _)

-- The loop of recvfrom collects the first bytes of the segments.
theorem give_eq (hlaid : Laid pos m.entries) (hne : ∀ s ∈ m.entries, s.2 ≠ [])
    (hn : pos + n ≤ reach m.entries pos) (hfuel : m.entries.length < fuel) (dest : List UInt8) :
    ∃ m', Socket.give fuel m n dest = some (m', dest ++ (collect m.entries n).2) ∧
      m'.entries = (collect m.entries n).1 := by
  generalize hsegments : m.entries = segments at *
  induction segments generalizing m pos n fuel dest with
  | nil =>
      change pos + n ≤ pos at hn
      obtain ⟨fuel, rfl⟩ : ∃ k, fuel = k + 1 := ⟨fuel - 1, by omega⟩
      have hzero : n = 0 := by omega
      subst hzero
      refine ⟨m, ?_, hsegments⟩
      unfold Socket.give
      rw [if_pos rfl]
      exact congrArg some (Prod.ext rfl (List.append_nil dest).symm)
  | cons s rest ih =>
      obtain ⟨key, data⟩ := s
      obtain ⟨fuel, rfl⟩ : ∃ k, fuel = k + 1 := ⟨fuel - 1, by omega⟩
      rw [List.length_cons] at hfuel
      by_cases hzero : n = 0
      · subst hzero
        refine ⟨m, ?_, ?_⟩
        · unfold Socket.give
          rw [if_pos rfl, collect_zero, List.append_nil]
        · rw [collect_zero]
          exact hsegments
      · have hkey : key = pos := by
          by_contra hkey
          have hreach : reach ((key, data) :: rest) pos = pos := if_neg hkey
          omega
        subst hkey
        have hreach : reach ((key, data) :: rest) key = reach rest (key + data.length) := if_pos rfl
        have hrest := (List.pairwise_cons.mp hlaid.apart).1
        by_cases hle : data.length ≤ n
        · -- the whole segment
          have hmin : min data.length n = data.length := Nat.min_eq_left hle
          have hbegin : m.begin = some key := by
            unfold OrderedMap.begin
            rw [hsegments]
            rfl
          have herase : (m.erase key).entries = rest :=
            OrderedMap.erase_at (hsegments.trans (List.nil_append _).symm)
          have hrestReach : key + data.length + (n - data.length) ≤
              reach rest (key + data.length) := by omega
          have hrestFuel : rest.length < fuel := by omega
          obtain ⟨m', hgive, hm'⟩ := ih (dest ++ data) herase hlaid.tail
            (fun s hs => hne s (List.mem_cons_of_mem _ hs)) hrestReach hrestFuel
          refine ⟨m', ?_, ?_⟩
          · unfold Socket.give
            rw [if_neg hzero, hsegments]
            dsimp only
            rw [hmin, if_neg (fun h => h rfl), hbegin]
            dsimp only
            rw [List.take_length, hgive, collect_whole hzero hle, List.append_assoc]
          · rw [hm', collect_whole hzero hle]
        · -- a part of it
          have hmin : min data.length n = n := Nat.min_eq_right (by omega)
          have hemplace : (m.emplace (key + n) (data.drop n)).1.entries =
              [(key, data)] ++ (key + n, data.drop n) :: rest := by
            apply OrderedMap.emplace_between
            · rw [hsegments]
              rfl
            · intro s hs
              rw [List.mem_singleton.mp hs]
              dsimp only
              omega
            · intro s hs
              have := hrest s hs
              dsimp only at this
              omega
          have hbegin : (m.emplace (key + n) (data.drop n)).1.begin = some key := by
            unfold OrderedMap.begin
            rw [hemplace]
            rfl
          have herase : ((m.emplace (key + n) (data.drop n)).1.erase key).entries =
              (key + n, data.drop n) :: rest := by
            exact OrderedMap.erase_at (hemplace.trans (List.nil_append _).symm)
          obtain ⟨fuel, rfl⟩ : ∃ k, fuel = k + 1 := ⟨fuel - 1, by omega⟩
          refine ⟨(m.emplace (key + n) (data.drop n)).1.erase key, ?_, ?_⟩
          · unfold Socket.give
            rw [if_neg hzero, hsegments]
            dsimp only
            rw [hmin, if_pos (by omega), hbegin]
            dsimp only
            unfold Socket.give
            rw [Nat.sub_self, if_pos rfl, collect_part hzero hle]
          · rw [herase, collect_part hzero hle]
            rfl

end Rpcsx.P2ps.Stream

namespace Rpcsx.P2ps.Stream

open Rpcsx.Data Rpcsx.Data.Segments

def Packet.segment (p : Packet) : Nat × List UInt8 := (p.seq, p.data)

-- The packets of a side: those without data are below its stream, the others are parts of it.
structure Sending (first : Nat) (sent : List UInt8) (packets : List Packet) : Prop where
  control : ∀ p ∈ packets, p.data = [] → p.seq < first
  within : ∀ p ∈ packets, p.data ≠ [] → Within first sent p.segment
  apart : ∀ p ∈ packets, ∀ q ∈ packets, p.data ≠ [] → q.data ≠ [] →
    p.seq = q.seq ∨ Apart p.segment q.segment

-- A side that receives a stream: what it has given away is the beginning of the stream, and what
-- it stores are later parts.
structure Storing (base : Nat) (stream : List UInt8) (arriving : List Packet) (e : Endpoint) :
    Prop where
  given : e.given <+: stream
  beg : e.socket.dataBegSeq = base + e.given.length
  within : ∀ s ∈ e.socket.receivedData.entries, Within base stream s
  le : ∀ s ∈ e.socket.receivedData.entries, e.socket.dataBegSeq ≤ s.1
  apart : ∀ s ∈ e.socket.receivedData.entries, ∀ t ∈ e.socket.receivedData.entries,
    s.1 = t.1 ∨ Apart s t
  settled : ∀ p ∈ arriving, p.data ≠ [] → ∀ s ∈ e.socket.receivedData.entries,
    p.seq < e.socket.dataBegSeq ∨ p.seq = s.1 ∨ Apart p.segment s

-- The data that is available follows what has been given away.
structure Receiving (base : Nat) (stream : List UInt8) (arriving : List Packet) (e : Endpoint) :
    Prop extends Storing base stream arriving e where
  available : e.socket.dataBegSeq + e.socket.dataAvailable ≤
    reach e.socket.receivedData.entries e.socket.dataBegSeq

-- A packet of send_ack.
def IsAck (p : Packet) : Prop := p.seq = 0 ∧ p.flags = ACK ∧ p.data = []

section Receiving

variable {base : Nat} {stream : List UInt8} {arriving : List Packet} {e : Endpoint} {p : Packet}

theorem laid_of_apart {m : OrderedMap Nat (List UInt8)} {pos : Nat} (hle : ∀ s ∈ m.entries, pos ≤ s.1)
    (hne : ∀ s ∈ m.entries, s.2 ≠ [])
    (hapart : ∀ s ∈ m.entries, ∀ t ∈ m.entries, s.1 = t.1 ∨ Apart s t) : Laid pos m.entries where
  le := hle
  apart := by
    apply m.sorted.imp_of_mem
    intro s t hs ht hlt
    rcases hapart s hs t ht with heq | hor | hor
    · omega
    · exact hor
    · have := List.length_pos_iff.mpr (hne t ht)
      omega

theorem Storing.ne_nil (h : Storing base stream arriving e) :
    ∀ s ∈ e.socket.receivedData.entries, s.2 ≠ [] := fun s hs => (h.within s hs).ne_nil

theorem Storing.laid (h : Storing base stream arriving e) :
    Laid e.socket.dataBegSeq e.socket.receivedData.entries :=
  laid_of_apart h.le h.ne_nil h.apart

theorem Storing.sendAck (h : Storing base stream arriving e) :
    ∃ s out, e.socket.sendAck = some (s, out) ∧ Receiving base stream arriving { e with socket := s } ∧
      s.status = e.socket.status ∧ s.curSeq = e.socket.curSeq ∧ ∀ q ∈ out, IsAck q := by
  have hle := reach_ge e.socket.receivedData.entries e.socket.dataBegSeq
  unfold Socket.sendAck
  rw [finalAck_eq h.laid h.ne_nil]
  refine ⟨_, _, rfl, ⟨⟨h.given, h.beg, h.within, h.le, h.apart, h.settled⟩, ?_⟩, rfl, rfl, ?_⟩
  · dsimp only
    omega
  · intro q hq
    rw [List.mem_singleton.mp hq]
    exact ⟨rfl, rfl, rfl⟩

-- A packet that is new and not before the data is stored.
theorem Storing.insert (h : Storing base stream arriving e) (hs : Sending base stream arriving)
    (hp : p ∈ arriving) (hseq : e.socket.dataBegSeq ≤ p.seq) :
    Storing base stream arriving { e with socket := { e.socket with
      receivedData := (e.socket.receivedData.emplace p.seq p.data).1 } } := by
  have hdata : p.data ≠ [] := by
    intro hnil
    have := hs.control p hp hnil
    have := h.beg
    omega
  by_cases hfresh : ∀ s ∈ e.socket.receivedData.entries, s.1 ≠ p.seq
  · have hperm := OrderedMap.emplace_perm hfresh p.data
    have hmem : ∀ s, s ∈ (e.socket.receivedData.emplace p.seq p.data).1.entries →
        s = p.segment ∨ s ∈ e.socket.receivedData.entries := by
      intro s hs'
      exact List.mem_cons.mp (hperm.mem_iff.mp hs')
    have hnew : ∀ s ∈ e.socket.receivedData.entries, Apart p.segment s := by
      intro s hs'
      rcases h.settled p hp hdata s hs' with hlt | heq | hapart
      · omega
      · exact absurd heq.symm (hfresh s hs')
      · exact hapart
    refine ⟨h.given, h.beg, ?_, ?_, ?_, ?_⟩
    · intro s hs'
      rcases hmem s hs' with rfl | hold
      · exact hs.within p hp hdata
      · exact h.within s hold
    · intro s hs'
      rcases hmem s hs' with rfl | hold
      · exact hseq
      · exact h.le s hold
    · intro s hs' t ht
      rcases hmem s hs' with rfl | hs'
      · rcases hmem t ht with rfl | ht
        · exact Or.inl rfl
        · exact Or.inr (hnew t ht)
      · rcases hmem t ht with rfl | ht
        · exact Or.inr (hnew s hs').symm
        · exact h.apart s hs' t ht
    · intro q hq hqdata s hs'
      rcases hmem s hs' with rfl | hs'
      · exact Or.inr (hs.apart q hq p hp hqdata hdata)
      · exact h.settled q hq hqdata s hs'
  · have hsome : (e.socket.receivedData.emplace p.seq p.data).1 = e.socket.receivedData := by
      unfold OrderedMap.emplace
      rw [if_pos]
      rw [Option.isSome_iff_ne_none]
      intro hnone
      exact hfresh (OrderedMap.find?_eq_none_iff.mp hnone)
    rw [hsome]
    exact h

theorem Receiving.handleConnected (h : Receiving base stream arriving e)
    (hs : Sending base stream arriving) (hp : p ∈ arriving) (hstatus : e.socket.status = .connected) :
    ∃ s out, e.socket.handleConnected p = some (s, out) ∧
      Receiving base stream arriving { e with socket := s } ∧ s.curSeq = e.socket.curSeq ∧
      (∀ q ∈ out, IsAck q) ∧
      (s.status = .connected ∨ s.status = .closed ∧ p.flags ∈ [RST, FIN]) := by
  obtain ⟨⟨status, dataBegSeq, dataAvailable, receivedData, curSeq⟩, first, sent, given⟩ := e
  change status = .connected at hstatus
  subst hstatus
  unfold Socket.handleConnected
  dsimp only
  split
  · split
    · split
      · obtain ⟨s, out, hsend, hrecv, hstatus', hcur, hout⟩ := h.sendAck
        exact ⟨s, out, hsend, hrecv, hcur, hout, Or.inl hstatus'⟩
      · exact ⟨_, _, rfl, h, rfl, nofun, Or.inl rfl⟩
    · rename_i hseq
      obtain ⟨s, out, hsend, hrecv, hstatus', hcur, hout⟩ :=
        (h.insert hs hp (Nat.le_of_not_lt hseq)).sendAck
      exact ⟨s, out, hsend, hrecv, hcur, hout, Or.inl hstatus'⟩
  · split
    · rename_i hreset
      refine ⟨_, _, rfl, ?_, rfl, nofun, Or.inr ⟨rfl, hreset⟩⟩
      exact ⟨⟨h.given, h.beg, h.within, h.le, h.apart, h.settled⟩, h.available⟩
    · exact ⟨_, _, rfl, h, rfl, nofun, Or.inl rfl⟩

theorem Receiving.recvfrom (h : Receiving base stream arriving e) (len : Nat) :
    ∃ s bytes, e.socket.recvfrom len = some (s, bytes) ∧
      Receiving base stream arriving { e with socket := s, given := e.given ++ bytes } ∧
      s.status = e.socket.status ∧ s.curSeq = e.socket.curSeq := by
  generalize hn : min e.socket.dataAvailable len = n
  have havailable := h.available
  have hreach : e.socket.dataBegSeq + n ≤ reach e.socket.receivedData.entries e.socket.dataBegSeq := by
    omega
  obtain ⟨m, hgive, hm⟩ := give_eq h.laid h.ne_nil hreach (Nat.lt_succ_self _) []
  have hbeg := h.beg
  have hgiven := List.prefix_iff_eq_take.mp h.given
  have hlength := h.given.length_le
  have hdata := collect_data h.laid h.within (by omega) hreach
  have hend : reach e.socket.receivedData.entries e.socket.dataBegSeq ≤ base + stream.length := by
    apply reach_le
    · omega
    · exact fun s hs => (h.within s hs).le_end
  have hindex : e.socket.dataBegSeq - base = e.given.length := by omega
  rw [hindex] at hdata
  have hbytes : (collect e.socket.receivedData.entries n).2.length = n := by
    rw [hdata, List.length_take, List.length_drop]
    omega
  obtain ⟨hlaid, hreach'⟩ := collect_reach h.laid h.ne_nil hreach
  unfold Socket.recvfrom
  rw [hn]
  dsimp only
  rw [OrderedMap.size, hgive]
  refine ⟨_, _, rfl, ⟨⟨?_, ?_, ?_, ?_, ?_, ?_⟩, ?_⟩, rfl, rfl⟩
  · -- the next part of the stream
    change e.given ++ ([] ++ (collect e.socket.receivedData.entries n).2) <+: stream
    rw [List.nil_append, hdata]
    conv_lhs => rw [hgiven]
    rw [List.length_take, Nat.min_eq_left hlength, ← List.take_add]
    exact List.take_prefix ..
  · change e.socket.dataBegSeq + n =
      base + (e.given ++ ([] ++ (collect e.socket.receivedData.entries n).2)).length
    rw [List.nil_append, List.length_append, hbytes]
    omega
  · intro s hs
    change s ∈ m.entries at hs
    rw [hm] at hs
    obtain ⟨t, ht, k, hk, rfl, _⟩ := mem_collect h.laid h.ne_nil hreach hs
    exact (h.within t ht).tail hk
  · intro s hs
    change s ∈ m.entries at hs
    rw [hm] at hs
    exact hlaid.le s hs
  · change ∀ s ∈ m.entries, ∀ t ∈ m.entries, s.1 = t.1 ∨ Apart s t
    rw [hm]
    exact hlaid.apart_or_eq
  · intro q hq hqdata s hs
    change s ∈ m.entries at hs
    rw [hm] at hs
    obtain ⟨t, ht, k, hk, rfl, hlast⟩ := mem_collect h.laid h.ne_nil hreach hs
    change q.seq < e.socket.dataBegSeq + n ∨ _
    rcases h.settled q hq hqdata t ht with hlt | heq | hapart
    · exact Or.inl (by omega)
    · rcases hlast with rfl | hpos
      · exact Or.inr (Or.inl heq)
      · by_cases hk : k = 0
        · subst hk
          exact Or.inr (Or.inl heq)
        · change t.1 + k = e.socket.dataBegSeq + n at hpos
          exact Or.inl (by omega)
    · exact Or.inr (Or.inr (hapart.tail (Nat.le_of_lt hk)))
  · change e.socket.dataBegSeq + n + (e.socket.dataAvailable - n) ≤
      reach m.entries (e.socket.dataBegSeq + n)
    rw [hm, hreach']
    omega

-- The sender goes on: new packets lie behind the old stream.
theorem Receiving.extend (h : Receiving base stream arriving e) (more : List UInt8)
    {packets : List Packet} (hnew : ∀ q ∈ packets, q.data ≠ [] → base + stream.length ≤ q.seq) :
    Receiving base (stream ++ more) (packets ++ arriving) e where
  given := h.given.trans (List.prefix_append ..)
  beg := h.beg
  within s hs := (h.within s hs).append more
  le := h.le
  apart := h.apart
  settled q hq hqdata s hs := by
    rcases List.mem_append.mp hq with hq | hq
    · exact Or.inr (Or.inr ((h.within s hs).apart_end (hnew q hq hqdata)).symm)
    · exact h.settled q hq hqdata s hs
  available := h.available

theorem Receiving.control (h : Receiving base stream arriving e) {packets : List Packet}
    (hnew : ∀ q ∈ packets, q.data = []) : Receiving base stream (packets ++ arriving) e := by
  have hextend := h.extend [] fun q hq hqdata => absurd (hnew q hq) hqdata
  rwa [List.append_nil] at hextend

theorem Receiving.subset (h : Receiving base stream arriving e) :
    Receiving base stream [] e :=
  ⟨⟨h.given, h.beg, h.within, h.le, h.apart, nofun⟩, h.available⟩

end Receiving

section Sending

variable {first : Nat} {sent buf : List UInt8} {packets new : List Packet}

theorem Sending.control_append (h : Sending first sent packets)
    (hnew : ∀ q ∈ new, q.data = [] ∧ q.seq < first) : Sending first sent (new ++ packets) where
  control p hp hnil := by
    rcases List.mem_append.mp hp with hp | hp
    · exact (hnew p hp).2
    · exact h.control p hp hnil
  within p hp hdata := by
    rcases List.mem_append.mp hp with hp | hp
    · exact absurd (hnew p hp).1 hdata
    · exact h.within p hp hdata
  apart p hp q hq hpdata hqdata := by
    rcases List.mem_append.mp hp with hp | hp
    · exact absurd (hnew p hp).1 hpdata
    · rcases List.mem_append.mp hq with hq | hq
      · exact absurd (hnew q hq).1 hqdata
      · exact h.apart p hp q hq hpdata hqdata

-- The packets of a buffer are parts of it, one behind the other.
theorem chop_spec {fuel : Nat} (h : Socket.chop fuel buf (first + sent.length) = some new) :
    (∀ p ∈ new, p.data ≠ [] ∧ p.flags = 0 ∧ first + sent.length ≤ p.seq ∧
      Within first (sent ++ buf) p.segment) ∧
    ∀ p ∈ new, ∀ q ∈ new, p.seq = q.seq ∨ Apart p.segment q.segment := by
  induction fuel generalizing buf sent new with
  | zero =>
      cases h
      exact ⟨nofun, nofun⟩
  | succ fuel ih =>
      unfold Socket.chop at h
      split at h
      · cases h
        exact ⟨nofun, nofun⟩
      · rename_i hbuf
        dsimp only at h
        split at h
        · rw [Option.map_eq_some_iff] at h
          obtain ⟨rest, hrest, rfl⟩ := h
          generalize hlen : min buf.length Socket.maxDataLen = len at hrest ⊢
          have hpos : 0 < len := by
            have := List.length_pos_iff.mpr hbuf
            have hmax : 0 < Socket.maxDataLen := by decide
            omega
          have htake : (buf.take len).length = len := by
            rw [List.length_take]
            omega
          have hsent : first + sent.length + len = first + (sent ++ buf.take len).length := by
            rw [List.length_append, htake]
            omega
          have hsplit : sent ++ buf = (sent ++ buf.take len) ++ buf.drop len := by
            rw [List.append_assoc, List.take_append_drop]
          rw [hsent] at hrest
          obtain ⟨hparts, hapart⟩ := ih hrest
          have hne : buf.take len ≠ [] := by
            rw [← List.length_pos_iff, htake]
            exact hpos
          have hhead : Within first (sent ++ buf) (first + sent.length, buf.take len) := by
            rw [hsplit]
            exact (Within.last first sent hne).append _
          have hbehind : ∀ q ∈ rest, Apart (first + sent.length, buf.take len) q.segment := by
            intro q hq
            have := (hparts q hq).2.2.1
            left
            dsimp only [Packet.segment]
            omega
          refine ⟨?_, ?_⟩
          · intro p hp
            rcases List.mem_cons.mp hp with rfl | hp
            · exact ⟨hne, rfl, Nat.le_refl _, hhead⟩
            · obtain ⟨hdata, hflags, hseq, hwithin⟩ := hparts p hp
              refine ⟨hdata, hflags, by omega, ?_⟩
              rw [hsplit]
              exact hwithin
          · intro p hp q hq
            rcases List.mem_cons.mp hp with rfl | hp
            · rcases List.mem_cons.mp hq with rfl | hq
              · exact Or.inl rfl
              · exact Or.inr (hbehind q hq)
            · rcases List.mem_cons.mp hq with rfl | hq
              · exact Or.inr (hbehind p hp).symm
              · exact hapart p hp q hq
        · cases h

theorem Sending.send (h : Sending first sent packets) {fuel : Nat}
    (hchop : Socket.chop fuel buf (first + sent.length) = some new) :
    Sending first (sent ++ buf) (new ++ packets) := by
  obtain ⟨hparts, hapart⟩ := chop_spec hchop
  have hbehind : ∀ p ∈ packets, p.data ≠ [] → ∀ q ∈ new, Apart p.segment q.segment := by
    intro p hp hdata q hq
    exact (h.within p hp hdata).apart_end (hparts q hq).2.2.1
  refine ⟨?_, ?_, ?_⟩
  · intro p hp hnil
    rcases List.mem_append.mp hp with hp | hp
    · exact absurd hnil (hparts p hp).1
    · exact h.control p hp hnil
  · intro p hp hdata
    rcases List.mem_append.mp hp with hp | hp
    · exact (hparts p hp).2.2.2
    · exact (h.within p hp hdata).append buf
  · intro p hp q hq hpdata hqdata
    rcases List.mem_append.mp hp with hp | hp
    · rcases List.mem_append.mp hq with hq | hq
      · exact hapart p hp q hq
      · exact Or.inr (hbehind q hq hqdata p hp).symm
    · rcases List.mem_append.mp hq with hq | hq
      · exact Or.inr (hbehind p hp hpdata q hq)
      · exact h.apart p hp q hq hpdata hqdata

end Sending

end Rpcsx.P2ps.Stream
