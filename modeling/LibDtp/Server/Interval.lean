import LibDtp.Server.Transfer

/-!
# Polling through an interval

`os_hal_start_poll_operation` calls `dtp_server_poll_loop` until it returns `false`. Each call sends
a round of packets, and breaks off early when there is no buffer; three counters carry the state
from one call to the next.

## The model

A `PollTurn` is a step of the poll function, with what other tasks do to the transfer's context just
before it: they may stop it, and they may have heard of the client. An endless stream of turns
drives the operation that a state at the `for` enters.

## What is proved

* `Sending.turn` — a turn sends the next packet of the interval, begins a new round, or is the last
  one.
* `interval_delivered` — the operation comes to its end, and what it has sent is the bytes of the
  interval in chunks, whatever the size of a round and whenever there is no buffer; if it is
  stopped, it has sent the first of those packets.
-/

namespace LibDtp

open Chunks Runs

/-- The packets carry the bytes from `start` to `stop` of a payload, in chunks of `eff`. -/
structure Delivers (payload : List UInt8) (eff start stop : ℕ) (ps : List Packet) : Prop where
  /-- The offsets go up by `eff`. -/
  offsets : ps.map (·.offset.toNat) = (List.range ps.length).map fun k => start + k * eff
  /-- The length of a packet is that of its data, with the header. -/
  length : ∀ p ∈ ps, p.length.toNat = p.data.length + 8
  /-- All packets but the last are full. -/
  full : ∀ p ∈ ps.dropLast, p.data.length = eff
  /-- The last has what remains. -/
  last : ∀ p ∈ ps.getLast?, 1 ≤ p.data.length ∧ p.data.length ≤ eff
  /-- The bytes are those of the payload, each of them once. -/
  data : ps.flatMap (·.data) = (payload.take stop).drop start

/-- The packets of an interval. -/
def Interval.packets (payload : List UInt8) (r : MetaReq) (cur : Interval) : List Packet :=
  (cur.numbers (count payload.length r.eff)).map (chunkPacket payload r)

/-- A turn of the poll function, and what other tasks have done since the last one. -/
structure PollTurn where
  /-- `keep_running` has been cleared. -/
  stop : Bool
  /-- `client_alive_ts` has been set. -/
  alive : Option UInt32
  /-- What the world answers. -/
  tick : Tick

namespace SendState

/-- What other tasks do. -/
def interfere (s : SendState) (e : PollTurn) : SendState :=
  { s with ctx := { s.ctx with
      keepRunning := s.ctx.keepRunning && !e.stop
      clientAliveTs := e.alive.getD s.ctx.clientAliveTs } }

/-- A turn. -/
def pollTurn (s : SendState) (e : PollTurn) : SendState := (s.interfere e).step e.tick

/-- The states of a run over a stream of turns. -/
def polls (s : SendState) (f : ℕ → PollTurn) : ℕ → SendState
  | 0 => s
  | n + 1 => (s.polls f n).pollTurn (f n)

/-- `start_sending_data` is about to enter interval `i` of request `r`, with room for packets in a
round. -/
structure AtInterval (payload : List UInt8) (r : MetaReq) (i : ℕ) (s : SendState) : Prop where
  /-- The control point. -/
  pc : s.pc = .interval i
  /-- The request. -/
  request : s.ctx.request = r
  /-- The payload. -/
  size : s.ctx.payloadSize.toNat = payload.length
  /-- The transfer has not been stopped. -/
  keepRunning : s.ctx.keepRunning = true
  /-- The size of a round. -/
  perRound : 1 ≤ s.transfer.nofPacketsPerRound.toNat

/-- The poll function is inside interval `cur`, with room for packets in a round. -/
structure Polled (payload : List UInt8) (r : MetaReq) (cur : Interval) (i : ℕ) (s : SendState) :
    Prop where
  /-- The control point. -/
  pc : ∃ c, s.pc = .poll i c
  /-- The packet size. -/
  mtu : s.ctx.request.mtu = r.mtu
  /-- The session. -/
  sessionId : s.ctx.request.sessionId = r.sessionId
  /-- The counters. -/
  inside : Inside payload.length r.eff cur s.transfer
  /-- The size of a round. -/
  perRound : 1 ≤ s.transfer.nofPacketsPerRound.toNat

/-- The poll function has sent `n` packets of interval `cur`, after those in `before`. -/
structure Sending (payload : List UInt8) (r : MetaReq) (cur : Interval) (i : ℕ)
    (before : List Packet) (n : ℕ) (s : SendState) : Prop extends Polled payload r cur i s where
  /-- The bytes of the packets. -/
  counter : s.transfer.sentInInterval.toNat = min (n * r.eff) s.transfer.bytesInInterval.toNat
  /-- The packets. -/
  sent : s.sent = before ++ (cur.packets payload r).take n

/-- The poll function has returned `false` after `n` packets of interval `cur`: all there are, if it
has not been stopped. -/
structure Left (payload : List UInt8) (r : MetaReq) (cur : Interval) (i : ℕ) (before : List Packet)
    (n : ℕ) (s : SendState) : Prop where
  /-- The control point. -/
  pc : s.pc = .interval (i + 1)
  /-- The packets. -/
  sent : s.sent = before ++ (cur.packets payload r).take n
  /-- Are these all? -/
  all : s.ctx.keepRunning = true → (cur.packets payload r).length ≤ n

end SendState

/-- An interval that starts in the payload, and ends at a 32-bit offset and not before its start,
fits. -/
theorem Interval.fits_of_le {size eff : ℕ} {cur : Interval} (hle : cur.start ≤ cur.stop)
    (hstart : cur.start.toNat * eff ≤ size)
    (hstop : cur.stop ≠ uint32Max → (cur.stop.toNat + 1) * eff < 2 ^ 32) :
    cur.Fits size eff :=
  ⟨hstart, or_iff_not_imp_left.mpr fun hopen =>
    ⟨Nat.le_succ_of_le (UInt32.le_iff_toNat_le.mp hle), hstop hopen⟩⟩

/-! ### The packets of an interval -/

section Packets

variable {payload : List UInt8} {r : MetaReq} {cur : Interval}

theorem Interval.length_packets_gt_iff (hm : 8 < r.mtu.toNat) (n : ℕ) :
    n < (cur.packets payload r).length ↔
      (cur.start.toNat + n) * r.eff < cur.stopByte payload.length r.eff := by
  rw [Interval.packets, List.length_map, cur.length_numbers_gt_iff (MetaReq.eff_pos hm)]

theorem Interval.getElem_packets {n : ℕ} (h : n < (cur.packets payload r).length) :
    (cur.packets payload r)[n] = chunkPacket payload r (cur.start.toNat + n) := by
  simp only [Interval.packets, List.getElem_map, cur.getElem_numbers]

/-- The next packet of an interval carries the next chunk of the payload. -/
theorem Interval.isChunk_packets (hm : 8 < r.mtu.toNat) (hlt : payload.length < 2 ^ 32) {n : ℕ}
    (h : n < (cur.packets payload r).length) :
    (cur.packets payload r)[n].IsChunk payload r.eff (cur.start.toNat + n) := by
  rw [Interval.getElem_packets h]
  refine isChunk_chunkPacket hm hlt ((lt_count_iff (MetaReq.eff_pos hm)).mpr ?_)
  exact lt_of_lt_of_le ((Interval.length_packets_gt_iff hm n).mp h) (cur.stopByte_le _ _)

/-- The packets of an interval end where it does, or at the end of the payload. -/
theorem Interval.Fits.min_length_numbers (hf : cur.Fits payload.length r.eff)
    (hm : 8 < r.mtu.toNat) :
    min ((cur.numbers (count payload.length r.eff)).length * r.eff)
    (payload.length - cur.start.toNat * r.eff) =
      cur.stopByte payload.length r.eff - cur.start.toNat * r.eff := by
  have he := MetaReq.eff_pos hm
  have hge : cur.stopByte payload.length r.eff ≤
      (cur.start.toNat + (cur.numbers (count payload.length r.eff)).length) * r.eff := by
    rw [← not_lt, ← cur.length_numbers_gt_iff he]
    exact lt_irrefl _
  rcases (cur.stopByte_le payload.length r.eff).eq_or_lt with heq | hlt
  · rw [heq, Nat.add_mul] at hge
    rw [heq]
    omega
  · have hopen : cur.stop ≠ uint32Max := by
      intro hopen
      rw [Interval.stopByte, if_pos hopen] at hlt
      exact lt_irrefl _ hlt
    obtain ⟨hle, -⟩ := hf.stop.resolve_left hopen
    have hlen : cur.start.toNat + (cur.numbers (count payload.length r.eff)).length ≤
        cur.stop.toNat + 1 := by
      rw [Interval.numbers, List.length_range', if_neg hopen]
      omega
    have hstop := Nat.mul_le_mul_right r.eff hlen
    rw [Interval.stopByte, if_neg hopen] at hge hlt ⊢
    rw [Nat.add_mul cur.start.toNat] at hge hstop
    omega

/-- The packets of an interval that fits carry its bytes. -/
theorem Interval.Fits.delivers (hf : cur.Fits payload.length r.eff) (hm : 8 < r.mtu.toNat)
    (hlt : payload.length < 2 ^ 32) :
    Delivers payload r.eff (cur.start.toNat * r.eff) (cur.stopByte payload.length r.eff)
    (cur.packets payload r) := by
  have he := MetaReq.eff_pos hm
  refine ⟨?_, ?_, ?_, ?_, ?_⟩
  · refine List.ext_getElem (by simp) fun n hn _ => ?_
    rw [List.length_map] at hn
    rw [List.getElem_map, (Interval.isChunk_packets hm hlt hn).offset, List.getElem_map,
      List.getElem_range, Nat.add_mul]
  · intro p hp
    obtain ⟨n, hn, rfl⟩ := List.mem_iff_getElem.mp hp
    have hchunk := Interval.isChunk_packets hm hlt hn
    rw [hchunk.length, hchunk.data, length_part]
  · intro p hp
    obtain ⟨n, hn, rfl⟩ := List.mem_iff_getElem.mp hp
    rw [List.length_dropLast] at hn
    have hnext := (Interval.length_packets_gt_iff hm (n + 1)).mp
      (show n + 1 < (cur.packets payload r).length by omega)
    have hstop := cur.stopByte_le payload.length r.eff
    rw [← Nat.add_assoc, Nat.succ_mul] at hnext
    rw [List.getElem_dropLast,
      (Interval.isChunk_packets hm hlt (show n < (cur.packets payload r).length by omega)).data,
      length_part, len]
    omega
  · intro p hp
    obtain ⟨n, hn, rfl⟩ := List.mem_iff_getElem.mp (List.mem_of_getLast? hp)
    have hchunk := Interval.isChunk_packets hm hlt hn
    rw [hchunk.data, length_part]
    exact ⟨len_pos he hchunk.lt, len_le⟩
  · have hnumbers : cur.numbers (count payload.length r.eff) =
        List.range' cur.start.toNat (cur.numbers (count payload.length r.eff)).length := by
      simp [Interval.numbers]
    rw [Interval.packets, List.flatMap_map,
      show (fun k => (chunkPacket payload r k).data) = part payload r.eff from rfl, hnumbers,
      flatMap_part_range', List.drop_take, List.take_eq_take_iff, List.length_drop,
      hf.min_length_numbers hm]
    have hstop := cur.stopByte_le payload.length r.eff
    omega

end Packets

/-! ### One turn -/

namespace SendState

section Turn

variable {payload : List UInt8} {r : MetaReq} {cur : Interval} {i n : ℕ} {before : List Packet}
  {s : SendState}

/-- Other tasks make no difference to the counters. -/
theorem Polled.interfere (h : Polled payload r cur i s) (e : PollTurn) :
    Polled payload r cur i (s.interfere e) :=
  ⟨h.pc, h.mtu, h.sessionId, h.inside, h.perRound⟩

/-- At the end of a round, a new one begins if there is something left and the transfer has not been
stopped; otherwise the poll function returns `false`. -/
theorem Polled.endRound (h : Polled payload r cur i s) (log : List SendObs) :
    (SendState.endRound { s with log := log } i).pc = .interval (i + 1) ∧
        ¬ (s.transfer.sentInInterval < s.transfer.bytesInInterval ∧ s.ctx.keepRunning = true) ∨
      Polled payload r cur i (SendState.endRound { s with log := log } i) ∧
        (SendState.endRound { s with log := log } i).pc = .poll i 0 ∧
        s.transfer.sentInInterval < s.transfer.bytesInInterval ∧ s.ctx.keepRunning = true := by
  simp only [SendState.endRound]
  split_ifs with hmore
  · exact Or.inr ⟨⟨⟨0, rfl⟩, h.mtu, h.sessionId, h.inside, h.perRound⟩, rfl, hmore⟩
  · exact Or.inl ⟨rfl, hmore⟩

/-- Sending a packet, whatever of it has been read. -/
theorem Polled.sendPacket (hm : 8 < r.mtu.toNat) (hlt : payload.length < 2 ^ 32)
    (h : Polled payload r cur i s) {rd : ReadResult} (hrd : rd.count ≤ s.nextSize)
    (c now : UInt32) :
    Polled payload r cur i (s.sendPacket i c rd now) := by
  obtain ⟨hbytes, hadd, hle⟩ := h.inside.advance hm h.mtu hlt hrd
  refine ⟨⟨_, rfl⟩, h.mtu, h.sessionId, ⟨hadd ▸ hle, ?_, h.inside.bytesInInterval⟩, h.perRound⟩
  show (s.transfer.bytesSent + _).toNat = _ + (s.transfer.sentInInterval + _).toNat
  rw [hbytes, hadd, h.inside.bytesSent, Nat.add_assoc]

/-- A turn is a turn of the `while`. -/
theorem pollTurn_eq {c : UInt32} (hpc : s.pc = .poll i c) (e : PollTurn) :
    s.pollTurn e = (s.interfere e).pollStep i c e.tick := by
  rw [pollTurn, SendState.step, show (s.interfere e).pc = .poll i c from hpc]

/-- There are packets left in an interval as long as there are bytes left. -/
theorem Sending.lt_iff (hm : 8 < r.mtu.toNat) (h : Sending payload r cur i before n s) :
    n < (cur.packets payload r).length ↔
      s.transfer.sentInInterval < s.transfer.bytesInInterval := by
  rw [Interval.length_packets_gt_iff hm, Nat.add_mul, ← h.inside.bytesInInterval,
    UInt32.lt_iff_toNat_lt, h.counter]
  omega

/-- The end of a round makes no difference to what has been sent. -/
theorem Sending.endRound (hm : 8 < r.mtu.toNat) (h : Sending payload r cur i before n s)
    {log : List SendObs} (hlog : sentPackets log = s.sent) :
    Left payload r cur i before n (SendState.endRound { s with log := log } i) ∨
      Sending payload r cur i before n (SendState.endRound { s with log := log } i) ∧
        (SendState.endRound { s with log := log } i).pc = .poll i 0 ∧
        s.transfer.sentInInterval < s.transfer.bytesInInterval ∧ s.ctx.keepRunning = true := by
  have hsent : (SendState.endRound { s with log := log } i).sent =
      before ++ (cur.packets payload r).take n := by
    rw [sent_endRound]
    exact hlog.trans h.sent
  rcases h.toPolled.endRound log with ⟨hpc, hno⟩ | ⟨hpolled, hpc, hmore⟩
  · refine Or.inl ⟨hpc, hsent, fun hk => ?_⟩
    rw [ctx_endRound] at hk
    rw [← not_lt, h.lt_iff hm]
    exact fun hlt => hno ⟨hlt, hk⟩
  · exact Or.inr ⟨⟨hpolled, by rw [transfer_endRound]; exact h.counter, hsent⟩, hpc, hmore⟩

/-- Sending a packet that has been read in full. -/
theorem Sending.sendPacket (hm : 8 < r.mtu.toNat) (hlt : payload.length < 2 ^ 32)
    (h : Sending payload r cur i before n s) {t : Tick} (ht : t.Reads payload)
    (hz : (t.read s.transfer.bytesSent s.nextSize).count ≠ 0) (c now : UInt32) :
    n < (cur.packets payload r).length ∧ Sending payload r cur i before (n + 1)
      (s.sendPacket i c (t.read s.transfer.bytesSent s.nextSize) now) := by
  obtain ⟨hn, hcounter, hpkt⟩ := next_packet hm hlt h.mtu h.sessionId h.inside h.counter ht hz
  have hn' : n < (cur.packets payload r).length := by rwa [Interval.packets, List.length_map]
  refine ⟨hn', h.toPolled.sendPacket hm hlt (ht.1 _ _) c now, hcounter, ?_⟩
  rw [sent_sendPacket, hpkt, h.sent, List.take_succ_eq_append_getElem hn',
    Interval.getElem_packets hn', List.append_assoc]

/-- A turn sends the next packet, begins a new round, or is the last one. It is the last one only if
nothing is left. -/
theorem Sending.turn (hm : 8 < r.mtu.toNat) (hlt : payload.length < 2 ^ 32)
    (h : Sending payload r cur i before n s) {e : PollTurn} (he : e.tick.Reads payload) :
    Left payload r cur i before n (s.pollTurn e) ∨
      n < (cur.packets payload r).length ∧ Sending payload r cur i before (n + 1) (s.pollTurn e) ∨
      Sending payload r cur i before n (s.pollTurn e) ∧ (s.pollTurn e).pc = .poll i 0 ∧
        (s.pc = .poll i 0 → ¬ e.tick.buffer = true) := by
  obtain ⟨c, hpc⟩ := h.pc
  have h' : Sending payload r cur i before n (s.interfere e) :=
    ⟨h.toPolled.interfere e, h.counter, h.sent⟩
  rw [pollTurn_eq hpc]
  generalize s.interfere e = u at h'
  obtain ⟨hno, hpoll⟩ | ⟨-, ⟨hz, hpoll⟩ | ⟨hz, hpoll⟩⟩ := u.pollStep_cases i c e.tick <;> rw [hpoll]
  · rcases h'.endRound hm rfl with hleft | ⟨hsending, hround, -, hk⟩
    · exact Or.inl hleft
    · refine Or.inr (Or.inr ⟨hsending, hround, fun h0 hb => ?_⟩)
      rw [hpc] at h0
      cases h0
      exact hno ⟨UInt32.lt_iff_toNat_lt.mpr h'.perRound, hk, hb⟩
  · refine Or.inl ((h'.endRound hm (by simp [SendState.sent, sentPackets])).resolve_right ?_)
    rintro ⟨-, -, hmore, -⟩
    obtain ⟨hread, hsize⟩ := read_eq hm h'.mtu h'.inside he
    have hpos := MetaReq.eff_pos hm
    rw [UInt32.lt_iff_toNat_lt] at hmore
    rw [hread] at hz
    rw [show u.nextSize = 0 from hz, UInt32.toNat_zero, left] at hsize
    omega
  · exact Or.inr (Or.inl (h'.sendPacket hm hlt he hz c e.tick.now))

end Turn

/-! ### The whole interval -/

section Whole

variable {payload : List UInt8} {r : MetaReq} {cur : Interval} {i : ℕ} {s : SendState}

/-- Entering the interval. -/
theorem AtInterval.sending (h : AtInterval payload r i s) (hm : 8 < r.mtu.toNat)
    (hcur : r.requested[i]? = some cur) (hf : cur.Fits payload.length r.eff) :
    Sending payload r cur i s.sent 0 (s.intervalStep i) := by
  have hserves : Serves r s.ctx.payloadSize s := by
    rw [← h.request]
    exact ⟨rfl, rfl, rfl, rfl, fun _ _ => rfl⟩
  obtain ⟨request, hreq, henter⟩ := intervalStep_eq_enter hserves h.pc hm hcur h.keepRunning
  have hin := inside_enter hm (h.size ▸ hf) s i request
  rw [h.size] at hin
  have hserves' :=
    hserves.enter h.pc hreq (cur.intervalStart r.chunk) (cur.rawStop r.chunk s.ctx.payloadSize)
    (cur.intervalStop r.chunk s.ctx.payloadSize)
  rw [henter]
  exact ⟨⟨⟨0, rfl⟩, hserves'.mtu, hserves'.sessionId, hin, h.perRound⟩,
    by simp [SendState.enter], by simp [sent_enter]⟩

/-- With a buffer again and again, the poll function returns `false` in the end. Progress is
measured by the packets that are left. -/
theorem Sending.leaves (hm : 8 < r.mtu.toNat) (hlt : payload.length < 2 ^ 32) {before : List Packet}
    {n : ℕ} (h : Sending payload r cur i before n s) {f : ℕ → PollTurn}
    (hreads : ∀ n, (f n).tick.Reads payload) (hfair : ∀ n, ∃ m, n ≤ m ∧ (f m).tick.buffer = true) :
    ∃ m, (∃ k, Left payload r cur i before k (s.polls f m)) ∧
      ∀ j < m, ∃ k, Sending payload r cur i before k (s.polls f j) := by
  let W (k : ℕ) (u : SendState) : Prop := ∃ n, (cur.packets payload r).length - n = k ∧
    Sending payload r cur i before n u
  have hturn : ∀ m k, W k (s.polls f m) →
      (∃ k, Left payload r cur i before k (s.polls f (m + 1))) ∨
        (∃ j < k, W j (s.polls f (m + 1))) ∨
        W k (s.polls f (m + 1)) ∧ (s.polls f (m + 1)).pc = .poll i 0 ∧
          ((s.polls f m).pc = .poll i 0 → ¬ (f m).tick.buffer = true) := by
    rintro m k ⟨n, rfl, hsending⟩
    rcases hsending.turn hm hlt (hreads m) with hleft | ⟨hmore, hnext⟩ | ⟨hsame, hround⟩
    · exact Or.inl ⟨n, hleft⟩
    · exact Or.inr (Or.inl ⟨_, by omega, n + 1, rfl, hnext⟩)
    · exact Or.inr (Or.inr ⟨⟨n, rfl, hsame⟩, hround⟩)
  obtain ⟨m, hleft, hbefore⟩ :=
    @leads_to _ (s.polls f) (fun m => (f m).tick.buffer = true) W (fun u => u.pc = .poll i 0)
    (fun u => ∃ k, Left payload r cur i before k u) hfair hturn _ 0 ⟨n, rfl, h⟩
  simp only [Nat.zero_add] at hleft hbefore
  refine ⟨m, hleft, fun j hj => ?_⟩
  obtain ⟨-, k, -, hsending⟩ := hbefore j hj
  exact ⟨k, hsending⟩

end Whole

end SendState

open SendState

theorem getElem?_requested_of_intervalAt {r : MetaReq} {i : ℕ} {cur : Interval}
    (hi : i < r.nofIntervals.toNat) (h : r.intervalAt i = .ok cur) :
    r.requested[i]? = some cur := by
  by_cases h8 : i < 8
  · rw [r.intervalAt_eq_ok h8] at h
    rw [MetaReq.requested, List.getElem?_take_of_lt hi, ← Except.ok.inj h,
      List.getElem?_eq_getElem (by simpa using h8),
      Vector.getElem_toList]
  · rw [r.intervalAt_eq_error (by omega)] at h
    cases h

/-- For a request, one of its intervals and a payload that the interval starts in, there is one
sequence of packets that carries the interval's bytes in chunks, and it is what is sent for it:
whatever the size of a round, whenever there is no buffer, and whatever other tasks do, polling
comes to an end; up to then the packets are the first ones of that sequence, and in the end all of
them if the transfer has not been stopped. -/
theorem interval_delivered (payload : List UInt8) (hlt : payload.length < 2 ^ 32) (r : MetaReq)
    (hm : 8 < r.mtu.toNat) (i : ℕ) (hi : i < r.nofIntervals.toNat) (cur : Interval)
    (hcur : r.intervalAt i = .ok cur) (hle : cur.start ≤ cur.stop)
    (hstart : cur.start.toNat * r.eff ≤ payload.length)
    (hstop : cur.stop ≠ uint32Max → (cur.stop.toNat + 1) * r.eff < 2 ^ 32) :
    ∃ ps : List Packet,
      Delivers payload r.eff (cur.start.toNat * r.eff)
        (if cur.stop = uint32Max then payload.length
          else min ((cur.stop.toNat + 1) * r.eff) payload.length) ps ∧
      ∀ (s : SendState) (f : ℕ → PollTurn), AtInterval payload r i s →
        (∀ n, (f n).tick.Reads payload) →
        (∀ n, ∃ m, n ≤ m ∧ (f m).tick.buffer = true) →
        ∃ n, ((s.intervalStep i).polls f n).pc = .interval (i + 1) ∧
          (((s.intervalStep i).polls f n).ctx.keepRunning = true →
            ((s.intervalStep i).polls f n).sent = s.sent ++ ps) ∧
          (∀ m < n, ∃ c, ((s.intervalStep i).polls f m).pc = .poll i c) ∧
          ∀ m ≤ n, ∃ k, ((s.intervalStep i).polls f m).sent = s.sent ++ ps.take k := by
  have hf := Interval.fits_of_le hle hstart hstop
  refine ⟨cur.packets payload r, hf.delivers hm hlt, fun s f h hreads hfair => ?_⟩
  have hsending := h.sending hm (getElem?_requested_of_intervalAt hi hcur) hf
  obtain ⟨n, ⟨k, hleft⟩, hsending⟩ := hsending.leaves hm hlt hreads hfair
  refine ⟨n, hleft.pc, fun hk => ?_, fun m hm => ?_, fun m hm => ?_⟩
  · rw [hleft.sent, List.take_of_length_le (hleft.all hk)]
  · obtain ⟨k, hm⟩ := hsending m hm
    exact hm.pc
  · rcases hm.lt_or_eq with hm | rfl
    · obtain ⟨k, hm⟩ := hsending m hm
      exact ⟨k, hm.sent⟩
    · exact ⟨k, hleft.sent⟩

/-- Without other tasks, the turns are the steps. -/
theorem polls_eq_trace (s : SendState) (g : ℕ → Tick) (n : ℕ) :
    s.polls (fun n => ⟨false, none, g n⟩) n = s.trace g n := by
  induction n with
  | zero => rfl
  | succ n ih => rw [polls, ih, pollTurn, interfere, Bool.not_false, Bool.and_true]; rfl

/-- A transfer of a whole payload of ten bytes is about to begin, two packets at a time. -/
def tenToSend : SendState := ⟨.interval 0, wholeTransfer 10, ⟨0, 0, 0, 2, 0⟩, []⟩

/-- It is sent. -/
theorem interval_delivered_ten : ∃ n, ((tenToSend.intervalStep 0).polls
      (fun _ => ⟨false, none, .steady (List.replicate 10 7) 0⟩) n).pc = .interval 1 ∧
    Delivers (List.replicate 10 7) 4 0 10 ((tenToSend.intervalStep 0).polls
      (fun _ => ⟨false, none, .steady (List.replicate 10 7) 0⟩) n).sent := by
  obtain ⟨ps, hps, hall⟩ :=
    interval_delivered (List.replicate 10 7) (by decide) (wholeTransfer 10).request (by decide) 0
    (by decide) ⟨0, uint32Max⟩ rfl (by decide) (by decide) (by decide)
  obtain ⟨n, hpc, hsent, -⟩ :=
    hall tenToSend (fun _ => ⟨false, none, .steady (List.replicate 10 7) 0⟩)
    ⟨rfl, rfl, rfl, rfl, by decide⟩ (fun _ => ⟨fun _ _ => UInt32.le_refl _, fun _ _ _ => rfl⟩)
      fun n => ⟨n, le_rfl, rfl⟩
  refine ⟨n, hpc, ?_⟩
  rw [hsent (by rw [polls_eq_trace]; exact (keepRunning_steady _ (by decide) (by decide) n).1)]
  exact hps

end LibDtp
