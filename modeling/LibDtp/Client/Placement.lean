import LibDtp.Client.Chunked
import LibDtp.Server.Interval

/-!
# Short reads

The payload's `read` callback may return fewer bytes than it is asked for. `dtp_server_poll_loop`
then goes on from where the callback has got to, but it has fixed the length of the packet before;
and the client writes a packet at the start of the chunk that its offset is in.

## The model

A tick `ReadsSome` of a payload if the callback returns at least one byte and no more than it is
asked for, those bytes are right, and the rest of the packet's data is whatever it was. A packet is
`Faithful` if all its data are the bytes of the payload at its offset, and `apm_on_data_packet`
writes them there.

## What is proved

* `Polled.spoiled` — once the next offset is not at the start of a chunk, a packet that is not
  faithful follows.
* `faithful_iff` — if all reads are full, all packets are faithful; and in an interval that is sent
  to its end, only then.
-/

namespace LibDtp

open Chunks Files Runs

attribute [ext] ReadResult

/-- The `read` callback reads a part of what it is asked for, and leaves the rest of the packet as
it was. -/
structure Tick.ReadsSome (payload : List UInt8) (t : Tick) : Prop where
  /-- It returns no more than it is asked for. -/
  polite : t.Polite
  /-- It returns something, where there is something. -/
  pos : ∀ offset size : UInt32, 0 < size.toNat → offset.toNat + size.toNat ≤ payload.length →
    (t.read offset size).count ≠ 0
  /-- The data of the packet. -/
  length : ∀ offset size : UInt32, (t.read offset size).data.length = size.toNat
  /-- The bytes that it returns. -/
  data : ∀ offset size : UInt32, offset.toNat + size.toNat ≤ payload.length →
    (t.read offset size).data.take (t.read offset size).count.toNat =
      (payload.drop offset.toNat).take (t.read offset size).count.toNat

/-- The data of a packet are the bytes of the payload at its offset, and the client writes them
there. -/
structure Packet.Faithful (payload : List UInt8) (r : MetaReq) (p : Packet) : Prop where
  /-- It is a part of the payload. -/
  inside : p.offset.toNat + (p.length.toNat - 8) ≤ payload.length
  /-- The data. -/
  data : p.data.take (p.length.toNat - 8) = (payload.drop p.offset.toNat).take (p.length.toNat - 8)
  /-- Where `apm_on_data_packet` writes them. -/
  placed : ∀ (s : Session) (d : Disk) (now : UInt32), s.hookCtx ≠ none → s.request.mtu = r.mtu →
    (apmOnDataPacket s d p now).2.output =
      writeAt d.output p.offset.toNat ((payload.drop p.offset.toNat).take (p.length.toNat - 8))

/-- The interval whose poll function is running. -/
def SendPc.polled : SendPc → Option ℕ
  | .poll i _ => some i
  | _ => none

/-- The same turn, over a payload that is read in full. -/
def PollTurn.full (payload : List UInt8) (e : PollTurn) : PollTurn :=
  { e with tick := { e.tick with
    read := fun offset size => ⟨size, (payload.drop offset.toNat).take size.toNat⟩ } }

namespace SendState

/-- The poll function of interval `i` is running. -/
def InPoll (i : ℕ) (s : SendState) (_ : PollTurn) : Prop := s.pc.polled = some i

instance (i : ℕ) (s : SendState) (e : PollTurn) : Decidable (s.InPoll i e) :=
  inferInstanceAs (Decidable (_ = _))

/-- If the `read` callback is called in a turn, it returns all that it is asked for. -/
def ReadsFully (s : SendState) (e : PollTurn) : Prop :=
  ∀ i c, s.pc = .poll i c → c < s.transfer.nofPacketsPerRound → s.ctx.keepRunning = true →
    e.stop = false →
    e.tick.buffer = true → (e.tick.read s.transfer.bytesSent s.nextSize).count = s.nextSize

/-- The next packet is at the start of a chunk, if there is one. -/
def Aligned (r : MetaReq) (s : SendState) : Prop := r.eff ∣ s.transfer.bytesSent.toNat ∨ s.left = 0

end SendState

/-! ### Packets and where they are written -/

section Faithful

variable {payload : List UInt8} {r : MetaReq} {p : Packet}

/-- A chunk is faithful. -/
theorem Packet.IsChunk.faithful {k : ℕ} (hm : 8 < r.mtu.toNat) (h : p.IsChunk payload r.eff k) :
    p.Faithful payload r := by
  have hend := mul_add_len (MetaReq.eff_pos hm) h.lt
  have hpart :
      part payload r.eff k = (payload.drop (k * r.eff)).take (len payload.length r.eff k) := by
    rw [part, List.take_eq_take_iff, List.length_drop, len]
    omega
  have hlen : p.length.toNat - 8 = len payload.length r.eff k := by
    rw [h.length, Nat.add_sub_cancel]
  refine ⟨?_, ?_, fun s d now hctx hmtu => ?_⟩
  · rw [h.offset, hlen, hend]
    exact min_le_right _ _
  · rw [h.offset, hlen, h.data, ← hpart, List.take_of_length_le (length_part ..).le]
  · obtain ⟨ctx, hctx⟩ := Option.ne_none_iff_exists'.mp hctx
    have heff : s.request.eff = r.eff := by rw [MetaReq.eff, hmtu, MetaReq.eff]
    have h' : p.IsChunk payload s.request.eff k := by rw [heff]; exact h
    simp only [apmOnDataPacket, hctx]
    rw [h'.writeAt_eq (by rw [hmtu]; exact hm), heff, h.offset, hlen, ← hpart]

/-- A packet with data that is written at its offset is at the start of a chunk. -/
theorem Packet.Faithful.dvd (hm : 8 < r.mtu.toNat) (h : p.Faithful payload r)
    (hlen : 8 < p.length.toNat) :
    r.eff ∣ p.offset.toNat := by
  have hle : (8 : UInt64) ≤ p.length.toUInt64 := by
    rw [UInt64.le_iff_toNat_le, UInt16.toNat_toUInt64]
    exact hlen.le
  have hsize : (p.length.toUInt64 - 8).toNat = p.length.toNat - 8 := by
    rw [UInt64.toNat_sub_of_le _ _ hle, UInt16.toNat_toUInt64]
    rfl
  have hplaced := h.placed ⟨false, 0, some ⟨0, initSegmentsCtx, none⟩, 0, 0, .noErr, r, 0⟩
    ⟨[], none⟩ 0 (by simp) rfl
  have hbytes : ((payload.drop p.offset.toNat).take (p.length.toNat - 8)).length =
      p.length.toNat - 8 := by
    have := h.inside
    rw [List.length_take, List.length_drop]
    omega
  have hne : (payload.drop p.offset.toNat).take (p.length.toNat - 8) ≠ [] := by
    rw [← List.length_pos_iff, hbytes]
    omega
  simp only [apmOnDataPacket, hsize, h.data, toNat_position hm] at hplaced
  have hpos := congrArg List.length hplaced
  rw [length_writeAt_nil hne, length_writeAt_nil hne] at hpos
  exact Dvd.intro_left _ (Nat.add_right_cancel hpos)

end Faithful

/-! ### Runs inside an interval -/

namespace SendState

section Run

variable {payload : List UInt8} {r : MetaReq} {cur : Interval} {i : ℕ} {s : SendState}
  {es : List PollTurn}

theorem reads_full (payload : List UInt8) (e : PollTurn) : (e.full payload).tick.Reads payload :=
  ⟨fun _ _ => UInt32.le_refl _, fun _ _ _ => rfl⟩

theorem exists_of_inPoll {e : PollTurn} (h : s.InPoll i e) : ∃ c, s.pc = .poll i c := by
  rw [InPoll] at h
  cases hpc : s.pc with
  | poll j c =>
    rw [hpc] at h
    cases h
    exact ⟨c, rfl⟩
  | interval j => rw [hpc] at h; cases h
  | finished => rw [hpc] at h; cases h
  | fault f => rw [hpc] at h; cases h

/-- After the poll function has returned `false`, the run is over. -/
theorem eq_nil_of_along (hpc : s.pc = .interval (i + 1)) (h : Along pollTurn (InPoll i) s es) :
    es = [] := by
  cases es with
  | nil => rfl
  | cons e es =>
    obtain ⟨c, hpc'⟩ := exists_of_inPoll h.1
    rw [hpc] at hpc'
    cases hpc'

/-- A turn ends the round, or sends a packet. -/
theorem pollTurn_cases {c : UInt32} (hpc : s.pc = .poll i c) (e : PollTurn) :
    (∃ log, sentPackets log = s.sent ∧
      s.pollTurn e = endRound { s.interfere e with log := log } i) ∧
        (c < s.transfer.nofPacketsPerRound → s.ctx.keepRunning = true → e.stop = false →
          e.tick.buffer = true →
          (e.tick.read s.transfer.bytesSent s.nextSize).count = 0) ∨
      (e.tick.read s.transfer.bytesSent s.nextSize).count ≠ 0 ∧
        s.pollTurn e = (s.interfere e).sendPacket i c
          (e.tick.read s.transfer.bytesSent s.nextSize) e.tick.now := by
  rw [pollTurn_eq hpc]
  obtain ⟨hno, hpoll⟩ | ⟨-, ⟨hz, hpoll⟩ | ⟨hz, hpoll⟩⟩ := (s.interfere e).pollStep_cases i c e.tick
  · refine Or.inl ⟨⟨s.log, rfl, hpoll⟩, fun hc hk hstop hb => absurd ⟨hc, ?_, hb⟩ hno⟩
    simp [SendState.interfere, hk, hstop]
  · exact Or.inl ⟨⟨_, by simp [sent, sentPackets, SendState.interfere], hpoll⟩, fun _ _ _ _ => hz⟩
  · exact Or.inr ⟨hz, hpoll⟩

/-- A turn adds to what has been sent. -/
theorem sent_pollTurn {c : UInt32} (hpc : s.pc = .poll i c) (e : PollTurn) :
    ∃ ps, (s.pollTurn e).sent = s.sent ++ ps := by
  obtain ⟨⟨log, hlog, hturn⟩, -⟩ | ⟨-, hturn⟩ := pollTurn_cases hpc e <;> rw [hturn]
  · exact ⟨[], by rw [sent_endRound, List.append_nil]; exact hlog⟩
  · exact ⟨_, by rw [sent_sendPacket]; rfl⟩

theorem sent_run (h : Along pollTurn (InPoll i) s es) :
    ∃ ps, (Runs.run pollTurn s es).sent = s.sent ++ ps := by
  induction es generalizing s with
  | nil => exact ⟨[], (List.append_nil _).symm⟩
  | cons e es ih =>
    obtain ⟨c, hpc⟩ := exists_of_inPoll h.1
    obtain ⟨ps, hps⟩ := sent_pollTurn hpc e
    obtain ⟨qs, hqs⟩ := ih h.2
    exact ⟨ps ++ qs, by rw [run_cons, hqs, hps, List.append_assoc]⟩

variable (hm : 8 < r.mtu.toNat)

include hm

/-- Once the next packet is not at the start of a chunk, there follows one that is not faithful,
unless the transfer is stopped. -/
theorem Polled.spoiled (h : Polled payload r cur i s)
    (hastray : ¬ r.eff ∣ s.transfer.bytesSent.toNat)
    (hmore : s.transfer.sentInInterval < s.transfer.bytesInInterval)
    (hpoll : Along pollTurn (InPoll i) s es)
    (hend : (Runs.run pollTurn s es).pc = .interval (i + 1))
    (hk : (Runs.run pollTurn s es).ctx.keepRunning = true) :
    ∃ ps p, (Runs.run pollTurn s es).sent = s.sent ++ ps ∧ p ∈ ps ∧ ¬ p.Faithful payload r := by
  induction es generalizing s with
  | nil =>
    obtain ⟨c, hpc⟩ := h.pc
    rw [run_nil, hpc] at hend
    cases hend
  | cons e es ih =>
    obtain ⟨c, hpc⟩ := h.pc
    have h' := h.interfere e
    obtain ⟨-, htail⟩ := hpoll
    rw [run_cons] at hend hk ⊢
    obtain ⟨⟨log, hlog, hturn⟩, -⟩ | ⟨-, hturn⟩ :=
      pollTurn_cases hpc e <;> rw [hturn] at htail hend hk ⊢
    · rcases h'.endRound log with ⟨hover, hno⟩ | ⟨hpolled, -, -⟩
      · rw [eq_nil_of_along hover htail, run_nil, ctx_endRound] at hk
        exact absurd ⟨hmore, hk⟩ hno
      · obtain ⟨ps, p, hsent, hp⟩ := ih hpolled (by rw [transfer_endRound]; exact hastray)
          (by rw [transfer_endRound]; exact hmore) htail hend hk
        exact ⟨ps, p, by rw [hsent, sent_endRound]; exact congrArg (· ++ ps) hlog, hp⟩
    · obtain ⟨qs, hqs⟩ := sent_run htail
      rw [sent_sendPacket, List.append_assoc] at hqs
      refine ⟨_, _, hqs, List.mem_append_left _ (List.mem_singleton_self _), fun hfaithful =>
        hastray (hfaithful.dvd hm ?_)⟩
      have hpos := MetaReq.eff_pos hm
      rw [UInt32.lt_iff_toNat_lt] at hmore
      rw [toNat_nextLength h'.inside.sent_le (by rw [h'.mtu]; exact hm), MetaReq.eff, h'.mtu]
      show 8 < min r.eff (s.transfer.bytesInInterval.toNat - s.transfer.sentInInterval.toNat) + 8
      omega

/-- A packet that has been read in full is followed by one at the start of a chunk. -/
theorem Polled.aligned_sendPacket (hlt : payload.length < 2 ^ 32) (h : Polled payload r cur i s)
    (haligned : s.Aligned r) {rd : ReadResult} (hfull : rd.count = s.nextSize) (c now : UInt32) :
    (s.sendPacket i c rd now).Aligned r := by
  obtain ⟨hbytes, hadd, hle⟩ :=
    h.inside.advance hm h.mtu hlt (show rd.count ≤ s.nextSize from hfull ▸ UInt32.le_refl rd.count)
  have hsize := h.inside.toNat_nextSize hm h.mtu
  rw [Aligned, left]
  show r.eff ∣ (s.transfer.bytesSent + rd.count).toNat ∨
    s.transfer.bytesInInterval.toNat - (s.transfer.sentInInterval + rd.count).toNat = 0
  rw [hbytes, hadd, hfull, hsize]
  rw [left] at *
  rcases Nat.le_total r.eff
    (s.transfer.bytesInInterval.toNat - s.transfer.sentInInterval.toNat) with hfits | hrest
  · rw [min_eq_left hfits]
    refine haligned.imp (fun hdvd => (Nat.dvd_add_right hdvd).mpr dvd_rfl) fun hzero => ?_
    rw [left] at hzero
    omega
  · exact Or.inr (by omega)

/-- One that has not is followed by one that is not. -/
theorem Polled.astray_sendPacket (hlt : payload.length < 2 ^ 32) (h : Polled payload r cur i s)
    (haligned : s.Aligned r) {rd : ReadResult} (hz : rd.count ≠ 0) (hshort : rd.count < s.nextSize)
    (c now : UInt32) :
    ¬ r.eff ∣ (s.sendPacket i c rd now).transfer.bytesSent.toNat ∧
      (s.sendPacket i c rd now).transfer.sentInInterval <
        (s.sendPacket i c rd now).transfer.bytesInInterval := by
  obtain ⟨hbytes, hadd, hle⟩ := h.inside.advance hm h.mtu hlt (UInt32.le_of_lt hshort)
  have hsize := h.inside.toNat_nextSize hm h.mtu
  have hpos : 0 < rd.count.toNat := Nat.pos_of_ne_zero fun h0 => hz (UInt32.toNat_inj.mp h0)
  rw [UInt32.lt_iff_toNat_lt] at hshort
  rw [left] at *
  constructor
  · show ¬ r.eff ∣ (s.transfer.bytesSent + rd.count).toNat
    rcases haligned with hdvd | hzero
    · rw [hbytes, Nat.dvd_add_right hdvd]
      exact fun hcount => absurd (Nat.le_of_dvd hpos hcount) (by omega)
    · rw [left] at hzero
      omega
  · show s.transfer.sentInInterval + rd.count < s.transfer.bytesInInterval
    rw [UInt32.lt_iff_toNat_lt, hadd]
    omega

/-- In an interval that is sent to its end, all packets are faithful only if all reads are full. -/
theorem Polled.readsFully (hlt : payload.length < 2 ^ 32) (h : Polled payload r cur i s)
    (haligned : s.Aligned r) (hes : ∀ e ∈ es, e.tick.ReadsSome payload)
    (hpoll : Along pollTurn (InPoll i) s es)
    (hend : (Runs.run pollTurn s es).pc = .interval (i + 1))
    (hk : (Runs.run pollTurn s es).ctx.keepRunning = true)
    (hfaithful : ∀ ps, (Runs.run pollTurn s es).sent = s.sent ++ ps →
      ∀ p ∈ ps, p.Faithful payload r) :
    Along pollTurn ReadsFully s es := by
  induction es generalizing s with
  | nil => trivial
  | cons e es ih =>
    obtain ⟨c, hpc⟩ := h.pc
    have he := hes e (List.mem_cons_self ..)
    have hes' := fun e' he' => hes e' (List.mem_cons_of_mem e he')
    have h' := h.interfere e
    obtain ⟨-, htail⟩ := hpoll
    have hrest : ∀ ps, (Runs.run pollTurn (s.pollTurn e) es).sent = (s.pollTurn e).sent ++ ps →
        ∀ p ∈ ps, p.Faithful payload r := by
      obtain ⟨qs, hqs⟩ := sent_pollTurn hpc e
      intro ps hps p hp
      refine hfaithful (qs ++ ps) ?_ p (List.mem_append_right _ hp)
      rw [run_cons, hps, hqs, List.append_assoc]
    rw [run_cons] at hend hk
    obtain ⟨⟨log, -, hturn⟩, hzero⟩ | ⟨hz, hturn⟩ := pollTurn_cases hpc e
    · refine ⟨fun j d hpc' hd hrun hstop hb => ?_, ?_⟩
      · rw [hpc] at hpc'
        cases hpc'
        have hz := hzero hd hrun hstop hb
        by_contra hne
        refine he.pos _ _ (Nat.pos_of_ne_zero fun h0 => hne ?_)
          ((h.inside.read_le hm h.mtu).trans (cur.stopByte_le _ _)) hz
        rw [hz]
        exact (UInt32.toNat_inj.mp h0).symm
      · rw [hturn] at htail hend hk hrest ⊢
        rcases h'.endRound log with ⟨hover, -⟩ | ⟨hpolled, -, -⟩
        · rw [eq_nil_of_along hover htail]
          trivial
        · refine ih hpolled ?_ hes' htail hend hk hrest
          rw [Aligned, transfer_endRound, left_endRound]
          exact haligned
    · by_cases hfull : (e.tick.read s.transfer.bytesSent s.nextSize).count = s.nextSize
      · refine ⟨fun _ _ _ _ _ _ _ => hfull, ih ?_ ?_ hes' htail hend hk hrest⟩ <;> rw [hturn]
        · exact h'.sendPacket hm hlt (he.polite _ _) c e.tick.now
        · exact h'.aligned_sendPacket hm hlt haligned hfull c e.tick.now
      · have hshort : (e.tick.read s.transfer.bytesSent s.nextSize).count < s.nextSize :=
          UInt32.lt_of_le_of_ne (he.polite _ _) hfull
        obtain ⟨hastray, hmore⟩ := h'.astray_sendPacket hm hlt haligned hz hshort c e.tick.now
        have hpolled :=
          h'.sendPacket hm hlt (he.polite s.transfer.bytesSent s.nextSize) c e.tick.now
        rw [hturn] at htail hend hk hrest
        obtain ⟨ps, p, hps, hp, hbad⟩ := hpolled.spoiled hm hastray hmore htail hend hk
        exact absurd (hrest ps hps p hp) hbad

/-- A turn in which the read is full is one over a payload that is read in full. -/
theorem Polled.pollTurn_full (h : Polled payload r cur i s) {e : PollTurn}
    (he : e.tick.ReadsSome payload) (hfull : s.ReadsFully e) :
    s.pollTurn e = s.pollTurn (e.full payload) := by
  obtain ⟨c, hpc⟩ := h.pc
  have hin : s.transfer.bytesSent.toNat + s.nextSize.toNat ≤ payload.length :=
    (h.inside.read_le hm h.mtu).trans (cur.stopByte_le _ _)
  rw [pollTurn_eq hpc, pollTurn_eq hpc, show s.interfere (e.full payload) = s.interfere e from rfl]
  simp only [pollStep, show (e.full payload).tick.buffer = e.tick.buffer from rfl]
  by_cases hgo : (s.interfere e).transfer.nofPacketsPerRound > c ∧
    (s.interfere e).ctx.keepRunning = true
  · rw [if_pos hgo, if_pos hgo]
    by_cases hb : e.tick.buffer = true
    · have hk := hgo.2
      simp only [SendState.interfere, Bool.and_eq_true, Bool.not_eq_true'] at hk
      have hcount := hfull i c hpc hgo.1 hk.1 hk.2 hb
      have hdata := he.data _ _ hin
      rw [hcount, List.take_of_length_le (he.length _ _).le] at hdata
      have hread : e.tick.read (s.interfere e).transfer.bytesSent (s.interfere e).nextSize =
          (e.full payload).tick.read (s.interfere e).transfer.bytesSent (s.interfere e).nextSize :=
        ReadResult.ext hcount hdata
      rw [if_pos hb, if_pos hb, hread]
      rfl
    · rw [if_neg hb, if_neg hb]
  · rw [if_neg hgo, if_neg hgo]

/-- If all reads are full, the packets of the interval are sent, as far as the run goes. -/
theorem Sending.run_full (hlt : payload.length < 2 ^ 32) {before : List Packet} {n : ℕ}
    (h : Sending payload r cur i before n s) (hes : ∀ e ∈ es, e.tick.ReadsSome payload)
    (hpoll : Along pollTurn (InPoll i) s es) (hfull : Along pollTurn ReadsFully s es) :
    ∃ k, (Runs.run pollTurn s es).sent = before ++ (cur.packets payload r).take k := by
  induction es generalizing s n with
  | nil => exact ⟨n, h.sent⟩
  | cons e es ih =>
    have he := hes e (List.mem_cons_self ..)
    have hes' := fun e' he' => hes e' (List.mem_cons_of_mem e he')
    have hturn := h.turn hm hlt (reads_full payload e)
    rw [← h.toPolled.pollTurn_full hm he hfull.1] at hturn
    rw [run_cons]
    rcases hturn with hleft | ⟨-, hnext⟩ | ⟨hsame, -⟩
    · rw [eq_nil_of_along hleft.pc hpoll.2]
      exact ⟨n, hleft.sent⟩
    · exact ih hnext hes' hpoll.2 hfull.2
    · exact ih hsame hes' hpoll.2 hfull.2

end Run

end SendState

open SendState

/-- Whatever a payload's `read` callback returns of what it is asked for, the packets of an interval
are faithful if all reads are full; and if the interval is sent to its end, only then. -/
theorem faithful_iff (payload : List UInt8) (r : MetaReq) (hm : 8 < r.mtu.toNat) (i : ℕ)
    (hi : i < r.nofIntervals.toNat) (cur : Interval) (hcur : r.intervalAt i = .ok cur)
    (hle : cur.start ≤ cur.stop) (hstart : cur.start.toNat * r.eff ≤ payload.length)
    (hstop : cur.stop ≠ uint32Max → (cur.stop.toNat + 1) * r.eff < 2 ^ 32) (s : SendState)
    (h : AtInterval payload r i s) (es : List PollTurn) (hes : ∀ e ∈ es, e.tick.ReadsSome payload)
    (hpoll : Along pollTurn (InPoll i) (s.intervalStep i) es) :
    ∃ ps, (run pollTurn (s.intervalStep i) es).sent = s.sent ++ ps ∧
      (Along pollTurn ReadsFully (s.intervalStep i) es → ∀ p ∈ ps, p.Faithful payload r) ∧
      ((run pollTurn (s.intervalStep i) es).pc = .interval (i + 1) →
        (run pollTurn (s.intervalStep i) es).ctx.keepRunning = true →
          (∀ p ∈ ps, p.Faithful payload r) →
        Along pollTurn ReadsFully (s.intervalStep i) es) := by
  have hlt : payload.length < 2 ^ 32 := h.size ▸ s.ctx.payloadSize.toNat_lt
  have hsending :=
    h.sending hm (getElem?_requested_of_intervalAt hi hcur) (Interval.fits_of_le hle hstart hstop)
  have hsent : (s.intervalStep i).sent = s.sent := by
    rw [hsending.sent, List.take_zero, List.append_nil]
  obtain ⟨ps, hps⟩ := sent_run hpoll
  rw [hsent] at hps
  refine ⟨ps, hps, fun hfull p hp => ?_, fun hend hk hfaithful => ?_⟩
  · obtain ⟨k, hrun⟩ := hsending.run_full hm hlt hes hpoll hfull
    obtain rfl := List.append_cancel_left (hps.symm.trans hrun)
    obtain ⟨n, hn, rfl⟩ := List.mem_iff_getElem.mp (List.mem_of_mem_take hp)
    exact (Interval.isChunk_packets hm hlt hn).faithful hm
  · have haligned : (s.intervalStep i).Aligned r := by
      have hzero := hsending.counter
      rw [Nat.zero_mul, Nat.zero_min] at hzero
      refine Or.inl ?_
      rw [hsending.inside.bytesSent, hzero, Nat.add_zero]
      exact Nat.dvd_mul_left _ _
    refine hsending.toPolled.readsFully hm hlt haligned hes hpoll hend hk fun qs hqs p hp => ?_
    rw [hsent, hps] at hqs
    exact hfaithful p (List.append_cancel_left hqs ▸ hp)

/-- A callback that returns at most `limit` bytes at a time, and packets that were filled with
zeros. -/
def Tick.limited (payload : List UInt8) (limit : UInt32) : Tick where
  buffer := true
  read offset size :=
    let count := if limit < size then limit else size
    ⟨count, ((payload.drop offset.toNat).take count.toNat ++ List.replicate size.toNat 0).take
      size.toNat⟩
  now := 0

theorem readsSome_limited (payload : List UInt8) {limit : UInt32} (hlimit : 0 < limit) :
    (Tick.limited payload limit).ReadsSome payload := by
  have hcount : ∀ offset size, ((Tick.limited payload limit).read offset size).count.toNat ≤
    size.toNat ∧
      (0 < size.toNat → 0 < ((Tick.limited payload limit).read offset size).count.toNat) := by
    intro offset size
    simp only [Tick.limited]
    rw [UInt32.lt_iff_toNat_lt, UInt32.toNat_zero] at hlimit
    split_ifs with hless
    · rw [UInt32.lt_iff_toNat_lt] at hless
      exact ⟨hless.le, fun _ => hlimit⟩
    · exact ⟨le_rfl, id⟩
  refine ⟨fun offset size => UInt32.le_iff_toNat_le.mpr (hcount offset size).1,
    fun offset size hpos _ hzero => ?_,
    fun offset size => by simp [Tick.limited], fun offset size hin => ?_⟩
  · have := (hcount offset size).2 hpos
    rw [hzero, UInt32.toNat_zero] at this
    exact lt_irrefl 0 this
  · have hle := (hcount offset size).1
    simp only [Tick.limited] at hle ⊢
    rw [List.take_take, min_eq_left hle, List.take_append_of_le_length, List.take_take, min_self]
    rw [List.length_take, List.length_drop]
    omega

/-- The turns of a transfer of ten bytes, at most `limit` at a time. -/
def limitedTurns (limit : UInt32) (n : ℕ) : List PollTurn :=
  List.replicate n ⟨false, none, .limited (List.replicate 10 7) limit⟩

/-- All of it at a time: the three packets are faithful. -/
theorem faithful_ten :
    (run pollTurn (tenToSend.intervalStep 0) (limitedTurns uint32Max 5)).sent.length = 3 ∧
    ∀ p ∈ (run pollTurn (tenToSend.intervalStep 0) (limitedTurns uint32Max 5)).sent,
      p.Faithful (List.replicate 10 7) tenToSend.ctx.request := by
  obtain ⟨ps, hsent, hfaithful, -⟩ :=
    faithful_iff (List.replicate 10 7) tenToSend.ctx.request (by decide) 0 (by decide)
    ⟨0, uint32Max⟩ rfl (by decide) (by decide) (by decide) tenToSend ⟨rfl, rfl, rfl, rfl, by decide⟩
      (limitedTurns uint32Max 5)
    (fun e he => by rw [List.eq_of_mem_replicate he]; exact readsSome_limited _ (by decide))
      (by decide +kernel)
  refine ⟨by decide +kernel, fun p hp => ?_⟩
  rw [hsent] at hp
  refine hfaithful (along_of_forall fun e he s i c _ _ _ _ _ => ?_) p hp
  rw [List.eq_of_mem_replicate he]
  exact if_neg (by rw [UInt32.lt_iff_toNat_lt, not_lt]; exact Nat.le_of_lt_succ s.nextSize.toNat_lt)

/-- Two bytes at a time: the first packet is sent with two bytes of the payload and two zeros, and
the second is written at offset 0 and not at 2. -/
theorem unfaithful_ten : (∀ e ∈ limitedTurns 2 7, e.tick.ReadsSome (List.replicate 10 7)) ∧
    Along pollTurn (InPoll 0) (tenToSend.intervalStep 0) (limitedTurns 2 7) ∧
    (run pollTurn (tenToSend.intervalStep 0) (limitedTurns 2 7)).sent.map
      (fun p => (p.offset, p.length, p.data)) =
      [(0, 12, [7, 7, 0, 0]), (2, 12, [7, 7, 0, 0]), (4, 12, [7, 7, 0, 0]), (6, 12, [7, 7, 0, 0]),
        (8, 10, [7, 7])] ∧
    ∃ p ∈ (run pollTurn (tenToSend.intervalStep 0) (limitedTurns 2 7)).sent,
      ¬ p.Faithful (List.replicate 10 7) tenToSend.ctx.request := by
  refine ⟨?_, ?_, ?_, ⟨0, 1, 12, [7, 7, 0, 0]⟩, ?_, ?_⟩
  · intro e he
    rw [List.eq_of_mem_replicate he]
    exact readsSome_limited _ (by decide)
  · decide +kernel
  · decide +kernel
  · decide +kernel
  · intro h
    exact absurd h.data (by decide)

end LibDtp
