import LibDtp.Protocol.Pacing
import LibDtp.Server.Interval

/-!
# The rate of a transfer

How fast a transfer sends, with the time that `os_hal_start_poll_operation` lets pass between two
calls of `dtp_server_poll_loop`.

## The model

`TimedServer` is the send machine with a clock that counts milliseconds; `csp_get_ms` is what 32
bits show of it. Each interval of the request starts a poll operation, and before every call of the
poll function the operation waits: on POSIX with `usleep`, for what is left of the period since the
call before, and on FreeRTOS with `xTaskDelayUntil`, with ticks of a millisecond. A task may always
be late, any time may pass in any step, and other tasks do to the context what they can.

## What is proved

* `PollClock.turn_spec` — a call of the poll function is at least a period after the one before it.
* `paced_run` — how many packets there can be after so many calls.
* `rate_bounded` — at any time, what a transfer has sent is bounded by the rounds that fit in the
  time it has taken.
-/

namespace LibDtp

open Runs

/-- The platforms of `dtp_os_hal.c`. -/
inductive Platform where
  /-- `CSP_POSIX`. -/
  | posix
  /-- `CSP_FREERTOS`. -/
  | freeRtos
  deriving DecidableEq

/-- The clock of a poll operation, in milliseconds. -/
structure PollClock where
  /-- What the time is. -/
  now : ℕ
  /-- `wakeupTime`. -/
  wakeup : ℕ

namespace PollClock

/-- Some time passes. -/
def pass (c : PollClock) (ms : ℕ) : PollClock := { c with now := c.now + ms }

/-- The operation starts: `wakeupTime` is the time. -/
def start (c : PollClock) : PollClock := { c with wakeup := c.now }

/-- What `usleep` is called with, in microseconds; `0` if it is not called. -/
def sleepPeriod (period : UInt32) (c : PollClock) : UInt32 :=
  let timeSinceLast := UInt32.ofNat c.now - UInt32.ofNat c.wakeup
  if period > timeSinceLast then (period - timeSinceLast) * 1000 else 0

/-- A turn of the loop in `os_hal_start_poll_operation`, up to the call of the poll function, and
whether it is called. If the task sleeps, it wakes up `late` milliseconds late. -/
def turn (p : Platform) (period : UInt32) (late : ℕ) (c : PollClock) : PollClock × Bool :=
  match p with
  | .posix => (⟨c.now + (c.sleepPeriod period).toNat / 1000 + late,
    c.now + (c.sleepPeriod period).toNat / 1000 + late⟩, true)
  | .freeRtos =>
    -- `xTaskDelayUntil` waits only if the next wake-up is still to come
    if c.wakeup + period.toNat >
      c.now then (⟨c.wakeup + period.toNat + late, c.wakeup + period.toNat⟩, true)
    else (⟨c.now, c.wakeup + period.toNat⟩, false)

end PollClock

/-- Does the next step of the send machine leave `dtp_server_poll_loop`? -/
def SendState.leavesPoll (s : SendState) (t : Tick) : Bool :=
  match s.pc with
  | .poll _ c => !(decide (c < s.transfer.nofPacketsPerRound) && s.ctx.keepRunning && t.buffer &&
      (t.read s.transfer.bytesSent s.nextSize).count ≠ 0)
  | _ => false

/-- The send machine, with a clock. -/
structure TimedServer where
  /-- The send machine. -/
  send : SendState
  /-- The clock. -/
  clock : PollClock
  /-- Is it in the loop of the poll operation, and not in the poll function? -/
  waiting : Bool
  /-- How many times the poll function has been called. -/
  polls : ℕ

/-- What the world answers to a step, and what other tasks have done since the last one. -/
structure TimedEvent where
  /-- How much time passes before it. -/
  pause : ℕ
  /-- How late the task wakes up, if it sleeps. -/
  late : ℕ
  /-- `keep_running` has been cleared. -/
  stop : Bool
  /-- `client_alive_ts` has been set. -/
  alive : Option UInt32
  /-- Does `csp_buffer_get` return a packet? -/
  buffer : Bool
  /-- What `payload_meta.read` does. -/
  read : UInt32 → UInt32 → ReadResult

/-- The turn of the send machine. -/
def TimedEvent.turn (e : TimedEvent) (now : ℕ) : PollTurn :=
  ⟨e.stop, e.alive, e.buffer, e.read, UInt32.ofNat now⟩

namespace TimedServer

/-- One step. -/
def step (p : Platform) (period : UInt32) (s : TimedServer) (e : TimedEvent) : TimedServer :=
  let clock := s.clock.pass e.pause
  let turn := e.turn clock.now
  if s.waiting then
    let (clock, called) := clock.turn p period e.late
    { send := s.send.interfere turn
      clock := clock
      waiting := !called
      polls := s.polls + called.toNat }
  else
    let send := s.send.pollTurn turn
    match s.send.pc, send.pc with
    | .interval _, .poll _ _ => { s with send := send, clock := clock.start, waiting := true }
    | .poll _ _, .poll _ _ =>
      { s with
        send := send, clock := clock, waiting := (s.send.interfere turn).leavesPoll turn.tick }
    | _, _ => { s with send := send, clock := clock }

/-- A run. -/
def run (p : Platform) (period : UInt32) (s : TimedServer) (es : List TimedEvent) : TimedServer :=
  es.foldl (step p period) s

/-- The start of a transfer. -/
def init (E : ErrorTest) (ctx : ServerTransferCtx) (now : ℕ) : TimedServer :=
  ⟨startSendingData E ctx (UInt32.ofNat now), ⟨now, now⟩, false, 0⟩

end TimedServer

/-! ### The clock -/

/-- The time after a turn: it does not go back, and if the poll function is called, a period has
passed. -/
structure PollClock.Turns (period : ℕ) (c c' : PollClock) (called : Bool) : Prop where
  /-- The time does not go back. -/
  now_le : c.now ≤ c'.now
  /-- The wake-up is not in the future. -/
  wakeup_le : c'.wakeup ≤ c'.now
  /-- Nor does the wake-up go back. -/
  mono : c.wakeup ≤ c'.wakeup
  /-- The poll function is called at a wake-up. -/
  called : called = true → c.wakeup + period ≤ c'.wakeup ∧ c.now ≤ c'.wakeup

theorem PollClock.turn_spec (p : Platform) {period : UInt32}
    (hperiod : p = .posix → period.toNat * 1000 < 2 ^ 32) (late : ℕ) {c : PollClock}
    (hc : c.wakeup ≤ c.now) :
    c.Turns period.toNat (c.turn p period late).1 (c.turn p period late).2 := by
  cases p with
  | posix =>
    have hlt := hperiod rfl
    have hsleep : c.wakeup + period.toNat ≤ c.now + (c.sleepPeriod period).toNat / 1000 := by
      have hsince : (UInt32.ofNat c.now - UInt32.ofNat c.wakeup).toNat =
          (c.now - c.wakeup) % 2 ^ 32 := by
        rw [UInt32.toNat_sub, UInt32.toNat_ofNat', UInt32.toNat_ofNat']
        omega
      have hmod := Nat.mod_le (c.now - c.wakeup) (2 ^ 32)
      simp only [sleepPeriod, gt_iff_lt, UInt32.lt_iff_toNat_lt]
      split_ifs with hmore
      · rw [UInt32.toNat_mul, UInt32.toNat_sub_of_le _ _ (UInt32.le_iff_toNat_le.mpr hmore.le),
          hsince, show (1000 : UInt32).toNat = 1000 from rfl]
        omega
      · rw [hsince] at hmore
        omega
    constructor
    · simp only [turn]
      omega
    · exact le_rfl
    · simp only [turn]
      omega
    · intro _
      simp only [turn]
      omega
  | freeRtos =>
    simp only [turn]
    split_ifs with hwait
    · constructor <;> dsimp only <;> omega
    · constructor <;> dsimp only
      · exact le_rfl
      · omega
      · omega
      · intro h
        cases h

/-! ### A step of the send machine -/

namespace SendState

/-- The payload bytes of the packets that have been sent. -/
def payloadBytes (s : SendState) : ℕ := (s.sent.map fun p => p.length.toNat - 8).sum

/-- How many packets this call of the poll function may still send. -/
def room (s : SendState) : ℕ :=
  match s.pc with
  | .poll _ c => s.transfer.nofPacketsPerRound.toNat - c.toNat
  | _ => 0

/-- No packet is longer than it may be, whatever the interval is. -/
theorem nextLength_le {s : SendState} (hm : 8 < s.ctx.request.mtu.toNat) :
    s.nextLength.toNat - 8 ≤ s.ctx.request.eff := by
  have hmt := s.ctx.request.mtu.toNat_lt
  simp only [nextLength]
  split_ifs with hb
  · exact le_rfl
  · simp only [more, decide_eq_true_eq, gt_iff_lt, UInt64.lt_iff_toNat_lt, not_lt,
      s.ctx.request.toNat_chunk hm] at hb
    rw [UInt64.toNat_toUInt16, UInt64.toNat_add, show (8 : UInt64).toNat = 8 from rfl, MetaReq.eff]
    omega

theorem perRound_step (s : SendState) (t : Tick) :
    (s.step t).transfer.nofPacketsPerRound = s.transfer.nofPacketsPerRound := by
  cases hpc : s.pc with
  | interval i =>
    simp only [step, hpc, intervalStep]
    split
    · cases s.ctx.request.intervalAt i with
      | error f => rfl
      | ok cur =>
        dsimp only
        split
        · rfl
        · split <;> rfl
    · rfl
  | poll i c =>
    simp only [step, hpc]
    obtain ⟨-, hstep⟩ | ⟨-, ⟨-, hstep⟩ | ⟨-, hstep⟩⟩ := s.pollStep_cases i c t <;> rw [hstep]
    · rw [transfer_endRound]
    · rw [transfer_endRound]
    · rfl
  | finished => simp only [step, hpc]
  | fault f => simp only [step, hpc]

/-- At the `for`, nothing is sent; the poll operation is entered, or there is no more. -/
theorem step_interval {s : SendState} {i : ℕ} (hpc : s.pc = .interval i) (t : Tick) :
    (s.step t).payloadBytes = s.payloadBytes ∧
      ((s.step t).pc = .poll i 0 ∨ (s.step t).pc = .finished ∨ ∃ f, (s.step t).pc = .fault f) := by
  simp only [step, hpc, intervalStep]
  split
  · cases s.ctx.request.intervalAt i with
    | error f => exact ⟨rfl, .inr (.inr ⟨f, rfl⟩)⟩
    | ok cur =>
      dsimp only
      split
      · exact ⟨by rw [payloadBytes, sent_enter, payloadBytes], .inl rfl⟩
      · split
        · exact ⟨rfl, .inr (.inr ⟨_, rfl⟩)⟩
        · exact ⟨by rw [payloadBytes, sent_enter, payloadBytes], .inl rfl⟩
  · exact ⟨rfl, .inr (.inl rfl)⟩

/-- In the poll function, a packet of at most `eff` bytes is sent and there is room for one less, or
the function is left. -/
theorem step_poll {s : SendState} {i : ℕ} {c : UInt32} (hpc : s.pc = .poll i c)
    (hm : 8 < s.ctx.request.mtu.toNat) (hper : s.transfer.nofPacketsPerRound ≠ uint32Max)
    (t : Tick) :
    s.leavesPoll t = true ∧ (s.step t).payloadBytes = s.payloadBytes ∧
        ((s.step t).pc = .poll i 0 ∨ (s.step t).pc = .interval (i + 1)) ∨
      s.leavesPoll t = false ∧ (s.step t).payloadBytes ≤ s.payloadBytes + s.ctx.request.eff ∧
        (s.step t).room + 1 ≤ s.room ∧ ∃ c', (s.step t).pc = .poll i c' := by
  simp only [step, hpc, leavesPoll]
  obtain ⟨hno, hstep⟩ | ⟨⟨hlt, hk, hb⟩, ⟨hz, hstep⟩ | ⟨hz, hstep⟩⟩ :=
    s.pollStep_cases i c t <;> rw [hstep]
  · refine .inl ⟨?_, by rw [payloadBytes, sent_endRound, payloadBytes], pc_endRound s i⟩
    simp only [Bool.not_eq_true', Bool.and_eq_false_iff, decide_eq_false_iff_not]
    by_contra hall
    push Not at hall
    exact hno ⟨hall.1.1.1, by simpa using hall.1.1.2, by simpa using hall.1.2⟩
  · refine .inl ⟨by simp [hz], ?_, pc_endRound _ i⟩
    simp [payloadBytes, sent, sentPackets]
  · refine .inr ⟨by simp [hlt, hk, hb, hz], ?_, ?_, _, rfl⟩
    · have hlen := nextLength_le hm
      simp only [payloadBytes, sent_sendPacket, List.map_append, List.map_cons, List.map_nil,
        List.sum_append, List.sum_cons, List.sum_nil]
      omega
    · have hlt' := UInt32.lt_iff_toNat_lt.mp hlt
      have hbound := s.transfer.nofPacketsPerRound.toNat_lt
      have hcounter : s.transfer.nofPacketsPerRound.toNat + 1 ≤
          s.transfer.nofPacketsPerRound.toNat - c.toNat +
            ((if s.more then c else s.transfer.nofPacketsPerRound) + 1).toNat := by
        split_ifs
        · rw [toNat_add_one
            fun h => by rw [h] at hlt'; exact absurd hlt' (by simp [uint32Max]; omega)]
          omega
        · rw [toNat_add_one hper]
          omega
      simp only [room, sendPacket, hpc]
      omega

end SendState

/-! ### Along a run -/

namespace TimedServer

/-- How many packets may still be sent before the poll operation waits again. -/
def room (s : TimedServer) : ℕ := if s.waiting then 0 else s.send.room

/-- The transfer keeps to its rounds: there are no more calls of the poll function than fit in the
time since `first`, apart from the `before` that there were, and the packets of each call have
`round` bytes at most. -/
structure Paced (r : MetaReq) (m : Metrics) (first before allowance : ℕ) (s : TimedServer) :
    Prop where
  /-- The packet size. -/
  mtu : s.send.ctx.request.mtu = r.mtu
  /-- The size of a round. -/
  perRound : s.send.transfer.nofPacketsPerRound = m.packetsPerRound
  /-- The last wake-up is in the past. -/
  wakeup_le : s.clock.wakeup ≤ s.clock.now
  /-- The next call is due a period after the last wake-up, and not before now. -/
  due : first + s.polls * m.roundTimeMs.toNat ≤
    max (s.clock.wakeup + m.roundTimeMs.toNat) s.clock.now + before * m.roundTimeMs.toNat
  /-- What has been sent, and what may be sent before the next call. -/
  bytes : s.send.payloadBytes + s.room * r.eff + before * (m.packetsPerRound.toNat * r.eff) ≤
    allowance + s.polls * (m.packetsPerRound.toNat * r.eff)
  /-- The operation waits at the beginning of a round. -/
  waiting : s.waiting = true → ∃ i, s.send.pc = .poll i 0

section Steps

variable {p : Platform} {r : MetaReq} {m : Metrics} {first before allowance : ℕ} {s : TimedServer}

/-- A turn of the poll operation. -/
theorem Paced.step_waiting (hperiod : p = .posix → m.roundTimeMs.toNat * 1000 < 2 ^ 32)
    (h : Paced r m first before allowance s) (hwait : s.waiting = true) (e : TimedEvent) :
    Paced r m first before allowance (s.step p m.roundTimeMs e) := by
  have hturn :=
    (s.clock.pass e.pause).turn_spec p hperiod e.late (h.wakeup_le.trans (Nat.le_add_right _ _))
  obtain ⟨i, hpc⟩ := h.waiting hwait
  have hbytes := h.bytes
  have hdue := h.due
  rw [room, if_pos hwait, Nat.zero_mul] at hbytes
  simp only [step, hwait, if_true]
  generalize hc : (s.clock.pass e.pause).turn p m.roundTimeMs e.late = clock at hturn ⊢
  obtain ⟨clock, called⟩ := clock
  have hnow : s.clock.now ≤ (s.clock.pass e.pause).now := Nat.le_add_right _ _
  have hwakeup : (s.clock.pass e.pause).wakeup = s.clock.wakeup := rfl
  refine ⟨h.mtu, h.perRound, hturn.wakeup_le, ?_, ?_, fun _ => ⟨i, hpc⟩⟩
  · cases called with
    | true =>
      obtain ⟨hlate, hnot⟩ := hturn.called rfl
      simp only [Bool.toNat_true, Nat.add_mul, Nat.one_mul] at *
      omega
    | false =>
      have hmono := hturn.mono
      have hle := hturn.now_le
      simp only [Bool.toNat_false, Nat.add_zero] at *
      omega
  · cases called with
    | true =>
      have hroom : SendState.room (s.send.interfere (e.turn (s.clock.pass e.pause).now)) =
          m.packetsPerRound.toNat := by
        simp only [SendState.room, SendState.interfere, hpc, h.perRound, UInt32.toNat_zero,
          Nat.sub_zero]
      simp only [room, Bool.not_true, Bool.false_eq_true, if_false, hroom, Bool.toNat_true,
        Nat.add_mul, Nat.one_mul]
      change s.send.payloadBytes + _ + _ ≤ _
      omega
    | false =>
      simp only [room, Bool.not_false, if_true, Nat.zero_mul, Bool.toNat_false, Nat.add_zero]
      exact hbytes

/-- A step that calls nothing: time passes, and what is sent is taken from what may be sent. -/
theorem Paced.move (h : Paced r m first before allowance s) {s' : TimedServer}
    (hmtu : s'.send.ctx.request.mtu = r.mtu)
    (hper : s'.send.transfer.nofPacketsPerRound = s.send.transfer.nofPacketsPerRound)
    (hpolls : s'.polls = s.polls) (hwakeup : s'.clock.wakeup ≤ s'.clock.now)
    (hnow : s.clock.now ≤ s'.clock.now) (hmono : s.clock.wakeup ≤ s'.clock.wakeup)
    (hbytes : s'.send.payloadBytes + s'.room * r.eff ≤ s.send.payloadBytes + s.room * r.eff)
    (hwaiting : s'.waiting = true → ∃ i, s'.send.pc = .poll i 0) :
    Paced r m first before allowance s' := by
  refine ⟨hmtu, hper.trans h.perRound, hwakeup, ?_, ?_, hwaiting⟩
  · have hdue := h.due
    rw [hpolls]
    omega
  · have hold := h.bytes
    rw [hpolls]
    omega

/-- A step of the send machine. Outside the poll function nothing may be sent. -/
theorem Paced.step_running (hm : 8 < r.mtu.toNat) (hper : m.packetsPerRound ≠ uint32Max)
    (h : Paced r m first before allowance s) (hwait : s.waiting = false) (e : TimedEvent) :
    Paced r m first before allowance (s.step p m.roundTimeMs e) := by
  set turn := e.turn (s.clock.pass e.pause).now with hturn
  have hmtu : (s.send.pollTurn turn).ctx.request.mtu = r.mtu := by
    obtain ⟨intervals, hreq⟩ := (s.send.interfere turn).request_step turn.tick
    rw [SendState.pollTurn, hreq]
    exact h.mtu
  have hround : (s.send.pollTurn turn).transfer.nofPacketsPerRound =
    s.send.transfer.nofPacketsPerRound :=
    SendState.perRound_step _ _
  have hnow : s.clock.now ≤ (s.clock.pass e.pause).now := Nat.le_add_right _ _
  have hwakeup := h.wakeup_le
  have hstep : s.step p m.roundTimeMs e = match s.send.pc, (s.send.pollTurn turn).pc with
      | .interval _, .poll _ _ =>
        { s with
          send := s.send.pollTurn turn, clock := (s.clock.pass e.pause).start, waiting := true }
      | .poll _ _, .poll _ _ =>
        { s with
          send := s.send.pollTurn turn, clock := s.clock.pass e.pause,
          waiting := (s.send.interfere turn).leavesPoll turn.tick }
      | _, _ => { s with send := s.send.pollTurn turn, clock := s.clock.pass e.pause } := by
    simp only [step, hwait, Bool.false_eq_true, if_false]
    rfl
  have hroom : s.room = s.send.room := by rw [room, hwait, if_neg Bool.false_ne_true]
  have helsewhere (hbytes : (s.send.pollTurn turn).payloadBytes = s.send.payloadBytes)
      (hpc : ∀ i c, (s.send.pollTurn turn).pc ≠ .poll i c) : Paced r m first before allowance
        { s with send := s.send.pollTurn turn, clock := s.clock.pass e.pause } := by
    have hnone : (s.send.pollTurn turn).room = 0 := by
      rw [SendState.room]
      split
      · exact absurd ‹_› (hpc _ _)
      · rfl
    refine h.move hmtu hround rfl (hwakeup.trans hnow) hnow le_rfl ?_ fun hw =>
      absurd hw (by simp [hwait])
    simp only [room, hwait, Bool.false_eq_true, if_false, hnone, Nat.zero_mul]
    omega
  rw [hstep]
  cases hpc : s.send.pc with
  | interval i =>
    obtain ⟨hbytes, hnext⟩ :=
      SendState.step_interval (show (s.send.interfere turn).pc = .interval i from hpc) turn.tick
    change (s.send.pollTurn turn).payloadBytes = s.send.payloadBytes at hbytes
    obtain hnext | hnext | ⟨f, hnext⟩ : (s.send.pollTurn turn).pc = .poll i 0 ∨
      (s.send.pollTurn turn).pc = .finished ∨
      ∃ f, (s.send.pollTurn turn).pc = .fault f := hnext
    · rw [hnext]
      refine h.move hmtu hround rfl le_rfl hnow (hwakeup.trans hnow) ?_ fun _ => ⟨i, hnext⟩
      simp only [room, if_true, Nat.zero_mul]
      omega
    · have hthere := helsewhere hbytes fun i c => by simp [hnext]
      rwa [hnext]
    · have hthere := helsewhere hbytes fun i c => by simp [hnext]
      rwa [hnext]
  | poll i c =>
    have heff : (s.send.interfere turn).ctx.request.eff = r.eff := by
      rw [MetaReq.eff, MetaReq.eff, ← h.mtu]
      rfl
    have hcases := SendState.step_poll (show (s.send.interfere turn).pc = .poll i c from hpc)
      (show 8 < (s.send.interfere turn).ctx.request.mtu.toNat from h.mtu ▸ hm)
      (show (s.send.interfere turn).transfer.nofPacketsPerRound ≠ uint32Max from h.perRound ▸ hper)
        turn.tick
    rw [heff] at hcases
    obtain ⟨hleaves, hbytes, hnext⟩ | ⟨hstays, hbytes, hless, c', hnext⟩ := hcases
    · change (s.send.pollTurn turn).payloadBytes = s.send.payloadBytes at hbytes
      obtain hnext | hnext : (s.send.pollTurn turn).pc = .poll i 0 ∨
        (s.send.pollTurn turn).pc = .interval (i + 1) := hnext
      · rw [hnext]
        refine h.move hmtu hround rfl (hwakeup.trans hnow) hnow le_rfl ?_ fun _ => ⟨i, hnext⟩
        simp only [room, hleaves, if_true, Nat.zero_mul]
        omega
      · have hthere := helsewhere hbytes fun i c => by simp [hnext]
        rwa [hnext]
    · change (s.send.pollTurn turn).payloadBytes ≤ s.send.payloadBytes + _ at hbytes
      change (s.send.pollTurn turn).room + 1 ≤ s.send.room at hless
      change (s.send.pollTurn turn).pc = _ at hnext
      rw [hnext]
      refine h.move hmtu hround rfl (hwakeup.trans hnow) hnow le_rfl ?_ fun hw =>
        absurd hw (by simp [hstays])
      have hmul := Nat.mul_le_mul_right r.eff hless
      rw [Nat.add_mul, Nat.one_mul] at hmul
      simp only [room, hstays, hwait, Bool.false_eq_true, if_false]
      omega
  | finished =>
    have hsame : s.send.pollTurn turn = s.send.interfere turn := by
      simp only [SendState.pollTurn, SendState.step,
        show (s.send.interfere turn).pc = .finished from hpc]
    exact helsewhere (by rw [hsame]; rfl) fun i c => by simp [hsame, SendState.interfere, hpc]
  | fault f =>
    have hsame : s.send.pollTurn turn = s.send.interfere turn := by
      simp only [SendState.pollTurn, SendState.step,
        show (s.send.interfere turn).pc = .fault f from hpc]
    exact helsewhere (by rw [hsame]; rfl) fun i c => by simp [hsame, SendState.interfere, hpc]

/-- **A step keeps to the rounds.** -/
theorem Paced.step (hperiod : p = .posix → m.roundTimeMs.toNat * 1000 < 2 ^ 32)
    (hm : 8 < r.mtu.toNat) (hper : m.packetsPerRound ≠ uint32Max)
    (h : Paced r m first before allowance s) (e : TimedEvent) :
    Paced r m first before allowance (s.step p m.roundTimeMs e) := by
  cases hwait : s.waiting with
  | true => exact h.step_waiting hperiod hwait e
  | false => exact h.step_running hm hper hwait e

end Steps

end TimedServer

/-! ### The rate -/

section

variable {r : MetaReq} {payloadSize : UInt32} {m : Metrics}

end

end LibDtp
