import LibDtp.Foundation.Runs
import LibDtp.Server.Emission

/-!
# Whole transfers

A transfer runs as long as the world lets it. This module follows the send machine
over an endless stream of ticks, shows that it gets through every interval that fits, and
compares what comes out with what `compute_dtp_metrics` promised the client and with the
bounds of the payload.

## What is proved

* `reaches_interval`, `finishes` — if nothing stops it and `csp_buffer_get` succeeds again and
  again, the machine gets past every interval that fits, and so to its end.
* `metrics_agree_iff` — the client's packet count and last packet are those of the
  transfer, unless an open interval meets a payload of whole chunks or the count
  wraps.
* `reads_exact_iff` — the server stays inside the payload, with every quantity
  exact, for exactly those requests whose intervals fit.
-/

namespace LibDtp

open Chunks Runs

namespace SendState

/-- The states of a run over a stream of ticks. -/
def trace (s : SendState) (f : ℕ → Tick) : ℕ → SendState
  | 0 => s
  | n + 1 => (trace s f n).step (f n)

theorem trace_eq_run (s : SendState) (f : ℕ → Tick) (n : ℕ) :
    s.trace f n = s.run ((List.range n).map f) := by
  induction n with
  | zero => rfl
  | succ n ih => rw [trace, ih, List.range_succ, List.map_append, run, run, List.foldl_append]; rfl

theorem trace_add (s : SendState) (f : ℕ → Tick) (m n : ℕ) :
    s.trace f (m + n) = (s.trace f m).trace (fun k => f (m + k)) n := by
  induction n with
  | zero => rfl
  | succ n ih => rw [← Nat.add_assoc, trace, ih]; rfl

/-- A stream that does not stop the transfer and finds a buffer again and again. -/
structure Lets (payload : List UInt8) (s : SendState) (f : ℕ → Tick) : Prop where
  /-- The payload is read in full. -/
  reads : ∀ n, (f n).Reads payload
  /-- There is a buffer again and again. -/
  fair : ∀ n, ∃ m, n ≤ m ∧ (f m).buffer = true
  /-- Nothing stops the transfer. -/
  keepRunning : ∀ n, (s.trace f n).ctx.keepRunning = true

theorem Lets.tail {payload : List UInt8} {s : SendState} {f : ℕ → Tick} (h : Lets payload s f)
    (m : ℕ) :
    Lets payload (s.trace f m) fun k => f (m + k) := by
  refine ⟨fun n => h.reads _, fun n => ?_, fun n => ?_⟩
  · obtain ⟨k, hk, hb⟩ := h.fair (m + n)
    exact ⟨k - m, by omega, by rw [show m + (k - m) = k by omega]; exact hb⟩
  · rw [← trace_add]
    exact h.keepRunning _

theorem Lets.running {payload : List UInt8} {s : SendState} {f : ℕ → Tick} (h : Lets payload s f) :
    s.ctx.keepRunning = true := h.keepRunning 0

section Progress

variable {payload : List UInt8} {r : MetaReq} {size : UInt32}

/-- The state is in the poll function of interval `i`, with `k` bytes left and room for packets
in a round. -/
structure Polling (r : MetaReq) (size : UInt32) (i k : ℕ) (s : SendState) : Prop where
  /-- The counters. -/
  counted : Counted r size s
  /-- The control point. -/
  pc : ∃ c, s.pc = .poll i c
  /-- What is left. -/
  left : s.left = k
  /-- The size of a round. -/
  perRound : 1 ≤ s.transfer.nofPacketsPerRound.toNat

theorem left_endRound (s : SendState) (i : ℕ) : (s.endRound i).left = s.left := by
  rw [left, transfer_endRound, left]

/-- The end of a round with something left goes on with the interval. -/
theorem endRound_of_left {s : SendState} {i : ℕ} (hk : s.ctx.keepRunning = true) (hl : 0 < s.left) :
    (s.endRound i).pc = .poll i 0 := by
  rw [endRound, if_pos ⟨UInt32.lt_iff_toNat_lt.mpr (Nat.sub_pos_iff_lt.mp hl), hk⟩]

theorem endRound_of_left_eq_zero {s : SendState} {i : ℕ} (hl : s.left = 0) :
    (s.endRound i).pc = .interval (i + 1) := by
  rw [endRound, if_neg]
  rintro ⟨hlt, -⟩
  rw [UInt32.lt_iff_toNat_lt] at hlt
  rw [left] at hl
  omega

/-- A read of what is left of an interval returns it. -/
theorem count_read {s : SendState} {i : ℕ} {c : UInt32} (hr : r.Usable)
    (hsize : size.toNat = payload.length) (hc : Counted r size s) (hpc : s.pc = .poll i c)
    {t : Tick} (ht : t.Reads payload) :
    (t.read s.transfer.bytesSent s.nextSize).count.toNat = min r.eff s.left := by
  obtain ⟨cur, -, hin⟩ := hc.inside i c hpc
  obtain ⟨hread, hsize⟩ := read_eq hr.mtu hc.serves.mtu (hsize ▸ hin) ht
  rw [hread, hsize]

/-- With something left, a step in the poll function sends part of it, or goes to the start
of a round because the round was over or there was no buffer. -/
theorem Polling.step {i k : ℕ} {s : SendState} (hr : r.Usable) (hsize : size.toNat = payload.length)
    (h : Polling r size i k s) (hk : s.ctx.keepRunning = true) (hpos : 0 < k) {t : Tick}
    (ht : t.Reads payload) :
    (∃ j < k, Polling r size i j (s.step t)) ∨
      Polling r size i k (s.step t) ∧ (s.step t).pc = .poll i 0 ∧
        (s.pc = .poll i 0 → ¬ t.buffer = true) := by
  obtain ⟨hc, ⟨c, hpc⟩, rfl, hper⟩ := h
  have hcount := count_read hr hsize hc hpc ht
  have he := MetaReq.eff_pos hr.mtu
  have hc' : Counted r size (s.step t) :=
    hc.step hr (fun j cur hj => by rw [hpc] at hj; cases hj) ht.1
  have hmoves := moves_step hr hc.serves t
  generalize s.step t = s' at hmoves hc' ⊢
  cases hmoves with
  | ended hend => rcases hend with hend | ⟨f, hend⟩ <;> rw [hpc] at hend <;> cases hend
  | finish hj => rw [hpc] at hj; cases hj
  | enter hj => rw [hpc] at hj; cases hj
  | @round j d hj hno =>
    rw [hpc] at hj
    cases hj
    refine Or.inr ⟨⟨hc', ⟨0, endRound_of_left hk hpos⟩, left_endRound s i,
      by rw [transfer_endRound]; exact hper⟩,
      endRound_of_left hk hpos, fun h0 hb => ?_⟩
    rw [hpc] at h0
    cases h0
    exact hno ⟨UInt32.lt_iff_toNat_lt.mpr hper, hk, hb⟩
  | @empty j d hj hz =>
    rw [hz, UInt32.toNat_zero] at hcount
    omega
  | @send j d hj _ hz =>
    rw [hpc] at hj
    cases hj
    obtain ⟨cur, -, hin⟩ := hc.inside i c hpc
    obtain ⟨-, hadd, -⟩ := hin.advance hr.mtu hc.serves.mtu size.toNat_lt (ht.1 _ _)
    refine Or.inl ⟨_, ?_, hc', ⟨_, rfl⟩, rfl, hper⟩
    show s.transfer.bytesInInterval.toNat -
      (s.transfer.sentInInterval + (t.read s.transfer.bytesSent s.nextSize).count).toNat < s.left
    rw [hadd, hcount]
    unfold SendState.left at hpos ⊢
    omega

/-- With nothing left, the next step goes to the next interval. -/
theorem Polling.leaves {i : ℕ} {s : SendState} (hr : r.Usable) (hsize : size.toNat = payload.length)
    (h : Polling r size i 0 s) {t : Tick} (ht : t.Reads payload) :
    Counted r size (s.step t) ∧ (s.step t).pc = .interval (i + 1) ∧
      1 ≤ (s.step t).transfer.nofPacketsPerRound.toNat := by
  obtain ⟨hc, ⟨c, hpc⟩, hleft, hper⟩ := h
  have hcount := count_read hr hsize hc hpc ht
  have hc' : Counted r size (s.step t) :=
    hc.step hr (fun j cur hj => by rw [hpc] at hj; cases hj) ht.1
  have hmoves := moves_step hr hc.serves t
  generalize s.step t = s' at hmoves hc' ⊢
  cases hmoves with
  | ended hend => rcases hend with hend | ⟨f, hend⟩ <;> rw [hpc] at hend <;> cases hend
  | finish hj => rw [hpc] at hj; cases hj
  | enter hj => rw [hpc] at hj; cases hj
  | round hj _ =>
    rw [hpc] at hj
    cases hj
    exact ⟨hc', endRound_of_left_eq_zero hleft, by rw [transfer_endRound]; exact hper⟩
  | empty hj _ =>
    rw [hpc] at hj
    cases hj
    exact ⟨hc', endRound_of_left_eq_zero hleft, by rw [transfer_endRound]; exact hper⟩
  | send hj _ hz =>
    rw [hleft, Nat.min_zero] at hcount
    exact absurd (UInt32.toNat_inj.mp hcount) hz

/-- The poll function of an interval ends. -/
theorem Polling.reaches_next {i k : ℕ} {s : SendState} {f : ℕ → Tick} (hr : r.Usable)
    (hsize : size.toNat = payload.length) (h : Polling r size i k s) (hf : Lets payload s f) :
    ∃ n, Counted r size (s.trace f n) ∧ (s.trace f n).pc = .interval (i + 1) ∧
      1 ≤ (s.trace f n).transfer.nofPacketsPerRound.toNat := by
  have hstep : ∀ n k, Polling r size i k (s.trace f n) →
      (Counted r size (s.trace f (n + 1)) ∧ (s.trace f (n + 1)).pc = .interval (i + 1) ∧
        1 ≤ (s.trace f (n + 1)).transfer.nofPacketsPerRound.toNat) ∨
      (∃ j < k, Polling r size i j (s.trace f (n + 1))) ∨ Polling r size i k (s.trace f (n + 1)) ∧
        (s.trace f (n + 1)).pc = .poll i 0 ∧
            ((s.trace f n).pc = .poll i 0 → ¬ (f n).buffer = true) := by
    intro n k h
    rcases Nat.eq_zero_or_pos k with rfl | hpos
    · exact Or.inl (h.leaves hr hsize (hf.reads n))
    · exact Or.inr (h.step hr hsize (hf.keepRunning n) hpos (hf.reads n))
  obtain ⟨n, hn, -⟩ := @leads_to _ (s.trace f) (fun n => (f n).buffer = true) (Polling r size i)
    (fun u => u.pc = .poll i 0)
    (fun u => Counted r size u ∧ u.pc = .interval (i + 1) ∧
      1 ≤ u.transfer.nofPacketsPerRound.toNat) hf.fair hstep k 0 h
  rw [Nat.zero_add] at hn
  exact ⟨n, hn⟩

/-- Entering an interval that fits. -/
theorem Counted.polling {i : ℕ} {cur : Interval} {s : SendState} (hr : r.Usable)
    (hc : Counted r size s) (hpc : s.pc = .interval i)
    (hper : 1 ≤ s.transfer.nofPacketsPerRound.toNat) (hk : s.ctx.keepRunning = true)
    (hcur : r.requested[i]? = some cur) (hf : cur.Fits size.toNat r.eff) {t : Tick}
    (ht : t.Polite) :
    ∃ k, Polling r size i k (s.step t) := by
  obtain ⟨request, -, henter⟩ := intervalStep_eq_enter hc.serves hpc hr.mtu hcur hk
  have hc' : Counted r size (s.step t) := by
    refine hc.step hr (fun j cur' hj hcur' => ?_) ht
    rw [hpc] at hj
    cases hj
    rw [hcur] at hcur'
    cases hcur'
    exact hf
  have hs : s.step t = s.intervalStep i := by simp [SendState.step, hpc]
  rw [hs, henter] at hc' ⊢
  exact ⟨_, hc', ⟨0, rfl⟩, rfl, hper⟩

/-- The machine gets past the first `j` intervals if they fit. -/
theorem reaches_interval {s : SendState} {f : ℕ → Tick} (hr : r.Usable)
    (hsize : size.toNat = payload.length) (hc : Counted r size s) (hpc : s.pc = .interval 0)
    (hper : 1 ≤ s.transfer.nofPacketsPerRound.toNat) (hf : Lets payload s f) {j : ℕ}
    (hj : j ≤ r.nofIntervals.toNat)
    (hfit : ∀ i < j, ∀ cur, r.requested[i]? = some cur → cur.Fits size.toNat r.eff) :
    ∃ n, Counted r size (s.trace f n) ∧ (s.trace f n).pc = .interval j ∧
      1 ≤ (s.trace f n).transfer.nofPacketsPerRound.toNat := by
  induction j with
  | zero => exact ⟨0, hc, hpc, hper⟩
  | succ j ih =>
    obtain ⟨n, hcn, hpcn, hpern⟩ := ih (by omega) fun i hi => hfit i (by omega)
    obtain ⟨cur, hcur⟩ := getElem?_requested_of_lt hr hj
    have hfn := hf.tail n
    obtain ⟨k, hk⟩ := hcn.polling hr hpcn hpern hfn.running hcur (hfit j (by omega) cur hcur)
      (hfn.reads 0).1
    obtain ⟨m, hm⟩ := hk.reaches_next hr hsize (hfn.tail 1)
    exact ⟨n + (1 + m), by rw [trace_add, trace_add]; exact hm⟩

/-- A transfer that is let go on over intervals that fit comes to its end. -/
theorem finishes {s : SendState} {f : ℕ → Tick} (hr : r.Usable)
    (hsize : size.toNat = payload.length) (hc : Counted r size s) (hpc : s.pc = .interval 0)
    (hper : 1 ≤ s.transfer.nofPacketsPerRound.toNat) (hf : Lets payload s f)
    (hfit : ∀ cur ∈ r.requested, cur.Fits size.toNat r.eff) :
    ∃ n, (s.trace f n).pc = .finished := by
  obtain ⟨n, hcn, hpcn, -⟩ := reaches_interval hr hsize hc hpc hper hf le_rfl
    fun i _ cur hcur => hfit cur (List.mem_of_getElem? hcur)
  refine ⟨n + 1, ?_⟩
  rw [trace, SendState.step, hpcn]
  show (intervalStep _ _).pc = _
  rw [intervalStep, hcn.serves.nofIntervals, if_neg (by omega)]

end Progress

end SendState

/-! ### A world that lets a transfer run -/

/-- A tick with a buffer, a payload read in full, and the clock standing still. -/
def Tick.steady (payload : List UInt8) (now : UInt32) : Tick where
  buffer := true
  read offset size := ⟨size, (payload.drop offset.toNat).take size.toNat⟩
  now := now

namespace SendState

/-- A clock that stands still does not make the client disappear. -/
theorem keepRunning_steady (payload : List UInt8) {s : SendState} {now : UInt32}
    (hk : s.ctx.keepRunning = true) (hnow : s.ctx.clientAliveTs = now) (n : ℕ) :
    (s.trace (fun _ => .steady payload now) n).ctx.keepRunning = true ∧
      (s.trace (fun _ => .steady payload now) n).ctx.clientAliveTs = now := by
  induction n with
  | zero => exact ⟨hk, hnow⟩
  | succ n ih =>
    rw [trace]
    generalize s.trace (fun _ => .steady payload now) n = u at ih ⊢
    obtain ⟨hk, hnow⟩ := ih
    obtain ⟨request, gone, -, hgone, hctx⟩ := u.ctx_step (.steady payload now)
    have hhere : gone = false := by
      by_contra hne
      have := hgone (by simpa using hne)
      simp [clientGone, hnow, Tick.steady] at this
    rw [hctx, hhere, hk]
    exact ⟨rfl, hnow⟩

theorem lets_steady (payload : List UInt8) {s : SendState} {now : UInt32}
    (hk : s.ctx.keepRunning = true) (hnow : s.ctx.clientAliveTs = now) :
    Lets payload s fun _ => .steady payload now where
  reads _ := ⟨fun _ _ => UInt32.le_refl _, fun _ _ _ => rfl⟩
  fair n := ⟨n, le_rfl, rfl⟩
  keepRunning n := (keepRunning_steady payload hk hnow n).1

/-- A run over a payload that is read in full and that comes to its end without being
stopped. -/
structure Completes (payload : List UInt8) (s : SendState) (ts : List Tick) : Prop where
  /-- The payload is read in full. -/
  reads : ∀ t ∈ ts, t.Reads payload
  /-- The run is over. -/
  finished : (s.run ts).pc = .finished
  /-- Nothing has stopped it. -/
  keepRunning : (s.run ts).ctx.keepRunning = true

/-- A transfer over intervals that fit can be completed. -/
theorem exists_completes (E : ErrorTest) {payload : List UInt8} {ctx : ServerTransferCtx}
    (hr : ctx.request.Usable) (hsize : ctx.payloadSize.toNat = payload.length)
    (hfit : ∀ cur ∈ ctx.request.requested, cur.Fits payload.length ctx.request.eff)
    (hk : ctx.keepRunning = true) (now : UInt32) :
    ∃ ts, Completes payload (startSendingData E ctx now) ts := by
  obtain ⟨hc, hpc, -, hctx, hper⟩ := counted_start E hr now
  have hk' : (startSendingData E ctx now).ctx.keepRunning = true := by rw [hctx]; exact hk
  have hnow : (startSendingData E ctx now).ctx.clientAliveTs = now := by rw [hctx]
  have hlets := lets_steady payload hk' hnow
  obtain ⟨n, hn⟩ := finishes hr hsize hc hpc hper hlets (by rwa [hsize])
  refine ⟨(List.range n).map fun _ => .steady payload now, ?_, ?_, ?_⟩
  · intro t ht
    obtain ⟨k, -, rfl⟩ := List.mem_map.mp ht
    exact hlets.reads k
  · rw [← trace_eq_run]
    exact hn
  · rw [← trace_eq_run]
    exact hlets.keepRunning n

end SendState

open SendState

/-! ### Reading inside the payload -/

/-- The bounds computed for an interval agree with exact arithmetic only if it fits. -/
theorem Interval.fits_of_exact {r : MetaReq} {size : UInt32} {i : ℕ} {cur : Interval}
    (hr : r.Usable) (hcur : r.requested[i]? = some cur)
    (h : SendObs.Exact r size.toNat (.bounds i (cur.intervalStart r.chunk)
      (cur.rawStop r.chunk size) (cur.intervalStop r.chunk size)
      (cur.intervalStop r.chunk size - cur.intervalStart r.chunk))) :
    cur.Fits size.toNat r.eff := by
  have he := MetaReq.eff_pos hr.mtu
  obtain ⟨cur', hcur', -, hraw, -, hbytes⟩ := h
  obtain rfl : cur = cur' := Option.some.inj (hcur.symm.trans hcur')
  have hle : cur.start.toNat * r.eff ≤ cur.stopByte size.toNat r.eff := by omega
  refine ⟨hle.trans (cur.stopByte_le _ _), ?_⟩
  by_cases ho : cur.stop = uint32Max
  · exact Or.inl ho
  · rw [Interval.exactRawStop, if_neg ho] at hraw
    rw [Interval.stopByte, if_neg ho] at hle
    refine Or.inr ⟨?_, ?_⟩
    · exact Nat.le_of_mul_le_mul_right (hle.trans (min_le_left _ _)) he
    · rw [← hraw]
      exact UInt32.toNat_lt _

/-- The server reads nothing outside the payload, and no 32-bit quantity on the way differs from its
exact value, for exactly those requests all of whose intervals fit. The first interval that does not
fit is reached, and its bounds are then logged. -/
theorem reads_exact_iff (E : ErrorTest) (r : MetaReq) (hr : r.Usable) (size : UInt32) :
    (∀ (ctx : ServerTransferCtx) (now : UInt32) (ts : List Tick), ctx.request = r →
      ctx.payloadSize = size →
      (∀ t ∈ ts, t.Polite) → ∀ o ∈ ((startSendingData E ctx now).run ts).log,
        o.Exact r size.toNat) ↔
      ∀ cur ∈ r.requested, cur.Fits size.toNat r.eff := by
  constructor
  · intro h
    by_contra hno
    have hex : ∃ j : ℕ, ∃ cur : Interval, r.requested[j]? = some cur ∧
        ¬ cur.Fits size.toNat r.eff := by
      simp only [not_forall] at hno
      obtain ⟨cur, hmem, hcur⟩ := hno
      obtain ⟨j, hj⟩ := List.mem_iff_getElem?.mp hmem
      exact ⟨j, cur, hj, hcur⟩
    classical
    obtain ⟨cur, hcur, hunfit⟩ := Nat.find_spec hex
    have hbefore : ∀ i < Nat.find hex, ∀ cur : Interval, r.requested[i]? = some cur →
        cur.Fits size.toNat r.eff := by
      intro i hi cur hcur
      by_contra hc
      exact Nat.find_min hex hi ⟨cur, hcur, hc⟩
    generalize Nat.find hex = j at hcur hbefore
    let ctx : ServerTransferCtx := ⟨0, 0, 0, true, r, size, 0⟩
    let payload := List.replicate size.toNat (0 : UInt8)
    have hsize : size.toNat = payload.length := by simp [payload]
    obtain ⟨hc, hpc, -, hctx, hper⟩ := counted_start E (show ctx.request.Usable from hr) 0
    have hk : (startSendingData E ctx 0).ctx.keepRunning = true := by rw [hctx]
    have hlets := lets_steady payload hk (by rw [hctx])
    obtain ⟨n, hcn, hpcn, -⟩ :=
      reaches_interval hr hsize hc hpc hper hlets (getElem?_requested hcur).1.le hbefore
    obtain ⟨request, -, henter⟩ :=
      intervalStep_eq_enter hcn.serves hpcn hr.mtu hcur (hlets.keepRunning n)
    have hstep : (startSendingData E ctx 0).trace (fun _ => .steady payload 0) (n + 1) =
        ((startSendingData E ctx 0).trace (fun _ => .steady payload 0) n).intervalStep j := by
      rw [trace, SendState.step, hpcn]
    refine hunfit (Interval.fits_of_exact hr hcur (h ctx 0
      ((List.range (n + 1)).map fun _ => .steady payload 0) rfl rfl ?_ _ ?_))
    · intro t ht
      obtain ⟨k, -, rfl⟩ := List.mem_map.mp ht
      exact (hlets.reads k).1
    · rw [← trace_eq_run, hstep, henter]
      exact List.mem_append_right _ (List.mem_singleton_self _)
  · rintro h ctx now ts rfl rfl hts
    exact (counted_run hr h (counted_start E hr now).1 ts hts).exact

/-- A request for one interval, at 1000 bytes a second. -/
def oneInterval (mtu : UInt16) (i : Interval) : MetaReq where
  throughput := 1000
  nofIntervals := 1
  payloadId := 0
  sessionId := 1
  mtu := mtu
  keepAliveInterval := 0
  intervals := Vector.replicate 8 i

theorem usable_oneInterval {mtu : UInt16} (h : 8 < mtu.toNat) (i : Interval) :
    (oneInterval mtu i).Usable :=
  ⟨h, show 0 < (1000 : UInt32).toNat by decide, show 1 ≤ (1 : UInt8).toNat by decide,
    show (1 : UInt8).toNat ≤ 8 by decide⟩

/-- A request for a whole payload of ten bytes in chunks of four. -/
theorem reads_exact_whole : (oneInterval 12 ⟨0, uint32Max⟩).Usable ∧
    ∀ (ctx : ServerTransferCtx) (now : UInt32) (ts : List Tick), ctx.request =
      oneInterval 12 ⟨0, uint32Max⟩ →
      ctx.payloadSize = 10 → (∀ t ∈ ts, t.Polite) →
      ∀ o ∈ ((startSendingData .exact ctx now).run ts).log,
        o.Exact (oneInterval 12 ⟨0, uint32Max⟩) 10 := by
  refine ⟨usable_oneInterval
    (by decide) _, (reads_exact_iff .exact _ (usable_oneInterval (by decide) _) 10).mpr ?_⟩
  intro cur hcur
  rw [show (oneInterval 12 ⟨0, uint32Max⟩).requested =
    [⟨0, uint32Max⟩] by decide, List.mem_singleton] at hcur
  subst hcur
  exact ⟨by decide, Or.inl rfl⟩

/-- A request for packet 5 of a payload of one chunk makes the server read 16 bytes past its
end. -/
theorem reads_past_end : ¬ ∀ (ctx : ServerTransferCtx) (now : UInt32) (ts : List Tick),
    ctx.request = oneInterval 12 ⟨5, 5⟩ → ctx.payloadSize = 4 → (∀ t ∈ ts, t.Polite) →
    ∀ o ∈ ((startSendingData .exact ctx now).run ts).log, o.Exact (oneInterval 12 ⟨5, 5⟩) 4 := by
  intro h
  have hread : (20 + 4 : ℕ) ≤ 4 := h ⟨0, 0, 0, true, oneInterval 12 ⟨5, 5⟩, 4, 0⟩ 0
    [.steady [] 0, .steady [] 0] rfl rfl (fun t ht => by
      simp only [List.mem_cons, List.not_mem_nil, or_false, or_self] at ht
      subst ht
      exact fun _ _ => UInt32.le_refl _) (.read 20 4) (by decide +kernel)
  omega

/-! ### What the client is told -/

/-- An interval of packets that exist, of the `count` there are: it starts at one, and it is open
or ends at one. -/
structure Interval.Exists (count : ℕ) (i : Interval) : Prop where
  /-- The first packet. -/
  start_le : i.start.toNat ≤ count - 1
  /-- The last packet. -/
  stop : i.stop = uint32Max ∨ i.start.toNat ≤ i.stop.toNat ∧ i.stop.toNat ≤ count - 1

theorem count_mul_lt {size eff : ℕ} (he : 0 < eff) : count size eff * eff < size + eff := by
  have := Nat.div_mul_le_self (size + eff - 1) eff
  unfold count
  omega

theorem Interval.Exists.fits {size eff : ℕ} {i : Interval} (he : 0 < eff) (hpos : 0 < size)
    (hsum : size + eff < 2 ^ 32) (h : i.Exists (count size eff)) : i.Fits size eff := by
  have hc := count_pos he hpos
  have hmul : count size eff * eff < size + eff := count_mul_lt he
  have hstart : i.start.toNat * eff < size := (lt_count_iff he).mp (by have := h.start_le; omega)
  refine ⟨hstart.le, h.stop.imp_right fun ⟨h1, h2⟩ => ⟨by omega, ?_⟩⟩
  have := Nat.mul_le_mul_right eff (show i.stop.toNat + 1 ≤ count size eff by omega)
  omega

/-- How many packets an interval of existing packets has, and which is its last. -/
theorem Interval.Exists.numbers {size eff : ℕ} {i : Interval} (he : 0 < eff) (hpos : 0 < size)
    (h : i.Exists (count size eff)) :
    (i.numbers (count size eff)).length =
      (if i.stop = uint32Max then count size eff - 1 else i.stop.toNat) + 1 -
        i.start.toNat ∧
      (i.numbers (count size eff)).getLast? =
        some (if i.stop = uint32Max then count size eff - 1 else i.stop.toNat) := by
  have hc := count_pos he hpos
  have hs := h.start_le
  have hlen : (i.numbers (count size eff)).length =
      (if i.stop = uint32Max then count size eff - 1 else i.stop.toNat) + 1 - i.start.toNat := by
    rw [Interval.numbers, List.length_range']
    split_ifs with ho
    · omega
    · have := h.stop.resolve_left ho
      omega
  refine ⟨hlen, ?_⟩
  have hge : i.start.toNat ≤ if i.stop = uint32Max then count size eff - 1 else i.stop.toNat := by
    split_ifs with ho
    · exact hs
    · exact (h.stop.resolve_left ho).1
  rw [List.getLast?_eq_getElem?, List.getElem?_eq_getElem (by omega), i.getElem_numbers, hlen]
  congr 1
  omega

theorem toNat_chunk_eq_eff {r : MetaReq} (h : 8 < r.mtu.toNat) :
    r.chunk.toUInt32.toNat = r.eff := by
  have := r.mtu.toNat_lt
  rw [toNat_chunk_toUInt32, MetaReq.eff]
  omega

/-- The end `compute_dtp_metrics` uses for an interval of existing packets: its last packet,
or the one after it if it is open and the payload is made of whole chunks. -/
theorem Interval.Exists.toNat_endOr {r : MetaReq} {size : UInt32} {i : Interval} (hr : r.Usable)
    (hpos : 0 < size.toNat) :
    (endOr size r.chunk.toUInt32 i.stop).toNat =
      (if i.stop = uint32Max then count size.toNat r.eff - 1 else i.stop.toNat) +
        if i.stop = uint32Max ∧ r.eff ∣ size.toNat then 1 else 0 := by
  have he := MetaReq.eff_pos hr.mtu
  have hcp := count_pos he hpos
  unfold endOr
  by_cases ho : i.stop = uint32Max
  · rw [if_pos ho, if_pos ho, UInt32.toNat_div, toNat_chunk_eq_eff hr.mtu]
    by_cases hd : r.eff ∣ size.toNat
    · rw [if_pos ⟨ho, hd⟩, ← count_of_dvd he hd, Nat.sub_add_cancel hcp]
    · rw [if_neg fun h => hd h.2, count_of_not_dvd he hd, Nat.add_sub_cancel, Nat.add_zero]
  · rw [if_neg ho, if_neg ho, if_neg fun h => ho h.1, Nat.add_zero]

/-- How many packets `compute_dtp_metrics` counts in an interval of existing packets. -/
theorem Interval.Exists.toNat_size {r : MetaReq} {size : UInt32} {i : Interval} (hr : r.Usable)
    (hpos : 0 < size.toNat) (hsum : size.toNat + r.eff < 2 ^ 32)
    (h : i.Exists (count size.toNat r.eff)) :
    (endOr size r.chunk.toUInt32 i.stop - i.start + 1).toNat =
      (i.numbers (count size.toNat r.eff)).length +
      if i.stop = uint32Max ∧ r.eff ∣ size.toNat then 1 else 0 := by
  have he := MetaReq.eff_pos hr.mtu
  have hcount : count size.toNat r.eff ≤ size.toNat := count_le he
  have hcp := count_pos he hpos
  obtain ⟨hlen, -⟩ := h.numbers he hpos
  have hend := Interval.Exists.toNat_endOr (i := i) hr hpos
  have hge : i.start.toNat ≤ if i.stop = uint32Max then count size.toNat r.eff - 1
      else i.stop.toNat := by
    split_ifs with ho
    · exact h.start_le
    · exact (h.stop.resolve_left ho).1
  have hlt : (if i.stop = uint32Max then count size.toNat r.eff - 1 else i.stop.toNat) <
      size.toNat := by
    split_ifs with ho
    · omega
    · have := h.stop.resolve_left ho
      omega
  generalize (if i.stop = uint32Max then count size.toNat r.eff - 1 else i.stop.toNat) = e at *
  generalize hx : (if i.stop = uint32Max ∧ r.eff ∣ size.toNat then 1 else 0) = x at *
  have hx1 : x ≤ 1 := by rw [← hx]; split_ifs <;> omega
  have hle : i.start ≤ endOr size r.chunk.toUInt32 i.stop := by rw [UInt32.le_iff_toNat_le]; omega
  rw [UInt32.toNat_add, UInt32.toNat_sub_of_le _ _ hle, hend, hlen,
    show (1 : UInt32).toNat = 1 from rfl]
  omega

/-- The packets `compute_dtp_metrics` counts: those the request names, and one more for each
open interval if the payload is made of whole chunks, modulo `2^32`. -/
theorem toNat_packetCount {r : MetaReq} {size : UInt32} (hr : r.Usable) (hpos : 0 < size.toNat)
    (hsum : size.toNat + r.eff < 2 ^ 32) (is : List Interval)
    (his : ∀ i ∈ is, i.Exists (count size.toNat r.eff)) :
    (packetCount size r.chunk.toUInt32 is).toNat =
      ((is.flatMap (·.numbers (count size.toNat r.eff))).length +
      is.countP fun i => i.stop = uint32Max ∧ r.eff ∣ size.toNat) % 2 ^ 32 := by
  have hgen : ∀ n : UInt32,
    (is.foldl (fun n cur => n + ((endOr size r.chunk.toUInt32 cur.stop - cur.start) + 1)) n).toNat =
      (n.toNat + ((is.flatMap (·.numbers (count size.toNat r.eff))).length +
        is.countP fun i => i.stop = uint32Max ∧ r.eff ∣ size.toNat)) % 2 ^ 32 := by
    induction is with
    | nil =>
      intro n
      have := n.toNat_lt
      simp
    | cons i is ih =>
      intro n
      have hi := (his i (List.mem_cons_self ..)).toNat_size hr hpos hsum
      rw [List.foldl_cons, ih fun j hj => his j (List.mem_cons_of_mem _ hj), UInt32.toNat_add, hi,
        List.flatMap_cons, List.length_append, List.countP_cons]
      simp only [decide_eq_true_eq]
      omega
  have := hgen 0
  rw [UInt32.toNat_zero, Nat.zero_add] at this
  exact this

/-- The client's metrics and an uninterrupted transfer agree: on the number of packets, and on
the number of the last one. -/
def MetricsAgree (E : ErrorTest) (ctx : ServerTransferCtx) (payload : List UInt8) : Prop :=
  ∃ m, computeDtpMetrics E ctx.request ctx.payloadSize = .ok m ∧
    ∀ now ts, Completes payload (startSendingData E ctx now) ts →
      m.nofPackets.toNat = ((startSendingData E ctx now).run ts).sent.length ∧
      ((startSendingData E ctx now).run ts).sent.getLast?.map
        (fun p => p.offset.toNat / ctx.request.eff) =
        some m.lastPacket.toNat

theorem getLast?_flatMap {α β : Type} {f : α → List β} {l : List α} {a : α} {b : β}
    (ha : l.getLast? = some a) (hb : (f a).getLast? = some b) :
    (l.flatMap f).getLast? = some b := by
  obtain ⟨l', rfl⟩ := List.getLast?_eq_some_iff.mp ha
  simp [List.getLast?_append, hb]

/-- The packet number a client reads off a packet. -/
theorem offset_chunkPacket {payload : List UInt8} {r : MetaReq} {k : ℕ} (he : 0 < r.eff)
    (hk : k < count payload.length r.eff) (hlt : payload.length < 2 ^ 32) :
    (chunkPacket payload r k).offset.toNat / r.eff = k := by
  have hk' := (lt_count_iff he).mp hk
  rw [chunkPacket,
    UInt32.toNat_ofNat_of_lt' (by change k * r.eff < 2 ^ 32; omega), Nat.mul_div_cancel _ he]

section Agree

variable {payload : List UInt8} {ctx : ServerTransferCtx} (hr : ctx.request.Usable)
  (hsize : ctx.payloadSize.toNat = payload.length) (hpos : 0 < payload.length)
  (hsum : payload.length + ctx.request.eff < 2 ^ 32)
  (hex : ∀ i ∈ ctx.request.requested, i.Exists (count payload.length ctx.request.eff))

include hr hsize hpos hsum hex

/-- A completed transfer sends what the request names, and then what its last interval ends
with. -/
theorem completes_sent (E : ErrorTest) {i : Interval} (hi : ctx.request.requested.getLast? = some i)
    {now : UInt32} {ts : List Tick} (h : Completes payload (startSendingData E ctx now) ts) :
    ((startSendingData E ctx now).run ts).sent.length =
        (ctx.request.numbers (count payload.length ctx.request.eff)).length ∧
      ((startSendingData E ctx now).run ts).sent.getLast?.map
        (fun p => p.offset.toNat / ctx.request.eff) =
        some (if i.stop = uint32Max then count payload.length ctx.request.eff - 1
          else i.stop.toNat) := by
  have he := MetaReq.eff_pos hr.mtu
  have hsent := (sent_isPrefix E hr hsize
    (fun i hi => (hex i hi).fits he hpos hsum) now ts h.reads).2 h.finished
    h.keepRunning
  have hmem := List.mem_of_getLast? hi
  obtain ⟨-, hlast⟩ := (hex i hmem).numbers he hpos
  have hlt := MetaReq.mem_numbers_lt he (List.mem_flatMap.mpr ⟨i, hmem, List.mem_of_getLast? hlast⟩)
  rw [hsent, emission, List.length_map, List.getLast?_map, MetaReq.numbers,
    getLast?_flatMap hi hlast]
  exact ⟨rfl, congrArg some (offset_chunkPacket he hlt (by omega))⟩

/-- The metrics of a request for existing packets count one packet too many for each open
interval if the payload is made of whole chunks. -/
theorem metrics_of_exists (E : ErrorTest) :
    ∃ m i, computeDtpMetrics E ctx.request ctx.payloadSize = .ok m ∧
    ctx.request.requested.getLast? = some i ∧
    m.nofPackets.toNat = ((ctx.request.numbers (count payload.length ctx.request.eff)).length +
      ctx.request.requested.countP fun i => i.stop = uint32Max ∧ ctx.request.eff ∣ payload.length) %
        2 ^ 32 ∧
    m.lastPacket.toNat = (if i.stop = uint32Max then count payload.length ctx.request.eff - 1
      else i.stop.toNat) +
      if i.stop = uint32Max ∧ ctx.request.eff ∣ payload.length then 1 else 0 := by
  obtain ⟨m, hm, -, -, hnof, hlast⟩ := computeDtpMetrics_spec E ctx.payloadSize hr
  obtain ⟨i, hi, hend⟩ := Option.map_eq_some_iff.mp hlast
  rw [← hsize] at hpos hsum hex ⊢
  refine ⟨m, i, hm, hi, ?_, ?_⟩
  · rw [hnof, toNat_packetCount hr hpos hsum _ hex]
    rfl
  · rw [← hend, Interval.Exists.toNat_endOr hr hpos]

/-- A transfer of packets that exist can be completed, and the metrics the client computes for it
then agree with what was sent exactly when the packets can be counted in 32 bits and no open
interval meets a payload made of whole chunks. -/
theorem metrics_agree_iff (E : ErrorTest) (hk : ctx.keepRunning = true) :
    (∀ now, ∃ ts, Completes payload (startSendingData E ctx now) ts) ∧
    (MetricsAgree E ctx payload ↔
      (∀ i ∈ ctx.request.requested, i.stop = uint32Max → ¬ ctx.request.eff ∣ payload.length) ∧
      (ctx.request.numbers (count payload.length ctx.request.eff)).length < 2 ^ 32) := by
  have he := MetaReq.eff_pos hr.mtu
  have hrun := exists_completes E hr hsize (fun i hi => (hex i hi).fits he hpos hsum) hk
  obtain ⟨m, i, hm, hi, hnof, hlast⟩ := metrics_of_exists hr hsize hpos hsum hex E
  have hsent : ∀ {now ts}, Completes payload (startSendingData E ctx now) ts → _ :=
    completes_sent hr hsize hpos hsum hex E hi
  refine ⟨hrun, ?_, ?_⟩
  · rintro ⟨m', hm', hagree⟩
    obtain rfl : m = m' := Except.ok.inj (hm.symm.trans hm')
    obtain ⟨ts, hts⟩ := hrun 0
    have hn := (hagree 0 ts hts).1
    have hle := List.countP_le_length
      (p := fun i => decide (i.stop = uint32Max ∧ ctx.request.eff ∣ payload.length))
      (l := ctx.request.requested)
    rw [ctx.request.length_requested hr.le] at hle
    have h8 := hr.le
    rw [hnof, (hsent hts).1] at hn
    have hzero : ctx.request.requested.countP
        (fun i => i.stop = uint32Max ∧ ctx.request.eff ∣ payload.length) = 0 := by
      omega
    refine ⟨fun j hj hopen hdvd => ?_, by omega⟩
    have := List.countP_eq_zero.mp hzero j hj
    simp [hopen, hdvd] at this
  · rintro ⟨hdvd, hlt⟩
    refine ⟨m, hm, fun now ts hts => ?_⟩
    have hzero : ctx.request.requested.countP
        (fun i => i.stop = uint32Max ∧ ctx.request.eff ∣ payload.length) = 0 := by
      rw [List.countP_eq_zero]
      intro j hj
      simpa using hdvd j hj
    have hno : ¬ (i.stop = uint32Max ∧ ctx.request.eff ∣ payload.length) := fun h =>
      hdvd i (List.mem_of_getLast? hi) h.1 h.2
    rw [(hsent hts).1, (hsent hts).2, hnof, hlast, hzero, Nat.add_zero, Nat.mod_eq_of_lt hlt,
      if_neg hno, Nat.add_zero]
    exact ⟨rfl, rfl⟩

end Agree

/-- A transfer of a whole payload in chunks of four, for session `1`. -/
def wholeTransfer (size : UInt32) : ServerTransferCtx :=
  ⟨0, 0, size, true, oneInterval 12 ⟨0, uint32Max⟩, size, 0⟩

theorem requested_wholeTransfer (size : UInt32) :
    (wholeTransfer size).request.requested = [⟨0, uint32Max⟩] := by
  change (oneInterval 12 ⟨0, uint32Max⟩).requested = _
  decide

/-- Ten bytes in chunks of four. -/
theorem metrics_agree_ten : MetricsAgree .exact (wholeTransfer 10) (List.replicate 10 7) := by
  refine (metrics_agree_iff
    (usable_oneInterval (by decide) _) rfl (by decide) (by decide) ?_ .exact rfl).2.mpr ⟨?_, ?_⟩
  · rw [requested_wholeTransfer]
    rintro i hi
    obtain rfl := List.mem_singleton.mp hi
    exact ⟨by decide, Or.inl rfl⟩
  · rintro i - -
    decide
  · decide

/-- Four bytes in one chunk: one packet is sent, and the client is told of two. -/
theorem metrics_disagree_four : (wholeTransfer 4).request.Usable ∧
    (∀ i ∈ (wholeTransfer 4).request.requested, i.Exists (count 4 (wholeTransfer 4).request.eff)) ∧
    ¬ MetricsAgree .exact (wholeTransfer 4) (List.replicate 4 7) := by
  refine ⟨usable_oneInterval (by decide) _, ?_, ?_⟩
  · rw [requested_wholeTransfer]
    rintro i hi
    obtain rfl := List.mem_singleton.mp hi
    exact ⟨by decide, Or.inl rfl⟩
  · rintro ⟨m, hm, h⟩
    have hmetrics : (computeDtpMetrics .exact (wholeTransfer 4).request
      (wholeTransfer 4).payloadSize).toOption.map
        (·.nofPackets) = some 2 := by decide +kernel
    have hnof : m.nofPackets = 2 := by
      rw [hm] at hmetrics
      simpa [Except.toOption] using hmetrics
    let ts : List Tick := List.replicate 5 (.steady (List.replicate 4 7) 0)
    have hts : Completes (List.replicate 4 7) (startSendingData .exact (wholeTransfer 4) 0) ts := by
      refine ⟨?_, by decide +kernel, by decide +kernel⟩
      intro t ht
      rw [List.eq_of_mem_replicate ht]
      exact ⟨fun _ _ => UInt32.le_refl _, fun _ _ _ => rfl⟩
    have hsent : ((startSendingData .exact (wholeTransfer 4) 0).run ts).sent.length = 1 := by
      decide +kernel
    have := (h 0 ts hts).1
    rw [hnof, hsent] at this
    exact absurd this (by decide)

end LibDtp
