import LibDtp.Client.Request
import Mathlib.Algebra.GroupWithZero.Nat

/-!
# The size that is announced

The server tells the client, before it sends anything, how much it is going to send:
`compute_transfer_size` adds up the intervals of the request in `setup_server_transfer`, and the sum
goes out in the response. What is then sent is what `start_sending_data` makes of the same
intervals.

The two differ on an interval with an explicit end. Its end is the number of its last packet, which
`start_sending_data` sends and `compute_transfer_size` does not count.

## What is proved

* `payloadBytes_emission` — how many bytes of the payload a complete transfer sends.
* `toNat_computeTransferSize` — how many are announced.
* `announced_iff` — when the two are the same.
-/

namespace LibDtp

open Bytes Chunks SendState

/-- The bytes of the payload in some packets. -/
def payloadBytes (ps : List Packet) : ℕ := (ps.map fun p => p.length.toNat - 8).sum

/-- An interval of a payload of `size` bytes cut into chunks of `eff`: it is open, or it ends with a
packet that starts in the payload, or right after it. -/
structure Interval.Within (size eff : ℕ) (i : Interval) : Prop where
  /-- The interval starts in the payload, or right after it. -/
  start_le : i.start.toNat * eff ≤ size
  /-- It is open, or its end is not before its start and not behind the payload. -/
  stop : i.stop = uint32Max ∨ i.start.toNat ≤ i.stop.toNat ∧ i.stop.toNat ≤ size / eff

/-- How many bytes of an interval are announced, in exact arithmetic. -/
def Interval.announced (size eff : ℕ) (i : Interval) : ℕ :=
  if i.stop = uint32Max then size - i.start.toNat * eff
    else i.stop.toNat * eff - i.start.toNat * eff

/-- How many bytes of an interval are sent and not announced. -/
def Interval.extra (size eff : ℕ) (i : Interval) : ℕ :=
  if i.stop = uint32Max then 0 else min ((i.stop.toNat + 1) * eff) size - i.stop.toNat * eff

section Interval

variable {size eff : ℕ} {i : Interval}

theorem Interval.Within.stop_mul_le (h : i.Within size eff) (hopen : i.stop ≠ uint32Max) :
    i.stop.toNat * eff ≤ size :=
  (Nat.mul_le_mul_right eff (h.stop.resolve_left hopen).2).trans (Nat.div_mul_le_self size eff)

theorem Interval.Within.fits (h : i.Within size eff) (hsum : size + eff < 2 ^ 32) :
    i.Fits size eff := by
  refine ⟨h.start_le, ?_⟩
  by_cases hopen : i.stop = uint32Max
  · exact Or.inl hopen
  · refine Or.inr ⟨(h.stop.resolve_left hopen).1.trans (Nat.le_succ _), ?_⟩
    have := h.stop_mul_le hopen
    rw [Nat.succ_mul]
    omega

/-- What is sent is what is announced, and the last packet. -/
theorem Interval.Within.announced_add_extra (h : i.Within size eff) :
    i.announced size eff + i.extra size eff = i.stopByte size eff - i.start.toNat * eff := by
  simp only [Interval.announced, Interval.extra, Interval.stopByte]
  split_ifs with hopen
  · rfl
  · have hstop := h.stop_mul_le hopen
    have hle := Nat.mul_le_mul_right eff (h.stop.resolve_left hopen).1
    have hmin : i.stop.toNat * eff ≤ min ((i.stop.toNat + 1) * eff) size :=
      le_min (Nat.mul_le_mul_right eff (Nat.le_succ _)) hstop
    omega

/-- Nothing is left out only if the last packet is empty. -/
theorem Interval.Within.extra_eq_zero_iff (h : i.Within size eff) (he : 0 < eff) :
    i.extra size eff = 0 ↔ (i.stop ≠ uint32Max → i.stop.toNat * eff = size) := by
  simp only [Interval.extra]
  split_ifs with hopen
  · simp [hopen]
  · have hstop := h.stop_mul_le hopen
    rw [Nat.succ_mul]
    constructor
    · intro hzero _
      omega
    · intro hsize
      have := hsize hopen
      omega

/-- The bytes of consecutive packets. -/
theorem sum_len_range' (size eff a n : ℕ) :
    ((List.range' a n).map (len size eff)).sum + min (a * eff) size = min ((a + n) * eff) size := by
  induction n with
  | zero => simp
  | succ n ih =>
    have hmul : (a + (n + 1)) * eff = (a + n) * eff + eff := by rw [← Nat.add_assoc, Nat.succ_mul]
    rw [List.range'_1_concat, List.map_append, List.sum_append, List.map_singleton,
      List.sum_singleton, hmul, len]
    omega

/-- The bytes of the packets of an interval. -/
theorem Interval.Within.sum_len_numbers (h : i.Within size eff) (he : 0 < eff) :
    ((i.numbers (count size eff)).map (len size eff)).sum = i.stopByte size eff - i.start.toNat *
      eff := by
  have hcount : size ≤ count size eff * eff := by
    by_contra hlt
    exact absurd ((lt_count_iff he).mpr (not_le.mp hlt)) (lt_irrefl _)
  have hstart : i.start.toNat ≤ count size eff := by
    by_contra hlt
    have := (Nat.mul_lt_mul_right he).mpr (not_le.mp hlt)
    have := h.start_le
    omega
  rw [Interval.numbers]
  have hsum := sum_len_range' size eff i.start.toNat
    ((if i.stop = uint32Max then count size eff else min (i.stop.toNat + 1) (count size eff)) -
      i.start.toNat)
  have hle := h.start_le
  simp only [Interval.stopByte]
  split_ifs at hsum ⊢ with hopen
  · rw [Nat.add_sub_cancel' hstart] at hsum
    omega
  · have hle' := (h.stop.resolve_left hopen).1
    have hmin : min (i.stop.toNat + 1) (count size eff) * eff = min ((i.stop.toNat + 1) * eff)
      (count size eff * eff) :=
      (Nat.mul_min_mul_right _ _ _).symm
    rw [Nat.add_sub_cancel' (le_min (hle'.trans (Nat.le_succ _)) hstart), hmin] at hsum
    omega

end Interval

/-- The length of a packet of a payload. -/
theorem length_chunkPacket (payload : List UInt8) (r : MetaReq) (k : ℕ) :
    (chunkPacket payload r k).length.toNat - 8 = len payload.length r.eff k := by
  have hle : len payload.length r.eff k ≤ r.mtu.toNat - 8 := len_le
  have hlt := r.mtu.toNat_lt
  rcases Nat.lt_or_ge 8 r.mtu.toNat with hmtu | hmtu
  · rw [chunkPacket, UInt16.toNat_ofNat_of_lt' (by change _ < 2 ^ 16; omega), Nat.add_sub_cancel]
  · rw [chunkPacket, show len payload.length r.eff k = 0 by omega]
    rfl

/-- How many bytes of the payload a complete transfer sends. -/
theorem payloadBytes_emission {payload : List UInt8} {r : MetaReq} (hmtu : 8 < r.mtu.toNat)
    (hwithin : ∀ i ∈ r.requested, i.Within payload.length r.eff) :
    payloadBytes (emission payload r) =
      (r.requested.map (Interval.announced payload.length r.eff)).sum +
        (r.requested.map (Interval.extra payload.length r.eff)).sum := by
  have hlen : payloadBytes (emission payload r) =
      ((r.numbers (count payload.length r.eff)).map (len payload.length r.eff)).sum := by
    rw [payloadBytes, emission, List.map_map]
    refine congrArg List.sum (List.map_congr_left fun k _ => ?_)
    exact length_chunkPacket payload r k
  rw [hlen, MetaReq.numbers]
  generalize r.requested = l at hwithin ⊢
  induction l with
  | nil => rfl
  | cons i l ih =>
    have hi := hwithin i (List.mem_cons_self ..)
    rw [List.flatMap_cons, List.map_append, List.sum_append, ih fun j hj =>
      hwithin j (List.mem_cons_of_mem _ hj),
      hi.sum_len_numbers (MetaReq.eff_pos hmtu), ← hi.announced_add_extra]
    simp only [List.map_cons, List.sum_cons]
    omega

/-- What `compute_transfer_size` adds for an interval. -/
theorem Interval.Within.toNat_announced {r : MetaReq} {size : UInt32} {i : Interval}
    (hmtu : 8 < r.mtu.toNat) (h : i.Within size.toNat r.eff) :
    (if i.stop = uint32Max then size - i.start * r.chunk.toUInt32
      else i.stop * r.chunk.toUInt32 - i.start * r.chunk.toUInt32).toNat =
        i.announced size.toNat r.eff := by
  have hsize := size.toNat_lt
  have hmul : ∀ n : UInt32, n.toNat * r.eff ≤ size.toNat →
      (n * r.chunk.toUInt32).toNat = n.toNat * r.eff := by
    intro n hn
    rw [UInt32.toNat_mul, toNat_chunk_eq_eff hmtu, Nat.mod_eq_of_lt (by omega)]
  simp only [Interval.announced]
  split_ifs with hopen
  · rw [UInt32.toNat_sub_of_le
      _ _ (by rw [UInt32.le_iff_toNat_le, hmul _ h.start_le]; exact h.start_le), hmul _ h.start_le]
  · have hstop := h.stop_mul_le hopen
    have hle := Nat.mul_le_mul_right r.eff (h.stop.resolve_left hopen).1
    rw [UInt32.toNat_sub_of_le _ _
      (by rw [UInt32.le_iff_toNat_le, hmul _ h.start_le, hmul _ hstop]; exact hle),
      hmul _ h.start_le, hmul _ hstop]

/-- What `compute_transfer_size` returns: the sum over the intervals, modulo `2^32`. -/
theorem toNat_computeTransferSize {ctx : ServerTransferCtx} (hr : ctx.request.Usable)
    (hwithin : ∀ i ∈ ctx.request.requested, i.Within ctx.payloadSize.toNat ctx.request.eff) :
    ∃ size, computeTransferSize ctx = .ok size ∧
      size.toNat = (ctx.request.requested.map
        (Interval.announced ctx.payloadSize.toNat ctx.request.eff)).sum % 2 ^ 32 := by
  refine ⟨_,
    by rw [computeTransferSize, MetaReq.forIntervals_eq_foldlM _ hr.le]; exact foldlM_ok _ _ _, ?_⟩
  change (ctx.request.requested.foldl _ (0 : UInt32)).toNat = _
  generalize ctx.request.requested = l at hwithin ⊢
  have hgen : ∀ n : UInt32, (l.foldl (fun size cur =>
      if cur.stop = uint32Max then size + (ctx.payloadSize - cur.start * ctx.request.chunk.toUInt32)
      else size + (cur.stop * ctx.request.chunk.toUInt32 - cur.start * ctx.request.chunk.toUInt32))
        n).toNat =
        (n.toNat + (l.map (Interval.announced ctx.payloadSize.toNat ctx.request.eff)).sum) %
            2 ^ 32 := by
    induction l with
    | nil =>
      intro n
      have := n.toNat_lt
      simp
    | cons i l ih =>
      intro n
      have hi := (hwithin i (List.mem_cons_self ..)).toNat_announced hr.mtu
      rw [List.foldl_cons, ih fun j hj => hwithin j (List.mem_cons_of_mem _ hj),
        ← apply_ite (n + ·), UInt32.toNat_add, hi, List.map_cons, List.sum_cons]
      omega
  have := hgen 0
  rwa [UInt32.toNat_zero, Nat.zero_add] at this

/-- The size in the response is the size of what is then sent, if nothing stops the transfer. -/
def SizeAnnounced (E : ErrorTest) (payload : List UInt8) (ctx : ServerTransferCtx)
    (resp : MetaResp) : Prop :=
  ∀ now ts, Completes payload (startSendingData E { ctx with keepRunning := true } now) ts →
    resp.sizeInBytes.toNat =
      payloadBytes ((startSendingData E { ctx with keepRunning := true } now).run ts).sent

/-- It is if it is the size of the emission. -/
theorem sizeAnnounced_iff (E : ErrorTest) {payload : List UInt8} {ctx : ServerTransferCtx}
    (hr : ctx.request.Usable) (hsize : ctx.payloadSize.toNat = payload.length)
    (hfits : ∀ i ∈ ctx.request.requested, i.Fits payload.length ctx.request.eff) (resp : MetaResp) :
    (∀ now, ∃ ts, Completes payload (startSendingData E { ctx with keepRunning := true } now) ts) ∧
      (SizeAnnounced E payload ctx resp ↔
        resp.sizeInBytes.toNat = payloadBytes (emission payload ctx.request)) := by
  have hr' : ({ ctx with keepRunning := true } : ServerTransferCtx).request.Usable := hr
  have hrun :
    ∀ now, ∃ ts, Completes payload (startSendingData E { ctx with keepRunning := true } now) ts :=
    fun now => exists_completes E hr' hsize hfits rfl now
  have hsent :
    ∀ now ts, Completes payload (startSendingData E { ctx with keepRunning := true } now) ts →
      ((startSendingData E { ctx with keepRunning := true } now).run ts).sent =
          emission payload ctx.request := by
    intro now ts h
    exact (sent_isPrefix E hr' hsize hfits now ts h.reads).2 h.finished h.keepRunning
  refine ⟨hrun, fun h => ?_, fun h now ts hts => ?_⟩
  · obtain ⟨ts, hts⟩ := hrun 0
    rw [← hsent 0 ts hts]
    exact h 0 ts hts
  · rw [hsent now ts hts]
    exact h

/-- The sums over the intervals are equal, up to `2^32`, exactly if nothing is left out and nothing
is cut off. -/
theorem sum_mod_eq_iff {is : List Interval} {size eff : ℕ} (he : 0 < eff)
    (hwithin : ∀ i ∈ is, i.Within size eff) :
    (is.map (Interval.announced size eff)).sum % 2 ^ 32 =
        (is.map (Interval.announced size eff)).sum + (is.map (Interval.extra size eff)).sum ↔
      (∀ i ∈ is, i.stop ≠ uint32Max → i.stop.toNat * eff = size) ∧
        (is.map fun i => size - i.start.toNat * eff).sum < 2 ^ 32 := by
  have hextra : (is.map (Interval.extra size eff)).sum = 0 ↔ ∀ i ∈ is, i.stop ≠ uint32Max →
      i.stop.toNat * eff = size := by
    rw [List.sum_eq_zero_iff]
    simp only [List.mem_map, forall_exists_index, and_imp, forall_apply_eq_imp_iff₂]
    exact forall₂_congr fun i hi => (hwithin i hi).extra_eq_zero_iff he
  have hannounced : (∀ i ∈ is, i.stop ≠ uint32Max → i.stop.toNat * eff = size) →
      is.map (Interval.announced size eff) = is.map fun i => size - i.start.toNat * eff := by
    intro h
    apply List.map_congr_left
    intro i hi
    simp only [Interval.announced]
    split_ifs with hopen
    · rfl
    · rw [h i hi hopen]
  constructor
  · intro heq
    have hle := Nat.mod_le (is.map (Interval.announced size eff)).sum (2 ^ 32)
    have hlt := Nat.mod_lt (is.map (Interval.announced size eff)).sum (show 0 < 2 ^ 32 by decide)
    have hall := hextra.mp (by omega)
    refine ⟨hall, ?_⟩
    rw [← hannounced hall]
    omega
  · rintro ⟨hall, hlt⟩
    rw [hextra.mpr hall, hannounced hall, Nat.mod_eq_of_lt hlt]
    rfl

/-- The request is set up, the transfer can be completed, and the size announced is the size sent
exactly if every interval with an explicit end ends right after the payload, and the sizes of the
intervals add up to a 32-bit number. -/
theorem announced_iff (E : ErrorTest) (host : ByteOrder) (getPayloadMeta : UInt8 → Option UInt32)
    {ctx : ServerTransferCtx} {dst : UInt16} {request : CspRequest} {size : UInt32}
    {payload : List UInt8} {r : MetaReq} (hreq : (copyRequest host ctx dst request).request = r)
    (hmeta : getPayloadMeta r.payloadId = some size) (hsize : size.toNat = payload.length)
    (hr : r.Usable) (hsum : payload.length + r.eff < 2 ^ 32)
    (hwithin : ∀ i ∈ r.requested, i.Within payload.length r.eff) :
    ∃ ctx' resp, setupServerTransfer host getPayloadMeta true ctx dst request =
      .ok (ctx', some resp) ∧
      (∀ now, ∃ ts,
        Completes payload (startSendingData E { ctx' with keepRunning := true } now) ts) ∧
      (SizeAnnounced E payload ctx' resp ↔
        (∀ i ∈ r.requested, i.stop ≠ uint32Max → i.stop.toNat * r.eff = payload.length) ∧
          (r.requested.map fun i => payload.length - i.start.toNat * r.eff).sum < 2 ^ 32) := by
  have hwithin' : ∀ i ∈ r.requested, i.Within size.toNat r.eff := by rwa [hsize]
  have hfits : ∀ i ∈ r.requested, i.Fits payload.length r.eff :=
    fun i hi => (hwithin i hi).fits hsum
  subst hreq
  have hr' : ({ copyRequest host ctx dst request with
    payloadSize := size } : ServerTransferCtx).request.Usable := hr
  obtain ⟨total, htotal, hannounced⟩ := toNat_computeTransferSize hr' hwithin'
  have hr'' : ({ copyRequest host ctx dst request with
    payloadSize := size, sizeInBytes := total } : ServerTransferCtx).request.Usable := hr
  obtain ⟨hrun, hiff⟩ := sizeAnnounced_iff E hr'' hsize hfits ⟨total, size⟩
  refine ⟨{ copyRequest host ctx dst request with payloadSize := size, sizeInBytes := total },
    ⟨total, size⟩, ?_, hrun, ?_⟩
  · simp only [setupServerTransfer, hmeta, htotal]
    rfl
  · rw [hiff, ← sum_mod_eq_iff (MetaReq.eff_pos hr.mtu) hwithin,
      payloadBytes_emission hr.mtu hwithin]
    rw [← hsize, ← hannounced]

/-- A client asks for an interval of a payload, in chunks of four. -/
def askFor (i : Interval) : CspRequest := ⟨4, sendRemoteMetaReq .little (0, 0) (oneInterval 12 i)⟩

/-- A whole payload of ten bytes: ten are announced, and sent. -/
theorem announced_whole : ∃ ctx resp,
    setupServerTransfer .little (fun _ => some 10) true (wholeTransfer 0) 5
      (askFor ⟨0, uint32Max⟩) = .ok (ctx, some resp) ∧
      SizeAnnounced .exact (List.replicate 10 7) ctx resp := by
  have hreq : (copyRequest .little (wholeTransfer 0) 5 (askFor ⟨0, uint32Max⟩)).request =
      oneInterval 12 ⟨0, uint32Max⟩ := by
    decide +kernel
  have hrequested : (oneInterval 12 ⟨0, uint32Max⟩).requested = [⟨0, uint32Max⟩] := by decide
  have hsize : (10 : UInt32).toNat = (List.replicate 10 (7 : UInt8)).length := rfl
  obtain ⟨ctx, resp, hsetup, -, hiff⟩ :=
    announced_iff .exact .little (fun _ => some 10) hreq rfl hsize
    (usable_oneInterval (by decide) _) (by decide) (by
      rw [hrequested]
      intro i hi
      rw [List.mem_singleton] at hi
      subst hi
      exact ⟨by decide, Or.inl rfl⟩)
  refine ⟨ctx, resp, hsetup, hiff.mpr ?_⟩
  rw [hrequested]
  exact ⟨by simp, by decide⟩

/-- The packets `0` and `1` of the same payload: four bytes are announced, and eight are sent. -/
theorem announced_two_packets : ∃ ctx resp,
    setupServerTransfer .little (fun _ => some 10) true (wholeTransfer 0) 5 (askFor ⟨0, 1⟩) =
      .ok (ctx, some resp) ∧
      (oneInterval 12 ⟨0, 1⟩).Usable ∧ (∀ i ∈ (oneInterval 12 ⟨0, 1⟩).requested, i.Within 10 4) ∧
      ¬ SizeAnnounced .exact (List.replicate 10 7) ctx resp := by
  have hrequested : (oneInterval 12 ⟨0, 1⟩).requested = [⟨0, 1⟩] := by decide
  have hwithin : ∀ i ∈ (oneInterval 12 ⟨0, 1⟩).requested, i.Within 10 4 := by
    rw [hrequested]
    intro i hi
    rw [List.mem_singleton] at hi
    subst hi
    exact ⟨by decide, Or.inr ⟨by decide, by decide⟩⟩
  have husable : (oneInterval 12 ⟨0, 1⟩).Usable := usable_oneInterval (by decide) _
  refine ⟨⟨4, 5, 4, true, oneInterval 12 ⟨0, 1⟩, 10, 0⟩, ⟨4, 10⟩,
    by rfl, husable, hwithin, fun h => ?_⟩
  have hfits : ∀ i ∈ (oneInterval 12 ⟨0, 1⟩).requested,
    i.Fits (List.replicate 10 (7 : UInt8)).length 4 :=
    fun i hi => (hwithin i hi).fits (by decide)
  have husable' :
    (⟨4, 5, 4, true, oneInterval 12 ⟨0, 1⟩, 10, 0⟩ : ServerTransferCtx).request.Usable := husable
  exact absurd ((sizeAnnounced_iff .exact husable' rfl hfits ⟨4, 10⟩).2.mp h) (by decide +kernel)

end LibDtp
