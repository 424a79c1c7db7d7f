import LibDtp.Client.Receive
import LibDtp.Server.Transfer

/-!
# The packets of a payload at the client

What the packets that a server sends for a payload do to the file, the byte count and the segments
of a session, whatever the order in which they come.

## What is proved

* `fileHas_writePackets` — the file has every chunk that was ever written, and whatever it had
  before.
* `toNat_countBytes` — the byte count is the sum of the lengths, modulo `2^32`.
* `serverSends_isPrefix` — what a server sends for a usable request that fits is a prefix of the
  packets the request names.
-/

namespace LibDtp

open Chunks Files Ranges

/-- The number of a packet, as the client computes it. -/
def Packet.number (r : MetaReq) (p : Packet) : ℕ := (packetSeq r p).toNat

/-- Where the hook writes a packet: at the start of the chunk that its offset is in. -/
theorem toNat_position {r : MetaReq} (hmtu : 8 < r.mtu.toNat) (p : Packet) :
    ((packetSeq r p).toUInt64 * r.chunk).toNat = p.offset.toNat / r.eff * r.eff := by
  have hp := p.offset.toNat_lt
  have hle : p.offset.toNat / r.eff * r.eff ≤ p.offset.toNat := Nat.div_mul_le_self _ _
  rw [UInt64.toNat_mul, UInt32.toNat_toUInt64, packetSeq, MetaReq.toNat_div_chunk hmtu,
    show r.chunk.toNat = r.eff from MetaReq.toNat_chunk hmtu]
  omega

section IsChunk

variable {payload : List UInt8} {r : MetaReq} {k : ℕ} {p : Packet} (hmtu : 8 < r.mtu.toNat)
  (h : p.IsChunk payload r.eff k)

include hmtu h

theorem Packet.IsChunk.number_eq : p.number r = k := by
  rw [Packet.number, packetSeq, MetaReq.toNat_div_chunk hmtu, h.offset,
    Nat.mul_div_cancel _ (MetaReq.eff_pos hmtu)]

/-- Where the hook writes the packet. -/
theorem Packet.IsChunk.writeAt_eq (file : List UInt8) :
    writeAt file ((packetSeq r p).toUInt64 * r.chunk).toNat
      (p.data.take (p.length.toUInt64 - 8).toNat) =
      writeAt file (k * r.eff) (part payload r.eff k) := by
  have hpos : ((packetSeq r p).toUInt64 * r.chunk).toNat = k * r.eff := by
    rw [toNat_position hmtu, h.offset, Nat.mul_div_cancel _ (MetaReq.eff_pos hmtu)]
  have hle : (8 : UInt64) ≤ p.length.toUInt64 := by
    rw [UInt64.le_iff_toNat_le, UInt16.toNat_toUInt64, h.length]
    exact Nat.le_add_left 8 _
  have hlen : (p.length.toUInt64 - 8).toNat = len payload.length r.eff k := by
    rw [UInt64.toNat_sub_of_le _ _ hle, UInt16.toNat_toUInt64, h.length]
    exact Nat.add_sub_cancel _ 8
  rw [hpos, hlen, h.data, List.take_of_length_le (length_part ..).le]

end IsChunk

/-! ### The file -/

/-- The file has chunk `k` of the payload. -/
def FileHas (payload : List UInt8) (eff : ℕ) (file : List UInt8) (k : ℕ) : Prop :=
  ∀ i, k * eff ≤ i → i < min ((k + 1) * eff) payload.length → file[i]? = payload[i]?

theorem fileHas_writeAt_self {payload file : List UInt8} {eff k : ℕ} (he : 0 < eff)
    (hk : k < count payload.length eff) :
    FileHas payload eff (writeAt file (k * eff) (part payload eff k)) k := by
  intro i h1 h2
  have hend : k * eff + len payload.length eff k = min ((k + 1) * eff) payload.length :=
    mul_add_len he hk
  rw [getElem?_writeAt h1 (by rw [length_part]; omega), getElem?_part _ (by omega)]
  congr 1
  omega

/-- Writing a chunk where it belongs does not spoil another. -/
theorem fileHas_writeAt {payload file : List UInt8} {eff j k : ℕ} (he : 0 < eff)
    (hk : k < count payload.length eff) (h : FileHas payload eff file j) :
    FileHas payload eff (writeAt file (k * eff) (part payload eff k)) j := by
  intro i h1 h2
  have hend : k * eff + len payload.length eff k = min ((k + 1) * eff) payload.length :=
    mul_add_len he hk
  by_cases hin : k * eff ≤ i ∧ i < k * eff + len payload.length eff k
  · exact fileHas_writeAt_self he hk i hin.1 (by omega)
  · have hi : i < payload.length := by omega
    rw [List.getElem?_eq_getElem hi]
    refine getElem?_writeAt_of_outside (by rw [length_part]; omega) ?_
    rw [h i h1 h2, List.getElem?_eq_getElem hi]

/-- The file has every chunk that was written, and whatever it had before. -/
theorem fileHas_writePackets {payload : List UInt8} {r : MetaReq} (hmtu : 8 < r.mtu.toNat)
    {ps : List Packet} (hps : ∀ p ∈ ps, ∃ k, p.IsChunk payload r.eff k) {file : List UInt8} {j : ℕ}
    (h : FileHas payload r.eff file j ∨ ∃ p ∈ ps, p.IsChunk payload r.eff j) :
    FileHas payload r.eff (writePackets r file ps) j := by
  have he := MetaReq.eff_pos hmtu
  induction ps generalizing file with
  | nil =>
    rcases h with h | ⟨p, hp, -⟩
    · exact h
    · cases hp
  | cons p ps ih =>
    obtain ⟨k, hk⟩ := hps p (List.mem_cons_self ..)
    have hrest : ∀ q ∈ ps, ∃ k, q.IsChunk payload r.eff k :=
      fun q hq => hps q (List.mem_cons_of_mem _ hq)
    rw [writePackets, List.foldl_cons, hk.writeAt_eq hmtu]
    apply ih hrest
    rcases h with h | ⟨q, hq, hj⟩
    · exact Or.inl (fileHas_writeAt he hk.lt h)
    · rcases List.mem_cons.mp hq with rfl | hq
      · obtain rfl : k = j := (hk.number_eq hmtu).symm.trans (hj.number_eq hmtu)
        exact Or.inl (fileHas_writeAt_self he hk.lt)
      · exact Or.inr ⟨q, hq, hj⟩

/-! ### The byte count -/

/-- The bytes of some packets, without their headers. -/
def dataBytes (ps : List Packet) : ℕ := (ps.map fun p => p.length.toNat - 8).sum

theorem toNat_countBytes {ps : List Packet} (hps : ∀ p ∈ ps, 8 ≤ p.length.toNat) (n : UInt32) :
    (countBytes n ps).toNat = (n.toNat + dataBytes ps) % 2 ^ 32 := by
  induction ps generalizing n with
  | nil => simp [countBytes, dataBytes]
  | cons p ps ih =>
    have hp := hps p (List.mem_cons_self ..)
    have hlt := p.length.toNat_lt
    have hn := n.toNat_lt
    have hle : (8 : UInt64) ≤ p.length.toUInt64 := by
      rw [UInt64.le_iff_toNat_le, UInt16.toNat_toUInt64]
      exact hp
    have hadd : (n.toUInt64 + (p.length.toUInt64 - 8)).toUInt32.toNat =
        (n.toNat + (p.length.toNat - 8)) % 2 ^ 32 := by
      rw [UInt64.toNat_toUInt32, UInt64.toNat_add, UInt64.toNat_sub_of_le _ _ hle,
        UInt16.toNat_toUInt64, UInt32.toNat_toUInt64, show (8 : UInt64).toNat = 8 from rfl]
      omega
    rw [countBytes, List.foldl_cons]
    apply (ih (fun q hq => hps q (List.mem_cons_of_mem _ hq)) _).trans
    rw [hadd, dataBytes, dataBytes, List.map_cons, List.sum_cons]
    omega

/-! ### What a server sends -/

/-- The packets a server sends for a request, in a run over a payload that is read in full. The
keep-alive interval the server uses may be another one. -/
def ServerSends (payload : List UInt8) (r : MetaReq) (ps : List Packet) : Prop :=
  ∃ E ctx now ts keepAliveInterval, ctx.request =
    { r with keepAliveInterval := keepAliveInterval } ∧
    ctx.payloadSize.toNat = payload.length ∧ (∀ t ∈ ts, t.Reads payload) ∧
    ps = ((startSendingData E ctx now).run ts).sent

/-- What a server that is never out of buffers sends in its first `n` steps. -/
def serverRun (payload : List UInt8) (r : MetaReq) (n : ℕ) : List Packet :=
  ((startSendingData .exact ⟨0, 0, 0, true, r, UInt32.ofNat payload.length, 0⟩ 0).run
    (List.replicate n (.steady payload 0))).sent

theorem serverSends_serverRun {payload : List UInt8} (hlt : payload.length < 2 ^ 32) (r : MetaReq)
    (n : ℕ) :
    ServerSends payload r (serverRun payload r n) := by
  refine ⟨.exact, _, 0, _, r.keepAliveInterval, rfl, UInt32.toNat_ofNat_of_lt' hlt, fun t ht => ?_,
    rfl⟩
  rw [List.eq_of_mem_replicate ht]
  exact ⟨fun _ _ => UInt32.le_refl _, fun _ _ _ => rfl⟩

theorem serverSends_isPrefix {payload : List UInt8} {r : MetaReq} (hr : r.Usable)
    (hfit : ∀ cur ∈ r.requested, cur.Fits payload.length r.eff) {ps : List Packet}
    (h : ServerSends payload r ps) :
    ps <+: emission payload r := by
  obtain ⟨E, ctx, now, ts, ka, hreq, hsize, hreads, rfl⟩ := h
  have hemission : emission payload ctx.request = emission payload r := by rw [hreq]; rfl
  have husable : ctx.request.Usable := by
    rw [hreq]
    exact ⟨hr.mtu, hr.throughput, hr.pos, hr.le⟩
  rw [← hemission]
  refine (SendState.sent_isPrefix E husable hsize ?_ now ts hreads).1
  rw [hreq]
  exact hfit

theorem isChunk_of_mem_emission {payload : List UInt8} {r : MetaReq} (hmtu : 8 < r.mtu.toNat)
    (hlt : payload.length < 2 ^ 32) {p : Packet} (h : p ∈ emission payload r) :
    ∃ k ∈ r.numbers (count payload.length r.eff), p.IsChunk payload r.eff k := by
  obtain ⟨k, hk, rfl⟩ := List.mem_map.mp h
  exact ⟨k, hk, isChunk_chunkPacket hmtu hlt (MetaReq.mem_numbers_lt (MetaReq.eff_pos hmtu) hk)⟩

end LibDtp
