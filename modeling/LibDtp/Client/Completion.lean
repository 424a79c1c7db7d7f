import LibDtp.Client.History

/-!
# When a session is complete

`start_receiving_data` returns `DTP_OK` when it gets the last packet and the byte count is the size
of the payload. Only a packet that comes right after itself is recognised as a repetition; any other
is counted once more.

## What is proved

* `complete_of_ok` — a session that ends with `DTP_OK` is complete if every packet has been counted
  once, in this session and in those before it, and in general only then.
-/

namespace LibDtp

open Bytes Chunks Ranges

/-- Every byte of the payload has been given to the hook, or is in the segments the session was
resumed with. -/
def Episode.Complete (payload : List UInt8) (e : Episode) : Prop :=
  ∀ i < payload.length, i / e.session.request.eff ∈ e.session.resumed ∨
    ∃ p ∈ acceptedOf e.received.log, p.offset.toNat ≤ i ∧ i < p.offset.toNat + p.data.length

/-- The packets that are counted, of those that were delivered: those up to the last one of the
request, without the repetitions. -/
def Episode.counted (E : ErrorTest) (e : Episode) : List Packet :=
  match computeDtpMetrics E e.session.request e.session.payloadSize with
  | .ok m =>
    dropRepeats e.session.request 0xFFFFFFFF (upToLast e.session.request m.lastPacket e.delivered)
  | .error _ => []

/-- Every packet is counted once: in the byte count that the session starts with, and among those
that are delivered. -/
def Episode.CountsOnce (E : ErrorTest) (payload : List UInt8) (e : Episode) : Prop :=
  e.session.bytesReceived.toNat = ∑ k ∈ e.session.resumed,
    len payload.length e.session.request.eff k ∧
    ((e.counted E).map (Packet.number e.session.request)).Nodup

instance (E : ErrorTest) (payload : List UInt8) (e : Episode) :
    Decidable (e.CountsOnce E payload) :=
  inferInstanceAs (Decidable (_ ∧ _))

section Complete

variable {E : ErrorTest} {payload : List UInt8} {mtu : UInt16} {before : Option Episode}
  {e : Episode} (h : e.Continues E payload mtu before)

include h

theorem Episode.Continues.subset_range : e.session.resumed ∪ e.received.numbers.toFinset ⊆
    Finset.range (count payload.length e.session.request.eff) := by
  obtain ⟨d, -, hfrom⟩ := h.received
  apply Finset.union_subset h.ready.subset
  intro k hk
  exact Finset.mem_range.mpr (h.ready.numbers_lt hfrom h.chunks k (List.mem_toFinset.mp hk))

/-- A session is complete if it has all the packets. -/
theorem Episode.Continues.complete_iff : e.Complete payload ↔
    e.session.resumed ∪ e.received.numbers.toFinset =
      Finset.range (count payload.length e.session.request.eff) := by
  have he := MetaReq.eff_pos h.ready.usable.mtu
  constructor
  · intro hcomplete
    apply subset_antisymm h.subset_range
    intro k hk
    have hlt := (lt_count_iff he).mp (Finset.mem_range.mp hk)
    have hcases := hcomplete _ hlt
    rw [Nat.mul_div_cancel k he] at hcases
    refine Finset.mem_union.mpr (hcases.imp_right fun ⟨p, hp, hle, hlt⟩ => ?_)
    have hchunk := h.isChunk hp
    rw [hchunk.offset] at hle hlt
    rw [hchunk.data, length_part] at hlt
    have hlen : len payload.length e.session.request.eff (p.number e.received.session.request) ≤
      _ := len_le
    have hk : p.number e.received.session.request = k := by
      refine le_antisymm (Nat.le_of_mul_le_mul_right hle he) (Nat.lt_succ_iff.mp ?_)
      apply Nat.lt_of_mul_lt_mul_right (a := e.session.request.eff)
      rw [Nat.succ_mul]
      omega
    exact List.mem_toFinset.mpr (List.mem_map.mpr ⟨p, hp, hk⟩)
  · intro hall i hi
    have hk : i / e.session.request.eff ∈ e.session.resumed ∪ e.received.numbers.toFinset := by
      rw [hall]
      exact Finset.mem_range.mpr (div_lt_count he hi)
    apply (Finset.mem_union.mp hk).imp_right
    intro hk
    obtain ⟨p, hp, hnumber⟩ := List.mem_map.mp (List.mem_toFinset.mp hk)
    have hchunk := h.isChunk hp
    have hend := mul_add_len he hchunk.lt
    rw [hnumber] at hchunk hend
    have hle := Nat.div_mul_le_self i e.session.request.eff
    have hlt : i < (i / e.session.request.eff + 1) * e.session.request.eff :=
      Nat.lt_mul_of_div_lt (Nat.lt_succ_self _) he
    refine ⟨p, hp, by rwa [hchunk.offset], ?_⟩
    rw [hchunk.offset, hchunk.data, length_part, hend]
    omega

/-- The packets that have been counted when the session ends with `DTP_OK`. -/
theorem Episode.Continues.numbers_of_ok (hok : e.received.result = .ok) :
    e.received.numbers = (e.counted E).map (Packet.number e.session.request) := by
  have he := MetaReq.eff_pos h.ready.usable.mtu
  obtain ⟨d, -, hfrom⟩ := h.received
  have hsize := e.session.payloadSize.toNat_lt
  rw [h.payloadSize] at hsize
  have hmax : ∀ p ∈ e.delivered, packetSeq e.session.request p ≠ 0xFFFFFFFF := by
    intro p hp hseq
    obtain ⟨k, hk⟩ := h.chunks p hp
    have hnumber : (packetSeq e.session.request p).toNat = k := hk.number_eq h.ready.usable.mtu
    have hcount : count payload.length e.session.request.eff ≤ payload.length := count_le he
    have hlt := hk.lt
    rw [hseq, show (0xFFFFFFFF : UInt32).toNat = 2 ^ 32 - 1 from rfl] at hnumber
    omega
  obtain ⟨m, hm, haccepted⟩ := hfrom.last hok hmax
  rw [Received.numbers, hfrom.request, haccepted, Episode.counted, hm]

end Complete

/-- A session that is sent only what it has asked for and ends with `DTP_OK` is complete if every
packet is counted once; and only then, if the byte count has everything in the segments and does not
wrap. -/
theorem complete_of_ok (E : ErrorTest) (host : ByteOrder) {payload : List UInt8} {mtu : UInt16}
    (hmtu : 8 < mtu.toNat) (hsum : payload.length + (mtu.toNat - 8) < 2 ^ 32) {e : Episode}
    {h : List Episode} (hist : History E host payload mtu (AnyOrder payload) (e :: h))
    {sent : List Packet} (hsent : ServerSends payload e.session.request sent)
    (hsub : e.delivered ⊆ sent) (hok : e.received.result = .ok) :
    (e.CountsOnce E payload → e.Complete payload) ∧
      (∑ k ∈ e.session.resumed,
        len payload.length e.session.request.eff k ≤ e.session.bytesReceived.toNat →
        e.CountsExactly → e.Complete payload → e.CountsOnce E payload) := by
  have hlt : payload.length < 2 ^ 32 := by omega
  have hcont := hist.continues hmtu hsum
  have he := MetaReq.eff_pos hcont.ready.usable.mtu
  have hnumbers := hcont.numbers_of_ok hok
  have hunion := Finset.sum_union (f := len payload.length e.session.request.eff)
    (hcont.numbers_new hlt hsent hsub)
  have hsize : (e.session.bytesReceived.toNat +
    (e.received.numbers.map (len payload.length e.session.request.eff)).sum) %
      2 ^ 32 = payload.length := by
    obtain ⟨d, -, hfrom⟩ := hcont.received
    rw [← hcont.dataBytes_eq, ← hcont.toNat_bytesReceived, hfrom.ok hok, hcont.payloadSize]
  rw [hcont.complete_iff, Episode.CountsOnce, ← hnumbers]
  constructor
  · rintro ⟨hbytes, hnodup⟩
    rw [List.sum_toFinset _ hnodup, ← hbytes] at hunion
    have hsubset : e.session.resumed ∪ e.received.numbers.toFinset ⊆ Finset.range
      (count payload.length e.session.request.eff) :=
      hcont.subset_range
    have hle := sum_len_le he hsubset
    rw [← hunion, Nat.mod_eq_of_lt (by omega)] at hsize
    exact (sum_len_eq_iff he hsubset).mp hsize
  · intro hle hexact hcomplete
    rw [Episode.CountsExactly, hcont.dataBytes_eq] at hexact
    rw [Nat.mod_eq_of_lt hexact] at hsize
    rw [hcomplete, sum_len he] at hunion
    have hfinset := sum_toFinset_le e.received.numbers (len payload.length e.session.request.eff)
    refine ⟨by omega, nodup_of_sum_le (f := len payload.length e.session.request.eff)
      (fun k hk => ?_) (by omega)⟩
    refine len_pos he (Finset.mem_range.mp ?_)
    exact hcont.subset_range (Finset.mem_union_right _ (List.mem_toFinset.mpr hk))

/-- Three packets arrive one after the other. -/
theorem complete_of_ok_three : ∃ e : Episode, e.received.result = .ok ∧ e.Complete tenBytes := by
  obtain ⟨hs, hist, hmap⟩ :=
    history_sessions (Episode.Receives.allowed tenBytes (by decide)) tenBytes
    [arrivals tenBytes [0, 1, 2]]
      (fun e => (decide (e.delivered ⊆ serverRun tenBytes e.session.request 10),
      e.received.result, decide (e.CountsOnce .exact tenBytes))) [(true, .ok, true)]
        (by decide +kernel)
  obtain ⟨e, rfl, h⟩ := List.map_eq_singleton_iff.mp hmap
  simp only [Prod.mk.injEq, decide_eq_true_eq] at h
  obtain ⟨hsub, hok, honce⟩ := h
  exact ⟨e, hok, (complete_of_ok .exact .little (by decide) (by decide)
    (hist.mono fun _ _ hallows => hallows.1.inOrder.anyOrder)
      (serverSends_serverRun (by decide) _ 10) hsub hok).1 honce⟩

/-- A payload of four packets, the last of them with one byte. -/
def thirteenBytes : List UInt8 := [1, 2, 3, 4, 5, 6, 7, 8, 9, 10, 11, 12, 13]

/-- Packets `0`, `1`, `0` and `3` of a payload of four make a session end with `DTP_OK`, without
packet `2`. -/
theorem ok_incomplete :
    ¬ ∀ (E : ErrorTest) (host : ByteOrder) (payload : List UInt8) (mtu : UInt16) (e : Episode)
      (h : List Episode) (sent : List Packet), 8 < mtu.toNat →
        payload.length + (mtu.toNat - 8) < 2 ^ 32 →
      History E host payload mtu (AnyOrder payload) (e :: h) →
        ServerSends payload e.session.request sent →
      e.delivered ⊆ sent → e.received.result = .ok → e.Complete payload := by
  intro hclaim
  have hR : ∀ e : Episode, e.delivered ⊆ serverRun thirteenBytes e.session.request 10 →
    ∀ h, AnyOrder thirteenBytes h e :=
    fun e he h p hp => ⟨e, List.mem_cons_self .., _, serverSends_serverRun (by decide) _ 10, he hp⟩
  obtain ⟨hs, hist, hmap⟩ := history_sessions hR thirteenBytes [arrivals thirteenBytes [0, 1, 0, 3]]
    (fun e =>
      (decide (e.delivered ⊆ serverRun thirteenBytes e.session.request 10), e.received.result,
      decide (8 / e.session.request.eff ∈ e.session.resumed ∨
        ∃ p ∈ acceptedOf e.received.log, p.offset.toNat ≤ 8 ∧ 8 < p.offset.toNat + p.data.length)))
    [(true, .ok, false)] (by decide +kernel)
  obtain ⟨e, rfl, h⟩ := List.map_eq_singleton_iff.mp hmap
  simp only [Prod.mk.injEq, decide_eq_true_eq, decide_eq_false_iff_not] at h
  obtain ⟨hsub, hok, hmissing⟩ := h
  exact hmissing (hclaim .exact .little thirteenBytes 12 e [] _ (by decide) (by decide) hist
    (serverSends_serverRun (by decide) _ 10) hsub hok 8 (by decide))

end LibDtp
