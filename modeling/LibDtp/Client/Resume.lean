import LibDtp.Client.Chunked

/-!
# Resuming a session

A download may take several sessions: the first one is fresh, and each later one is prepared from
the meta file that was written after the one before it. This module is about one such session: what
it starts with, and what it leaves behind.

## What is proved

* `ready_fresh`, `ready_resume` — a prepared session asks for packets that have not been received,
  in ascending order, and the intervals it asks for are such that the server can serve them.
* `exhausted_iff` — when a session is declared exhausted.
* `Session.Ready.ends` — the segments with which a session ends.
-/

namespace LibDtp

open Bytes Chunks Files Ranges

/-! ### Between sessions -/

/-- The packets in the segments of a session. -/
def Session.covered (s : Session) : Finset ℕ := s.hookCtx.elim ∅ fun ctx => ctx.segments.covered

/-- The packets in the segments a session was resumed with. -/
def Session.resumed (s : Session) : Finset ℕ :=
  s.startCtx.receivedSegments.elim ∅ SegmentsCtx.covered

/-- A session that has ended. -/
structure Session.Saved (payload : List UInt8) (s : Session) : Prop where
  /-- Its segments are a canonical list. -/
  hookCtx : ∃ ctx l, s.hookCtx = some ctx ∧ ctx.segments.Lists l ∧ Canonical l
  /-- They are packets of the payload. -/
  subset : s.covered ⊆ Finset.range (count payload.length s.request.eff)
  /-- A packet carries data. -/
  mtu : 8 < s.request.mtu.toNat
  /-- Something may be sent. -/
  throughput : 0 < s.request.throughput.toNat
  /-- The size of the payload. -/
  payloadSize : s.payloadSize.toNat = payload.length

/-- A session that is about to receive data. -/
structure Session.Ready (payload : List UInt8) (s : Session) : Prop where
  /-- The server can serve the request. -/
  usable : s.request.Usable
  /-- The intervals fit in the payload. -/
  fits : ∀ cur ∈ s.request.requested, cur.Fits payload.length s.request.eff
  /-- The packets asked for are in ascending order. -/
  sorted : (s.request.numbers (count payload.length s.request.eff)).Pairwise (· < ·)
  /-- None of them has been received. -/
  missing : ∀ k ∈ s.request.numbers (count payload.length s.request.eff), k ∉ s.resumed
  /-- Nothing has been received in this session. -/
  segments : s.startCtx.segments = initSegmentsCtx
  /-- What was received in earlier ones is a canonical list. -/
  received : ∀ ctx, s.startCtx.receivedSegments = some ctx → Canonical (ranges ctx.segments)
  /-- They are packets of the payload. -/
  subset : s.resumed ⊆ Finset.range (count payload.length s.request.eff)

section Numbers

variable {n : ℕ}

/-- The packets of an interval with an explicit end. -/
theorem Interval.mem_numbers_closed {i : Interval} (h : i.stop.toNat < 2 ^ 32 - 1) (k : ℕ) :
    k ∈ i.numbers n ↔ i.start.toNat ≤ k ∧ k ≤ i.stop.toNat ∧ k < n := by
  have hne : i.stop ≠ uint32Max := by
    intro h'
    rw [h'] at h
    exact absurd h (by decide)
  rw [Interval.numbers, if_neg hne, List.mem_range'_1]
  omega

/-- The packets of the intervals made of a canonical list of segments: ascending, and in the list.
-/
theorem numbers_of_canonical {l : List Segment} (hl : Canonical (ranges l))
    (hmax : ∀ s ∈ l, s.stop.toNat < 2 ^ 32 - 1) :
    ((l.map Segment.interval).flatMap (·.numbers n)).Pairwise (· < ·) ∧
      ∀ k ∈ (l.map Segment.interval).flatMap (·.numbers n), k ∈ cover (ranges l) := by
  have hmem : ∀ s ∈ l, ∀ k, k ∈ s.interval.numbers n ↔ s.start.toNat ≤ k ∧ k ≤ s.stop.toNat ∧
    k < n :=
    fun s hs k => Interval.mem_numbers_closed (hmax s hs) k
  constructor
  · rw [List.pairwise_flatMap]
    constructor
    · intro i _
      exact List.pairwise_lt_range'
    · rw [List.pairwise_map]
      refine (List.pairwise_map.mp hl.apart).imp_of_mem fun {s t} hs ht hst x hx y hy => ?_
      have h1 := (hmem s hs x).mp hx
      have h2 := (hmem t ht y).mp hy
      simp only [lo_range, hi_range] at hst
      omega
  · intro k hk
    simp only [List.mem_flatMap, List.mem_map] at hk
    obtain ⟨i, ⟨s, hs, rfl⟩, hk⟩ := hk
    have := (hmem s hs k).mp hk
    exact mem_cover.mpr ⟨s.range, mem_ranges hs, this.1, this.2.1⟩

/-- Segments up to the last number that may be asked for fit in the payload. -/
theorem fits_of_segments {size eff : ℕ} (hsum : size + eff < 2 ^ 32) {l : List Segment}
    (hl : ∀ s ∈ l, s.start.toNat ≤ s.stop.toNat ∧ s.stop.toNat ≤ size / eff) :
    ∀ cur ∈ l.map Segment.interval, cur.Fits size eff := by
  intro cur hcur
  obtain ⟨s, hs, rfl⟩ := List.mem_map.mp hcur
  obtain ⟨h1, h2⟩ := hl s hs
  have hstart := Nat.mul_le_mul_right eff (h1.trans h2)
  have hend := Nat.mul_le_mul_right eff h2
  have hdiv := Nat.div_mul_le_self size eff
  refine ⟨hstart.trans hdiv, Or.inr ⟨h1.trans (Nat.le_succ _), ?_⟩⟩
  change (s.stop.toNat + 1) * eff < 2 ^ 32
  rw [Nat.succ_mul]
  omega

end Numbers

section Prepare

variable {payload : List UInt8} {host : ByteOrder} {slot : Session} {p : Params} {d : Disk}

/-- A fresh session asks for everything. -/
theorem ready_fresh (hslot : slot.Free) (hmtu : 8 < p.mtu.toNat)
    (hthroughput : 0 < p.maxThroughput.toNat) {s : Session}
    (h : prepareSession host slot p false d = .ok s) :
    s.Ready payload ∧ s.resumed = ∅ ∧ s.bytesReceived = 0 ∧ s.request.mtu = p.mtu := by
  obtain rfl : startDownload (configureSession (acquireSession slot) p) p = s := by
    simpa [prepareSession] using h
  have hctx : (startDownload (configureSession (acquireSession slot) p) p).startCtx =
      ⟨0, initSegmentsCtx, none⟩ := by
    change slot.hookCtx.getD _ = _
    rw [hslot.hookCtx]
    rfl
  have hresumed : (startDownload (configureSession (acquireSession slot) p) p).resumed = ∅ := by
    rw [Session.resumed, hctx]
    rfl
  have hreq : MetaReq.requested
    (startDownload (configureSession (acquireSession slot) p) p).request = [⟨0, uint32Max⟩] :=
    requested_acquireSession slot
  have hnumbers :
    ∀ n, MetaReq.numbers (startDownload (configureSession (acquireSession slot) p) p).request n =
      List.range' 0 n := by
    intro n
    rw [MetaReq.numbers, hreq]
    simp [Interval.numbers]
  refine ⟨⟨⟨hmtu, hthroughput, le_rfl, show 1 ≤ 8 by omega⟩, ?_, ?_, ?_, ?_, ?_, ?_⟩, hresumed, rfl,
    rfl⟩
  · intro cur hcur
    rw [hreq, List.mem_singleton] at hcur
    subst hcur
    exact ⟨by simp, Or.inl rfl⟩
  · rw [hnumbers]
    exact List.pairwise_lt_range'
  · simp [hresumed]
  · rw [hctx]
  · simp [hctx]
  · simp [hresumed]

end Prepare

/-! ### Resuming -/

theorem Session.covered_of_hookCtx {s : Session} {ctx : HookCtx} (h : s.hookCtx = some ctx) :
    s.covered = ctx.segments.covered := by
  rw [Session.covered, h]
  rfl

section Resume

variable {payload : List UInt8} {s : Session} {ctx : HookCtx} {l : List Range}
  (hs : s.Saved payload) (hctx : s.hookCtx = some ctx) (hl : ctx.segments.Lists l)

include hs hctx hl

/-- The segments of a saved session are below the number of packets. -/
theorem Session.Saved.stop_lt (hcanon : Canonical l) {t : Segment}
    (ht : t ∈ ctx.segments.segments) :
    t.stop.toNat < count payload.length s.request.eff := by
  have hmem : t.range ∈ l := by
    rw [← hl.segments]
    exact mem_ranges ht
  have hcover : t.stop.toNat ∈ s.covered := by
    rw [s.covered_of_hookCtx hctx, SegmentsCtx.covered, hl.segments]
    exact mem_cover.mpr ⟨t.range, hmem, hcanon.valid _ hmem, le_rfl⟩
  exact Finset.mem_range.mp (hs.subset hcover)

/-- They are counted without overflow. -/
theorem Session.Saved.toNat_nofSegments (hcanon : Canonical l) :
    ctx.segments.nofSegments.toNat = ctx.segments.segments.length := by
  have he := MetaReq.eff_pos hs.mtu
  have hsize := s.payloadSize.toNat_lt
  rw [hs.payloadSize] at hsize
  have hle : l.length ≤ count payload.length s.request.eff := by
    refine hcanon.length_le fun r hr => ?_
    rw [← hl.segments] at hr
    obtain ⟨t, ht, rfl⟩ := List.mem_map.mp hr
    have := hs.stop_lt hctx hl hcanon ht
    have := hcanon.valid t.range (by rw [← hl.segments]; exact hr)
    simp only [lo_range, hi_range] at this ⊢
    omega
  have hcount : count payload.length s.request.eff ≤ payload.length := count_le he
  rw [hl.nofSegments,
    UInt32.toNat_ofNat_of_lt' (by change l.length < 2 ^ 32; omega), ← length_ranges, hl.segments]

/-- The segments are one from the start to at least `n`, where `n` or `n + 1` packets exist, if and
only if the first `n` packets have been received, and at least one. -/
theorem Session.Saved.whole_iff (hcanon : Canonical l) {n : ℕ}
    (hn : count payload.length s.request.eff ≤ n + 1) :
    (ctx.segments.segments = [] ∨ ∃ t, ctx.segments.segments = [t] ∧ t.start = 0 ∧
      n ≤ t.stop.toNat + 1) ↔
      s.covered = ∅ ∨ Finset.range n ⊆ s.covered := by
  have hcov := s.covered_of_hookCtx hctx
  rw [SegmentsCtx.covered] at hcov
  constructor
  · rintro (hnil | ⟨t, ht, h0, hle⟩)
    · exact Or.inl (by rw [hcov, hnil]; rfl)
    · refine Or.inr fun k hk => ?_
      have := Finset.mem_range.mp hk
      rw [hcov, ht, mem_cover]
      exact ⟨t.range, List.mem_singleton_self _, by simp [h0], by rw [hi_range]; omega⟩
  · intro h
    by_cases hempty : s.covered = ∅
    · refine Or.inl (List.eq_nil_iff_forall_not_mem.mpr fun t ht => ?_)
      have hmem : t.stop.toNat ∈ s.covered := by
        rw [hcov]
        have hvalid := hcanon.valid t.range (by rw [← hl.segments]; exact mem_ranges ht)
        exact mem_cover.mpr ⟨t.range, mem_ranges ht, hvalid, le_rfl⟩
      rw [hempty] at hmem
      exact absurd hmem (Finset.notMem_empty _)
    · have hsub := h.resolve_left hempty
      have hrange : ∃ m, n ≤ m + 1 ∧ s.covered = Finset.range (m + 1) := by
        by_cases hmem : n ∈ s.covered
        · refine ⟨n,
            by omega, subset_antisymm (hs.subset.trans (Finset.range_subset_range.mpr hn)) ?_⟩
          rw [Finset.range_add_one]
          exact Finset.insert_subset hmem hsub
        · have heq : s.covered = Finset.range n := by
            refine subset_antisymm (fun k hk => ?_) hsub
            have := Finset.mem_range.mp (hs.subset hk)
            have : k ≠ n := fun h => hmem (h ▸ hk)
            exact Finset.mem_range.mpr (by omega)
          have hpos : n ≠ 0 := by
            rintro rfl
            exact hempty heq
          exact ⟨n - 1, by omega, by rw [heq, Nat.sub_add_cancel (Nat.pos_of_ne_zero hpos)]⟩
      obtain ⟨m, hm, heq⟩ := hrange
      have hsingle : ranges ctx.segments.segments = [⟨0, m⟩] := by
        rw [hl.segments]
        apply hcanon.eq_singleton
        rw [← heq, hcov, hl.segments]
      obtain ⟨t, ht, hrange⟩ := List.map_eq_singleton_iff.mp hsingle
      refine Or.inr ⟨t, ht, ?_, ?_⟩
      · exact UInt32.toNat_inj.mp (congrArg Range.lo hrange)
      · have : t.stop.toNat = m := congrArg Range.hi hrange
        omega

end Resume

section Request

variable {payload : List UInt8} {s : Session} {ctx : HookCtx} (hs : s.Saved payload)
  (hctx : s.hookCtx = some ctx) (hsum : payload.length + s.request.eff < 2 ^ 32) {r : MetaReq}
  (hmtu : r.mtu = s.request.mtu)

include hs hmtu in
/-- The last packet number that may be asked for. -/
theorem Session.Saved.toNat_end :
    (s.payloadSize.toUInt64 / r.chunk).toUInt32.toNat = payload.length / s.request.eff := by
  rw [MetaReq.toNat_div_chunk
    (by rw [hmtu]; exact hs.mtu), hs.payloadSize, MetaReq.eff, hmtu, MetaReq.eff]

include hs hctx hsum hmtu

/-- The complement of the segments that are read from the meta file. -/
theorem Session.Saved.complement : ∃ out,
    (getComplementSegment ctx.segments.reread 0
      (s.payloadSize.toUInt64 / r.chunk).toUInt32).Complements
        (s.payloadSize.toUInt64 / r.chunk).toUInt32 ctx.segments.segments out ∧
      out.length < 2 ^ 32 ∧ ∀ a ∈ out, a.lo ≤ a.hi ∧ a.hi ≤ payload.length / s.request.eff := by
  have he := MetaReq.eff_pos hs.mtu
  obtain ⟨ctx', l, hctx', hl, hcanon⟩ := hs.hookCtx
  obtain rfl : ctx' = ctx := Option.some.inj (hctx'.symm.trans hctx)
  have hstop := hs.toNat_end hmtu
  have hcount : count payload.length s.request.eff ≤ payload.length / s.request.eff + 1 :=
    count_le_div_add_one he
  have hdiv : payload.length / s.request.eff ≤ payload.length := Nat.div_le_self _ _
  have hreread : Canonical (ranges ctx'.segments.reread.segments) := by
    change Canonical (ranges ctx'.segments.segments)
    rwa [hl.segments]
  have hle : ∀ t ∈ ctx'.segments.reread.segments,
      t.stop.toNat ≤ (s.payloadSize.toUInt64 / r.chunk).toUInt32.toNat := by
    intro t ht
    have := hs.stop_lt hctx hl hcanon ht
    rw [hstop]
    omega
  obtain ⟨out, hout⟩ := getComplementSegment_spec (by rw [hstop]; omega) hreread hle
  have hbound : ∀ a ∈ out, a.lo ≤ a.hi ∧ a.hi ≤ payload.length / s.request.eff := by
    intro a ha
    have hvalid := hout.canonical.valid a ha
    have hmissing := hout.missing _ (mem_cover.mpr ⟨a, ha, hvalid, le_rfl⟩)
    rw [hstop] at hmissing
    exact ⟨hvalid, hmissing.1⟩
  have hlen :
      out.length ≤ payload.length / s.request.eff + 1 := hout.canonical.length_le fun a ha => by
    have := hbound a ha
    omega
  exact ⟨out, hout, by omega, hbound⟩

/-- What a session that is resumed asks for: packets that have not been received, in ascending
order. It asks for nothing if nothing has been received, or if all full packets have. -/
theorem Session.Saved.request {q : MetaReq}
    (hq : requestMissing r s.payloadSize ctx.segments.reread = .ok q) :
    (q.nofIntervals = 0 ↔ s.covered = ∅ ∨
      Finset.range (payload.length / s.request.eff) ⊆ s.covered) ∧
      q.nofIntervals.toNat ≤ 8 ∧ q.mtu = s.request.mtu ∧ q.throughput = r.throughput ∧
      (∀ cur ∈ q.requested, cur.Fits payload.length s.request.eff) ∧
      (q.numbers (count payload.length s.request.eff)).Pairwise (· < ·) ∧
      ∀ k ∈ q.numbers (count payload.length s.request.eff), k ∉ s.covered := by
  obtain ⟨out, hout, hlen, hbound⟩ := hs.complement hctx hsum hmtu
  obtain ⟨hrequested, hzero, height, hfields⟩ := requestSegments_spec hout.lists hlen r
  have hstop := hs.toNat_end hmtu
  rw [← (requestMissing_of_ok hq).2] at hrequested hzero height hfields
  generalize getComplementSegment ctx.segments.reread 0
    (s.payloadSize.toUInt64 / r.chunk).toUInt32 = missing at *
  have hmem : ∀ t ∈ missing.segments.take 8, t.range ∈ out := by
    intro t ht
    rw [← hout.lists.segments]
    exact mem_ranges (List.mem_of_mem_take ht)
  have hfirst : Canonical (ranges (missing.segments.take 8)) := by
    rw [ranges, List.map_take]
    exact Canonical.take (by rw [← ranges, hout.lists.segments]; exact hout.canonical) 8
  have hdiv : payload.length / s.request.eff ≤ payload.length := Nat.div_le_self _ _
  have hmax : ∀ t ∈ missing.segments.take 8, t.stop.toNat < 2 ^ 32 - 1 := by
    intro t ht
    have he := MetaReq.eff_pos hs.mtu
    have : t.stop.toNat ≤ payload.length / s.request.eff := (hbound _ (hmem t ht)).2
    omega
  obtain ⟨hsorted, hcovered⟩ :=
    numbers_of_canonical (n := count payload.length s.request.eff) hfirst hmax
  refine ⟨hzero.trans ?_, height, ?_, ?_, ?_, ?_, ?_⟩
  · obtain ⟨ctx', l, hctx', hl, hcanon⟩ := hs.hookCtx
    obtain rfl : ctx' = ctx := Option.some.inj (hctx'.symm.trans hctx)
    have hnil := hout.nil_iff
    rw [hstop] at hnil
    exact hnil.trans (hs.whole_iff hctx hl hcanon (count_le_div_add_one (MetaReq.eff_pos hs.mtu)))
  · rw [hfields]
    exact hmtu
  · rw [hfields]
  · rw [hrequested]
    exact fits_of_segments hsum fun t ht => hbound _ (hmem t ht)
  · rw [MetaReq.numbers, hrequested]
    exact hsorted
  · intro k hk
    rw [MetaReq.numbers, hrequested] at hk
    obtain ⟨a, ha, hak⟩ := mem_cover.mp (hcovered k hk)
    obtain ⟨t, ht, rfl⟩ := List.mem_map.mp ha
    rw [s.covered_of_hookCtx hctx]
    exact (hout.missing k (mem_cover.mpr ⟨_, hmem t ht, hak⟩)).2

end Request

section Prepare

variable {payload : List UInt8} {host : ByteOrder} {slot s : Session} {p : Params} {d : Disk}
  (hslot : slot.Free) (hs : s.Saved payload) (hsum : payload.length + s.request.eff < 2 ^ 32)

include hslot hs hsum

/-- A resumed session asks for packets that have not been received, and goes on with the byte count.
-/
theorem ready_resume {s' : Session}
    (h : prepareSession host slot p true (apmOnSerialize host s d) = .ok s') :
    s'.Ready payload ∧ s'.resumed = s.covered ∧ s'.bytesReceived = s.bytesReceived ∧
      s'.request.mtu = s.request.mtu := by
  obtain ⟨ctx, l, hctx, hl, hcanon⟩ := hs.hookCtx
  have hnof := hs.toNat_nofSegments hctx hl hcanon
  obtain ⟨q, hq, hprepare⟩ := prepareSession_apmOnSerialize host hctx hnof hs.mtu hslot p d
  rw [hprepare] at h
  obtain ⟨-, height, hmtu, hthroughput, hfits, hsorted, hmissing⟩ :=
    hs.request hctx hsum (by rfl) hq
  have heff : q.eff = s.request.eff := by rw [MetaReq.eff, hmtu]; rfl
  have hcov : ctx.segments.reread.covered = s.covered := (s.covered_of_hookCtx hctx).symm
  split_ifs at h with hrefuse
  obtain rfl := Except.ok.inj h
  have hpos : 0 < q.nofIntervals.toNat :=
    Nat.pos_of_ne_zero fun h => hrefuse (Or.inr (UInt8.toNat_inj.mp h))
  rw [← heff] at hfits hsorted hmissing
  rw [← hcov] at hmissing
  refine ⟨⟨⟨?_, ?_, hpos, height⟩, hfits, hsorted, hmissing, rfl, ?_, ?_⟩, hcov, rfl, hmtu⟩
  · change 8 < q.mtu.toNat
    rw [hmtu]
    exact hs.mtu
  · change 0 < q.throughput.toNat
    rw [hthroughput]
    exact hs.throughput
  · intro received hreceived
    obtain rfl : ctx.segments.reread = received := Option.some.inj hreceived
    change Canonical (ranges ctx.segments.segments)
    rwa [hl.segments]
  · change ctx.segments.reread.covered ⊆ Finset.range (count payload.length q.eff)
    rw [hcov, heff]
    exact hs.subset

/-- A session is declared exhausted if all bytes have been counted, if nothing has been received, or
if all full packets have. -/
theorem exhausted_iff :
    prepareSession host slot p true (apmOnSerialize host s d) = .error .sessionExhausted ↔
    s.bytesReceived.toNat = payload.length ∨ s.covered = ∅ ∨
      Finset.range (payload.length / s.request.eff) ⊆ s.covered := by
  obtain ⟨ctx, l, hctx, hl, hcanon⟩ := hs.hookCtx
  have hnof := hs.toNat_nofSegments hctx hl hcanon
  obtain ⟨q, hq, hprepare⟩ := prepareSession_apmOnSerialize host hctx hnof hs.mtu hslot p d
  rw [hprepare]
  obtain ⟨hzero, -⟩ := hs.request hctx hsum (by rfl) hq
  rw [← hzero, ← hs.payloadSize, UInt32.toNat_inj]
  split_ifs with hrefuse
  · exact iff_of_true rfl hrefuse
  · exact iff_of_false (by simp) hrefuse

end Prepare

/-! ### The end of a session -/

/-- The numbers of the packets that a session has given to the hook. -/
def Received.numbers (rec : Received) : List ℕ :=
  (acceptedOf rec.log).map (Packet.number rec.session.request)

theorem dropRepeats_sublist (r : MetaReq) (prev : UInt32) (ps : List Packet) :
    (dropRepeats r prev ps).Sublist ps := by
  induction ps generalizing prev with
  | nil => exact List.Sublist.slnil
  | cons p ps ih =>
    rw [dropRepeats]
    split_ifs
    · exact (ih prev).cons p
    · exact (ih _).cons_cons p

theorem Received.From.mem {E : ErrorTest} {s : Session} {d : Disk} {ps : List Packet}
    {rec : Received} (h : rec.From E s d ps) {p : Packet} (hp : p ∈ acceptedOf rec.log) :
    p ∈ ps := by
  obtain ⟨n, hn⟩ := h.accepted
  rw [hn] at hp
  exact List.mem_of_mem_take ((dropRepeats_sublist _ _ _).subset hp)

/-- The ends of segments are below any bound on the packets in them. -/
theorem SegmentsCtx.stop_lt {ctx : SegmentsCtx} (h : Canonical (ranges ctx.segments)) {n : ℕ}
    (hn : ∀ k ∈ ctx.covered, k < n) {t : Segment} (ht : t ∈ ctx.segments) : t.stop.toNat < n :=
  hn _ (mem_cover.mpr ⟨t.range, mem_ranges ht, h.valid _ (mem_ranges ht), le_rfl⟩)

/-- The hook at the end adds the segments of the session to those it was resumed with. -/
theorem apmOnEnd_lists {s : Session} {ctx : HookCtx} {l : List Range} (hctx : s.hookCtx = some ctx)
    (hl : (closeSegments ctx.segments).Lists l) (hcanon : Canonical l)
    (hmax : ∀ k ∈ cover l, k < 2 ^ 32 - 1)
    (hreceived : ∀ received, ctx.receivedSegments = some received →
      Canonical (ranges received.segments) ∧ ∀ k ∈ received.covered, k < 2 ^ 32 - 1) :
    ∃ ctx' l', (apmOnEnd s).hookCtx = some ctx' ∧ ctx'.segments.Lists l' ∧ Canonical l' ∧
      cover l' = ctx.receivedSegments.elim ∅ SegmentsCtx.covered ∪ cover l := by
  rw [apmOnEnd, hctx]
  cases hrec : ctx.receivedSegments with
  | none => exact ⟨{ ctx with segments := closeSegments ctx.segments }, l,
    by simp [hrec], hl, hcanon, by simp⟩
  | some received =>
    obtain ⟨hcanon', hmax'⟩ := hreceived _ hrec
    have hclosed : Canonical (ranges (closeSegments ctx.segments).segments) := by
      rw [hl.segments]
      exact hcanon
    have hcovered : (closeSegments ctx.segments).covered = cover l := by
      rw [SegmentsCtx.covered, hl.segments]
    obtain ⟨l', hl', hmerged, hcover⟩ := mergeSegments_spec hclosed hcanon'
      (fun t ht => SegmentsCtx.stop_lt hclosed (by rwa [hcovered]) ht)
      (fun t ht => SegmentsCtx.stop_lt hcanon' hmax' ht)
    refine ⟨{ ctx with segments := mergeSegments (closeSegments ctx.segments) received }, l',
      by simp [hrec], hl', hmerged, ?_⟩
    rw [hcover, hcovered, Finset.union_comm]
    rfl

section Ends

variable {payload : List UInt8} {E : ErrorTest} {s : Session} {d : Disk} {ps : List Packet}
  {rec : Received} (hs : s.Ready payload) (hsize : s.payloadSize.toNat = payload.length)
  (h : rec.From E s d ps) (hps : ∀ p ∈ ps, ∃ k, p.IsChunk payload s.request.eff k)

include hs h hps

theorem Session.Ready.numbers_lt : ∀ k ∈ rec.numbers, k < count payload.length s.request.eff := by
  intro k hk
  obtain ⟨p, hp, rfl⟩ := List.mem_map.mp hk
  obtain ⟨k, hk⟩ := hps p (h.mem hp)
  rw [h.request, hk.number_eq hs.usable.mtu]
  exact hk.lt

include hsize

theorem Session.Ready.numbers_lt_max : ∀ k ∈ rec.numbers, k < 2 ^ 32 - 1 := by
  intro k hk
  have hlt := s.payloadSize.toNat_lt
  have hcount : count payload.length s.request.eff ≤ payload.length :=
    count_le (MetaReq.eff_pos hs.usable.mtu)
  have := hs.numbers_lt h hps k hk
  omega

/-- The segments of the session itself, when they are closed. -/
theorem Session.Ready.closed : ∃ l,
    (closeSegments (updateAll initSegmentsCtx
      ((acceptedOf rec.log).map (packetSeq s.request)))).Lists l ∧ Canonical l ∧
      cover l ⊆ rec.numbers.toFinset ∧
        (rec.numbers.Pairwise (· ≤ ·) → cover l = rec.numbers.toFinset) := by
  have hnums : rec.numbers = ((acceptedOf rec.log).map (packetSeq s.request)).map UInt32.toNat := by
    rw [Received.numbers, h.request, List.map_map]
    rfl
  have hmax := hs.numbers_lt_max hsize h hps
  rw [hnums] at hmax ⊢
  obtain ⟨l, hl, hcanon, hsub, hall⟩ := closed_updateAll fun n hn => hmax _ (List.mem_map_of_mem hn)
  have hcover :
      cover l ⊆ (((acceptedOf rec.log).map (packetSeq s.request)).map UInt32.toNat).toFinset := by
    intro k hk
    obtain ⟨n, hn, rfl⟩ := hsub k hk
    exact List.mem_toFinset.mpr (List.mem_map_of_mem hn)
  refine ⟨l, hl, hcanon, hcover, fun hsorted => subset_antisymm hcover fun k hk => ?_⟩
  obtain ⟨n, hn, rfl⟩ := List.mem_map.mp (List.mem_toFinset.mp hk)
  refine hall ?_ n hn
  exact (List.pairwise_map.mp hsorted).imp fun h => UInt32.le_iff_toNat_le.mpr h

/-- The segments with which the session ends: those it was resumed with, and its own. -/
theorem Session.Ready.merged {l : List Range} (hcanon : Canonical l)
    (hcover : cover l ⊆ rec.numbers.toFinset)
    (hl : (closeSegments
      (updateAll initSegmentsCtx ((acceptedOf rec.log).map (packetSeq s.request)))).Lists l) :
    ∃ ctx l', rec.session.hookCtx = some ctx ∧ ctx.segments.Lists l' ∧ Canonical l' ∧
      cover l' = s.resumed ∪ cover l := by
  have hlt := s.payloadSize.toNat_lt
  have hcount : count payload.length s.request.eff ≤ payload.length :=
    count_le (MetaReq.eff_pos hs.usable.mtu)
  obtain ⟨ts, hctx⟩ := h.hookCtx
  rw [hs.segments] at hctx
  have hmax : ∀ k ∈ cover l, k < 2 ^ 32 - 1 := fun k hk =>
    hs.numbers_lt_max hsize h hps k (List.mem_toFinset.mp (hcover hk))
  have hreceived : ∀ received, s.startCtx.receivedSegments = some received →
      Canonical (ranges received.segments) ∧ ∀ k ∈ received.covered, k < 2 ^ 32 - 1 := by
    intro received hreceived
    refine ⟨hs.received _ hreceived, fun k hk => ?_⟩
    have hmem : k ∈ s.resumed := by
      rw [Session.resumed, hreceived]
      exact hk
    have := Finset.mem_range.mp (hs.subset hmem)
    omega
  have hlists := apmOnEnd_lists (s := { s with
    hookCtx := some ⟨ts, updateAll initSegmentsCtx _, s.startCtx.receivedSegments⟩ }) rfl hl hcanon
      hmax hreceived
  rw [hctx]
  exact hlists

/-- A session that has ended has the segments it was resumed with, and no more than the packets it
has received; all of them, if they came in ascending order. -/
theorem Session.Ready.ends : rec.session.Saved payload ∧ s.resumed ⊆ rec.session.covered ∧
    rec.session.covered ⊆ s.resumed ∪ rec.numbers.toFinset ∧
    (rec.numbers.Pairwise (· ≤ ·) → rec.session.covered = s.resumed ∪ rec.numbers.toFinset) := by
  obtain ⟨l, hl, hcanon, hcover, hall⟩ := hs.closed hsize h hps
  obtain ⟨ctx, l', hctx, hl', hcanon', hcover'⟩ := hs.merged hsize h hps hcanon hcover hl
  have hcovered : rec.session.covered = s.resumed ∪ cover l := by
    rw [Session.covered_of_hookCtx hctx, SegmentsCtx.covered, hl'.segments, hcover']
  have hupper : rec.session.covered ⊆ s.resumed ∪ rec.numbers.toFinset := by
    rw [hcovered]
    exact Finset.union_subset_union_right hcover
  refine ⟨⟨⟨ctx, l', hctx, hl', hcanon'⟩, ?_, ?_, ?_, ?_⟩, ?_, hupper, ?_⟩
  · rw [h.request]
    refine hupper.trans (Finset.union_subset hs.subset fun k hk => ?_)
    exact Finset.mem_range.mpr (hs.numbers_lt h hps k (List.mem_toFinset.mp hk))
  · rw [h.request]
    exact hs.usable.mtu
  · rw [h.request]
    exact hs.usable.throughput
  · rw [h.payloadSize, hsize]
  · rw [hcovered]
    exact Finset.subset_union_left
  · intro hsorted
    rw [hcovered, hall hsorted]

end Ends

end LibDtp
