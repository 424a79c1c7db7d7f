import LibDtp.Client.SegmentSets
import LibDtp.Client.MetaFile

/-!
# What is missing

Two places compute what a session has not received: `apm_on_end` to print it, and
`apm_on_deserialize` to ask for it. Both use `get_complement_segment`, with the number of the
payload's last packet as they compute it.

## The model

`missingSegments` is what `apm_on_end` prints and `segmentsToRequest` what `apm_on_deserialize` asks
for. The former takes a ceiling less one for the last packet, the latter a floor, which is one more
if the payload is made of whole chunks.

## What is proved

* `complement_complete_iff` — the complement of a sorted list has all that is missing, unless the
  list is empty or ends right before the bound.
* `complement_request` — it has nothing that is there, and the request is made of its first eight
  segments.
* `reported_requested_iff` — what is printed is what is asked for, if the payload is not made of
  whole chunks, or the list reaches its last packet.
-/

namespace LibDtp

open Ranges Files Bytes

/-! ### The bounds -/

/-- The missing segments that `apm_on_end` computes in order to print them. -/
def missingSegments (s : Session) (segments : SegmentsCtx) : SegmentsCtx :=
  let count := (s.payloadSize.toUInt64 / s.request.chunk).toUInt32
  let count := if s.payloadSize.toUInt64 % s.request.chunk ≠ 0 then count + 1 else count
  getComplementSegment segments 0 (count - 1)

/-- What `apm_on_deserialize` computes, if it returns. -/
theorem segmentsToRequest_eq {r : MetaReq} (h : 8 < r.mtu.toNat) (payloadSize : UInt32)
    (received : SegmentsCtx) :
    segmentsToRequest r payloadSize received =
      .ok (getComplementSegment received 0 (payloadSize.toUInt64 / r.chunk).toUInt32) :=
  if_neg (MetaReq.chunk_ne_zero (MetaReq.mtu_ne_of_lt h))

/-- The number after the last segment. -/
theorem after_ranges {l : List Segment} {s : Segment} (h : l.getLast? = some s) (n : ℕ) :
    after n (ranges l) = s.stop.toNat + 1 := by
  obtain ⟨l', rfl⟩ := List.getLast?_eq_some_iff.mp h
  rw [ranges_append, ranges_cons, ranges_nil, after_concat, hi_range]

theorem le_of_mem_ranges {l : List Segment} {stop : UInt32} (hle : ∀ s ∈ l, s.stop ≤ stop) :
    ∀ r ∈ ranges l, r.hi ≤ stop.toNat := by
  intro r hr
  obtain ⟨s, hs, rfl⟩ := List.mem_map.mp hr
  exact UInt32.le_iff_toNat_le.mp (hle s hs)

/-- The complement of a sorted list. -/
theorem SegmentsCtx.Sorted.complement {ctx : SegmentsCtx} (h : ctx.Sorted) (stop : UInt32) :
    (getComplementSegment ctx 0 stop).Lists (missing stop.toNat (ranges ctx.segments)) :=
  getComplementSegment_eq (sorted_iff.mp h).1 (sorted_iff.mp h).2 stop

/-! ### Nothing is left out -/

/-- The complement of a list has all that is missing of `0` to `stop` if and only if the list is not
empty and does not end right before `stop`. The number `stop` itself is after the list and in no
gap. -/
theorem complement_complete_iff {ctx : SegmentsCtx} {stop : UInt32} (hsorted : ctx.Sorted)
    (hle : ∀ s ∈ ctx.segments, s.stop ≤ stop) :
    (∀ k ≤ stop.toNat, k ∉ ctx.covered → k ∈ (getComplementSegment ctx 0 stop).covered) ↔
      ctx.segments ≠ [] ∧ ∀ s ∈ ctx.segments.getLast?, s.stop.toNat + 1 ≠ stop.toNat := by
  have hl := (sorted_iff.mp hsorted).1
  have hle' := le_of_mem_ranges hle
  rw [SegmentsCtx.covered, SegmentsCtx.covered, (hsorted.complement stop).segments]
  cases hlast : ctx.segments.getLast? with
  | none =>
    rw [List.getLast?_eq_none_iff] at hlast
    rw [hlast]
    simp only [ranges_nil, missing, cover_nil]
    refine iff_of_false (fun h => ?_) (by simp)
    exact absurd (h 0 (Nat.zero_le _) (Finset.notMem_empty 0)) (Finset.notMem_empty 0)
  | some s =>
    have hne : ctx.segments ≠ [] := by
      rintro hnil
      rw [hnil] at hlast
      cases hlast
    have hafter := after_ranges hlast 0
    have hs : s.stop.toNat ≤ stop.toNat :=
      UInt32.le_iff_toNat_le.mp (hle s (List.mem_of_getLast? hlast))
    rw [missing_eq_missingFrom hl (by simpa [ranges] using hne) hle']
    simp only [mem_cover_missingFrom hl fun r _ => Nat.zero_le _, hafter]
    constructor
    · intro hall
      refine ⟨hne, fun t ht heq => ?_⟩
      obtain rfl : s = t := Option.some.inj ht
      have hnot : stop.toNat ∉ cover (ranges ctx.segments) := fun hk => by
        have := hl.lt_after (n := 0) hk
        omega
      have := (hall stop.toNat le_rfl hnot).2.2
      omega
    · rintro ⟨-, hend⟩ k hk hnot
      have := hend s rfl
      exact ⟨Nat.zero_le k, hnot, by omega⟩

/-- Packet `1` is missing between two segments, and `6` and `7` after them. -/
theorem complement_complete_gap :
    (listed [⟨0, 0⟩, ⟨2, 5⟩]).Sorted ∧ ∀ k ≤ 7, k ∉ (listed [⟨0, 0⟩, ⟨2, 5⟩]).covered →
    k ∈ (getComplementSegment (listed [⟨0, 0⟩, ⟨2, 5⟩]) 0 7).covered := by
  have hsorted : (listed [⟨0, 0⟩, ⟨2, 5⟩]).Sorted := ⟨by decide, by decide, by decide⟩
  exact ⟨hsorted, (@complement_complete_iff _ 7 hsorted (by decide)).mpr (by decide)⟩

/-- Nothing has been received, and nothing is missing; and the last packet alone is not missed. -/
theorem complement_incomplete :
    ¬ (∀ k ≤ 7, k ∉ initSegmentsCtx.covered →
      k ∈ (getComplementSegment initSegmentsCtx 0 7).covered) ∧
      ¬ ∀ k ≤ 7, k ∉ (listed [⟨0, 6⟩]).covered →
        k ∈ (getComplementSegment (listed [⟨0, 6⟩]) 0 7).covered := by
  decide

/-! ### Nothing is asked for twice -/

/-- The complement of a list within `0` to `stop` is sorted, and has nothing of the list. -/
theorem SegmentsCtx.Sorted.complement_sorted {ctx : SegmentsCtx} {stop : UInt32} (h : ctx.Sorted)
    (hle : ∀ s ∈ ctx.segments, s.stop ≤ stop) (hstop : stop < uint32Max) :
    (getComplementSegment ctx 0 stop).Sorted ∧
      ∀ k ∈ (getComplementSegment ctx 0 stop).covered, k ≤ stop.toNat ∧ k ∉ ctx.covered := by
  have hl := (sorted_iff.mp h).1
  have hle' := le_of_mem_ranges hle
  have hlists := h.complement stop
  have hmem : ∀ k ∈ cover (missing stop.toNat (ranges ctx.segments)), k ≤ stop.toNat ∧
    k ∉ ctx.covered :=
    fun k hk => mem_cover_missing hl hle' hk
  refine ⟨hlists.sorted (canonical_missing hl hle') fun k hk => ?_, ?_⟩
  · exact lt_of_le_of_lt (hmem k hk).1 (lt_uint32Max.mp hstop)
  · rw [SegmentsCtx.covered, hlists.segments]
    exact hmem

/-- Segments without a common packet lie one before the other. -/
theorem before_or_after {s t : Segment} (hs : s.start ≤ s.stop) (ht : t.start ≤ t.stop)
    (h : ∀ k, s.start.toNat ≤ k → k ≤ s.stop.toNat → ¬ (t.start.toNat ≤ k ∧ k ≤ t.stop.toNat)) :
    s.stop < t.start ∨ t.stop < s.start := by
  rw [UInt32.le_iff_toNat_le] at hs ht
  simp only [UInt32.lt_iff_toNat_lt]
  have h1 := h s.start.toNat le_rfl hs
  have h2 := h t.start.toNat
  omega

/-- A meta file that `apm_on_deserialize` reads. -/
def Disk.Restores (host : ByteOrder) (d : Disk) : Prop :=
  ∃ f, d.metaFile = some f ∧ (fread32 host 0 f).1 = dtpSessionVersion

/-- The request of a session that is restored is made for the segments that were read. -/
theorem request_apmOnDeserialize {host : ByteOrder} {d : Disk} (hd : d.Restores host)
    {slot s : Session} {ctx : HookCtx} {received : SegmentsCtx}
    (hs : apmOnDeserialize host slot d = .ok s) (hctx : s.hookCtx = some ctx)
    (hreceived : ctx.receivedSegments = some received) :
    ∃ r, requestMissing r s.payloadSize received = .ok s.request := by
  obtain ⟨f, hf, hversion⟩ := hd
  have hread : readSession host slot (fread32 host 0 f).2 = .ok s := by
    simp only [apmOnDeserialize, hf] at hs
    rwa [if_neg (by simpa using hversion)] at hs
  simp only [readSession] at hread
  obtain ⟨q, hq, hread⟩ := exists_of_bind_eq_ok hread
  obtain rfl := Except.ok.inj hread
  obtain rfl := Option.some.inj hctx
  obtain rfl := Option.some.inj hreceived
  exact ⟨_, hq⟩

/-- The complement of a list within `0` to `stop` is sorted, counted, within `0` to `stop` and apart
from the list; and a session that is restored with that list asks for the first eight segments of
it. -/
theorem complement_request {ctx : SegmentsCtx} {stop : UInt32} (hsorted : ctx.Sorted)
    (hle : ∀ s ∈ ctx.segments, s.stop ≤ stop) (hstop : stop < uint32Max) :
    (getComplementSegment ctx 0 stop).Sorted ∧
      (∀ s ∈ (getComplementSegment ctx 0 stop).segments, s.stop ≤ stop ∧
        ∀ t ∈ ctx.segments, s.stop < t.start ∨ t.stop < s.start) ∧
      (getComplementSegment ctx 0 stop).nofSegments.toNat =
        (getComplementSegment ctx 0 stop).segments.length ∧
      ∀ (host : ByteOrder) (slot s : Session) (d : Disk) (hook : HookCtx), d.Restores host →
        apmOnDeserialize host slot d = .ok s → s.hookCtx = some hook →
        hook.receivedSegments = some ctx →
        (s.payloadSize.toUInt64 / s.request.chunk).toUInt32 = stop →
        s.request.nofIntervals.toNat = min 8 (getComplementSegment ctx 0 stop).segments.length ∧
          s.request.requested =
            ((getComplementSegment ctx 0 stop).segments.take
              (min 8 (getComplementSegment ctx 0 stop).segments.length)).map Segment.interval := by
  obtain ⟨hcomp, hmem⟩ := hsorted.complement_sorted hle hstop
  have hlists := hsorted.complement stop
  have hnof := hlists.toNat_nofSegments hcomp
  have hin : ∀ s ∈ (getComplementSegment ctx 0 stop).segments, ∀ k, s.start.toNat ≤ k →
    k ≤ s.stop.toNat →
      k ∈ (getComplementSegment ctx 0 stop).covered :=
        fun s hs k h1 h2 => mem_cover.mpr ⟨s.range, mem_ranges hs, h1, h2⟩
  refine ⟨hcomp, fun s hs => ⟨?_, fun t ht => ?_⟩, hnof, ?_⟩
  · have hvalid := UInt32.le_iff_toNat_le.mp (hcomp.valid s hs)
    exact UInt32.le_iff_toNat_le.mpr (hmem _ (hin s hs _ hvalid le_rfl)).1
  · refine before_or_after (hcomp.valid s hs) (hsorted.valid t ht) fun k h1 h2 hk => ?_
    exact (hmem k (hin s hs k h1 h2)).2 (mem_cover.mpr ⟨t.range, mem_ranges ht, hk⟩)
  · intro host slot s d hook hd hs hhook hreceived hbound
    obtain ⟨r, hr⟩ := request_apmOnDeserialize hd hs hhook hreceived
    obtain ⟨-, hr⟩ := requestMissing_of_ok hr
    have hchunk : s.request.chunk = r.chunk := by
      rw [hr, params_requestSegments]
      rfl
    rw [hchunk] at hbound
    rw [hbound] at hr
    rw [hr]
    have hlen : (missing stop.toNat (ranges ctx.segments)).length =
        (getComplementSegment ctx 0 stop).segments.length := by
      rw [← hlists.segments, length_ranges]
    obtain ⟨hrequested, -, hle8, -⟩ :=
      requestSegments_spec hlists (by rw [hlen, ← hnof]; exact UInt32.toNat_lt _) r
    have htake : (getComplementSegment ctx 0 stop).segments.take 8 =
      (getComplementSegment ctx 0 stop).segments.take
        (min 8 (getComplementSegment ctx 0 stop).segments.length) := by
      rw [List.take_eq_take_iff]
      omega
    refine ⟨?_, by rw [hrequested, htake]⟩
    rw [← MetaReq.length_requested _ hle8, hrequested, List.length_map, List.length_take]

/-- Nine of twenty-one packets, with ten gaps. -/
def oddPackets : SegmentsCtx :=
  listed [⟨1, 1⟩, ⟨3, 3⟩, ⟨5, 5⟩, ⟨7, 7⟩, ⟨9, 9⟩, ⟨11, 11⟩, ⟨13, 13⟩, ⟨15, 15⟩, ⟨17, 17⟩]

/-- The first eight of ten gaps are asked for. -/
theorem complement_request_eight : ∃ s, apmOnDeserialize .little emptySlot
      ⟨[], some (sessionBytes .little { freshSession with payloadSize := 80 } oddPackets)⟩ = .ok s ∧
    s.request.requested =
      [⟨0, 0⟩, ⟨2, 2⟩, ⟨4, 4⟩, ⟨6, 6⟩, ⟨8, 8⟩, ⟨10, 10⟩, ⟨12, 12⟩, ⟨14, 14⟩] := by
  have hrun : (apmOnDeserialize .little emptySlot
      ⟨[], some (sessionBytes .little
        { freshSession with payloadSize := 80 } oddPackets)⟩).toOption.any (fun s => decide
        (s.hookCtx = some ⟨0, initSegmentsCtx, some oddPackets⟩ ∧
          (s.payloadSize.toUInt64 / s.request.chunk).toUInt32 = 20)) =
      true := by decide +kernel
  obtain ⟨s, hs, hhook, hbound⟩ := ok_of_any hrun
  have h := (@complement_request oddPackets 20
    ⟨by decide, by decide, by decide⟩ (by decide) (by decide)).2.2.2 .little
    emptySlot s ⟨[], some (sessionBytes .little { freshSession with payloadSize := 80 } oddPackets)⟩
    ⟨0, initSegmentsCtx, some oddPackets⟩ ⟨_, rfl, by decide +kernel⟩ hs hhook rfl hbound
  refine ⟨s, hs, ?_⟩
  rw [h.2]
  decide +kernel

/-! ### What is reported and what is requested -/

/-- The list reaches packet `count - 1`, or is empty; and no segment has all the packets before that
one. -/
def ReachesLast (count : ℕ) (l : List Segment) : Prop :=
  (∀ s ∈ l.getLast?, count ≤ s.stop.toNat + 1) ∧ ∀ s ∈ l, s.start = 0 → s.stop.toNat + 2 ≠ count

/-- Where the loop of `get_complement_segment` is: at the start, or before all the segments to come.
-/
def Complement.Ready (c : Complement) (l : List Segment) : Prop :=
  c.segStart = 0 ∨ ∀ t ∈ l, c.segStart.toNat < t.start.toNat

/-- After a segment the loop goes on behind it; behind a segment that ends at `UINT32_MAX` it starts
again. -/
theorem ready_stop_add_one {s : Segment} {l : List Segment} (h : ∀ t ∈ l, s.Before t)
    (segEnd : UInt32) (complements : SegmentsCtx) :
    Complement.Ready ⟨s.stop + 1, segEnd, complements⟩ l := by
  by_cases hfull : s.Full
  · left
    rw [← UInt32.toNat_inj, UInt32.toNat_add, hfull]
    rfl
  · right
    intro t ht
    have hlt := s.stop.toNat_lt
    have hne : s.stop.toNat ≠ 2 ^ 32 - 1 := hfull
    rcases h t ht with hgap | hfull'
    · rw [toNat_stop_add_one (by omega)]
      exact hgap
    · exact absurd hfull'.1 hfull

/-- One turn of the loop is the same for two bounds `bound` and `bound + 1`, unless the segment has
all the packets before the former. Only `UINT32_MAX + 1` is both at least `bound` and less than
`bound + 1`. -/
theorem Complement.Ready.step {c : Complement} {s : Segment} {l : List Segment}
    (h : c.Ready (s :: l)) (hbefore : ∀ t ∈ l, s.Before t) {bound next : UInt32}
    (hnext : next.toNat = bound.toNat + 1) (hno : s.start = 0 → s.stop.toNat + 1 ≠ bound.toNat) :
    complementStep 0 bound c s = complementStep 0 next c s ∧ (complementStep 0 bound c s).Ready l ∧
      ((complementStep 0 bound c s).segStart = 0 ∨
        (complementStep 0 bound c s).segStart = s.stop + 1) := by
  by_cases h0 : s.start = 0
  · have hc : c.segStart = 0 := by
      rcases h with h | h
      · exact h
      · have := h s (List.mem_cons_self ..)
        rw [h0, UInt32.toNat_zero] at this
        omega
    have hskip : ¬ (s.start > 0 ∧ c.segStart ≤ s.start - 1) := by
      rw [h0]
      simp
    by_cases hlt : s.stop + 1 < bound
    · have hlt' : s.stop + 1 < next := by
        rw [UInt32.lt_iff_toNat_lt] at hlt ⊢
        omega
      rw [complementStep, complementStep, if_pos ⟨h0, hlt⟩, if_pos ⟨h0, hlt'⟩]
      exact ⟨rfl, ready_stop_add_one hbefore _ _, Or.inr rfl⟩
    · rw [complementStep, complementStep, if_neg fun h => hlt h.2, if_neg hskip]
      refine ⟨?_, Or.inl hc, Or.inl hc⟩
      split_ifs with hnow
      · have hzero : s.stop + 1 = 0 := by
          rw [← UInt32.toNat_inj, UInt32.toNat_zero]
          have hlt1 := hnow.2
          have hno' := hno h0
          have hs := s.stop.toNat_lt
          rw [UInt32.lt_iff_toNat_lt, UInt32.toNat_add, show (1 : UInt32).toNat = 1 from rfl]
            at hlt1 hlt
          rw [UInt32.toNat_add, show (1 : UInt32).toNat = 1 from rfl]
          omega
        rw [hzero, ← hc]
      · rfl
  · have hgap : s.start > 0 ∧ c.segStart ≤ s.start - 1 := by
      have hpos : 0 < s.start.toNat := Nat.pos_of_ne_zero fun h => h0 (UInt32.toNat_inj.mp h)
      have hone : (1 : UInt32) ≤ s.start := by
        rw [UInt32.le_iff_toNat_le]
        exact hpos
      rw [gt_iff_lt, UInt32.lt_iff_toNat_lt, UInt32.le_iff_toNat_le,
        UInt32.toNat_sub_of_le _ _ hone, show (1 : UInt32).toNat = 1 from rfl, UInt32.toNat_zero]
      refine ⟨hpos, ?_⟩
      rcases h with h | h
      · rw [h, UInt32.toNat_zero]
        omega
      · have := h s (List.mem_cons_self ..)
        omega
    have hstep : ∀ b, complementStep 0 b c s = ⟨s.stop + 1, s.start - 1,
        appendSegment { c.complements with cur := .own ⟨c.segStart, s.start - 1⟩ }⟩ := by
      intro b
      rw [complementStep, if_neg fun h => h0 h.1, if_pos hgap]
    rw [hstep, hstep]
    exact ⟨rfl, ready_stop_add_one hbefore _ _, Or.inr rfl⟩

/-- The whole loop is the same for the two bounds, and ends at the start or behind the last segment.
-/
theorem Complement.Ready.run {c : Complement} {l : List Segment} (h : c.Ready l)
    (hbefore : l.Pairwise Segment.Before) {bound next : UInt32}
    (hnext : next.toNat = bound.toNat + 1)
    (hno : ∀ s ∈ l, s.start = 0 → s.stop.toNat + 1 ≠ bound.toNat) :
    l.foldl (complementStep 0 bound) c = l.foldl (complementStep 0 next) c ∧
      ((l.foldl (complementStep 0 bound) c).segStart = 0 ∨ l = [] ∨
        ∃ s, l.getLast? = some s ∧ (l.foldl (complementStep 0 bound) c).segStart = s.stop + 1) := by
  induction l generalizing c with
  | nil => exact ⟨rfl, Or.inr (Or.inl rfl)⟩
  | cons s l ih =>
    obtain ⟨hfirst, hrest⟩ := List.pairwise_cons.mp hbefore
    obtain ⟨heq, hready, hstart⟩ := h.step hfirst hnext (hno s (List.mem_cons_self ..))
    obtain ⟨hfold, hend⟩ := ih hready hrest fun t ht => hno t (List.mem_cons_of_mem _ ht)
    rw [List.foldl_cons, List.foldl_cons, ← heq]
    refine ⟨hfold, ?_⟩
    rcases hend with hend | rfl | ⟨t, ht, hend⟩
    · exact Or.inl hend
    · rcases hstart with hstart | hstart
      · exact Or.inl hstart
      · exact Or.inr (Or.inr ⟨s, rfl, hstart⟩)
    · refine Or.inr (Or.inr ⟨t, ?_, hend⟩)
      rw [List.getLast?_cons, ht]
      rfl

/-- The complements up to `bound` and `bound + 1` are the same if the list reaches `bound`. -/
theorem complement_eq_of_reachesLast {ctx : SegmentsCtx} (htidy : ctx.Tidy) {bound next : UInt32}
    (hnext : next.toNat = bound.toNat + 1) (hlast : ReachesLast next.toNat ctx.segments) :
    getComplementSegment ctx 0 bound = getComplementSegment ctx 0 next := by
  have hready : Complement.Ready ⟨0, 0, initSegmentsCtx⟩ ctx.segments := Or.inl rfl
  obtain ⟨hfold, hend⟩ := hready.run (htidy.before.imp And.left) hnext fun s hs h0 heq =>
    hlast.2 s hs h0 (by omega)
  rw [getComplementSegment, getComplementSegment, ← hfold]
  generalize hc : ctx.segments.foldl (complementStep 0 bound) ⟨0, 0, initSegmentsCtx⟩ = c at hend ⊢
  have hfinish : ∀ stop : UInt32, c.segStart = 0 ∨ stop.toNat ≤ c.segStart.toNat →
      c.finish stop = c.complements := by
    intro stop h
    rw [Complement.finish]
    split_ifs with h1 h2
    · rw [UInt32.lt_iff_toNat_lt] at h1 h2
      rcases h with h | h
      · rw [h, UInt32.toNat_zero] at h2
        omega
      · omega
    · rfl
    · rfl
  suffices h : c.segStart = 0 ∨ next.toNat ≤ c.segStart.toNat by
    rw [hfinish bound (h.imp_right (by omega)), hfinish next h]
  rcases hend with hend | hnil | ⟨s, hs, hend⟩
  · exact Or.inl hend
  · left
    rw [← hc, hnil]
    rfl
  · by_cases hfull : s.Full
    · left
      rw [hend, ← UInt32.toNat_inj, UInt32.toNat_add, hfull]
      rfl
    · have hlt := s.stop.toNat_lt
      have hne : s.stop.toNat ≠ 2 ^ 32 - 1 := hfull
      right
      rw [hend, toNat_stop_add_one (by omega)]
      exact hlast.1 s hs

/-- The tails of the two are the same only if there is none. -/
theorem after_of_missingFrom_eq {n bound : ℕ} {l : List Range}
    (h : missingFrom n bound l = missingFrom n (bound + 1) l) :
    bound + 1 ≤ after n l := by
  rw [missingFrom, missingFrom, List.append_cancel_left_eq] at h
  by_contra hlt
  rw [if_pos (not_le.mp hlt)] at h
  split_ifs at h with hlt'
  simp at h

/-- The complements of a sorted list up to `bound` and `bound + 1` are the same only if it reaches
`bound`. Otherwise its last segment is not looked at up to `bound`, and passed by up to `bound + 1`.
-/
theorem reachesLast_of_missing_eq {bound : ℕ} {l : List Segment} (hl : Canonical (ranges l))
    (h : missing bound (ranges l) = missing (bound + 1) (ranges l)) :
    ReachesLast (bound + 1) l := by
  cases l with
  | nil => exact ⟨by simp, by simp⟩
  | cons s l =>
    have hrest : ∀ t ∈ l, t.start ≠ 0 := by
      intro t ht h0
      have hapart : s.stop.toNat + 1 < t.start.toNat :=
        (List.pairwise_cons.mp hl.apart).1 _ (mem_ranges ht)
      rw [h0, UInt32.toNat_zero] at hapart
      omega
    suffices hmain : bound + 1 ≤ after 0 (ranges (s :: l)) ∧
        (s.start = 0 → s.stop.toNat + 1 ≠ bound) by
      refine ⟨fun t ht => ?_, fun t ht h0 => ?_⟩
      · rw [← after_ranges ht 0]
        exact hmain.1
      · rcases List.mem_cons.mp ht with rfl | ht
        · have := hmain.2 h0
          omega
        · exact absurd h0 (hrest t ht)
    have hafter : ∀ n, after n (ranges (s :: l)) = after (s.stop.toNat + 1) (ranges l) :=
      fun n => rfl
    rw [hafter]
    rw [ranges_cons, missing, missing, lo_range, hi_range] at h
    by_cases h0 : s.start = 0
    · have hzero : s.start.toNat = 0 := by rw [h0]; rfl
      rw [if_pos hzero, if_pos hzero] at h
      rcases lt_trichotomy (s.stop.toNat + 1) bound with hlt | heq | hgt
      · rw [if_pos hlt, if_pos (by omega)] at h
        exact ⟨after_of_missingFrom_eq h, fun _ => hlt.ne⟩
      · have hnot : ¬ s.stop.toNat + 1 < bound := by omega
        have hnext : s.stop.toNat + 1 < bound + 1 := by omega
        rw [if_neg hnot, if_pos hnext] at h
        cases l with
        | nil =>
          rw [ranges_nil, if_pos rfl, missingFrom_nil, if_pos hnext] at h
          cases h
        | cons t l =>
          have hapart : s.stop.toNat + 1 < t.range.lo :=
            (List.pairwise_cons.mp hl.apart).1 t.range (by simp)
          have hpos : 0 < t.range.lo := by omega
          rw [ranges_cons, if_neg (List.cons_ne_nil _ _), missingFrom_cons_of_lt hpos,
            missingFrom_cons_of_lt hapart] at h
          simp at h
      · have hnot : ¬ s.stop.toNat + 1 < bound := by omega
        have hnot' : ¬ s.stop.toNat + 1 < bound + 1 := by omega
        rw [if_neg hnot, if_neg hnot'] at h
        refine ⟨?_, fun _ => hgt.ne'⟩
        cases l with
        | nil => exact hgt
        | cons t l =>
          rw [ranges_cons, if_neg (List.cons_ne_nil _ _), if_neg (List.cons_ne_nil _ _)] at h
          have hle := after_of_missingFrom_eq h
          exact hle
    · have hne : s.start.toNat ≠ 0 := fun h => h0 (UInt32.toNat_inj.mp h)
      rw [if_neg hne, if_neg hne] at h
      have hle := after_of_missingFrom_eq h
      exact ⟨hle, fun h => absurd h h0⟩

section Bounds

variable {s : Session} (hm : 8 < s.request.mtu.toNat)

include hm

/-- The payload has a last packet that is not full: both compute its number. -/
theorem missingSegments_of_not_dvd (h : ¬ s.request.eff ∣ s.payloadSize.toNat)
    (segments : SegmentsCtx) :
    segmentsToRequest s.request s.payloadSize segments = .ok (missingSegments s segments) := by
  have hmod : s.payloadSize.toUInt64 % s.request.chunk ≠ 0 := by
    rw [ne_eq, ← UInt64.toNat_inj, UInt64.toNat_mod, UInt32.toNat_toUInt64,
      show s.request.chunk.toNat = s.request.eff from s.request.toNat_chunk hm]
    exact fun h0 => h (Nat.dvd_of_mod_eq_zero h0)
  rw [missingSegments, segmentsToRequest_eq hm, if_pos hmod, UInt32.add_sub_cancel]

/-- The payload is made of whole chunks: the number of its last packet is computed for the report,
and one more for the request. -/
theorem missingSegments_of_dvd (h : s.request.eff ∣ s.payloadSize.toNat)
    (hsize : 0 < s.payloadSize.toNat) (segments : SegmentsCtx) :
    ∃ bound : UInt32, missingSegments s segments = getComplementSegment segments 0 bound ∧
      bound.toNat + 1 = s.payloadSize.toNat / s.request.eff := by
  have hmod : ¬ s.payloadSize.toUInt64 % s.request.chunk ≠ 0 := by
    rw [not_not, ← UInt64.toNat_inj, UInt64.toNat_mod, UInt32.toNat_toUInt64,
      show s.request.chunk.toNat = s.request.eff from s.request.toNat_chunk hm]
    exact Nat.mod_eq_zero_of_dvd h
  have hpos : 0 < s.payloadSize.toNat / s.request.eff :=
    Nat.div_pos (Nat.le_of_dvd hsize h) (MetaReq.eff_pos hm)
  have hcount := MetaReq.toNat_div_chunk hm s.payloadSize
  refine ⟨_, by rw [missingSegments, if_neg hmod], ?_⟩
  have hone : (1 : UInt32) ≤ (s.payloadSize.toUInt64 / s.request.chunk).toUInt32 := by
    rw [UInt32.le_iff_toNat_le, hcount]
    exact hpos
  rw [UInt32.toNat_sub_of_le _ _ hone, hcount]
  exact Nat.sub_add_cancel hpos

/-- What is reported is what is requested if the payload has a last packet that is not full, or the
list reaches its last packet. -/
theorem missingSegments_eq (hsize : 0 < s.payloadSize.toNat) {segments : SegmentsCtx}
    (htidy : segments.Tidy)
    (h : ¬ s.request.eff ∣ s.payloadSize.toNat ∨
      ReachesLast (s.payloadSize.toNat / s.request.eff) segments.segments) :
    segmentsToRequest s.request s.payloadSize segments = .ok (missingSegments s segments) := by
  by_cases hdvd : s.request.eff ∣ s.payloadSize.toNat
  · obtain ⟨bound, hmissing, hbound⟩ := missingSegments_of_dvd hm hdvd hsize segments
    have hnext := MetaReq.toNat_div_chunk hm s.payloadSize
    rw [hmissing, segmentsToRequest_eq hm]
    refine congrArg Except.ok (complement_eq_of_reachesLast htidy (by rw [hnext, hbound]) ?_).symm
    rw [hnext]
    exact h.resolve_left (not_not.mpr hdvd)
  · exact missingSegments_of_not_dvd hm hdvd segments

/-- And only then, for a sorted list. -/
theorem reachesLast_of_eq (hsize : 0 < s.payloadSize.toNat) {segments requested : SegmentsCtx}
    (hsorted : segments.Sorted)
    (hrequested : segmentsToRequest s.request s.payloadSize segments = .ok requested)
    (heq : (missingSegments s segments).segments = requested.segments) :
    ¬ s.request.eff ∣ s.payloadSize.toNat ∨
      ReachesLast (s.payloadSize.toNat / s.request.eff) segments.segments := by
  refine or_iff_not_imp_left.mpr fun hdvd => ?_
  obtain ⟨bound, hmissing, hbound⟩ := missingSegments_of_dvd hm (not_not.mp hdvd) hsize segments
  rw [segmentsToRequest_eq hm] at hrequested
  obtain rfl := Except.ok.inj hrequested
  have hranges := congrArg ranges heq
  rw [hmissing, (hsorted.complement _).segments, (hsorted.complement _).segments,
    MetaReq.toNat_div_chunk hm, ← hbound] at hranges
  rw [← hbound]
  exact reachesLast_of_missing_eq (sorted_iff.mp hsorted).1 hranges

end Bounds

/-- A session is saved at the end of a transfer and restored. What `apm_on_end` reported as missing
is what `apm_on_deserialize` asks for if the payload is not made of whole chunks, or the list
reaches the last packet; and only then, if the list is sorted. -/
theorem reported_requested_iff {E : ErrorTest} {host : ByteOrder} {s : Session} {d : Disk}
    {now : UInt32} {es : List RecvEvent} {rec : Received} (h : Lives E host s d)
    (hrun : startReceivingData E s d true now es = .ok (some rec))
    (hdefined : (s.closing rec.log).broken = false) {ctx : HookCtx}
    (hctx : rec.session.hookCtx = some ctx) (hm : 8 < rec.session.request.mtu.toNat)
    (hsize : 0 < rec.session.payloadSize.toNat) (slot : Session) :
    ∃ restored received requested,
      apmOnDeserialize host slot (apmOnSerialize host rec.session rec.disk) = .ok restored ∧
      restored.hookCtx = some ⟨0, initSegmentsCtx, some received⟩ ∧
      segmentsToRequest restored.request restored.payloadSize received = .ok requested ∧
      ((¬ rec.session.request.eff ∣ rec.session.payloadSize.toNat ∨
          ReachesLast
            (rec.session.payloadSize.toNat / rec.session.request.eff) ctx.segments.segments) →
        (missingSegments rec.session ctx.segments).segments = requested.segments) ∧
      (ctx.segments.Sorted →
        (missingSegments rec.session ctx.segments).segments = requested.segments →
        ¬ rec.session.request.eff ∣ rec.session.payloadSize.toNat ∨
          ReachesLast
            (rec.session.payloadSize.toNat / rec.session.request.eff) ctx.segments.segments) := by
  have htidy := ((lives_kept (.receive h hrun hdefined)).1 ctx hctx).tidy
  have hmeta : (apmOnSerialize host rec.session rec.disk).metaFile =
      some (sessionBytes host rec.session ctx.segments) := by
    rw [apmOnSerialize, hctx]
  obtain ⟨segments, hread⟩ :=
    apmOnDeserialize_of_mtu host htidy hmeta (MetaReq.mtu_ne_of_lt hm) slot
  rw [params_requestSegments] at hread
  have hsame : segmentsToRequest rec.session.request rec.session.payloadSize ctx.segments =
      .ok (getComplementSegment ctx.segments 0
        (rec.session.payloadSize.toUInt64 / rec.session.request.chunk).toUInt32) :=
    segmentsToRequest_eq hm _ _
  refine ⟨_, ctx.segments.reread, _, hread, rfl, hsame, fun hcond => ?_, fun hsorted heq => ?_⟩
  · rw [missingSegments_eq hm hsize htidy hcond] at hsame
    rw [Except.ok.inj hsame]
  · exact reachesLast_of_eq hm hsize hsorted hsame heq

/-- A fresh session for a payload of eight bytes, two whole chunks of four. -/
def wholeChunks : Session := { freshSession with payloadSize := 8 }

/-- It receives the packets `ks`, and then nothing more. -/
def receiveWhole (ks : List ℕ) : Except Fault (Option Received) :=
  startReceivingData .exact wholeChunks ⟨[], none⟩ true 0
    (arrivals (tenBytes.take 8) ks ++ List.replicate 60 .timeout)

theorem lives_wholeChunks : Lives .exact .little wholeChunks ⟨[], none⟩ :=
  .other (.free [] ⟨rfl, rfl⟩) rfl rfl

/-- The second of two packets is received: the first is reported missing, and requested. -/
theorem reported_requested_first :
    ∃ rec ctx restored received requested, receiveWhole [1] = .ok (some rec) ∧
    rec.session.hookCtx = some ctx ∧ ctx.segments.segments = [⟨1, 1⟩] ∧
    apmOnDeserialize .little emptySlot (apmOnSerialize .little rec.session rec.disk) =
      .ok restored ∧
    restored.hookCtx = some ⟨0, initSegmentsCtx, some received⟩ ∧
    segmentsToRequest restored.request restored.payloadSize received = .ok requested ∧
    (missingSegments rec.session ctx.segments).segments = requested.segments := by
  have hrun : (receiveWhole [1]).toOption.join.any
    (fun rec => decide ((wholeChunks.closing rec.log).broken = false ∧
      rec.session.request.mtu = 12 ∧ rec.session.payloadSize = 8 ∧
      rec.session.hookCtx.map (fun ctx => ctx.segments.segments) = some [⟨1, 1⟩])) = true := by
    decide +kernel
  obtain ⟨rec, hrec, hdefined, hmtu, hsize, hsegments⟩ := returned_of_any hrun
  obtain ⟨ctx, hctx, hsegments⟩ := Option.map_eq_some_iff.mp hsegments
  obtain ⟨restored, received, requested, hread, hreceived, hrequested, hsame, -⟩ :=
    reported_requested_iff lives_wholeChunks hrec
    hdefined hctx (by rw [hmtu]; decide) (by rw [hsize]; decide) emptySlot
  refine ⟨rec, ctx, restored, received, requested, hrec, hctx, hsegments, hread, hreceived,
    hrequested, hsame (Or.inr ?_)⟩
  rw [hsegments, hsize, MetaReq.eff, hmtu]
  exact ⟨by decide, by decide⟩

/-- The first of two packets is received: nothing is reported missing, and packets `1` and `2` are
requested. -/
theorem reported_nothing :
    ∃ rec ctx restored received requested, Lives .exact .little wholeChunks ⟨[], none⟩ ∧
    receiveWhole [0] = .ok (some rec) ∧ (wholeChunks.closing rec.log).broken = false ∧
      rec.session.hookCtx = some ctx ∧
    8 < rec.session.request.mtu.toNat ∧ 0 < rec.session.payloadSize.toNat ∧
    apmOnDeserialize .little emptySlot (apmOnSerialize .little rec.session rec.disk) =
      .ok restored ∧
    restored.hookCtx = some ⟨0, initSegmentsCtx, some received⟩ ∧
    (missingSegments rec.session ctx.segments).segments = [] ∧
    segmentsToRequest restored.request restored.payloadSize received = .ok requested ∧
      requested.segments = [⟨1, 2⟩] := by
  have hrun : (receiveWhole [0]).toOption.join.any
    (fun rec => decide ((wholeChunks.closing rec.log).broken = false ∧
      8 < rec.session.request.mtu.toNat ∧ 0 < rec.session.payloadSize.toNat ∧
      rec.session.hookCtx.any
        (fun ctx => decide ((missingSegments rec.session ctx.segments).segments = [] ∧
        (apmOnDeserialize .little emptySlot
          (apmOnSerialize .little rec.session rec.disk)).toOption.any (fun restored => decide
          (restored.hookCtx = some ⟨0, initSegmentsCtx, some ctx.segments.reread⟩ ∧
            (segmentsToRequest restored.request restored.payloadSize
              ctx.segments.reread).toOption.any (fun requested => decide
              (requested.segments = [⟨1, 2⟩])) = true)) = true)) = true)) = true := by
    decide +kernel
  obtain ⟨rec, hrec, hdefined, hm, hsize, hall⟩ := returned_of_any hrun
  obtain ⟨ctx, hctx, hall⟩ := (Option.any_eq_true _ _).mp hall
  obtain ⟨hmissing, hall⟩ := of_decide_eq_true hall
  obtain ⟨restored, hread, hreceived, hall⟩ := ok_of_any hall
  obtain ⟨requested, hrequested, hsegments⟩ := ok_of_any hall
  exact ⟨rec, ctx, restored, _, requested, lives_wholeChunks, hrec, hdefined, hctx, hm, hsize,
    hread, hreceived, hmissing,
    hrequested, hsegments⟩

end LibDtp
