import LibDtp.Client.History
import LibDtp.Foundation.Gaps

/-!
# A download comes to its end

How many sessions a download takes. Each session that is resumed asks for what the first eight gaps
are made of, and is refused when no gap is left. What is asked for are gaps before packet `size /
eff`: the last packet, if it is shorter than the others, is not asked for on its own.

## The model

`Productive` is said of a session that takes at least one packet, and `AllTaken` of one that takes
all that it has asked for. `gapEnds` counts the gaps.

## What is proved

* `Session.Saved.asks` — what a session that is resumed asks for.
* `download_converges` — if every session takes a packet, there are at most as many as packets, and
  a refusal means that the file has every full packet.
* `gaps_closed` — if every session that is resumed takes all that it has asked for, each closes
  eight gaps.
-/

namespace LibDtp

open Bytes Chunks Files Ranges

/-! ### What is asked for -/

section Missing

variable {l : List Range} {stop : ℕ}

/-- All that is missing before the bound is collected, if there is anything in the list. -/
theorem mem_cover_missing_iff (h : Canonical l) (hne : l ≠ []) (hle : ∀ r ∈ l, r.hi ≤ stop) {k : ℕ}
    (hk : k < stop) :
    k ∈ cover (missing stop l) ↔ k ∉ cover l := by
  rw [missing_eq_missingFrom h hne hle, mem_cover_missingFrom h fun r _ => Nat.zero_le _]
  constructor
  · exact fun hmem => hmem.2.1
  · intro hnot
    refine ⟨Nat.zero_le k, hnot, ?_⟩
    omega

/-- What is collected begins before the bound. -/
theorem lo_lt_of_mem_missing (h : Canonical l) (hne : l ≠ []) (hle : ∀ r ∈ l, r.hi ≤ stop)
    {g : Range} (hg : g ∈ missing stop l) : g.lo < stop := by
  rw [missing_eq_missingFrom h hne hle, missingFrom, List.mem_append] at hg
  rcases hg with hg | hg
  · obtain ⟨-, hvalid, r, hr, hhi⟩ := mem_gaps h (fun r _ => Nat.zero_le _) hg
    have hr' := h.valid r hr
    have := hle r hr
    omega
  · split_ifs at hg with hlt
    · rw [List.mem_singleton.mp hg]
      exact hlt
    · cases hg

end Missing

/-- The packets of intervals that are made of segments. -/
theorem mem_numbers_of_segments {n : ℕ} {l : List Segment}
    (hmax : ∀ s ∈ l, s.stop.toNat < 2 ^ 32 - 1) {k : ℕ} :
    k ∈ (l.map Segment.interval).flatMap (·.numbers n) ↔ k ∈ cover (ranges l) ∧ k < n := by
  rw [List.mem_flatMap, mem_cover]
  constructor
  · rintro ⟨i, hi, hk⟩
    obtain ⟨s, hs, rfl⟩ := List.mem_map.mp hi
    obtain ⟨h1, h2, h3⟩ := (Interval.mem_numbers_closed (hmax s hs) k).mp hk
    exact ⟨⟨s.range, mem_ranges hs, h1, h2⟩, h3⟩
  · rintro ⟨⟨r, hr, h1, h2⟩, h3⟩
    obtain ⟨s, hs, rfl⟩ := List.mem_map.mp hr
    exact ⟨s.interval, List.mem_map_of_mem hs, (Interval.mem_numbers_closed (hmax s hs) k).mpr
      ⟨h1, h2, h3⟩⟩

/-- The gaps that a session asks to fill. -/
structure Session.Asks (payload : List UInt8) (eff : ℕ) (covered : Finset ℕ) (r : MetaReq)
    (gaps : List Range) : Prop where
  /-- They are in order. -/
  canonical : Canonical gaps
  /-- They have all that is missing among the full packets. -/
  missing : ∀ k < payload.length / eff, k ∈ cover gaps ↔ k ∉ covered
  /-- Each begins among the full packets. -/
  lo_lt : ∀ g ∈ gaps, g.lo < payload.length / eff
  /-- The first eight are asked for. -/
  numbers : ∀ k, k ∈ r.numbers (count payload.length eff) ↔ k ∈ cover (gaps.take 8) ∧
    k < count payload.length eff

section Asks

variable {payload : List UInt8} {s : Session} (hs : s.Saved payload)
  (hsum : payload.length + s.request.eff < 2 ^ 32) (hne : s.covered ≠ ∅)

include hs hsum hne

theorem Session.Saved.asks_request {ctx : HookCtx} (hctx : s.hookCtx = some ctx) {r q : MetaReq}
    (hmtu : r.mtu = s.request.mtu)
    (hq : requestMissing r s.payloadSize ctx.segments.reread = .ok q) :
    ∃ gaps, Session.Asks payload s.request.eff s.covered q gaps := by
  obtain ⟨-, rfl⟩ := requestMissing_of_ok hq
  have he := MetaReq.eff_pos hs.mtu
  obtain ⟨ctx', l, hctx', hl, hcanon⟩ := hs.hookCtx
  obtain rfl : ctx' = ctx := Option.some.inj (hctx'.symm.trans hctx)
  have hcov : s.covered = cover l := by
    rw [s.covered_of_hookCtx hctx, SegmentsCtx.covered, hl.segments]
  have hnil : l ≠ [] := by
    rintro rfl
    exact hne hcov
  have hstop := hs.toNat_end hmtu
  have hcount : count payload.length s.request.eff ≤ payload.length / s.request.eff + 1 :=
    count_le_div_add_one he
  have hdiv : payload.length / s.request.eff ≤ payload.length := Nat.div_le_self _ _
  have hle : ∀ t ∈ ctx'.segments.segments, t.stop.toNat ≤ payload.length / s.request.eff := by
    intro t ht
    have := hs.stop_lt hctx hl hcanon ht
    omega
  have hle' : ∀ g ∈ l, g.hi ≤ payload.length / s.request.eff := by
    intro g hg
    rw [← hl.segments] at hg
    obtain ⟨t, ht, rfl⟩ := List.mem_map.mp hg
    exact hle t ht
  have hcomp :=
    @getComplementSegment_eq ctx'.segments.reread (by rw [← hl.segments] at hcanon; exact hcanon)
    (fun t ht => by have := hle t ht; omega) (s.payloadSize.toUInt64 / r.chunk).toUInt32
  rw [show ranges ctx'.segments.reread.segments = l from hl.segments, hstop] at hcomp
  have hcanonical := canonical_missing hcanon hle'
  have hbound : ∀ g ∈ missing (payload.length / s.request.eff) l,
      g.hi ≤ payload.length / s.request.eff := fun g hg =>
    (mem_cover_missing hcanon hle' (mem_cover.mpr ⟨g, hg, hcanonical.valid g hg, le_rfl⟩)).1
  have hlen : (missing (payload.length / s.request.eff) l).length ≤ payload.length / s.request.eff +
    1 :=
    hcanonical.length_le fun g hg => by
      have := hbound g hg
      have := hcanonical.valid g hg
      omega
  obtain ⟨hrequested, -⟩ := requestSegments_spec hcomp (by omega) r
  refine ⟨_, hcanonical, fun k hk => ?_, fun g hg => lo_lt_of_mem_missing hcanon hnil hle' hg,
    fun k => ?_⟩
  · rw [hcov]
    exact mem_cover_missing_iff hcanon hnil hle' hk
  · rw [MetaReq.numbers, hrequested, mem_numbers_of_segments, ← hcomp.segments, ranges, ranges,
      List.map_take]
    intro t ht
    have hmem := mem_ranges (List.mem_of_mem_take ht)
    rw [hcomp.segments] at hmem
    have : t.stop.toNat ≤ payload.length / s.request.eff := hbound _ hmem
    omega

/-- What a session that is resumed asks for. -/
theorem Session.Saved.asks {host : ByteOrder} {slot s' : Session} {p : Params} {d : Disk}
    (hslot : slot.Free) (h : prepareSession host slot p true (apmOnSerialize host s d) = .ok s') :
    ∃ gaps, Session.Asks payload s.request.eff s.covered s'.request gaps := by
  obtain ⟨ctx, l, hctx, hl, hcanon⟩ := hs.hookCtx
  have hnof := hs.toNat_nofSegments hctx hl hcanon
  obtain ⟨q, hq, hprepare⟩ := prepareSession_apmOnSerialize host hctx hnof hs.mtu hslot p d
  rw [hprepare] at h
  split_ifs at h
  obtain rfl := Except.ok.inj h
  obtain ⟨gaps, hgaps⟩ := hs.asks_request hsum hne hctx (by rfl) hq
  exact ⟨gaps, hgaps.canonical, hgaps.missing, hgaps.lo_lt, hgaps.numbers⟩

end Asks

/-- Full packets are packets. -/
theorem div_le_count {size eff : ℕ} (heff : 0 < eff) : size / eff ≤ count size eff := by
  by_cases hdvd : eff ∣ size
  · rw [count_of_dvd heff hdvd]
  · rw [count_of_not_dvd heff hdvd]
    exact Nat.le_succ _

/-- The first packet that is missing is asked for. Otherwise the first gap would begin before it. -/
theorem Session.Asks.first_mem {payload : List UInt8} {eff k : ℕ} {covered : Finset ℕ} {r : MetaReq}
    {gaps : List Range} (h : Session.Asks payload eff covered r gaps) (heff : 0 < eff)
    (hk : k < payload.length / eff) (hnot : k ∉ covered) (hbelow : ∀ j < k, j ∈ covered) :
    k ∈ r.numbers (count payload.length eff) := by
  have hle : payload.length / eff ≤ count payload.length eff := div_le_count heff
  refine (h.numbers k).mpr ⟨?_, by omega⟩
  have hmem := (h.missing k hk).mpr hnot
  have hcanonical := h.canonical
  have hlo := h.lo_lt
  have hmissing := h.missing
  cases gaps with
  | nil => exact absurd hmem (Finset.notMem_empty k)
  | cons g gaps =>
    rw [List.take_succ_cons, cover_cons, Finset.mem_union]
    rw [cover_cons, Finset.mem_union] at hmem
    refine Or.inl (hmem.resolve_right fun hrest => ?_)
    obtain ⟨r, hr, h1, h2⟩ := mem_cover.mp hrest
    have happart : g.hi + 1 < r.lo := (List.pairwise_cons.mp hcanonical.apart).1 r hr
    have hvalid := hcanonical.valid g (List.mem_cons_self ..)
    have hg := hlo g (List.mem_cons_self ..)
    exact (hmissing g.lo hg).mp (mem_cover.mpr ⟨g, List.mem_cons_self .., le_rfl, hvalid⟩)
      (hbelow g.lo (by omega))

/-! ### Sessions that get on -/

/-- Some of the packets that were sent for this session arrive in the order in which they were sent,
and it takes one. -/
def Productive (payload : List UInt8) (h : List Episode) (e : Episode) : Prop :=
  InOrder payload h e ∧ e.received.numbers ≠ []

/-- And if it is resumed, it takes all that it has asked for. -/
def AllTaken (payload : List UInt8) (h : List Episode) (e : Episode) : Prop :=
  Productive payload h e ∧
    (h ≠ [] → ∀ k ∈ e.session.request.numbers (count payload.length e.session.request.eff),
    k ∈ e.received.numbers)

theorem History.and_of_suffix {E : ErrorTest} {host : ByteOrder} {payload : List UInt8}
    {mtu : UInt16} {P Q : List Episode → Episode → Prop} {hs : List Episode}
    (hist : History E host payload mtu P hs) (hQ : ∀ e h, e :: h <:+ hs → Q h e) :
    History E host payload mtu (fun h e => P h e ∧ Q h e) hs := by
  induction hist with
  | fresh hslot hmtu hthroughput hs he hallows =>
    exact .fresh hslot hmtu hthroughput hs he ⟨hallows, hQ _ _ List.suffix_rfl⟩
  | resume hh hslot hs he hallows ih =>
    exact .resume (ih fun e h hsuffix => hQ e h (hsuffix.trans (List.suffix_cons _ _))) hslot hs he
      ⟨hallows, hQ _ _ List.suffix_rfl⟩

section Sessions

variable {E : ErrorTest} {host : ByteOrder} {payload : List UInt8} {mtu : UInt16}

section Continues

variable {before : Option Episode} {e : Episode} {h : List Episode}
  (hcont : e.Continues E payload mtu before) (hlt : payload.length < 2 ^ 32)
  (hin : InOrder payload h e)

include hcont hlt hin

/-- A session adds the packets that it takes, and has had none of them before. -/
theorem Episode.Continues.covered_eq :
    e.received.session.covered = e.session.resumed ∪ e.received.numbers.toFinset ∧
    Disjoint e.session.resumed e.received.numbers.toFinset := by
  have hsorted := hcont.numbers_sorted hlt hin
  obtain ⟨sent, hsent, hdelivery⟩ := hin
  obtain ⟨-, -, -, hcovered⟩ := hcont.ends
  exact ⟨hcovered (hsorted.imp le_of_lt), hcont.numbers_new hlt hsent hdelivery.subset⟩

/-- A session takes only packets that it has asked for. -/
theorem Episode.Continues.numbers_asked : ∀ k ∈ e.received.numbers,
    k ∈ e.session.request.numbers (count payload.length e.session.request.eff) := by
  obtain ⟨sent, hsent, hdelivery⟩ := hin
  obtain ⟨d, -, hfrom⟩ := hcont.received
  intro k hk
  obtain ⟨p, hp, rfl⟩ := List.mem_map.mp hk
  obtain ⟨k, hk, hchunk⟩ := hcont.ready.isChunk hlt hsent (hdelivery.subset (hfrom.mem hp))
  rw [hfrom.request, hchunk.number_eq hcont.ready.usable.mtu]
  exact hk

theorem Episode.Continues.countsExactly (hbefore : ∀ last ∈ before, last.Accounted payload mtu) :
    e.CountsExactly := by
  obtain ⟨hcov, hnew⟩ := hcont.covered_eq hlt hin
  have hsorted := hcont.numbers_sorted hlt hin
  have hresumed : e.session.bytesReceived.toNat = ∑ k ∈ e.session.resumed,
      len payload.length (mtu.toNat - 8) k := by
    rw [hcont.bytesReceived, hcont.resumed]
    cases before with
    | none => rfl
    | some last => exact hbefore last rfl
  have hnumbers : dataBytes (acceptedOf e.received.log) =
      ∑ k ∈ e.received.numbers.toFinset, len payload.length (mtu.toNat - 8) k := by
    rw [hcont.dataBytes_eq, hcont.eff_eq, List.sum_toFinset _ (hsorted.imp ne_of_lt)]
  have hle := sum_len_le hcont.eff_pos hcont.covered_subset
  rw [hcov, Finset.sum_union hnew, ← hresumed, ← hnumbers] at hle
  exact lt_of_le_of_lt hle hlt

end Continues

variable (hmtu : 8 < mtu.toNat) (hsum : payload.length + (mtu.toNat - 8) < 2 ^ 32) {e : Episode}
  {h : List Episode}

include hmtu hsum

/-- If packets are delivered in order, the file has every packet in the segments of a session. -/
theorem History.keeps (hist : History E host payload mtu (InOrder payload) (e :: h)) :
    e.Keeps payload mtu := by
  refine (hist.invariant (P := fun e => e.Accounted payload mtu ∧ e.Keeps payload mtu) hmtu hsum
    (fun _ _ hin => hin.anyOrder) (fun h e hcont hin hlast => ?_) e rfl).2
  have hbefore : ∀ last ∈ h.head?, last.Accounted payload mtu :=
    fun last hmem => (hlast last hmem).1
  exact ⟨hcont.accounted (by omega) hin hbefore,
    hcont.keeps (hcont.countsExactly (by omega) hin hbefore) fun last hmem => (hlast last hmem).2⟩

/-- What a session asks for when it is resumed after `last`. -/
theorem History.asks {last : Episode}
    (hist : History E host payload mtu (InOrder payload) (e :: last :: h))
    (hne : last.received.session.covered ≠ ∅) :
    ∃ gaps, Session.Asks payload
      (mtu.toNat - 8) last.received.session.covered e.session.request gaps := by
  cases hist with
  | @resume slot s p _ _ _ hh hslot hs he hallows =>
    obtain ⟨hcont, -⟩ := hh.accounted hmtu hsum
    obtain ⟨hsaved, -⟩ := hcont.ends
    have heff : last.received.session.request.eff = mtu.toNat - 8 := by
      rw [hcont.request_eq, hcont.eff_eq]
    have hasks := hsaved.asks (by rwa [heff]) hne hslot hs
    rwa [heff, show s.request = e.session.request by rw [he.session]] at hasks

/-- Each session that takes a packet has at least one more than the one before it. -/
theorem History.length_le {hs : List Episode}
    (hist : History E host payload mtu (Productive payload) hs) :
    ∀ e ∈ hs.head?, hs.length ≤ e.received.session.covered.card := by
  have hgrows : ∀ {e h}, History E host payload mtu (Productive payload) (e :: h) →
      (h.head?.elim ∅ fun last => last.received.session.covered).card + 1 ≤
          e.received.session.covered.card := by
    intro e h hist
    have hin : InOrder payload h e ∧ e.received.numbers ≠ [] := by cases hist <;> assumption
    obtain ⟨hcont, -⟩ := (hist.mono fun _ _ hprod => hprod.1).accounted hmtu hsum
    obtain ⟨hcov, hnew⟩ := hcont.covered_eq (by omega) hin.1
    have hpos : 0 < e.received.numbers.toFinset.card := by
      rw [Finset.card_pos, List.toFinset_nonempty_iff]
      exact hin.2
    rw [hcov, Finset.card_union_of_disjoint hnew, ← hcont.resumed]
    omega
  induction hist with
  | fresh hslot hmtu' hthroughput hs he hallows =>
    rintro _ ⟨rfl⟩
    exact hgrows (.fresh hslot hmtu' hthroughput hs he hallows)
  | @resume slot s p last e h hh hslot hs he hallows ih =>
    rintro _ ⟨rfl⟩
    have hlast := ih last rfl
    have hmore := hgrows (.resume hh hslot hs he hallows)
    exact (Nat.add_le_add_right hlast 1).trans hmore

/-- A session that has taken a packet has one. -/
theorem History.covered_ne_empty (hist : History E host payload mtu (Productive payload) (e :: h)) :
    e.received.session.covered ≠ ∅ := by
  have hlen := hist.length_le hmtu hsum e rfl
  rw [List.length_cons] at hlen
  exact (Finset.card_pos.mp (by omega)).ne_empty

/-- The next session is refused if and only if no full packet is missing. -/
theorem History.refused_iff (hist : History E host payload mtu (Productive payload) (e :: h))
    {slot : Session} (hslot : slot.Free) (p : Params) :
    prepareSession host slot p true (e.saved host) = .error .sessionExhausted ↔
      Finset.range (payload.length / (mtu.toNat - 8)) ⊆ e.received.session.covered := by
  have hne := hist.covered_ne_empty hmtu hsum
  obtain ⟨hcont, haccounted⟩ := (hist.mono fun _ _ hprod => hprod.1).accounted hmtu hsum
  have he := hcont.eff_pos
  have heff : e.received.session.request.eff = mtu.toNat - 8 := by
    rw [hcont.request_eq, hcont.eff_eq]
  have hrefused := @exhausted_iff payload host slot e.received.session p e.received.disk hslot
    hcont.ends.1 (by rwa [heff])
  rw [Episode.saved, hrefused, heff, haccounted, sum_len_eq_iff he hcont.covered_subset]
  constructor
  · rintro (hall | hempty | hfull)
    · rw [hall]
      exact Finset.range_subset_range.mpr (div_le_count he)
    · exact absurd hempty hne
    · exact hfull
  · exact fun hfull => Or.inr (Or.inr hfull)

/-- Each session that takes all that it has asked for closes eight gaps, and was not refused because
there was one. -/
theorem History.closes {last : Episode}
    (hist : History E host payload mtu (AllTaken payload) (e :: last :: h)) :
    (gapEnds (payload.length / (mtu.toNat - 8)) e.received.session.covered).card =
        (gapEnds (payload.length / (mtu.toNat - 8)) last.received.session.covered).card - 8 ∧
      0 < (gapEnds (payload.length / (mtu.toNat - 8)) last.received.session.covered).card := by
  cases hist with
  | @resume slot s p _ _ _ hh hslot hs he hallows =>
    have hprod := hh.mono fun _ _ hall => hall.1
    have hin : History E host payload mtu (InOrder payload) (e :: last :: h) :=
      .resume (hprod.mono fun _ _ hprod => hprod.1) hslot hs he hallows.1.1
    obtain ⟨hcont, -⟩ := hin.accounted hmtu hsum
    have hne := hprod.covered_ne_empty hmtu hsum
    obtain ⟨gaps, hgaps⟩ := hin.asks hmtu hsum hne
    obtain ⟨hcov, -⟩ := hcont.covered_eq (by omega) hallows.1.1
    have hasked := hcont.numbers_asked (by omega) hallows.1.1
    have htaken := hallows.2 (List.cons_ne_nil _ _)
    rw [hcont.resumed_of_mem rfl] at hcov
    rw [hcont.eff_eq] at hasked htaken
    constructor
    · refine card_gapEnds_fill hgaps.canonical hgaps.missing hgaps.lo_lt fun k hk => ?_
      have hcount : k < count payload.length (mtu.toNat - 8) :=
        lt_of_lt_of_le hk (div_le_count hcont.eff_pos)
      rw [hcov, Finset.mem_union, List.mem_toFinset]
      refine or_congr_right ⟨fun hmem => ?_, fun hmem => ?_⟩
      · exact ((hgaps.numbers k).mp (hasked k hmem)).1
      · exact htaken k ((hgaps.numbers k).mpr ⟨hmem, hcount⟩)
    · have hrefused := hprod.refused_iff hmtu hsum hslot p
      rw [hs] at hrefused
      rw [Finset.card_pos, Finset.nonempty_iff_ne_empty, ne_eq, gapEnds_eq_empty_iff, ← hrefused]
      simp

/-- The gaps that are left, and a bound on the number of sessions that are resumed. -/
theorem History.gaps_left {hs : List Episode}
    (hist : History E host payload mtu (AllTaken payload) hs) (hne : hs ≠ []) :
    (gapEnds (payload.length / (mtu.toNat - 8)) (hs.head hne).received.session.covered).card =
        (gapEnds (payload.length / (mtu.toNat - 8))
          (hs.getLast hne).received.session.covered).card - 8 * (hs.length - 1) ∧
      8 * (hs.length - 1) < (gapEnds (payload.length / (mtu.toNat - 8))
        (hs.getLast hne).received.session.covered).card + 8 := by
  induction hist with
  | fresh => simp
  | @resume slot s p last e h hh hslot hs he hallows ih =>
    obtain ⟨hleft, hbound⟩ := ih (List.cons_ne_nil _ _)
    obtain ⟨hstep, hpos⟩ := History.closes hmtu hsum (.resume hh hslot hs he hallows)
    rw [List.getLast_cons (List.cons_ne_nil _ _)]
    simp only [List.head_cons, List.length_cons, Nat.add_sub_cancel] at hleft hbound hstep hpos ⊢
    omega

end Sessions

/-! ### How many sessions a download takes -/

section Downloads

variable (E : ErrorTest) (host : ByteOrder) {payload : List UInt8} {mtu : UInt16}
  (hmtu : 8 < mtu.toNat) (hsum : payload.length + (mtu.toNat - 8) < 2 ^ 32) {e : Episode}
  {h : List Episode} {slot : Session} (hslot : slot.Free) (p : Params)

include hmtu hsum hslot

/-- If packets are delivered in order, possibly with losses, and every session takes a packet, there
are at most as many sessions as packets. A next session is refused if and only if no full packet is
missing, and the file then has them all; otherwise it asks for the first full packet that is
missing. A packet carries data (`hmtu`), and the payload and one more packet have less than `2 ^ 32`
bytes (`hsum`). -/
theorem download_converges (hist : History E host payload mtu (Productive payload) (e :: h)) :
    (e :: h).length ≤ count payload.length (mtu.toNat - 8) ∧
      (prepareSession host slot p true (e.saved host) = .error .sessionExhausted ↔
        ∀ k < payload.length / (mtu.toNat - 8), k ∈ e.received.session.covered) ∧
      (prepareSession host slot p true (e.saved host) = .error .sessionExhausted →
        ∀ k < payload.length / (mtu.toNat - 8),
          FileHas payload (mtu.toNat - 8) e.received.disk.output k) ∧
      ∀ s, prepareSession host slot p true (e.saved host) = .ok s →
        ∃ k < payload.length / (mtu.toNat - 8),
        k ∉ e.received.session.covered ∧ (∀ j < k, j ∈ e.received.session.covered) ∧
          k ∈ s.request.numbers (count payload.length (mtu.toNat - 8)) := by
  have hin := hist.mono fun _ _ hprod => hprod.1
  obtain ⟨hcont, -⟩ := hin.accounted hmtu hsum
  have hrefused := hist.refused_iff hmtu hsum hslot p
  have hall : Finset.range (payload.length / (mtu.toNat - 8)) ⊆ e.received.session.covered ↔
      ∀ k < payload.length / (mtu.toNat - 8), k ∈ e.received.session.covered :=
    ⟨fun hsub k hk => hsub (Finset.mem_range.mpr hk), fun hmem k hk =>
      hmem k (Finset.mem_range.mp hk)⟩
  rw [hall] at hrefused
  refine ⟨?_, hrefused, fun hstop k hk => ?_, fun s hs => ?_⟩
  · have hcard := Finset.card_le_card hcont.covered_subset
    rw [Finset.card_range] at hcard
    exact (hist.length_le hmtu hsum e rfl).trans hcard
  · exact (hin.keeps hmtu hsum).file k (hrefused.mp hstop k hk)
  · have hmissing : ∃ k, k < payload.length / (mtu.toNat - 8) ∧ k ∉ e.received.session.covered := by
      by_contra hnone
      push Not at hnone
      rw [hrefused.mpr hnone] at hs
      cases hs
    have heff : e.received.session.request.eff = mtu.toNat - 8 := by
      rw [hcont.request_eq, hcont.eff_eq]
    obtain ⟨gaps, hgaps⟩ :=
      hcont.ends.1.asks (by rwa [heff]) (hist.covered_ne_empty hmtu hsum) hslot hs
    rw [heff] at hgaps
    have hbelow : ∀ j < Nat.find hmissing, j ∈ e.received.session.covered := by
      intro j hj
      by_contra hnot
      have := (Nat.find_spec hmissing).1
      exact Nat.find_min hmissing hj ⟨by omega, hnot⟩
    obtain ⟨hlt, hnot⟩ := Nat.find_spec hmissing
    exact ⟨_, hlt, hnot, hbelow, hgaps.first_mem hcont.eff_pos hlt hnot hbelow⟩

/-- If the first session takes a packet and every session that is resumed takes all that it has
asked for, each in order, `g` gaps between full packets that the first session has left are closed
in `g / 8` more, rounded up: it is then, and only then, that the next one is refused. The sizes are
as above. -/
theorem gaps_closed (hist : History E host payload mtu (AllTaken payload) (e :: h)) :
    (gapEnds (payload.length / (mtu.toNat - 8)) e.received.session.covered).card =
        (gapEnds (payload.length / (mtu.toNat - 8))
          ((e :: h).getLast (List.cons_ne_nil e h)).received.session.covered).card - 8 * h.length ∧
      (prepareSession host slot p true (e.saved host) = .error .sessionExhausted ↔
        h.length = ((gapEnds (payload.length / (mtu.toNat - 8))
          ((e :: h).getLast (List.cons_ne_nil e h)).received.session.covered).card + 7) / 8) := by
  obtain ⟨hleft, hbound⟩ := hist.gaps_left hmtu hsum (List.cons_ne_nil e h)
  rw [List.head_cons, List.length_cons, Nat.add_sub_cancel] at hleft
  rw [List.length_cons, Nat.add_sub_cancel] at hbound
  refine ⟨hleft, ?_⟩
  rw [(hist.mono fun _ _ hall => hall.1).refused_iff hmtu hsum hslot p, ← gapEnds_eq_empty_iff,
    ← Finset.card_eq_zero, hleft]
  omega

end Downloads

/-- A payload of twenty full packets. -/
def eightyBytes : List UInt8 := List.replicate 80 7

/-- Some packets of it arrive, and nothing more until the session times out. -/
def arrivalsEighty (ks : List ℕ) : List RecvEvent :=
  arrivals eightyBytes ks ++ List.replicate 60 .timeout

/-- What is delivered is a part of what a server sends in its first steps, and something is taken.
-/
def Episode.TakesSome (payload : List UInt8) (e : Episode) : Prop :=
  e.delivered.Sublist (serverRun payload e.session.request 40) ∧ e.received.numbers ≠ []

instance (payload : List UInt8) : DecidablePred (Episode.TakesSome payload) :=
  fun _ => inferInstanceAs (Decidable (_ ∧ _))

theorem Episode.TakesSome.productive {payload : List UInt8} (hlt : payload.length < 2 ^ 32)
    (e : Episode) (he : e.TakesSome payload) (h : List Episode) : Productive payload h e :=
  ⟨⟨_, serverSends_serverRun hlt _ 40, delivery_of_sublist he.1⟩, he.2⟩

/-- All that was asked for has been taken. -/
def Episode.TakesAll (payload : List UInt8) (e : Episode) : Prop :=
  ∀ k ∈ e.session.request.numbers (count payload.length e.session.request.eff),
    k ∈ e.received.numbers

instance (payload : List UInt8) : DecidablePred (Episode.TakesAll payload) :=
  fun _ => inferInstanceAs (Decidable (∀ k ∈ _, _))

/-- Three of the packets that are missing arrive in the second session; the third is to ask for
packet `4`. -/
theorem download_converges_lossy :
    ∃ e₁ e₂ : Episode, e₁.received.session.covered = {1, 3, 5, 7, 9, 11, 13, 15, 17} ∧
    e₂.received.session.covered = {0, 1, 2, 3, 5, 7, 8, 9, 11, 13, 15, 17} ∧
    ∀ s, prepareSession .little emptySlot fourByteChunks true (e₂.saved .little) = .ok s →
      ∃ k < 20, k ∉ e₂.received.session.covered ∧ (∀ j < k, j ∈ e₂.received.session.covered) ∧
        k ∈ s.request.numbers 20 := by
  obtain ⟨hs, hist, hmap⟩ :=
    history_sessions (@Episode.TakesSome.productive eightyBytes (by decide)) eightyBytes
    [arrivalsEighty [0, 2, 8], arrivalsEighty [1, 3, 5, 7, 9, 11, 13, 15, 17]]
      (fun e => e.received.session.covered)
    [{0, 1, 2, 3, 5, 7, 8, 9, 11, 13, 15, 17}, {1, 3, 5, 7, 9, 11, 13, 15, 17}] (by decide +kernel)
  obtain ⟨e₂, h, rfl, h2, hmap⟩ := List.map_eq_cons_iff.mp hmap
  obtain ⟨e₁, rfl, h1⟩ := List.map_eq_singleton_iff.mp hmap
  have hslot : emptySlot.Free := ⟨rfl, rfl⟩
  exact ⟨e₁, e₂, h1, h2,
    (download_converges .exact .little (by decide) (by decide) hslot fourByteChunks hist).2.2.2⟩

/-- Ten gaps are closed in two sessions. -/
theorem gaps_closed_ten : ∃ e₁ e₂ e₃ : Episode,
    (gapEnds 20 e₁.received.session.covered).card = 10 ∧
      (gapEnds 20 e₂.received.session.covered).card = 2 ∧
      (gapEnds 20 e₃.received.session.covered).card = 0 ∧
      prepareSession .little emptySlot fourByteChunks true (e₃.saved .little) =
        .error .sessionExhausted := by
  obtain ⟨hs, hist, hmap⟩ :=
    history_sessions (@Episode.TakesSome.productive eightyBytes (by decide)) eightyBytes
    [arrivalsEighty [16, 18, 19], arrivalsEighty [0, 2, 4, 6, 8, 10, 12, 14],
      arrivalsEighty [1, 3, 5, 7, 9, 11, 13, 15, 17]]
    (fun e => (decide (e.TakesAll eightyBytes), (gapEnds 20 e.received.session.covered).card))
    [(true, 0), (true, 2), (false, 10)] (by decide +kernel)
  obtain ⟨e₃, h, rfl, h3, hmap⟩ := List.map_eq_cons_iff.mp hmap
  obtain ⟨e₂, h, rfl, h2, hmap⟩ := List.map_eq_cons_iff.mp hmap
  obtain ⟨e₁, rfl, h1⟩ := List.map_eq_singleton_iff.mp hmap
  have htaken : History .exact .little eightyBytes 12 (AllTaken eightyBytes) [e₃, e₂, e₁] := by
    refine hist.and_of_suffix fun e h hsuffix hne => ?_
    simp only [List.suffix_cons_iff, List.cons.injEq, List.suffix_nil, reduceCtorEq, or_false]
      at hsuffix
    rcases hsuffix with ⟨rfl, -⟩ | ⟨rfl, -⟩ | ⟨-, rfl⟩
    · exact of_decide_eq_true (Prod.mk.inj h3).1
    · exact of_decide_eq_true (Prod.mk.inj h2).1
    · exact absurd rfl hne
  have hslot : emptySlot.Free := ⟨rfl, rfl⟩
  obtain ⟨hleft, hrefused⟩ :=
    gaps_closed .exact .little (by decide) (by decide) hslot fourByteChunks htaken
  have hfirst : (gapEnds (eightyBytes.length / ((12 : UInt16).toNat - 8))
      ([e₃, e₂, e₁].getLast (List.cons_ne_nil _ _)).received.session.covered).card =
        10 := (Prod.mk.inj h1).2
  rw [hfirst] at hleft hrefused
  exact ⟨e₁, e₂, e₃, (Prod.mk.inj h1).2, (Prod.mk.inj h2).2, hleft, hrefused.mpr rfl⟩

end LibDtp
