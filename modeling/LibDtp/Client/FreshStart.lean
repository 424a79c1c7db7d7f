import LibDtp.Client.Append
import LibDtp.Client.MetaFile

/-!
# Resuming without a meta file

`dtp_prepare_session` falls back to a fresh download if `apm_on_deserialize` reports an error. It
reports one only if the meta file cannot be opened. A file of another version is passed over, and
the session keeps what the slot's previous user has left in it; a file that is cut off is read as
far as it goes.

## What is proved

* `complement_ne_whole` — the complement of the segments in a file that is cut off is never the
  whole payload, as it is asked for by a fresh download.
* `fresh_start_iff` — when a session that is resumed from a file that is missing, cut off or of
  another version is configured as a fresh one.
-/

namespace LibDtp

open Bytes Files Runs

/-! ### Appending to a complement -/

/-- Where the ends of the segments come from. -/
theorem stop_appendWalk {c x : Segment} {l : List Segment} (h : x ∈ (appendWalk c l).1) :
    x.stop = c.stop ∨ ∃ r ∈ l, x.stop = r.stop := by
  induction l with
  | nil =>
    obtain rfl := List.mem_singleton.mp h
    exact Or.inl rfl
  | cons r rs ih =>
    have hrest : x ∈ r :: (appendWalk c rs).1 → x.stop = c.stop ∨
        ∃ r' ∈ r :: rs, x.stop = r'.stop := by
      intro hx
      rcases List.mem_cons.mp hx with rfl | hx
      · exact Or.inr ⟨x, List.mem_cons_self .., rfl⟩
      · rcases ih hx with heq | ⟨r', hr', heq⟩
        · exact Or.inl heq
        · exact Or.inr ⟨r', List.mem_cons_of_mem _ hr', heq⟩
    have hold : x ∈ rs → x.stop = c.stop ∨ ∃ r' ∈ r :: rs, x.stop = r'.stop :=
      fun hx => Or.inr ⟨x, List.mem_cons_of_mem _ hx, rfl⟩
    rw [appendWalk] at h
    split_ifs at h
    · rcases List.mem_cons.mp h with rfl | hx
      · exact Or.inl rfl
      · exact hold hx
    · exact hrest h
    · rcases List.mem_cons.mp h with rfl | hx
      · exact Or.inr ⟨r, List.mem_cons_self .., rfl⟩
      · exact hold hx
    · exact hrest h

/-- A list of one segment, after a segment has been appended: there was none before, or the one
there was has taken it in. -/
theorem appendWalk_eq_singleton {c x : Segment} {l : List Segment} (h : (appendWalk c l).1 = [x]) :
    l = [] ∧ x = c ∨ ∃ r, l = [r] ∧
      (x = { r with stop := c.stop } ∧ r.start ≤ c.start ∧ c.start ≤ r.stop ∧ r.stop ≤ c.stop ∨
        x = { r with start := c.start } ∧ ¬ (r.start ≤ c.start ∧ c.start ≤ r.stop) ∧
          c.start ≤ r.start ∧ r.start ≤ c.stop) := by
  cases l with
  | nil => exact Or.inl ⟨rfl, (List.singleton_inj.mp h).symm⟩
  | cons r rs =>
    have hpos : ∀ rs, (appendWalk c rs).1 ≠ [] := by
      intro rs hnil
      cases rs with
      | nil => cases hnil
      | cons r rs =>
        rw [appendWalk] at hnil
        split_ifs at hnil
    rw [appendWalk] at h
    split_ifs at h with h1 h2 h3
    · obtain ⟨hx, rfl⟩ := List.cons.inj h
      exact Or.inr ⟨r, rfl, Or.inl ⟨hx.symm, h1.1, h1.2, h2⟩⟩
    · exact absurd (List.cons.inj h).2 (hpos rs)
    · obtain ⟨hx, rfl⟩ := List.cons.inj h
      exact Or.inr ⟨r, rfl, Or.inr ⟨hx.symm, h1, h3.1, h3.2⟩⟩
    · exact absurd (List.cons.inj h).2 (hpos rs)

/-! ### The complement of a list that is cut off

Such a list is in the order of the starts up to some point, and then there are segments that end at
`0`: what could not be read is `0`. -/

/-- A gap of the loop: the segments are counted, and none of them ends at `UINT32_MAX`. -/
structure Complement.Gaps (c : Complement) : Prop where
  /-- The count. -/
  nofSegments : c.complements.nofSegments = UInt32.ofNat c.complements.segments.length
  /-- The ends. -/
  stop : ∀ x ∈ c.complements.segments, x.stop ≠ uint32Max

/-- The loop has only seen segments in the order of their starts: what it has collected ends no
later than `seg_end`, and the segments to come start after that. -/
structure Complement.Ascends (c : Complement) (l : List Segment) : Prop where
  /-- What it has collected. -/
  le : ∀ x ∈ c.complements.segments, x.stop.toNat ≤ c.segEnd.toNat
  /-- What is to come. -/
  next : ∀ t ∈ l, 0 < t.start.toNat → c.segEnd.toNat < t.start.toNat

/-- If there is only one gap and it starts at `0`, then what comes next is not in it. -/
def Complement.Short (c : Complement) : Prop :=
  ∀ r, c.complements.segments = [r] → r.start = 0 →
    r.stop.toNat ≤ c.segEnd.toNat ∨ c.segStart = 1 ∧ (c.segEnd = 0 → r.stop = 0)

/-- What a turn of the loop can do. -/
inductive Complement.Turns (c : Complement) (t : Segment) : Complement → Prop where
  /-- The segment is passed by. -/
  | skip : Turns c t c
  /-- It is the first one, and starts at `0`. -/
  | first : Turns c t { c with segStart := t.stop + 1 }
  /-- There is a gap before it. -/
  | gap (hpos : 0 < t.start.toNat) (hle : c.segStart.toNat ≤ t.start.toNat - 1)
      (hpred : (t.start - 1).toNat = t.start.toNat - 1) :
      Turns c t ⟨t.stop + 1, t.start - 1,
        appendSegment { c.complements with cur := .own ⟨c.segStart, t.start - 1⟩ }⟩

theorem Complement.turns_step (stop : UInt32) (c : Complement) (t : Segment) :
    c.Turns t (complementStep 0 stop c t) := by
  simp only [complementStep]
  split_ifs with h1 h2
  · exact .first
  · have hpos : 0 < t.start.toNat := UInt32.lt_iff_toNat_lt.mp h2.1
    have hpred : (t.start - 1).toNat = t.start.toNat - 1 := by
      rw [UInt32.toNat_sub_of_le _ _ (by rw [UInt32.le_iff_toNat_le]; exact hpos)]
      rfl
    have hle := UInt32.le_iff_toNat_le.mp h2.2
    rw [hpred] at hle
    exact .gap hpos hle hpred
  · exact .skip

theorem Complement.Gaps.step {c : Complement} (h : c.Gaps) (stop : UInt32) (t : Segment) :
    (complementStep 0 stop c t).Gaps := by
  have hturns := c.turns_step stop t
  generalize complementStep 0 stop c t = c' at hturns ⊢
  cases hturns with
  | skip => exact h
  | first => exact ⟨h.nofSegments, h.stop⟩
  | gap hpos hle hpred =>
    refine ⟨nofSegments_appendSegment rfl h.nofSegments, fun x hx => ?_⟩
    rw [segments_appendSegment rfl] at hx
    rcases stop_appendWalk hx with heq | ⟨r, hr, heq⟩
    · intro hmax
      rw [hmax] at heq
      have := congrArg UInt32.toNat heq
      rw [hpred, show uint32Max.toNat = 4294967295 from rfl] at this
      have := t.start.toNat_lt
      omega
    · rw [heq]
      exact h.stop r hr

theorem Complement.Ascends.step {c : Complement} {t : Segment} {l : List Segment}
    (h : c.Ascends (t :: l)) (hl : ∀ t' ∈ l, t.start.toNat ≤ t'.start.toNat) (stop : UInt32) :
    (complementStep 0 stop c t).Ascends l := by
  have hturns := c.turns_step stop t
  have hnext : ∀ t' ∈ l, 0 < t'.start.toNat → c.segEnd.toNat < t'.start.toNat :=
    fun t' ht' => h.next t' (List.mem_cons_of_mem _ ht')
  generalize complementStep 0 stop c t = c' at hturns ⊢
  cases hturns with
  | skip => exact ⟨h.le, hnext⟩
  | first => exact ⟨h.le, hnext⟩
  | gap hpos hle hpred =>
    have hlt := h.next t (List.mem_cons_self ..) hpos
    refine ⟨fun x hx => ?_, fun t' ht' _ => ?_⟩
    · rw [segments_appendSegment rfl] at hx
      change x.stop.toNat ≤ (t.start - 1).toNat
      rcases stop_appendWalk hx with heq | ⟨r, hr, heq⟩
      · rw [heq]
      · have := h.le r hr
        rw [heq, hpred]
        omega
    · have := hl t' ht'
      change (t.start - 1).toNat < _
      omega

theorem Complement.Ascends.short {c : Complement} {l : List Segment} (h : c.Ascends l) : c.Short :=
  fun r hr _ => Or.inl (h.le r (by rw [hr]; exact List.mem_singleton_self r))

/-- A segment that ends at `0`. The gap is then the number `0` alone, and only a gap that ends there
can take it in. -/
theorem Complement.Short.step {c : Complement} {t : Segment} (h : c.Short) (ht : t.stop = 0)
    (stop : UInt32) :
    (complementStep 0 stop c t).Short := by
  have hturns := c.turns_step stop t
  generalize complementStep 0 stop c t = c' at hturns ⊢
  cases hturns with
  | skip => exact h
  | first =>
    intro r hr h0
    rcases h r hr h0 with hle | hone
    · exact Or.inl hle
    · exact Or.inr ⟨by rw [ht]; rfl, hone.2⟩
  | gap hpos hle hpred =>
    intro r hr h0
    refine Or.inr ⟨by rw [ht]; rfl, fun hend => ?_⟩
    have hzero : (t.start - 1).toNat = 0 := by rw [show t.start - 1 = 0 from hend]; rfl
    rw [hpred] at hzero
    have hstart : c.segStart = 0 := UInt32.toNat_inj.mp (by rw [UInt32.toNat_zero]; omega)
    have hgap : t.start - 1 = 0 := hend
    rw [segments_appendSegment rfl, hstart, hgap] at hr
    rcases appendWalk_eq_singleton hr with ⟨-, rfl⟩ | ⟨r', -, ⟨rfl, -⟩ | ⟨rfl, hnot, h1, h2⟩⟩
    · rfl
    · rfl
    · refine absurd ⟨h2, ?_⟩ hnot
      exact UInt32.le_iff_toNat_le.mpr (by simp)

/-- After the loop, the complement is not all of the numbers. -/
theorem Complement.finish_ne_whole {c : Complement} (hgaps : c.Gaps) (hshort : c.Short)
    (stop : UInt32) :
    (c.finish stop).segments ≠ [⟨0, uint32Max⟩] := by
  intro hwhole
  simp only [Complement.finish] at hwhole
  split_ifs at hwhole with h1 h2
  · have hlt := UInt32.lt_iff_toNat_lt.mp h2
    rw [segments_appendSegment rfl] at hwhole
    rcases appendWalk_eq_singleton hwhole with ⟨-, heq⟩ | ⟨r, hr,
      ⟨heq, -, hstop, -⟩ | ⟨heq, -, -, -⟩⟩
    · have hstart : (0 : UInt32) = c.segStart := congrArg Segment.start heq
      rw [← hstart, UInt32.toNat_zero] at hlt
      omega
    · have hstart : (0 : UInt32) = r.start := congrArg Segment.start heq
      have hstop' := UInt32.le_iff_toNat_le.mp hstop
      change c.segStart.toNat ≤ _ at hstop'
      rcases hshort r hr hstart.symm with hle | ⟨hone, hend⟩
      · omega
      · have hzero : c.segEnd = 0 := by
          rw [hone] at hlt
          exact UInt32.toNat_inj.mp (by rw [UInt32.toNat_zero]; change _ < 1 at hlt; omega)
        rw [hend hzero, UInt32.toNat_zero] at hstop'
        omega
    · have hstart : (0 : UInt32) = c.segStart := congrArg Segment.start heq
      rw [← hstart, UInt32.toNat_zero] at hlt
      omega
  · exact hgaps.stop _ (by rw [hwhole]; exact List.mem_singleton_self _) rfl
  · exact hgaps.stop _ (by rw [hwhole]; exact List.mem_singleton_self _) rfl

/-- Segments in the order of their starts. -/
theorem Complement.Ascends.foldl {l : List Segment}
    (hl : l.Pairwise fun s t => s.start.toNat ≤ t.start.toNat) (stop : UInt32) {c : Complement}
    (h : c.Ascends l) : (l.foldl (complementStep 0 stop) c).Ascends [] := by
  induction l generalizing c with
  | nil => exact h
  | cons t l ih =>
    obtain ⟨hfirst, hrest⟩ := List.pairwise_cons.mp hl
    exact ih hrest (h.step hfirst stop)

/-- The complement of a list that is cut off is counted, and is not all of the numbers. -/
theorem complement_ne_whole {ctx : SegmentsCtx} {l₁ l₂ : List Segment}
    (hctx : ctx.segments = l₁ ++ l₂)
    (hsorted : l₁.Pairwise fun s t => s.start.toNat ≤ t.start.toNat) (hzero : ∀ t ∈ l₂, t.stop = 0)
    (stop : UInt32) :
    (getComplementSegment ctx 0 stop).segments ≠ [⟨0, uint32Max⟩] ∧
      (getComplementSegment ctx 0 stop).nofSegments =
        UInt32.ofNat (getComplementSegment ctx 0 stop).segments.length := by
  have hstart : (⟨0, 0, initSegmentsCtx⟩ : Complement).Gaps := ⟨rfl, by simp [initSegmentsCtx]⟩
  have hfirst : (⟨0, 0, initSegmentsCtx⟩ : Complement).Ascends l₁ :=
    ⟨by simp [initSegmentsCtx], fun t _ ht => ht⟩
  have hgaps : (ctx.segments.foldl (complementStep 0 stop) ⟨0, 0, initSegmentsCtx⟩).Gaps :=
    invariant (fun _ t h => h.step stop t) hstart ctx.segments
  have hshort : (ctx.segments.foldl (complementStep 0 stop) ⟨0, 0, initSegmentsCtx⟩).Short := by
    have hrest : Along (complementStep 0 stop) (fun _ t => t.stop = 0)
      (l₁.foldl (complementStep 0 stop) ⟨0, 0, initSegmentsCtx⟩) l₂ :=
      along_of_forall fun t ht _ => hzero t ht
    rw [hctx, List.foldl_append]
    exact hrest.invariant (fun _ t ht h => h.step ht stop) (hfirst.foldl hsorted stop).short
  refine ⟨Complement.finish_ne_whole hgaps hshort stop, ?_⟩
  rw [getComplementSegment]
  simp only [Complement.finish]
  split_ifs
  · exact nofSegments_appendSegment rfl hgaps.nofSegments
  · exact hgaps.nofSegments
  · exact hgaps.nofSegments

/-! ### Reading a file that is cut off -/

theorem fread32_nil (host : ByteOrder) : fread32 host 0 [] = (0, []) := by
  cases host <;> rfl

/-- A word that is there is read. -/
theorem fread32_of_take {host : ByteOrder} {bs : List UInt8} {v : UInt32}
    (h : bs.take 4 = host.store 4 v.toNat) (old : UInt32) :
    fread32 host old bs = (v, bs.drop 4) := by
  have hread := fread32_store host old v (bs.drop 4)
  rwa [← h, List.take_append_drop] at hread

theorem readSegments_nil (host : ByteOrder) (n : ℕ) (ctx : SegmentsCtx) :
    (readSegments host n ctx []).segments = ctx.segments ++ List.replicate n ⟨0, 0⟩ := by
  induction n generalizing ctx with
  | zero => simp [readSegments]
  | succ n ih =>
    simp only [readSegments, fread32_nil]
    rw [ih, addSegment, List.replicate_succ, List.append_assoc]
    rfl

/-- Where there is less than a segment left, one segment is read of it, and then zeros. -/
theorem readSegments_short (host : ByteOrder) (n : ℕ) {bs : List UInt8} (h : bs.length < 8)
    (ctx : SegmentsCtx) :
    (readSegments host (n + 1) ctx bs).segments =
      ctx.segments ++
        (⟨(fread32 host 0 bs).1, (fread32 host 0 (bs.drop 4)).1⟩ :: List.replicate n ⟨0, 0⟩) := by
  have hnil : (bs.drop 4).drop 4 = [] := by
    rw [List.drop_drop, List.drop_of_length_le (by omega)]
  change (readSegments host n (addSegment ctx _ (fread32 host 0 (bs.drop 4)).1)
    ((bs.drop 4).drop 4)).segments = _
  rw [hnil, readSegments_nil, addSegment, List.append_assoc]
  rfl

/-- The start of a segment that is cut off after it. -/
theorem fread32_of_prefix {host : ByteOrder} {a : Segment} {bs rest : List UInt8}
    (h : bs <+: segmentBytes host a ++ rest) (hword : 4 ≤ bs.length) (hshort : bs.length < 8) :
    fread32 host 0 bs = (a.start, bs.drop 4) := by
  have hlen : (segmentBytes host a).length = 8 := by simp [segmentBytes]
  refine fread32_of_take ?_ 0
  have hcut := List.prefix_iff_eq_take.mp
    (List.prefix_of_prefix_length_le h (List.prefix_append ..) (by omega))
  rw [hcut, List.take_take,
    min_eq_left (by simpa using hword), segmentBytes, List.take_append_of_le_length (by simp),
    List.take_of_length_le (by simp)]

/-- What is read of some segments, of which the last ones may be missing. -/
theorem readSegments_prefix (host : ByteOrder) (n : ℕ) {l : List Segment}
    (hl : l.Pairwise fun s t => s.start.toNat ≤ t.start.toNat) {bs : List UInt8}
    (h : bs <+: l.flatMap (segmentBytes host)) (ctx : SegmentsCtx) :
    ∃ l₁ l₂, (readSegments host n ctx bs).segments = ctx.segments ++ (l₁ ++ l₂) ∧
      l₁.Pairwise (fun s t => s.start.toNat ≤ t.start.toNat) ∧
        (∀ s ∈ l₁, ∃ t ∈ l, s.start = t.start) ∧
      ∀ t ∈ l₂, t.stop = 0 := by
  induction n generalizing l bs ctx with
  | zero => exact ⟨[], [], by simp [readSegments], List.Pairwise.nil, by simp, by simp⟩
  | succ n ih =>
    cases l with
    | nil =>
      obtain rfl := List.prefix_nil.mp h
      refine ⟨[], List.replicate (n + 1) ⟨0, 0⟩,
        by rw [readSegments_nil, List.nil_append], List.Pairwise.nil, by simp, ?_⟩
      intro t ht
      rw [List.eq_of_mem_replicate ht]
    | cons a l =>
      obtain ⟨hfirst, hrest⟩ := List.pairwise_cons.mp hl
      have hlen : (segmentBytes host a).length = 8 := by simp [segmentBytes]
      rw [List.flatMap_cons] at h
      by_cases hbs : 8 ≤ bs.length
      · obtain ⟨bs, rfl⟩ :=
          List.prefix_of_prefix_length_le (List.prefix_append ..) h (by rw [hlen]; exact hbs)
        obtain ⟨l₁, l₂, heq, hsorted, hmem, hzero⟩ :=
          ih hrest ((List.prefix_append_right_inj _).mp h) (addSegment ctx a.start a.stop)
        have hread : readSegments host (n + 1) ctx (segmentBytes host a ++ bs) =
            readSegments host n (addSegment ctx a.start a.stop) bs := by
          simp [readSegments, segmentBytes]
        refine ⟨a :: l₁, l₂, ?_, ?_, ?_, hzero⟩
        · rw [hread, heq]
          simp [addSegment]
        · refine List.pairwise_cons.mpr ⟨fun s hs => ?_, hsorted⟩
          obtain ⟨t, ht, hst⟩ := hmem s hs
          rw [hst]
          exact hfirst t ht
        · intro s hs
          rcases List.mem_cons.mp hs with rfl | hs
          · exact ⟨s, List.mem_cons_self .., rfl⟩
          · obtain ⟨t, ht, hst⟩ := hmem s hs
            exact ⟨t, List.mem_cons_of_mem _ ht, hst⟩
      · have hread := readSegments_short host n (not_le.mp hbs) ctx
        have hzeros : ∀ t ∈ List.replicate n (⟨0, 0⟩ : Segment), t.stop = 0 := by
          intro t ht
          rw [List.eq_of_mem_replicate ht]
        by_cases hword : 4 ≤ bs.length
        · have hstart := fread32_of_prefix h hword (not_le.mp hbs)
          refine ⟨[⟨a.start, (fread32 host 0 (bs.drop 4)).1⟩], List.replicate n ⟨0, 0⟩, ?_,
            List.pairwise_singleton .., ?_, hzeros⟩
          · rw [hread, hstart]
            rfl
          · intro s hs
            obtain rfl := List.mem_singleton.mp hs
            exact ⟨a, List.mem_cons_self .., rfl⟩
        · have hstop : (fread32 host 0 (bs.drop 4)).1 = 0 := by
            rw [List.drop_of_length_le (by omega), fread32_nil]
          refine ⟨[], _, hread, List.Pairwise.nil, by simp, fun t ht => ?_⟩
          rcases List.mem_cons.mp ht with rfl | ht
          · exact hstop
          · exact hzeros t ht

/-! ### A session that is prepared from such a file -/

/-- What a session has that is not resumed. -/
structure Session.Fresh (s : Session) (p : Params) : Prop where
  /-- The caller's server. -/
  node : s.node = p.server.toUInt16
  /-- The caller's throughput. -/
  throughput : s.request.throughput = p.maxThroughput
  /-- The caller's timeout. -/
  timeout : s.timeout = p.timeout
  /-- The caller's payload. -/
  payloadId : s.request.payloadId = p.payloadId
  /-- The caller's packet size. -/
  mtu : s.request.mtu = p.mtu
  /-- The caller's session. -/
  sessionId : s.request.sessionId = p.sessionId
  /-- The whole payload is asked for. -/
  requested : s.request.requested = [⟨0, uint32Max⟩]
  /-- Nothing has been received. -/
  bytesReceived : s.bytesReceived = 0

/-- The meta files that are no complete image of a session. -/
inductive Unusable (E : ErrorTest) (host : ByteOrder) : Option (List UInt8) → Prop where
  /-- There is none. -/
  | missing : Unusable E host none
  /-- It is of another version. -/
  | version {f : List UInt8} (h : f.take 4 ≠ host.store 4 dtpSessionVersion.toNat) : Unusable E host
      (some f)
  /-- It is cut off, at any byte. -/
  | truncated {s : Session} {d : Disk} {ctx : HookCtx} {f : List UInt8} (h : Lives E host s d)
      (hctx : s.hookCtx = some ctx)
      (hf : f <+: sessionBytes host s ctx.segments) (hne : f ≠ sessionBytes host s ctx.segments) :
        Unusable E host (some f)

/-- The slot's previous user has left just what the caller asks for, and a payload that is not
empty. -/
structure Session.Left (slot : Session) (p : Params) : Prop where
  /-- Its server. -/
  node : slot.node = p.server.toUInt16
  /-- Its throughput. -/
  throughput : slot.request.throughput = p.maxThroughput
  /-- Its timeout. -/
  timeout : slot.timeout = p.timeout
  /-- Its payload. -/
  payloadId : slot.request.payloadId = p.payloadId
  /-- Its packet size. -/
  mtu : slot.request.mtu = p.mtu
  /-- The session is cleared, so the caller has to ask for none. -/
  sessionId : p.sessionId = 0
  /-- Its payload's size. -/
  payloadSize : slot.payloadSize ≠ 0

/-- A session that is not resumed is fresh. -/
theorem fresh_configureSession (slot : Session) (p : Params) :
    (startDownload (configureSession (acquireSession slot) p) p).Fresh p :=
  ⟨rfl, rfl, rfl, rfl, rfl, rfl, requested_acquireSession slot, rfl⟩

/-- A file that is read as one of the right version has that version, unless it is too short. -/
theorem take_of_fread32 {host : ByteOrder} {f : List UInt8} {v : UInt32}
    (h : (fread32 host 0 f).1 = v) (hlen : 4 ≤ f.length) :
    f.take 4 = host.store 4 v.toNat := by
  have htake : (f.take 4).length = 4 := by rw [List.length_take]; omega
  have hlt := host.load_lt (f.take 4)
  rw [htake] at hlt
  have hload : (fread host 4 0 f).1 = host.load (f.take 4) := by
    rw [fread, List.drop_of_length_le (by rw [ByteOrder.length_store]; exact hlen), List.append_nil]
  rw [← h, fread32, UInt32.toNat_zero, hload, UInt32.toNat_ofNat_of_lt' hlt, host.store_load htake]

/-- In a file that cannot be used but is taken for one of the right version, what is left for the
segments is what is left of the segments that were saved. -/
theorem Unusable.drop_prefix {E : ErrorTest} {host : ByteOrder} {f : List UInt8}
    (h : Unusable E host (some f)) (hversion : (fread32 host 0 f).1 = dtpSessionVersion) :
    ∃ l : List Segment,
      l.Pairwise (fun s t => s.start.toNat ≤ t.start.toNat) ∧
        f.drop 30 <+: l.flatMap (segmentBytes host) := by
  cases h with
  | version hne =>
    have hlen : f.length < 4 := by
      by_contra hlen
      exact hne (take_of_fread32 hversion (by omega))
    exact ⟨[], List.Pairwise.nil, by rw [List.drop_of_length_le (by omega)]; exact List.nil_prefix⟩
  | @truncated s d ctx _ hlives hctx hf hne =>
    have htidy := ((lives_kept hlives).1 ctx hctx).tidy
    refine ⟨ctx.segments.segments, htidy.pairwise_start, ?_⟩
    have hdrop : (sessionBytes host s ctx.segments).drop 30 = ctx.segments.segments.flatMap
        (segmentBytes host) := by
      have hword : ∀ m n v : ℕ, n ≤ m → (host.store n v).drop m = [] := fun m n v h =>
        List.drop_of_length_le (by rw [ByteOrder.length_store]; exact h)
      simp [sessionBytes, List.drop_append, hword]
    rw [← hdrop]
    exact hf.drop 30

/-- The request of a session that is read from such a file is not for the whole payload. -/
theorem requested_requestMissing_ne {host : ByteOrder} {l : List Segment} {bs : List UInt8}
    (hl : l.Pairwise fun s t => s.start.toNat ≤ t.start.toNat)
    (hbs : bs <+: l.flatMap (segmentBytes host)) (r : MetaReq) (payloadSize : UInt32) (n : ℕ)
    {q : MetaReq}
    (hq : requestMissing r payloadSize (readSegments host n initSegmentsCtx bs) = .ok q)
    (hnof : q.nofIntervals ≠ 0) :
    q.requested ≠ [⟨0, uint32Max⟩] := by
  obtain ⟨l₁, l₂, hsegments, hsorted, -, hzero⟩ := readSegments_prefix host n hl hbs initSegmentsCtx
  rw [show initSegmentsCtx.segments = [] from rfl, List.nil_append] at hsegments
  obtain ⟨hwhole, hcount⟩ :=
    complement_ne_whole hsegments hsorted hzero (payloadSize.toUInt64 / r.chunk).toUInt32
  intro hrequested
  have hrequest := (requestMissing_of_ok hq).2
  generalize getComplementSegment (readSegments host n initSegmentsCtx bs) 0
    (payloadSize.toUInt64 / r.chunk).toUInt32 =
    c at hwhole hcount hrequest
  have hreq : q = forEachSegment createMetaData 0 c.segments r := by
    rw [hrequest]
    refine if_pos fun h => hnof ?_
    rw [hrequest, requestSegments, if_neg (by simpa using h)]
  have hne : c.segments ≠ [] := by
    intro hnil
    apply hnof
    rw [hrequest, requestSegments, if_neg (by rw [hcount, hnil]; simp)]
  have hmin : (UInt8.ofNat (min 8 (0 + c.segments.length))).toNat = min 8 (0 + c.segments.length) :=
    UInt8.toNat_ofNat_of_lt' (lt_of_le_of_lt (min_le_left _ _) (by decide))
  have htake := take_createMetaData (Nat.zero_le 8) c.segments r
  rw [hreq, MetaReq.requested, nofIntervals_createMetaData (show 0 < 8 by omega) hne r]
    at hrequested
  change (forEachSegment createMetaData 0 c.segments r).intervals.toList.take
    (UInt8.ofNat _).toNat = _ at hrequested
  rw [hmin, htake, List.take_zero, List.nil_append, ← List.map_take] at hrequested
  apply hwhole
  cases hsegs : c.segments with
  | nil => exact absurd hsegs hne
  | cons a l =>
    rw [hsegs] at hrequested
    cases l with
    | nil =>
      obtain ⟨h0, hmax⟩ := Interval.mk.inj (List.singleton_inj.mp hrequested)
      rw [← h0, ← hmax]
    | cons b l => cases (List.cons.inj hrequested).2

/-- What is read of the file, past its version. -/
theorem readSession_request {host : ByteOrder} {s t : Session} {f : List UInt8}
    (h : readSession host s f = .ok t) :
    t.errno = s.errno ∧ ∃ r payloadSize n,
      requestMissing r payloadSize (readSegments host n initSegmentsCtx (f.drop 26)) =
        .ok t.request := by
  have hrest : (((((((((f.drop 2).drop 2).tail).drop 4).tail).drop 4).drop 4).drop 4).drop 4) =
      f.drop 26 := by
    simp only [List.drop_drop, ← List.drop_one]
  rw [readSession] at h
  obtain ⟨q, hq, h⟩ := exists_of_bind_eq_ok h
  obtain rfl := Except.ok.inj h
  rw [← hrest]
  exact ⟨rfl, _, _, _, hq⟩

/-- A file with the version is read, and the session that is resumed from it asks for less than
everything. -/
theorem not_fresh_of_version {E : ErrorTest} {host : ByteOrder} {slot : Session} (hslot : slot.Free)
    (p : Params) {d : Disk} {f : List UInt8} (hf : d.metaFile = some f)
    (hd : Unusable E host (some f)) (hversion : (fread32 host 0 f).1 = dtpSessionVersion) :
    ¬ ∃ s, prepareSession host slot p true d = .ok s ∧ s.Fresh p := by
  rintro ⟨s, hs, hfresh⟩
  obtain ⟨l, hl, hbs⟩ := hd.drop_prefix hversion
  have hread : apmOnDeserialize host (acquireSession slot) d =
      readSession host (acquireSession slot) (f.drop 4) := by
    rw [apmOnDeserialize, hf]
    exact if_neg (not_not_intro hversion)
  rw [prepareSession, if_pos rfl, hread] at hs
  cases ht : readSession host (acquireSession slot) (f.drop 4) with
  | error e =>
    rw [ht] at hs
    cases hs
  | ok t =>
    obtain ⟨herrno, r, payloadSize, n, hq⟩ := readSession_request ht
    rw [List.drop_drop] at hq
    have hok : t.errno = .noErr := herrno.trans hslot.errno
    simp only [ht, prepareRead, if_pos hok] at hs
    split_ifs at hs with hexhausted
    obtain rfl := Except.ok.inj hs
    exact requested_requestMissing_ne hl hbs r payloadSize n hq
      (not_or.mp hexhausted).2 hfresh.requested

/-- A file without it is not read, and the session is what was left in its slot. -/
theorem fresh_iff_of_no_version {host : ByteOrder} {slot : Session} (hslot : slot.Free) (p : Params)
    {d : Disk} {f : List UInt8} (hf : d.metaFile = some f)
    (hversion : (fread32 host 0 f).1 ≠ dtpSessionVersion) :
    (∃ s, prepareSession host slot p true d = .ok s ∧ s.Fresh p) ↔ slot.Left p := by
  have hread : apmOnDeserialize host (acquireSession slot) d = .ok (acquireSession slot) := by
    rw [apmOnDeserialize, hf]
    exact if_pos hversion
  have herrno : (acquireSession slot).errno = .noErr := hslot.errno
  have hnof : (acquireSession slot).request.nofIntervals ≠ 0 := by
    change (1 : UInt8) ≠ 0
    decide
  simp only [prepareSession, if_true, hread, prepareRead, if_pos herrno]
  constructor
  · rintro ⟨s, hs, hfresh⟩
    split_ifs at hs with hexhausted
    obtain rfl := Except.ok.inj hs
    refine ⟨hfresh.node, hfresh.throughput, hfresh.timeout, hfresh.payloadId, hfresh.mtu,
      hfresh.sessionId.symm, ?_⟩
    exact fun h => (not_or.mp hexhausted).1 h.symm
  · intro hleft
    have hmore : ¬ ((acquireSession slot).bytesReceived = (acquireSession slot).payloadSize ∨
        (acquireSession slot).request.nofIntervals = 0) :=
      not_or.mpr ⟨fun h => hleft.payloadSize h.symm, hnof⟩
    refine ⟨_, if_neg hmore, ?_⟩
    exact ⟨hleft.node, hleft.throughput, hleft.timeout, hleft.payloadId, hleft.mtu,
      hleft.sessionId.symm,
      requested_acquireSession slot, rfl⟩

/-- A session that is resumed from a missing file is always fresh. One that is resumed from a file
that is there is fresh only if the file is of another version and the slot's previous user has asked
for the same. -/
theorem fresh_start_iff (E : ErrorTest) (host : ByteOrder) {slot : Session} (hslot : slot.Free)
    (p : Params) {d : Disk} (hd : Unusable E host d.metaFile) :
    (∃ s, prepareSession host slot p true d = .ok s ∧ s.Fresh p) ↔
      d.metaFile = none ∨ slot.Left p ∧ ∃ f, d.metaFile = some f ∧
        (fread32 host 0 f).1 ≠ dtpSessionVersion := by
  cases hf : d.metaFile with
  | none =>
    have hprepare : prepareSession host slot p true d = .ok (startDownload (configureSession
        { acquireSession slot with errno := .einval } p) p) := by
      simp [prepareSession, apmOnDeserialize, hf, prepareRead]
    exact iff_of_true ⟨_, hprepare, fresh_configureSession { slot with errno := .einval } p⟩
      (Or.inl rfl)
  | some f =>
    rw [hf] at hd
    by_cases hversion : (fread32 host 0 f).1 = dtpSessionVersion
    · refine iff_of_false (not_fresh_of_version hslot p hf hd hversion) ?_
      rintro (h | ⟨-, g, hg, hne⟩)
      · cases h
      · obtain rfl := Option.some.inj hg
        exact hne hversion
    · rw [fresh_iff_of_no_version hslot p hf hversion]
      constructor
      · exact fun hleft => Or.inr ⟨hleft, f, rfl, hversion⟩
      · rintro (h | ⟨hleft, -⟩)
        · cases h
        · exact hleft

/-- A slot that was last used for what `fourByteChunks` asks for. -/
def usedSlot : Session :=
  { configureSession emptySlot fourByteChunks with payloadSize := 10 }

/-- There is no file; or the file is of version 1, and the slot was last used for the same. -/
theorem fresh_start_both :
    (∃ s, prepareSession .little emptySlot fourByteChunks true ⟨[], none⟩ = .ok s ∧
      s.Fresh fourByteChunks) ∧
    ∃ s, prepareSession .little usedSlot { fourByteChunks with sessionId := 0 } true
      ⟨[], some [1, 0, 0, 0]⟩ = .ok s ∧
      s.Fresh { fourByteChunks with sessionId := 0 } := by
  have hleft : usedSlot.Left { fourByteChunks with sessionId := 0 } :=
    ⟨rfl, rfl, rfl, rfl, rfl, rfl, by decide⟩
  have hfree : usedSlot.Free := ⟨rfl, rfl⟩
  refine ⟨(fresh_start_iff .exact .little ⟨rfl, rfl⟩ fourByteChunks .missing).mpr (Or.inl rfl), ?_⟩
  exact (fresh_start_iff .exact .little hfree { fourByteChunks with sessionId := 0 }
    (.version (by decide))).mpr
    (Or.inr ⟨hleft, _, rfl, by decide⟩)

/-- The slot has been used for a payload of ten bytes on node 5. The meta file is of version 1: the
session is for node 5 again. If the slot has not been used, there is no session at all. -/
theorem fresh_start_version_one :
    Unusable .exact .little (some [1, 0, 0, 0]) ∧
      ({ emptySlot with node := 5, payloadSize := 10 } : Session).Free ∧
    (∃ s, prepareSession .little { emptySlot with node := 5, payloadSize := 10 } fourByteChunks true
        ⟨[], some [1, 0, 0, 0]⟩ = .ok s ∧ s.node = 5 ∧ ¬ s.Fresh fourByteChunks) ∧
    prepareSession .little emptySlot fourByteChunks true ⟨[], some [1, 0, 0, 0]⟩ =
      .error .sessionExhausted := by
  refine ⟨.version (by decide), ⟨rfl, rfl⟩, ⟨_, rfl, rfl, fun hfresh => ?_⟩, rfl⟩
  exact absurd hfresh.node (by decide)

end LibDtp
