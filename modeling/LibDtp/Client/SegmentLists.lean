import LibDtp.Client.Segments

/-!
# The segment lists of any run

What is known of a segment list without any assumption on the packets. The numbers a client reads
off the packets are whatever the packets say, and one of them may be `UINT32_MAX`: `cur_segment->end
+ 1` is then `0`, and a number after it opens a new segment instead of being passed over. Such a
list is no longer canonical: it has a segment that ends at `UINT32_MAX`, and segments after it that
lie in it.

It is still in order, and still counted: `SegmentsCtx.Tidy`.

## What is proved

* `closed_of_updateAll` — the list of a session in which `UINT32_MAX` is the last number, if it is
  there at all, is tidy once it is closed.
* `SegmentsCtx.Tidy.merge` — merging two tidy lists gives a tidy one.
* `SegmentsCtx.Tidy.toNat_nofSegments` — `nof_segments` of a tidy list is the length of the list.
-/

namespace LibDtp

/-- The segment ends at `UINT32_MAX`. -/
def Segment.Full (s : Segment) : Prop := s.stop.toNat = 2 ^ 32 - 1

/-- `s` comes before `t`: there is a gap between them, or `s` ends at `UINT32_MAX` and `t` starts in
it. -/
def Segment.Before (s t : Segment) : Prop :=
  s.stop.toNat + 1 < t.start.toNat ∨ s.Full ∧ s.start.toNat ≤ t.start.toNat

/-- A list that is in order, with at most one segment that ends at `UINT32_MAX`, and counted. -/
structure SegmentsCtx.Tidy (ctx : SegmentsCtx) : Prop where
  /-- No segment is empty. -/
  valid : ∀ s ∈ ctx.segments, s.start.toNat ≤ s.stop.toNat
  /-- They are in order. -/
  before : ctx.segments.Pairwise fun s t => s.Before t ∧ (s.Full → ¬ t.Full)
  /-- They are counted. -/
  nofSegments : ctx.nofSegments = UInt32.ofNat ctx.segments.length

theorem tidy_init : initSegmentsCtx.Tidy := ⟨by simp [initSegmentsCtx], List.Pairwise.nil, rfl⟩

/-- Only the list and its count matter. -/
theorem SegmentsCtx.Tidy.of_eq {a b : SegmentsCtx} (h : a.Tidy)
    (hsegments : b.segments = a.segments) (hnof : b.nofSegments = a.nofSegments) : b.Tidy :=
  ⟨by rw [hsegments]; exact h.valid, by rw [hsegments]; exact h.before,
    by rw [hsegments, hnof]; exact h.nofSegments⟩

/-- The starts are in order. -/
theorem SegmentsCtx.Tidy.pairwise_start {ctx : SegmentsCtx} (h : ctx.Tidy) :
    ctx.segments.Pairwise fun s t => s.start.toNat ≤ t.start.toNat := by
  refine h.before.imp_of_mem fun {s t} hs _ hst => ?_
  have := h.valid s hs
  rcases hst.1 with hgap | hfull
  · omega
  · exact hfull.2

/-- A tidy list has fewer than `2^32` segments, so that `nof_segments` is its length: no two of them
end at the same pair of numbers `2 * k - 1` and `2 * k`. -/
theorem SegmentsCtx.Tidy.toNat_nofSegments {ctx : SegmentsCtx} (h : ctx.Tidy) :
    ctx.nofSegments.toNat = ctx.segments.length := by
  have hnodup : (ctx.segments.map fun s => (s.stop.toNat + 1) / 2).Nodup := by
    rw [List.Nodup, List.pairwise_map]
    refine h.before.imp_of_mem fun {s t} _ ht hst => ?_
    have hvalid := h.valid t ht
    have hlt := t.stop.toNat_lt
    obtain ⟨hgap | ⟨hfull, -⟩, hone⟩ := hst
    · omega
    · have htfull := hone hfull
      simp only [Segment.Full] at hfull htfull
      omega
  have hsub : (ctx.segments.map fun s => (s.stop.toNat + 1) / 2).toFinset ⊆ Finset.range
      (2 ^ 31 + 1) := by
    intro k hk
    obtain ⟨s, -, rfl⟩ := List.mem_map.mp (List.mem_toFinset.mp hk)
    have := s.stop.toNat_lt
    rw [Finset.mem_range]
    omega
  have hcard := Finset.card_le_card hsub
  rw [List.toFinset_card_of_nodup hnodup, List.length_map, Finset.card_range] at hcard
  rw [h.nofSegments, UInt32.toNat_ofNat_of_lt' (by change _ < 2 ^ 32; omega)]

/-! ### Appending -/

/-- A segment that comes after all others is linked at the end, or, if it ends at `UINT32_MAX` and
another one does, is in that one already. -/
theorem appendWalk_of_before {c : Segment} (hc : c.start.toNat ≤ c.stop.toNat) {l : List Segment}
    (hl : ∀ s ∈ l, s.start.toNat ≤ s.stop.toNat) (hbefore : ∀ s ∈ l, s.Before c) :
    (appendWalk c l = (l ++ [c], true) ∧ ∀ s ∈ l, s.Full → ¬ c.Full) ∨
      appendWalk c l = (l, false) := by
  induction l with
  | nil => exact Or.inl ⟨rfl, by simp⟩
  | cons r rs ih =>
    have hr := hl r (List.mem_cons_self ..)
    have hlt := c.stop.toNat_lt
    rw [appendWalk]
    simp only [ge_iff_le, UInt32.le_iff_toNat_le]
    rcases hbefore r (List.mem_cons_self ..) with hgap | ⟨hfull, hstart⟩
    · rw [if_neg (by omega), if_neg (by omega)]
      rcases ih (fun s hs => hl s (List.mem_cons_of_mem _ hs)) fun s hs =>
          hbefore s (List.mem_cons_of_mem _ hs) with
        ⟨hwalk, hfull⟩ | hwalk
      · refine Or.inl ⟨by rw [hwalk]; rfl, ?_⟩
        intro s hs hs'
        rcases List.mem_cons.mp hs with rfl | hs
        · simp only [Segment.Full] at hs'
          have := c.start.toNat_lt
          omega
        · exact hfull s hs hs'
      · exact Or.inr (by rw [hwalk])
    · simp only [Segment.Full] at hfull
      rw [if_pos (by omega)]
      by_cases hcfull : c.Full
      · simp only [Segment.Full] at hcfull
        rw [if_pos (by omega)]
        apply Or.inr
        have hstop : c.stop = r.stop := UInt32.toNat_inj.mp (by omega)
        rw [hstop]
      · have hcfull' := hcfull
        simp only [Segment.Full] at hcfull'
        rw [if_neg (by omega)]
        rcases ih (fun s hs => hl s (List.mem_cons_of_mem _ hs)) fun s hs =>
            hbefore s (List.mem_cons_of_mem _ hs) with
          ⟨hwalk, -⟩ | hwalk
        · exact Or.inl ⟨by rw [hwalk]; rfl, fun _ _ _ => hcfull⟩
        · exact Or.inr (by rw [hwalk])

/-! ### Updating -/

/-- A context in the middle of its updates: a list, and a segment of its own that comes after it. -/
structure SegmentsCtx.Midway (ctx : SegmentsCtx) (c : Segment) : Prop where
  /-- The list is tidy. -/
  tidy : ctx.Tidy
  /-- There has been an update. -/
  started : ctx.started = true
  /-- The current segment. -/
  cur : ctx.cur = .own c
  /-- It is not empty. -/
  valid : c.start.toNat ≤ c.stop.toNat
  /-- It comes after the list. -/
  before : ∀ s ∈ ctx.segments, s.Before c

/-- A context whose current segment has been appended. -/
structure SegmentsCtx.Closed (ctx : SegmentsCtx) : Prop where
  /-- The list is tidy. -/
  tidy : ctx.Tidy
  /-- There has been an update. -/
  started : ctx.started = true
  /-- There is no current segment, or it is the last of the list. -/
  cur : ctx.cur = .null ∨ ctx.cur = .last

/-- Appending the current segment: it is linked at the end of the list, or it is in the list
already. -/
theorem SegmentsCtx.Midway.append {ctx : SegmentsCtx} {c : Segment} (h : ctx.Midway c) :
    (appendSegment ctx).Closed ∧ (appendSegment ctx).broken = ctx.broken ∧
      ∀ s ∈ (appendSegment ctx).segments, s ∈ ctx.segments ∨ s = c := by
  simp only [appendSegment, h.cur]
  rcases appendWalk_of_before h.valid h.tidy.valid h.before with ⟨hwalk, hfull⟩ | hwalk
  · simp only [hwalk, if_true]
    refine ⟨⟨⟨?_, ?_, ?_⟩, h.started, Or.inr rfl⟩, trivial, fun s hs => by simpa using hs⟩
    · intro s hs
      simp only [List.mem_append, List.mem_singleton] at hs
      rcases hs with hs | rfl
      · exact h.tidy.valid s hs
      · exact h.valid
    · rw [List.pairwise_append]
      refine ⟨h.tidy.before, List.pairwise_singleton _ _, fun s hs t ht => ?_⟩
      obtain rfl := List.mem_singleton.mp ht
      exact ⟨h.before s hs, hfull s hs⟩
    · rw [h.tidy.nofSegments]
      simp
  · simp only [hwalk, Bool.false_eq_true, if_false]
    exact ⟨⟨⟨h.tidy.valid, h.tidy.before, h.tidy.nofSegments⟩, h.started, Or.inl rfl⟩, trivial,
      fun s hs => Or.inl hs⟩

/-- The current segment is appended, and a new one opened after it. -/
theorem SegmentsCtx.Midway.next {ctx : SegmentsCtx} {c : Segment} (h : ctx.Midway c) {t : Segment}
    (ht : t.start.toNat ≤ t.stop.toNat) (hstart : c.start.toNat ≤ t.start.toNat)
    (hct : c.Before t) :
    ({ appendSegment ctx with cur := .own t } : SegmentsCtx).Midway t := by
  obtain ⟨hclosed, -, hmem⟩ := h.append
  refine ⟨⟨hclosed.tidy.valid, hclosed.tidy.before, hclosed.tidy.nofSegments⟩, hclosed.started, rfl,
    ht, fun s hs => ?_⟩
  rcases hmem s hs with hs | rfl
  · rcases h.before s hs with hgap | hfull
    · exact Or.inl (by omega)
    · exact Or.inr ⟨hfull.1, hfull.2.trans hstart⟩
  · exact hct

/-- An update of a context in the middle of its updates. If the current segment ends at
`UINT32_MAX`, the new one must not start before it. -/
theorem SegmentsCtx.Midway.update {ctx : SegmentsCtx} {c : Segment} (h : ctx.Midway c) {t : Segment}
    (ht : t.start.toNat ≤ t.stop.toNat) (hfull : c.Full → c.start.toNat ≤ t.start.toNat) :
    ∃ c', (updateSegmentsRange ctx t.start t.stop).Midway c' ∧
      (c' = t ∨ c'.start = c.start ∧ (c'.stop = c.stop ∨ c'.stop = t.stop)) := by
  have hcurrent : ctx.current = some c := by rw [SegmentsCtx.current, h.cur]
  have hlt := c.stop.toNat_lt
  have hvalid := h.valid
  rw [updateSegmentsRange, if_neg (by rw [h.started]; decide)]
  simp only [hcurrent, ge_iff_le, UInt32.le_iff_toNat_le, UInt32.toNat_add,
    show (1 : UInt32).toNat = 1 from rfl]
  by_cases hc : c.Full
  · have hc' := hc
    simp only [Segment.Full] at hc'
    have htlt := t.stop.toNat_lt
    by_cases hzero : t.start.toNat ≤ (c.stop.toNat + 1) % 2 ^ 32
    · rw [if_pos hzero, if_pos (by omega)]
      exact ⟨c, h, Or.inr ⟨rfl, Or.inl rfl⟩⟩
    · rw [if_neg hzero]
      exact ⟨t, h.next ht (hfull hc) (Or.inr ⟨hc, hfull hc⟩), Or.inl rfl⟩
  · have hc' := hc
    simp only [Segment.Full] at hc'
    by_cases hmeet : t.start.toNat ≤ (c.stop.toNat + 1) % 2 ^ 32
    · rw [if_pos hmeet]
      by_cases hold : t.stop.toNat ≤ c.stop.toNat
      · rw [if_pos hold]
        exact ⟨c, h, Or.inr ⟨rfl, Or.inl rfl⟩⟩
      · have hset :
            ctx.setCurrentEnd t.stop = { ctx with cur := .own { c with stop := t.stop } } := by
          rw [SegmentsCtx.setCurrentEnd, h.cur]
        rw [if_neg hold, hset]
        refine ⟨{ c with stop := t.stop },
          ⟨⟨h.tidy.valid, h.tidy.before, h.tidy.nofSegments⟩, h.started, rfl, ?_, h.before⟩,
          Or.inr ⟨rfl, Or.inr rfl⟩⟩
        change c.start.toNat ≤ t.stop.toNat
        omega
    · have hgap : c.stop.toNat + 1 < t.start.toNat := by omega
      have hstart : c.start.toNat ≤ t.start.toNat := by omega
      rw [if_neg hmeet]
      exact ⟨t, h.next ht hstart (Or.inl hgap), Or.inl rfl⟩

/-- The first update of an empty list. -/
theorem midway_first {t : Segment} (ht : t.start.toNat ≤ t.stop.toNat) :
    (updateSegmentsRange initSegmentsCtx t.start t.stop).Midway t :=
  ⟨tidy_init.of_eq rfl rfl, rfl, rfl, ht, by simp [updateSegmentsRange, initSegmentsCtx]⟩

/-- `close_segments`, after some updates. -/
theorem SegmentsCtx.Midway.close {ctx : SegmentsCtx} {c : Segment} (h : ctx.Midway c) :
    (closeSegments ctx).Closed := by
  rw [closeSegments, if_neg (by rw [h.cur]; simp)]
  exact h.append.1

/-- The updates of a session, in any order, if `UINT32_MAX` comes last. -/
theorem SegmentsCtx.Midway.updateAll {ctx : SegmentsCtx} {c : Segment} (h : ctx.Midway c)
    {ns : List UInt32} (hc : ns ≠ [] → ¬ c.Full) (hns : ∀ n ∈ ns.dropLast, n ≠ 0xFFFFFFFF) :
    ∃ c', (updateAll ctx ns).Midway c' := by
  induction ns generalizing ctx c with
  | nil => exact ⟨c, h⟩
  | cons n ns ih =>
    have hcfull := hc (List.cons_ne_nil _ _)
    obtain ⟨c', h', hc'⟩ := h.update (t := ⟨n, n⟩) le_rfl fun hfull => absurd hfull hcfull
    refine ih h' (fun hne => ?_) fun m hm => hns m ?_
    · have hn : n ≠ 0xFFFFFFFF :=
        hns n (by rw [List.dropLast_cons_of_ne_nil hne]; exact List.mem_cons_self ..)
      have hn' : ¬ n.toNat = 2 ^ 32 - 1 := fun hmax => hn (UInt32.toNat_inj.mp hmax)
      simp only [Segment.Full] at hcfull ⊢
      rcases hc' with rfl | ⟨-, hstop | hstop⟩
      · exact hn'
      · rwa [hstop]
      · rwa [hstop]
    · have hne : ns ≠ [] := by
        rintro rfl
        simp at hm
      rw [List.dropLast_cons_of_ne_nil hne]
      exact List.mem_cons_of_mem _ hm

/-- The list of a session, if `UINT32_MAX` comes last: nothing has been received, or the list is
closed. -/
theorem closed_of_updateAll {ns : List UInt32} (hns : ∀ n ∈ ns.dropLast, n ≠ 0xFFFFFFFF) :
    closeSegments (updateAll initSegmentsCtx ns) = initSegmentsCtx ∨
      (closeSegments (updateAll initSegmentsCtx ns)).Closed := by
  cases ns with
  | nil => exact Or.inl rfl
  | cons n ns =>
    have hfirst : (updateSegments initSegmentsCtx n).Midway ⟨n, n⟩ :=
      midway_first (t := ⟨n, n⟩) le_rfl
    have hrest : ∀ m ∈ ns.dropLast, m ≠ 0xFFFFFFFF := by
      intro m hm
      have hne : ns ≠ [] := by
        rintro rfl
        simp at hm
      exact hns m (by rw [List.dropLast_cons_of_ne_nil hne]; exact List.mem_cons_of_mem _ hm)
    obtain ⟨c, hc⟩ := hfirst.updateAll (fun hne hfull => hns n (by
      rw [List.dropLast_cons_of_ne_nil hne]
      exact List.mem_cons_self ..) (UInt32.toNat_inj.mp hfull)) hrest
    exact Or.inr hc.close

/-- Segments in the order of their starts. -/
theorem SegmentsCtx.Midway.updates {ctx : SegmentsCtx} {c : Segment} (h : ctx.Midway c)
    {l : List Segment} (hl : ∀ s ∈ l, s.start.toNat ≤ s.stop.toNat)
    (hsorted : l.Pairwise fun s t => s.start.toNat ≤ t.start.toNat)
    (hc : ∀ s ∈ l, c.start.toNat ≤ s.start.toNat) :
    ∃ c', (l.foldl (fun ctx s => updateSegmentsRange ctx s.start s.stop) ctx).Midway c' := by
  induction l generalizing ctx c with
  | nil => exact ⟨c, h⟩
  | cons t l ih =>
    have ht := hc t (List.mem_cons_self ..)
    obtain ⟨hfirst, hrest⟩ := List.pairwise_cons.mp hsorted
    obtain ⟨c', h', hc'⟩ := h.update (hl t (List.mem_cons_self ..)) fun _ => ht
    apply ih h' (fun s hs => hl s (List.mem_cons_of_mem _ hs)) hrest
    intro s hs
    have hts := hfirst s hs
    rcases hc' with rfl | ⟨hstart, -⟩
    · exact hts
    · rw [hstart]
      exact ht.trans hts

/-- Merging two tidy lists. -/
theorem SegmentsCtx.Tidy.merge {a b : SegmentsCtx} (ha : a.Tidy) (hb : b.Tidy) :
    mergeSegments a b = initSegmentsCtx ∨ (mergeSegments a b).Closed := by
  have hvalid : ∀ s ∈ mergeOrder a.segments b.segments, s.start.toNat ≤ s.stop.toNat := by
    intro s hs
    rcases (mem_mergeOrder _ _).mp hs with hs | hs
    · exact ha.valid s hs
    · exact hb.valid s hs
  have hsorted := pairwise_mergeOrder ha.pairwise_start hb.pairwise_start
  rw [mergeSegments]
  generalize mergeOrder a.segments b.segments = l at hvalid hsorted
  cases l with
  | nil => exact Or.inl rfl
  | cons t l =>
    obtain ⟨hfirst, hrest⟩ := List.pairwise_cons.mp hsorted
    obtain ⟨c, hc⟩ := (midway_first (hvalid t (List.mem_cons_self ..))).updates
      (fun s hs => hvalid s (List.mem_cons_of_mem _ hs)) hrest hfirst
    exact Or.inr hc.close

/-! ### Undefined behaviour -/

/-- What has gone wrong stays wrong. -/
theorem broken_appendSegment {ctx : SegmentsCtx} (h : ctx.broken = true) :
    (appendSegment ctx).broken = true := by
  simp only [appendSegment]
  split
  · rfl
  · split_ifs <;> exact h
  · split <;> rfl

theorem broken_update {ctx : SegmentsCtx} (h : ctx.broken = true) (n : UInt32) :
    (updateSegments ctx n).broken = true := by
  simp only [updateSegments, updateSegmentsRange]
  split_ifs
  · exact h
  · split
    · rfl
    · split_ifs
      · exact h
      · simp only [SegmentsCtx.setCurrentEnd]
        split <;> exact h
      · exact broken_appendSegment h

theorem broken_closeSegments {ctx : SegmentsCtx} (h : ctx.broken = true) :
    (closeSegments ctx).broken = true := by
  simp only [closeSegments]
  split_ifs
  · exact h
  · exact broken_appendSegment h

theorem broken_updateAll {ctx : SegmentsCtx} (h : ctx.broken = true) (ns : List UInt32) :
    (closeSegments (updateAll ctx ns)).broken = true := by
  induction ns generalizing ctx with
  | nil => exact broken_closeSegments h
  | cons n ns ih => exact ih (broken_update h n)

/-- A packet without a current segment: the null pointer is followed. -/
theorem broken_update_of_null {ctx : SegmentsCtx} (hstarted : ctx.started = true)
    (hcur : ctx.cur = .null) (n : UInt32) :
    (updateSegments ctx n).broken = true := by
  simp only [updateSegments, updateSegmentsRange]
  rw [if_neg (by rw [hstarted]; decide)]
  simp [SegmentsCtx.current, hcur]

/-- The current segment is the last of the list: closing frees it. -/
theorem broken_close_of_last {ctx : SegmentsCtx} (hcur : ctx.cur = .last) :
    (closeSegments ctx).broken = true := by
  rw [closeSegments, if_neg (by rw [hcur]; simp)]
  simp only [appendSegment, hcur]
  split <;> rfl

/-- The current segment is the last of the list: a packet changes it in place, or frees it. -/
theorem update_of_last {ctx : SegmentsCtx} (hstarted : ctx.started = true) (hcur : ctx.cur = .last)
    (n : UInt32) :
    (updateSegments ctx n).broken = true ∨ (updateSegments ctx n).started = true ∧
      (updateSegments ctx n).cur = .last := by
  simp only [updateSegments, updateSegmentsRange]
  rw [if_neg (by rw [hstarted]; decide)]
  split
  · exact Or.inl rfl
  · split_ifs
    · exact Or.inr ⟨hstarted, hcur⟩
    · rw [SegmentsCtx.setCurrentEnd, hcur]
      exact Or.inr ⟨hstarted, rfl⟩
    · left
      simp only [appendSegment, hcur]
      split <;> rfl

/-- The current segment is the last of the list: it is changed in place, and freed in the end. -/
theorem broken_of_last {ctx : SegmentsCtx} (hstarted : ctx.started = true) (hcur : ctx.cur = .last)
    (ns : List UInt32) :
    (closeSegments (updateAll ctx ns)).broken = true := by
  induction ns generalizing ctx with
  | nil => exact broken_close_of_last hcur
  | cons n ns ih =>
    rcases update_of_last hstarted hcur n with hbroken | ⟨hstarted', hcur'⟩
    · exact broken_updateAll hbroken ns
    · exact ih hstarted' hcur'

/-- A list that is closed can only be closed again, and only if it has no current segment. -/
theorem SegmentsCtx.Closed.again {ctx : SegmentsCtx} (h : ctx.Closed) {ns : List UInt32}
    (hdefined : (closeSegments (updateAll ctx ns)).broken = false) :
    closeSegments (updateAll ctx ns) = ctx := by
  rcases h.cur with hcur | hcur
  · cases ns with
    | nil =>
      change closeSegments ctx = ctx
      rw [closeSegments, if_pos hcur]
    | cons n ns =>
      have := broken_updateAll (broken_update_of_null h.started hcur n) ns
      exact absurd (this.symm.trans hdefined) (by decide)
  · have := broken_of_last h.started hcur ns
    exact absurd (this.symm.trans hdefined) (by decide)

end LibDtp
