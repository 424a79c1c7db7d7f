import LibDtp.Client.SegmentLists
import LibDtp.Client.SegmentSets
import LibDtp.Foundation.Runs

/-!
# A segment list used again

A session object that is used for several transfers keeps its segment list: `apm_on_start` makes a
new one only if there is none. The list is then updated and closed, and updated and closed again.

## The model

`SegmentOp` is a call of `update_segments` or `close_segments`, and a run is any sequence of them on
a context from `init_segments_ctx`. A run is `Transparent` if nothing undefined happens in it, up to
and including one more `close_segments` at its end, and the list is then the one which that last
call alone would have left.

`SegmentsCtx.Ready` is what a call must find for it to be defined in the long run: no current
segment yet, or one that is not in the list. `close_segments` links the current segment into the
list and goes on pointing at it, which is why a second one frees a node of the list.

## What is proved

* `transparent_iff` — a run is transparent exactly if all its calls find the context ready. Without
  the packet number `UINT32_MAX` that is to say that all the closing but the last is done before the
  first packet.
-/

namespace LibDtp

open Runs

/-- A call on a segment list. -/
inductive SegmentOp where
  /-- `update_segments`. -/
  | update (received : UInt32)
  /-- `close_segments`. -/
  | close
  deriving DecidableEq, Repr

/-- One call. -/
def SegmentsCtx.perform (ctx : SegmentsCtx) : SegmentOp → SegmentsCtx
  | .update received => updateSegments ctx received
  | .close => closeSegments ctx

/-- The packet of a call. -/
def SegmentOp.packet : SegmentOp → Option UInt32
  | .update received => some received
  | .close => none

/-- The packets of some calls. -/
def packetsIn (ops : List SegmentOp) : List UInt32 := ops.filterMap SegmentOp.packet

/-- The calls, and one more `close_segments`, leave a list of live nodes without following a null
pointer, and it is the list which that last call alone would leave. -/
def Transparent (ops : List SegmentOp) : Prop :=
  (run SegmentsCtx.perform initSegmentsCtx (ops ++ [.close])).broken = false ∧
    (run SegmentsCtx.perform initSegmentsCtx (ops ++ [.close])).segments =
      (run SegmentsCtx.perform initSegmentsCtx ((packetsIn ops).map .update ++ [.close])).segments

/-- A packet finds that there has been none, or a current segment that is not in the list;
`close_segments` finds such a segment, or none. -/
def SegmentsCtx.Ready (ctx : SegmentsCtx) : SegmentOp → Prop
  | .update _ => ctx.started = false ∨ ∃ s, ctx.cur = .own s
  | .close => ctx.cur ≠ .last

/-- Where a context is in its life, after the packets `ns`. -/
inductive SegmentsCtx.Phase (ns : List UInt32) (ctx : SegmentsCtx) : Prop where
  /-- There has been no packet. -/
  | fresh (hns : ns = []) (h : ctx = initSegmentsCtx)
  /-- The current segment is not in the list. -/
  | receiving (h : ctx = updateAll initSegmentsCtx ns) (hstarted : ctx.started = true)
      (hcur : ∃ s, ctx.cur = .own s)
      (hdefined : ctx.broken = false)
  /-- The list has been closed. -/
  | closed (h : ctx = closeSegments (updateAll initSegmentsCtx ns)) (hstarted : ctx.started = true)
      (hcur : ctx.cur = .null ∨ ctx.cur = .last) (hdefined : ctx.broken = false)

/-! ### One call -/

theorem updateAll_concat (ctx : SegmentsCtx) (ns : List UInt32) (n : UInt32) :
    updateAll ctx (ns ++ [n]) = updateSegments (updateAll ctx ns) n := by
  simp [updateAll]

/-- Appending a segment that is not in the list: it is linked, or taken in and freed. -/
theorem appendSegment_of_own {ctx : SegmentsCtx} {s : Segment} (hcur : ctx.cur = .own s) :
    (appendSegment ctx).started = ctx.started ∧ (appendSegment ctx).broken = ctx.broken ∧
      ((appendSegment ctx).cur = .null ∨ (appendSegment ctx).cur = .last) := by
  simp only [appendSegment, hcur]
  split_ifs
  · exact ⟨rfl, rfl, Or.inr rfl⟩
  · exact ⟨rfl, rfl, Or.inl rfl⟩

/-- A packet, with a current segment that is not in the list. -/
theorem update_of_own {ctx : SegmentsCtx} {s : Segment} (hstarted : ctx.started = true)
    (hcur : ctx.cur = .own s) (n : UInt32) :
    (updateSegments ctx n).started = true ∧ (∃ s, (updateSegments ctx n).cur = .own s) ∧
      (updateSegments ctx n).broken = ctx.broken := by
  obtain ⟨hstarted', hbroken, -⟩ := appendSegment_of_own hcur
  have hcurrent : ctx.current = some s := by rw [SegmentsCtx.current, hcur]
  simp only [updateSegments, updateSegmentsRange]
  rw [if_neg (by rw [hstarted]; decide)]
  simp only [hcurrent]
  split_ifs
  · exact ⟨hstarted, ⟨s, hcur⟩, rfl⟩
  · rw [SegmentsCtx.setCurrentEnd, hcur]
    exact ⟨hstarted, ⟨_, rfl⟩, rfl⟩
  · exact ⟨hstarted'.trans hstarted, ⟨_, rfl⟩, hbroken⟩

/-- A call that finds the context ready. -/
theorem SegmentsCtx.Phase.step {ns : List UInt32} {ctx : SegmentsCtx} (h : ctx.Phase ns)
    {op : SegmentOp} (hready : ctx.Ready op) : (ctx.perform op).Phase (ns ++ op.packet.toList) := by
  cases op with
  | update n =>
    change (updateSegments ctx n).Phase (ns ++ [n])
    cases h with
    | fresh hns hctx =>
      rw [hns, hctx]
      exact .receiving rfl rfl ⟨_, rfl⟩ rfl
    | receiving hctx hstarted hcur hdefined =>
      obtain ⟨s, hcur⟩ := hcur
      obtain ⟨hstarted', hcur', hbroken⟩ := update_of_own hstarted hcur n
      exact .receiving (by rw [updateAll_concat, hctx]) hstarted' hcur' (hbroken.trans hdefined)
    | closed _ hstarted hcur _ =>
      rcases hready with hready | ⟨s, hready⟩
      · rw [hstarted] at hready
        cases hready
      · rcases hcur with hcur | hcur <;> rw [hready] at hcur <;> cases hcur
  | close =>
    change (closeSegments ctx).Phase (ns ++ [])
    rw [List.append_nil]
    cases h with
    | fresh hns hctx =>
      rw [hctx]
      exact .fresh hns rfl
    | receiving hctx hstarted hcur hdefined =>
      obtain ⟨s, hcur⟩ := hcur
      obtain ⟨hstarted', hbroken, hcur'⟩ := appendSegment_of_own hcur
      have hclose : closeSegments ctx = appendSegment ctx := by
        rw [closeSegments, if_neg (by rw [hcur]; simp)]
      refine .closed (by rw [hctx]) ?_ ?_ ?_
      · rw [hclose, hstarted', hstarted]
      · rw [hclose]
        exact hcur'
      · rw [hclose, hbroken, hdefined]
    | closed hctx hstarted hcur hdefined =>
      have hnull : ctx.cur = .null := hcur.resolve_right hready
      have hclose : closeSegments ctx = ctx := by rw [closeSegments, if_pos hnull]
      rw [hclose]
      exact .closed hctx hstarted hcur hdefined

/-- A call that does not find it ready: the next `close_segments`, at the latest, is undefined. -/
theorem SegmentsCtx.Phase.not_ready {ns : List UInt32} {ctx : SegmentsCtx} (h : ctx.Phase ns)
    {op : SegmentOp} (hready : ¬ ctx.Ready op) : (ctx.perform op).broken = true ∨
      (ctx.perform op).started = true ∧ (ctx.perform op).cur = .last := by
  cases op with
  | update n =>
    cases h with
    | fresh _ hctx =>
      rw [hctx] at hready
      exact absurd (Or.inl rfl) hready
    | receiving _ _ hcur _ => exact absurd (Or.inr hcur) hready
    | closed _ hstarted hcur _ =>
      rcases hcur with hcur | hcur
      · exact Or.inl (broken_update_of_null hstarted hcur n)
      · exact update_of_last hstarted hcur n
  | close => exact Or.inl (broken_close_of_last (not_not.mp hready))

/-! ### Any number of calls -/

theorem broken_perform {ctx : SegmentsCtx} (h : ctx.broken = true) (op : SegmentOp) :
    (ctx.perform op).broken = true := by
  cases op with
  | update n => exact broken_update h n
  | close => exact broken_closeSegments h

/-- A context that is broken, or whose current segment is the last of the list, is broken after a
last `close_segments`. -/
theorem broken_run {ctx : SegmentsCtx}
    (h : ctx.broken = true ∨ ctx.started = true ∧ ctx.cur = .last) (ops : List SegmentOp) :
    (run SegmentsCtx.perform ctx (ops ++ [.close])).broken = true := by
  induction ops generalizing ctx with
  | nil =>
    rcases h with h | ⟨-, hcur⟩
    · exact broken_closeSegments h
    · exact broken_close_of_last hcur
  | cons op ops ih =>
    rw [List.cons_append, run_cons]
    apply ih
    rcases h with h | ⟨hstarted, hcur⟩
    · exact Or.inl (broken_perform h op)
    · cases op with
      | update n => exact update_of_last hstarted hcur n
      | close => exact Or.inl (broken_close_of_last hcur)

/-- A run with a last `close_segments` is defined only if every call finds the context ready. -/
theorem SegmentsCtx.Phase.along {ns : List UInt32} {ctx : SegmentsCtx} (h : ctx.Phase ns)
    {ops : List SegmentOp}
    (hdefined : (run SegmentsCtx.perform ctx (ops ++ [.close])).broken = false) :
    Along SegmentsCtx.perform SegmentsCtx.Ready ctx (ops ++ [.close]) := by
  induction ops generalizing ns ctx with
  | nil =>
    refine ⟨?_, trivial⟩
    intro hcur
    have := (broken_close_of_last hcur).symm.trans hdefined
    cases this
  | cons op ops ih =>
    have hready : ctx.Ready op := by
      by_contra hnot
      have := (broken_run (h.not_ready hnot) ops).symm.trans hdefined
      cases this
    exact ⟨hready, ih (h.step hready) hdefined⟩

/-- If every call finds the context ready, the context goes through its life. -/
theorem SegmentsCtx.Phase.run {ns : List UInt32} {ctx : SegmentsCtx} (h : ctx.Phase ns)
    {ops : List SegmentOp} (hready : Along SegmentsCtx.perform SegmentsCtx.Ready ctx ops) :
    (run SegmentsCtx.perform ctx ops).Phase (ns ++ packetsIn ops) := by
  induction ops generalizing ns ctx with
  | nil => simpa [packetsIn] using h
  | cons op ops ih =>
    have hpackets : packetsIn (op :: ops) = op.packet.toList ++ packetsIn ops := by
      cases op <;> rfl
    rw [run_cons, hpackets, ← List.append_assoc]
    exact ih (h.step hready.1) hready.2

/-- A last `close_segments` that finds the context ready leaves what it would leave after the
packets alone. -/
theorem SegmentsCtx.Phase.close_eq {ns : List UInt32} {ctx : SegmentsCtx} (h : ctx.Phase ns)
    (hready : ctx.Ready .close) :
    closeSegments ctx = closeSegments (updateAll initSegmentsCtx ns) := by
  cases h with
  | fresh hns hctx =>
    rw [hns, hctx]
    rfl
  | receiving hctx => rw [hctx]
  | closed hctx _ hcur _ => rw [← hctx, closeSegments, if_pos (hcur.resolve_right hready)]

theorem SegmentsCtx.Phase.defined {ns : List UInt32} {ctx : SegmentsCtx} (h : ctx.Phase ns) :
    ctx.broken = false := by
  cases h with
  | fresh _ hctx =>
    rw [hctx]
    rfl
  | receiving _ _ _ hdefined => exact hdefined
  | closed _ _ _ hdefined => exact hdefined

theorem phase_init : initSegmentsCtx.Phase [] := .fresh rfl rfl

theorem run_updates (ctx : SegmentsCtx) (ns : List UInt32) :
    Runs.run SegmentsCtx.perform ctx (ns.map .update) = updateAll ctx ns := by
  rw [Runs.run, List.foldl_map]
  rfl

/-- A run is transparent if and only if all its calls find the context ready. -/
theorem transparent_iff_along (ops : List SegmentOp) :
    Transparent ops ↔ Along SegmentsCtx.perform SegmentsCtx.Ready initSegmentsCtx
      (ops ++ [.close]) := by
  constructor
  · rintro ⟨hdefined, -⟩
    exact phase_init.along hdefined
  · intro hready
    have hdefined := (phase_init.run hready).defined
    obtain ⟨hops, hlast⟩ := along_append.mp hready
    refine ⟨hdefined, ?_⟩
    rw [run_append, run_append, run_updates]
    change (closeSegments _).segments = (closeSegments _).segments
    rw [(phase_init.run hops).close_eq hlast.1, List.nil_append]

/-! ### Without `UINT32_MAX` -/

/-- Once a list has been closed, no call finds it ready. -/
theorem not_along_of_last {ctx : SegmentsCtx} (hstarted : ctx.started = true)
    (hcur : ctx.cur = .last) (ops : List SegmentOp) :
    ¬ Along SegmentsCtx.perform SegmentsCtx.Ready ctx (ops ++ [.close]) := by
  cases ops with
  | nil => exact fun h => h.1 hcur
  | cons op ops =>
    cases op with
    | update n =>
      rintro ⟨h | ⟨s, h⟩, -⟩
      · rw [hstarted] at h
        cases h
      · rw [hcur] at h
        cases h
    | close => exact fun h => h.1 hcur

section Ordinary

variable {ns : List UInt32} {ctx : SegmentsCtx} {ops : List SegmentOp}

/-- After the first packet there may only be more packets. -/
theorem updates_of_along (h : ctx.Phase ns) (hcur : ∃ s, ctx.cur = .own s)
    (hns : ∀ n ∈ ns ++ packetsIn ops, n < uint32Max) (hne : ns ≠ [])
    (hready : Along SegmentsCtx.perform SegmentsCtx.Ready ctx (ops ++ [.close])) :
    ∃ ms : List UInt32, ops = ms.map .update := by
  induction ops generalizing ns ctx with
  | nil => exact ⟨[], rfl⟩
  | cons op ops ih =>
    obtain ⟨s, hown⟩ := hcur
    cases h with
    | fresh hnil _ => exact absurd hnil hne
    | closed _ _ hcur _ => rcases hcur with hcur | hcur <;> rw [hown] at hcur <;> cases hcur
    | receiving hctx hstarted hcur hdefined =>
      have hphase : ctx.Phase ns := .receiving hctx hstarted hcur hdefined
      cases op with
      | update n =>
        obtain ⟨-, hcur', -⟩ := update_of_own hstarted hown n
        obtain ⟨ms, hms⟩ :=
          ih (hphase.step hready.1) hcur' (by simpa [packetsIn, SegmentOp.packet] using hns)
          (by simp [SegmentOp.packet]) hready.2
        exact ⟨n :: ms, by rw [hms]; rfl⟩
      | close =>
        have hlast : (closeSegments ctx).cur = .last := by
          rw [hctx]
          exact cur_updateAll (fun n hn => lt_uint32Max.mp (hns n (List.mem_append_left _ hn))) hne
        obtain ⟨hstarted', -, -⟩ := appendSegment_of_own hown
        have hclose : closeSegments ctx = appendSegment ctx := by
          rw [closeSegments, if_neg (by rw [hown]; simp)]
        refine absurd hready.2 (not_along_of_last ?_ hlast ops)
        rw [hclose, hstarted', hstarted]

/-- All the closing but the last is done before the first packet. -/
theorem closes_first_of_along (hns : ∀ n ∈ packetsIn ops, n < uint32Max)
    (hready : Along SegmentsCtx.perform SegmentsCtx.Ready initSegmentsCtx (ops ++ [.close])) :
    ∃ (k : ℕ) (ms : List UInt32), ops = List.replicate k .close ++ ms.map .update := by
  induction ops with
  | nil => exact ⟨0, [], rfl⟩
  | cons op ops ih =>
    cases op with
    | close =>
      obtain ⟨k, ms, hops⟩ := ih hns hready.2
      exact ⟨k + 1, ms, by rw [hops]; rfl⟩
    | update n =>
      obtain ⟨ms, hms⟩ := updates_of_along (phase_init.step hready.1) ⟨_, rfl⟩ hns
        (by simp [SegmentOp.packet]) hready.2
      exact ⟨0, n :: ms, by rw [hms]; rfl⟩

end Ordinary

/-- Packets alone find the context ready. -/
theorem along_updates {ctx : SegmentsCtx}
    (h : ctx = initSegmentsCtx ∨ ctx.started = true ∧ ∃ s, ctx.cur = .own s) (ns : List UInt32) :
    Along SegmentsCtx.perform SegmentsCtx.Ready ctx (ns.map .update ++ [.close]) := by
  induction ns generalizing ctx with
  | nil =>
    refine ⟨fun hcur => ?_, trivial⟩
    rcases h with rfl | ⟨-, s, hown⟩
    · cases hcur
    · rw [hown] at hcur
      cases hcur
  | cons n ns ih =>
    rcases h with rfl | ⟨hstarted, s, hown⟩
    · exact ⟨Or.inl rfl, ih (Or.inr ⟨rfl, _, rfl⟩)⟩
    · obtain ⟨hstarted', hcur', -⟩ := update_of_own hstarted hown n
      exact ⟨Or.inr ⟨s, hown⟩, ih (Or.inr ⟨hstarted', hcur'⟩)⟩

/-- So do they after some closing of an empty list. -/
theorem along_closes_first (k : ℕ) (ns : List UInt32) :
    Along SegmentsCtx.perform SegmentsCtx.Ready initSegmentsCtx
      (List.replicate k .close ++ ns.map .update ++ [.close]) := by
  induction k with
  | zero => exact along_updates (Or.inl rfl) ns
  | succ k ih => exact ⟨by simp [SegmentsCtx.Ready, initSegmentsCtx], ih⟩

/-- Closing is transparent if and only if every call finds the context ready; without `UINT32_MAX`,
if and only if all the closing but the last is done before the first packet. -/
theorem transparent_iff (ops : List SegmentOp) :
    (Transparent ops ↔ Along SegmentsCtx.perform SegmentsCtx.Ready initSegmentsCtx
      (ops ++ [.close])) ∧
      ((∀ n ∈ packetsIn ops, n < uint32Max) →
        (Transparent ops ↔ ∃ (k : ℕ) (ns : List UInt32),
          ops = List.replicate k .close ++ ns.map .update)) := by
  refine ⟨transparent_iff_along ops, fun hns => ?_⟩
  rw [transparent_iff_along]
  constructor
  · exact closes_first_of_along hns
  · rintro ⟨k, ns, rfl⟩
    exact along_closes_first k ns

/-- An empty list is closed twice, and three packets are received. -/
theorem transparent_closes_first :
    Transparent [.close, .close, .update 4, .update 5, .update 9] := by
  refine ((transparent_iff _).2 ?_).mpr ⟨2, [4, 5, 9], rfl⟩
  show ∀ n ∈ [4, 5, 9], n < uint32Max
  simp [uint32Max]

/-- A packet is received and the list closed; closing it again frees its only segment. -/
theorem close_twice : ¬ Transparent [.update 4, .close] := by
  rintro ⟨hdefined, -⟩
  exact absurd hdefined (by decide)

end LibDtp
