import LibDtp.Client.Connections
import LibDtp.Client.MemorySafety
import LibDtp.Client.Stop
import Mathlib.Algebra.BigOperators.Fin

/-!
# The session pool

Whole runs of the client side of the library: the sessions it hands out and takes back, and the
hooks it calls for them.

## The model

`Library` is the library with a record of what its users have done: which sessions they have
obtained and given back, what the last transfer of each has returned, how many transfers have left
their output file open, and which hooks have been called. The record is only looked at to say which
calls the users make, in `Permitted`: they use a session that they have, start one transfer on it,
save it only if that transfer has come to its end, and get packets only if the output file could be
opened, each of them with a header. Files may be anything when they are opened.

A call that does not return is not part of a run. It may divide by zero: see `prepareSession` and
`enterReceive`.

## What is proved

* `endpoint_perform` — the record changes nothing.
* `session_pool` — no session is handed out that somebody has, none is lost, and there is none to be
  had exactly if five are out; one that is not out has been cleared.
* `client_memory_safe` — the hooks that are called in a run follow only valid pointers, and every
  session in memory is the one the library has.
* `client_leaks` — when nobody has a session, what is still allocated is one `FILE` for every
  transfer that could open its output file and not its port.
-/

namespace LibDtp

open Bytes Heaps Runs Ownership

/-- `dtp_release_session` has cleared the session. -/
def Session.released (s : Session) : Session :=
  { s with hookCtx := none, bytesReceived := 0, request := { s.request with
    nofIntervals := 0 }, errno := .noErr }

/-- The hooks that `dtp_release_session` calls, and the fields it writes. -/
def releaseCalls (s : Session) : List SessionCall := [.release, .fields s.released]

/-- The hooks that `dtp_prepare_session` calls, in a free slot, if it returns. -/
def prepareCalls (host : ByteOrder) (slot : Session) (p : Params) (resume : Bool) (d : Disk) :
    List SessionCall :=
  let read := if resume then [.files d, .deserialize] else []
  let rest :=
    match prepareSession host slot p resume d, apmOnDeserialize host (acquireSession slot) d with
    | .ok s, _ => [.fields s]
    | .error _, .ok s =>
      let s := { s with errno := .sessionExhausted }
      .fields s :: releaseCalls s
    | .error _, .error _ => []
  .fields (acquireSession slot) :: (read ++ rest)

/-- The library, with a record of what has been done. -/
structure Library where
  /-- Its sessions and connections. -/
  endpoint : Endpoint
  /-- The sessions that were obtained and given back. -/
  uses : List (Use (Fin 5))
  /-- What the transfer of a session has returned, if there was one since it was obtained. -/
  results : Fin 5 → Option DtpResult
  /-- How many transfers in a slot have left their output file open. -/
  unclosed : Fin 5 → ℕ
  /-- The hooks that were called. -/
  calls : List (Fin 5 × SessionCall)

/-- A call of the library. -/
inductive LibraryCall where
  /-- One that may use connections. Does `fopen` succeed for the output file, if it is called? -/
  | call (c : Call) (opens : Bool)
  /-- `dtp_vmem_client_main`. -/
  | vmemClientMain (i : Fin 5) (d : Disk) (bind : Bool) (now : UInt32) (es : List RecvEvent)
      (alives : List RequestEnv)
      (opens : Bool)
  /-- `dtp_serialize_session`. -/
  | serialize (i : Fin 5) (d : Disk)
  /-- `dtp_stop_transfer`. -/
  | stop (id : UInt32)
  /-- `dtp_set_opt`, or whatever else a user writes to a session; `hook_ctx` is not written. -/
  | setOpt (i : Fin 5) (s : Session)

/-- `dtp_vmem_client_main`, with what the stack answers to its keep-alives. -/
def Endpoint.vmemClientMain (E : ErrorTest) (e : Endpoint) (i : Fin 5) (d : Disk) (bind : Bool)
    (now : UInt32) (es : List RecvEvent) (alives : List RequestEnv) :
    Option (Endpoint × DtpResult) :=
  let slot := e.slots.get i
  match startReceivingData E slot.session d bind now es with
  | .ok (some rec) =>
    if alives.length = rec.log.count .alive then
      some (alives.foldl vmemRequestDtp (e.setSlot i { slot with session := rec.session }),
        rec.result)
    else none
  | _ => none

namespace Library

/-- Something is done for a session, and leaves `n` files open. -/
def note (lib : Library) (e : Endpoint) (us : List (Use (Fin 5))) (i : Fin 5)
    (res : Option DtpResult) (n : ℕ) (cs : List SessionCall) : Library where
  endpoint := e
  uses := lib.uses ++ us
  results := Function.update lib.results i res
  unclosed := Function.update lib.unclosed i (lib.unclosed i + n)
  calls := lib.calls ++ cs.map (i, ·)

/-- `dtp_prepare_session`. -/
def prepare (host : ByteOrder) (lib : Library) (p : Params) (resume : Bool) (d : Disk) :
    Option (Option (Fin 5) × Library) :=
  (lib.endpoint.prepareSession host p resume d).map fun r =>
    match lib.endpoint.freeSlot with
    | none => (r.1, { lib with endpoint := r.2 })
    | some i =>
      let us := if r.1 = none then [.take i, .give i] else [.take i]
      (r.1, lib.note r.2 us i none 0
        (prepareCalls host (lib.endpoint.slots.get i).session p resume d))

/-- `dtp_start_transfer`. -/
def start (E : ErrorTest) (lib : Library) (i : Fin 5) (env : TransferEnv) (d : Disk)
    (es : List RecvEvent) (alives : List RequestEnv) (opens : Bool) :
    Option (Library × DtpResult) :=
  (lib.endpoint.startTransfer E i env d es alives).map fun r =>
    (lib.note r.1 [] i (some r.2) (transferLeaves env opens)
      (.files d :: transferCalls E env (lib.endpoint.slots.get i).session d es opens), r.2)

/-- `dtp_release_session`. -/
def release (lib : Library) (i : Fin 5) : Library :=
  lib.note (lib.endpoint.releaseSession i) [.give i] i none 0
    (releaseCalls (lib.endpoint.slots.get i).session)

/-- `dtp_client_main`. -/
def clientMain (E : ErrorTest) (host : ByteOrder) (lib : Library) (p : Params) (resume out : Bool)
    (d : Disk) (env : TransferEnv) (es : List RecvEvent) (alives : List RequestEnv) (opens : Bool) :
    Option Library :=
  match lib.prepare host { p with sessionId := 0x900dface } resume d with
  | none => none
  | some (none, lib) => some lib
  | some (some i, lib) =>
    (lib.start E i env d es alives opens).map fun r =>
      if (r.2 = .ok ∨ r.2 = .cancelled) ∧ out then r.1 else r.1.release i

/-- `dtp_vmem_client_main`. -/
def vmemClientMain (E : ErrorTest) (lib : Library) (i : Fin 5) (d : Disk) (bind : Bool)
    (now : UInt32) (es : List RecvEvent) (alives : List RequestEnv) (opens : Bool) :
    Option Library :=
  (lib.endpoint.vmemClientMain E i d bind now es alives).map fun r =>
    lib.note r.1 [] i (some r.2) (receiveLeaves bind opens)
      (.files d :: receiveCalls E (lib.endpoint.slots.get i).session d bind now es opens)

/-- The fields of a session are written. -/
def setOpt (lib : Library) (i : Fin 5) (s : Session) : Library :=
  let slot := lib.endpoint.slots.get i
  let e := lib.endpoint.setSlot i
    { slot with session := { s with hookCtx := slot.session.hookCtx } }
  lib.note e [] i (lib.results i) 0 [.fields s]

/-- A turn of the loop of `dtp_stop_transfer`. -/
def stopSlot (id : UInt32) (lib : Library) (i : Fin 5) : Library :=
  if (lib.endpoint.slots.get i).inUse then lib.setOpt i ((lib.endpoint.slots.get i).session.stop id)
    else lib

/-- A call, if it returns. -/
def perform (E : ErrorTest) (host : ByteOrder) (lib : Library) : LibraryCall → Option Library
  | .call (.prepare p resume d) _ => (lib.prepare host p resume d).map Prod.snd
  | .call (.start i env d es alives) opens => (lib.start E i env d es alives opens).map Prod.fst
  | .call (.release none) _ => some lib
  | .call (.release (some i)) _ => some (lib.release i)
  | .call (.clientMain p resume out d env es alives) opens =>
    lib.clientMain E host p resume out d env es alives opens
  | .call (.request env) _ => some { lib with endpoint := lib.endpoint.vmemRequestDtp env }
  | .call (.serve ctx it) _ => (lib.endpoint.serve E host ctx it).map ({ lib with endpoint := · })
  | .vmemClientMain i d bind now es alives opens =>
    lib.vmemClientMain E i d bind now es alives opens
  | .serialize i d => some (lib.note lib.endpoint [] i (lib.results i) 0 [.files d, .serialize])
  | .stop id => some ((List.finRange 5).foldl (stopSlot id) lib)
  | .setOpt i s => some (lib.setOpt i s)

/-- The record changes nothing. -/
theorem endpoint_perform (E : ErrorTest) (host : ByteOrder) (lib : Library) (c : Call)
    (opens : Bool) :
    (lib.perform E host (.call c opens)).map endpoint = lib.endpoint.perform E host c := by
  have hprepare : ∀ p resume d, (lib.prepare host p resume d).map (fun r => (r.1, r.2.endpoint)) =
      lib.endpoint.prepareSession host p resume d := fun p resume d => by
    rw [prepare]
    cases lib.endpoint.prepareSession host p resume d with
    | none => rfl
    | some r => cases lib.endpoint.freeSlot <;> rfl
  cases c with
  | prepare p resume d =>
    simp only [perform, Endpoint.perform, ← hprepare, Option.map_map]
    rfl
  | start i env d es alives =>
    simp only [perform, Endpoint.perform, start, Option.map_map]
    rfl
  | release i => cases i <;> rfl
  | clientMain p resume out d env es alives =>
    simp only [perform, Endpoint.perform, clientMain, Endpoint.clientMain, ← hprepare]
    cases lib.prepare host { p with sessionId := 0x900dface } resume d with
    | none => rfl
    | some r =>
      obtain ⟨slot, lib'⟩ := r
      cases slot with
      | none => rfl
      | some i =>
        simp only [start, Option.map_some, Option.map_map, Function.comp_def]
        congr 1
        funext r
        split_ifs <;> rfl
  | request env => rfl
  | serve ctx it =>
    simp only [perform, Endpoint.perform, Option.map_map]
    exact Option.map_id'

/-- Somebody has the session. -/
def Held (lib : Library) (i : Fin 5) : Prop := ∃ held, settle [] lib.uses = some held ∧ i ∈ held

/-- The calls that the users make. -/
def Permitted (lib : Library) : LibraryCall → Prop
  | .call (.start i _ _ es _) opens => lib.Held i ∧ lib.results i = none ∧ Writable opens es
  | .call (.release (some i)) _ => lib.Held i
  | .call (.clientMain _ _ _ _ _ es _) opens => Writable opens es
  | .vmemClientMain i _ _ _ es _ opens => lib.Held i ∧ lib.results i = none ∧ Writable opens es
  | .serialize i _ => lib.Held i ∧ ∃ r ∈ lib.results i, r ≠ .err
  | .setOpt i _ => lib.Held i
  | _ => True

instance (lib : Library) (i : Fin 5) : Decidable (lib.Held i) :=
  decidable_of_iff ((settle [] lib.uses).any fun held => decide (i ∈ held)) <| by
    simp [Held, Option.any_eq_true]

instance (lib : Library) : ∀ c, Decidable (lib.Permitted c)
  | .call (.start _ _ _ _ _) _ => inferInstanceAs (Decidable (_ ∧ _ ∧ _))
  | .call (.release (some i)) _ => inferInstanceAs (Decidable (lib.Held i))
  | .call (.clientMain _ _ _ _ _ es _) opens => inferInstanceAs (Decidable (Writable opens es))
  | .vmemClientMain _ _ _ _ _ _ _ => inferInstanceAs (Decidable (_ ∧ _ ∧ _))
  | .serialize _ _ => inferInstanceAs (Decidable (_ ∧ _))
  | .setOpt i _ => inferInstanceAs (Decidable (lib.Held i))
  | .call (.prepare _ _ _) _ => isTrue trivial
  | .call (.release none) _ => isTrue trivial
  | .call (.request _) _ => isTrue trivial
  | .call (.serve _ _) _ => isTrue trivial
  | .stop _ => isTrue trivial

/-- At the start of a process. -/
def initial : Library := ⟨.initial, [], fun _ => none, fun _ => 0, []⟩

/-- What can be reached by such calls. -/
inductive Reachable (E : ErrorTest) (host : ByteOrder) : Library → Prop where
  /-- Nothing has been done. -/
  | initial : Reachable E host initial
  /-- A call has returned. -/
  | call {lib lib' : Library} {c : LibraryCall} (h : Reachable E host lib) (hc : lib.Permitted c)
      (hperform : lib.perform E host c = some lib') : Reachable E host lib'

/-- The library after a call; nothing is done if the call does not return. -/
def afterCall (E : ErrorTest) (host : ByteOrder) (lib : Library) (c : LibraryCall) : Library :=
  (lib.perform E host c).getD lib

/-- The call is made, and returns. -/
def Returns (E : ErrorTest) (host : ByteOrder) (lib : Library) (c : LibraryCall) : Prop :=
  lib.Permitted c ∧ (lib.perform E host c).isSome

instance (E : ErrorTest) (host : ByteOrder) (lib : Library) (c : LibraryCall) :
    Decidable (lib.Returns E host c) :=
  inferInstanceAs (Decidable (_ ∧ _))

/-- What a run of calls reaches that are made and return. -/
theorem reachable_run {E : ErrorTest} {host : ByteOrder} {cs : List LibraryCall}
    (h : Along (afterCall E host) (Returns E host) initial cs) :
    Reachable E host (run (afterCall E host) initial cs) := by
  refine Along.invariant h (fun lib c hc hlib => ?_) .initial
  obtain ⟨lib', hlib'⟩ := Option.isSome_iff_exists.mp hc.2
  rw [afterCall, hlib']
  exact .call hlib hc.1 hlib'

end Library

/-! ### What is done for one session -/

section Sessions

variable (host : ByteOrder) {ph ph₁ ph₂ : Phase} {s s₁ s₂ slot : Session}
  {cs cs₁ cs₂ : List SessionCall} {n n₁ n₂ : ℕ} {p : Params} {resume : Bool} {d : Disk}

/-- Some calls take a session from one phase to another, and make this of its fields, whatever its
files are; they leave `n` files open. -/
def Makes (ph : Phase) (s : Session) (cs : List SessionCall) (n : ℕ) (ph' : Phase) (s' : Session) :
    Prop :=
  ∀ x : SessionFiles, x.session = s →
    ∃ y, x.Goes host ph cs ph' y ∧ y.session = s' ∧ y.unclosed = x.unclosed + n

theorem Makes.append (h : Makes host ph s cs₁ n₁ ph₁ s₁) (h' : Makes host ph₁ s₁ cs₂ n₂ ph₂ s₂) :
    Makes host ph s (cs₁ ++ cs₂) (n₁ + n₂) ph₂ s₂ := fun x hx => by
  obtain ⟨x₁, hgoes₁, hx₁, hn₁⟩ := h x hx
  obtain ⟨y, hgoes, hy, hn⟩ := h' x₁ hx₁
  exact ⟨y, hgoes₁.append host hgoes, hy, by rw [hn, hn₁, Nat.add_assoc]⟩

theorem makes_fields (ph : Phase) (s t : Session) :
    Makes host ph s [.fields t] 0 ph { t with hookCtx := s.hookCtx } :=
  fun x hx => ⟨_, SessionFiles.goes_fields host ph x t, by rw [hx], rfl⟩

theorem makes_release (hph : ph.next .release = some .idle) (s : Session) :
    Makes host ph s (releaseCalls s) 0 .idle s.released := fun x hx => by
  obtain ⟨y, hgoes, hy, hn⟩ := makes_fields host .idle { s with hookCtx := none } s.released
    { x with session := { x.session with hookCtx := none }, output := .null } (by rw [hx])
  exact ⟨y, hgoes.cons host hph rfl, hy, hn⟩

theorem makes_serialize (s : Session) (d : Disk) :
    Makes host .ended s [.files d, .serialize] 0 .ended s := fun x hx => by
  have hserialize : SessionFiles.call host { x with disk := d } .serialize =
      .ok { x with disk := apmOnSerialize host x.session d } := rfl
  have hnext : Phase.ended.next .serialize = some .ended := rfl
  have hgoes := (SessionFiles.goes_nil host .ended _).cons host hnext hserialize
  exact ⟨_, hgoes.cons host rfl rfl, hx, rfl⟩

/-- The phase that is reached does not depend on the files. -/
theorem makes_of_goes {P : Phase → Prop} (h : ∀ x : SessionFiles, x.session = s →
    ∃ ph' y, x.Goes host ph cs ph' y ∧ y.session = s₁ ∧ y.unclosed = x.unclosed + n ∧ P ph') :
    ∃ ph', P ph' ∧ Makes host ph s cs n ph' s₁ := by
  obtain ⟨ph', _, hgoes', -, -, hP⟩ := h ⟨s, ⟨[], none⟩, .null, 0⟩ rfl
  refine ⟨ph', hP, fun x hx => ?_⟩
  obtain ⟨ph₂, y, hgoes, hy, hn, -⟩ := h x hx
  obtain rfl : ph₂ = ph' := Option.some.inj (hgoes.follows.symm.trans hgoes'.follows)
  exact ⟨y, hgoes, hy, hn⟩

theorem makes_read (h : apmOnDeserialize host s d = .ok s₁) :
    Makes host .idle s [.files d, .deserialize] 0 .ready s₁ := fun x hx => by
  have hcall : SessionFiles.call host { x with disk := d } .deserialize =
      .ok { x with session := s₁, disk := d } := by
    simp only [SessionFiles.call, hx, h, bind, Except.bind]
    rfl
  exact ⟨_, ((SessionFiles.goes_nil host .ready _).cons host rfl hcall).cons host rfl rfl, rfl, rfl⟩

theorem hookCtx_prepareRead {t : Session} (h : prepareRead t p = .ok s) :
    s.hookCtx = t.hookCtx := by
  unfold prepareRead at h
  split_ifs at h
  · obtain rfl := Except.ok.inj h
    rfl
  · obtain rfl := Except.ok.inj h
    rfl

/-- A session is prepared. -/
theorem makes_prepare (h : prepareSession host slot p resume d = .ok s) :
    ∃ ph, ph.Ready ∧ Makes host .idle slot (prepareCalls host slot p resume d) 0 ph s := by
  have hacquire := makes_fields host .idle slot (acquireSession slot)
  cases resume with
  | false =>
    refine ⟨.idle, .inl rfl, ?_⟩
    have hfields := makes_fields host .idle (acquireSession slot) s
    obtain rfl := Except.ok.inj h
    exact hacquire.append host hfields
  | true =>
    have hread := h
    unfold prepareSession at hread
    simp only [if_true] at hread
    cases ht : apmOnDeserialize host (acquireSession slot) d with
    | error f =>
      rw [ht] at hread
      cases hread
    | ok t =>
      rw [ht] at hread
      have hfields := makes_fields host .ready t s
      rw [← hookCtx_prepareRead hread] at hfields
      have hmakes := hacquire.append host ((makes_read host ht).append host hfields)
      refine ⟨.ready, .inr rfl, ?_⟩
      simp only [prepareCalls, h]
      exact hmakes

/-- A session is not prepared, but released. -/
theorem makes_refuse (h : prepareSession host slot p resume d = .error .sessionExhausted) :
    ∃ t, apmOnDeserialize host (acquireSession slot) d = .ok t ∧
      Makes host .idle slot (prepareCalls host slot p resume d) 0 .idle
        ({ t with errno := .sessionExhausted } : Session).released := by
  cases resume with
  | false => cases h
  | true =>
    cases ht : apmOnDeserialize host (acquireSession slot) d with
    | error f =>
      rw [prepareSession, if_pos rfl, ht] at h
      cases h
    | ok t =>
      refine ⟨t, rfl, ?_⟩
      have hacquire := makes_fields host .idle slot (acquireSession slot)
      have hfields := makes_fields host .ready t { t with errno := .sessionExhausted }
      have hnext : Phase.ready.next .release = some .idle := rfl
      have hrelease := makes_release host hnext { t with errno := .sessionExhausted }
      have hmakes :=
        hacquire.append host ((makes_read host ht).append host (hfields.append host hrelease))
      simp only [prepareCalls, h, ht]
      exact hmakes

/-- What is received for a session. -/
theorem makes_receive (hph : ph.Ready) {E : ErrorTest} {bind : Bool} {now : UInt32}
    {es : List RecvEvent} {r : Received} {opens : Bool} (hes : Writable opens es)
    (h : startReceivingData E s d bind now es = .ok (some r)) :
    ∃ ph', ph'.Left r.result ∧ Makes host ph s (.files d :: receiveCalls E s d bind now es opens)
      (receiveLeaves bind opens) ph' r.session := by
  refine makes_of_goes host fun x hx => ?_
  subst hx
  obtain ⟨ph', y, hgoes, hy, -, hn, hleft⟩ :=
    receive_follows host (x := { x with disk := d }) hph rfl hes h
  exact ⟨ph', y, hgoes.cons host (by rcases hph with rfl | rfl <;> rfl) rfl, hy, hn, hleft⟩

/-- A transfer. -/
theorem makes_start (hph : ph.Ready) {E : ErrorTest} {env : TransferEnv} {es : List RecvEvent}
    {r : Received} {opens : Bool} (hes : Writable opens es)
    (h : startTransfer E env s d es = .ok (some r)) :
    ∃ ph', ph'.Left r.result ∧ Makes host ph s (.files d :: transferCalls E env s d es opens)
      (transferLeaves env opens) ph' r.session := by
  refine makes_of_goes host fun x hx => ?_
  subst hx
  obtain ⟨ph', y, hgoes, hy, -, hn, hleft⟩ :=
    transfer_follows host (x := { x with disk := d }) hph rfl hes h
  exact ⟨ph', y, hgoes.cons host (by rcases hph with rfl | rfl <;> rfl) rfl, hy, hn, hleft⟩

/-- What is known of a slot between two calls. -/
structure Stage (inUse : Bool) (res : Option DtpResult) (ph : Phase) (s : Session) : Prop where
  /-- A session that nobody has was released. -/
  unused : inUse = false → ph = .idle ∧ s.Free
  /-- There was no transfer. -/
  prepared : res = none → ph.Ready
  /-- There was one. -/
  left : ∀ r ∈ res, ph.Left r

theorem Stage.releasable {b : Bool} {res : Option DtpResult} (h : Stage b res ph s) :
    ph.next .release = some .idle := by
  cases res with
  | none => rcases h.prepared rfl with rfl | rfl <;> rfl
  | some r => exact (h.left r rfl).releasable

theorem stage_released (s : Session) : Stage false none .idle s.released :=
  ⟨fun _ => ⟨rfl, rfl, rfl⟩, fun _ => .inl rfl, by simp⟩

theorem stage_prepared (hph : ph.Ready) (s : Session) : Stage true none ph s :=
  ⟨by simp, fun _ => hph, by simp⟩

theorem stage_left {r : DtpResult} (h : ph.Left r) (s : Session) : Stage true (some r) ph s :=
  ⟨by simp, by simp, fun _ hr => by rwa [← Option.some.inj hr]⟩

end Sessions

/-! ### What is done to the slots -/

namespace Endpoint

/-- One slot has changed: its session, and whether it is in use. -/
structure Puts (e e' : Endpoint) (i : Fin 5) (s : Session) (b : Bool) : Prop where
  /-- The session. -/
  session : (e'.slots.get i).session = s
  /-- `in_use`. -/
  inUse : (e'.slots.get i).inUse = b
  /-- The others have not. -/
  others : ∀ j ≠ i, e'.slots.get j = e.slots.get j

variable {e e' e'' : Endpoint} {i : Fin 5} {s s' : Session} {b b' : Bool}

theorem Puts.trans (h : e.Puts e' i s b) (h' : e'.Puts e'' i s' b') : e.Puts e'' i s' b' :=
  ⟨h'.session, h'.inUse, fun j hj => (h'.others j hj).trans (h.others j hj)⟩

theorem Puts.of_slots (h : e.Puts e' i s b) (hslots : e''.slots = e'.slots) : e.Puts e'' i s b :=
  ⟨hslots ▸ h.session, hslots ▸ h.inUse, hslots ▸ h.others⟩

theorem puts_setSlot (e : Endpoint) (i : Fin 5) (slot : Slot) :
    e.Puts (e.setSlot i slot) i slot.session slot.inUse := by
  refine ⟨by rw [get_setSlot], by rw [get_setSlot], fun j hj => ?_⟩
  exact Vector.getElem_set_ne i.isLt j.isLt fun h => hj (Fin.ext h).symm

theorem puts_self (e : Endpoint) (i : Fin 5) :
    e.Puts e i (e.slots.get i).session (e.slots.get i).inUse := ⟨rfl, rfl, fun _ _ => rfl⟩

theorem puts_releaseSession (e : Endpoint) (i : Fin 5) :
    e.Puts (e.releaseSession i) i (e.slots.get i).session.released false :=
  (puts_setSlot e i { e.slots.get i with
    session := (e.slots.get i).session.released, inUse := false }).of_slots rfl

theorem puts_startTransfer {E : ErrorTest} {env : TransferEnv} {d : Disk} {es : List RecvEvent}
    {alives : List RequestEnv} {r : Endpoint × DtpResult}
    (h : e.startTransfer E i env d es alives = some r) :
    ∃ rec, LibDtp.startTransfer E env (e.slots.get i).session d es = .ok (some rec) ∧
      r.2 = rec.result ∧
      e.Puts r.1 i rec.session (e.slots.get i).inUse := by
  simp only [startTransfer] at h
  split at h
  · rename_i rec hrec
    refine ⟨rec, hrec, ?_⟩
    split_ifs at h with hlength hconnect
    · obtain rfl := Option.some.inj h
      have hput :=
        puts_setSlot e i { e.slots.get i with session := rec.session, conn := some e.next }
      refine ⟨rfl, hput.of_slots ?_⟩
      exact slots_vmemRequests ((e.obtain (.session i)).setSlot i _) alives
    · obtain rfl := Option.some.inj h
      exact ⟨rfl, puts_setSlot e i { e.slots.get i with session := rec.session }⟩
  · cases h

theorem puts_vmemClientMain {E : ErrorTest} {d : Disk} {bind : Bool} {now : UInt32}
    {es : List RecvEvent} {alives : List RequestEnv} {r : Endpoint × DtpResult}
    (h : e.vmemClientMain E i d bind now es alives = some r) :
    ∃ rec, startReceivingData E (e.slots.get i).session d bind now es = .ok (some rec) ∧
      r.2 = rec.result ∧
      e.Puts r.1 i rec.session (e.slots.get i).inUse := by
  simp only [vmemClientMain] at h
  split at h
  · rename_i rec hrec
    refine ⟨rec, hrec, ?_⟩
    split_ifs at h with hlength
    obtain rfl := Option.some.inj h
    have hput := puts_setSlot e i { e.slots.get i with session := rec.session }
    exact ⟨rfl, hput.of_slots (slots_vmemRequests _ alives)⟩
  · cases h

/-- A session that is free is prepared, or it is released. -/
theorem puts_prepareSession {host : ByteOrder} {p : Params} {resume : Bool} {d : Disk}
    {r : Option (Fin 5) × Endpoint} (h : e.prepareSession host p resume d = some r) :
    e.freeSlot = none ∧ r = (none, e) ∨ ∃ i, e.freeSlot = some i ∧
      ((∃ s, LibDtp.prepareSession host (e.slots.get i).session p resume d = .ok s ∧ r.1 = some i ∧
          e.Puts r.2 i s true) ∨
        ∃ s, LibDtp.prepareSession host (e.slots.get i).session p resume d =
          .error .sessionExhausted ∧
          apmOnDeserialize host (acquireSession (e.slots.get i).session) d = .ok s ∧ r.1 = none ∧
          e.Puts r.2 i ({ s with errno := .sessionExhausted } : Session).released false) := by
  rcases prepareSession_cases h with hnone | ⟨i, hfree, ⟨s, hs, rfl⟩ | ⟨s, hexhausted, hs, rfl⟩⟩
  · exact .inl hnone
  · exact .inr ⟨i, hfree, .inl ⟨s, hs, rfl, puts_setSlot e i _⟩⟩
  · refine .inr ⟨i, hfree, .inr ⟨s, hexhausted, hs, rfl, ?_⟩⟩
    have hput := puts_setSlot e i { e.slots.get i with
      session := { s with errno := .sessionExhausted }, inUse := true }
    have hrelease := puts_releaseSession (e.setSlot i { e.slots.get i with
      session := { s with errno := .sessionExhausted }, inUse := true }) i
    rw [get_setSlot] at hrelease
    exact hput.trans hrelease

theorem inUse_of_freeSlot (h : e.freeSlot = some i) : (e.slots.get i).inUse = false := by
  have hfound := List.find?_some h
  simpa using hfound

/-- There is no slot to be had if all are in use. -/
theorem freeSlot_eq_none : e.freeSlot = none ↔ ∀ i, (e.slots.get i).inUse = true := by
  simp [freeSlot]

end Endpoint

/-! ### Calls for one of the sessions -/

section CallsFor

variable {ι : Type} [DecidableEq ι] {φ : ι → Phase} {i j : ι}

theorem followAll_map {ph : Phase} {cs : List SessionCall} (h : (φ i).after cs = some ph) :
    followAll φ (cs.map (i, ·)) = some (Function.update φ i ph) := by
  induction cs generalizing φ with
  | nil =>
    obtain rfl := Option.some.inj h
    exact congrArg some (Function.update_eq_self i φ).symm
  | cons call cs ih =>
    rw [Phase.after, List.foldlM_cons] at h
    obtain ⟨ph₁, hnext, hrest⟩ := Option.bind_eq_some_iff.mp h
    have hcs := @ih (Function.update φ i ph₁) (by rw [Function.update_self]; exact hrest)
    rw [Function.update_idem] at hcs
    rw [List.map_cons, followAll, List.foldlM_cons, hnext]
    exact hcs

theorem callsOf_append (calls calls' : List (ι × SessionCall)) :
    callsOf i (calls ++ calls') = callsOf i calls ++ callsOf i calls' := by
  simp [callsOf]

@[simp] theorem callsOf_map_self (cs : List SessionCall) : callsOf i (cs.map (i, ·)) = cs := by
  simp [callsOf, List.filter_map, Function.comp_def]

theorem callsOf_map_ne (hij : j ≠ i) (cs : List SessionCall) : callsOf j (cs.map (i, ·)) = [] := by
  simp [callsOf, List.filter_map, Function.comp_def, hij.symm]

end CallsFor

namespace Library

/-- A session of a process that has just started. -/
def unused : SessionFiles := ⟨emptySlot, ⟨[], none⟩, .null, 0⟩

/-- The record is right: `held` is what the users have, and `φ` how far the sessions are. -/
structure Sound (host : ByteOrder) (lib : Library) (held : List (Fin 5)) (φ : Fin 5 → Phase) :
    Prop where
  /-- What the users have. -/
  uses : settle [] lib.uses = some held
  /-- It is in use. -/
  inUse : ∀ i, (lib.endpoint.slots.get i).inUse = true ↔ i ∈ held
  /-- The hooks have been called in order. -/
  follows : followAll (fun _ => .idle) lib.calls = some φ
  /-- What they have made of the sessions. -/
  session : ∀ i, ∃ y, unused.calls host (callsOf i lib.calls) = .ok y ∧
    y.session = (lib.endpoint.slots.get i).session ∧ y.unclosed = lib.unclosed i
  /-- How far they are. -/
  stage : ∀ i, Stage (lib.endpoint.slots.get i).inUse (lib.results i) (φ i)
    (lib.endpoint.slots.get i).session

variable {host : ByteOrder} {E : ErrorTest} {lib lib' : Library} {held held' : List (Fin 5)}
  {φ : Fin 5 → Phase} {i : Fin 5}

theorem sound_initial (host : ByteOrder) : initial.Sound host [] fun _ => .idle := by
  have hget : ∀ i, Endpoint.initial.slots.get i = ⟨emptySlot, none, false⟩ :=
    fun i => Vector.getElem_replicate i.isLt
  refine ⟨rfl, fun i => ?_, rfl, fun i => ⟨unused, rfl, ?_, rfl⟩, fun i => ?_⟩
  · simp [initial, hget]
  · simp only [initial, hget]
    rfl
  · simp only [initial, hget]
    exact ⟨fun _ => ⟨rfl, rfl, rfl⟩, fun _ => .inl rfl, by simp⟩

theorem Sound.held_iff (h : lib.Sound host held φ) : lib.Held i ↔ i ∈ held := by
  refine ⟨fun ⟨held', huses, hmem⟩ => ?_, fun hmem => ⟨held, h.uses, hmem⟩⟩
  rw [h.uses] at huses
  rwa [Option.some.inj huses]

theorem Sound.phase_idle (h : lib.Sound host held φ)
    (hi : (lib.endpoint.slots.get i).inUse = false) : φ i = .idle :=
  ((h.stage i).unused hi).1

/-- **Something is done for a session.** -/
theorem Sound.note (h : lib.Sound host held φ) (us : List (Use (Fin 5))) (res : Option DtpResult)
    {e : Endpoint} {n : ℕ} {cs : List SessionCall} {ph : Phase} {s : Session} {b : Bool}
    (huses : settle held us = some held') (hputs : lib.endpoint.Puts e i s b)
    (hb : b = true ↔ i ∈ held') (hothers : ∀ j ≠ i, j ∈ held' ↔ j ∈ held)
    (hmakes : Makes host (φ i) (lib.endpoint.slots.get i).session cs n ph s)
    (hstage : Stage b res ph s) :
    (lib.note e us i res n cs).Sound host held' (Function.update φ i ph) := by
  obtain ⟨y, hy, hysession, hyunclosed⟩ := h.session i
  obtain ⟨z, hgoes, hzsession, hzunclosed⟩ := hmakes y hysession
  refine ⟨?_, fun j => ?_, ?_, fun j => ?_, fun j => ?_⟩
  · exact (settle_append_of_eq h.uses).trans huses
  · by_cases hj : j = i
    · subst hj
      rw [Library.note, hputs.inUse, hb]
    · rw [Library.note, hputs.others j hj, h.inUse j, hothers j hj]
  · exact (List.foldlM_append ..).trans
      (by rw [← followAll, h.follows]; exact followAll_map hgoes.follows)
  · rw [Library.note, callsOf_append]
    by_cases hj : j = i
    · subst hj
      refine ⟨z, ?_, ?_, ?_⟩
      · rw [callsOf_map_self, SessionFiles.calls, List.foldlM_append, ← SessionFiles.calls, hy]
        exact hgoes.calls
      · rw [hzsession, hputs.session]
      · simp only [Function.update_self, hzunclosed, hyunclosed]
    · simp only [callsOf_map_ne hj, List.append_nil, hputs.others j hj, Function.update_of_ne hj]
      exact h.session j
  · by_cases hj : j = i
    · subst hj
      simpa [Library.note, hputs.inUse, hputs.session] using hstage
    · simpa [Library.note, hputs.others j hj, hj] using h.stage j

/-- Something is done for a session that somebody has and keeps. -/
theorem Sound.use (h : lib.Sound host held φ) (hi : i ∈ held) (res : Option DtpResult)
    {e : Endpoint} {n : ℕ} {cs : List SessionCall} {ph : Phase} {s : Session}
    (hputs : lib.endpoint.Puts e i s (lib.endpoint.slots.get i).inUse)
    (hmakes : Makes host (φ i) (lib.endpoint.slots.get i).session cs n ph s)
    (hstage : Stage true res ph s) :
    (lib.note e [] i res n cs).Sound host held (Function.update φ i ph) := by
  rw [(h.inUse i).mpr hi] at hputs
  exact h.note [] res rfl hputs (iff_of_true rfl hi) (fun _ _ => Iff.rfl) hmakes hstage

/-- The endpoint does something else. -/
theorem Sound.of_slots (h : lib.Sound host held φ) {e : Endpoint}
    (he : e.slots = lib.endpoint.slots) :
    Sound host { lib with endpoint := e } held φ :=
  ⟨h.uses, fun i => by simpa only [he] using h.inUse i, h.follows,
    fun i => by simpa only [he] using h.session i,
    fun i => by simpa only [he] using h.stage i⟩

/-- **`dtp_release_session`.** -/
theorem Sound.release (h : lib.Sound host held φ) (hi : i ∈ held) :
    ∃ φ', (lib.release i).Sound host (held.erase i) φ' := by
  have hnodup := nodup_of_settle h.uses List.nodup_nil
  refine ⟨_, h.note [.give i] none (settle_give hi) (lib.endpoint.puts_releaseSession i) ?_
    (fun j hj => ?_)
    (makes_release host (h.stage i).releasable _) (stage_released _)⟩
  · simp [hnodup.mem_erase_iff]
  · exact List.mem_erase_of_ne hj

/-- **`dtp_prepare_session`.** -/
theorem Sound.prepare (h : lib.Sound host held φ) {p : Params} {resume : Bool} {d : Disk}
    {r : Option (Fin 5) × Library} (hr : lib.prepare host p resume d = some r) :
    ∃ φ', r.2.Sound host (r.1.toList ++ held) φ' ∧ ∀ i ∈ r.1, r.2.results i = none := by
  obtain ⟨t, ht, rfl⟩ := Option.map_eq_some_iff.mp hr
  rcases Endpoint.puts_prepareSession ht with ⟨hfree, rfl⟩ | ⟨i, hfree, hcases⟩
  · simp only [hfree]
    exact ⟨φ, h, by simp⟩
  · have hunused := Endpoint.inUse_of_freeSlot hfree
    have hnot : i ∉ held := by
      rw [← h.inUse i, hunused]
      simp
    have hidle := h.phase_idle hunused
    simp only [hfree]
    rcases hcases with ⟨s, hs, hslot, hputs⟩ | ⟨s, hexhausted, hs, hslot, hputs⟩
    · obtain ⟨ph, hph, hmakes⟩ := makes_prepare host hs
      rw [← hidle] at hmakes
      rw [hslot, if_neg (by simp)]
      refine ⟨_, h.note [.take i] none (settle_take hnot) hputs
        (by simp) (fun j hj => by simp [hj]) hmakes
        (stage_prepared hph s), ?_⟩
      rintro j hj
      obtain rfl := Option.some.inj hj
      exact Function.update_self ..
    · obtain ⟨s', hs', hmakes⟩ := makes_refuse host hexhausted
      obtain rfl : s' = s := Except.ok.inj (hs'.symm.trans hs)
      rw [← hidle] at hmakes
      rw [hslot, if_pos rfl]
      have huses : settle held [.take i, .give i] = some held := by
        rw [settle_take hnot, settle_give (List.mem_cons_self ..), List.erase_cons_head]
        rfl
      refine ⟨_, h.note _ none huses hputs (by simp [hnot]) (fun _ _ => Iff.rfl) hmakes ?_, by simp⟩
      rw [hidle]
      exact stage_released _

/-- **`dtp_start_transfer`.** -/
theorem Sound.start (h : lib.Sound host held φ) (hi : i ∈ held) (hres : lib.results i = none)
    {env : TransferEnv} {d : Disk} {es : List RecvEvent} {alives : List RequestEnv} {opens : Bool}
    {r : Library × DtpResult} (hes : Writable opens es)
    (hr : lib.start E i env d es alives opens = some r) :
    ∃ φ', r.1.Sound host held φ' := by
  obtain ⟨t, ht, rfl⟩ := Option.map_eq_some_iff.mp hr
  obtain ⟨rec, hrec, hres', hputs⟩ := Endpoint.puts_startTransfer ht
  obtain ⟨ph, hleft, hmakes⟩ := makes_start host ((h.stage i).prepared hres) hes hrec
  rw [← hres'] at hleft
  exact ⟨_, h.use hi (some t.2) hputs hmakes (stage_left hleft _)⟩

/-- **`dtp_vmem_client_main`.** -/
theorem Sound.vmemClientMain (h : lib.Sound host held φ) (hi : i ∈ held)
    (hres : lib.results i = none) {d : Disk} {bind : Bool} {now : UInt32} {es : List RecvEvent}
    {alives : List RequestEnv} {opens : Bool} (hes : Writable opens es)
    (hr : lib.vmemClientMain E i d bind now es alives opens = some lib') :
    ∃ φ', lib'.Sound host held φ' := by
  obtain ⟨t, ht, rfl⟩ := Option.map_eq_some_iff.mp hr
  obtain ⟨rec, hrec, hres', hputs⟩ := Endpoint.puts_vmemClientMain ht
  obtain ⟨ph, hleft, hmakes⟩ := makes_receive host ((h.stage i).prepared hres) hes hrec
  rw [← hres'] at hleft
  exact ⟨_, h.use hi (some t.2) hputs hmakes (stage_left hleft _)⟩

/-- **`dtp_client_main`.** -/
theorem Sound.clientMain (h : lib.Sound host held φ) {p : Params} {resume out : Bool} {d : Disk}
    {env : TransferEnv} {es : List RecvEvent} {alives : List RequestEnv} {opens : Bool}
    (hes : Writable opens es)
    (hr : lib.clientMain E host p resume out d env es alives opens = some lib') :
    ∃ held' φ', lib'.Sound host held' φ' := by
  rw [Library.clientMain] at hr
  cases hprepared : lib.prepare host { p with sessionId := 0x900dface } resume d with
  | none =>
    rw [hprepared] at hr
    cases hr
  | some prepared =>
    obtain ⟨φ₁, hprepare, hresults⟩ := h.prepare hprepared
    rw [hprepared] at hr
    obtain ⟨slot, lib₁⟩ := prepared
    cases slot with
    | none =>
      obtain rfl := Option.some.inj hr
      exact ⟨held, φ₁, hprepare⟩
    | some i =>
      obtain ⟨r, hstart, rfl⟩ := Option.map_eq_some_iff.mp hr
      have hi : i ∈ (some i).toList ++ held := List.mem_cons_self ..
      obtain ⟨φ₂, htransfer⟩ := hprepare.start hi (hresults i rfl) hes hstart
      split_ifs with hkept
      · exact ⟨_, φ₂, htransfer⟩
      · obtain ⟨φ₃, hrelease⟩ := htransfer.release hi
        exact ⟨_, φ₃, hrelease⟩

/-- The fields of a session are written. -/
theorem Sound.setOpt (h : lib.Sound host held φ) (hi : i ∈ held) (s : Session) :
    (lib.setOpt i s).Sound host held φ := by
  have hstage := h.stage i
  have hused := (h.inUse i).mpr hi
  have hputs := lib.endpoint.puts_setSlot i { lib.endpoint.slots.get i with
    session := { s with hookCtx := (lib.endpoint.slots.get i).session.hookCtx } }
  have hset := h.use hi (lib.results i) hputs (makes_fields host (φ i) _ s)
    ⟨by simp, hstage.prepared, hstage.left⟩
  rwa [Function.update_eq_self] at hset

/-- **`dtp_stop_transfer`.** -/
theorem Sound.stop (h : lib.Sound host held φ) (id : UInt32) (l : List (Fin 5)) :
    (l.foldl (stopSlot id) lib).Sound host held φ := by
  induction l generalizing lib with
  | nil => exact h
  | cons i l ih =>
    refine ih ?_
    rw [stopSlot]
    split_ifs with hused
    · exact h.setOpt ((h.inUse i).mp hused) _
    · exact h

/-- **`dtp_serialize_session`.** -/
theorem Sound.serialize (h : lib.Sound host held φ) (hi : i ∈ held) (d : Disk) {r : DtpResult}
    (hr : r ∈ lib.results i) (hne : r ≠ .err) :
    (lib.note lib.endpoint [] i (lib.results i) 0 [.files d, .serialize]).Sound host held φ := by
  have hstage := h.stage i
  have hended := (hstage.left r hr).ended hne
  have hmakes := makes_serialize host (lib.endpoint.slots.get i).session d
  rw [← hended] at hmakes
  have huse := h.use hi (lib.results i) (lib.endpoint.puts_self i) hmakes
    ⟨by simp, hstage.prepared, hstage.left⟩
  rwa [Function.update_eq_self] at huse

/-- **Every call** keeps the record right. -/
theorem Sound.perform (h : lib.Sound host held φ) {c : LibraryCall} (hc : lib.Permitted c)
    (hr : lib.perform E host c = some lib') : ∃ held' φ', lib'.Sound host held' φ' := by
  cases c with
  | call c opens =>
    cases c with
    | prepare p resume d =>
      obtain ⟨r, hprepared, rfl⟩ := Option.map_eq_some_iff.mp hr
      obtain ⟨φ', hprepare, -⟩ := h.prepare hprepared
      exact ⟨_, φ', hprepare⟩
    | start i env d es alives =>
      obtain ⟨r, hstarted, rfl⟩ := Option.map_eq_some_iff.mp hr
      obtain ⟨φ', hstart⟩ := h.start (h.held_iff.mp hc.1) hc.2.1 hc.2.2 hstarted
      exact ⟨held, φ', hstart⟩
    | release i =>
      cases i with
      | none =>
        obtain rfl := Option.some.inj hr
        exact ⟨held, φ, h⟩
      | some i =>
        obtain rfl := Option.some.inj hr
        obtain ⟨φ', hrelease⟩ := h.release (h.held_iff.mp hc)
        exact ⟨_, φ', hrelease⟩
    | clientMain p resume out d env es alives => exact h.clientMain hc hr
    | request env =>
      obtain rfl := Option.some.inj hr
      exact ⟨held, φ, h.of_slots (Endpoint.slots_vmemRequests _ [env])⟩
    | serve ctx it =>
      obtain ⟨e, he, rfl⟩ := Option.map_eq_some_iff.mp hr
      refine ⟨held, φ, h.of_slots ?_⟩
      rcases Endpoint.serve_cases he with ⟨-, rfl⟩ | ⟨-, -, rfl⟩ | ⟨-, -, rfl⟩ <;> rfl
  | vmemClientMain i d bind now es alives opens =>
    obtain ⟨φ', hmain⟩ := h.vmemClientMain (h.held_iff.mp hc.1) hc.2.1 hc.2.2 hr
    exact ⟨held, φ', hmain⟩
  | serialize i d =>
    obtain rfl := Option.some.inj hr
    obtain ⟨r, hres, hne⟩ := hc.2
    exact ⟨held, φ, h.serialize (h.held_iff.mp hc.1) d hres hne⟩
  | stop id =>
    obtain rfl := Option.some.inj hr
    exact ⟨held, φ, h.stop id _⟩
  | setOpt i s =>
    obtain rfl := Option.some.inj hr
    exact ⟨held, φ, h.setOpt (h.held_iff.mp hc) s⟩

/-- The record is right after every run. -/
theorem Reachable.sound (h : Reachable E host lib) : ∃ held φ, lib.Sound host held φ := by
  induction h with
  | initial => exact ⟨[], _, sound_initial host⟩
  | call _ hc hperform ih =>
    obtain ⟨held, φ, hsound⟩ := ih
    exact hsound.perform hc hperform

/-- What the hooks have done in memory. -/
theorem Sound.memory (h : lib.Sound host held φ) : ∃ c own y,
    (ClientMem.initial fun _ => unused).run host lib.calls = .ok c ∧
      Shared Mem.StandsFor c.mem c.sessions y own ∧
      (∀ i, (φ i).Holds (y i)) ∧
      ∀ i, (y i).session = (lib.endpoint.slots.get i).session ∧
        (y i).unclosed = lib.unclosed i := by
  choose y hcalls hy using h.session
  obtain ⟨c, own, hc, hshared, hph⟩ :=
    hooks_memory_safe host (fun _ => ⟨rfl, rfl, rfl⟩) h.follows hcalls
  exact ⟨c, own, y, hc, hshared, hph, hy⟩

end Library

section Runs

variable {E : ErrorTest} {host : ByteOrder} {lib : Library}

/-- Two sessions. The first one has received two packets of three, and is saved; for the second one
`csp_bind` fails. Then both are released. -/
def twoSessionsUsed : List LibraryCall :=
  [.call (.prepare fourByteChunks false ⟨[], none⟩) true,
    .call (.start 0 ⟨true, true, some ⟨10, 10⟩, true, 0⟩ ⟨[], none⟩
      (arrivals tenBytes [0, 2] ++ List.replicate 60 .timeout) []) true,
    .serialize 0 ⟨[], none⟩,
    .call (.prepare fourByteChunks false ⟨[], none⟩) true,
    .call (.start 1 ⟨true, true, some ⟨10, 10⟩, false, 0⟩ ⟨[], none⟩ [] []) true,
    .call (.release (some 0)) true, .call (.release (some 1)) true]

/-- The library after the first `n` of these calls. -/
def usedLibrary (n : ℕ) : Library :=
  run (Library.afterCall .exact .little) .initial (twoSessionsUsed.take n)

theorem reachable_usedLibrary (n : ℕ) : Library.Reachable .exact .little (usedLibrary n) := by
  refine Library.reachable_run ?_
  have hall : Along (Library.afterCall .exact .little)
      (Library.Returns .exact .little) .initial twoSessionsUsed := by
    decide +kernel
  rw [← List.take_append_drop n twoSessionsUsed, along_append] at hall
  exact hall.1

/-- **The session pool**: in every run of calls that users may make, no session is handed out that
somebody has, and one that is not out has been cleared. There is none to be had if and only if five
are out. -/
theorem session_pool (h : Library.Reachable E host lib) : ∃ held, settle [] lib.uses = some held ∧
    (∀ i, (lib.endpoint.slots.get i).inUse = true ↔ i ∈ held) ∧
    (∀ i ∉ held, (lib.endpoint.slots.get i).session.Free) ∧
    (lib.endpoint.freeSlot = none ↔ held.length = 5) := by
  obtain ⟨held, φ, hsound⟩ := h.sound
  have hnodup := nodup_of_settle hsound.uses List.nodup_nil
  refine ⟨held, hsound.uses, hsound.inUse, fun i hi => ?_, ?_⟩
  · have hunused : (lib.endpoint.slots.get i).inUse = false := by
      rw [← hsound.inUse i] at hi
      simpa using hi
    exact ((hsound.stage i).unused hunused).2
  · rw [Endpoint.freeSlot_eq_none]
    constructor
    · intro hall
      have hcard : held.toFinset = Finset.univ := by
        ext i
        simpa using (hsound.inUse i).mp (hall i)
      have hlength := congrArg Finset.card hcard
      rwa [List.toFinset_card_of_nodup hnodup, Finset.card_univ, Fintype.card_fin] at hlength
    · intro hlength i
      have hcard : held.toFinset = Finset.univ := by
        rw [← Finset.card_eq_iff_eq_univ, List.toFinset_card_of_nodup hnodup, hlength,
          Fintype.card_fin]
      rw [hsound.inUse i, ← List.mem_toFinset, hcard]
      exact Finset.mem_univ i

theorem session_pool_two : (usedLibrary 5).endpoint.freeSlot = some 2 ∧
    ∃ held, settle [] (usedLibrary 5).uses = some held ∧
      (∀ i, ((usedLibrary 5).endpoint.slots.get i).inUse = true ↔ i ∈ held) ∧
      (∀ i ∉ held, ((usedLibrary 5).endpoint.slots.get i).session.Free) ∧
      ((usedLibrary 5).endpoint.freeSlot = none ↔ held.length = 5) :=
  ⟨by decide +kernel, session_pool (reachable_usedLibrary 5)⟩

/-- **What leaks**: when nobody has a session, what is still allocated is one `FILE` for every
transfer that could open its output file and not its port. -/
theorem client_leaks (h : Library.Reachable E host lib) (hnone : ∀ i, ¬ lib.Held i) : ∃ c S,
    (ClientMem.initial fun _ => Library.unused).run host lib.calls = .ok c ∧
      (∀ a, c.mem.lookup a = if a ∈ S then some .file else none) ∧ Finset.card S = ∑ i,
        lib.unclosed i := by
  obtain ⟨held, φ, hsound⟩ := h.sound
  obtain ⟨c, own, y, hc, hshared, hph, hy⟩ := hsound.memory
  have hfiles : ∀ i, (own i).card = (y i).unclosed ∧
      ∀ a ∈ own i, c.mem.lookup a = some .file := fun i => by
    have hunused : (lib.endpoint.slots.get i).inUse = false := by
      have hnot := hnone i
      rw [hsound.held_iff, ← hsound.inUse i] at hnot
      simpa using hnot
    have hidle := hph i
    rw [hsound.phase_idle hunused] at hidle
    exact (hshared.stands i).idle hidle
  refine ⟨c, Finset.univ.biUnion own, hc, fun a => ?_, ?_⟩
  · split_ifs with ha
    · obtain ⟨i, -, hi⟩ := Finset.mem_biUnion.mp ha
      exact (hfiles i).2 a hi
    · exact hshared.lookup_eq_none fun i hi =>
        ha (Finset.mem_biUnion.mpr ⟨i, Finset.mem_univ i, hi⟩)
  · rw [Finset.card_biUnion fun i _ j _ hij => hshared.disjoint i j hij]
    exact Finset.sum_congr rfl fun i _ => (hfiles i).1.trans (hy i).2

/-- The file of the second session is left open. -/
theorem client_leaks_one : ∃ c S,
    (ClientMem.initial fun _ => Library.unused).run .little (usedLibrary 7).calls = .ok c ∧
      (∀ a, c.mem.lookup a = if a ∈ S then some .file else none) ∧ Finset.card S = 1 := by
  have hsum : ∑ i, (usedLibrary 7).unclosed i = 1 := by decide +kernel
  obtain ⟨c, S, hc, hlookup, hcard⟩ := client_leaks (reachable_usedLibrary 7) (by decide +kernel)
  exact ⟨c, S, hc, hlookup, hcard.trans hsum⟩

end Runs

end LibDtp
