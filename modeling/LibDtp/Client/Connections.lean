import LibDtp.Client.MetaFile
import LibDtp.Server.Buffers

/-!
# Connections

What the calls of `dtp.c`, `dtp_client.c` and `dtp_vmem_client.c`, and the iterations of
`dtp_server_run`, do with the connections they obtain.

## The model

An `Endpoint` is a process: its five static sessions, and the connections it has obtained so far,
which are numbered. A `conn` field is the number of the connection it points to. The CSP stack uses
its connections again, so that a pointer to a connection that was closed may be a pointer to a new
one; the numbers tell them apart.

A call that does not return is not part of a run. A file may be anything when it is read.
`csp_close` of a null pointer does nothing.

## What is proved

* `connections_closed_iff` — after a run, every connection has been closed exactly once, and no
  release has closed one that was not open, if and only if every connected VMEM request has got a
  packet, every accepted connection has had something to read, and no session was released whose
  `conn` was set.
-/

namespace LibDtp

open Bytes Ownership

/-- Who has obtained a connection. -/
inductive Owner where
  /-- `dtp_start_transfer`, for a session. -/
  | session (i : Fin 5)
  /-- One of the `vmem_request_dtp_*`. -/
  | request
  /-- `dtp_server_run`. -/
  | server
  deriving DecidableEq

/-- What happens to a connection. -/
inductive ConnObs where
  /-- It is obtained from `csp_connect` or `csp_accept`. -/
  | obtained (o : Owner) (c : ℕ)
  /-- It is given to `csp_close` by who has obtained it. -/
  | closed (c : ℕ)
  /-- It is given to `csp_close` by `dtp_release_session`. -/
  | released (i : Fin 5) (c : ℕ)
  deriving DecidableEq

/-- A connection is taken and given back. -/
def ConnObs.use : ConnObs → Use ℕ
  | .obtained _ c => .take c
  | .closed c => .give c
  | .released _ c => .give c

/-- `dtp_static_session_t`, with the session's `conn`. -/
structure Slot where
  /-- The session. -/
  session : Session
  /-- Its `conn`. -/
  conn : Option ℕ
  /-- `in_use`. -/
  inUse : Bool

/-- The sessions and the connections of a process. -/
structure Endpoint where
  /-- `static_sessions`. -/
  slots : Vector Slot 5
  /-- How many connections have been obtained. -/
  next : ℕ
  /-- What has happened to them. -/
  log : List ConnObs

/-- What the stack answers to a `vmem_request_dtp_*`. -/
structure RequestEnv where
  /-- Does `csp_connect` succeed? -/
  connect : Bool
  /-- Does `csp_buffer_get` succeed? -/
  buffer : Bool

namespace Endpoint

/-- A connection is obtained: the last one. -/
def obtain (e : Endpoint) (o : Owner) : Endpoint :=
  { e with next := e.next + 1, log := e.log ++ [.obtained o e.next] }

/-- `csp_close`. -/
def close (e : Endpoint) (c : ℕ) : Endpoint := { e with log := e.log ++ [.closed c] }

/-- A slot is written to. -/
def setSlot (e : Endpoint) (i : Fin 5) (slot : Slot) : Endpoint :=
  { e with slots := e.slots.set i slot }

/-- `vmem_request_dtp_start_download`, `vmem_request_dtp_stop_download`, `vmem_request_dtp_status`
and `vmem_request_dtp_send_alive`: if there is no packet to be had they return without closing the
connection. -/
def vmemRequestDtp (e : Endpoint) (env : RequestEnv) : Endpoint :=
  if env.connect then
    if env.buffer then (e.obtain .request).close e.next else e.obtain .request
  else e

/-- `dtp_release_session`, of a static session. -/
def releaseSession (e : Endpoint) (i : Fin 5) : Endpoint :=
  let slot := e.slots.get i
  let session := { slot.session with
    hookCtx := none, bytesReceived := 0, request := { slot.session.request with nofIntervals := 0 },
      errno := .noErr }
  let log := match slot.conn with
    | none => []
    | some c => [.released i c]
  { e.setSlot i { slot with session := session, inUse := false } with log := e.log ++ log }

/-- The slot that `dtp_acquire_session` takes. -/
def freeSlot (e : Endpoint) : Option (Fin 5) :=
  (List.finRange 5).find? fun i => !(e.slots.get i).inUse

/-- `dtp_prepare_session`, if it returns: the slot of the session, if there is one. -/
def prepareSession (host : ByteOrder) (e : Endpoint) (p : Params) (resume : Bool) (d : Disk) :
    Option (Option (Fin 5) × Endpoint) :=
  match e.freeSlot with
  | none => some (none, e)
  | some i =>
    let slot := e.slots.get i
    match LibDtp.prepareSession host slot.session p resume d with
    | .ok s => some (some i, e.setSlot i { slot with session := s, inUse := true })
    | .error .sessionExhausted =>
      match apmOnDeserialize host (acquireSession slot.session) d with
      | .ok s =>
        let s := { s with errno := .sessionExhausted }
        some (none, (e.setSlot i { slot with session := s, inUse := true }).releaseSession i)
      | .error _ => none
    | .error (.fault _) => none

/-- `dtp_start_transfer`, and what it returns. `alives` is what the stack answers to its
keep-alives. -/
def startTransfer (E : ErrorTest) (e : Endpoint) (i : Fin 5) (env : TransferEnv) (d : Disk)
    (es : List RecvEvent) (alives : List RequestEnv) : Option (Endpoint × DtpResult) :=
  let slot := e.slots.get i
  match LibDtp.startTransfer E env slot.session d es with
  | .ok (some rec) =>
    if alives.length = rec.log.count .alive then
      if env.connect then
        let connected := (e.obtain (.session i)).setSlot i
          { slot with session := rec.session, conn := some e.next }
        some ((alives.foldl vmemRequestDtp connected).close e.next, rec.result)
      else some (e.setSlot i { slot with session := rec.session }, rec.result)
    else none
  | _ => none

/-- `dtp_client_main`. `out` says whether the caller wants the session. -/
def clientMain (E : ErrorTest) (host : ByteOrder) (e : Endpoint) (p : Params) (resume out : Bool)
    (d : Disk) (env : TransferEnv) (es : List RecvEvent) (alives : List RequestEnv) :
    Option Endpoint :=
  match e.prepareSession host { p with sessionId := 0x900dface } resume d with
  | none => none
  | some (none, e) => some e
  | some (some i, e) =>
    (e.startTransfer E i env d es alives).map fun r =>
      if (r.2 = .ok ∨ r.2 = .cancelled) ∧ out then r.1 else r.1.releaseSession i

/-- An iteration of `dtp_server_run`: if there is nothing to read it goes on to the next one without
closing the connection. -/
def serve (E : ErrorTest) (host : ByteOrder) (e : Endpoint) (ctx : ServerTransferCtx)
    (it : Iteration) : Option Endpoint :=
  match serverIteration E host ctx it with
  | .ok (some _) =>
    if it.accept then
      if it.read.isSome then some ((e.obtain .server).close e.next) else some (e.obtain .server)
    else some e
  | _ => none

end Endpoint

/-- A call, with what the world answers to it. -/
inductive Call where
  /-- `dtp_prepare_session`. -/
  | prepare (p : Params) (resume : Bool) (d : Disk)
  /-- `dtp_start_transfer`. -/
  | start (i : Fin 5) (env : TransferEnv) (d : Disk) (es : List RecvEvent)
      (alives : List RequestEnv)
  /-- `dtp_release_session`, of a static session or of another pointer, which is not found. -/
  | release (i : Option (Fin 5))
  /-- `dtp_client_main`. -/
  | clientMain (p : Params) (resume out : Bool) (d : Disk) (env : TransferEnv) (es : List RecvEvent)
      (alives : List RequestEnv)
  /-- One of the `vmem_request_dtp_*`. -/
  | request (env : RequestEnv)
  /-- An iteration of `dtp_server_run`. -/
  | serve (ctx : ServerTransferCtx) (it : Iteration)

namespace Endpoint

/-- A call, if it returns. -/
def perform (E : ErrorTest) (host : ByteOrder) (e : Endpoint) : Call → Option Endpoint
  | .prepare p resume d => (e.prepareSession host p resume d).map Prod.snd
  | .start i env d es alives => (e.startTransfer E i env d es alives).map Prod.fst
  | .release none => some e
  | .release (some i) => some (e.releaseSession i)
  | .clientMain p resume out d env es alives => e.clientMain E host p resume out d env es alives
  | .request env => some (e.vmemRequestDtp env)
  | .serve ctx it => e.serve E host ctx it

/-- Some calls. -/
def performAll (E : ErrorTest) (host : ByteOrder) (e : Endpoint) : List Call → Option Endpoint
  | [] => some e
  | call :: calls => (e.perform E host call).bind (·.performAll E host calls)

/-- At the start of a process. -/
def initial : Endpoint where
  slots := Vector.replicate 5 ⟨emptySlot, none, false⟩
  next := 0
  log := []

/-- Every connection is closed exactly once, and `dtp_release_session` closes only what is open and
belongs to the session it releases. -/
structure Proper (e : Endpoint) : Prop where
  /-- Nothing is left open, and nothing is closed that is not open. -/
  allReturned : AllReturned (e.log.map ConnObs.use)
  /-- What a release closes. -/
  released : ∀ log₁ i c log₂, e.log = log₁ ++ .released i c :: log₂ →
    .obtained (.session i) c ∈ log₁ ∧ ∃ held, settle [] (log₁.map ConnObs.use) = some held ∧
      c ∈ held

/-! ### When nothing goes wrong -/

end Endpoint

/-- A request that connects gets its packet. -/
def RequestEnv.Answered (env : RequestEnv) : Prop := env.connect → env.buffer

namespace Endpoint

/-- The session's `conn` is not set. -/
def Unconnected (e : Endpoint) (i : Fin 5) : Prop := (e.slots.get i).conn = none

/-- If a session that is prepared is released at once, its `conn` is not set. -/
def PreparesWell (host : ByteOrder) (e : Endpoint) (p : Params) (resume : Bool) (d : Disk) : Prop :=
  ∀ e', e.prepareSession host p resume d = some (none, e') → ∀ i, e.freeSlot = some i →
    e.Unconnected i

/-- The call is one of those in which nothing goes wrong: its VMEM requests get their packets, its
connection has something to read, and no session is released whose `conn` is set. -/
def GoesWell (E : ErrorTest) (host : ByteOrder) (e : Endpoint) : Call → Prop
  | .prepare p resume d => e.PreparesWell host p resume d
  | .start _ _ _ _ alives => ∀ env ∈ alives, env.Answered
  | .release none => True
  | .release (some i) => e.Unconnected i
  | .clientMain p resume out d env es alives =>
    e.PreparesWell host { p with sessionId := 0x900dface } resume d ∧
    ∀ i e', e.prepareSession host { p with sessionId := 0x900dface } resume d = some (some i, e') →
      (∀ env ∈ alives, env.Answered) ∧
      ∀ r, e'.startTransfer E i env d es alives = some r →
        ¬ ((r.2 = .ok ∨ r.2 = .cancelled) ∧ out) → r.1.Unconnected i
  | .request env => env.Answered
  | .serve _ it => it.accept → it.read.isSome

/-- All of the calls go well. -/
def AllGoWell (E : ErrorTest) (host : ByteOrder) (e : Endpoint) : List Call → Prop
  | [] => True
  | call :: calls =>
    e.GoesWell E host call ∧ ∀ e', e.perform E host call = some e' → e'.AllGoWell E host calls

end Endpoint

namespace Endpoint

@[simp] theorem get_setSlot (e : Endpoint) (i : Fin 5) (slot : Slot) :
    (e.setSlot i slot).slots.get i = slot :=
  Vector.getElem_set_self i.isLt

/-- What is done between two points closes what it opens, uses connections of its own, and releases
none. -/
structure Settles (e e' : Endpoint) : Prop where
  /-- The connections are numbered. -/
  next : e.next ≤ e'.next
  /-- What is done. -/
  log : ∃ new, e'.log = e.log ++ new ∧ AllReturned (new.map ConnObs.use) ∧
    (∀ c ∈ taken (new.map ConnObs.use), e.next ≤ c) ∧ ∀ i c, .released i c ∉ new

theorem Settles.of_eq {e e' : Endpoint} (hnext : e'.next = e.next) (hlog : e'.log = e.log) :
    e.Settles e' :=
  ⟨hnext.ge, [], by rw [hlog, List.append_nil], allReturned_nil, by simp, by simp⟩

theorem settles_setSlot (e : Endpoint) (i : Fin 5) (slot : Slot) : e.Settles (e.setSlot i slot) :=
  .of_eq rfl rfl

theorem Settles.trans {e₁ e₂ e₃ : Endpoint} (h : e₁.Settles e₂) (h' : e₂.Settles e₃) :
    e₁.Settles e₃ := by
  obtain ⟨new, hlog, hreturned, htaken, hreleased⟩ := h.log
  obtain ⟨new', hlog', hreturned', htaken', hreleased'⟩ := h'.log
  refine ⟨h.next.trans h'.next, new ++ new', by rw [hlog', hlog, List.append_assoc], ?_, ?_, ?_⟩
  · rw [List.map_append]
    exact hreturned.append hreturned'
  · intro c hc
    rw [List.map_append, taken_append, List.mem_append] at hc
    rcases hc with hc | hc
    · exact htaken c hc
    · exact h.next.trans (htaken' c hc)
  · intro i c hmem
    rcases List.mem_append.mp hmem with hmem | hmem
    · exact hreleased i c hmem
    · exact hreleased' i c hmem

/-- A connection is obtained, and closed after other things have been done. -/
theorem Settles.wrap {e e' : Endpoint} {o : Owner} (h : (e.obtain o).Settles e') :
    e.Settles (e'.close e.next) := by
  obtain ⟨new, hlog, hreturned, htaken, hreleased⟩ := h.log
  have hfresh : e.next ∉ taken (new.map ConnObs.use) :=
    fun hmem => Nat.not_succ_le_self _ (htaken _ hmem)
  refine ⟨(Nat.le_succ _).trans h.next, .obtained o e.next :: (new ++ [.closed e.next]), ?_, ?_, ?_,
    ?_⟩
  · change e'.log ++ [.closed e.next] = _
    rw [hlog]
    simp [obtain]
  · rw [List.map_cons, List.map_append]
    exact hreturned.wrap hfresh
  · intro c hc
    rw [List.map_cons, List.map_append, ConnObs.use, taken_take, taken_append] at hc
    rcases List.mem_cons.mp hc with rfl | hc
    · exact le_rfl
    · rcases List.mem_append.mp hc with hc | hc
      · exact (Nat.le_succ _).trans (htaken c hc)
      · cases hc
  · intro i c hmem
    simp only [List.mem_cons, List.mem_append, reduceCtorEq, List.not_mem_nil, or_false, false_or]
      at hmem
    exact hreleased i c hmem

/-- A connection is obtained and closed. -/
theorem settles_pair (e : Endpoint) (o : Owner) : e.Settles ((e.obtain o).close e.next) :=
  (Settles.of_eq rfl rfl).wrap

theorem Settles.allReturned {e e' : Endpoint} (h : e.Settles e')
    (hreturned : AllReturned (e.log.map ConnObs.use)) :
    AllReturned (e'.log.map ConnObs.use) := by
  obtain ⟨new, hlog, hnew, -, -⟩ := h.log
  rw [hlog, List.map_append]
  exact hreturned.append hnew

theorem settles_vmemRequestDtp {env : RequestEnv} (h : env.Answered) (e : Endpoint) :
    e.Settles (e.vmemRequestDtp env) := by
  simp only [vmemRequestDtp]
  split_ifs with hconnect hbuffer
  · exact e.settles_pair .request
  · exact absurd (h hconnect) hbuffer
  · exact .of_eq rfl rfl

theorem settles_vmemRequests {envs : List RequestEnv} (h : ∀ env ∈ envs, env.Answered)
    (e : Endpoint) :
    e.Settles (envs.foldl vmemRequestDtp e) := by
  induction envs generalizing e with
  | nil => exact .of_eq rfl rfl
  | cons env envs ih =>
    have hfirst := settles_vmemRequestDtp (h env (List.mem_cons_self ..)) e
    exact hfirst.trans (ih (fun env' henv' => h env' (List.mem_cons_of_mem _ henv')) _)

theorem settles_releaseSession {e : Endpoint} {i : Fin 5} (h : e.Unconnected i) :
    e.Settles (e.releaseSession i) := by
  refine .of_eq rfl ?_
  simp only [Unconnected] at h
  simp only [releaseSession, h, List.append_nil]

theorem settles_startTransfer {E : ErrorTest} {e : Endpoint} {i : Fin 5} {env : TransferEnv}
    {d : Disk} {es : List RecvEvent} {alives : List RequestEnv}
    (halives : ∀ env ∈ alives, env.Answered) {r : Endpoint × DtpResult}
    (h : e.startTransfer E i env d es alives = some r) : e.Settles r.1 := by
  simp only [startTransfer] at h
  split at h
  · split_ifs at h with hlength hconnect
    · obtain rfl := Option.some.inj h
      apply Settles.wrap (o := .session i)
      exact (settles_setSlot ..).trans (settles_vmemRequests halives _)
    · obtain rfl := Option.some.inj h
      exact .of_eq rfl rfl
  · cases h

/-- Everything `dtp_prepare_session` can do: there is no session, or one is prepared, or read and
released. -/
theorem prepareSession_cases {host : ByteOrder} {e : Endpoint} {p : Params} {resume : Bool}
    {d : Disk} {r : Option (Fin 5) × Endpoint} (h : e.prepareSession host p resume d = some r) :
    e.freeSlot = none ∧ r = (none, e) ∨
    ∃ i, e.freeSlot = some i ∧
      ((∃ s, LibDtp.prepareSession host (e.slots.get i).session p resume d = .ok s ∧
          r = (some i, e.setSlot i { e.slots.get i with session := s, inUse := true })) ∨
        ∃ s, LibDtp.prepareSession host (e.slots.get i).session p resume d =
          .error .sessionExhausted ∧
          apmOnDeserialize host (acquireSession (e.slots.get i).session) d = .ok s ∧
          r = (none, (e.setSlot i { e.slots.get i with
            session := { s with errno := .sessionExhausted }, inUse := true }).releaseSession
              i)) := by
  simp only [prepareSession] at h
  cases hfree : e.freeSlot with
  | none =>
    simp only [hfree] at h
    exact .inl ⟨rfl, (Option.some.inj h).symm⟩
  | some i =>
    refine .inr ⟨i, rfl, ?_⟩
    simp only [hfree] at h
    split at h
    · rename_i s hs
      exact .inl ⟨s, hs, (Option.some.inj h).symm⟩
    · rename_i hexhausted
      split at h
      · rename_i s hs
        exact .inr ⟨s, hexhausted, hs, (Option.some.inj h).symm⟩
      · cases h
    · cases h

theorem settles_prepareSession {host : ByteOrder} {e : Endpoint} {p : Params} {resume : Bool}
    {d : Disk} (h : e.PreparesWell host p resume d) {r : Option (Fin 5) × Endpoint}
    (hr : e.prepareSession host p resume d = some r) :
    e.Settles r.2 := by
  rcases prepareSession_cases hr with ⟨-, rfl⟩ | ⟨i, hfree, ⟨s, -, rfl⟩ | ⟨s, -, -, rfl⟩⟩
  · exact .of_eq rfl rfl
  · exact .of_eq rfl rfl
  · have hconn := h _ hr i hfree
    refine (settles_setSlot ..).trans (settles_releaseSession ?_)
    simp only [Unconnected] at hconn ⊢
    rw [get_setSlot]
    exact hconn

/-- Everything `dtp_client_main` can do: it gets no session, or uses the one it gets and keeps or
releases it. -/
theorem clientMain_cases {E : ErrorTest} {host : ByteOrder} {e e' : Endpoint} {p : Params}
    {resume out : Bool} {d : Disk} {env : TransferEnv} {es : List RecvEvent}
    {alives : List RequestEnv} (h : e.clientMain E host p resume out d env es alives = some e') :
    e.prepareSession host { p with sessionId := 0x900dface } resume d = some (none, e') ∨
    ∃ i e₁ r, e.prepareSession host { p with sessionId := 0x900dface } resume d =
      some (some i, e₁) ∧
      e₁.startTransfer E i env d es alives = some r ∧
      ((r.2 = .ok ∨ r.2 = .cancelled) ∧ out = true ∧ e' = r.1 ∨
        ¬ ((r.2 = .ok ∨ r.2 = .cancelled) ∧ out = true) ∧ e' = r.1.releaseSession i) := by
  simp only [clientMain] at h
  split at h
  · cases h
  · rename_i hprepared
    obtain rfl := Option.some.inj h
    exact .inl hprepared
  · rename_i i e₁ hprepared
    obtain ⟨r, hr, rfl⟩ := Option.map_eq_some_iff.mp h
    refine .inr ⟨i, e₁, r, hprepared, hr, ?_⟩
    split_ifs with hkept
    · exact .inl ⟨hkept.1, hkept.2, rfl⟩
    · exact .inr ⟨hkept, rfl⟩

/-- Everything an iteration of `dtp_server_run` can do to the connections. -/
theorem serve_cases {E : ErrorTest} {host : ByteOrder} {e e' : Endpoint} {ctx : ServerTransferCtx}
    {it : Iteration} (h : e.serve E host ctx it = some e') :
    it.accept = false ∧ e' = e ∨ it.accept = true ∧ it.read.isSome = true ∧
      e' = (e.obtain .server).close e.next ∨
      it.accept = true ∧ ¬ it.read.isSome = true ∧ e' = e.obtain .server := by
  simp only [serve] at h
  split at h
  · split_ifs at h with haccept hread
    · exact .inr (.inl ⟨haccept, hread, (Option.some.inj h).symm⟩)
    · exact .inr (.inr ⟨haccept, hread, (Option.some.inj h).symm⟩)
    · exact .inl ⟨by simpa using haccept, (Option.some.inj h).symm⟩
  · cases h

/-- A call that goes well. -/
theorem settles_perform {E : ErrorTest} {host : ByteOrder} {e e' : Endpoint} {call : Call}
    (hwell : e.GoesWell E host call) (h : e.perform E host call = some e') : e.Settles e' := by
  cases call with
  | prepare p resume d =>
    obtain ⟨r, hr, rfl⟩ := Option.map_eq_some_iff.mp h
    exact settles_prepareSession hwell hr
  | start i env d es alives =>
    obtain ⟨r, hr, rfl⟩ := Option.map_eq_some_iff.mp h
    exact settles_startTransfer hwell hr
  | release i =>
    cases i with
    | none =>
      obtain rfl := Option.some.inj h
      exact .of_eq rfl rfl
    | some i =>
      obtain rfl := Option.some.inj h
      exact settles_releaseSession hwell
  | clientMain p resume out d env es alives =>
    obtain ⟨hprepares, hstarts⟩ := hwell
    rcases clientMain_cases h with hnone | ⟨i, e₁, r, heq, hr, hend⟩
    · exact settles_prepareSession hprepares hnone
    · obtain ⟨halives, hreleases⟩ := hstarts i e₁ heq
      have htransfer :=
        (settles_prepareSession hprepares heq).trans (settles_startTransfer halives hr)
      rcases hend with ⟨-, -, rfl⟩ | ⟨hkept, rfl⟩
      · exact htransfer
      · exact htransfer.trans (settles_releaseSession (hreleases r hr hkept))
  | request env =>
    obtain rfl := Option.some.inj h
    exact settles_vmemRequestDtp hwell e
  | serve ctx it =>
    rcases serve_cases h with ⟨-, rfl⟩ | ⟨-, -, rfl⟩ | ⟨haccept, hread, -⟩
    · exact .of_eq rfl rfl
    · exact e.settles_pair .server
    · exact absurd (hwell haccept) hread

/-- Some calls that go well. -/
theorem settles_performAll {E : ErrorTest} {host : ByteOrder} {e e' : Endpoint} {calls : List Call}
    (hwell : e.AllGoWell E host calls) (h : e.performAll E host calls = some e') :
    e.Settles e' := by
  induction calls generalizing e with
  | nil =>
    obtain rfl := Option.some.inj h
    exact .of_eq rfl rfl
  | cons call calls ih =>
    obtain ⟨e₁, hfirst, hrest⟩ := Option.bind_eq_some_iff.mp h
    exact (settles_perform hwell.1 hfirst).trans (ih (hwell.2 e₁ hfirst) hrest)

end Endpoint

namespace Endpoint

/-! ### When something goes wrong -/

/-- The `conn` fields are numbers of connections. -/
def Numbered (e : Endpoint) : Prop := ∀ i c, (e.slots.get i).conn = some c → c < e.next

/-- What is done between two points: whatever is closed is either new or in a `conn` field, and so
is whatever is put in one. -/
structure Reaches (e e' : Endpoint) : Prop where
  /-- The connections are numbered. -/
  next : e.next ≤ e'.next
  /-- What is closed. -/
  log : ∃ new, e'.log = e.log ++ new ∧
    ∀ c, .give c ∈ new.map ConnObs.use → e.next ≤ c ∨ ∃ i, (e.slots.get i).conn = some c
  /-- What is in a `conn` field. -/
  conn : ∀ i c, (e'.slots.get i).conn = some c → e.next ≤ c ∧ c < e'.next ∨
    ∃ j, (e.slots.get j).conn = some c

/-- A connection is open that nothing refers to, or one was closed that was not open. -/
def Spoiled (e : Endpoint) : Prop :=
  settle [] (e.log.map ConnObs.use) = none ∨
    ∃ held c, settle [] (e.log.map ConnObs.use) = some held ∧ c ∈ held ∧
    c < e.next ∧ ∀ i, (e.slots.get i).conn ≠ some c

theorem Reaches.refl (e : Endpoint) : e.Reaches e :=
  ⟨le_rfl, ⟨[], by simp, by simp⟩, fun i _ hc => Or.inr ⟨i, hc⟩⟩

theorem Reaches.trans {e₁ e₂ e₃ : Endpoint} (h : e₁.Reaches e₂) (h' : e₂.Reaches e₃) :
    e₁.Reaches e₃ := by
  obtain ⟨new, hlog, hgive⟩ := h.log
  obtain ⟨new', hlog', hgive'⟩ := h'.log
  refine ⟨h.next.trans h'.next,
    ⟨new ++ new', by rw [hlog', hlog, List.append_assoc], fun c hc => ?_⟩, fun i c hc => ?_⟩
  · rw [List.map_append, List.mem_append] at hc
    rcases hc with hc | hc
    · exact hgive c hc
    · rcases hgive' c hc with hle | ⟨i, hi⟩
      · exact Or.inl (h.next.trans hle)
      · exact (h.conn i c hi).imp And.left id
  · rcases h'.conn i c hc with ⟨hle, hlt⟩ | ⟨j, hj⟩
    · exact Or.inl ⟨h.next.trans hle, hlt⟩
    · exact (h.conn j c hj).imp (fun hc => ⟨hc.1, lt_of_lt_of_le hc.2 h'.next⟩) id

theorem Reaches.numbered {e e' : Endpoint} (h : e.Reaches e') (hnum : e.Numbered) :
    e'.Numbered := by
  intro i c hc
  rcases h.conn i c hc with ⟨-, hlt⟩ | ⟨j, hj⟩
  · exact hlt
  · exact lt_of_lt_of_le (hnum j c hj) h.next

/-- What is spoiled stays so. -/
theorem Reaches.spoiled {e e' : Endpoint} (h : e.Reaches e') (hspoiled : e.Spoiled) :
    e'.Spoiled := by
  obtain ⟨new, hlog, hgive⟩ := h.log
  simp only [Spoiled]
  rw [hlog, List.map_append, settle_append]
  rcases hspoiled with hnone | ⟨held, c, hsettle, hmem, hlt, hconn⟩
  · exact Or.inl (by rw [hnone]; rfl)
  · rw [hsettle, Option.bind_some]
    cases hnew : settle held (new.map ConnObs.use) with
    | none => exact Or.inl rfl
    | some held' =>
      have hkept : .give c ∉ new.map ConnObs.use := by
        intro hc
        rcases hgive c hc with hle | ⟨i, hi⟩
        · exact absurd hlt (not_lt.mpr hle)
        · exact hconn i hi
      refine Or.inr ⟨held', c, rfl, mem_of_settle hnew hmem hkept, lt_of_lt_of_le hlt h.next,
        fun i hi => ?_⟩
      rcases h.conn i c hi with ⟨hle, -⟩ | ⟨j, hj⟩
      · exact absurd hlt (not_lt.mpr hle)
      · exact hconn j hj

theorem Spoiled.not_proper {e : Endpoint} (h : e.Spoiled) : ¬ e.Proper := by
  intro hproper
  have hreturned : settle [] (e.log.map ConnObs.use) = some [] := hproper.allReturned
  rcases h with hnone | ⟨held, c, hsettle, hmem, -⟩
  · rw [hreturned] at hnone
    cases hnone
  · rw [hreturned] at hsettle
    obtain rfl := Option.some.inj hsettle
    cases hmem

theorem reaches_obtain (e : Endpoint) (o : Owner) : e.Reaches (e.obtain o) :=
  ⟨Nat.le_succ _, ⟨[.obtained o e.next], rfl, by simp [ConnObs.use]⟩, fun i _ hc => Or.inr ⟨i, hc⟩⟩

theorem reaches_close {e : Endpoint} {c : ℕ} {i : Fin 5} (h : (e.slots.get i).conn = some c) :
    e.Reaches (e.close c) := by
  refine ⟨le_rfl, ⟨[.closed c], rfl, fun c' hc' => ?_⟩, fun i _ hc => Or.inr ⟨i, hc⟩⟩
  obtain rfl : c' = c := by simpa [ConnObs.use] using hc'
  exact Or.inr ⟨i, h⟩

/-- A connection is obtained and closed. -/
theorem reaches_pair (e : Endpoint) (o : Owner) : e.Reaches ((e.obtain o).close e.next) := by
  refine ⟨Nat.le_succ _,
    ⟨[.obtained o e.next, .closed e.next], by simp [obtain, close], fun c hc => ?_⟩,
    fun i _ hc => Or.inr ⟨i, hc⟩⟩
  obtain rfl : c = e.next := by simpa [ConnObs.use] using hc
  exact Or.inl le_rfl

theorem conn_setSlot {e : Endpoint} {i j : Fin 5} {slot : Slot} {c : ℕ}
    (h : ((e.setSlot i slot).slots.get j).conn = some c) :
    slot.conn = some c ∨ (e.slots.get j).conn = some c := by
  by_cases hij : i = j
  · subst hij
    rw [get_setSlot] at h
    exact Or.inl h
  · have hget : (e.setSlot i slot).slots.get j = e.slots.get j :=
      Vector.getElem_set_ne i.isLt j.isLt (fun h => hij (Fin.ext h))
    rw [hget] at h
    exact Or.inr h

/-- A slot is written to, but not its `conn`. -/
theorem reaches_setSlot {e : Endpoint} {i : Fin 5} {slot : Slot}
    (h : slot.conn = (e.slots.get i).conn) :
    e.Reaches (e.setSlot i slot) := by
  refine ⟨le_rfl, ⟨[], (List.append_nil _).symm, by simp⟩, fun j c hc => Or.inr ?_⟩
  rcases conn_setSlot hc with hc | hc
  · exact ⟨i, h.symm.trans hc⟩
  · exact ⟨j, hc⟩

/-- A connection is obtained for a session. -/
theorem reaches_connect (e : Endpoint) (i : Fin 5) {slot : Slot} (h : slot.conn = some e.next) :
    e.Reaches ((e.obtain (.session i)).setSlot i slot) := by
  refine ⟨Nat.le_succ _,
    ⟨[.obtained (.session i) e.next], rfl, by simp [ConnObs.use]⟩, fun j c hc => ?_⟩
  rcases conn_setSlot hc with hc | hc
  · obtain rfl := Option.some.inj (h.symm.trans hc)
    exact Or.inl ⟨le_rfl, Nat.lt_succ_self _⟩
  · exact Or.inr ⟨j, hc⟩

theorem reaches_vmemRequestDtp (e : Endpoint) (env : RequestEnv) :
    e.Reaches (e.vmemRequestDtp env) := by
  simp only [vmemRequestDtp]
  split_ifs
  · exact e.reaches_pair .request
  · exact e.reaches_obtain .request
  · exact .refl e

theorem reaches_vmemRequests (e : Endpoint) (envs : List RequestEnv) :
    e.Reaches (envs.foldl vmemRequestDtp e) := by
  induction envs generalizing e with
  | nil => exact .refl e
  | cons env envs ih => exact (e.reaches_vmemRequestDtp env).trans (ih _)

theorem slots_vmemRequests (e : Endpoint) (envs : List RequestEnv) :
    (envs.foldl vmemRequestDtp e).slots = e.slots := by
  induction envs generalizing e with
  | nil => rfl
  | cons env envs ih =>
    rw [List.foldl_cons, ih]
    simp only [vmemRequestDtp]
    split_ifs <;> rfl

theorem reaches_releaseSession (e : Endpoint) (i : Fin 5) : e.Reaches (e.releaseSession i) := by
  refine ⟨le_rfl, ⟨_, rfl, fun c hc => ?_⟩, fun j c hc => Or.inr ?_⟩
  · cases hconn : (e.slots.get i).conn with
    | none => simp [hconn] at hc
    | some c' =>
      obtain rfl : c = c' := by simpa [hconn, ConnObs.use] using hc
      exact Or.inr ⟨i, hconn⟩
  · rcases conn_setSlot hc with hc | hc
    · exact ⟨i, hc⟩
    · exact ⟨j, hc⟩

/-- Where a transfer that has connected is when it closes its connection. -/
theorem reaches_transfer (e : Endpoint) (i : Fin 5) {slot : Slot} (h : slot.conn = some e.next)
    (envs : List RequestEnv) :
    ((e.obtain (.session i)).setSlot i slot).Reaches
      ((envs.foldl vmemRequestDtp ((e.obtain (.session i)).setSlot i slot)).close e.next) := by
  refine (reaches_vmemRequests _ envs).trans (reaches_close (i := i) ?_)
  rw [slots_vmemRequests, get_setSlot]
  exact h

theorem reaches_startTransfer {E : ErrorTest} {e : Endpoint} {i : Fin 5} {env : TransferEnv}
    {d : Disk} {es : List RecvEvent} {alives : List RequestEnv} {r : Endpoint × DtpResult}
    (h : e.startTransfer E i env d es alives = some r) :
    e.Reaches r.1 := by
  simp only [startTransfer] at h
  split at h
  · split_ifs at h
    · obtain rfl := Option.some.inj h
      exact (e.reaches_connect i rfl).trans (e.reaches_transfer i rfl alives)
    · obtain rfl := Option.some.inj h
      exact reaches_setSlot rfl
  · cases h

theorem reaches_prepareSession {host : ByteOrder} {e : Endpoint} {p : Params} {resume : Bool}
    {d : Disk} {r : Option (Fin 5) × Endpoint} (hr : e.prepareSession host p resume d = some r) :
    e.Reaches r.2 := by
  rcases prepareSession_cases hr with ⟨-, rfl⟩ | ⟨i, -, ⟨s, -, rfl⟩ | ⟨s, -, -, rfl⟩⟩
  · exact .refl e
  · exact reaches_setSlot rfl
  · refine Reaches.trans ?_ (reaches_releaseSession _ _)
    exact reaches_setSlot rfl

/-- Any call. -/
theorem reaches_perform {E : ErrorTest} {host : ByteOrder} {e e' : Endpoint} {call : Call}
    (h : e.perform E host call = some e') : e.Reaches e' := by
  cases call with
  | prepare p resume d =>
    obtain ⟨r, hr, rfl⟩ := Option.map_eq_some_iff.mp h
    exact reaches_prepareSession hr
  | start i env d es alives =>
    obtain ⟨r, hr, rfl⟩ := Option.map_eq_some_iff.mp h
    exact reaches_startTransfer hr
  | release i =>
    cases i with
    | none =>
      obtain rfl := Option.some.inj h
      exact .refl e
    | some i =>
      obtain rfl := Option.some.inj h
      exact e.reaches_releaseSession i
  | clientMain p resume out d env es alives =>
    rcases clientMain_cases h with hnone | ⟨i, e₁, r, heq, hr, hend⟩
    · exact reaches_prepareSession hnone
    · have htransfer := (reaches_prepareSession heq).trans (reaches_startTransfer hr)
      rcases hend with ⟨-, -, rfl⟩ | ⟨-, rfl⟩
      · exact htransfer
      · exact htransfer.trans (r.1.reaches_releaseSession i)
  | request env =>
    obtain rfl := Option.some.inj h
    exact e.reaches_vmemRequestDtp env
  | serve ctx it =>
    rcases serve_cases h with ⟨-, rfl⟩ | ⟨-, -, rfl⟩ | ⟨-, -, rfl⟩
    · exact .refl e'
    · exact e.reaches_pair .server
    · exact e.reaches_obtain .server

/-- A connection that nothing refers to stays open. -/
theorem spoiled_obtain {e : Endpoint} (h : e.Numbered) (o : Owner) : (e.obtain o).Spoiled := by
  have hlog : (e.obtain o).log.map ConnObs.use = e.log.map ConnObs.use ++ [.take e.next] :=
    List.map_append
  have hconn : ∀ i, ((e.obtain o).slots.get i).conn ≠ some e.next :=
    fun i hi => lt_irrefl _ (h i _ hi)
  rw [Spoiled, hlog, settle_append]
  cases settle [] (e.log.map ConnObs.use) with
  | none => exact Or.inl rfl
  | some held =>
    rw [Option.bind_some]
    by_cases hmem : e.next ∈ held
    · exact Or.inl (if_pos hmem)
    · refine Or.inr ⟨e.next :: held, e.next, settle_take hmem, List.mem_cons_self ..,
        Nat.lt_succ_self _, hconn⟩

/-- A request without a packet. -/
theorem spoiled_vmemRequestDtp {e : Endpoint} (h : e.Numbered) {env : RequestEnv}
    (henv : ¬ env.Answered) :
    (e.vmemRequestDtp env).Spoiled := by
  obtain ⟨hconnect, hbuffer⟩ := Classical.not_imp.mp henv
  rw [vmemRequestDtp, if_pos hconnect, if_neg hbuffer]
  exact spoiled_obtain h .request

theorem spoiled_vmemRequests {e : Endpoint} (h : e.Numbered) {envs : List RequestEnv}
    (henvs : ¬ ∀ env ∈ envs, env.Answered) :
    (envs.foldl vmemRequestDtp e).Spoiled := by
  induction envs generalizing e with
  | nil => exact absurd (by simp) henvs
  | cons env envs ih =>
    have hfirst := e.reaches_vmemRequestDtp env
    by_cases henv : env.Answered
    · refine ih (hfirst.numbered h) fun hall => henvs fun env' hmem => ?_
      rcases List.mem_cons.mp hmem with rfl | hmem
      · exact henv
      · exact hall env' hmem
    · exact (reaches_vmemRequests _ envs).spoiled (spoiled_vmemRequestDtp h henv)

/-- A release of a session whose `conn` is set, when everything is closed. -/
theorem spoiled_releaseSession {e : Endpoint} (h : AllReturned (e.log.map ConnObs.use)) {i : Fin 5}
    (hi : ¬ e.Unconnected i) :
    (e.releaseSession i).Spoiled := by
  obtain ⟨c, hc⟩ := Option.ne_none_iff_exists'.mp hi
  have hlog : (e.releaseSession i).log = e.log ++ [.released i c] := by
    simp only [releaseSession, hc]
  left
  rw [hlog, List.map_append, settle_append_of_eq h]
  rfl

theorem spoiled_startTransfer {E : ErrorTest} {e : Endpoint} (hnum : e.Numbered) {i : Fin 5}
    {env : TransferEnv} {d : Disk} {es : List RecvEvent} {alives : List RequestEnv}
    (halives : ¬ ∀ env ∈ alives, env.Answered) {r : Endpoint × DtpResult}
    (h : e.startTransfer E i env d es alives = some r) : r.1.Spoiled := by
  simp only [startTransfer] at h
  split at h
  · rename_i rec hrec
    split_ifs at h with hlength hconnect
    · obtain rfl := Option.some.inj h
      refine Reaches.spoiled (reaches_close (i := i) ?_)
        (spoiled_vmemRequests (Reaches.numbered ?_ hnum) halives)
      · rw [slots_vmemRequests, get_setSlot]
      · exact e.reaches_connect i rfl
    · rw [LibDtp.startTransfer, if_neg hconnect] at hrec
      obtain rfl := Option.some.inj (Except.ok.inj hrec)
      obtain rfl := List.length_eq_zero_iff.mp hlength
      exact absurd (by simp) halives
  · cases h

theorem spoiled_prepareSession {host : ByteOrder} {e : Endpoint}
    (hreturned : AllReturned (e.log.map ConnObs.use)) {p : Params} {resume : Bool} {d : Disk}
    (h : ¬ e.PreparesWell host p resume d) :
    ∃ e', e.prepareSession host p resume d = some (none, e') ∧ e'.Spoiled := by
  simp only [PreparesWell, not_forall] at h
  obtain ⟨e', hnone, i, hfree, hconn⟩ := h
  refine ⟨e', hnone, ?_⟩
  rcases prepareSession_cases hnone with ⟨hno, -⟩ | ⟨j, hfree', ⟨s, -, heq⟩ | ⟨s, -, -, heq⟩⟩
  · rw [hfree] at hno
    cases hno
  · cases heq
  · obtain rfl : i = j := Option.some.inj (hfree.symm.trans hfree')
    obtain rfl := (Prod.mk.inj heq).2
    apply spoiled_releaseSession (e := e.setSlot i _) hreturned
    rw [Unconnected, get_setSlot]
    exact hconn

/-- `dtp_client_main`, where a request or a release in it goes wrong. If the transfer goes right,
only the release is left to go wrong. -/
theorem spoiled_clientMain {E : ErrorTest} {host : ByteOrder} {e e' : Endpoint} (hnum : e.Numbered)
    (hreturned : AllReturned (e.log.map ConnObs.use)) {p : Params} {resume out : Bool} {d : Disk}
    {env : TransferEnv} {es : List RecvEvent} {alives : List RequestEnv}
    (hwell : ¬ e.GoesWell E host (.clientMain p resume out d env es alives))
    (h : e.clientMain E host p resume out d env es alives = some e') : e'.Spoiled := by
  by_cases hprepares : e.PreparesWell host { p with sessionId := 0x900dface } resume d
  · rcases clientMain_cases h with hnone | ⟨i, e₁, r, heq, hr, hend⟩
    · refine absurd ⟨hprepares, fun i e₁ heq => ?_⟩ hwell
      rw [hnone] at heq
      cases heq
    · have hprepare := settles_prepareSession hprepares heq
      have hreaches := reaches_prepareSession heq
      by_cases halives : ∀ env ∈ alives, env.Answered
      · have htransfer := (hprepare.trans (settles_startTransfer halives hr)).allReturned hreturned
        by_cases hrelease : ¬ ((r.2 = .ok ∨ r.2 = .cancelled) ∧ out) → r.1.Unconnected i
        · refine absurd ⟨hprepares, fun i' e₂ heq' => ⟨halives, fun r' hr' => ?_⟩⟩ hwell
          cases heq.symm.trans heq'
          obtain rfl := Option.some.inj (hr.symm.trans hr')
          exact hrelease
        · obtain ⟨hkept, hconn⟩ := Classical.not_imp.mp hrelease
          rcases hend with ⟨hresult, hout, -⟩ | ⟨-, rfl⟩
          · exact absurd ⟨hresult, hout⟩ hkept
          · exact spoiled_releaseSession htransfer hconn
      · have hspoiled := spoiled_startTransfer (hreaches.numbered hnum) halives hr
        rcases hend with ⟨-, -, rfl⟩ | ⟨-, rfl⟩
        · exact hspoiled
        · exact (r.1.reaches_releaseSession i).spoiled hspoiled
  · obtain ⟨e₀, hnone, hspoiled⟩ := spoiled_prepareSession hreturned hprepares
    rcases clientMain_cases h with hnone' | ⟨i, e₁, r, heq, -, -⟩
    · cases hnone.symm.trans hnone'
      exact hspoiled
    · cases hnone.symm.trans heq

/-- A call that does not go well. -/
theorem spoiled_perform {E : ErrorTest} {host : ByteOrder} {e e' : Endpoint} (hnum : e.Numbered)
    (hreturned : AllReturned (e.log.map ConnObs.use)) {call : Call}
    (hwell : ¬ e.GoesWell E host call) (h : e.perform E host call = some e') : e'.Spoiled := by
  cases call with
  | prepare p resume d =>
    obtain ⟨e₀, hnone, hspoiled⟩ := spoiled_prepareSession hreturned hwell
    obtain ⟨r, hr, rfl⟩ := Option.map_eq_some_iff.mp h
    cases hnone.symm.trans hr
    exact hspoiled
  | start i env d es alives =>
    obtain ⟨r, hr, rfl⟩ := Option.map_eq_some_iff.mp h
    exact spoiled_startTransfer hnum hwell hr
  | release i =>
    cases i with
    | none => exact absurd trivial hwell
    | some i =>
      obtain rfl := Option.some.inj h
      exact spoiled_releaseSession hreturned hwell
  | clientMain p resume out d env es alives =>
    exact spoiled_clientMain hnum hreturned hwell h
  | request env =>
    obtain rfl := Option.some.inj h
    exact spoiled_vmemRequestDtp hnum hwell
  | serve ctx it =>
    obtain ⟨haccept, hread⟩ := Classical.not_imp.mp hwell
    rcases serve_cases h with ⟨hno, -⟩ | ⟨-, hsome, -⟩ | ⟨-, -, rfl⟩
    · rw [hno] at haccept
      cases haccept
    · exact absurd hsome hread
    · exact spoiled_obtain hnum .server

theorem reaches_performAll {E : ErrorTest} {host : ByteOrder} {e e' : Endpoint} {calls : List Call}
    (h : e.performAll E host calls = some e') : e.Reaches e' := by
  induction calls generalizing e with
  | nil =>
    obtain rfl := Option.some.inj h
    exact .refl e
  | cons call calls ih =>
    obtain ⟨e₁, hfirst, hrest⟩ := Option.bind_eq_some_iff.mp h
    exact (reaches_perform hfirst).trans (ih hrest)

/-- Some calls of which one does not go well. -/
theorem spoiled_performAll {E : ErrorTest} {host : ByteOrder} {e e' : Endpoint} (hnum : e.Numbered)
    (hreturned : AllReturned (e.log.map ConnObs.use)) {calls : List Call}
    (hwell : ¬ e.AllGoWell E host calls) (h : e.performAll E host calls = some e') :
    e'.Spoiled := by
  induction calls generalizing e with
  | nil => exact absurd trivial hwell
  | cons call calls ih =>
    obtain ⟨e₁, hfirst, hrest⟩ := Option.bind_eq_some_iff.mp h
    by_cases hgoes : e.GoesWell E host call
    · refine ih ((reaches_perform hfirst).numbered hnum)
        ((settles_perform hgoes hfirst).allReturned hreturned) ?_ hrest
      intro hall
      refine hwell ⟨hgoes, fun e₂ he₂ => ?_⟩
      obtain rfl := Option.some.inj (hfirst.symm.trans he₂)
      exact hall
    · exact (reaches_performAll hrest).spoiled (spoiled_perform hnum hreturned hgoes hfirst)

end Endpoint

/-- After every run of calls, every connection has been closed exactly once, and no release has
closed one that was not open, if and only if all of the calls have gone well. -/
theorem connections_closed_iff (E : ErrorTest) (host : ByteOrder) {calls : List Call} {e : Endpoint}
    (h : Endpoint.initial.performAll E host calls = some e) :
    e.Proper ↔ Endpoint.initial.AllGoWell E host calls := by
  constructor
  · intro hproper
    by_contra hwell
    have hnum : Endpoint.initial.Numbered := by
      intro i c hc
      have hslot : Endpoint.initial.slots.get i = ⟨emptySlot, none, false⟩ :=
        Vector.getElem_replicate i.isLt
      rw [hslot] at hc
      cases hc
    exact (Endpoint.spoiled_performAll hnum rfl hwell h).not_proper hproper
  · intro hwell
    obtain ⟨new, hlog, hreturned, -, hreleased⟩ := (Endpoint.settles_performAll hwell h).log
    have hnew : e.log = new := hlog
    refine ⟨by rwa [hnew], fun log₁ i c log₂ heq => absurd ?_ (hreleased i c)⟩
    rw [← hnew, heq]
    exact List.mem_append_right _ (List.mem_cons_self ..)

/-- A session is prepared, connects, and gets no packet for its request; then a VMEM request is
sent. -/
theorem connections_closed_two : ∃ e,
    Endpoint.initial.performAll .exact .little
        [.prepare fourByteChunks false ⟨[], none⟩, .start 0 ⟨true, false, none, true, 0⟩ ⟨[], none⟩
          [] [],
          .request ⟨true, true⟩] = some e ∧
      e.next = 2 ∧ e.Proper := by
  have hrun : (Endpoint.initial.performAll .exact .little
      [.prepare fourByteChunks false ⟨[], none⟩, .start 0 ⟨true, false, none, true, 0⟩ ⟨[], none⟩ []
        [],
        .request ⟨true, true⟩]).any (fun e => decide (e.next = 2)) = true := by
    decide +kernel
  obtain ⟨e, he, hnext⟩ := (Option.any_eq_true _ _).mp hrun
  refine ⟨e, he, of_decide_eq_true hnext, (connections_closed_iff .exact .little he).mpr
    ⟨fun e₁ hnone => ?_, fun e₁ _ => ?_⟩⟩
  · have hsome : (Endpoint.initial.prepareSession .little fourByteChunks false ⟨[], none⟩).map
      Prod.fst = some (some 0) := rfl
    rw [hnone] at hsome
    cases hsome
  · exact ⟨by simp [Endpoint.GoesWell], fun e₂ _ => ⟨fun _ => rfl, fun _ _ => trivial⟩⟩

/-- `dtp_client_main`, without a failure: the session's connection is closed after the transfer, and
again when the session is released. A VMEM request without a packet, and a connection on which
nothing comes: they stay open. -/
theorem connections_not_closed :
    (∃ e, Endpoint.initial.performAll .exact .little
      [.clientMain fourByteChunks false false ⟨[], none⟩
        ⟨true, true, some ⟨10, 10⟩, true, 0⟩ (arrivals tenBytes [0, 1, 2]) []] = some e ∧
      e.log = [.obtained (.session 0) 0, .closed 0, .released 0 0] ∧ ¬ e.Proper) ∧
    (∃ e, Endpoint.initial.performAll .exact .little [.request ⟨true, false⟩] = some e ∧
      e.log = [.obtained .request 0] ∧ ¬ e.Proper) ∧
    ∃ e, Endpoint.initial.performAll .exact .little
        [.serve (wholeTransfer 0) ⟨true, none, 5, fun _ => none, true, 0, []⟩] = some e ∧
      e.log = [.obtained .server 0] ∧ ¬ e.Proper := by
  have hmissing : ∀ {e : Endpoint} {log : List ConnObs}, e.log = log →
      ¬ AllReturned (log.map ConnObs.use) → ¬ e.Proper := by
    rintro e log rfl hlog hproper
    exact hlog hproper.allReturned
  refine ⟨?_, ?_, ?_⟩
  · have hrun :
      (Endpoint.initial.performAll .exact .little [.clientMain fourByteChunks false false ⟨[], none⟩
        ⟨true, true, some ⟨10, 10⟩, true, 0⟩ (arrivals tenBytes [0, 1, 2]) []]).any (fun e =>
          decide (e.log = [.obtained (.session 0) 0, .closed 0, .released 0 0])) = true := by
      decide +kernel
    obtain ⟨e, he, hlog⟩ := (Option.any_eq_true _ _).mp hrun
    exact ⟨e, he, of_decide_eq_true hlog, hmissing (of_decide_eq_true hlog) (by decide)⟩
  · exact ⟨_, rfl, rfl, hmissing rfl (by decide)⟩
  · exact ⟨_, rfl, rfl, hmissing rfl (by decide)⟩

end LibDtp
