import LibDtp.Client.Connections

/-!
# What is left of an error

`dtp_errno(NULL)` after a call of `dtp_prepare_session` or `dtp_client_main` that has failed.

## The model

An error is kept in the session it belongs to, and in `last_error` once the session is released, or
if there is none. A `Process` is an `Endpoint` with `last_error`. Its calls do to the endpoint what
those of the endpoint do; what is new is the order in which they write to `last_error`.

## What is proved

* `dtpPrepareSession_endpoint`, `dtpClientMain_endpoint` — the calls are those of the endpoint.
* `errno_of_failed_iff` — the error that made a call fail is found afterwards exactly if it is that
  of a session which the call itself releases: a release without a session overwrites it, and both
  calls make one when they have got no session.
-/

namespace LibDtp

open Bytes

/-- A process: its sessions and connections, and `last_error`. -/
structure Process where
  /-- The sessions and connections. -/
  endpoint : Endpoint
  /-- `last_error`. -/
  lastError : DtpErrno

namespace Process

/-- `dtp_errno`. -/
def dtpErrno (p : Process) : Option (Fin 5) → DtpErrno
  | some i => (p.endpoint.slots.get i).session.errno
  | none => p.lastError

/-- `dtp_acquire_session`. -/
def dtpAcquireSession (p : Process) : Option (Fin 5) × Process :=
  match p.endpoint.freeSlot with
  | some i =>
    let slot := p.endpoint.slots.get i
    (some i, ⟨p.endpoint.setSlot i
      { slot with session := acquireSession slot.session, inUse := true }, .noErr⟩)
  | none => (none, { p with lastError := .enomoreSessions })

/-- `dtp_release_session`. -/
def dtpReleaseSession (p : Process) : Option (Fin 5) → Process
  | some i => ⟨p.endpoint.releaseSession i, (p.endpoint.slots.get i).session.errno⟩
  | none => { p with lastError := .esessionNotFound }

/-- The session in a slot is written to. -/
def setSession (p : Process) (i : Fin 5) (s : Session) : Process :=
  { p with endpoint := p.endpoint.setSlot i { p.endpoint.slots.get i with session := s } }

/-- `dtp_prepare_session`, if it returns. -/
def dtpPrepareSession (host : ByteOrder) (p : Process) (params : Params) (resume : Bool)
    (d : Disk) :
    Option (Option (Fin 5) × Process) :=
  match p.dtpAcquireSession with
  | (none, p) =>
    -- `dtp_set_errno(NULL, DTP_ENOMORE_SESSIONS)`
    some (none, dtpReleaseSession { p with lastError := .enomoreSessions } none)
  | (some i, p) =>
    let s := (p.endpoint.slots.get i).session
    if resume then
      match apmOnDeserialize host s d with
      | .error _ => none
      | .ok s =>
        if s.errno = .noErr then
          if s.bytesReceived = s.payloadSize ∨ s.request.nofIntervals = 0 then
            some (none, (p.setSession i { s with errno := .sessionExhausted }).dtpReleaseSession
              (some i))
          else some (some i, p.setSession i (startDownload s params))
        else some (some i, p.setSession i (startDownload (configureSession s params) params))
    else some (some i, p.setSession i (startDownload (configureSession s params) params))

/-- `dtp_client_main`, if it returns: what it returns, and the process after it. -/
def dtpClientMain (E : ErrorTest) (host : ByteOrder) (p : Process) (params : Params)
    (resume out : Bool) (d : Disk) (env : TransferEnv) (es : List RecvEvent)
    (alives : List RequestEnv) : Option (DtpResult × Process) :=
  match p.dtpPrepareSession host { params with sessionId := 0x900dface } resume d with
  | none => none
  | some (none, p) => some (.err, p.dtpReleaseSession none)
  | some (some i, p) =>
    (p.endpoint.startTransfer E i env d es alives).map fun r =>
      (r.2, if (r.2 = .ok ∨ r.2 = .cancelled) ∧ out then { p with endpoint := r.1 }
        else dtpReleaseSession { p with endpoint := r.1 } (some i))

/-! ### The calls are those of the endpoint -/

theorem setSlot_setSlot (e : Endpoint) (i : Fin 5) (slot slot' : Slot) :
    (e.setSlot i slot).setSlot i slot' = e.setSlot i slot' := by
  simp only [Endpoint.setSlot, Vector.set_set]

/-- A session is resumed that has everything already. -/
def exhausted (host : ByteOrder) (slot : Session) (d : Disk) : Bool :=
  (apmOnDeserialize host (acquireSession slot) d).toOption.any fun s =>
    decide (s.errno = .noErr ∧ (s.bytesReceived = s.payloadSize ∨ s.request.nofIntervals = 0))

/-- What makes `dtp_prepare_session` fail, if it does. -/
def prepareCause (host : ByteOrder) (e : Endpoint) (resume : Bool) (d : Disk) : Option DtpErrno :=
  match e.freeSlot with
  | none => some .enomoreSessions
  | some i => if resume && exhausted host (e.slots.get i).session d then some .sessionExhausted
    else none

/-- What makes `dtp_client_main` fail, if it is one of these: no session, nothing to fetch, no
connection, no response. -/
def clientMainCause (host : ByteOrder) (e : Endpoint) (resume : Bool) (d : Disk)
    (env : TransferEnv) : Option DtpErrno :=
  match prepareCause host e resume d with
  | some err => some err
  | none => if !env.connect || (env.buffer && env.response.isNone) then some .connectionFailed
    else none

variable {host : ByteOrder} {p : Process} {params : Params} {resume : Bool} {d : Disk}

/-- No session is free. -/
theorem dtpPrepareSession_of_none (h : p.endpoint.freeSlot = none) :
    p.dtpPrepareSession host params resume d =
      some (none, { p with lastError := .esessionNotFound }) := by
  simp only [dtpPrepareSession, dtpAcquireSession, h, dtpReleaseSession]

/-- A session is free: what is made of it, here and by the endpoint. -/
theorem dtpPrepareSession_of_some {i : Fin 5} (h : p.endpoint.freeSlot = some i) :
    p.dtpPrepareSession host params resume d = (p.endpoint.prepareSession host params resume d).map
      (fun r =>
        (r.1, ⟨r.2, if resume && exhausted host
          (p.endpoint.slots.get i).session d then .sessionExhausted else .noErr⟩)) ∧
      ∀ r ∈ p.endpoint.prepareSession host params resume d,
        r.1 = if resume && exhausted host (p.endpoint.slots.get i).session d then none
          else some i := by
  cases hread : apmOnDeserialize host (acquireSession (p.endpoint.slots.get i).session) d with
  | error f =>
    cases resume <;> simp [dtpPrepareSession, dtpAcquireSession, h, Endpoint.prepareSession,
      LibDtp.prepareSession, setSession, setSlot_setSlot, exhausted, hread, Except.toOption]
  | ok s =>
    cases resume with
    | false =>
      simp [dtpPrepareSession, dtpAcquireSession, h, Endpoint.prepareSession, LibDtp.prepareSession,
        setSession, setSlot_setSlot]
    | true =>
      simp only [dtpPrepareSession, dtpAcquireSession, h, Endpoint.get_setSlot,
        Endpoint.prepareSession, LibDtp.prepareSession, setSession, setSlot_setSlot,
        dtpReleaseSession, exhausted, hread, prepareRead]
      by_cases herr : s.errno = .noErr
      · by_cases hdone : s.bytesReceived = s.payloadSize ∨ s.request.nofIntervals = 0
        · simp [herr, hdone, Except.toOption]
        · simp [herr, hdone, Except.toOption]
      · simp [herr, Except.toOption]

/-- `dtp_prepare_session` does to the endpoint what the endpoint's does. -/
theorem dtpPrepareSession_endpoint :
    (p.dtpPrepareSession host params resume d).map (fun r => (r.1, r.2.endpoint)) =
      p.endpoint.prepareSession host params resume d := by
  cases h : p.endpoint.freeSlot with
  | none =>
    rw [dtpPrepareSession_of_none h, Endpoint.prepareSession, h]
    rfl
  | some i =>
    obtain ⟨heq, -⟩ := @dtpPrepareSession_of_some host p params resume d i h
    rw [heq, Option.map_map]
    exact Option.map_id'

/-- So does `dtp_client_main`. -/
theorem dtpClientMain_endpoint (E : ErrorTest) (out : Bool) (env : TransferEnv)
    (es : List RecvEvent) (alives : List RequestEnv) :
    (p.dtpClientMain E host params resume out d env es alives).map (·.2.endpoint) =
      p.endpoint.clientMain E host params resume out d env es alives := by
  have hendpoint :=
    @dtpPrepareSession_endpoint host p { params with sessionId := 0x900dface } resume d
  rw [dtpClientMain, Endpoint.clientMain, ← hendpoint]
  cases p.dtpPrepareSession host { params with sessionId := 0x900dface } resume d with
  | none => rfl
  | some r =>
    obtain ⟨slot, q⟩ := r
    cases slot with
    | none => rfl
    | some i =>
      simp only [Option.map_some, Option.map_map]
      congr 1
      funext r
      simp only [Function.comp]
      split_ifs <;> rfl

/-! ### The cause of a failure -/

/-- `dtp_prepare_session` fails for one of the causes; its error is left in `last_error` if a
session was released. -/
theorem dtpPrepareSession_of_cause (params : Params) {err : DtpErrno}
    (h : prepareCause host p.endpoint resume d = some err) :
    ∃ q, p.dtpPrepareSession host params resume d = some (none, q) ∧
      q.lastError = if p.endpoint.freeSlot = none then .esessionNotFound else err := by
  simp only [prepareCause] at h
  cases hfree : p.endpoint.freeSlot with
  | none => exact ⟨_, dtpPrepareSession_of_none hfree, rfl⟩
  | some i =>
    simp only [hfree] at h
    split_ifs at h with hexhausted
    cases h
    obtain ⟨hresume, hread⟩ := (Bool.and_eq_true _ _).mp hexhausted
    subst hresume
    obtain ⟨s, hs, herr, hdone⟩ := ok_of_any hread
    have hprepare : p.dtpPrepareSession host params true d =
        some (none, (setSession ⟨p.endpoint.setSlot i { p.endpoint.slots.get i with
        session := acquireSession (p.endpoint.slots.get i).session, inUse := true }, .noErr⟩ i
          { s with errno := .sessionExhausted }).dtpReleaseSession (some i)) := by
      simp only [dtpPrepareSession, dtpAcquireSession, hfree, Endpoint.get_setSlot, hs, if_pos herr,
        if_pos hdone, if_true]
    refine ⟨_, hprepare, ?_⟩
    simp [dtpReleaseSession, setSession]

/-- Otherwise it returns a session, if it returns. -/
theorem dtpPrepareSession_of_no_cause (params : Params)
    (h : prepareCause host p.endpoint resume d = none) {r : Option (Fin 5) × Process}
    (hr : p.dtpPrepareSession host params resume d = some r) : ∃ i, r.1 = some i := by
  simp only [prepareCause] at h
  cases hfree : p.endpoint.freeSlot with
  | none => simp [hfree] at h
  | some i =>
    simp only [hfree] at h
    split_ifs at h with hexhausted
    obtain ⟨heq, hfst⟩ := @dtpPrepareSession_of_some host p params resume d i hfree
    rw [heq] at hr
    obtain ⟨r', hr', rfl⟩ := Option.map_eq_some_iff.mp hr
    exact ⟨i, (hfst r' hr').trans (if_neg hexhausted)⟩

/-- A transfer without a connection, or without a response. No keep-alive has been sent. -/
theorem startTransfer_refused {E : ErrorTest} {e : Endpoint} {i : Fin 5} {env : TransferEnv}
    {es : List RecvEvent} {alives : List RequestEnv} {r : Endpoint × DtpResult}
    (henv : (!env.connect || (env.buffer && env.response.isNone)) = true)
    (h : e.startTransfer E i env d es alives = some r) :
    r.2 = .err ∧ (r.1.slots.get i).session.errno = .connectionFailed := by
  simp only [Endpoint.startTransfer, LibDtp.startTransfer] at h
  cases hconnect : env.connect with
  | false =>
    simp only [hconnect, Bool.false_eq_true, if_false] at h
    split_ifs at h
    cases h
    exact ⟨rfl, congrArg (·.session.errno) (Endpoint.get_setSlot ..)⟩
  | true =>
    obtain ⟨hbuffer, hresponse⟩ : env.buffer = true ∧ env.response = none := by
      simpa [hconnect] using henv
    simp only [hconnect, hbuffer, hresponse, if_true] at h
    split_ifs at h with halives
    obtain rfl : alives = [] := List.eq_nil_of_length_eq_zero (by simpa using halives)
    cases h
    exact ⟨rfl, congrArg (·.session.errno) (Endpoint.get_setSlot ..)⟩

/-- What is left when no session was free is not the error of any cause. -/
theorem prepareCause_ne {err : DtpErrno} (h : prepareCause host p.endpoint resume d = some err) :
    err ≠ .esessionNotFound := by
  simp only [prepareCause] at h
  split at h
  · cases h
    decide
  · split_ifs at h
    cases h
    decide

/-- `dtp_client_main`, without a session: it releases the one it does not have. -/
theorem dtpClientMain_of_prepareCause {E : ErrorTest} {out : Bool} {env : TransferEnv}
    {es : List RecvEvent} {alives : List RequestEnv} {res : DtpResult} {p' : Process}
    {err : DtpErrno} (hcause : prepareCause host p.endpoint resume d = some err)
    (h : p.dtpClientMain E host params resume out d env es alives = some (res, p')) :
    res = .err ∧ p'.dtpErrno none = .esessionNotFound := by
  obtain ⟨q, hnone, -⟩ := dtpPrepareSession_of_cause { params with sessionId := 0x900dface } hcause
  rw [dtpClientMain, hnone] at h
  cases h
  exact ⟨rfl, rfl⟩

/-- `dtp_client_main`, without a connection or a response: it releases the session with its error.
-/
theorem dtpClientMain_refused {E : ErrorTest} {out : Bool} {env : TransferEnv} {es : List RecvEvent}
    {alives : List RequestEnv} {res : DtpResult} {p' : Process}
    (hcause : prepareCause host p.endpoint resume d = none)
    (henv : (!env.connect || (env.buffer && env.response.isNone)) = true)
    (h : p.dtpClientMain E host params resume out d env es alives = some (res, p')) :
    res = .err ∧ p'.dtpErrno none = .connectionFailed := by
  have hsome :=
    @dtpPrepareSession_of_no_cause host p resume d { params with sessionId := 0x900dface } hcause
  rw [dtpClientMain] at h
  generalize p.dtpPrepareSession host { params with sessionId := 0x900dface } resume d =
    prepared at h hsome
  cases prepared with
  | none => cases h
  | some prepared =>
    obtain ⟨slot, q⟩ := prepared
    obtain ⟨i, rfl⟩ : ∃ i, slot = some i := hsome rfl
    obtain ⟨r, hr, heq⟩ := Option.map_eq_some_iff.mp h
    obtain ⟨herr, herrno⟩ := startTransfer_refused henv hr
    obtain ⟨hres, hp'⟩ := Prod.mk.inj heq
    refine ⟨hres.symm.trans herr, ?_⟩
    rw [← hp', herr, if_neg (by simp)]
    exact herrno

/-- **When the cause of a failure is left in `dtp_errno`.** In every state of the sessions: after
`dtp_prepare_session` exactly if a session was free, and after `dtp_client_main` exactly if nothing
kept `dtp_prepare_session` from returning one. -/
theorem errno_of_failed_iff (E : ErrorTest) (host : ByteOrder) (p : Process) :
    (∀ params resume d err, prepareCause host p.endpoint resume d = some err →
      ∃ q, p.dtpPrepareSession host params resume d = some (none, q) ∧
        (q.dtpErrno none = err ↔ p.endpoint.freeSlot ≠ none)) ∧
    ∀ params resume out d env es alives res p' err,
      clientMainCause host p.endpoint resume d env = some err →
      p.dtpClientMain E host params resume out d env es alives = some (res, p') →
      res = .err ∧ (p'.dtpErrno none = err ↔ prepareCause host p.endpoint resume d = none) := by
  constructor
  · intro params resume d err h
    obtain ⟨q, hnone, herror⟩ := dtpPrepareSession_of_cause params h
    refine ⟨q, hnone, ?_⟩
    rw [dtpErrno, herror]
    split_ifs with hfree
    · exact iff_of_false (fun heq => prepareCause_ne h heq.symm) (fun hno => hno hfree)
    · exact iff_of_true rfl hfree
  · intro params resume out d env es alives res p' err h hmain
    simp only [clientMainCause] at h
    cases hcause : prepareCause host p.endpoint resume d with
    | some err' =>
      simp only [hcause] at h
      cases h
      obtain ⟨hres, herrno⟩ := dtpClientMain_of_prepareCause hcause hmain
      refine ⟨hres, iff_of_false (fun heq => ?_) (by simp)⟩
      exact prepareCause_ne hcause (heq.symm.trans herrno)
    | none =>
      simp only [hcause] at h
      split_ifs at h with hrefused
      cases h
      obtain ⟨hres, herrno⟩ := dtpClientMain_refused hcause hrefused hmain
      exact ⟨hres, iff_of_true herrno rfl⟩

/-- At the start of a process. -/
def initial : Process := ⟨.initial, .noErr⟩

/-- A server that cannot be reached. -/
def unreachable : TransferEnv := ⟨false, true, none, true, 0⟩

theorem errno_of_failed_refused :
    clientMainCause .little initial.endpoint false ⟨[], none⟩ unreachable = some .connectionFailed ∧
    ∃ res p', initial.dtpClientMain .exact .little ⟨1, 0, 1000, 1, 0, 200, 0⟩ false false
      ⟨[], none⟩ unreachable [] [] =
      some (res, p') ∧ p'.dtpErrno none = .connectionFailed := by
  have hcause : clientMainCause .little initial.endpoint false ⟨[], none⟩ unreachable =
      some .connectionFailed := by
    decide +kernel
  have hreturns : (initial.dtpClientMain .exact .little ⟨1, 0, 1000, 1, 0, 200, 0⟩ false false
    ⟨[], none⟩ unreachable [] []).isSome =
      true := by decide +kernel
  obtain ⟨⟨res, p'⟩, hmain⟩ := Option.isSome_iff_exists.mp hreturns
  refine ⟨hcause, res, p', hmain, ?_⟩
  exact ((errno_of_failed_iff .exact .little initial).2 _ _ _ _ _ _ _ _ _ _ hcause hmain).2.mpr
    (by decide +kernel)

/-- All sessions are in use. -/
def full : Process :=
  ⟨{ Endpoint.initial with slots := Vector.replicate 5 ⟨emptySlot, none, true⟩ }, .noErr⟩

/-- There is no session left, and it is reported that one was not found. -/
theorem errno_of_failed_overwritten :
    ¬ ∀ (host : ByteOrder) (p : Process) (params : Params) (resume : Bool) (d : Disk)
      (err : DtpErrno), prepareCause host p.endpoint resume d = some err →
        ∃ q, p.dtpPrepareSession host params resume d = some (none, q) ∧ q.dtpErrno none = err := by
  intro h
  obtain ⟨q, hq, herr⟩ :=
    h .little full ⟨1, 0, 1000, 1, 0, 200, 0⟩ false ⟨[], none⟩ .enomoreSessions (by decide +kernel)
  have hoverwritten : (full.dtpPrepareSession .little ⟨1, 0, 1000, 1, 0, 200, 0⟩ false
    ⟨[], none⟩).map (·.2.dtpErrno none) =
      some .esessionNotFound := by decide +kernel
  rw [hq, Option.map_some, herr] at hoverwritten
  cases hoverwritten

end Process

end LibDtp
