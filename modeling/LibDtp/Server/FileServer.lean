import LibDtp.Client.Request
import LibDtp.Server.FilePayload

/-!
# Serving a registered file

A transfer whose payload is a file of the registry: `get_payload_meta` asks
`dtp_file_payload_get_meta`, as `dtp_file_payload.h` says it should, and the `read` callback is
`payload_read`. While the transfer goes on, files may be added to the registry and removed from it
under other ids.

## The model

`FileServer` is the send machine with the registry. A step of the send machine makes at most one
call of `read`, which is `asks`; its answer is that of `payloadRead`, which may open the file.

## What is proved

* `FileServer.exists_run` — as long as the file can be opened and holds what it held when it was
  added, the transfer is a run of the send machine over a payload that is read in full.
* `serveFile_spec` — and it is set up for the request that the client has encoded, with the size of
  the file.
-/

namespace LibDtp

open Bytes

/-- The read that the next step of the send machine makes, if `csp_buffer_get` returns a packet. -/
def SendState.asks (s : SendState) (buffer : Bool) : Option (UInt32 × UInt32) :=
  match s.pc with
  | .poll _ pktCnt =>
    if s.transfer.nofPacketsPerRound > pktCnt ∧ s.ctx.keepRunning ∧
      buffer then some (s.transfer.bytesSent, s.nextSize) else none
  | _ => none

/-- Only that read matters to a step. -/
theorem SendState.step_congr (s : SendState) {t t' : Tick} (hbuffer : t'.buffer = t.buffer)
    (hnow : t'.now = t.now)
    (hread : ∀ offset size, s.asks t.buffer = some (offset, size) →
      t'.read offset size = t.read offset size) :
    s.step t' = s.step t := by
  rw [step, step]
  cases hpc : s.pc with
  | interval i => rfl
  | finished => rfl
  | fault f => rfl
  | poll i pktCnt =>
    simp only [pollStep, hbuffer, hnow]
    by_cases hgo : s.transfer.nofPacketsPerRound > pktCnt ∧ s.ctx.keepRunning
    · by_cases hbuf : t.buffer
      · have hasks : s.asks t.buffer = some (s.transfer.bytesSent, s.nextSize) := by
          rw [asks, hpc]
          exact if_pos ⟨hgo.1, hgo.2, hbuf⟩
        rw [hread _ _ hasks]
      · simp only [if_neg hbuf]
    · simp only [if_neg hgo]

/-- `get_payload_meta`, as an application with files should define it: the size of the payload, if
there is one. -/
def registeredMeta (reg : List PayloadFile) (id : UInt8) : Option UInt32 :=
  if (dtpFilePayloadGetMeta reg id).1 then some (dtpFilePayloadGetMeta reg id).2.size else none

/-- A transfer, and the registry. -/
structure FileServer where
  /-- The transfer. -/
  transfer : SendState
  /-- The registry. -/
  registry : List PayloadFile

/-- What happens to the two. -/
inductive FileEvent where
  /-- The transfer takes a step. `fopen` says whether the file can be opened, and `content` what it
  holds. -/
  | tick (buffer fopen : Bool) (content : List UInt8) (now : UInt32)
  /-- A call changes the registry. -/
  | call (c : RegistryCall)

namespace FileServer

/-- One event. -/
def step (s : FileServer) : FileEvent → Except RegistryFault FileServer
  | .tick buffer fopen content now =>
    match s.transfer.asks buffer with
    | none => .ok { s with transfer := s.transfer.step ⟨buffer, fun _ _ => ⟨0, []⟩, now⟩ }
    | some (offset, size) => do
      let r ← payloadRead s.registry s.transfer.ctx.request.payloadId offset size fopen content
      return ⟨s.transfer.step ⟨buffer, fun _ _ => ⟨r.res, r.output⟩, now⟩, r.registry⟩
  | .call c => do
    let reg ← c.apply s.registry
    return { s with registry := reg }

/-- A run. -/
def run (s : FileServer) (es : List FileEvent) : Except RegistryFault FileServer := es.foldlM step s

end FileServer

/-! ### The file is there -/

/-- The registry has a file under an id, of as many bytes as `content`. -/
structure Offers (id : UInt8) (content : List UInt8) (reg : List PayloadFile) : Prop where
  /-- The registry is in order. -/
  valid : ValidRegistry reg
  /-- The file can be opened, or is open. -/
  payload : ∃ p, Keyed.find PayloadFile.id reg id = some p ∧ (p.file = true ∨ p.filename ≠ none) ∧
    p.size.toNat = content.length

/-- The file can be opened and holds `content`, and the registry is changed for other ids only. -/
def FileEvent.Undisturbed (id : UInt8) (content : List UInt8) : FileEvent → Prop
  | .tick _ fopen bytes _ => fopen = true ∧ bytes = content
  | .call c => c.id ≠ id ∧ c.id ≠ 255

/-- A step of the send machine, with the registry as it is now. -/
def registryTick (reg : List PayloadFile) (id : UInt8) (content : List UInt8) (buffer : Bool)
    (now : UInt32) : Tick where
  buffer := buffer
  read offset size := match payloadRead reg id offset size true content with
    | .ok r => ⟨r.res, r.output⟩
    | .error _ => ⟨0, []⟩
  now := now

section Offers

variable {id : UInt8} {content : List UInt8} {reg : List PayloadFile} (h : Offers id content reg)

include h

/-- What a call of `payload_read` returns: the file, in full wherever there is enough of it. -/
theorem Offers.reads (buffer : Bool) (now : UInt32) :
    (registryTick reg id content buffer now).Reads content := by
  obtain ⟨p, hp, hopen, hsize⟩ := h.payload
  rw [← payloadAt_eq_find] at hp
  have hread := fun offset size => payloadRead_eq hp hopen offset size content
  constructor
  · intro offset size
    obtain ⟨reg', heq⟩ := hread offset size
    obtain ⟨r, hr, hle⟩ := @length_output_le reg id p hp hopen offset size content (by omega)
    obtain rfl := Except.ok.inj (heq.symm.trans hr)
    simp only [registryTick, heq, UInt32.le_iff_toNat_le, UInt32.toNat_ofNat']
    exact (Nat.mod_le _ _).trans hle
  · intro offset size hle
    obtain ⟨reg', heq⟩ := hread offset size
    have hsize' : readSize p offset size = size := by
      rw [← UInt32.toNat_inj, (toNat_readSize_iff p offset size).mpr
        (.inr (.inl (by omega))), bytesLeft]
      split_ifs <;> omega
    have hlen : ((content.drop offset.toNat).take size.toNat).length = size.toNat := by
      rw [List.length_take, List.length_drop]
      omega
    simp only [registryTick, heq, hsize', hlen, UInt32.ofNat_toNat]

/-- A read leaves the file where it is. -/
theorem Offers.payloadRead (hid : id ≠ 255) (offset size : UInt32) :
    ∃ r, payloadRead reg id offset size true content = .ok r ∧ Offers id content r.registry := by
  obtain ⟨p, hp, hopen, hsize⟩ := h.payload
  have hat := hp
  rw [← payloadAt_eq_find] at hat
  obtain ⟨i, hi, hget⟩ := Option.bind_eq_some_iff.mp hat
  obtain rfl : p.id = id := by simpa using List.find?_some hp
  simp only [LibDtp.payloadRead, hi, hat, Bool.or_true, if_true]
  split_ifs with hpos hclosed
  · rcases hopen with hfile | hname
    · rw [hfile] at hclosed
      exact absurd hclosed.1 (by simp)
    · exact absurd hclosed.2 hname
  · have hfind :=
      h.valid.distinct.find_set hget (show PayloadFile.id { p with file := true } = p.id from rfl)
    refine ⟨_, rfl, h.valid.of_update hid (h.valid.distinct.set hget rfl) (fun q hq => ?_) hfind,
      ?_⟩
    · obtain rfl := Option.some.inj hq
      exact h.valid.allocated p.id p hid hp
    · exact ⟨{ p with file := true }, by rw [hfind, Function.update_self], Or.inl rfl, hsize⟩
  · exact ⟨_, rfl, h.valid, p, hp, hopen, hsize⟩

/-- So does a call about another id. -/
theorem Offers.apply {c : RegistryCall} (hc : c.id ≠ id) (hbuiltIn : c.id ≠ 255) :
    ∃ reg', c.apply reg = .ok reg' ∧ Offers id content reg' := by
  obtain ⟨reg', hreg, hvalid, hfind⟩ := h.valid.apply_eq hbuiltIn
  exact ⟨reg', hreg, hvalid, by rw [hfind, Function.update_of_ne hc.symm]; exact h.payload⟩

/-- The size of the payload. -/
theorem Offers.registeredMeta (hlt : content.length < 2 ^ 32) :
    ∃ size, registeredMeta reg id = some size ∧ size.toNat = content.length := by
  obtain ⟨p, hp, -, hsize⟩ := h.payload
  rw [← payloadAt_eq_find] at hp
  refine ⟨p.size.toUInt32, by simp [LibDtp.registeredMeta, dtpFilePayloadGetMeta, hp], ?_⟩
  rw [UInt64.toNat_toUInt32, hsize, Nat.mod_eq_of_lt hlt]

end Offers

/-- A file that has been added is there. -/
theorem offers_of_latest {cs : List RegistryCall} {reg : List PayloadFile} {id : UInt8}
    {name : String} {env : AddEnv} {content : List UInt8} (hids : ∀ c ∈ cs, c.id ≠ 255)
    (hcs : RegistryCall.applyAll [testPayload] cs = .ok reg)
    (hlatest : RegistryCall.latest cs id = some (.add id (some name) env))
    (hopen : env.fopen name = some content) (hcalloc : env.calloc = true)
    (hstrdup : env.strdup = true) (hlt : content.length < 2 ^ 64) : Offers id content reg := by
  have hid : id ≠ 255 := by
    have hmem : RegistryCall.add id (some name) env ∈ cs :=
      List.mem_reverse.mp (List.mem_of_find?_eq_some hlatest)
    exact hids _ hmem
  obtain ⟨reg', hreg, hvalid, hfind⟩ := validRegistry_initial.applyAll_eq hids
  obtain rfl := Except.ok.inj (hreg.symm.trans hcs)
  have hp := find_history hid hfind
  rw [hlatest] at hp
  refine ⟨hvalid, _,
    hp.trans (by simp [RegistryCall.payload, addedPayload, hopen, hcalloc]; rfl), Or.inr ?_, ?_⟩
  · simp [hstrdup]
  · exact UInt64.toNat_ofNat_of_lt' hlt

namespace FileServer

variable {content : List UInt8} {s : FileServer}

/-- A step, as a step of the send machine over a payload that is read in full. -/
theorem exists_step (hid : s.transfer.ctx.request.payloadId ≠ 255)
    (h : Offers s.transfer.ctx.request.payloadId content s.registry) {e : FileEvent}
    (he : e.Undisturbed s.transfer.ctx.request.payloadId content) :
    ∃ s', s.step e = .ok s' ∧ Offers s.transfer.ctx.request.payloadId content s'.registry ∧
      (s'.transfer = s.transfer ∨ ∃ t, t.Reads content ∧ s'.transfer = s.transfer.step t) := by
  cases e with
  | call c =>
    obtain ⟨reg', hreg, hoffers⟩ := h.apply he.1 he.2
    exact ⟨{ s with registry := reg' }, by simp only [step, hreg]; rfl, hoffers, Or.inl rfl⟩
  | tick buffer fopen bytes now =>
    obtain ⟨rfl, rfl⟩ := he
    have hreads := h.reads buffer now
    cases hasks : s.transfer.asks buffer with
    | none =>
      refine ⟨{ s with transfer := s.transfer.step ⟨buffer, fun _ _ => ⟨0, []⟩, now⟩ },
        by simp only [step, hasks], h,
        Or.inr ⟨_, hreads, ?_⟩⟩
      exact s.transfer.step_congr rfl rfl fun offset size hsome => by
        simp [registryTick, hasks] at hsome
    | some ask =>
      obtain ⟨offset, size⟩ := ask
      obtain ⟨r, hr, hoffers⟩ := h.payloadRead hid offset size
      refine ⟨⟨_, r.registry⟩, by simp only [step, hasks, hr]; rfl, hoffers, Or.inr ⟨_, hreads, ?_⟩⟩
      refine s.transfer.step_congr rfl rfl fun offset' size' hsome => ?_
      obtain ⟨rfl, rfl⟩ : offset = offset' ∧ size = size' := by
        simpa [registryTick, hasks] using hsome
      simp only [registryTick, hr]

/-- A run, as a run of the send machine over a payload that is read in full. -/
theorem exists_run (hid : s.transfer.ctx.request.payloadId ≠ 255)
    (h : Offers s.transfer.ctx.request.payloadId content s.registry) {es : List FileEvent}
    (hes : ∀ e ∈ es, e.Undisturbed s.transfer.ctx.request.payloadId content) :
    ∃ s' ts, s.run es = .ok s' ∧ (∀ t ∈ ts, t.Reads content) ∧ s'.transfer = s.transfer.run ts := by
  induction es generalizing s with
  | nil => exact ⟨s, [], rfl, by simp, rfl⟩
  | cons e es ih =>
    obtain ⟨s₁, hs₁, hoffers, hsteps⟩ := exists_step hid h (hes e (List.mem_cons_self ..))
    have hsame : s₁.transfer.ctx.request.payloadId = s.transfer.ctx.request.payloadId := by
      rcases hsteps with heq | ⟨t, -, heq⟩
      · rw [heq]
      · obtain ⟨intervals, hrequest⟩ := s.transfer.request_step t
        rw [heq, hrequest]
    rw [← hsame] at hid hoffers
    obtain ⟨s', ts, hrun, hreads, htransfer⟩ := ih hid hoffers fun e' he' => by
      rw [hsame]
      exact hes e' (List.mem_cons_of_mem e he')
    have hrun' : s.run (e :: es) = .ok s' := by
      rw [run, List.foldlM_cons, hs₁]
      exact hrun
    rcases hsteps with heq | ⟨t, ht, heq⟩
    · exact ⟨s', ts, hrun', hreads, by rw [htransfer, heq]⟩
    · refine ⟨s', t :: ts, hrun', fun t' ht' => ?_, by rw [htransfer, heq]; rfl⟩
      rcases List.mem_cons.mp ht' with rfl | ht'
      · exact ht
      · exact hreads t' ht'

end FileServer

/-- What is set up for the request that a client has encoded: the client's, but for the keep-alive
interval, and the size of the file. -/
theorem serveFile_spec {E : ErrorTest} {host : ByteOrder} {reserved : UInt8 × UInt8} {r : MetaReq}
    {content : List UInt8} {reg : List PayloadFile} (h : Offers r.payloadId content reg)
    (hlt : content.length < 2 ^ 32) {buffer : Bool} {ctx : ServerTransferCtx} {src dst : UInt16}
    {now : UInt32} {s : SendState}
    (hs : serveRequest E host (registeredMeta reg) buffer ctx src
      ⟨dst, sendRemoteMetaReq host reserved r⟩ now = .ok (some s)) :
    ∃ ctx' keepAliveInterval, s = startSendingData E ctx' now ∧
      ctx'.request = { r with keepAliveInterval := keepAliveInterval } ∧
        ctx'.payloadSize.toNat = content.length := by
  obtain ⟨size, hmeta, hsize⟩ := h.registeredMeta hlt
  have hwire : MetaReq.ofBytes host (sendRemoteMetaReq host reserved r) =
      { r with keepAliveInterval := keepAliveToWire host r.keepAliveInterval } :=
        MetaReq.ofBytes_toBytes ..
  have hmeta' : registeredMeta reg
      (MetaReq.ofBytes host (sendRemoteMetaReq host reserved r)).payloadId = some size := by
    rw [hwire]
    exact hmeta
  rw [serveRequest_some E host buffer ctx src ⟨dst, sendRemoteMetaReq host reserved r⟩ now hmeta']
    at hs
  cases htotal :
      computeTransferSize { copyRequest host ctx src ⟨dst, sendRemoteMetaReq host reserved r⟩ with
      payloadSize := size } with
  | error f =>
    rw [htotal] at hs
    cases hs
  | ok total =>
    rw [htotal] at hs
    simp only [Except.map] at hs
    split_ifs at hs
    · obtain rfl := Option.some.inj (Except.ok.inj hs)
      refine ⟨_, keepAliveToHost host (keepAliveToWire host r.keepAliveInterval), rfl, ?_, hsize⟩
      simp only [copyRequest, hwire]
    · cases hs

end LibDtp
