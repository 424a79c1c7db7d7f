import LibDtp.Client.Convergence
import LibDtp.Server.FileServer

/-!
# Downloading a registered file

From the registry of the server to the file of the client: the file is added to the registry under
an id, a client asks for that id in as many sessions as it takes, and the server reads the file with
`payload_read` and sends what it is asked for. The network may lose packets and repeat them, but it
keeps their order.

## The model

`FileServerSends` is what a server sends for a request that a client has encoded. `FromRegistry` is
a session of a `History` to which such packets are delivered.

## What is proved

* `FileServerSends.serverSends` — it is what a server of the file's bytes sends.
* `file_downloaded` — a download that ends with `DTP_OK` has made a copy of the file.
-/

namespace LibDtp

open Bytes Chunks Files

/-- What a server with a registry sends for the request that a client has encoded, while the file
that is asked for is not disturbed. -/
def FileServerSends (E : ErrorTest) (host : ByteOrder) (reg : List PayloadFile)
    (content : List UInt8) (r : MetaReq) (sent : List Packet) : Prop :=
  ∃ reserved buffer ctx src dst now s es s',
    serveRequest E host (registeredMeta reg) buffer ctx src
      ⟨dst, sendRemoteMetaReq host reserved r⟩ now = .ok (some s) ∧
      (∀ e ∈ es, FileEvent.Undisturbed r.payloadId content e) ∧
        FileServer.run ⟨s, reg⟩ es = .ok s' ∧ sent = s'.transfer.sent

/-- The payload id of a request that has been set up. -/
theorem payloadId_start (E : ErrorTest) (ctx : ServerTransferCtx) (now : UInt32) :
    (startSendingData E ctx now).ctx.request = ctx.request := by
  rw [startSendingData]
  cases computeDtpMetrics E ctx.request ctx.payloadSize <;> rfl

/-- It is what a server of the file's bytes sends. -/
theorem FileServerSends.serverSends {E : ErrorTest} {host : ByteOrder} {reg : List PayloadFile}
    {content : List UInt8} {r : MetaReq} {sent : List Packet}
    (h : FileServerSends E host reg content r sent) (hid : r.payloadId ≠ 255)
    (hoffers : Offers r.payloadId content reg) (hlt : content.length < 2 ^ 32) :
    ServerSends content r sent := by
  obtain ⟨reserved, buffer, ctx, src, dst, now, s, es, s', hs, hes, hrun, rfl⟩ := h
  obtain ⟨ctx', keepAliveInterval, rfl, hrequest, hsize⟩ := serveFile_spec hoffers hlt hs
  have hsame : (startSendingData E ctx' now).ctx.request.payloadId = r.payloadId := by
    rw [payloadId_start, hrequest]
  obtain ⟨s'', ts, hrun', hreads, htransfer⟩ :=
    FileServer.exists_run (s := ⟨startSendingData E ctx' now, reg⟩)
    (by rw [hsame]; exact hid) (by rw [hsame]; exact hoffers) (by rw [hsame]; exact hes)
  obtain rfl := Except.ok.inj (hrun'.symm.trans hrun)
  exact ⟨E, ctx', now, ts, keepAliveInterval, hrequest, hsize, hreads, by rw [htransfer]⟩

/-- Packets that a server with a registry has sent for this session, in the order in which they were
sent; some of them are lost, and some come several times in a row. -/
def FromRegistry (E : ErrorTest) (host : ByteOrder) (reg : List PayloadFile) (id : UInt8)
    (content : List UInt8) (_ : List Episode) (e : Episode) : Prop :=
  e.session.request.payloadId = id ∧
    ∃ sent, FileServerSends E host reg content e.session.request sent ∧ Delivery sent e.delivered

theorem FromRegistry.inOrder {E : ErrorTest} {host : ByteOrder} {reg : List PayloadFile}
    {id : UInt8} {content : List UInt8} (hid : id ≠ 255) (hoffers : Offers id content reg)
    (hlt : content.length < 2 ^ 32) {h : List Episode} {e : Episode}
    (hfrom : FromRegistry E host reg id content h e) : InOrder content h e := by
  obtain ⟨rfl, sent, hsent, hdelivery⟩ := hfrom
  exact ⟨sent, hsent.serverSends hid hoffers hlt, hdelivery⟩

/-! ### The whole file -/

/-- Packets of a payload do not write behind its end. -/
theorem length_writePackets_le {payload : List UInt8} {r : MetaReq} (hmtu : 8 < r.mtu.toNat)
    {ps : List Packet} (hps : ∀ p ∈ ps, ∃ k, p.IsChunk payload r.eff k) {file : List UInt8}
    (hfile : file.length ≤ payload.length) :
    (writePackets r file ps).length ≤ payload.length := by
  induction ps generalizing file with
  | nil => exact hfile
  | cons p ps ih =>
    obtain ⟨k, hk⟩ := hps p (List.mem_cons_self ..)
    have hend := mul_add_len (MetaReq.eff_pos hmtu) hk.lt
    rw [writePackets, List.foldl_cons, hk.writeAt_eq hmtu]
    refine ih (fun q hq => hps q (List.mem_cons_of_mem p hq)) (length_writeAt_le hfile ?_)
    rw [length_part, hend]
    exact Nat.min_le_right _ _

/-- A file that has every packet, and is not longer than the payload, is a copy of it. -/
theorem eq_of_fileHas {payload file : List UInt8} {eff : ℕ} (heff : 0 < eff)
    (hlen : file.length ≤ payload.length)
    (hfile : ∀ k < count payload.length eff, FileHas payload eff file k) : file = payload := by
  refine List.ext_getElem? fun i => ?_
  by_cases hi : i < payload.length
  · refine hfile (i / eff) (div_lt_count heff hi) i (Nat.div_mul_le_self i eff) (lt_min ?_ hi)
    exact Nat.lt_mul_of_div_lt (Nat.lt_succ_self _) heff
  · rw [List.getElem?_eq_none (not_lt.mp hi), List.getElem?_eq_none (hlen.trans (not_lt.mp hi))]

section History

variable {E : ErrorTest} {host : ByteOrder} {payload : List UInt8} {mtu : UInt16}
  (hmtu : 8 < mtu.toNat) (hsum : payload.length + (mtu.toNat - 8) < 2 ^ 32) {e : Episode}
  {h : List Episode} (hist : History E host payload mtu (InOrder payload) (e :: h))

include hmtu hsum hist

/-- The file does not get longer than the payload. -/
theorem History.length_output_le : e.received.disk.output.length ≤ payload.length := by
  refine hist.invariant (P := fun e => e.received.disk.output.length ≤ payload.length) hmtu hsum
    (fun _ _ hin => hin.anyOrder)
    (fun h e hcont _ hlast => ?_) e rfl
  obtain ⟨d, hd, hfrom⟩ := hcont.received
  rw [hfrom.output]
  refine length_writePackets_le hcont.ready.usable.mtu
    (fun p hp => hcont.chunks p (hfrom.mem hp)) ?_
  split_ifs with hbytes
  · cases hbefore : h.head? with
    | none =>
      have hzero := hcont.bytesReceived
      rw [hbefore] at hzero
      rw [hzero] at hbytes
      exact absurd hbytes (by decide)
    | some last =>
      rw [hd last hbefore]
      exact hlast last hbefore
  · exact Nat.zero_le _

/-- If all packets have arrived, the file is a copy of the payload. -/
theorem History.output_eq
    (hall : Finset.range (count payload.length (mtu.toNat - 8)) ⊆ e.received.session.covered) :
    e.received.disk.output = payload := by
  obtain ⟨hcont, -⟩ := hist.accounted hmtu hsum
  refine eq_of_fileHas hcont.eff_pos (hist.length_output_le hmtu hsum) fun k hk => ?_
  exact (hist.keeps hmtu hsum).file k (hall (Finset.mem_range.mpr hk))

/-- If all bytes have been counted, all packets have arrived. -/
theorem History.range_subset_of_ok (hok : e.received.result = .ok) :
    Finset.range (count payload.length (mtu.toNat - 8)) ⊆ e.received.session.covered := by
  obtain ⟨hcont, haccounted⟩ := hist.accounted hmtu hsum
  obtain ⟨d, -, hfrom⟩ := hcont.received
  have hbytes := haccounted
  rw [Episode.Accounted, hfrom.ok hok, hcont.payloadSize] at hbytes
  exact ((sum_len_eq_iff hcont.eff_pos hcont.covered_subset).mp hbytes.symm).ge

end History

/-- A file is added to the registry of a server, and it is still there after some more calls. A
client downloads it in any number of sessions; the packets of each arrive in the order in which they
were sent, but some may be lost or repeated. Then the client's file has every packet that is in the
segments; and if a session ends with `DTP_OK`, it is a copy of the server's. A packet carries data,
and the file and one more packet have less than `2 ^ 32` bytes: of a longer file the registry
records the size in 32 bits. -/
theorem file_downloaded (E : ErrorTest) (host : ByteOrder) {cs : List RegistryCall}
    {reg : List PayloadFile} {id : UInt8} {name : String} {env : AddEnv} {content : List UInt8}
    (hids : ∀ c ∈ cs, c.id ≠ 255) (hcs : RegistryCall.applyAll [testPayload] cs = .ok reg)
    (hlatest : RegistryCall.latest cs id = some (.add id (some name) env))
    (hopen : env.fopen name = some content) (hcalloc : env.calloc = true)
    (hstrdup : env.strdup = true) {mtu : UInt16} (hmtu : 8 < mtu.toNat)
    (hsum : content.length + (mtu.toNat - 8) < 2 ^ 32) {e : Episode} {h : List Episode}
    (hist : History E host content mtu (FromRegistry E host reg id content) (e :: h)) :
    (∀ k ∈ e.received.session.covered, FileHas content (mtu.toNat - 8) e.received.disk.output k) ∧
      (e.received.result = .ok → e.received.disk.output = content) := by
  have hid : id ≠ 255 := hids _ (List.mem_reverse.mp (List.mem_of_find?_eq_some hlatest))
  have hoffers := offers_of_latest hids hcs hlatest hopen hcalloc hstrdup (by omega)
  have hin := hist.mono fun _ _ hfrom => hfrom.inOrder hid hoffers (by omega)
  refine ⟨(hin.keeps hmtu hsum).file, fun hok => ?_⟩
  exact hin.output_eq hmtu hsum (hin.range_subset_of_ok hmtu hsum hok)

/-- A system with one file of ten bytes. -/
def tenFile : AddEnv where
  fopen name := if name = "data" then some tenBytes else none
  calloc := true
  strdup := true

/-- The file is added, and the registry has it and the built-in payload. -/
def tenRegistry : List PayloadFile := [⟨0, some "data", false, 10, .file, true⟩, testPayload]

/-- What a server with that registry sends for a request, while another payload is removed. -/
def tenServerRun (r : MetaReq) : Option (List Packet) :=
  match serveRequest .exact .little (registeredMeta tenRegistry) true (wholeTransfer 0) 5
      ⟨4, sendRemoteMetaReq .little (0, 0) r⟩ 0 with
  | .ok (some s) =>
    match FileServer.run ⟨s, tenRegistry⟩ (.tick true true tenBytes 0 :: .call (.del 1) ::
        List.replicate 10 (.tick true true tenBytes 0)) with
    | .ok s' => some s'.transfer.sent
    | .error _ => none
  | _ => none

theorem fileServerSends_tenServerRun {r : MetaReq} (hid : r.payloadId = 0) {sent : List Packet}
    (h : tenServerRun r = some sent) :
    FileServerSends .exact .little tenRegistry tenBytes r sent := by
  rw [tenServerRun] at h
  split at h
  · rename_i s hs
    split at h
    · rename_i s' hrun
      refine ⟨_, _, _, _, _, _, s, _, s', hs, ?_, hrun, (Option.some.inj h).symm⟩
      rw [hid]
      intro e he
      simp only [List.mem_cons, List.mem_replicate] at he
      rcases he with rfl | rfl | ⟨-, rfl⟩
      · exact ⟨rfl, rfl⟩
      · exact ⟨by decide, by decide⟩
      · exact ⟨rfl, rfl⟩
    · cases h
  · cases h

/-- What is delivered is a part of that. -/
def Episode.FromTen (e : Episode) : Prop :=
  e.session.request.payloadId = 0 ∧ (tenServerRun e.session.request).any fun sent =>
    decide (e.delivered.Sublist sent)

instance : DecidablePred Episode.FromTen := fun _ => inferInstanceAs (Decidable (_ ∧ _))

/-- The file is downloaded in two sessions, and the second ends with `DTP_OK`. -/
theorem file_downloaded_two :
    ∃ e₁ e₂ : Episode, e₁.received.result = .cancelled ∧ e₂.received.result = .ok ∧
    e₂.received.disk.output = tenBytes := by
  have hR : ∀ e, Episode.FromTen e →
      ∀ h, FromRegistry .exact .little tenRegistry 0 tenBytes h e := by
    rintro e ⟨hid, hsent⟩ h
    obtain ⟨sent, hsent, hsub⟩ := (Option.any_eq_true _ _).mp hsent
    exact ⟨hid, sent, fileServerSends_tenServerRun hid hsent,
      delivery_of_sublist (of_decide_eq_true hsub)⟩
  obtain ⟨hs, hist, hmap⟩ :=
    history_sessions hR tenBytes [arrivals tenBytes [1], arrivals tenBytes [0, 2]]
    (fun e => e.received.result) [.ok, .cancelled] (by decide +kernel)
  obtain ⟨e₂, h, rfl, h2, hmap⟩ := List.map_eq_cons_iff.mp hmap
  obtain ⟨e₁, rfl, h1⟩ := List.map_eq_singleton_iff.mp hmap
  have hcs : RegistryCall.applyAll [testPayload] [.add 0 (some "data") tenFile] =
      .ok tenRegistry := by
    decide +kernel
  exact ⟨e₁, e₂, h1, h2, (file_downloaded .exact .little
    (by simp [RegistryCall.id]) hcs rfl rfl rfl rfl (by decide) (by decide)
    hist).2 h2⟩

end LibDtp
