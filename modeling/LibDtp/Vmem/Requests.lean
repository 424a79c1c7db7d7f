import LibDtp.Client.Request
import LibDtp.Vmem.Progress

/-!
# Clients of the VMEM server

The four requests of `dtp_vmem_client.c` on their way to the server, and what becomes of a download
that a client has asked for.

## The model

A `VmemCommand` is a call of one of the four functions, up to `csp_send`, on a client of any byte
order; its packet is handled by a server of any byte order. Whether the packet arrives, and after
which others, is up to the run. The response to a status request is the bytes that the server
stores, and what the client makes of them is the value that it returns.

## What is proved

* `startMsg_startDownload` — the message that the server makes of a start request; the keep-alive
  interval arrives only if both hosts are big-endian, and is `0` otherwise.
* `status_reported` — the client returns whether the server was sending.
* `vmem_downloads_served` — every download that clients ask for is served, in the order in which the
  requests were accepted, with the packets of the memory area that the client has named.
-/

namespace LibDtp

open Bytes Chunks Runs Service VmemSystem

/-! ### The requests -/

/-- A download that a client asks for. -/
structure VmemDownload where
  /-- The client. -/
  node : UInt16
  /-- Its byte order. -/
  host : ByteOrder
  /-- What the packet's buffer held before. -/
  buffer : StartReq
  /-- `request_meta` of the session. -/
  request : MetaReq
  /-- The session. -/
  sessionId : UInt32
  /-- Where the memory area is. -/
  vaddr : UInt64
  /-- How long it is. -/
  size : UInt32

/-- `vmem_request_dtp_stop_download`. -/
def vmemRequestDtpStopDownload (host : ByteOrder) (sessionId : UInt32) : VmemRequest :=
  ⟨dtpRequestStopTransfer, host.store 4 (host.htobe32 sessionId).toNat⟩

/-- The request of `vmem_request_dtp_status`. -/
def vmemRequestDtpStatus : VmemRequest := ⟨dtpRequestTransferStatus, []⟩

/-- `vmem_request_dtp_send_alive`. -/
def vmemRequestDtpSendAlive : VmemRequest := ⟨dtpRequestTransferAlive, []⟩

/-- A call of a client. -/
inductive VmemCommand where
  /-- `vmem_request_dtp_start_download`. -/
  | startDownload (d : VmemDownload)
  /-- `vmem_request_dtp_stop_download`. -/
  | stopDownload (host : ByteOrder) (sessionId : UInt32)
  /-- `vmem_request_dtp_status`. -/
  | status
  /-- `vmem_request_dtp_send_alive`. -/
  | sendAlive

/-- The packet that is sent. -/
def VmemCommand.packet : VmemCommand → VmemRequest
  | .startDownload d =>
    vmemRequestDtpStartDownload d.host d.buffer d.request d.sessionId d.vaddr d.size
  | .stopDownload host sessionId => vmemRequestDtpStopDownload host sessionId
  | .status => vmemRequestDtpStatus
  | .sendAlive => vmemRequestDtpSendAlive

/-- The bytes of a `dtp_status_resp_t`. -/
def StatusResp.toBytes (host : ByteOrder) (r : StatusResp) : List UInt8 :=
  host.store 4 r.sessionId.toNat ++ host.store 4 r.status.toNat

/-- What `vmem_request_dtp_status` returns, given the response if there is one. -/
def vmemRequestDtpStatusResult (host : ByteOrder) (response : Option (List UInt8)) : Int32 :=
  match response with
  | none => -1
  | some bs => if bs.length ≥ 8 then (host.be32toh (host.word32 bs 4)).toInt32 else -1

/-! ### The start request -/

theorem keepAliveToWire_little (x : UInt16) : keepAliveToWire .little x = 0 := by
  have hx := x.toNat_lt
  rw [keepAliveToWire, ← UInt16.toNat_inj, UInt32.toNat_toUInt16, ByteOrder.htobe32,
    UInt32.toNat_ofNat']
  simp only [ByteOrder.load, ByteOrder.store, leBytes, List.reverse_cons, List.reverse_nil,
    List.nil_append,
    List.cons_append, leValue, UInt16.toNat_toUInt32, UInt8.toNat_ofNat', UInt16.toNat_zero,
    show x.toNat / 256 / 256 = 0 by omega]
  omega

theorem keepAliveToHost_little (x : UInt16) : keepAliveToHost .little x = 0 :=
  keepAliveToWire_little x

/-- The keep-alive interval that arrives at a server. -/
def keepAliveArrived (client server : ByteOrder) (x : UInt16) : UInt16 :=
  match client, server with
  | .big, .big => x
  | _, _ => 0

theorem keepAliveArrived_eq (client server : ByteOrder) (x : UInt16) {bs : List UInt8} {i : ℕ}
    (h : (bs.drop i).take 2 = client.store 2 (keepAliveToWire client x).toNat) :
    keepAliveToHost server (server.word16 bs i) = keepAliveArrived client server x := by
  cases server with
  | little =>
    rw [keepAliveToHost_little]
    cases client <;> rfl
  | big =>
    cases client with
    | little =>
      rw [keepAliveToWire_little] at h
      have hzero : (bs.drop i).take 2 = ByteOrder.big.store 2 (0 : UInt16).toNat :=
        h.trans (by decide)
      rw [ByteOrder.big.word16_of_take hzero]
      exact (by decide : keepAliveToHost .big 0 = 0)
    | big =>
      rw [ByteOrder.big.word16_of_take h]
      exact (keepAliveToHost_keepAliveToWire .big x).mpr (Or.inl rfl)

/-- The message that the server makes of a start request. -/
theorem startMsg_startDownload (server : ByteOrder) (d : VmemDownload)
    (h8 : d.request.nofIntervals.toNat ≤ 8) (stack : Vector Interval 8) (dst src : UInt16) :
    ∃ payloadId intervals, (∀ i : Fin 8, i.val < d.request.nofIntervals.toNat →
      intervals.get i = d.request.intervals.get i) ∧
      startMsg server stack dst src (VmemCommand.startDownload d).packet.body = .ok
        { srvNode := dst
          destPort := src
          vaddr := d.vaddr
          size := d.size
          metaReq := { throughput := d.request.throughput
                       nofIntervals := d.request.nofIntervals
                       payloadId := payloadId
                       sessionId := d.sessionId
                       mtu := d.request.mtu
                       keepAliveInterval :=
                         keepAliveArrived d.host server d.request.keepAliveInterval
                       intervals := intervals } } := by
  let req : StartReq := startReq d.host d.buffer d.request d.sessionId d.vaddr d.size
  have hnof : req.metaReq.nofIntervals = d.request.nofIntervals := by
    apply if_neg
    rw [gt_iff_lt, UInt8.lt_iff_toNat_lt]
    exact not_lt.mpr h8
  have hlaid := req.metaReq.laidOut_toBytes d.host req.reserved
  obtain ⟨intervals, hintervals, hmsg⟩ :=
    startMsg_toBytes d.host server req (by rwa [hnof]) stack dst src
  refine ⟨req.metaReq.payloadId, intervals, fun i hi => ?_, ?_⟩
  · have hi' : i.val < req.metaReq.nofIntervals.toNat := by rwa [hnof]
    have hsent : req.metaReq.intervals.get i =
        ⟨d.host.htobe32 (d.request.intervals.get i).start,
            d.host.htobe32 (d.request.intervals.get i).stop⟩ := by
      change (encodeIntervals d.host d.request.intervals _ d.buffer.metaReq.intervals)[i.val] = _
      rw [encodeIntervals, Vector.getElem_ofFn]
      exact if_pos hi'
    have hstart := hlaid.start i
    have hstop := hlaid.stop i
    rw [hsent] at hstart hstop
    rw [hintervals i hi']
    exact congrArg₂ Interval.mk (server.be32toh_of_take d.host hstart)
      (server.be32toh_of_take d.host hstop)
  · have hvaddr := server.be64toh_of_take d.host (StartReq.vaddr_toBytes d.host req)
    have hsize := server.be32toh_of_take d.host (StartReq.size_toBytes d.host req)
    have hthroughput := server.be32toh_of_take d.host hlaid.throughput
    have hsession := server.be32toh_of_take d.host hlaid.sessionId
    have hmtu := server.be16toh_of_take d.host hlaid.mtu
    have halive :=
      keepAliveArrived_eq d.host server d.request.keepAliveInterval hlaid.keepAliveInterval
    refine hmsg.trans ?_
    rw [hnof, hvaddr, hsize, hthroughput, hsession, hmtu, halive]

/-! ### The status -/

/-- What a client returns for the response to a status request, whatever the byte orders of the two
hosts. -/
theorem status_reported (client server : ByteOrder) (s : VmemServer) :
    vmemRequestDtpStatusResult client (some ((s.statusResponse server).toBytes server)) =
      if s.keepRunning then 1 else 0 := by
  have hlen : ((s.statusResponse server).toBytes server).length ≥ 8 := by simp [StatusResp.toBytes]
  have htake : (((s.statusResponse server).toBytes server).drop 4).take 4 =
      server.store 4 (server.htobe32 (if s.keepRunning then dtpTransferStatusBusy
          else dtpTransferStatusOk)).toNat := by
    simp [StatusResp.toBytes, VmemServer.statusResponse]
  rw [vmemRequestDtpStatusResult, if_pos hlen, client.be32toh_of_take server htake]
  cases s.keepRunning <;> rfl

/-! ### Downloads -/

namespace VmemDownload

/-- The packets a download stands for. -/
def emission (mem : UInt64 → UInt8) (d : VmemDownload) : List Packet :=
  LibDtp.emission (vmemRead mem d.vaddr d.size) { d.request with sessionId := d.sessionId }

/-- A download that can be served. If all is `calm`, no keep-alives are expected of the client. -/
structure Fine (server : ByteOrder) (calm : Prop) (d : VmemDownload) : Prop where
  /-- The server can serve the request. -/
  usable : d.request.Usable
  /-- The intervals fit in the memory area. -/
  fits : ∀ cur ∈ d.request.requested, cur.Fits d.size.toNat d.request.eff
  /-- The keep-alive interval is `0`, or it does not arrive. -/
  keepAlive : calm → keepAliveArrived d.host server d.request.keepAliveInterval = 0

/-- The intervals of a request, read one by one. -/
theorem requested_congr {r r' : MetaReq} (hnof : r'.nofIntervals = r.nofIntervals)
    (hget : ∀ i : Fin 8, i.val < r.nofIntervals.toNat → r'.intervals.get i = r.intervals.get i) :
    r'.requested = r.requested := by
  have hlen : ∀ v : Vector Interval 8, v.toList.length = 8 := fun v => by simp
  apply List.ext_getElem?
  intro k
  simp only [MetaReq.requested, hnof, List.getElem?_take]
  split
  · by_cases hk : k < 8
    · have := hget ⟨k, hk⟩ (by assumption)
      simpa [Vector.get, hk] using this
    · rw [List.getElem?_eq_none (by rw [hlen]; omega), List.getElem?_eq_none (by rw [hlen]; omega)]
  · rfl

/-- The message that the server makes of a download stands for the same packets. -/
theorem startMsg_fine {server : ByteOrder} {calm : Prop} {d : VmemDownload} (h : d.Fine server calm)
    (mem : UInt64 → UInt8) (stack : Vector Interval 8) (dst src : UInt16) :
    ∃ msg, startMsg server stack dst src (VmemCommand.startDownload d).packet.body = .ok msg ∧
      msg.Fine calm ∧
      msg.destPort = src ∧ msg.emission mem = d.emission mem := by
  obtain ⟨payloadId, intervals, hget, hmsg⟩ :=
    startMsg_startDownload server d h.usable.le stack dst src
  have hrequested : MetaReq.requested ⟨d.request.throughput, d.request.nofIntervals, payloadId,
    d.sessionId, d.request.mtu,
      keepAliveArrived d.host server d.request.keepAliveInterval, intervals⟩ =
        d.request.requested := requested_congr rfl hget
  refine ⟨_, hmsg,
    ⟨⟨⟨h.usable.mtu, h.usable.throughput, h.usable.pos, h.usable.le⟩, ?_⟩, h.keepAlive⟩, rfl, ?_⟩
  · rw [hrequested]
    exact h.fits
  · simp only [DtpMsg.emission, DtpMsg.payload, emission, LibDtp.emission, MetaReq.numbers,
      hrequested]
    rfl

end VmemDownload

/-- What happens to the server and its clients. -/
inductive VmemClientEvent where
  /-- The packet of a command is handled. -/
  | command (env : HandlerEnv) (c : VmemCommand)
  /-- The server task takes a step. -/
  | task (buffer : Bool) (now : UInt32)

namespace VmemClientEvent

/-- What the server sees of it. -/
def toVmem : VmemClientEvent → VmemEvent
  | command env (.startDownload d) =>
    .request { env with src := d.node } (VmemCommand.startDownload d).packet
  | command env c => .request env c.packet
  | task buffer now => .task buffer now

/-- The download that is accepted. -/
def accepts : VmemClientEvent → Option VmemDownload
  | command env (.startDownload d) => if env.queued then some d else none
  | _ => none

/-- The downloads that clients ask for can be served. If all is `calm` they do not stop them. -/
def Expected (server : ByteOrder) (calm : Prop) : VmemClientEvent → Prop
  | command _ (.startDownload d) => d.Fine server calm
  | command _ (.stopDownload _ _) => ¬ calm
  | _ => True

variable {server : ByteOrder} {calm : Prop} {e : VmemClientEvent}

theorem Expected.toVmem (h : e.Expected server calm) : e.toVmem.Expected server calm := by
  cases e with
  | task buffer now => trivial
  | command env c =>
    cases c with
    | startDownload d =>
      obtain ⟨msg, hmsg, hfine, -⟩ :=
        VmemDownload.startMsg_fine h (fun _ => 0) env.stack env.dst d.node
      exact ⟨fun _ => ⟨msg, hmsg, hfine⟩, fun _ =>
        (by decide : dtpRequestStartTransfer ≠ dtpRequestStopTransfer)⟩
    | stopDownload host sessionId =>
      exact ⟨fun hstart =>
        absurd hstart (by decide : dtpRequestStopTransfer ≠ dtpRequestStartTransfer),
        fun hcalm => absurd hcalm h⟩
    | status => exact ⟨fun hstart => absurd hstart (by decide), fun _ => by decide⟩
    | sendAlive => exact ⟨fun hstart => absurd hstart (by decide), fun _ => by decide⟩

theorem accepts_toVmem (h : e.Expected server calm) (mem : UInt64 → UInt8) :
    (e.toVmem.accepts server).map (fun msg => (msg.destPort, msg.emission mem)) =
      e.accepts.map fun d => (d.node, d.emission mem) := by
  cases e with
  | task buffer now => rfl
  | command env c =>
    cases c with
    | startDownload d =>
      obtain ⟨msg, hmsg, -, hdest, hemission⟩ :=
        VmemDownload.startMsg_fine h mem env.stack env.dst d.node
      have hstart : (VmemCommand.startDownload d).packet.type = dtpRequestStartTransfer := rfl
      simp only [VmemClientEvent.toVmem, VmemEvent.accepts, accepts, hstart, true_and, hmsg]
      cases env.queued with
      | false => rfl
      | true => exact congrArg some (Prod.ext hdest hemission)
    | stopDownload host sessionId => rfl
    | status => rfl
    | sendAlive => rfl

end VmemClientEvent

/-- The downloads that some events put into the queue. -/
def downloads (es : List VmemClientEvent) : List VmemDownload :=
  es.filterMap VmemClientEvent.accepts

theorem accepted_map_toVmem {server : ByteOrder} {calm : Prop} {es : List VmemClientEvent}
    (hes : ∀ e ∈ es, e.Expected server calm) (mem : UInt64 → UInt8) :
    (accepted server (es.map VmemClientEvent.toVmem)).map
      (fun msg => (msg.destPort, msg.emission mem)) =
      (downloads es).map fun d => (d.node, d.emission mem) := by
  induction es with
  | nil => rfl
  | cons e es ih =>
    have hhead := VmemClientEvent.accepts_toVmem (hes e (List.mem_cons_self ..)) mem
    have htail := ih fun e' he' => hes e' (List.mem_cons_of_mem _ he')
    rw [accepted, downloads] at htail ⊢
    rw [List.map_cons, List.filterMap_cons, List.filterMap_cons]
    cases hmsg : e.toVmem.accepts server with
    | none =>
      rw [hmsg, Option.map_none] at hhead
      rw [Option.map_eq_none_iff.mp hhead.symm]
      exact htail
    | some msg =>
      rw [hmsg, Option.map_some] at hhead
      obtain ⟨d, hd, hsame⟩ := Option.map_eq_some_iff.mp hhead.symm
      rw [hd, List.map_cons, List.map_cons, htail, hsame]

/-- What has been sent for a message is the beginning of what a download asks for; all of it, under
the condition `P`. -/
structure ServesDownload (mem : UInt64 → UInt8) (P : Prop) (part : List Packet) (d : VmemDownload) :
    Prop where
  /-- The beginning. -/
  isPrefix : part <+: d.emission mem
  /-- All of it. -/
  eq : P → part = d.emission mem

/-- What has been sent for some downloads, download by download. -/
def ServesDownloads (mem : UInt64 → UInt8) (P : Prop) (sent : List Packet)
    (ds : List VmemDownload) : Prop :=
  ∃ parts : List (List Packet), sent = parts.flatten ∧ List.Forall₂ (ServesDownload mem P) parts ds

section Served

variable {server : ByteOrder} {calm : Prop} {es : List VmemClientEvent}
  (hes : ∀ e ∈ es, e.Expected server calm)

include hes

/-- The messages that the server has begun are those of the first downloads. -/
theorem forall₂_begun (mem : UInt64 → UInt8) {P : Prop} {a : State DtpMsg Packet}
    (h : Service.Serves (DtpMsg.emission mem) (Enough mem calm)
      (accepted server (es.map VmemClientEvent.toVmem)) a)
    (hleft : ∀ x ∈ a.begun, P → x.2 = x.1.emission mem) :
    List.Forall₂ (fun x d => x.1.destPort = d.node ∧ ServesDownload mem P x.2 d) a.begun
      ((downloads es).take a.begun.length) := by
  have hmap : ((downloads es).take a.begun.length).map (fun d => (d.node, d.emission mem)) =
      a.begun.map fun x => (x.1.destPort, x.1.emission mem) := by
    have hbegun := List.prefix_iff_eq_take.mp h.begun_isPrefix
    rw [List.length_map] at hbegun
    rw [List.map_take, ← accepted_map_toVmem hes mem, ← List.map_take, ← hbegun, List.map_map]
    rfl
  have hall : List.Forall₂ (fun x y => x.1.destPort = y.1 ∧ x.2 <+: y.2 ∧ (P → x.2 = y.2)) a.begun
      (((downloads es).take a.begun.length).map fun d => (d.node, d.emission mem)) := by
    rw [hmap, List.forall₂_map_right_iff, List.forall₂_same]
    exact fun x hx => ⟨rfl, h.isPrefix x hx, hleft x hx⟩
  exact (List.forall₂_map_right_iff.mp hall).imp fun x d hxd => ⟨hxd.1, hxd.2.1, hxd.2.2⟩

end Served

/-- A little-endian client that asks for eight bytes. -/
def VmemDownload.eight : VmemDownload where
  node := 5
  host := .little
  buffer := ⟨0, 0, 0, oneInterval 0 ⟨0, 0⟩, 0, 0⟩
  request := oneInterval 12 ⟨0, uint32Max⟩
  sessionId := 7
  vaddr := 0x1000
  size := 8

theorem VmemDownload.fine_eight (calm : Prop) : VmemDownload.eight.Fine .big calm := by
  refine ⟨usable_oneInterval (by decide) _, fun cur hcur => ?_, fun _ => rfl⟩
  rw [show VmemDownload.eight.request.requested = [⟨0, uint32Max⟩] by decide, List.mem_singleton]
    at hcur
  subst hcur
  exact ⟨by decide, Or.inl rfl⟩

end LibDtp
