import LibDtp.Client.History
import LibDtp.Vmem.Routing

/-!
# A download over a network

The VMEM server, its clients, a network between them, and one client that receives. The network may
lose packets, deliver them in any order, any number of times and at any time, but only to the node
they were sent to.

## The model

`DownloadSystem` is the server with the record of what it has sent, and the receive loop of one
client. An event is a step of the server or the handling of a command of any client, the arrival of
one of the packets that were sent to the client's node, a timeout of the receive loop, or a call of
`dtp_stop_transfer` there.

## What is proved

* `client_run` — what the client sees are packets that were sent to it.
* `vmem_download_sound` — at any time, the file has what the segments of the session say, and has it
  from the server's memory.
-/

namespace LibDtp

open Bytes Chunks Files Runs Service VmemSystem

/-- A server, and one of its clients. -/
structure DownloadSystem where
  /-- The server, with all packets it has sent. -/
  server : RoutedServer
  /-- The receive loop of the client. -/
  client : RecvState

/-- What happens to the two. -/
inductive DownloadEvent where
  /-- A command of some client is handled, or the server task takes a step. -/
  | server (e : VmemClientEvent)
  /-- The packet with this number arrives, of those that were sent to the client. -/
  | arrive (i : ℕ) (now hookNow : UInt32)
  /-- Nothing arrives in time. -/
  | timeout
  /-- The client stops the transfer. -/
  | stop

/-- The commands and the steps of the server among some events. -/
def serverEvents (es : List DownloadEvent) : List VmemClientEvent := es.filterMap fun
  | .server e => some e
  | _ => none

namespace DownloadSystem

/-- What the client sees of an event. -/
def clientEvent (node : UInt16) (s : DownloadSystem) : DownloadEvent → Option RecvEvent
  | .server _ => none
  | .arrive i now hookNow => ((s.server.sentTo node)[i]?).map fun p => .packet p now hookNow
  | .timeout => some .timeout
  | .stop => some .stop

/-- One step. -/
def step (E : ErrorTest) (host : ByteOrder) (mem : UInt64 → UInt8) (node : UInt16)
    (s : DownloadSystem) (e : DownloadEvent) :
    DownloadSystem where
  server := match e with
    | .server e => s.server.step E host mem e.toVmem
    | _ => s.server
  client := match s.clientEvent node e with
    | some e => s.client.step e
    | none => s.client

variable {E : ErrorTest} {host : ByteOrder} {mem : UInt64 → UInt8} {node : UInt16}

theorem server_run (s : DownloadSystem) (es : List DownloadEvent) :
    (run (step E host mem node) s es).server =
      run (RoutedServer.step E host mem) s.server
        ((serverEvents es).map VmemClientEvent.toVmem) := by
  induction es generalizing s with
  | nil => rfl
  | cons e es ih =>
    rw [run_cons, ih]
    cases e with
    | server e => rfl
    | arrive i now hookNow => rfl
    | timeout => rfl
    | stop => rfl

theorem sentTo_step (s : RoutedServer) (e : VmemEvent) (node : UInt16) :
    s.sentTo node <+: (s.step E host mem e).sentTo node := by
  rw [RoutedServer.sentTo, RoutedServer.sentTo, RoutedServer.step, List.filterMap_append]
  exact List.prefix_append _ _

/-- Nothing that has been sent is taken back. -/
theorem sentTo_run (s : DownloadSystem) (es : List DownloadEvent) :
    s.server.sentTo node <+: (run (step E host mem node) s es).server.sentTo node := by
  induction es generalizing s with
  | nil => exact List.prefix_rfl
  | cons e es ih =>
    refine List.IsPrefix.trans ?_ (ih _)
    cases e with
    | server e => exact sentTo_step s.server e.toVmem node
    | arrive i now hookNow => exact List.prefix_rfl
    | timeout => exact List.prefix_rfl
    | stop => exact List.prefix_rfl

variable (E host mem node) in
/-- The client runs through events of its own, and its packets are packets that were sent to it. -/
theorem client_run (s : DownloadSystem) (es : List DownloadEvent) :
    ∃ es' : List RecvEvent, (run (step E host mem node) s es).client =
      run RecvState.step s.client es' ∧
      ∀ p ∈ packetsOf es', p ∈ (run (step E host mem node) s es).server.sentTo node := by
  induction es generalizing s with
  | nil => exact ⟨[], rfl, fun p hp => by cases hp⟩
  | cons e es ih =>
    obtain ⟨es', hclient, hsent⟩ := ih (s.step E host mem node e)
    cases hevent : s.clientEvent node e with
    | none =>
      refine ⟨es', ?_, hsent⟩
      rw [run_cons, hclient]
      simp only [step, hevent]
    | some e' =>
      refine ⟨e' :: es', ?_, fun p hp => ?_⟩
      · rw [run_cons, run_cons, hclient]
        simp only [step, hevent]
      · cases e with
        | server e => simp [clientEvent] at hevent
        | arrive i now hookNow =>
          obtain ⟨q, hq, rfl⟩ := Option.map_eq_some_iff.mp hevent
          rw [packetsOf_packet] at hp
          rcases List.mem_cons.mp hp with rfl | hp
          · exact (sentTo_run s _).subset (List.mem_of_getElem? hq)
          · exact hsent p hp
        | timeout =>
          obtain rfl := Option.some.inj hevent
          exact hsent p hp
        | stop =>
          obtain rfl := Option.some.inj hevent
          exact hsent p hp

end DownloadSystem

/-- The receive loop may be looked at at any time as if it had just been left. -/
theorem from_run {E : ErrorTest} {s : Session} {m : Metrics}
    (hm : computeDtpMetrics E s.request s.payloadSize = .ok m) (d : Disk) (now : UInt32)
    (es : List RecvEvent) :
    Received.From E s d (packetsOf es)
      ⟨apmOnEnd (run RecvState.step
        (.initial { (apmOnStart s d).1 with active := true } (apmOnStart s d).2 m now) es).session,
        (run RecvState.step (.initial { (apmOnStart s d).1 with active := true }
          (apmOnStart s d).2 m now) es).disk, .cancelled,
        (run RecvState.step (.initial { (apmOnStart s d).1 with active := true }
          (apmOnStart s d).2 m now) es).log⟩ := by
  have hstart :
    (RecvState.initial { (apmOnStart s d).1 with active := true } (apmOnStart s d).2 m now).Follows
      { (apmOnStart s d).1 with active := true } (apmOnStart s d).2 s.startCtx :=
    ⟨rfl, rfl, rfl, rfl, ⟨s.startCtx.lastPacketTs, rfl⟩, rfl, rfl⟩
  have hfollows := RecvState.follows_run hstart es
  have hcounted := RecvState.counted_run
    (s := .initial { (apmOnStart s d).1 with active := true } (apmOnStart s d).2 m now)
    ⟨rfl, Nat.zero_le _, by simp [RecvState.initial]⟩ es
  have hmetric := RecvState.metric_run
    (.initial { (apmOnStart s d).1 with active := true } (apmOnStart s d).2 m now) es
  obtain ⟨n, hn⟩ := RecvState.accepted_run hstart es
  generalize run RecvState.step
    (.initial { (apmOnStart s d).1 with active := true } (apmOnStart s d).2 m now) es = t at *
  obtain ⟨hreq, hsize, hbytes⟩ := apmOnEnd_fields t.session
  obtain ⟨ts, hctx⟩ := hfollows.hookCtx
  have houtput : (apmOnStart s d).2.output = if s.bytesReceived > 0 then d.output else [] := by
    simp only [apmOnStart]
    split_ifs <;> rfl
  refine ⟨⟨n, hn⟩, hreq.trans hfollows.request, hsize.trans hfollows.payloadSize,
    ⟨ts, apmOnEnd_hookCtx hctx⟩,
    hbytes.trans hfollows.bytesReceived, ?_, ⟨m, hm, ?_⟩, by simp, by simp⟩
  · rw [← houtput]
    exact hfollows.output
  · rw [← show t.metric = m from hmetric]
    exact hcounted.le

open DownloadSystem

/-- Whatever commands the server gets from its clients, whatever it has done by now, and whatever
the network has made of the packets: if the session asks a server for the packets of a memory area,
all its node's downloads are of that area in packets of that size, and all downloads can be served,
then the file has every packet in the segments that the session would have if it were ended now,
with the bytes of the server's memory. What was received earlier is in the file (`hfile`). -/
theorem vmem_download_sound (E : ErrorTest) (server : ByteOrder) (mem : UInt64 → UInt8)
    (msg : DtpMsg) (node : UInt16) (vaddr : UInt64) {s : Session}
    (hready : s.Ready (vmemRead mem vaddr s.payloadSize)) (d : Disk) (now : UInt32)
    (hfile : ∀ k ∈ s.resumed, 0 < s.bytesReceived.toNat ∧
      FileHas (vmemRead mem vaddr s.payloadSize) s.request.eff d.output k)
    {c : RecvState} (hc : enterReceive E s d now = .ok c) (es : List DownloadEvent)
    (hes : ∀ e ∈ serverEvents es, e.Expected server False)
    (harea : ∀ dl ∈ downloadsOf node (serverEvents es), dl.vaddr = vaddr ∧ dl.size = s.payloadSize ∧
      dl.request.mtu = s.request.mtu) :
    ∀ k ∈ (apmOnEnd (run (step E server mem node) ⟨.init msg, c⟩ es).client.session).covered,
      FileHas (vmemRead mem vaddr s.payloadSize) s.request.eff
        (run (step E server mem node) ⟨.init msg, c⟩ es).client.disk.output k := by
  obtain ⟨m, hm, rfl⟩ : ∃ m, computeDtpMetrics E s.request s.payloadSize = .ok m ∧
      c = .initial { (apmOnStart s d).1 with active := true } (apmOnStart s d).2 m now := by
    cases hm : computeDtpMetrics E s.request s.payloadSize with
    | error f => simp [enterReceive, apmOnStart, hm, bind, Except.bind] at hc
    | ok m =>
      refine ⟨m, rfl, ?_⟩
      simp only [enterReceive, apmOnStart, hm] at hc
      exact (Except.ok.inj hc).symm
  obtain ⟨es', hclient, hsent⟩ := client_run E server mem node
    ⟨.init msg, .initial { (apmOnStart s d).1 with active := true } (apmOnStart s d).2 m now⟩ es
  rw [server_run] at hsent
  have hfrom := from_run hm d now es'
  rw [hclient]
  generalize run RecvState.step (.initial { (apmOnStart s d).1 with active := true }
    (apmOnStart s d).2 m now) es' = t at hfrom ⊢
  have hlen : s.payloadSize.toNat = (vmemRead mem vaddr s.payloadSize).length :=
    (length_vmemRead ..).symm
  have hlt : (vmemRead mem vaddr s.payloadSize).length < 2 ^ 32 := hlen ▸ s.payloadSize.toNat_lt
  have hchunks :
      ∀ p ∈ packetsOf es', ∃ k, p.IsChunk (vmemRead mem vaddr s.payloadSize) s.request.eff k := by
    intro p hp
    obtain ⟨dl, hdl, hp⟩ := exists_download_of_mem_sentTo E mem msg hes (hsent p hp)
    obtain ⟨hvaddr, hsize, hmtu⟩ := harea dl hdl
    rw [VmemDownload.emission, hvaddr, hsize] at hp
    obtain ⟨k, -, hk⟩ := isChunk_of_mem_emission (by rw [hmtu]; exact hready.usable.mtu) hlt hp
    have heff : MetaReq.eff { dl.request with sessionId := dl.sessionId } = s.request.eff := by
      rw [MetaReq.eff, hmtu, MetaReq.eff]
    exact ⟨k, heff ▸ hk⟩
  obtain ⟨-, -, hupper, -⟩ := hready.ends hlen hfrom hchunks
  intro k hk
  refine (congrArg (FileHas _ _ · k) hfrom.output).mpr
    (fileHas_writePackets hready.usable.mtu (fun p hp => hchunks p (hfrom.mem hp)) ?_)
  rcases Finset.mem_union.mp (hupper hk) with hk | hk
  · obtain ⟨hbytes, hhas⟩ := hfile k hk
    rw [if_pos (show s.bytesReceived > 0 from UInt32.lt_iff_toNat_lt.mpr hbytes)]
    exact Or.inl hhas
  · obtain ⟨p, hp, rfl⟩ := List.mem_map.mp (List.mem_toFinset.mp hk)
    obtain ⟨j, hj⟩ := hchunks p (hfrom.mem hp)
    refine Or.inr ⟨p, hp, ?_⟩
    rw [hfrom.request, hj.number_eq hready.usable.mtu]
    exact hj

/-- A fresh session for eight bytes. -/
def eightSession : Session :=
  { startDownload (configureSession (acquireSession emptySlot) fourByteChunks) fourByteChunks with
    payloadSize := 8 }

theorem ready_eightSession : eightSession.Ready (vmemRead (fun _ => 7) 0x1000 8) := by
  have hprepare : prepareSession .little emptySlot fourByteChunks false ⟨[], none⟩ =
      .ok (startDownload
        (configureSession (acquireSession emptySlot) fourByteChunks) fourByteChunks) := rfl
  obtain ⟨hready, -⟩ := ready_fresh ⟨rfl, rfl⟩ (by decide) (by decide) hprepare
  exact ⟨hready.usable, hready.fits, hready.sorted, hready.missing, hready.segments,
    hready.received, hready.subset⟩

/-- Two clients download eight bytes each. The first packet arrives at one of them twice, and the
second does not arrive. -/
theorem vmem_download_sound_twice : ∃ c, enterReceive .exact eightSession ⟨[], none⟩ 0 = .ok c ∧
    FileHas (vmemRead (fun _ => 7) 0x1000 8) 4 (run (step .exact .big (fun _ => 7) 6)
      ⟨.init ⟨0, 0, 0, 0, oneInterval 12 ⟨0, 0⟩⟩, c⟩
      (twoClients.map .server ++ [.arrive 0 1 1, .timeout, .arrive 0 2 2])).client.disk.output
        0 := by
  have hserver : serverEvents (twoClients.map .server ++ [.arrive 0 1 1, .timeout, .arrive 0 2 2]) =
    twoClients := rfl
  have hdownloads : downloadsOf 6 twoClients = [{ VmemDownload.eight with node := 6 }] := rfl
  refine ⟨_, rfl, ?_⟩
  refine vmem_download_sound (s := eightSession) .exact .big
    (fun _ => 7) _ 6 0x1000 ready_eightSession ⟨[], none⟩ 0 ?_ rfl _ ?_ ?_ 0 ?_
  · intro k hk
    simp [Session.resumed, Session.startCtx, eightSession, startDownload, configureSession,
      acquireSession, emptySlot] at hk
  · rw [hserver]
    exact expected_twoClients
  · rw [hserver, hdownloads]
    intro dl hdl
    rw [List.mem_singleton.mp hdl]
    exact ⟨rfl, rfl, rfl⟩
  · decide +kernel

end LibDtp
