import LibDtp.Vmem.Requests

/-!
# Several clients of one server

`csp_sendto` sends every packet to the node in `dest_port` of the shared context, which is the node
that the message came from. This module follows the packets to the nodes.

## The model

`RoutedServer` is the VMEM server with a record of all packets and where they were sent; the record
is filled from what a step sends and from the context it finds. A client is a node: its commands are
the requests that come from there.

## What is proved

* `Represents.step` — a step of the server, and where its packets go.
* `vmem_clients_isolated` — what is sent to a node is what that node has asked for, download by
  download in the order in which its requests were accepted, whatever other nodes ask for or stop.
-/

namespace LibDtp

open Bytes Chunks Runs Service VmemSystem

/-- The VMEM server, with the packets that it has sent and the nodes they were sent to. -/
structure RoutedServer where
  /-- The server. -/
  system : VmemSystem
  /-- The packets. -/
  network : List (UInt16 × Packet)

namespace RoutedServer

/-- One step. -/
def step (E : ErrorTest) (host : ByteOrder) (mem : UInt64 → UInt8) (s : RoutedServer)
    (e : VmemEvent) : RoutedServer where
  system := s.system.step E host mem e
  network := s.network ++
    ((s.system.step E host mem e).sent.drop s.system.sent.length).map
      (Prod.mk s.system.server.send.ctx.destPort)

/-- Before the first request. -/
def init (msg : DtpMsg) : RoutedServer := ⟨.init msg, []⟩

/-- The packets that were sent to a node. -/
def sentTo (node : UInt16) (s : RoutedServer) : List Packet :=
  s.network.filterMap fun x => if x.1 = node then some x.2 else none

/-- The packets of some messages, with the nodes that the messages came from. -/
def route (begun : List (DtpMsg × List Packet)) : List (UInt16 × Packet) :=
  begun.flatMap fun x => x.2.map (Prod.mk x.1.destPort)

/-- The server is a state of the specification, and its packets have gone to where the messages came
from. -/
structure Represents (mem : UInt64 → UInt8) (calm : Prop) (s : RoutedServer)
    (a : State DtpMsg Packet) : Prop where
  /-- The server. -/
  system : s.system.Represents mem calm a
  /-- From when the context is set up it names the node. -/
  dest : s.system.server.task = .configured ∨ s.system.server.task = .armed ∨
    s.system.server.task = .sending →
    s.system.server.send.ctx.destPort = s.system.msg.destPort
  /-- The packets. -/
  network : s.network = route a.begun

end RoutedServer

namespace VmemSystem

variable {E : ErrorTest} {host : ByteOrder} {mem : UInt64 → UInt8} {calm : Prop} {s : VmemSystem}

variable (E host mem) in
/-- Nothing is sent by a step that does not find the task sending. -/
theorem sent_step (htask : s.server.task ≠ .sending) (e : VmemEvent) :
    (s.step E host mem e).sent = s.sent := by
  cases e with
  | request env r =>
    have hmoves := VmemServer.moves_step E host s.server (.request env r)
    simp only [step, sent]
    generalize s.server.step E host (.request env r) = s' at hmoves ⊢
    cases hmoves <;> rfl
  | task buffer now =>
    have hmoves :=
      VmemServer.moves_step E host s.server (.task ⟨buffer, dtpPayloadVmemRead mem s.msg, now⟩)
    simp only [step, sent]
    generalize s.server.step E host (.task ⟨buffer, dtpPayloadVmemRead mem s.msg, now⟩) =
      s' at hmoves ⊢
    cases hmoves with
    | send _ h => exact absurd h htask
    | _ => rfl

variable (E mem) in
/-- The node does not change while a message is served. -/
theorem dest_request (h : ∀ f, s.server.task ≠ .crashed f) {env : HandlerEnv} {r : VmemRequest}
    (he : VmemEvent.Expected host calm (.request env r)) :
    (s.step E host mem (.request env r)).server.task = s.server.task ∧
      (s.step E host mem (.request env r)).server.send.ctx.destPort =
        s.server.send.ctx.destPort := by
  rw [step_request h]
  by_cases h0 : r.type = dtpRequestStartTransfer
  · obtain ⟨msg, hmsg, -⟩ := he.1 h0
    rw [VmemServer.vmemDtpRequestHandler, if_pos h0]
    simp only [VmemServer.handleStart, hmsg]
    exact ⟨rfl, rfl⟩
  have halive : (s.server.handleAlive env).task = s.server.task ∧
      (s.server.handleAlive env).send.ctx.destPort = s.server.send.ctx.destPort := by
    rw [VmemServer.handleAlive]
    split_ifs <;> exact ⟨rfl, rfl⟩
  simp only [VmemServer.vmemDtpRequestHandler, h0, if_false]
  split_ifs
  all_goals first | exact ⟨rfl, rfl⟩ | exact halive

/-- From when the task has set up the context it names the node that the message came from. -/
def Addressed (s : VmemSystem) : Prop :=
  s.server.task = .configured ∨ s.server.task = .armed ∨ s.server.task = .sending →
    s.server.send.ctx.destPort = s.msg.destPort

theorem addressed_step {a : State DtpMsg Packet} (hrep : Represents mem calm s a) (h : s.Addressed)
    {e : VmemEvent} (he : e.Expected host calm) : (s.step E host mem e).Addressed := by
  obtain ⟨-, -, -, hstage⟩ := hrep
  cases e with
  | request env r =>
    obtain ⟨htask, hdest⟩ := dest_request E mem hstage.not_crashed he
    have hmsg : (s.step E host mem (.request env r)).msg = s.msg := rfl
    rw [Addressed, htask, hdest, hmsg]
    exact h
  | task buffer now =>
    generalize a.begun = begun at hstage
    cases hstage with
    | waiting _ htask =>
      rw [Addressed, step_task (by simp [htask]), VmemServer.taskStep, htask]
      cases hqueue : s.server.queue <;> simp [htask]
    | received _ htask hfine =>
      obtain ⟨total, hsetup⟩ := setupVmemTransfer_eq_ok s.server.send.ctx hfine.usable.le
      rw [Addressed, step_task_busy (by simp [htask]) (by simp [htask]), VmemServer.taskStep, htask]
      simp only [hsetup]
      exact fun _ => rfl
    | configured _ htask hfine =>
      have hdest : s.server.send.ctx.destPort = s.msg.destPort :=
        h (htask.imp_right fun htask => Or.inl htask.1)
      rw [Addressed]
      rcases htask with htask | ⟨htask, -⟩
      · rw [step_task_busy (by simp [htask]) (by simp [htask]), VmemServer.taskStep, htask]
        exact fun _ => hdest
      · rw [step_task_busy (by simp [htask]) (by simp [htask]), VmemServer.taskStep, htask]
        refine fun _ => Eq.trans ?_ hdest
        rw [startSendingData]
        cases computeDtpMetrics E s.server.send.ctx.request s.server.send.ctx.payloadSize <;> rfl
    | sending _ own base htask hsend hown =>
      have hdest : s.server.send.ctx.destPort = s.msg.destPort := h (Or.inr (Or.inr htask))
      rw [Addressed, step_task_busy (by simp [htask]) (by simp [htask]), VmemServer.taskStep, htask]
      have hstep : (s.server.send.step ⟨buffer, dtpPayloadVmemRead mem s.msg, now⟩).ctx.destPort =
          s.server.send.ctx.destPort := by
        obtain ⟨request, gone, -, -, hctx⟩ :=
          s.server.send.ctx_step ⟨buffer, dtpPayloadVmemRead mem s.msg, now⟩
        rw [hctx]
      cases s.server.send.pc with
      | finished => simp
      | fault f => simp
      | interval i => exact fun _ => hstep.trans hdest
      | poll i c => exact fun _ => hstep.trans hdest

end VmemSystem

namespace RoutedServer

variable {E : ErrorTest} {host : ByteOrder} {mem : UInt64 → UInt8} {calm : Prop} {s : RoutedServer}

/-- A step of the server is one of the specification, and what it sends goes to where the message
came from. -/
theorem Represents.step {a : State DtpMsg Packet} (h : Represents mem calm s a) {e : VmemEvent}
    (he : e.Expected host calm) :
    ∃ a', Step (DtpMsg.emission mem) (Enough mem calm) a (e.accepts host) a' ∧
      Represents mem calm (s.step E host mem e) a' := by
  obtain ⟨a', hstep, hrep⟩ :
    ∃ a', Step (DtpMsg.emission mem) (Enough mem calm) a (e.accepts host) a' ∧
      VmemSystem.Represents mem calm (s.system.step E host mem e) a' := by
    cases e with
    | request env r => exact h.system.request he
    | task buffer now => exact h.system.task buffer now
  have haddressed := addressed_step (E := E) h.system h.dest he
  have hbefore := h.system.sent
  have hafter := hrep.sent
  refine ⟨a', hstep, hrep, haddressed, ?_⟩
  have hsame : (s.system.step E host mem e).sent = s.system.sent →
      (s.step E host mem e).network = s.network := by
    intro hsame
    simp [RoutedServer.step, hsame]
  generalize e.accepts host = accepted at hstep
  cases hstep with
  | idle => rw [hsame (hafter.trans hbefore.symm), h.network]
  | accept => rw [hsame (hafter.trans hbefore.symm), h.network]
  | begin begun j js =>
    rw [hsame (hafter.trans (Eq.trans (by simp [State.output]) hbefore.symm)), h.network]
    simp [route]
  | put begun j ps p js =>
    have hlast : s.system.server.send.ctx.destPort = j.destPort := by
      by_cases htask : s.system.server.task = .sending
      · obtain ⟨own, hown⟩ := h.system.stage.getLast htask
        rw [List.getLast?_concat] at hown
        rw [h.dest (Or.inr (Or.inr htask))]
        exact congrArg (fun x => x.1.destPort) (Option.some.inj hown).symm
      · have hcontra := hafter.symm.trans ((sent_step E host mem htask e).trans hbefore)
        simp [State.output] at hcontra
    have hput : (s.system.step E host mem e).sent = s.system.sent ++ [p] := by
      rw [hafter, hbefore]
      simp [State.output]
    simp only [RoutedServer.step, h.network, hlast, hput, List.drop_left]
    simp [route]

theorem represents_init (mem : UInt64 → UInt8) (calm : Prop) (msg : DtpMsg) :
    Represents mem calm (init msg) .initial :=
  ⟨VmemSystem.represents_init mem calm msg, fun h => (by rcases h with h | h | h <;> cases h), rfl⟩

/-- Every run is one of the specification. -/
theorem exists_represents (E : ErrorTest) {host : ByteOrder} (mem : UInt64 → UInt8) {calm : Prop}
    (msg : DtpMsg) {es : List VmemEvent} (hes : ∀ e ∈ es, e.Expected host calm) :
    ∃ a, Service.Serves (DtpMsg.emission mem) (Enough mem calm) (accepted host es) a ∧
      Represents mem calm (run (RoutedServer.step E host mem) (init msg) es) a :=
  exists_serves (fun _ _ _ he hR => hR.step he) (represents_init mem calm msg) .initial hes

/-- The packets that have gone to a node. -/
theorem Represents.sentTo {a : State DtpMsg Packet} (h : Represents mem calm s a) (node : UInt16) :
    s.sentTo node = (a.begun.filterMap fun x => if x.1.destPort = node then some x.2
      else none).flatten := by
  rw [RoutedServer.sentTo, h.network]
  induction a.begun with
  | nil => rfl
  | cons x begun ih =>
    rw [route, List.flatMap_cons, List.filterMap_append, ← route, ih, List.filterMap_cons]
    by_cases hnode : x.1.destPort = node
    · simp [hnode]
    · simp [hnode]

end RoutedServer

open RoutedServer

/-- The downloads of a node. -/
def downloadsOf (node : UInt16) (es : List VmemClientEvent) : List VmemDownload :=
  (downloads es).filter (·.node = node)

/-- What is sent for a message is what its client has asked for, and goes there. -/
theorem exists_forall₂_begun (E : ErrorTest) {server : ByteOrder} (mem : UInt64 → UInt8)
    (msg : DtpMsg) {es : List VmemClientEvent} (hes : ∀ e ∈ es, e.Expected server False) :
    ∃ a, Represents mem False
      (run (RoutedServer.step E server mem) (init msg) (es.map VmemClientEvent.toVmem)) a ∧
      List.Forall₂ (fun x d => x.1.destPort = d.node ∧ ServesDownload mem False x.2 d) a.begun
        ((downloads es).take a.begun.length) := by
  have hexpected : ∀ e ∈ es.map VmemClientEvent.toVmem, e.Expected server False := by
    intro e he
    obtain ⟨e', he', rfl⟩ := List.mem_map.mp he
    exact (hes e' he').toVmem
  obtain ⟨a, hserves, hrep⟩ := RoutedServer.exists_represents E mem msg hexpected
  exact ⟨a, hrep, forall₂_begun hes mem hserves fun _ _ hfalse => hfalse.elim⟩

/-- A packet that is sent to a node is one that the node has asked for. -/
theorem exists_download_of_mem_sentTo (E : ErrorTest) {server : ByteOrder} (mem : UInt64 → UInt8)
    (msg : DtpMsg) {es : List VmemClientEvent} (hes : ∀ e ∈ es, e.Expected server False)
    {node : UInt16} {p : Packet}
    (hp : p ∈ (run (RoutedServer.step E server mem) (init msg)
      (es.map VmemClientEvent.toVmem)).sentTo node) :
    ∃ d ∈ downloadsOf node es, p ∈ d.emission mem := by
  obtain ⟨a, hrep, hbegun⟩ := exists_forall₂_begun E mem msg hes
  rw [hrep.sentTo, List.mem_flatten] at hp
  obtain ⟨part, hpart, hp⟩ := hp
  obtain ⟨x, hx, hpart⟩ := List.mem_filterMap.mp hpart
  obtain ⟨i, hi, rfl⟩ := List.mem_iff_getElem.mp hx
  have hi' : i < ((downloads es).take a.begun.length).length := hbegun.length_eq ▸ hi
  obtain ⟨hnode, hserved⟩ := hbegun.get hi hi'
  simp only [List.get_eq_getElem] at hnode hserved
  split_ifs at hpart with h
  obtain rfl := Option.some.inj hpart
  refine ⟨_, List.mem_filter.mpr ⟨List.mem_of_mem_take (List.getElem_mem hi'), ?_⟩,
    hserved.isPrefix.subset hp⟩
  exact decide_eq_true (hnode.symm.trans h)

/-- However the requests of several clients and the steps of the server are interleaved, also if
downloads are stopped or their keep-alives fail to come, as long as all of them can be served: what
a node is sent is, download by download in the order in which its requests were accepted, the
beginning of what it has asked for, and nothing that another node has asked for. -/
theorem vmem_clients_isolated (E : ErrorTest) (server : ByteOrder) (mem : UInt64 → UInt8)
    (msg : DtpMsg) (es : List VmemClientEvent) (hes : ∀ e ∈ es, e.Expected server False)
    (node : UInt16) :
    ∃ ds, ds <+: downloadsOf node es ∧ ServesDownloads mem False
      ((run (RoutedServer.step E server mem) (init msg) (es.map VmemClientEvent.toVmem)).sentTo
        node) ds := by
  obtain ⟨a, hrep, hbegun⟩ := exists_forall₂_begun E mem msg hes
  refine ⟨((downloads es).take a.begun.length).filter (·.node = node),
    (List.take_prefix _ _).filter _, _, hrep.sentTo node, ?_⟩
  rw [← List.filterMap_eq_filter]
  refine List.rel_filterMap (fun x d hxd => ?_) hbegun
  obtain ⟨hnode, hserved⟩ := hxd
  rw [hnode, Option.guard]
  by_cases h : d.node = node
  · simp only [h, if_true, decide_true]
    exact .some hserved
  · simp only [h, if_false, decide_false, Bool.false_eq_true]
    exact .none

/-- Two clients ask for eight bytes each. -/
def twoClients : List VmemClientEvent :=
  .command calmEnv (.startDownload .eight) :: .command calmEnv
    (.startDownload { VmemDownload.eight with node := 6 }) ::
    List.replicate 24 (.task true 0)

theorem expected_twoClients : ∀ e ∈ twoClients, e.Expected .big False := by
  intro e he
  simp only [twoClients, List.mem_cons] at he
  rcases he with rfl | rfl | he
  · exact VmemDownload.fine_eight False
  · exact ⟨(VmemDownload.fine_eight False).usable, (VmemDownload.fine_eight False).fits, fun h =>
      h.elim⟩
  · rw [List.eq_of_mem_replicate he]
    trivial

/-- The second client is sent what it has asked for. -/
theorem vmem_clients_isolated_two :
    ∃ ds, ds <+: downloadsOf 6 twoClients ∧ ServesDownloads (fun _ => 7) False
      ((run (RoutedServer.step .exact .big fun _ => 7) (init ⟨0, 0, 0, 0, oneInterval 12 ⟨0, 0⟩⟩)
        (twoClients.map VmemClientEvent.toVmem)).sentTo 6) ds :=
  vmem_clients_isolated .exact .big _ _ twoClients expected_twoClients 6

end LibDtp
