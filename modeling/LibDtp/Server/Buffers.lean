import LibDtp.Foundation.Ownership
import LibDtp.Foundation.Runs
import LibDtp.Server.Setup

/-!
# The packet buffers of the server

What `dtp_server_run` does with the packets it obtains: the request it reads, the response it sends,
and the data packets of `dtp_server_poll_loop`.

## The model

An iteration of `dtp_server_run` is a function of what the world answers in it. Its packets are
named by what they are for, and every one that is obtained, freed or given to `csp_send` or
`csp_sendto` is recorded. The two last take the packet over. Between two steps of a transfer, other
tasks may do anything to the shared context.

## What is proved

* `settle_run` — in a transfer, the packets that are kept are those for which the payload's `read`
  has returned `0`.
* `packets_returned_iff` — an iteration gives back every packet exactly if `get_payload_meta` does
  not fail, and no `read` returns `0`.
-/

namespace LibDtp

open Bytes Ownership Runs

/-- A packet of an iteration. -/
inductive PacketId where
  /-- The one that was read. -/
  | request
  /-- The response to it. -/
  | response
  /-- The data packet with the number `k`, as they were obtained. -/
  | data (k : ℕ)
  deriving DecidableEq

/-- What a transfer does with its packets, after it has obtained `n` of them. A packet that is sent
is the last one that was obtained. -/
def packetUses : ℕ → List SendObs → List (Use PacketId)
  | _, [] => []
  | n, .buffer :: log => .take (.data n) :: packetUses (n + 1) log
  | n, .sent _ :: log => .give (.data (n - 1)) :: packetUses n log
  | n, _ :: log => packetUses n log

/-- `setup_server_transfer`, with what it does with its packets. -/
def setupUses (host : ByteOrder) (getPayloadMeta : UInt8 → Option UInt32) (buffer : Bool)
    (ctx : ServerTransferCtx) (dst : UInt16) (request : CspRequest) :
    Except Fault ((ServerTransferCtx × Option MetaResp) × List (Use PacketId)) :=
  let ctx := copyRequest host ctx dst request
  match getPayloadMeta ctx.request.payloadId with
  | none => .ok ((ctx, none), [])
  | some size => do
    let ctx := { ctx with payloadSize := size }
    let sizeInBytes ← computeTransferSize ctx
    let ctx := { ctx with sizeInBytes := sizeInBytes }
    return if buffer then ((ctx, some ⟨sizeInBytes, size⟩), [.give .request, .take .response])
      else ((ctx, none), [.give .request])

/-- What happens while a transfer goes on. -/
inductive SendTurn where
  /-- The transfer takes a step. -/
  | tick (t : Tick)
  /-- Another task writes to the context. -/
  | other (ctx : ServerTransferCtx)

namespace SendState

/-- A turn. -/
def turn (s : SendState) : SendTurn → SendState
  | .tick t => s.step t
  | .other ctx => { s with ctx := ctx }

/-- The transfer has obtained a packet, and the payload's `read` returns `0`. -/
def ReadsNothing (s : SendState) : SendTurn → Prop
  | .tick t => ∃ i pktCnt, s.pc = .poll i pktCnt ∧ s.transfer.nofPacketsPerRound > pktCnt ∧
    s.ctx.keepRunning ∧
      t.buffer ∧ (t.read s.transfer.bytesSent s.nextSize).count = 0
  | .other _ => False

end SendState

/-- What the world answers in an iteration of `dtp_server_run`. -/
structure Iteration where
  /-- Does `csp_accept` return a connection? -/
  accept : Bool
  /-- What `csp_read` returns. -/
  read : Option CspRequest
  /-- The other end of the connection. -/
  src : UInt16
  /-- `get_payload_meta`. -/
  getPayloadMeta : UInt8 → Option UInt32
  /-- Does `csp_buffer_get` return a packet for the response? -/
  buffer : Bool
  /-- The clock when the transfer starts. -/
  now : UInt32
  /-- What happens during the transfer. -/
  turns : List SendTurn

/-- An iteration of `dtp_server_run`: the context after it, and what it has done with its packets.
There is no answer if the transfer has not ended after the turns. -/
def serverIteration (E : ErrorTest) (host : ByteOrder) (ctx : ServerTransferCtx) (it : Iteration) :
    Except Fault (Option (ServerTransferCtx × List (Use PacketId))) :=
  if it.accept then
    match it.read with
    | none => .ok (some (ctx, []))
    | some request => do
      let ((ctx, response), uses) ← setupUses host it.getPayloadMeta it.buffer ctx it.src request
      match response with
      | none => return some ({ ctx with keepRunning := false }, .take .request :: uses)
      | some _ =>
        let s := run SendState.turn
          (startSendingData E { ctx with keepRunning := true } it.now) it.turns
        match s.pc with
        | .finished =>
          return some ({ s.ctx with keepRunning := false },
            .take .request :: (uses ++ .give .response :: packetUses 0 s.log))
        | .fault f => throw f
        | _ => return none
  else .ok (some (ctx, []))

/-- A run of `dtp_server_run`: its iterations, and what each has done with its packets. -/
inductive ServerRun (E : ErrorTest) (host : ByteOrder) :
    ServerTransferCtx → List Iteration → List (List (Use PacketId)) → Prop where
  /-- `*exit_server` is set. -/
  | exit (ctx : ServerTransferCtx) : ServerRun E host ctx [] []
  /-- An iteration that ends. -/
  | next {ctx ctx' : ServerTransferCtx} {it : Iteration} {its : List Iteration}
      {uses : List (Use PacketId)}
      {log : List (List (Use PacketId))}
        (hit : serverIteration E host ctx it = .ok (some (ctx', uses)))
      (h : ServerRun E host ctx' its log) : ServerRun E host ctx (it :: its) (uses :: log)

/-- The packets of an iteration are not lost: the payload it is asked for is there, and its `read`
never returns `0`. -/
def Iteration.Lossless (E : ErrorTest) (host : ByteOrder) (ctx : ServerTransferCtx)
    (it : Iteration) : Prop :=
  ∀ request, it.accept → it.read = some request →
    it.getPayloadMeta (MetaReq.ofBytes host request.data).payloadId ≠ none ∧
    ∀ s, serveRequest E host it.getPayloadMeta it.buffer ctx it.src request it.now = .ok (some s) →
      Along SendState.turn (fun s e => ¬ s.ReadsNothing e) s it.turns

/-- In a run, the packets of no iteration are lost. -/
def LosslessRun (E : ErrorTest) (host : ByteOrder) : ServerTransferCtx → List Iteration → Prop
  | _, [] => True
  | ctx, it :: its => it.Lossless E host ctx ∧
      ∀ ctx' uses, serverIteration E host ctx it = .ok (some (ctx', uses)) →
        LosslessRun E host ctx' its

/-! ### The packets of a transfer -/

/-- How many packets a transfer has obtained. -/
def obtained (log : List SendObs) : ℕ := log.count .buffer

theorem obtained_append (log log' : List SendObs) :
    obtained (log ++ log') = obtained log + obtained log' := List.count_append

theorem packetUses_append (n : ℕ) (log log' : List SendObs) :
    packetUses n (log ++ log') = packetUses n log ++ packetUses (n + obtained log) log' := by
  induction log generalizing n with
  | nil => rfl
  | cons o log ih =>
    cases o with
    | buffer =>
      have hcount : obtained (.buffer :: log) = obtained log + 1 := List.count_cons_self
      rw [List.cons_append, packetUses, packetUses, ih, hcount, List.cons_append, Nat.add_assoc,
        Nat.add_comm 1]
    | sent p =>
      have hcount : obtained (.sent p :: log) = obtained log := List.count_cons_of_ne (by simp)
      rw [List.cons_append, packetUses, packetUses, ih, hcount, List.cons_append]
    | bounds i a b c d =>
      have hcount : obtained (.bounds i a b c d :: log) = obtained log :=
        List.count_cons_of_ne (by simp)
      rw [hcount]
      exact ih n
    | read a b =>
      have hcount : obtained (.read a b :: log) = obtained log := List.count_cons_of_ne (by simp)
      rw [hcount]
      exact ih n
    | advance a b c =>
      have hcount : obtained (.advance a b c :: log) = obtained log :=
        List.count_cons_of_ne (by simp)
      rw [hcount]
      exact ih n

namespace SendState

/-- Everything a turn can do with packets. -/
inductive PacketMoves (s : SendState) (e : SendTurn) (s' : SendState) : Prop where
  /-- Nothing. -/
  | idle (hread : ¬ s.ReadsNothing e) (new : List SendObs) (hlog : s'.log = s.log ++ new)
      (hnew : obtained new = 0)
      (huses : ∀ n, packetUses n new = [])
  /-- One is obtained and sent. -/
  | sends (hread : ¬ s.ReadsNothing e) (new : List SendObs) (hlog : s'.log = s.log ++ new)
      (hnew : obtained new = 1)
      (huses : ∀ n, packetUses n new = [.take (.data n), .give (.data n)])
  /-- One is obtained and kept. -/
  | loses (hread : s.ReadsNothing e) (new : List SendObs) (hlog : s'.log = s.log ++ new)
      (hnew : obtained new = 1)
      (huses : ∀ n, packetUses n new = [.take (.data n)])

theorem log_endRound_eq (s : SendState) (i : ℕ) : (s.endRound i).log = s.log ++ [] := by
  rw [List.append_nil]
  simp only [endRound]
  split_ifs <;> rfl

theorem log_intervalStep (s : SendState) (i : ℕ) : (s.intervalStep i).log = s.log ∨
    ∃ start rawStop stop bytes, (s.intervalStep i).log =
      s.log ++ [.bounds i start rawStop stop bytes] := by
  simp only [intervalStep]
  split
  · cases s.ctx.request.intervalAt i with
    | error f => exact Or.inl rfl
    | ok cur =>
      simp only
      by_cases hopen : cur.stop ≠ uint32Max
      · rw [if_pos hopen]
        exact Or.inr ⟨_, _, _, _, rfl⟩
      · rw [if_neg hopen]
        by_cases hchunk : s.ctx.request.chunk = 0
        · rw [if_pos hchunk]
          exact Or.inl rfl
        · rw [if_neg hchunk]
          exact Or.inr ⟨_, _, _, _, rfl⟩
  · exact Or.inl rfl

theorem packetMoves_turn (s : SendState) (e : SendTurn) : s.PacketMoves e (s.turn e) := by
  cases e with
  | other ctx => exact .idle id [] (List.append_nil _).symm rfl fun _ => rfl
  | tick t =>
    change s.PacketMoves _ (s.step t)
    simp only [step]
    have hidle : (∀ i c, s.pc ≠ .poll i c) → ¬ s.ReadsNothing (.tick t) := by
      rintro h ⟨i, c, hpc, -⟩
      exact h i c hpc
    cases hpc : s.pc with
    | finished => exact .idle (hidle (by simp [hpc])) [] (List.append_nil _).symm rfl fun _ => rfl
    | fault f => exact .idle (hidle (by simp [hpc])) [] (List.append_nil _).symm rfl fun _ => rfl
    | interval i =>
      have hread := hidle (by simp [hpc])
      rcases s.log_intervalStep i with hlog | ⟨start, rawStop, stop, bytes, hlog⟩
      · exact .idle hread [] (hlog.trans (List.append_nil _).symm) rfl fun _ => rfl
      · exact .idle hread [_] hlog rfl fun _ => rfl
    | poll i c =>
      simp only [pollStep]
      split_ifs with hrun hbuffer hcount
      · refine .loses ⟨i, c, hpc, hrun.1, hrun.2, hbuffer, hcount⟩
          [.buffer, .read s.transfer.bytesSent s.nextSize] ?_ rfl
          fun _ => rfl
        rw [log_endRound_eq, List.append_nil]
      · refine .sends ?_ [.buffer, .read _ _, .advance _ _ _, .sent _] rfl rfl fun _ => rfl
        rintro ⟨-, -, -, -, -, -, h⟩
        exact hcount h
      · refine .idle ?_ [] (log_endRound_eq s i) rfl fun _ => rfl
        rintro ⟨-, -, -, -, -, h, -⟩
        exact hbuffer h
      · refine .idle ?_ [] (log_endRound_eq s i) rfl fun _ => rfl
        rintro ⟨i', c', hpc', hlt, hrunning, -, -⟩
        rw [hpc] at hpc'
        cases hpc'
        exact hrun ⟨hlt, hrunning⟩

/-- The packets a transfer holds are some of those it has obtained. -/
structure Keeps (s : SendState) (held : List PacketId) : Prop where
  /-- What it holds. -/
  settle : settle [] (packetUses 0 s.log) = some held
  /-- It has obtained them. -/
  lt : ∀ k, .data k ∈ held → k < obtained s.log

/-- A transfer keeps no packet exactly if no `read` has returned `0`. -/
theorem settle_run {s : SendState} {held : List PacketId} (h : s.Keeps held) (es : List SendTurn) :
    ∃ held', (Runs.run SendState.turn s es).Keeps held' ∧
      (held' = [] ↔ held = [] ∧ Along SendState.turn (fun s e => ¬ s.ReadsNothing e) s es) := by
  induction es generalizing s held with
  | nil => exact ⟨held, h, by simp [Along]⟩
  | cons e es ih =>
    have hfresh : .data (obtained s.log) ∉ held := fun hmem => lt_irrefl _ (h.lt _ hmem)
    cases s.packetMoves_turn e with
    | idle hread new hlog hnew huses =>
      have hkeeps : (s.turn e).Keeps held := by
        refine ⟨?_, fun k hk => ?_⟩
        · rw [hlog, packetUses_append, huses, List.append_nil]
          exact h.settle
        · rw [hlog, obtained_append, hnew]
          exact h.lt k hk
      obtain ⟨held', hheld', hiff⟩ := ih hkeeps
      exact ⟨held', hheld', by rw [hiff, Along]; simp [hread]⟩
    | sends hread new hlog hnew huses =>
      have hkeeps : (s.turn e).Keeps held := by
        refine ⟨?_, fun k hk => ?_⟩
        · rw [hlog, packetUses_append, huses, settle_append_of_eq h.settle, Nat.zero_add,
            settle_take hfresh, settle_give (List.mem_cons_self ..), List.erase_cons_head]
          rfl
        · rw [hlog, obtained_append]
          exact Nat.lt_add_right _ (h.lt k hk)
      obtain ⟨held', hheld', hiff⟩ := ih hkeeps
      exact ⟨held', hheld', by rw [hiff, Along]; simp [hread]⟩
    | loses hread new hlog hnew huses =>
      have hkeeps : (s.turn e).Keeps (.data (obtained s.log) :: held) := by
        refine ⟨?_, fun k hk => ?_⟩
        · rw [hlog, packetUses_append, huses, settle_append_of_eq h.settle, Nat.zero_add,
            settle_take hfresh]
          rfl
        · rw [hlog, obtained_append, hnew]
          rcases List.mem_cons.mp hk with heq | hk
          · cases heq
            exact Nat.lt_succ_self _
          · exact Nat.lt_succ_of_lt (h.lt k hk)
      obtain ⟨held', hheld', hiff⟩ := ih hkeeps
      exact ⟨held', hheld', by rw [hiff, Along]; simp [hread]⟩

end SendState

/-! ### The packets of an iteration -/

/-- The two models of `setup_server_transfer` agree. -/
theorem setupUses_fst (host : ByteOrder) (getPayloadMeta : UInt8 → Option UInt32) (buffer : Bool)
    (ctx : ServerTransferCtx) (dst : UInt16) (request : CspRequest) :
    (setupUses host getPayloadMeta buffer ctx dst request).map Prod.fst =
      setupServerTransfer host getPayloadMeta buffer ctx dst request := by
  simp only [setupUses, setupServerTransfer]
  cases getPayloadMeta (copyRequest host ctx dst request).request.payloadId with
  | none => rfl
  | some size =>
    dsimp only
    cases computeTransferSize { copyRequest host ctx dst request with payloadSize := size } with
    | error f => rfl
    | ok n => cases buffer <;> rfl

/-- What `setup_server_transfer` can do with its packets. -/
theorem setupUses_cases {host : ByteOrder} {getPayloadMeta : UInt8 → Option UInt32} {buffer : Bool}
    {ctx ctx' : ServerTransferCtx} {dst : UInt16} {request : CspRequest}
    {response : Option MetaResp} {uses : List (Use PacketId)}
    (h : setupUses host getPayloadMeta buffer ctx dst request = .ok ((ctx', response), uses)) :
    getPayloadMeta (MetaReq.ofBytes host request.data).payloadId = none ∧ response = none ∧
      uses = [] ∨
    getPayloadMeta (MetaReq.ofBytes host request.data).payloadId ≠ none ∧
      (response = none ∧ uses = [.give .request] ∨ response ≠ none ∧
        uses = [.give .request, .take .response]) := by
  simp only [setupUses] at h
  change (match getPayloadMeta (MetaReq.ofBytes host request.data).payloadId with
    | none => _ | some size => _) = _ at h
  cases hmeta : getPayloadMeta (MetaReq.ofBytes host request.data).payloadId with
  | none =>
    rw [hmeta] at h
    obtain ⟨hfst, rfl⟩ := Prod.mk.inj (Except.ok.inj h)
    exact Or.inl ⟨rfl, (Prod.mk.inj hfst).2.symm, rfl⟩
  | some size =>
    rw [hmeta] at h
    refine Or.inr ⟨by simp, ?_⟩
    cases hsize :
        computeTransferSize { copyRequest host ctx dst request with payloadSize := size } with
    | error f =>
      simp only [hsize] at h
      cases h
    | ok n =>
      simp only [hsize] at h
      cases buffer with
      | false =>
        cases h
        exact Or.inl ⟨rfl, rfl⟩
      | true =>
        cases h
        exact Or.inr ⟨by simp, rfl⟩

/-- What an iteration that ends can have done with its packets. -/
theorem serverIteration_cases {E : ErrorTest} {host : ByteOrder} {ctx ctx' : ServerTransferCtx}
    {it : Iteration} {uses : List (Use PacketId)}
    (h : serverIteration E host ctx it = .ok (some (ctx', uses))) :
    (∀ request, it.accept → it.read ≠ some request) ∧ uses = [] ∨
    ∃ request, it.accept ∧ it.read = some request ∧
      (it.getPayloadMeta (MetaReq.ofBytes host request.data).payloadId = none ∧
        uses = [.take .request] ∨
      it.getPayloadMeta (MetaReq.ofBytes host request.data).payloadId ≠ none ∧
        (serveRequest E host it.getPayloadMeta it.buffer ctx it.src request it.now = .ok none ∧
            uses = [.take .request, .give .request] ∨
          ∃ s, serveRequest E host it.getPayloadMeta it.buffer ctx it.src request it.now =
            .ok (some s) ∧ s.log = [] ∧
            uses = .take .request :: .give .request :: .take .response :: .give .response ::
              packetUses 0 (run SendState.turn s it.turns).log)) := by
  simp only [serverIteration] at h
  split_ifs at h with haccept
  · cases hread : it.read with
    | none =>
      simp only [hread] at h
      cases h
      exact Or.inl ⟨by simp, rfl⟩
    | some request =>
      refine Or.inr ⟨request, haccept, rfl, ?_⟩
      simp only [hread] at h
      have hserve := setupUses_fst host it.getPayloadMeta it.buffer ctx it.src request
      cases hsetup : setupUses host it.getPayloadMeta it.buffer ctx it.src request with
      | error f =>
        rw [hsetup] at h
        cases h
      | ok r =>
        obtain ⟨⟨ctx₁, response⟩, setup⟩ := r
        rw [hsetup] at h hserve
        have hserve' : serveRequest E host it.getPayloadMeta it.buffer ctx it.src request it.now =
            .ok (response.map fun _ =>
                startSendingData E { ctx₁ with keepRunning := true } it.now) := by
          rw [serveRequest, ← hserve]
          rfl
        have hlog : (startSendingData E { ctx₁ with keepRunning := true } it.now).log = [] := by
          simp only [startSendingData]
          split <;> rfl
        rw [hserve']
        rcases setupUses_cases hsetup with ⟨hmeta, rfl, rfl⟩ | ⟨hmeta,
          ⟨rfl, rfl⟩ | ⟨hresponse, rfl⟩⟩
        · cases h
          exact Or.inl ⟨hmeta, rfl⟩
        · cases h
          exact Or.inr ⟨hmeta, Or.inl ⟨rfl, rfl⟩⟩
        · obtain ⟨resp, rfl⟩ := Option.ne_none_iff_exists'.mp hresponse
          refine Or.inr ⟨hmeta, Or.inr ⟨_, rfl, hlog, ?_⟩⟩
          change (match (run SendState.turn
              (startSendingData E { ctx₁ with keepRunning := true } it.now) it.turns).pc with
            | .finished => _ | .fault f => _ | _ => _) = _ at h
          split at h
          · cases h
            rfl
          · cases h
          · cases h
  · cases h
    exact Or.inl ⟨fun request haccept' => absurd haccept' haccept, rfl⟩

/-- An iteration gives back every packet it has obtained, each exactly once, if and only if it is
lossless. -/
theorem allReturned_iteration_iff {E : ErrorTest} {host : ByteOrder} {ctx ctx' : ServerTransferCtx}
    {it : Iteration} {uses : List (Use PacketId)}
    (h : serverIteration E host ctx it = .ok (some (ctx', uses))) :
    AllReturned uses ↔ it.Lossless E host ctx := by
  rcases serverIteration_cases h with ⟨hnone, rfl⟩ | ⟨request, haccept, hread,
    ⟨hmeta, rfl⟩ | ⟨hmeta, hcases⟩⟩
  · exact iff_of_true rfl fun request haccept hread => absurd hread (hnone request haccept)
  · refine iff_of_false (by decide) fun hlossless => (hlossless request haccept hread).1 hmeta
  · have hlossless : it.Lossless E host ctx ↔
        ∀ s, serveRequest E host it.getPayloadMeta it.buffer ctx it.src request it.now =
          .ok (some s) →
          Along SendState.turn (fun s e => ¬ s.ReadsNothing e) s it.turns := by
      constructor
      · exact fun hlossless => (hlossless request haccept hread).2
      · intro hreads request' _ hread'
        obtain rfl := Option.some.inj (hread.symm.trans hread')
        exact ⟨hmeta, hreads⟩
    rw [hlossless]
    rcases hcases with ⟨hserve, rfl⟩ | ⟨s, hserve, hlog, rfl⟩
    · apply iff_of_true (allReturned_pair _)
      intro s hs
      rw [hserve] at hs
      cases hs
    · have hstart : s.Keeps [] := ⟨by rw [hlog]; rfl, by simp⟩
      obtain ⟨held, hheld, hiff⟩ := SendState.settle_run hstart it.turns
      have hsettle :
        settle [] (.take .request :: .give .request :: .take .response :: .give .response ::
          packetUses 0 (run SendState.turn s it.turns).log) = some held := hheld.settle
      rw [AllReturned, hsettle, Option.some.injEq, hiff]
      constructor
      · rintro ⟨-, halong⟩ s' hs'
        rw [hserve] at hs'
        cases hs'
        exact halong
      · exact fun halong => ⟨rfl, halong s hserve⟩

/-- In every run of `dtp_server_run`, every packet of every request is given back exactly once if
and only if no `get_payload_meta` has failed for a request, and no `read` has returned `0`. -/
theorem packets_returned_iff (E : ErrorTest) (host : ByteOrder) {ctx : ServerTransferCtx}
    {its : List Iteration} {log : List (List (Use PacketId))} (h : ServerRun E host ctx its log) :
    (∀ uses ∈ log, AllReturned uses) ↔ LosslessRun E host ctx its := by
  induction h with
  | exit ctx => simp [LosslessRun]
  | @next ctx ctx' it its uses log hit _ ih =>
    rw [List.forall_mem_cons, allReturned_iteration_iff hit, ih, LosslessRun]
    refine and_congr_right fun _ =>
      ⟨fun hrest ctx'' uses' hit' => ?_, fun hall => hall ctx' uses hit⟩
    rw [hit] at hit'
    cases hit'
    exact hrest

/-- The bytes of a request for the first packet of a payload, in chunks of four. -/
def firstPacket : List UInt8 :=
  [0xE8, 3, 0, 0, 1, 0, 0, 0, 1, 0, 0, 0, 12, 0, 0, 0] ++ List.replicate 64 0

/-- A request for it, at a server that has `size` bytes of payload, if any, and whose `read` returns
`count`. -/
def iterationOf (size : Option UInt32) (count : UInt32) (turns : List SendTurn) : Iteration where
  accept := true
  read := some ⟨4, firstPacket⟩
  src := 5
  getPayloadMeta _ := size
  buffer := true
  now := 0
  turns := .tick ⟨true, fun _ _ => ⟨count, [1, 2, 3, 4]⟩, 0⟩ :: .tick
    ⟨true, fun _ _ => ⟨count, [1, 2, 3, 4]⟩, 0⟩ :: turns

/-- The packet is sent, and nothing is left. -/
theorem packets_returned_one : ∃ ctx uses,
    serverIteration .exact .little (wholeTransfer 0)
        (iterationOf (some 4) 4 (List.replicate 2 (.tick ⟨true, fun _ _ => ⟨4, []⟩, 0⟩))) =
          .ok (some (ctx, uses)) ∧
      AllReturned uses ∧ uses.length = 6 := by
  obtain ⟨⟨ctx, uses⟩, hit, hlength⟩ := returned_of_any
    (x := serverIteration .exact .little (wholeTransfer 0)
      (iterationOf (some 4) 4 (List.replicate 2 (.tick ⟨true, fun _ _ => ⟨4, []⟩, 0⟩))))
    (P := fun r => r.2.length = 6) (by decide +kernel)
  have hreads :
    ∀ e ∈ (iterationOf (some 4) 4 (List.replicate 2 (.tick ⟨true, fun _ _ => ⟨4, []⟩, 0⟩))).turns,
      ∀ s : SendState, ¬ s.ReadsNothing e := by
    intro e he s hread
    simp only [iterationOf, List.mem_cons, List.mem_replicate] at he
    rcases he with rfl | rfl | ⟨-, rfl⟩
    · obtain ⟨i, c, -, -, -, -, hcount⟩ := hread
      cases hcount
    · obtain ⟨i, c, -, -, -, -, hcount⟩ := hread
      cases hcount
    · obtain ⟨i, c, -, -, -, -, hcount⟩ := hread
      cases hcount
  have hrun : ServerRun .exact .little (wholeTransfer 0)
      [iterationOf (some 4) 4 (List.replicate 2 (.tick ⟨true, fun _ _ => ⟨4, []⟩, 0⟩))] [uses] :=
        .next hit (.exit ctx)
  refine ⟨ctx, uses, hit, (packets_returned_iff .exact .little hrun).mpr
    ⟨?_, fun _ _ _ => trivial⟩ uses
    (List.mem_singleton_self _), hlength⟩
  exact fun request _ _ => ⟨by simp [iterationOf], fun s _ => along_of_forall hreads⟩

/-- There is no such payload: the request is not freed. The payload cannot be read, until the
transfer is stopped: the data packet is neither sent nor freed. -/
theorem packets_lost :
    (ServerRun .exact .little (wholeTransfer 0) [iterationOf none 4 []] [[.take .request]] ∧
      ¬ ∀ uses ∈ ([[.take .request]] : List (List (Use PacketId))), AllReturned uses) ∧
    ∃ uses, ServerRun .exact .little (wholeTransfer 0)
        [iterationOf (some 4) 0 [.other ⟨4, 5, 0, false, oneInterval 12 ⟨0, 0⟩, 4, 0⟩,
          .tick ⟨false, fun _ _ => ⟨0, []⟩, 0⟩, .tick ⟨false, fun _ _ => ⟨0, []⟩, 0⟩]] [uses] ∧
      uses = [.take .request, .give .request, .take .response, .give .response, .take (.data 0)] ∧
      ¬ ∀ uses' ∈ [uses], AllReturned uses' := by
  constructor
  · obtain ⟨⟨ctx, uses⟩, hit, huses⟩ := returned_of_any
      (x := serverIteration .exact .little (wholeTransfer 0) (iterationOf none 4 []))
      (P := fun r => r.2 = [.take .request]) (by decide +kernel)
    obtain rfl : uses = [.take .request] := huses
    refine ⟨.next hit (.exit ctx), fun hall => ?_⟩
    exact absurd (hall _ (List.mem_singleton_self _)) (by decide)
  · obtain ⟨⟨ctx, uses⟩, hit, huses⟩ := returned_of_any
      (x := serverIteration .exact .little (wholeTransfer 0)
        (iterationOf (some 4) 0 [.other ⟨4, 5, 0, false, oneInterval 12 ⟨0, 0⟩, 4, 0⟩,
          .tick ⟨false, fun _ _ => ⟨0, []⟩, 0⟩, .tick ⟨false, fun _ _ => ⟨0, []⟩, 0⟩]))
      (P := fun r =>
        r.2 = [.take .request, .give .request, .take .response, .give .response, .take (.data 0)])
      (by decide +kernel)
    change uses = _ at huses
    refine ⟨uses, .next hit (.exit ctx), huses, fun hall => ?_⟩
    have hreturned := hall _ (List.mem_singleton_self _)
    rw [huses] at hreturned
    exact absurd hreturned (by decide)

end LibDtp
