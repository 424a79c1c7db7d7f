import LibDtp.Foundation.Keyed
import Mathlib.Data.UInt
import Mathlib.Data.List.TakeDrop

/-!
# File payloads

`dtp_file_payload.c`: the files a server offers, under the ids that requests name them by.

## The model

The payloads are a linked list from `g_payload_list` on; here it is the list of its nodes, and a
pointer to a node is the node's place in it. The last node is `test_payload`, a static variable.

The file system and the heap come in from outside, as what `fopen`, `calloc` and `strdup` give. A
payload keeps the size its file had when it was added; what the file holds when it is read is
another matter, and an argument of `payloadRead`.

C leaves it undefined to `free` what was not allocated, and to open a file without a name. Both are
a `RegistryFault`. What is printed is left out.

## What is proved

* `getMeta_history` — over every history of additions and removals the registry is a map, from each
  id to the file it was last added with.
* `getMeta_of_failed_iff` — an addition that fails leaves the registry as it was only if its id was
  not there: the old file is given up before the new one is opened.
* `payloadRead_exact_iff` — when a read asks for the bytes that are left and no more: the clamp at
  the end of the file has its operands the wrong way round, and its sum is 32 bits wide.
-/

namespace LibDtp

/-- The functions a payload is read with. -/
inductive PayloadReader where
  /-- `test_memory_payload_read`. -/
  | testMemory
  /-- `payload_read`. -/
  | file
  deriving DecidableEq

/-- `payload_file_t`. -/
structure PayloadFile where
  /-- The id. -/
  id : UInt8
  /-- The name of its file; `strdup` may have failed to copy it. -/
  filename : Option String
  /-- Has the file been opened? -/
  file : Bool
  /-- The size of the file when it was added. -/
  size : UInt64
  /-- What it is read with. -/
  read : PayloadReader
  /-- Was it allocated? -/
  allocated : Bool
  deriving DecidableEq

/-- `test_payload`. -/
def testPayload : PayloadFile where
  id := 255
  filename := some ":mem:"
  file := false
  size := 67102980
  read := .testMemory
  allocated := false

/-- What C leaves undefined here. -/
inductive RegistryFault where
  /-- `free` of something that was not allocated. -/
  | badFree
  /-- `fopen` without a name. -/
  | noName
  deriving DecidableEq

/-- `payload_lookup`: the first node with an id. -/
def payloadLookup (reg : List PayloadFile) (id : UInt8) : Option ℕ :=
  reg.findIdx? fun p => p.id = id

/-- The node `payload_lookup` finds. -/
def payloadAt (reg : List PayloadFile) (id : UInt8) : Option PayloadFile :=
  (payloadLookup reg id).bind fun i => reg[i]?

/-- `dtp_file_payload_del`. -/
def dtpFilePayloadDel (reg : List PayloadFile) (id : UInt8) :
    Except RegistryFault (List PayloadFile) :=
  match payloadLookup reg id with
  | none => .ok reg
  | some i =>
    -- the node is unlinked, then its name and the node itself are freed
    if reg[i]?.any (·.allocated) then .ok (reg.eraseIdx i) else .error .badFree

/-- What the system answers to an addition. -/
structure AddEnv where
  /-- The files that can be opened, and what they hold. -/
  fopen : String → Option (List UInt8)
  /-- Does `calloc` succeed? -/
  calloc : Bool
  /-- Does `strdup` succeed? -/
  strdup : Bool

/-- `dtp_file_payload_add`: what it returns, and the list after it. -/
def dtpFilePayloadAdd (reg : List PayloadFile) (id : UInt8) (filename : Option String)
    (env : AddEnv) :
    Except RegistryFault (Option PayloadFile × List PayloadFile) := do
  let reg ← (if (payloadLookup reg id).isSome then dtpFilePayloadDel reg id else .ok reg)
  match filename with
  | none => return (none, reg)
  | some name =>
    match env.fopen name with
    | none => return (none, reg)
    | some content =>
      if env.calloc then
        let payload := {
          id := id
          filename := if env.strdup then some name else none
          file := false
          size := UInt64.ofNat content.length
          read := .file
          allocated := true }
        return (some payload, payload :: reg)
      else return (none, reg)

/-- The fields of `dtp_payload_meta_t` that are filled in. -/
structure PayloadMeta where
  /-- The size of the payload. -/
  size : UInt32
  /-- What it is read with. -/
  read : Option PayloadReader
  deriving DecidableEq

/-- `dtp_file_payload_get_meta`: what it returns, and what it fills in. -/
def dtpFilePayloadGetMeta (reg : List PayloadFile) (id : UInt8) : Bool × PayloadMeta :=
  match payloadAt reg id with
  | some payload => (true, ⟨payload.size.toUInt32, some payload.read⟩)
  | none => (false, ⟨0, none⟩)

/-- A call that changes the registry. -/
inductive RegistryCall where
  /-- `dtp_file_payload_add`. -/
  | add (id : UInt8) (filename : Option String) (env : AddEnv)
  /-- `dtp_file_payload_del`. -/
  | del (id : UInt8)

namespace RegistryCall

/-- The id a call is about. -/
def id : RegistryCall → UInt8
  | add id _ _ => id
  | del id => id

/-- The list after a call. -/
def apply (reg : List PayloadFile) : RegistryCall → Except RegistryFault (List PayloadFile)
  | add id filename env => (dtpFilePayloadAdd reg id filename env).map Prod.snd
  | del id => dtpFilePayloadDel reg id

/-- The list after some calls. -/
def applyAll (reg : List PayloadFile) (cs : List RegistryCall) :
    Except RegistryFault (List PayloadFile) :=
  cs.foldlM apply reg

end RegistryCall

/-- `payload_read`, the number of bytes it asks for. -/
def readSize (payload : PayloadFile) (offset size : UInt32) : UInt32 :=
  if payload.size < offset.toUInt64 then 0
  else if payload.size < (offset + size).toUInt64 then (offset.toUInt64 - payload.size).toUInt32
  else size

/-- What `payload_read` does. -/
structure PayloadRead where
  /-- The list after it. -/
  registry : List PayloadFile
  /-- The number of bytes `fread` is asked for. -/
  asked : UInt32
  /-- What is written to `output`. -/
  output : List UInt8
  /-- What is returned. -/
  res : UInt32

/-- `payload_read`. `fopen` says whether the file can be opened, if it is not open yet, and
`content` what it holds. -/
def payloadRead (reg : List PayloadFile) (id : UInt8) (offset size : UInt32) (fopen : Bool)
    (content : List UInt8) :
    Except RegistryFault PayloadRead :=
  match payloadLookup reg id, payloadAt reg id with
  | some i, some payload =>
    let size := readSize payload offset size
    if size > 0 then
      if payload.file = false ∧ payload.filename = none then .error .noName
      else
        let reg := reg.set i { payload with file := payload.file || fopen }
        if payload.file || fopen then
          let bytes := (content.drop offset.toNat).take size.toNat
          .ok ⟨reg, size, bytes, UInt32.ofNat bytes.length⟩
        else .ok ⟨reg, 0, [], 0⟩
    else .ok ⟨reg, 0, [], 0⟩
  | _, _ => .ok ⟨reg, 0, [], 0⟩

/-! ### The registry as a map -/

theorem payloadAt_eq_find (reg : List PayloadFile) (id : UInt8) :
    payloadAt reg id = Keyed.find PayloadFile.id reg id :=
  List.find?_eq_bind_findIdx?_getElem?.symm

theorem payloadLookup_eq_none_iff {reg : List PayloadFile} {id : UInt8} :
    payloadLookup reg id = none ↔ Keyed.find PayloadFile.id reg id = none := by
  simp [payloadLookup, Keyed.find]

/-- The answer for an id depends only on what the id stands for. -/
theorem getMeta_congr {reg reg' : List PayloadFile} {id : UInt8}
    (h : Keyed.find PayloadFile.id reg' id = Keyed.find PayloadFile.id reg id) :
    dtpFilePayloadGetMeta reg' id = dtpFilePayloadGetMeta reg id := by
  simp only [dtpFilePayloadGetMeta, payloadAt_eq_find, h]

theorem getMeta_fst_iff {reg : List PayloadFile} {id : UInt8} :
    (dtpFilePayloadGetMeta reg id).1 = true ↔ Keyed.find PayloadFile.id reg id ≠ none := by
  rw [dtpFilePayloadGetMeta, payloadAt_eq_find]
  cases Keyed.find PayloadFile.id reg id <;> simp

/-- What holds of the list at any time. -/
structure ValidRegistry (reg : List PayloadFile) : Prop where
  /-- No two nodes share an id. -/
  distinct : Keyed.Distinct PayloadFile.id reg
  /-- `test_payload` is there. -/
  builtIn : Keyed.find PayloadFile.id reg 255 = some testPayload
  /-- Every other node has been allocated. -/
  allocated : ∀ id p, id ≠ 255 → Keyed.find PayloadFile.id reg id = some p → p.allocated = true

theorem validRegistry_initial : ValidRegistry [testPayload] where
  distinct := List.nodup_singleton _
  builtIn := rfl
  allocated id p hid hp := by
    have hnone : Keyed.find PayloadFile.id [testPayload] id = none := by
      rw [Keyed.find_eq_none_iff]
      intro q hq
      rw [List.mem_singleton.mp hq]
      exact Ne.symm hid
    rw [hnone] at hp
    cases hp

namespace ValidRegistry

variable {reg reg' : List PayloadFile} {id : UInt8}

/-- The list stays valid over an update of an id other than the built-in one. -/
theorem of_update {payload : Option PayloadFile} (h : ValidRegistry reg) (hid : id ≠ 255)
    (hdistinct : Keyed.Distinct PayloadFile.id reg')
    (hpayload : ∀ p, payload = some p → p.allocated = true)
    (hfind : Keyed.find PayloadFile.id reg' = Function.update
      (Keyed.find PayloadFile.id reg) id payload) :
    ValidRegistry reg' := by
  refine ⟨hdistinct, ?_, fun id' p hid' hp => ?_⟩
  · rw [hfind, Function.update_of_ne (Ne.symm hid), h.builtIn]
  · rw [hfind] at hp
    by_cases hid'' : id' = id
    · subst hid''
      rw [Function.update_self] at hp
      exact hpayload p hp
    · rw [Function.update_of_ne hid''] at hp
      exact h.allocated id' p hid' hp

/-- `dtp_file_payload_del` of any other id unlinks its node, if there is one. -/
theorem dtpFilePayloadDel_eq (h : ValidRegistry reg) (hid : id ≠ 255) :
    dtpFilePayloadDel reg id = .ok (Keyed.remove PayloadFile.id reg id) := by
  have hremove : Keyed.remove PayloadFile.id reg id = match payloadLookup reg id with
      | none => reg
      | some i => reg.eraseIdx i := List.eraseP_eq_eraseIdx
  rw [dtpFilePayloadDel, hremove]
  cases hi : payloadLookup reg id with
  | none => rfl
  | some i =>
    have hat : Keyed.find PayloadFile.id reg id = reg[i]? := by
      rw [← payloadAt_eq_find, payloadAt, hi]
      rfl
    have hlt : i < reg.length := (List.findIdx?_eq_some_iff_getElem.mp hi).1
    have hsome : reg[i]? = some reg[i] := List.getElem?_eq_getElem hlt
    have halloc : reg[i].allocated = true := h.allocated id reg[i] hid (hat.trans hsome)
    simp [hsome, halloc]

/-- The built-in payload cannot be freed. -/
theorem dtpFilePayloadDel_builtIn (h : ValidRegistry reg) :
    dtpFilePayloadDel reg 255 = .error .badFree := by
  have hat := h.builtIn
  rw [← payloadAt_eq_find, payloadAt] at hat
  rw [dtpFilePayloadDel]
  cases hi : payloadLookup reg 255 with
  | none =>
    rw [hi] at hat
    cases hat
  | some i =>
    rw [hi] at hat
    have hsome : reg[i]? = some testPayload := hat
    simp [hsome, testPayload]

end ValidRegistry

/-- The node an addition makes, if it succeeds. -/
def addedPayload (id : UInt8) (filename : Option String) (env : AddEnv) : Option PayloadFile :=
  filename.bind fun name => (env.fopen name).bind fun content =>
    if env.calloc then some {
      id := id
      filename := if env.strdup then some name else none
      file := false
      size := UInt64.ofNat content.length
      read := .file
      allocated := true } else none

theorem addedPayload_spec {id : UInt8} {filename : Option String} {env : AddEnv} {p : PayloadFile}
    (h : addedPayload id filename env = some p) :
    p.id = id ∧ p.allocated = true ∧
      ∃ name content, filename = some name ∧ env.fopen name = some content ∧
        p.size = UInt64.ofNat content.length := by
  obtain ⟨name, rfl, hname⟩ := Option.bind_eq_some_iff.mp h
  obtain ⟨content, hcontent, hp⟩ := Option.bind_eq_some_iff.mp hname
  by_cases hcalloc : env.calloc = true
  · rw [if_pos hcalloc] at hp
    cases hp
    exact ⟨rfl, rfl, name, content, rfl, hcontent, rfl⟩
  · rw [if_neg hcalloc] at hp
    cases hp

namespace ValidRegistry

variable {reg reg' : List PayloadFile} {id : UInt8}

/-- What `dtp_file_payload_add` does with any other id: the old node is gone in any case. -/
theorem dtpFilePayloadAdd_eq (h : ValidRegistry reg) (hid : id ≠ 255) (filename : Option String)
    (env : AddEnv) :
    dtpFilePayloadAdd reg id filename env = .ok (addedPayload id filename env,
      (addedPayload id filename env).toList ++ Keyed.remove PayloadFile.id reg id) := by
  have hdel : (if (payloadLookup reg id).isSome then dtpFilePayloadDel reg id else .ok reg) =
      .ok (Keyed.remove PayloadFile.id reg id) := by
    split_ifs with hsome
    · exact h.dtpFilePayloadDel_eq hid
    · have hnone : Keyed.find PayloadFile.id reg id = none :=
        payloadLookup_eq_none_iff.mp (Option.not_isSome_iff_eq_none.mp hsome)
      have hsame : Keyed.remove PayloadFile.id reg id = reg :=
        List.eraseP_of_forall_not fun p hp => by simpa using Keyed.find_eq_none_iff.mp hnone p hp
      rw [hsame]
  rw [dtpFilePayloadAdd, hdel]
  simp only [bind, Except.bind, addedPayload]
  cases filename with
  | none => rfl
  | some name =>
    cases hopen : env.fopen name with
    | none => simp [hopen, pure, Except.pure]
    | some content =>
      by_cases hcalloc : env.calloc = true <;> simp [hopen, hcalloc, pure, Except.pure]

theorem dtpFilePayloadAdd_builtIn (h : ValidRegistry reg) (filename : Option String)
    (env : AddEnv) :
    dtpFilePayloadAdd reg 255 filename env = .error .badFree := by
  have hsome : (payloadLookup reg 255).isSome = true := by
    rw [Option.isSome_iff_ne_none, ne_eq, payloadLookup_eq_none_iff, h.builtIn]
    simp
  rw [dtpFilePayloadAdd, if_pos hsome, h.dtpFilePayloadDel_builtIn]
  rfl

end ValidRegistry

/-- What a call makes its id stand for. -/
def RegistryCall.payload : RegistryCall → Option PayloadFile
  | add id filename env => addedPayload id filename env
  | del _ => none

namespace ValidRegistry

variable {reg reg' : List PayloadFile} {id : UInt8}

/-- A call about any other id is an update of the map. -/
theorem apply_eq (h : ValidRegistry reg) {c : RegistryCall} (hid : c.id ≠ 255) :
    ∃ reg', c.apply reg = .ok reg' ∧ ValidRegistry reg' ∧
      Keyed.find PayloadFile.id reg' =
        Function.update (Keyed.find PayloadFile.id reg) c.id c.payload := by
  cases c with
  | add id filename env =>
    change id ≠ 255 at hid
    simp only [RegistryCall.apply, RegistryCall.payload, h.dtpFilePayloadAdd_eq hid]
    cases hadded : addedPayload id filename env with
    | none =>
      have hfind := h.distinct.find_remove id
      exact ⟨_, rfl, h.of_update hid (h.distinct.remove id)
        (fun p hp => absurd hp (by simp)) hfind, hfind⟩
    | some p =>
      obtain ⟨rfl, halloc, -⟩ := addedPayload_spec hadded
      have hfind := h.distinct.find_insert p
      refine ⟨_, rfl, h.of_update hid (h.distinct.insert p) (fun q hq => ?_) hfind, hfind⟩
      rw [← Option.some.inj hq]
      exact halloc
  | del id =>
    have hfind := h.distinct.find_remove id
    exact ⟨_, h.dtpFilePayloadDel_eq hid, h.of_update hid (h.distinct.remove id)
      (fun p hp => absurd hp (by simp)) hfind, hfind⟩

/-- A call about the built-in id is a fault. -/
theorem apply_builtIn (h : ValidRegistry reg) {c : RegistryCall} (hid : c.id = 255) :
    c.apply reg = .error .badFree := by
  cases c with
  | add id filename env =>
    obtain rfl : id = 255 := hid
    rw [RegistryCall.apply, h.dtpFilePayloadAdd_builtIn]
    rfl
  | del id =>
    obtain rfl : id = 255 := hid
    exact h.dtpFilePayloadDel_builtIn

/-- Some calls about other ids are as many updates of the map. -/
theorem applyAll_eq (h : ValidRegistry reg) {cs : List RegistryCall} (hids : ∀ c ∈ cs, c.id ≠ 255) :
    ∃ reg', RegistryCall.applyAll reg cs = .ok reg' ∧ ValidRegistry reg' ∧
      Keyed.find PayloadFile.id reg' =
      Keyed.replay (Keyed.find PayloadFile.id reg) (cs.map fun c => (c.id, c.payload)) := by
  induction cs generalizing reg with
  | nil => exact ⟨reg, rfl, h, rfl⟩
  | cons c cs ih =>
    obtain ⟨reg₁, h₁, hvalid, hfind⟩ := h.apply_eq (hids c (List.mem_cons_self ..))
    obtain ⟨reg₂, h₂, hvalid₂, hfind₂⟩ :=
      ih hvalid fun c' hc' => hids c' (List.mem_cons_of_mem c hc')
    refine ⟨reg₂, ?_, hvalid₂, ?_⟩
    · rw [RegistryCall.applyAll, List.foldlM_cons, h₁]
      exact h₂
    · rw [hfind₂, hfind]
      rfl

/-- What is reached without a fault is valid. -/
theorem applyAll_valid (h : ValidRegistry reg) {cs : List RegistryCall}
    (hcs : RegistryCall.applyAll reg cs = .ok reg') :
    ValidRegistry reg' := by
  induction cs generalizing reg with
  | nil =>
    cases hcs
    exact h
  | cons c cs ih =>
    rw [RegistryCall.applyAll, List.foldlM_cons] at hcs
    by_cases hid : c.id = 255
    · rw [h.apply_builtIn hid] at hcs
      cases hcs
    · obtain ⟨reg₁, h₁, hvalid, -⟩ := h.apply_eq hid
      rw [h₁] at hcs
      exact ih hvalid hcs

end ValidRegistry

/-! ### Histories -/

/-- An addition returns a payload. -/
def RegistryCall.Succeeds : RegistryCall → Prop
  | add _ filename env =>
    ∃ name content, filename = some name ∧ env.fopen name = some content ∧ env.calloc = true
  | del _ => True

/-- The file an addition is given has fewer than 2^32 bytes. -/
def RegistryCall.Small : RegistryCall → Prop
  | add _ filename env =>
    ∀ name content, filename = some name → env.fopen name = some content → content.length < 2 ^ 32
  | del _ => True

/-- The latest call about an id. -/
def RegistryCall.latest (cs : List RegistryCall) (id : UInt8) : Option RegistryCall :=
  cs.reverse.find? fun c => c.id = id

theorem addedPayload_ne_none_iff {id : UInt8} {filename : Option String} {env : AddEnv} :
    addedPayload id filename env ≠ none ↔ (RegistryCall.add id filename env).Succeeds := by
  constructor
  · intro h
    obtain ⟨p, hp⟩ := Option.ne_none_iff_exists'.mp h
    obtain ⟨name, rfl, hname⟩ := Option.bind_eq_some_iff.mp hp
    obtain ⟨content, hcontent, hcalloc⟩ := Option.bind_eq_some_iff.mp hname
    refine ⟨name, content, rfl, hcontent, ?_⟩
    by_contra hno
    rw [if_neg hno] at hcalloc
    cases hcalloc
  · rintro ⟨name, content, rfl, hcontent, hcalloc⟩
    simp [addedPayload, hcontent, hcalloc]

/-- What an id stands for after a history. -/
theorem find_history {cs : List RegistryCall} {reg : List PayloadFile} {id : UInt8} (hid : id ≠ 255)
    (hfind : Keyed.find PayloadFile.id reg =
      Keyed.replay (Keyed.find PayloadFile.id [testPayload]) (cs.map fun c => (c.id, c.payload))) :
    Keyed.find PayloadFile.id reg id = (RegistryCall.latest cs id).bind RegistryCall.payload := by
  have hinitial : Keyed.find PayloadFile.id [testPayload] id = none := by
    rw [Keyed.find_eq_none_iff]
    intro p hp
    rw [List.mem_singleton.mp hp]
    exact Ne.symm hid
  rw [hfind, Keyed.replay_apply, hinitial, ← List.map_reverse, List.find?_map, RegistryCall.latest]
  change ((Option.map _ (List.find? (fun c => decide (c.id = id)) cs.reverse)).map Prod.snd).getD
    none = _
  cases List.find? (fun c => decide (c.id = id)) cs.reverse <;> rfl

/-- **The registry is a map.** Over every history of successful additions and of removals, of any
ids but the built-in one and with files below 2^32 bytes, no two nodes share an id, and an id is
known exactly if the latest call about it was an addition, with the size of the file that call was
given; the built-in payload stays what it is. -/
theorem getMeta_history {cs : List RegistryCall} (hids : ∀ c ∈ cs, c.id ≠ 255)
    (hok : ∀ c ∈ cs, c.Succeeds) (hsmall : ∀ c ∈ cs, c.Small) :
    ∃ reg, RegistryCall.applyAll [testPayload] cs = .ok reg ∧ (reg.map PayloadFile.id).Nodup ∧
      (∀ id, id ≠ 255 → ((dtpFilePayloadGetMeta reg id).1 = true ↔
        ∃ filename env, RegistryCall.latest cs id = some (.add id filename env))) ∧
      (∀ id name env content, id ≠ 255 →
        RegistryCall.latest cs id = some (.add id (some name) env) →
        env.fopen name = some content →
          (dtpFilePayloadGetMeta reg id).2.size.toNat = content.length) ∧
      payloadAt reg 255 = some testPayload := by
  obtain ⟨reg, hreg, hvalid, hfind⟩ := validRegistry_initial.applyAll_eq hids
  have hmem : ∀ {id c}, RegistryCall.latest cs id = some c → c ∈ cs ∧ c.id = id := by
    intro id c h
    exact ⟨List.mem_reverse.mp (List.mem_of_find?_eq_some h), by simpa using List.find?_some h⟩
  refine ⟨reg, hreg, hvalid.distinct, fun id hid => ?_,
    fun id name env content hid hlatest hopen => ?_, ?_⟩
  · rw [getMeta_fst_iff, find_history hid hfind]
    cases hlatest : RegistryCall.latest cs id with
    | none => simp
    | some c =>
      obtain ⟨hc, hcid⟩ := hmem hlatest
      cases c with
      | add id' filename env =>
        obtain rfl : id' = id := hcid
        refine iff_of_true ?_ ⟨filename, env, rfl⟩
        exact addedPayload_ne_none_iff.mpr (hok _ hc)
      | del id' => simp [RegistryCall.payload]
  · obtain ⟨hc, -⟩ := hmem hlatest
    obtain ⟨p, hp⟩ := Option.ne_none_iff_exists'.mp (addedPayload_ne_none_iff.mpr (hok _ hc))
    obtain ⟨-, -, name', content', hname, hopen', hsize⟩ := addedPayload_spec hp
    obtain rfl : name = name' := Option.some.inj hname
    obtain rfl : content = content' := Option.some.inj (hopen.symm.trans hopen')
    have hat : payloadAt reg id = some p := by
      rw [payloadAt_eq_find, find_history hid hfind, hlatest]
      exact hp
    have hlt : content.length < 2 ^ 32 := hsmall _ hc name content rfl hopen
    rw [dtpFilePayloadGetMeta, hat]
    simp only [hsize, UInt64.toNat_toUInt32, UInt64.toNat_ofNat']
    omega
  · rw [payloadAt_eq_find, hvalid.builtIn]

/-- A system with one small file. -/
def oneFile : AddEnv where
  fopen name := if name = "data" then some [1, 2, 3] else none
  calloc := true
  strdup := true

theorem getMeta_history_replaced :
    RegistryCall.latest
      [.add 1 (some "data") oneFile, .del 1, .add 1 (some "data") oneFile] 1 =
        some (.add 1 (some "data") oneFile) ∧
    ∃ reg, RegistryCall.applyAll [testPayload]
      [.add 1 (some "data") oneFile, .del 1, .add 1 (some "data") oneFile] = .ok reg ∧
      (dtpFilePayloadGetMeta reg 1).2.size.toNat = 3 := by
  have hadd : (RegistryCall.add 1 (some "data") oneFile).Succeeds ∧
      (RegistryCall.add 1 (some "data") oneFile).Small := by
    refine ⟨⟨"data", [1, 2, 3], rfl, rfl, rfl⟩, fun name content hname hopen => ?_⟩
    obtain rfl := Option.some.inj hname
    obtain rfl := Option.some.inj hopen
    decide
  obtain ⟨reg, hreg, -, -, hsize, -⟩ := @getMeta_history
    [.add 1 (some "data") oneFile, .del 1, .add 1 (some "data") oneFile]
    (by simp [RegistryCall.id])
    (by simp only [List.forall_mem_cons]; exact ⟨hadd.1, trivial, hadd.1, by simp⟩)
    (by simp only [List.forall_mem_cons]; exact ⟨hadd.2, trivial, hadd.2, by simp⟩)
  exact ⟨rfl, reg, hreg, hsize 1 "data" oneFile [1, 2, 3] (by decide) rfl rfl⟩

/-! ### Additions that fail -/

/-- An addition that returns nothing, of a file that cannot be opened or without the memory for it,
has removed what its id stood for. -/
theorem ValidRegistry.eq_remove_of_failed {reg reg' : List PayloadFile} (h : ValidRegistry reg)
    {id : UInt8} {name : String} {env : AddEnv}
    (hfail : dtpFilePayloadAdd reg id (some name) env = .ok (none, reg')) :
    reg' = Keyed.remove PayloadFile.id reg id := by
  by_cases hid : id = 255
  · subst hid
    rw [h.dtpFilePayloadAdd_builtIn] at hfail
    cases hfail
  · rw [h.dtpFilePayloadAdd_eq hid] at hfail
    obtain ⟨hnone, hreg⟩ := Prod.mk.inj (Except.ok.inj hfail)
    rw [← hreg, hnone]
    rfl

/-- **When a failed addition changes nothing.** In every state that can be reached: exactly if its
id was not there. -/
theorem getMeta_of_failed_iff {cs : List RegistryCall} {reg reg' : List PayloadFile} {id : UInt8}
    {name : String} {env : AddEnv} (hcs : RegistryCall.applyAll [testPayload] cs = .ok reg)
    (hfail : dtpFilePayloadAdd reg id (some name) env = .ok (none, reg')) :
    (∀ i, dtpFilePayloadGetMeta reg' i = dtpFilePayloadGetMeta reg i) ↔
      payloadLookup reg id = none := by
  have hvalid := validRegistry_initial.applyAll_valid hcs
  have hfind : Keyed.find PayloadFile.id reg' =
      Function.update (Keyed.find PayloadFile.id reg) id none := by
    rw [hvalid.eq_remove_of_failed hfail, hvalid.distinct.find_remove]
  rw [payloadLookup_eq_none_iff]
  constructor
  · intro h
    by_contra hsome
    have hfound := getMeta_fst_iff.mpr hsome
    rw [← h id, getMeta_fst_iff, hfind, Function.update_self] at hfound
    exact hfound rfl
  · intro hnone i
    have hsame : Keyed.find PayloadFile.id reg' = Keyed.find PayloadFile.id reg := by
      rw [hfind, ← hnone, Function.update_eq_self]
    exact getMeta_congr (congrFun hsame i)

theorem getMeta_of_failed_missing : ∃ reg reg',
    RegistryCall.applyAll [testPayload] [.add 1 (some "data") oneFile] = .ok reg ∧
    dtpFilePayloadAdd reg 2 (some "missing") oneFile = .ok (none, reg') ∧
    ∀ i, dtpFilePayloadGetMeta reg' i = dtpFilePayloadGetMeta reg i := by
  have hcs : RegistryCall.applyAll [testPayload] [.add 1 (some "data") oneFile] =
      .ok [⟨1, some "data", false, 3, .file, true⟩, testPayload] := by decide +kernel
  have hfail : dtpFilePayloadAdd [⟨1, some "data", false, 3, .file, true⟩, testPayload] 2
      (some "missing") oneFile =
        .ok (none, [⟨1, some "data", false, 3, .file, true⟩, testPayload]) := by decide +kernel
  exact ⟨_, _, hcs, hfail, (getMeta_of_failed_iff hcs hfail).mpr (by decide)⟩

/-- A file is added, and then one that does not exist under the same id: the first one is gone. -/
theorem getMeta_of_failed_lost :
    ¬ ∀ (cs : List RegistryCall) (reg reg' : List PayloadFile) (id : UInt8) (name : String)
      (env : AddEnv), RegistryCall.applyAll [testPayload] cs = .ok reg →
        dtpFilePayloadAdd reg id (some name) env = .ok (none, reg') →
        ∀ i, dtpFilePayloadGetMeta reg' i = dtpFilePayloadGetMeta reg i := by
  intro h
  have hlost := h [.add 1 (some "data") oneFile]
    [⟨1, some "data", false, 3, .file, true⟩, testPayload] [testPayload] 1 "missing" oneFile
    (by decide +kernel) (by decide +kernel) 1
  revert hlost
  decide

/-! ### Reading -/

/-- The bytes of a payload of `recorded` bytes that a read is after. -/
def bytesLeft (recorded : UInt64) (offset size : UInt32) : ℕ :=
  if recorded.toNat < offset.toNat then 0 else min size.toNat (recorded.toNat - offset.toNat)

/-- A read stays within the recorded size and the buffer. -/
structure PayloadRead.Exact (r : PayloadRead) (recorded : UInt64) (offset size : UInt32) :
    Prop where
  /-- It asks for what is left, and not more than the buffer holds. -/
  asked : r.asked.toNat = bytesLeft recorded offset size
  /-- The buffer holds what is written. -/
  output : r.output.length ≤ size.toNat
  /-- No more is reported. -/
  res : r.res.toNat ≤ size.toNat

/-- When the clamp is right. Otherwise the difference is taken the wrong way round. -/
theorem toNat_readSize_iff (payload : PayloadFile) (offset size : UInt32) :
    (readSize payload offset size).toNat = bytesLeft payload.size offset size ↔
      payload.size.toNat < offset.toNat ∨ offset.toNat + size.toNat ≤ payload.size.toNat ∨
        (offset.toNat + size.toNat < 2 ^ 32 ∧
          (payload.size.toNat = offset.toNat ∨ payload.size.toNat = offset.toNat + 2 ^ 31)) := by
  have ho := offset.toNat_lt
  have hs := size.toNat_lt
  have hp := payload.size.toNat_lt
  simp only [readSize, bytesLeft, UInt64.lt_iff_toNat_lt, UInt32.toNat_toUInt64, UInt32.toNat_add]
  split_ifs with hbehind hend
  · exact iff_of_true rfl (.inl hbehind)
  · rw [UInt64.toNat_toUInt32, UInt64.toNat_sub, UInt32.toNat_toUInt64]
    omega
  · omega

/-- What a read that reaches the file does. -/
theorem payloadRead_eq {reg : List PayloadFile} {id : UInt8} {payload : PayloadFile}
    (hp : payloadAt reg id = some payload) (hopen : payload.file = true ∨ payload.filename ≠ none)
    (offset size : UInt32) (content : List UInt8) :
    ∃ reg', payloadRead reg id offset size true content = .ok ⟨reg', readSize payload offset size,
      (content.drop offset.toNat).take (readSize payload offset size).toNat,
      UInt32.ofNat
        ((content.drop offset.toNat).take (readSize payload offset size).toNat).length⟩ := by
  obtain ⟨i, hi, -⟩ := Option.bind_eq_some_iff.mp hp
  simp only [payloadRead, hi, hp]
  by_cases hsize : readSize payload offset size > 0
  · have hname : ¬ (payload.file = false ∧ payload.filename = none) := by
      rintro ⟨hclosed, hnone⟩
      rcases hopen with hfile | hsome
      · rw [hclosed] at hfile
        cases hfile
      · exact hsome hnone
    rw [if_pos hsize, if_neg hname, if_pos (Bool.or_true _)]
    exact ⟨_, rfl⟩
  · have hzero : readSize payload offset size = 0 := by
      rw [← UInt32.toNat_inj]
      rw [gt_iff_lt, UInt32.lt_iff_toNat_lt] at hsize
      simpa using hsize
    rw [if_neg hsize, hzero]
    exact ⟨reg, by simp⟩

/-- **When a read stays within the recorded size and the buffer.** For every file that can be
opened, whatever it holds by now: exactly if it starts behind the end, ends at or before it, or has
not wrapped and starts at the end (or 2^31 bytes before it, where the difference is its own
negative). -/
theorem payloadRead_exact_iff {reg : List PayloadFile} {id : UInt8} {payload : PayloadFile}
    (hp : payloadAt reg id = some payload) (hopen : payload.file = true ∨ payload.filename ≠ none)
    (offset size : UInt32) (content : List UInt8) :
    (∃ r, payloadRead reg id offset size true content = .ok r ∧ r.Exact payload.size offset size) ↔
      payload.size.toNat < offset.toNat ∨ offset.toNat + size.toNat ≤ payload.size.toNat ∨
        (offset.toNat + size.toNat < 2 ^ 32 ∧
          (payload.size.toNat = offset.toNat ∨ payload.size.toNat = offset.toNat + 2 ^ 31)) := by
  obtain ⟨reg', hread⟩ := payloadRead_eq hp hopen offset size content
  rw [← toNat_readSize_iff, hread]
  constructor
  · rintro ⟨r, hr, hexact⟩
    cases hr
    exact hexact.asked
  · intro hasked
    have hle : (readSize payload offset size).toNat ≤ size.toNat := by
      rw [hasked, bytesLeft]
      split_ifs
      · exact Nat.zero_le _
      · exact Nat.min_le_left _ _
    have hlen : ((content.drop offset.toNat).take (readSize payload offset size).toNat).length ≤
      size.toNat :=
      (List.length_take_le _ _).trans hle
    refine ⟨_, rfl, hasked, hlen, ?_⟩
    rw [UInt32.toNat_ofNat']
    exact (Nat.mod_le _ _).trans hlen

theorem payloadRead_exact_before_end : 2 + 1 ≤ 3 ∧
    ∃ r, payloadRead [⟨1, some "data", false, 3, .file, true⟩, testPayload] 1 2 1 true
      [1, 2, 3, 4, 5, 6] = .ok r ∧ r.Exact 3 2 1 :=
  ⟨by decide, (@payloadRead_exact_iff _ 1 ⟨1, some "data", false, 3, .file, true⟩
    (by decide +kernel) (.inr (by decide)) 2 1 [1, 2, 3, 4, 5, 6]).mpr (.inr (.inl (by decide)))⟩

/-- One of three bytes is left, there is room for two, and 2^32 - 1 are asked for: of a file that
has grown to six bytes, four are written. -/
theorem payloadRead_exact_overflow :
    ¬ ∀ (reg : List PayloadFile) (id : UInt8) (payload : PayloadFile) (offset size : UInt32)
      (content : List UInt8), payloadAt reg id = some payload → payload.read = .file →
        payload.filename ≠ none →
        ∃ r, payloadRead reg id offset size true content = .ok r ∧
          r.Exact payload.size offset size := by
  intro h
  obtain ⟨r, hr, hexact⟩ := h [⟨1, some "data", false, 3, .file, true⟩, testPayload] 1
    ⟨1, some "data", false, 3, .file, true⟩ 2 2 [1, 2, 3, 4, 5, 6] (by decide +kernel) rfl
    (by decide)
  have heq : payloadRead [⟨1, some "data", false, 3, .file, true⟩, testPayload] 1 2 2 true
      [1, 2, 3, 4, 5, 6] = .ok ⟨[⟨1, some "data", true, 3, .file, true⟩, testPayload], 0xFFFFFFFF,
        [3, 4, 5, 6], 4⟩ := rfl
  rw [heq] at hr
  cases hr
  exact absurd hexact.output (by decide)

/-- A file that has not grown hides it: no more is written than the buffer holds. -/
theorem length_output_le {reg : List PayloadFile} {id : UInt8} {payload : PayloadFile}
    (hp : payloadAt reg id = some payload) (hopen : payload.file = true ∨ payload.filename ≠ none)
    {offset size : UInt32} {content : List UInt8} (hcontent : content.length ≤ payload.size.toNat) :
    ∃ r, payloadRead reg id offset size true content = .ok r ∧ r.output.length ≤ size.toNat := by
  obtain ⟨reg', hread⟩ := payloadRead_eq hp hopen offset size content
  refine ⟨_, hread, ?_⟩
  have ho := offset.toNat_lt
  have hs := size.toNat_lt
  simp only [List.length_take, List.length_drop, readSize, UInt64.lt_iff_toNat_lt,
    UInt32.toNat_toUInt64, UInt32.toNat_add]
  split_ifs with hbehind hend
  · simp
  · omega
  · omega

end LibDtp
