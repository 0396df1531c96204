import VfuKvssd.Controller.KvRuns
import VfuKvssd.Foundations.KeyedLog

/-! # Keys are independent registers

The commands that name a key form a history of one register by themselves.
Other keys enter an answer in one place only: whether the namespace is full when
a new key comes in.
-/
namespace VfuKvssd
open Foundations Foundations.KeyedLog

/-- What the answer to a command on one key consists of: a status alone, a value taken from the
host, or bytes handed to it. -/
inductive KvVerdict
  | plain (status : Status)
  | take
  | give (bytes : List Byte)

/-- The answer to a command on a key, from what the key holds and whether the namespace is full. -/
def kvVerdict (op : KvOp) (ednek full : Bool) (cmd : NvmeKVCmd) :
    Option (Buffer 4096) → KvVerdict
  | some v =>
    match op with
    | .store =>
      if 4096 < cmd.hbs then .plain nvmeKvInvalidValSize
      else if cmd.dontStoreIfKeyExists then .plain nvmeKvKeyExists
      else .take
    | .retrieve => .give (v.bytes.take (min cmd.hbs 4096))
    | _ => .plain nvmeSuccess
  | none =>
    match op with
    | .store =>
      if 4096 < cmd.hbs then .plain nvmeKvInvalidValSize
      else if cmd.dontStoreIfKeyNotExists then .plain nvmeKvKeyNotExists
      else if full then .plain nvmeCapExceeded
      else .take
    | .delete => .plain (if ednek then nvmeKvKeyNotExists else nvmeSuccess)
    | _ => .plain nvmeKvKeyNotExists

/-- Status and data movement of such an answer. -/
def KvVerdict.Met (hbs : ℕ) : KvVerdict → KvIo → Status → Prop
  | .plain s, io, st => st = s ∧ io = .none
  | .take, io, st => st = nvmeSuccess ∧ ∃ bytes, bytes.length = hbs ∧ io = .received true bytes
  | .give bytes, io, st => ∃ ok, st = transferStatus ok ∧ io = .sent ok bytes

/-- A value received goes to the front of what the key holds; a Delete leaves nothing. -/
def kvPut (op : KvOp) (io : KvIo) (v : Option (Buffer 4096)) : Option (Buffer 4096) :=
  match op, io with
  | .store, .received true bytes => some ((v.getD fun _ => 0).copy 0 bytes)
  | .delete, _ => none
  | _, _ => v

namespace KvRecord

/-- The key that a command is about: a Store, Retrieve, Delete or Exist with a valid key length. -/
def key (r : KvRecord) : Option (List Byte) :=
  match kvOpOf r.sqe.opcode with
  | none | some .list => none
  | some _ =>
    if (NvmeKVCmd.ofSqe r.sqe).kl ≤ 16 then some (NvmeKVCmd.ofSqe r.sqe).keyBytes else none

/-- What a command leaves under its key. -/
def put (v : Option (Buffer 4096)) (r : KvRecord) : Option (Buffer 4096) :=
  match kvOpOf r.sqe.opcode with
  | none => v
  | some op => kvPut op r.io v

/-- The answer is the one that the key's own value calls for. -/
def Answers (full : Bool) (v : Option (Buffer 4096)) (r : KvRecord) : Prop :=
  ∀ op : KvOp, r.sqe.opcode = op.opcode →
    (kvVerdict op (r.ednek &&& 0x01 != 0) full (.ofSqe r.sqe) v).Met (NvmeKVCmd.ofSqe r.sqe).hbs
      r.io r.status

end KvRecord

/-- The values that the commands on each key leave there. -/
def keyRegisters (rs : List KvRecord) : KvMap := register KvRecord.key KvRecord.put none rs

/-! ## One command -/

section Spec
variable {cap : ℕ} {ednek : Bool} {m m' : KvMap} {cmd : NvmeKVCmd} {op : KvOp} {io : KvIo}
  {st : Status}

theorem KvSpec.frame (h : KvSpec cap ednek m cmd op io st m') {k : List Byte}
    (hk : op ≠ .list → cmd.kl ≤ 16 → cmd.keyBytes ≠ k) : m' k = m k := by
  cases h with
  | storeOverwrite hkl | storeInsert hkl | delete hkl =>
    exact Function.update_of_ne (hk (by decide) hkl).symm _ _
  | _ => rfl

theorem KvSpec.own (h : KvSpec cap ednek m cmd op io st m') (hk : cmd.kl ≤ 16) :
    m' cmd.keyBytes = kvPut op io (m cmd.keyBytes) := by
  cases h with
  | storeOverwrite _ _ hp => simp [kvPut, hp]
  | storeInsert _ _ hp => simp [kvPut, hp]
  | delete => simp [kvPut]
  | deleteAbsent _ hp => simp [kvPut, hp]
  | deleteKeySize hbig => exact absurd hbig (not_lt.mpr hk)
  | _ => rfl

/-- The answer to a command depends on its own key and on whether the map is full. -/
theorem KvSpec.met (h : KvSpec cap ednek m cmd op io st m') (hk : cmd.kl ≤ 16) (hl : op ≠ .list)
    {full : Bool} (hf : full = true ↔ cap ≤ m.card) :
    (kvVerdict op ednek full cmd (m cmd.keyBytes)).Met cmd.hbs io st := by
  cases h with
  | storeKeySize hbig | retrieveKeySize hbig | deleteKeySize hbig | existKeySize hbig =>
    exact absurd hbig (not_lt.mpr hk)
  | storeValSize _ hv =>
    cases m cmd.keyBytes <;> simp [kvVerdict, KvVerdict.Met, hv]
  | storeExists _ hv hp ho => simp [kvVerdict, KvVerdict.Met, hp, ho, not_lt.mpr hv]
  | storeOverwrite _ hv hp ho hlen => simp [kvVerdict, KvVerdict.Met, hp, ho, not_lt.mpr hv, hlen]
  | storeNotExists _ hv hp ho => simp [kvVerdict, KvVerdict.Met, hp, ho, not_lt.mpr hv]
  | storeFull _ hv hp ho hcap =>
    simp [kvVerdict, KvVerdict.Met, hp, ho, not_lt.mpr hv, hf.mpr hcap]
  | storeInsert _ hv hp ho hcap hlen =>
    have hroom : full = false := Bool.eq_false_iff.mpr fun h => absurd (hf.mp h) (not_le.mpr hcap)
    simp [kvVerdict, KvVerdict.Met, hp, ho, not_lt.mpr hv, hroom, hlen]
  | retrieve _ hp ok => simp [kvVerdict, KvVerdict.Met, hp]
  | retrieveAbsent _ hp => simp [kvVerdict, KvVerdict.Met, hp]
  | delete _ hp | exist _ hp => simp [kvVerdict, KvVerdict.Met, hp]
  | deleteAbsent _ hp | existAbsent _ hp => simp [kvVerdict, KvVerdict.Met, hp]
  | listKeySize | list => exact absurd rfl hl

end Spec

namespace KvRecord
variable {r : KvRecord} {k : List Byte}

theorem key_eq_some (h : r.key = some k) :
    ∃ op, kvOpOf r.sqe.opcode = some op ∧ op ≠ .list ∧ (NvmeKVCmd.ofSqe r.sqe).kl ≤ 16 ∧
      (NvmeKVCmd.ofSqe r.sqe).keyBytes = k := by
  rw [key] at h
  split at h
  · cases h
  · cases h
  · rename_i op hne ho
    split at h
    · exact ⟨op, ho, hne, ‹_›, Option.some.inj h⟩
    · cases h

theorem key_of {op : KvOp} (ho : kvOpOf r.sqe.opcode = some op) (hl : op ≠ .list)
    (hk : (NvmeKVCmd.ofSqe r.sqe).kl ≤ 16) : r.key = some (NvmeKVCmd.ofSqe r.sqe).keyBytes := by
  rw [key, ho]
  cases op <;> simp_all

theorem Step.apply {cap : ℕ} {m m' : KvMap} (h : r.Step cap m m') :
    m' k = if r.key = some k then r.put (m k) else m k := by
  split
  · rename_i hk
    obtain ⟨op, ho, -, hkl, rfl⟩ := key_eq_some hk
    rw [put, ho]
    cases h with
    | unsupported hnone => exact absurd (kvOpOf_eq ho) (hnone op)
    | kv ho' h =>
      obtain rfl := Option.some.inj (ho.symm.trans (kvOpOf_of_opcode ho'))
      exact h.own hkl
  · rename_i hk
    cases h with
    | unsupported => rfl
    | kv ho h => exact h.frame fun hl hkl he => hk (he ▸ key_of (kvOpOf_of_opcode ho) hl hkl)

theorem Step.answers {cap : ℕ} {m m' : KvMap} (h : r.Step cap m m') (hk : r.key = some k)
    {full : Bool} (hf : full = true ↔ cap ≤ m.card) : r.Answers full (m k) := by
  intro op ho
  obtain ⟨op', ho', hl, hkl, rfl⟩ := key_eq_some hk
  obtain rfl := Option.some.inj ((kvOpOf_of_opcode ho).symm.trans ho')
  cases h with
  | unsupported hnone => exact absurd ho (hnone op)
  | kv hop h =>
    obtain rfl := Option.some.inj (ho'.symm.trans (kvOpOf_of_opcode hop))
    exact h.met hkl hl hf

end KvRecord

/-! ## Histories -/

/-- Replaying all commands in order gives each key the value its own commands leave. -/
theorem KvRun.registers {cap : ℕ} {rs : List KvRecord} {m : KvMap} (h : KvRun cap rs m) :
    m = keyRegisters rs := by
  induction h with
  | nil => rfl
  | @snoc rs r m m' h hr ih =>
    funext k
    rw [hr.apply, ih]
    split
    · exact (register_snoc_self ‹_›).symm
    · exact (register_snoc_other ‹_›).symm

/-- Each command of a replay meets the map that the commands before it leave. -/
theorem KvRun.split {cap : ℕ} {rs pre post : List KvRecord} {r : KvRecord} {m : KvMap}
    (h : KvRun cap rs m) (hs : rs = pre ++ r :: post) :
    ∃ m', KvRun cap pre m' ∧ ∃ m'', r.Step cap m' m'' := by
  induction h generalizing post with
  | nil => simp at hs
  | @snoc rs' r' m' m'' h hr ih =>
    cases post using List.reverseRecOn with
    | nil =>
      obtain ⟨rfl, he⟩ := List.append_inj' hs rfl
      obtain rfl := List.singleton_inj.mp he
      exact ⟨m', h, m'', hr⟩
    | append_singleton post x =>
      rw [← List.cons_append, ← List.append_assoc] at hs
      exact ih (List.append_inj' hs rfl).1

theorem KvRun.answers {cap : ℕ} {rs pre post : List KvRecord} {r : KvRecord} {m : KvMap}
    (h : KvRun cap rs m) (hs : rs = pre ++ r :: post) {k : List Byte} (hk : r.key = some k)
    {full : Bool} (hf : full = true ↔ cap ≤ (keyRegisters pre).card) :
    r.Answers full (keyRegisters pre k) := by
  obtain ⟨m', hpre, m'', hr⟩ := h.split hs
  rw [← hpre.registers] at hf ⊢
  exact hr.answers hk hf

/-! ## Runs of the device -/

theorem Device.Initial.agrees_run {maxNumKeys : BitVec 32} {d₀ d : Device}
    (h₀ : Initial maxNumKeys d₀) (hr : Reaches step Provisioned d₀ d)
    (hin : ∀ bytes, .h2c false bytes ∉ d.n.world.trace) : KvAgrees maxNumKeys.toNat d.n := by
  have hrun : d.Ok ∧ ((∀ bytes, .h2c false bytes ∉ d.n.world.trace) →
      KvAgrees maxNumKeys.toNat d.n) := by
    apply hr.invariant (I := fun d => d.Ok ∧ ((∀ bytes, .h2c false bytes ∉ d.n.world.trace) →
      KvAgrees maxNumKeys.toNat d.n))
    · rintro s i t ⟨hok, h⟩ hp hs
      have hcase := step_cases hs
      refine ⟨hcase.ok hok, fun hin => hcase.agrees hok (h fun bytes hb => hin bytes ?_) hp hin⟩
      obtain ⟨es, htr⟩ := hcase.trace hok
      rw [htr]
      exact List.mem_append_left _ hb
    · exact ⟨h₀.ok, fun _ => h₀.agrees⟩
  exact hrun.2 hin

/-- In every run with successful allocations, a table within the range of `int` and no failed
transfer of a Store: each key holds what the commands on that key alone leave there, and every
Store, Retrieve, Delete and Exist is answered from the value of its own key, with the number of
keys held before it deciding only whether a new key is refused. -/
theorem Device.keys_are_registers {maxNumKeys : BitVec 32} {d₀ d : Device}
    (h₀ : Initial maxNumKeys d₀) (hr : Reaches step Provisioned d₀ d)
    (hin : ∀ bytes, .h2c false bytes ∉ d.n.world.trace) {rs : List KvRecord}
    (hrs : rs = (kvLog d.n.world.trace).records) :
    d.n.ns.contents = keyRegisters rs ∧
    ∀ pre r post k full, rs = pre ++ r :: post → r.key = some k →
      (full = true ↔ maxNumKeys.toNat ≤ (keyRegisters pre).card) →
      r.Answers full (keyRegisters pre k) := by
  have h := (h₀.agrees_run hr hin).run
  rw [← hrs] at h
  exact ⟨h.registers, fun pre r post k full hs hk hf => h.answers hs hk hf⟩

/-- Inputs that fail no allocation, run below the bound on the table. -/
theorem provisioned_of_bootRun {maxNumKeys : BitVec 32} {inputs : List Input}
    (hin : ∀ heap, .iterate heap ∈ inputs → ∀ s, heap s = true) {d : Device}
    (h : bootRun maxNumKeys (fun d _ => decide (d.n.ns.entriesAllocated < 2 ^ 31)) inputs = some d) :
    ∃ d₀, Device.Initial maxNumKeys d₀ ∧ Reaches Device.step Provisioned d₀ d :=
  reaches_of_bootRun (fun _ _ hi hsize =>
    ⟨fun heap he s => hin heap (he ▸ hi) s, of_decide_eq_true hsize⟩) h

/-- Stores of one value under two keys. -/
def otherKeyMemory : Memory :=
  memoryOf [(0, 5), (26, 2), (40, 1), (42, 15), (64, 1), (90, 3), (104, 1), (106, 15), (110, 1),
    (0x30000, 1), (0x30008, 0x62), (0x3001a, 4), (0x30028, 2), (0x3002c, 1),
    (0x30040, 1), (0x30048, 0x61), (0x3005a, 4), (0x30068, 2), (0x3006c, 1), (0x40000, 7),
    (0x40001, 9)]

def otherKeyInputs : List Input :=
  enableAdmin ++ [.hostMemory otherKeyMemory, sqTailWrite 0 2] ++ iterations 3 ++
    [sqTailWrite 1 2] ++ iterations 2

theorem storeInputs_allocate (heap : Heap) (h : .iterate heap ∈ storeInputs) (s : AllocSite) :
    heap s = true := by
  simp [storeInputs, enableAdmin, iterations, regWrite, sqTailWrite] at h
  rw [h]

theorem otherKeyInputs_allocate (heap : Heap) (h : .iterate heap ∈ otherKeyInputs) (s : AllocSite) :
    heap s = true := by
  simp [otherKeyInputs, enableAdmin, iterations, regWrite, sqTailWrite] at h
  rw [h]

/-- What a run shows of the commands on one key. -/
def keyHistory (k : List Byte) (d : Device) :
    List (Byte × ℕ × Byte × Bool × KvIo × Status) :=
  (onKey KvRecord.key k (kvLog d.n.world.trace).records).map fun r =>
    (r.sqe.opcode, (NvmeKVCmd.ofSqe r.sqe).hbs, (NvmeKVCmd.ofSqe r.sqe).ro,
      r.ednek &&& 0x01 != 0, r.io, r.status)

theorem Device.keys_are_registers_two :
    ∃ d₀ d, Initial 2 d₀ ∧ Reaches step Provisioned d₀ d ∧
      (kvLog d.n.world.trace).records.length = 2 ∧
      d.n.ns.contents = keyRegisters (kvLog d.n.world.trace).records := by
  have hrun : (bootRun 2 (fun d _ => decide (d.n.ns.entriesAllocated < 2 ^ 31)) otherKeyInputs).map
      (fun d => decide ((kvLog d.n.world.trace).records.length = 2 ∧
        ∀ e ∈ d.n.world.trace, e.isFailedStore = false)) = some true := by decide +kernel
  obtain ⟨d, hd, hobs⟩ := Option.map_eq_some_iff.mp hrun
  obtain ⟨htwo, hgood⟩ := of_decide_eq_true hobs
  obtain ⟨d₀, h₀, hr⟩ := provisioned_of_bootRun otherKeyInputs_allocate hd
  have hreg := keys_are_registers h₀ hr
    (fun bytes hb => absurd (hgood _ hb) (by simp [Event.isFailedStore])) rfl
  exact ⟨d₀, d, h₀, hr, htwo, hreg.1⟩

/-! ## Two runs -/

namespace KvRecord

/-- Two commands ask for the same and meet the same surroundings: opcode, sizes and options agree,
as do the EDNEK setting, the value read from the host, the outcome of the transfer to it, and
whether the namespace had no room. -/
structure SameRequest (r r' : KvRecord) : Prop where
  opcode : r.sqe.opcode = r'.sqe.opcode
  hbs : (NvmeKVCmd.ofSqe r.sqe).hbs = (NvmeKVCmd.ofSqe r'.sqe).hbs
  ro : (NvmeKVCmd.ofSqe r.sqe).ro = (NvmeKVCmd.ofSqe r'.sqe).ro
  ednek : (r.ednek &&& 0x01 != 0) = (r'.ednek &&& 0x01 != 0)
  value : ∀ bytes bytes', r.io = .received true bytes → r'.io = .received true bytes' →
    bytes = bytes'
  delivery : ∀ ok ok' bytes bytes', r.io = .sent ok bytes → r'.io = .sent ok' bytes' → ok = ok'
  capacity : r.status = nvmeCapExceeded ↔ r'.status = nvmeCapExceeded

def SameAnswer (r r' : KvRecord) : Prop := r.status = r'.status ∧ r.io = r'.io

end KvRecord

/-- Only a new key is answered differently in a full namespace. -/
theorem kvVerdict_full (op : KvOp) (ednek : Bool) (cmd : NvmeKVCmd) (v : Option (Buffer 4096)) :
    kvVerdict op ednek true cmd v = kvVerdict op ednek false cmd v ∨
      kvVerdict op ednek true cmd v = .plain nvmeCapExceeded ∧
        kvVerdict op ednek false cmd v = .take := by
  cases v with
  | some v => exact .inl rfl
  | none =>
    cases op with
    | store =>
      simp only [kvVerdict]
      split_ifs <;> simp
    | _ => exact .inl rfl

theorem kvVerdict_congr {cmd cmd' : NvmeKVCmd} (hb : cmd.hbs = cmd'.hbs) (hr : cmd.ro = cmd'.ro)
    (op : KvOp) (ednek full : Bool) (v : Option (Buffer 4096)) :
    kvVerdict op ednek full cmd v = kvVerdict op ednek full cmd' v := by
  cases v <;> cases op <;>
    simp [kvVerdict, hb, hr, NvmeKVCmd.dontStoreIfKeyExists, NvmeKVCmd.dontStoreIfKeyNotExists]

namespace KvRecord.SameRequest
variable {r r' : KvRecord} {verdict : KvVerdict}

theorem sameAnswer (h : SameRequest r r') {hbs hbs' : ℕ} (hm : verdict.Met hbs r.io r.status)
    (hm' : verdict.Met hbs' r'.io r'.status) : r.SameAnswer r' := by
  cases verdict with
  | plain s => exact ⟨hm.1.trans hm'.1.symm, hm.2.trans hm'.2.symm⟩
  | take =>
    obtain ⟨hst, bytes, -, hio⟩ := hm
    obtain ⟨hst', bytes', -, hio'⟩ := hm'
    exact ⟨hst.trans hst'.symm, by rw [hio, hio', h.value _ _ hio hio']⟩
  | give bytes =>
    obtain ⟨ok, hst, hio⟩ := hm
    obtain ⟨ok', hst', hio'⟩ := hm'
    obtain rfl := h.delivery _ _ _ _ hio hio'
    exact ⟨hst.trans hst'.symm, hio.trans hio'.symm⟩

theorem capExceeded_ne_success : nvmeCapExceeded ≠ nvmeSuccess := by decide

/-- The same requests on a key with one value are answered alike, even if the namespace is full on
one side only: the side without room would have refused. -/
theorem answered_alike (h : SameRequest r r') {op : KvOp} (ho : r.sqe.opcode = op.opcode)
    {full full' : Bool} {v : Option (Buffer 4096)} (hm : r.Answers full v)
    (hm' : r'.Answers full' v) : r.SameAnswer r' := by
  have hv := hm op ho
  have hv' := hm' op (h.opcode.symm.trans ho)
  rw [← h.ednek, ← kvVerdict_congr h.hbs h.ro] at hv'
  rcases kvVerdict_full op (r.ednek &&& 0x01 != 0) (.ofSqe r.sqe) v with he | ⟨hfull, hroom⟩
  · have hsame (full : Bool) : kvVerdict op (r.ednek &&& 0x01 != 0) full (.ofSqe r.sqe) v =
        kvVerdict op (r.ednek &&& 0x01 != 0) false (.ofSqe r.sqe) v := by
      cases full with
      | false => rfl
      | true => exact he
    rw [hsame] at hv hv'
    exact h.sameAnswer hv hv'
  · cases full <;> cases full' <;> simp only [hfull, hroom] at hv hv'
    · exact h.sameAnswer hv hv'
    · exact absurd (h.capacity.mpr hv'.1) (hv.1 ▸ capExceeded_ne_success.symm)
    · exact absurd (h.capacity.mp hv.1) (hv'.1 ▸ capExceeded_ne_success.symm)
    · exact h.sameAnswer hv hv'

theorem put_eq (h : SameRequest r r') (ha : r.SameAnswer r') (v : Option (Buffer 4096)) :
    r.put v = r'.put v := by
  rw [put, put, h.opcode, ha.2]

end KvRecord.SameRequest

/-- The commands of a replay on one key are a history of that key alone. -/
theorem KvRun.answered {cap : ℕ} {rs : List KvRecord} {m : KvMap} (h : KvRun cap rs m)
    (k : List Byte) :
    Answered (fun v r => r.key = some k ∧ ∃ full, KvRecord.Answers full v r) KvRecord.put none
      (onKey KvRecord.key k rs) := by
  refine answered_onKey fun pre r post hs hk => ⟨hk, ?_⟩
  exact ⟨_, h.answers hs hk (@decide_eq_true_iff _ (Classical.dec _))⟩

/-- What happens to other keys cannot be seen through a key: in any two runs, over devices of any
capacities, that make the same requests on `k` in the same order and are refused room for `k` at
the same requests, the requests on `k` are answered alike and `k` ends with the same value. -/
theorem Device.other_keys_unobservable {maxNumKeys maxNumKeys' : BitVec 32} {d₀ d d₀' d' : Device}
    (h₀ : Initial maxNumKeys d₀) (hr : Reaches step Provisioned d₀ d)
    (hin : ∀ bytes, .h2c false bytes ∉ d.n.world.trace)
    (h₀' : Initial maxNumKeys' d₀') (hr' : Reaches step Provisioned d₀' d')
    (hin' : ∀ bytes, .h2c false bytes ∉ d'.n.world.trace) {k : List Byte}
    (hsame : List.Forall₂ KvRecord.SameRequest
      (onKey KvRecord.key k (kvLog d.n.world.trace).records)
      (onKey KvRecord.key k (kvLog d'.n.world.trace).records)) :
    List.Forall₂ KvRecord.SameAnswer (onKey KvRecord.key k (kvLog d.n.world.trace).records)
      (onKey KvRecord.key k (kvLog d'.n.world.trace).records) ∧
    d.n.ns.contents k = d'.n.ns.contents k := by
  have hrun := (h₀.agrees_run hr hin).run
  have hrun' := (h₀'.agrees_run hr' hin').run
  rw [hrun.registers, hrun'.registers]
  refine (hrun.answered k).agree ?_ hsame (hrun'.answered k)
  rintro v r r' hreq ⟨hk, full, ha⟩ ⟨-, full', ha'⟩
  obtain ⟨op, ho, -⟩ := KvRecord.key_eq_some hk
  have halike := hreq.answered_alike (kvOpOf_eq ho) ha ha'
  exact ⟨halike, hreq.put_eq halike v⟩

theorem Device.other_keys_unobservable_store :
    ∃ d₀ d d₀' d', Initial 1 d₀ ∧ Reaches step Provisioned d₀ d ∧ Initial 2 d₀' ∧
      Reaches step Provisioned d₀' d' ∧ (kvLog d.n.world.trace).records.length = 1 ∧
      (kvLog d'.n.world.trace).records.length = 2 ∧
      d.n.ns.contents [0x61] = d'.n.ns.contents [0x61] := by
  have hrun : (bootRun 1 (fun d _ => decide (d.n.ns.entriesAllocated < 2 ^ 31)) storeInputs).map
      (fun d => decide ((kvLog d.n.world.trace).records.length = 1 ∧
        (∀ e ∈ d.n.world.trace, e.isFailedStore = false) ∧
        keyHistory [0x61] d = [(1, 2, 0, false, .received true [7, 9], 0)])) = some true := by
    decide +kernel
  have hrun' : (bootRun 2 (fun d _ => decide (d.n.ns.entriesAllocated < 2 ^ 31)) otherKeyInputs).map
      (fun d => decide ((kvLog d.n.world.trace).records.length = 2 ∧
        (∀ e ∈ d.n.world.trace, e.isFailedStore = false) ∧
        keyHistory [0x61] d = [(1, 2, 0, false, .received true [7, 9], 0)])) = some true := by
    decide +kernel
  obtain ⟨d, hd, hobs⟩ := Option.map_eq_some_iff.mp hrun
  obtain ⟨d', hd', hobs'⟩ := Option.map_eq_some_iff.mp hrun'
  obtain ⟨hone, hgood, hhist⟩ := of_decide_eq_true hobs
  obtain ⟨htwo, hgood', hhist'⟩ := of_decide_eq_true hobs'
  obtain ⟨d₀, h₀, hr⟩ := provisioned_of_bootRun storeInputs_allocate hd
  obtain ⟨d₀', h₀', hr'⟩ := provisioned_of_bootRun otherKeyInputs_allocate hd'
  have hsame : List.Forall₂ KvRecord.SameRequest
      (onKey KvRecord.key [0x61] (kvLog d.n.world.trace).records)
      (onKey KvRecord.key [0x61] (kvLog d'.n.world.trace).records) := by
    obtain ⟨r, hl, hx⟩ := List.map_eq_singleton_iff.mp hhist
    obtain ⟨r', hl', hx'⟩ := List.map_eq_singleton_iff.mp hhist'
    simp only [Prod.mk.injEq] at hx hx'
    obtain ⟨h1, h2, h3, h4, h5, h6⟩ := hx
    obtain ⟨g1, g2, g3, g4, g5, g6⟩ := hx'
    rw [hl, hl']
    refine .cons ⟨h1.trans g1.symm, h2.trans g2.symm, h3.trans g3.symm, h4.trans g4.symm, ?_, ?_,
      by rw [h6, g6]⟩ .nil
    · rw [h5, g5]
      rintro bytes bytes' hb hb'
      cases hb
      cases hb'
      rfl
    · rw [h5]
      rintro ok ok' bytes bytes' hb
      cases hb
  have heq := other_keys_unobservable h₀ hr
    (fun bytes hb => absurd (hgood _ hb) (by simp [Event.isFailedStore])) h₀' hr'
    (fun bytes hb => absurd (hgood' _ hb) (by simp [Event.isFailedStore])) hsame
  exact ⟨d₀, d, d₀', d', h₀, hr, h₀', hr', hone, htwo, heq.2⟩

end VfuKvssd
