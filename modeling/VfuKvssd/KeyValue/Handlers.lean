import VfuKvssd.KeyValue.Commands

/-! # The in-memory KV namespace and its command handlers

The namespace is an array of slots that doubles when it is full; its length is
`entries_allocated`. Host data movement goes through `KvDma`, over a context of
any type. An outcome is `none` where the source indexes the array outside its
bounds, which C leaves undefined.
-/
namespace VfuKvssd
open Foundations

/-- One slot: `key[16]`, `kl`, `val[4096]`, `used`. -/
structure KvPair where
  key : Buffer 16
  kl : ℕ
  val : Buffer 4096
  used : Bool

/-- The slot that `calloc` and `memset(.., 0, ..)` leave. -/
def KvPair.zero : KvPair := ⟨fun _ => 0, 0, fun _ => 0, false⟩

def KvPair.keyBytes (p : KvPair) : List Byte := p.key.bytes.take p.kl

/-- The fields of the KV Identify Namespace page that are ever set. -/
structure NvmeIdNsKV where
  nsze : BitVec 64
  nuse : BitVec 64
  nkvf : Byte
  mnk : BitVec 32
  kml : BitVec 16
  vml : BitVec 32

structure KvNs where
  pairs : List KvPair
  maxNumKeys : BitVec 32
  idNsKv : NvmeIdNsKV
  ednek : BitVec 32

namespace KvNs

def entriesAllocated (ns : KvNs) : ℕ := ns.pairs.length

def numUsed (ns : KvNs) : ℕ := ns.pairs.countP (·.used)

def setNuse (ns : KvNs) (v : BitVec 64) : KvNs := { ns with idNsKv := { ns.idNsKv with nuse := v } }

end KvNs

/-- Footprint of one slot as advertised: `NVME_KV_MAX_KEY_SIZE + NVME_KV_MAX_VAL_SIZE`. -/
def kvSlotSize : ℕ := nvmeKvMaxKeySize + nvmeKvMaxValSize

def kvInitialEntries : ℕ := 16

def kvNsInit (heap : Heap) (maxNumKeys : BitVec 32) : Option KvNs :=
  if heap .idNsKv && heap .pairs then
    some {
      pairs := List.replicate kvInitialEntries KvPair.zero
      maxNumKeys := maxNumKeys
      ednek := 0
      idNsKv := {
        nsze := maxNumKeys.setWidth 64 * BitVec.ofNat 64 kvSlotSize
        nuse := 0
        nkvf := 1
        mnk := maxNumKeys
        kml := BitVec.ofNat 16 nvmeKvMaxKeySize
        vml := BitVec.ofNat 32 nvmeKvMaxValSize } }
  else none

/-- Host data movement. `h2c` is handed the present bytes of the destination and
returns whether it succeeded and the bytes it leaves there. -/
structure KvDma (σ : Type) where
  h2c : σ → NvmeKVCmd → List Byte → Bool × List Byte × σ
  c2h : σ → NvmeKVCmd → List Byte → Bool × σ

def kvKeyMatch (cmd : NvmeKVCmd) (p : KvPair) : Bool :=
  if !p.used then false
  else if cmd.kl != p.kl then false
  else if cmd.key.bytes.take (min cmd.kl 8) != p.key.bytes.take (min cmd.kl 8) then false
  else if 8 < cmd.kl then
    cmd.keyHi.bytes.take (min (cmd.kl - 8) 8) == (p.key.bytes.drop 8).take (min (cmd.kl - 8) 8)
  else true

def kvKeyStore (p : KvPair) (cmd : NvmeKVCmd) : KvPair :=
  let key := p.key.copy 0 (cmd.key.bytes.take (min cmd.kl 8))
  { p with
    key := if 8 < cmd.kl then key.copy 8 (cmd.keyHi.bytes.take (min (cmd.kl - 8) 8)) else key
    kl := min cmd.kl 16
    used := true }

/-- Conversion of a `size_t` to `int`. -/
def toCInt (n : ℕ) : ℤ := (BitVec.ofNat 32 n).toInt

/-- The scan of `kv_store`: the first free slot met so far, as an `int` that is
negative while there is none, and the matching slot at which the scan stops. -/
def kvStoreScan (cmd : NvmeKVCmd) : List KvPair → ℕ → ℤ → ℤ × Option ℕ
  | [], _, fstEmpty => (fstEmpty, none)
  | p :: ps, i, fstEmpty =>
    let fstEmpty := if fstEmpty < 0 && !p.used then toCInt i else fstEmpty
    if kvKeyMatch cmd p then (fstEmpty, some i) else kvStoreScan cmd ps (i + 1) fstEmpty

variable {σ : Type}

/-- `dma->h2c` into the value buffer of slot `i`, and the status it leads to. -/
def kvReceive (ns : KvNs) (i : ℕ) (cmd : NvmeKVCmd) (dma : KvDma σ) (ctx : σ) :
    Option (Status × KvNs × σ) :=
  match ns.pairs[i]? with
  | none => none
  | some p =>
    match dma.h2c ctx cmd (p.val.bytes.take cmd.hbs) with
    | (ok, dst, ctx) =>
      some (if ok then nvmeSuccess else nvmeInvalidField,
        { ns with pairs := ns.pairs.set i { p with val := p.val.copy 0 dst } }, ctx)

/-- Make room when no free slot was met. `none` is a failed `realloc`. -/
def kvGrow (ns : KvNs) (fstEmpty : ℤ) (heap : Heap) : Option (KvNs × ℤ) :=
  if fstEmpty < 0 then
    if heap .pairsGrown then
      some ({ ns with pairs := ns.pairs ++ List.replicate ns.entriesAllocated KvPair.zero },
        toCInt ns.entriesAllocated)
    else none
  else some (ns, fstEmpty)

/-- Occupy slot `slot` with the key, count it, then receive the value. -/
def kvInsert (ns : KvNs) (slot : ℤ) (cmd : NvmeKVCmd) (dma : KvDma σ) (ctx : σ) :
    Option (Status × KvNs × σ) :=
  if slot < 0 then none
  else match ns.pairs[slot.toNat]? with
    | none => none
    | some p =>
      kvReceive (KvNs.setNuse { ns with pairs := ns.pairs.set slot.toNat (kvKeyStore p cmd) }
        (ns.idNsKv.nuse + BitVec.ofNat 64 kvSlotSize)) slot.toNat cmd dma ctx

/-- `nuse / slot size >= max_num_keys`. -/
def KvNs.full (ns : KvNs) : Bool :=
  ns.maxNumKeys.setWidth 64 ≤ ns.idNsKv.nuse / BitVec.ofNat 64 kvSlotSize

def kvStore (ns : KvNs) (cmd : NvmeKVCmd) (dma : KvDma σ) (ctx : σ) (heap : Heap) :
    Option (Status × KvNs × σ) :=
  if 16 < cmd.kl then some (nvmeKvInvalidKeySize, ns, ctx)
  else if nvmeKvMaxValSize < cmd.hbs then some (nvmeKvInvalidValSize, ns, ctx)
  else match kvStoreScan cmd ns.pairs 0 (-1) with
    | (_, some i) =>
      if cmd.dontStoreIfKeyExists then some (nvmeKvKeyExists, ns, ctx)
      else kvReceive ns i cmd dma ctx
    | (fstEmpty, none) =>
      if cmd.dontStoreIfKeyNotExists then some (nvmeKvKeyNotExists, ns, ctx)
      else if ns.full then some (nvmeCapExceeded, ns, ctx)
      else match kvGrow ns fstEmpty heap with
        | none => some (nvmeCapExceeded, ns, ctx)
        | some (grown, slot) => kvInsert grown slot cmd dma ctx

def kvRetrieve (ns : KvNs) (cmd : NvmeKVCmd) (dma : KvDma σ) (ctx : σ) : Status × σ :=
  if 16 < cmd.kl then (nvmeInvalidField, ctx)
  else match ns.pairs.find? (kvKeyMatch cmd) with
    | some p =>
      match dma.c2h ctx cmd (p.val.bytes.take (min cmd.hbs nvmeKvMaxValSize)) with
      | (ok, ctx) => (if ok then nvmeSuccess else nvmeInvalidField, ctx)
    | none => (nvmeKvKeyNotExists, ctx)

def kvDelete (ns : KvNs) (cmd : NvmeKVCmd) : Status × KvNs :=
  if 16 < cmd.kl then (nvmeInvalidField, ns)
  else match ns.pairs.findIdx? (kvKeyMatch cmd) with
    | some i =>
      (nvmeSuccess, KvNs.setNuse { ns with pairs := ns.pairs.set i KvPair.zero }
        (ns.idNsKv.nuse - BitVec.ofNat 64 kvSlotSize))
    | none => if ns.ednek &&& 0x01 != 0 then (nvmeKvKeyNotExists, ns) else (nvmeSuccess, ns)

def kvExist (ns : KvNs) (cmd : NvmeKVCmd) : Status :=
  if 16 < cmd.kl then nvmeInvalidField
  else if ns.pairs.any (kvKeyMatch cmd) then nvmeSuccess
  else nvmeKvKeyNotExists

/-- `*nrk = *nrk + 1`: the 16-bit counter in the first two bytes of the list buffer. -/
def bumpNrk (rds : List Byte) : List Byte := leBytes 2 (leNat (rds.take 2) + 1) ++ rds.drop 2

/-- The list loop from slot `i` on. `none` is a failed `realloc`. -/
def kvListFrom (hbs : ℕ) (heap : Heap) : List KvPair → ℕ → List Byte → Option (List Byte)
  | [], _, rds => some rds
  | p :: ps, i, rds =>
    if !p.used then kvListFrom hbs heap ps (i + 1) rds
    else
      let kdsWoPad := 2 + p.kl
      let kds := kdsWoPad + kdsWoPad % 4
      if !heap (.rdsGrown i) then none
      else if hbs < rds.length + kds then some rds
      else kvListFrom hbs heap ps (i + 1)
        (bumpNrk (rds ++ leBytes 2 p.kl ++ p.key.bytes.take p.kl ++
          List.replicate (kds - kdsWoPad) 0))

def kvList (ns : KvNs) (cmd : NvmeKVCmd) (dma : KvDma σ) (ctx : σ) (heap : Heap) : Status × σ :=
  if 16 < cmd.kl then (nvmeInvalidField, ctx)
  else if !heap .rds then (nvmeCapExceeded, ctx)
  else
    let firstEntry := (ns.pairs.findIdx? (kvKeyMatch cmd)).getD 0
    match kvListFrom cmd.hbs heap (ns.pairs.drop firstEntry) firstEntry [0, 0, 0, 0] with
    | none => (nvmeCapExceeded, ctx)
    | some rds =>
      match dma.c2h ctx cmd rds with
      | (ok, ctx) => (if ok then nvmeSuccess else nvmeInvalidField, ctx)

/-- The five KV commands. -/
inductive KvOp
  | store
  | retrieve
  | delete
  | exist
  | list
deriving DecidableEq

/-- One handler call, with the namespace and the context it leaves. -/
def kvHandle (op : KvOp) (ns : KvNs) (cmd : NvmeKVCmd) (dma : KvDma σ) (ctx : σ) (heap : Heap) :
    Option (Status × KvNs × σ) :=
  match op with
  | .store => kvStore ns cmd dma ctx heap
  | .retrieve => let r := kvRetrieve ns cmd dma ctx; some (r.1, ns, r.2)
  | .delete => let r := kvDelete ns cmd; some (r.1, r.2, ctx)
  | .exist => some (kvExist ns cmd, ns, ctx)
  | .list => let r := kvList ns cmd dma ctx heap; some (r.1, ns, r.2)

end VfuKvssd
