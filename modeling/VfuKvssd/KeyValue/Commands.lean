import VfuKvssd.Foundations.ByteMemory

/-! # Submission entries, KV commands and status codes

A submission entry is 64 packed bytes. The generic view and the KV view read
different fields of the same bytes, as the cast in the I/O dispatch does.
-/
namespace VfuKvssd
open Foundations

abbrev Status := BitVec 16

def nvmeSuccess : Status := 0x0000
def nvmeInvalidOpcode : Status := 0x0001
def nvmeInvalidField : Status := 0x0002
def nvmeCapExceeded : Status := 0x0181
def nvmeKvInvalidValSize : Status := 0x0185
def nvmeKvInvalidKeySize : Status := 0x0186
def nvmeKvKeyNotExists : Status := 0x0187
def nvmeKvKeyExists : Status := 0x0189

def nvmeDnr : Status := 0x4000

def nvmeKvMaxKeySize : ℕ := 16
def nvmeKvMaxValSize : ℕ := 4 * 1024

/-- Places in the code that request memory. `true` at a place means that the
request made there while one command is handled succeeds. -/
inductive AllocSite
  | idNsKv
  | pairs
  | pairsGrown
  | rds
  | rdsGrown (slot : ℕ)
  | sqeSgl
  | dataSgl
  | cqeSgl
deriving DecidableEq

abbrev Heap := AllocSite → Bool

/-- The bytes of one submission queue slot. -/
abbrev Entry := Buffer 64

/-- `n` bytes of an entry from an offset on. -/
def Entry.field (e : Entry) (off n : ℕ) : List Byte :=
  (List.range n).map fun i => (Buffer.bytes e).getD (off + i) 0

/-- Generic submission queue entry. -/
structure NvmeSqe where
  raw : Entry
deriving DecidableEq

namespace NvmeSqe

def opcode (s : NvmeSqe) : Byte := s.raw 0
def cid (s : NvmeSqe) : BitVec 16 := BitVec.ofNat 16 (leNat (Entry.field s.raw 2 2))
def prp1 (s : NvmeSqe) : Addr := BitVec.ofNat 64 (leNat (Entry.field s.raw 24 8))
def prp2 (s : NvmeSqe) : Addr := BitVec.ofNat 64 (leNat (Entry.field s.raw 32 8))
def cdw10 (s : NvmeSqe) : BitVec 32 := BitVec.ofNat 32 (leNat (Entry.field s.raw 40 4))
def cdw11 (s : NvmeSqe) : BitVec 32 := BitVec.ofNat 32 (leNat (Entry.field s.raw 44 4))

end NvmeSqe

/-- The KV view: key at offset 8, PRPs at 24, `hbs` at 40, `kl` and `ro` at 44, `key_hi` at 56. -/
structure NvmeKVCmd where
  raw : Entry
deriving DecidableEq

namespace NvmeKVCmd

def ofSqe (s : NvmeSqe) : NvmeKVCmd := ⟨s.raw⟩

def opcode (c : NvmeKVCmd) : Byte := c.raw 0
def key (c : NvmeKVCmd) : Buffer 8 := fun i => c.raw ⟨8 + i.val, by omega⟩
def prp1 (c : NvmeKVCmd) : Addr := BitVec.ofNat 64 (leNat (Entry.field c.raw 24 8))
def prp2 (c : NvmeKVCmd) : Addr := BitVec.ofNat 64 (leNat (Entry.field c.raw 32 8))
def hbs (c : NvmeKVCmd) : ℕ := leNat (Entry.field c.raw 40 4)
def kl (c : NvmeKVCmd) : ℕ := (c.raw 44).toNat
def ro (c : NvmeKVCmd) : Byte := c.raw 45
def keyHi (c : NvmeKVCmd) : Buffer 8 := fun i => c.raw ⟨56 + i.val, by omega⟩

/-- The key a command names: the first `kl` bytes of `key` followed by `key_hi`. -/
def keyBytes (c : NvmeKVCmd) : List Byte := (c.key.bytes ++ c.keyHi.bytes).take c.kl

theorem keyBytes_length {c : NvmeKVCmd} (h : c.kl ≤ 16) : c.keyBytes.length = c.kl := by
  simp only [keyBytes, List.length_take, List.length_append, Buffer.bytes_length]
  omega

end NvmeKVCmd

def nvmeCmdKvStore : Byte := 0x01
def nvmeCmdKvRetrieve : Byte := 0x02
def nvmeCmdKvList : Byte := 0x06
def nvmeCmdKvDelete : Byte := 0x10
def nvmeCmdKvExist : Byte := 0x14

/-- `NVME_CMD_KV_STORE_OPT_DONT_STORE_IF_KEY_NOT_EXISTS`. -/
def NvmeKVCmd.dontStoreIfKeyNotExists (c : NvmeKVCmd) : Bool := c.ro &&& 0x01 != 0

/-- `NVME_CMD_KV_STORE_OPT_DONT_STORE_IF_KEY_EXISTS`. -/
def NvmeKVCmd.dontStoreIfKeyExists (c : NvmeKVCmd) : Bool := c.ro &&& 0x02 != 0

end VfuKvssd
