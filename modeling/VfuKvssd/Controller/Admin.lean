import VfuKvssd.Controller.Transfer
import VfuKvssd.Controller.Registers

/-! # Admin commands

Identify pages, features and queue management, as `nvme_admin_cmd` dispatches
them.
-/
namespace VfuKvssd
open Foundations

def nvmeAdmDeleteSq : Byte := 0x00
def nvmeAdmCreateSq : Byte := 0x01
def nvmeAdmGetLogPage : Byte := 0x02
def nvmeAdmDeleteCq : Byte := 0x04
def nvmeAdmCreateCq : Byte := 0x05
def nvmeAdmIdentify : Byte := 0x06
def nvmeAdmSetFeatures : Byte := 0x09
def nvmeAdmGetFeatures : Byte := 0x0a
def nvmeAdmAsyncEvent : Byte := 0x0c

def nvmeFeatNumQueues : Byte := 0x07
def nvmeFeatKvEdnek : Byte := 0x20

def nvmeIdCnsNs : Byte := 0x00
def nvmeIdCnsCtrl : Byte := 0x01
def nvmeIdCnsNsActiveList : Byte := 0x02
def nvmeIdCnsNsDescList : Byte := 0x03
def nvmeIdCnsCsNs : Byte := 0x05
def nvmeIdCnsCsCtrl : Byte := 0x06
def nvmeIdCnsNsIndependent : Byte := 0x08
def nvmeIdCnsIoCmdSet : Byte := 0x1c

def nvmeCsiKv : Byte := 0x01

/-- Command consumed, no completion to post. -/
def nvmeNoComplete : Status := 0xffff

def nvmeStatusInvalidQid : Status := 0x0101

/-! ## Identify -/

abbrev IdPage := Buffer 4096

def asciiBytes (s : String) : List Byte := s.toList.map fun c => BitVec.ofNat 8 c.toNat

/-- Space-padded text of a fixed width. -/
def nvmeFillAscii (s : String) (width : ℕ) : List Byte :=
  let bytes := (asciiBytes s).take width
  bytes ++ List.replicate (width - bytes.length) 0x20

/-- Identify Controller: VID, SSVID, SN, MN, FR, MDTS, CNTLID, VER, CNTRLTYPE, ACL, AERL, SQES,
CQES, NN and SUBNQN; every other byte is zero. -/
def nvmeFillIdCtrl : IdPage :=
  let buf : IdPage := fun _ => 0
  let buf := buf.copy 0x00 [0x36, 0x1b, 0x36, 0x1b]
  let buf := buf.copy 0x04 (nvmeFillAscii "VFUKVSSD0000000000000001" 20)
  let buf := buf.copy 0x18 (nvmeFillAscii "vfio-user-kvssd" 40)
  let buf := buf.copy 0x40 (nvmeFillAscii "0.1.3" 8)
  let buf := buf.copy 0x4d [0x01]
  let buf := buf.copy 0x4e [0x01, 0x00]
  let buf := buf.copy 0x50 [0x00, 0x00, 0x02, 0x00]
  let buf := buf.copy 0x6f [0x01]
  let buf := buf.copy 0x102 [0x03]
  let buf := buf.copy 0x103 [0x03]
  let buf := buf.copy 0x200 [0x66]
  let buf := buf.copy 0x201 [0x44]
  let buf := buf.copy 0x204 [0x01, 0x00, 0x00, 0x00]
  buf.copy 0x300 (asciiBytes "nqn.2025-11.dk.safl:vfu_kvssd")

/-- The packed layout: `nsze` at 0, `nuse` at 16, `nkvf` at 25, `kvf[0]` at 72. -/
def NvmeIdNsKV.page (id : NvmeIdNsKV) : IdPage :=
  let buf : IdPage := fun _ => 0
  let buf := buf.copy 0 (leBytes 8 id.nsze.toNat)
  let buf := buf.copy 16 (leBytes 8 id.nuse.toNat)
  let buf := buf.copy 25 [id.nkvf]
  let buf := buf.copy 72 (leBytes 2 id.kml.toNat)
  let buf := buf.copy 76 (leBytes 4 id.vml.toNat)
  buf.copy 80 (leBytes 4 id.mnk.toNat)

/-- NVM Identify Namespace: NSZE, NCAP, NUSE and NVMCAP in bytes of slot footprint. -/
def nvmeIdNsPage (id : NvmeIdNsKV) : IdPage :=
  let buf : IdPage := fun _ => 0
  let buf := buf.copy 0x00 (leBytes 8 id.nsze.toNat)
  let buf := buf.copy 0x08 (leBytes 8 id.nsze.toNat)
  let buf := buf.copy 0x10 (leBytes 8 id.nuse.toNat)
  buf.copy 0x30 (leBytes 8 id.nsze.toNat)

/-- The page of a CNS value; `none` for values that are not supported. -/
def nvmeIdentifyPage (n : NvmeCtrl) (cns csi : Byte) : Option IdPage :=
  let zero : IdPage := fun _ => 0
  if cns = nvmeIdCnsCtrl then some nvmeFillIdCtrl
  else if cns = nvmeIdCnsNs then some (nvmeIdNsPage n.ns.idNsKv)
  else if cns = nvmeIdCnsNsActiveList then some (zero.copy 0 (leBytes 4 1))
  else if cns = nvmeIdCnsNsDescList then some (zero.copy 0 [0x04, 0x01, 0x00, 0x00, nvmeCsiKv])
  else if cns = nvmeIdCnsCsNs then some (if csi = nvmeCsiKv then n.ns.idNsKv.page else zero)
  else if cns = nvmeIdCnsCsCtrl then some zero
  else if cns = nvmeIdCnsNsIndependent then some (zero.copy 14 [0x01])
  else if cns = nvmeIdCnsIoCmdSet then some (zero.copy 0 [0x01])
  else none

def nvmeAdminIdentify (n : NvmeCtrl) (heap : Heap) (sqe : NvmeSqe) : Status × NvmeCtrl :=
  match nvmeIdentifyPage n (sqe.cdw10.setWidth 8) ((sqe.cdw11 >>> 24).setWidth 8) with
  | none => (nvmeInvalidField ||| nvmeDnr, n)
  | some page =>
    match nvmePrpXfer n.world (heap .dataSgl) sqe.prp1 sqe.prp2 page.bytes true with
    | (ok, _, w) =>
      (if ok then nvmeSuccess else nvmeInvalidField ||| nvmeDnr, n.withWorld w)

/-! ## Features -/

/-- 0-based count of I/O queues. -/
def nvmeMaxIoQueues0 : BitVec 16 := BitVec.ofNat 16 (nvmeMaxQueues - 2)

def minCount (a b : BitVec 16) : BitVec 16 := if a < b then a else b

def packCounts (hi lo : BitVec 16) : BitVec 32 := (hi.setWidth 32 <<< 16) ||| lo.setWidth 32

def nvmeAdminSetFeatures (n : NvmeCtrl) (sqe : NvmeSqe) : Status × BitVec 32 × NvmeCtrl :=
  let fid : Byte := sqe.cdw10.setWidth 8
  if fid = nvmeFeatNumQueues then
    let nsqr : BitVec 16 := sqe.cdw11.setWidth 16
    let ncqr : BitVec 16 := (sqe.cdw11 >>> 16).setWidth 16
    (nvmeSuccess, packCounts (minCount ncqr nvmeMaxIoQueues0) (minCount nsqr nvmeMaxIoQueues0), n)
  else if fid = nvmeFeatKvEdnek then
    (nvmeSuccess, 0, { n with ns := { n.ns with ednek := sqe.cdw11 } })
  else (nvmeSuccess, 0, n)

def nvmeAdminGetFeatures (n : NvmeCtrl) (sqe : NvmeSqe) : Status × BitVec 32 :=
  let fid : Byte := sqe.cdw10.setWidth 8
  if fid = nvmeFeatNumQueues then (nvmeSuccess, packCounts nvmeMaxIoQueues0 nvmeMaxIoQueues0)
  else if fid = nvmeFeatKvEdnek then (nvmeSuccess, n.ns.ednek)
  else (nvmeSuccess, 0)

/-! ## Queue management -/

def NvmeSqe.qid (sqe : NvmeSqe) : BitVec 16 := sqe.cdw10.setWidth 16

def NvmeSqe.qsize (sqe : NvmeSqe) : BitVec 16 := (sqe.cdw10 >>> 16).setWidth 16

/-- High half of dword 11: the vector of a Create CQ, the CQ of a Create SQ. -/
def NvmeSqe.target (sqe : NvmeSqe) : BitVec 16 := (sqe.cdw11 >>> 16).setWidth 16

/-- `qid == 0 || qid >= NVME_MAX_QUEUES` fails: the index of an I/O queue. -/
def ioQueue (qid : BitVec 16) : Option QueueId :=
  if h : qid ≠ 0 ∧ qid.toNat < nvmeMaxQueues then some ⟨qid.toNat, h.2⟩ else none

def createdCq (sqe : NvmeSqe) : NvmeCq where
  dma := sqe.prp1
  size := sqe.qsize.setWidth 32 + 1
  qid := sqe.qid
  head := 0
  tail := 0
  phase := 1
  irq := sqe.target.toNat
  enabled := true

def nvmeAdminCreateCq (n : NvmeCtrl) (sqe : NvmeSqe) : Status × NvmeCtrl :=
  match ioQueue sqe.qid with
  | none => (nvmeStatusInvalidQid ||| nvmeDnr, n)
  | some q =>
    (nvmeSuccess, (n.setCq q (createdCq sqe)).log (.cqInit q (createdCq sqe).size.toNat))

def createdSq (sqe : NvmeSqe) : NvmeSq where
  dma := sqe.prp1
  size := sqe.qsize.setWidth 32 + 1
  qid := sqe.qid
  cqid := sqe.target
  head := 0
  tail := 0
  enabled := true

/-- `cqid >= NVME_MAX_QUEUES || !n->cq[cqid].enabled` fails. -/
def NvmeCtrl.liveCq (n : NvmeCtrl) (cqid : BitVec 16) : Bool :=
  if h : cqid.toNat < nvmeMaxQueues then (n.cq ⟨cqid.toNat, h⟩).enabled else false

def nvmeAdminCreateSq (n : NvmeCtrl) (sqe : NvmeSqe) : Status × NvmeCtrl :=
  match ioQueue sqe.qid with
  | none => (nvmeStatusInvalidQid ||| nvmeDnr, n)
  | some q =>
    if n.liveCq sqe.target then
      (nvmeSuccess, (n.setSq q (createdSq sqe)).log (.sqInit q sqe.target))
    else (nvmeStatusInvalidQid ||| nvmeDnr, n)

def nvmeAdminDeleteCq (n : NvmeCtrl) (sqe : NvmeSqe) : Status × NvmeCtrl :=
  match ioQueue sqe.qid with
  | none => (nvmeStatusInvalidQid ||| nvmeDnr, n)
  | some q => (nvmeSuccess, n.setCq q { n.cq q with enabled := false })

def nvmeAdminDeleteSq (n : NvmeCtrl) (sqe : NvmeSqe) : Status × NvmeCtrl :=
  match ioQueue sqe.qid with
  | none => (nvmeStatusInvalidQid ||| nvmeDnr, n)
  | some q => (nvmeSuccess, n.setSq q { n.sq q with enabled := false })

/-- Status, completion dword 0 and controller. -/
def nvmeAdminCmd (n : NvmeCtrl) (heap : Heap) (sqe : NvmeSqe) : Status × BitVec 32 × NvmeCtrl :=
  let plain (r : Status × NvmeCtrl) : Status × BitVec 32 × NvmeCtrl := (r.1, 0, r.2)
  if sqe.opcode = nvmeAdmIdentify then plain (nvmeAdminIdentify n heap sqe)
  else if sqe.opcode = nvmeAdmSetFeatures then nvmeAdminSetFeatures n sqe
  else if sqe.opcode = nvmeAdmGetFeatures then
    ((nvmeAdminGetFeatures n sqe).1, (nvmeAdminGetFeatures n sqe).2, n)
  else if sqe.opcode = nvmeAdmCreateCq then plain (nvmeAdminCreateCq n sqe)
  else if sqe.opcode = nvmeAdmCreateSq then plain (nvmeAdminCreateSq n sqe)
  else if sqe.opcode = nvmeAdmDeleteCq then plain (nvmeAdminDeleteCq n sqe)
  else if sqe.opcode = nvmeAdmDeleteSq then plain (nvmeAdminDeleteSq n sqe)
  else if sqe.opcode = nvmeAdmGetLogPage then (nvmeSuccess, 0, n)
  else if sqe.opcode = nvmeAdmAsyncEvent then (nvmeNoComplete, 0, n)
  else (nvmeInvalidOpcode ||| nvmeDnr, 0, n)

end VfuKvssd
