import VfuKvssd.Controller.World
import VfuKvssd.KeyValue.Handlers

/-! # The controller state, its registers and its enable and shutdown machine

The register block keeps the source's field names. `world` stands for what the
`vfu` pointer gives access to. An outcome is `none` where the source shifts by
64 or more, which C leaves undefined.
-/
namespace VfuKvssd
open Foundations

structure NvmeCq where
  dma : Addr
  size : BitVec 32
  qid : BitVec 16
  head : BitVec 16
  tail : BitVec 16
  phase : Byte
  irq : ℤ
  enabled : Bool
deriving DecidableEq

structure NvmeSq where
  dma : Addr
  size : BitVec 32
  qid : BitVec 16
  cqid : BitVec 16
  head : BitVec 16
  tail : BitVec 16
  enabled : Bool
deriving DecidableEq

def NvmeCq.zero : NvmeCq := ⟨0, 0, 0, 0, 0, 0, 0, false⟩

def NvmeSq.zero : NvmeSq := ⟨0, 0, 0, 0, 0, 0, false⟩

structure NvmeCtrl where
  world : World
  cap : BitVec 64
  vs : BitVec 32
  intms : BitVec 32
  intmc : BitVec 32
  cc : BitVec 32
  csts : BitVec 32
  aqa : BitVec 32
  asq : BitVec 64
  acq : BitVec 64
  sq : QueueId → NvmeSq
  cq : QueueId → NvmeCq
  msixRegion : Buffer 4096
  ns : KvNs

namespace NvmeCtrl

def withWorld (n : NvmeCtrl) (w : World) : NvmeCtrl := { n with world := w }

def log (n : NvmeCtrl) (e : Event) : NvmeCtrl := n.withWorld (n.world.log e)

def setSq (n : NvmeCtrl) (q : QueueId) (s : NvmeSq) : NvmeCtrl :=
  { n with sq := Function.update n.sq q s }

def setCq (n : NvmeCtrl) (q : QueueId) (c : NvmeCq) : NvmeCtrl :=
  { n with cq := Function.update n.cq q c }

end NvmeCtrl

/-- MQES = 1023, CQR, TO = 0xf, CSS bits 0 and 6. -/
def nvmeCap : BitVec 64 :=
  0x3ff#64 ||| (1#64 <<< 16) ||| (0xf#64 <<< 24) ||| (1#64 <<< 37) ||| (1#64 <<< 43)

/-- NVMe 2.0.0. -/
def nvmeVs : BitVec 32 := 0x00020000

def nvmeCtrlInit (heap : Heap) (world : World) (maxNumKeys : BitVec 32) : Option NvmeCtrl :=
  (kvNsInit heap maxNumKeys).map fun ns => {
    world := world
    cap := nvmeCap
    vs := nvmeVs
    intms := 0
    intmc := 0
    cc := 0
    csts := 0
    aqa := 0
    asq := 0
    acq := 0
    sq := fun _ => NvmeSq.zero
    cq := fun _ => NvmeCq.zero
    msixRegion := fun _ => 0
    ns := ns }

def nvmeRegCap : ℕ := 0x00
def nvmeRegVs : ℕ := 0x08
def nvmeRegIntms : ℕ := 0x0c
def nvmeRegIntmc : ℕ := 0x10
def nvmeRegCc : ℕ := 0x14
def nvmeRegCsts : ℕ := 0x1c
def nvmeRegAqa : ℕ := 0x24
def nvmeRegAsq : ℕ := 0x28
def nvmeRegAcq : ℕ := 0x30
def nvmeRegDoorbell : ℕ := 0x1000

def nvmeCcEn : BitVec 32 := 0x1
def nvmeCcShnMask : BitVec 32 := 0x3#32 <<< 14
def nvmeCstsRdy : BitVec 32 := 0x1
def nvmeCstsShstMask : BitVec 32 := 0x3#32 <<< 2
def nvmeCstsShstComplete : BitVec 32 := 0x2#32 <<< 2

def ccEn (cc : BitVec 32) : Bool := cc &&& nvmeCcEn != 0

def ccShn (cc : BitVec 32) : BitVec 32 := cc &&& nvmeCcShnMask

def cstsRdy (csts : BitVec 32) : Bool := csts &&& nvmeCstsRdy != 0

def cstsShst (csts : BitVec 32) : BitVec 32 := csts &&& nvmeCstsShstMask

def nvmeEnable (n : NvmeCtrl) : NvmeCtrl :=
  let asq : NvmeSq := { NvmeSq.zero with
    dma := n.asq
    size := (n.aqa &&& 0xfff) + 1
    enabled := true }
  let acq : NvmeCq := { NvmeCq.zero with
    dma := n.acq
    size := ((n.aqa >>> 16) &&& 0xfff) + 1
    phase := 1
    enabled := true }
  (({ n with csts := nvmeCstsRdy }.setSq 0 asq).setCq 0 acq).log (.sqInit 0 0)
    |>.log (.cqInit 0 acq.size.toNat)

def nvmeQueuesDown (n : NvmeCtrl) : NvmeCtrl :=
  { n with
    sq := fun i => { n.sq i with enabled := false }
    cq := fun i => { n.cq i with enabled := false } }

def nvmeDisable (n : NvmeCtrl) : NvmeCtrl :=
  { nvmeQueuesDown n with csts := n.csts &&& ~~~(nvmeCstsRdy ||| nvmeCstsShstMask) }

def nvmeCtrlReset (n : NvmeCtrl) : NvmeCtrl :=
  { nvmeDisable n with cc := 0, csts := 0, aqa := 0, asq := 0, acq := 0, intms := 0, intmc := 0 }

/-- Bytes to a number; the shift by `8 * i` is undefined from byte 8 on. -/
def rdLe (b : List Byte) : Option (BitVec 64) :=
  if b.length ≤ 8 then some (BitVec.ofNat 64 (leNat b)) else none

def wrLe (n : ℕ) (v : BitVec 64) : List Byte := leBytes n v.toNat

/-- The register image that `nvme_reg_read` builds. -/
def nvmeRegs (n : NvmeCtrl) : Buffer 0x40 :=
  let regs : Buffer 0x40 := fun _ => 0
  let regs := regs.copy nvmeRegCap (wrLe 8 n.cap)
  let regs := regs.copy nvmeRegVs (wrLe 4 (n.vs.setWidth 64))
  let regs := regs.copy nvmeRegIntms (wrLe 4 (n.intms.setWidth 64))
  let regs := regs.copy nvmeRegIntmc (wrLe 4 (n.intmc.setWidth 64))
  let regs := regs.copy nvmeRegCc (wrLe 4 (n.cc.setWidth 64))
  let regs := regs.copy nvmeRegCsts (wrLe 4 (n.csts.setWidth 64))
  let regs := regs.copy nvmeRegAqa (wrLe 4 (n.aqa.setWidth 64))
  let regs := regs.copy nvmeRegAsq (wrLe 8 n.asq)
  regs.copy nvmeRegAcq (wrLe 8 n.acq)

def nvmeRegRead (n : NvmeCtrl) (offset count : ℕ) : List Byte :=
  if offset + count ≤ 0x40 then ((nvmeRegs n).bytes.drop offset).take count
  else List.replicate count 0

/-- The first half of a CC write: EN transitions. -/
def nvmeCcEnable (n : NvmeCtrl) (old : BitVec 32) : NvmeCtrl :=
  if ccEn n.cc && !ccEn old then nvmeEnable n
  else if !ccEn n.cc && ccEn old then nvmeDisable n
  else n

/-- The second half of a CC write: SHN transitions. -/
def nvmeCcShutdown (n : NvmeCtrl) (old : BitVec 32) : NvmeCtrl :=
  if ccShn n.cc != 0 && ccShn old == 0 then
    { nvmeQueuesDown n with csts := (n.csts &&& ~~~nvmeCstsShstMask) ||| nvmeCstsShstComplete }
  else if ccShn n.cc == 0 && ccShn old != 0 then
    { n with csts := n.csts &&& ~~~nvmeCstsShstMask }
  else n

/-- The CC case of `nvme_reg_write`. -/
def nvmeCcWrite (n : NvmeCtrl) (v : BitVec 32) : NvmeCtrl :=
  nvmeCcShutdown (nvmeCcEnable { n with cc := v } n.cc) n.cc

def writeLow (reg v : BitVec 64) (count : ℕ) : BitVec 64 :=
  if count = 8 then v else (reg &&& ~~~0xffffffff#64) ||| (v &&& 0xffffffff#64)

def writeHigh (reg v : BitVec 64) : BitVec 64 :=
  (reg &&& 0xffffffff#64) ||| ((v &&& 0xffffffff#64) <<< 32)

/-- The switch of `nvme_reg_write`, at the value that was read from the buffer. -/
def nvmeRegStore (n : NvmeCtrl) (offset : ℕ) (v : BitVec 64) (count : ℕ) : NvmeCtrl :=
  if offset = nvmeRegIntms then { n with intms := v.setWidth 32 }
  else if offset = nvmeRegIntmc then { n with intmc := v.setWidth 32 }
  else if offset = nvmeRegCc then nvmeCcWrite n (v.setWidth 32)
  else if offset = nvmeRegAqa then { n with aqa := v.setWidth 32 }
  else if offset = nvmeRegAsq then { n with asq := writeLow n.asq v count }
  else if offset = nvmeRegAsq + 4 then { n with asq := writeHigh n.asq v }
  else if offset = nvmeRegAcq then { n with acq := writeLow n.acq v count }
  else if offset = nvmeRegAcq + 4 then { n with acq := writeHigh n.acq v }
  else n

def nvmeRegWrite (n : NvmeCtrl) (offset : ℕ) (buf : List Byte) : Option NvmeCtrl :=
  (rdLe buf).map fun v => nvmeRegStore n offset v buf.length

/-- Access to the MSI-X table and PBA: whether it is in range, the controller and the buffer. -/
def nvmeMsixAccess (n : NvmeCtrl) (buf : List Byte) (offset : ℕ) (isWrite : Bool) :
    Bool × NvmeCtrl × List Byte :=
  if 4096 < offset + buf.length then (false, n, buf)
  else if isWrite then (true, { n with msixRegion := n.msixRegion.copy offset buf }, buf)
  else (true, n, (n.msixRegion.bytes.drop offset).take buf.length)

end VfuKvssd
