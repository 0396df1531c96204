import VfuKvssd.Controller.Admin
import VfuKvssd.Foundations.Runs

/-! # The queue engine and the device

`Device` adds the submission queue whose doorbell is being served. One iteration
of the loop in `nvme_process_sq` is one step, so that the host may change guest
memory between iterations; the other callbacks run to completion, and
libvfio-user starts them only when no doorbell is being served. `none` is a step
that is not enabled or that C leaves undefined.
-/
namespace VfuKvssd
open Foundations

def cqeFor (cq : NvmeCq) (sqid sqHead cid : BitVec 16) (cdw0 : BitVec 32) (status : Status) :
    NvmeCqe where
  cdw0 := cdw0
  sqHead := sqHead
  sqId := sqid
  cid := cid
  status := (status <<< 1) ||| (cq.phase &&& 1).setWidth 16

def NvmeCq.slotAddr (cq : NvmeCq) (slot : BitVec 16) : Addr := cq.dma + slot.setWidth 64 * 16

def NvmeSq.slotAddr (sq : NvmeSq) (slot : BitVec 16) : Addr := sq.dma + slot.setWidth 64 * 64

def NvmeSq.nextHead (sq : NvmeSq) : BitVec 16 :=
  BitVec.ofNat 16 ((sq.head.toNat + 1) % sq.size.toNat)

def NvmeCq.advance (cq : NvmeCq) : NvmeCq :=
  if (cq.tail + 1).setWidth 32 = cq.size then { cq with tail := 0, phase := cq.phase ^^^ 1 }
  else { cq with tail := cq.tail + 1 }

/-- `vfu_irq_trigger` when the queue has a vector. -/
def NvmeCtrl.raise (n : NvmeCtrl) (irq : ℤ) : NvmeCtrl := if 0 ≤ irq then n.log (.irq irq) else n

/-- Post to the queue at an index: the write may fail and its result is not looked at. -/
def nvmePostTo (n : NvmeCtrl) (heap : Heap) (c : QueueId) (cqe : NvmeCqe) : NvmeCtrl :=
  let cq := n.cq c
  match nvmeGpaXfer n.world (heap .cqeSgl) (cq.slotAddr cq.tail) cqe.toBytes true with
  | (_, _, w) =>
    (((n.withWorld w).log (.posted c cq.tail cqe)).setCq c cq.advance).raise cq.irq

def nvmePostCqe (n : NvmeCtrl) (heap : Heap) (cqid sqid sqHead cid : BitVec 16) (cdw0 : BitVec 32)
    (status : Status) : Option NvmeCtrl :=
  if h : cqid.toNat < nvmeMaxQueues then
    let c : QueueId := ⟨cqid.toNat, h⟩
    if (n.cq c).enabled then
      some (nvmePostTo n heap c (cqeFor (n.cq c) sqid sqHead cid cdw0 status))
    else some n
  else none

/-! ## KV I/O -/

def kvdmaH2c (heap : Heap) (w : World) (cmd : NvmeKVCmd) (dst : List Byte) :
    Bool × List Byte × World :=
  match nvmePrpXfer w (heap .dataSgl) cmd.prp1 cmd.prp2 dst false with
  | (ok, dst, w) => (ok, dst, w.log (.h2c ok dst))

def kvdmaC2h (heap : Heap) (w : World) (cmd : NvmeKVCmd) (src : List Byte) : Bool × World :=
  match nvmePrpXfer w (heap .dataSgl) cmd.prp1 cmd.prp2 src true with
  | (ok, _, w) => (ok, w.log (.c2h ok src))

def kvdma (heap : Heap) : KvDma World := ⟨kvdmaH2c heap, kvdmaC2h heap⟩

@[simp] theorem kvdma_h2c (heap : Heap) : (kvdma heap).h2c = kvdmaH2c heap := rfl
@[simp] theorem kvdma_c2h (heap : Heap) : (kvdma heap).c2h = kvdmaC2h heap := rfl

def kvOpOf (opcode : Byte) : Option KvOp :=
  if opcode = nvmeCmdKvStore then some .store
  else if opcode = nvmeCmdKvRetrieve then some .retrieve
  else if opcode = nvmeCmdKvDelete then some .delete
  else if opcode = nvmeCmdKvExist then some .exist
  else if opcode = nvmeCmdKvList then some .list
  else none

def nvmeIoKv (n : NvmeCtrl) (heap : Heap) (sqe : NvmeSqe) : Option (Status × NvmeCtrl) :=
  let cmd := NvmeKVCmd.ofSqe sqe
  match kvOpOf cmd.opcode with
  | none => some (nvmeInvalidOpcode ||| nvmeDnr, n)
  | some op =>
    (kvHandle op n.ns cmd (kvdma heap) n.world heap).map fun r =>
      (r.1, { n.withWorld r.2.2 with ns := r.2.1 })

/-! ## The loop of `nvme_process_sq` -/

/-- Run a fetched command: status, dword 0 and controller. -/
def nvmeExecute (n : NvmeCtrl) (heap : Heap) (q : QueueId) (sqe : NvmeSqe) :
    Option (Status × BitVec 32 × NvmeCtrl) :=
  if q = 0 then some (nvmeAdminCmd n heap sqe)
  else (nvmeIoKv n heap sqe).map fun r => (r.1, 0, r.2)

/-- The rest of an iteration, once the entry is in hand. -/
def nvmeConsume (n : NvmeCtrl) (heap : Heap) (q : QueueId) (sqe : NvmeSqe) : Option NvmeCtrl :=
  let sq := n.sq q
  -- the modulus is the queue's own size
  if sq.size = 0 then none
  else
    match nvmeExecute (n.setSq q { sq with head := sq.nextHead }) heap q sqe with
    | none => none
    | some (status, cdw0, n) =>
      let n := n.log (.command q (n.sq q).cqid sqe cdw0 status)
      if status = nvmeNoComplete then some n
      else nvmePostCqe n heap (n.sq q).cqid (BitVec.ofNat 16 q.val) (n.sq q).head sqe.cid cdw0 status

/-- One iteration, and whether the loop goes on. -/
def nvmeProcessSqStep (n : NvmeCtrl) (heap : Heap) (q : QueueId) : Option (NvmeCtrl × Bool) :=
  let sq := n.sq q
  if sq.head = sq.tail then some (n, false)
  else
    match nvmeGpaXfer n.world (heap .sqeSgl) (sq.slotAddr sq.head) (List.replicate 64 0) false with
    | (false, _, w) => some (n.withWorld w, false)
    | (true, bytes, w) =>
      (nvmeConsume (n.withWorld w) heap q ⟨Buffer.ofBytes bytes⟩).map fun n => (n, true)

/-- Controller, buffer and the submission queue that the access starts to process. -/
def nvmeBar0Access (n : NvmeCtrl) (buf : List Byte) (offset : ℕ) (isWrite : Bool) :
    Option (NvmeCtrl × List Byte × Option QueueId) :=
  if nvmeRegDoorbell ≤ offset then
    if isWrite then
      match rdLe buf with
      | none => none
      | some v =>
        let val : BitVec 16 := v.setWidth 16
        let idx := (offset - nvmeRegDoorbell) / 4
        let qid := idx / 2 % 2 ^ 16
        if h : qid < nvmeMaxQueues then
          let q : QueueId := ⟨qid, h⟩
          if idx % 2 = 1 then
            some ((n.setCq q { n.cq q with head := val }).log (.cqHead q val), buf, none)
          else
            let n := n.setSq q { n.sq q with tail := val }
            some (n, buf, if (n.sq q).enabled then some q else none)
        else some (n, buf, none)
    else some (n, List.replicate buf.length 0, none)
  else if isWrite then (nvmeRegWrite n offset buf).map fun n => (n, buf, none)
  else some (n, nvmeRegRead n offset buf.length, none)

/-! ## The device -/

structure Device where
  n : NvmeCtrl
  /-- the submission queue that `nvme_process_sq` is draining -/
  busy : Option QueueId

inductive Input
  | bar0 (isWrite : Bool) (offset : ℕ) (buf : List Byte)
  | msix (isWrite : Bool) (offset : ℕ) (buf : List Byte)
  | reset
  /-- the next iteration of the loop that is running -/
  | iterate (heap : Heap)
  /-- the guest changes its memory -/
  | hostMemory (mem : Memory)
  /-- the guest changes its DMA mappings -/
  | dmaRegions (vfu : Vfu)

/-- What a read access returns to the guest. -/
def NvmeCtrl.reply (n : NvmeCtrl) (isWrite : Bool) (buf : List Byte) : NvmeCtrl :=
  if isWrite then n else n.log (.reply buf)

namespace Device

def step (d : Device) : Input → Option Device
  | .bar0 isWrite offset buf =>
    match d.busy with
    | some _ => none
    | none =>
      (nvmeBar0Access d.n buf offset isWrite).map fun r => ⟨r.1.reply isWrite r.2.1, r.2.2⟩
  | .msix isWrite offset buf =>
    match d.busy with
    | some _ => none
    | none =>
      -- an access out of range fails, and libvfio-user sends no data back
      let r := nvmeMsixAccess d.n buf offset isWrite
      some ⟨if r.1 then r.2.1.reply isWrite r.2.2 else r.2.1, none⟩
  | .reset =>
    match d.busy with
    | some _ => none
    | none => some ⟨nvmeCtrlReset d.n, none⟩
  | .iterate heap =>
    match d.busy with
    | none => none
    | some q =>
      (nvmeProcessSqStep d.n heap q).map fun r => ⟨r.1, if r.2 then some q else none⟩
  | .hostMemory mem => some { d with n := d.n.withWorld { d.n.world with mem := mem } }
  | .dmaRegions vfu => some { d with n := d.n.withWorld { d.n.world with vfu := vfu } }

/-- The device as `nvme_ctrl_init` leaves it. -/
structure Initial (maxNumKeys : BitVec 32) (d : Device) : Prop where
  init : ∃ heap world, nvmeCtrlInit heap world maxNumKeys = some d.n ∧ world.trace = []
  idle : d.busy = none

def Reachable (maxNumKeys : BitVec 32) (d : Device) : Prop :=
  ∃ d₀, Initial maxNumKeys d₀ ∧ Reaches step (fun _ _ => True) d₀ d

end Device

/-! ## Concrete runs -/

def regWrite (offset : ℕ) (v : ℕ) : Input := .bar0 true offset (leBytes 4 v)

/-- Admin queues of 16 entries, the submission queue at 0 and the completion queue at 0x10000. -/
def enableAdmin : List Input :=
  [regWrite nvmeRegAqa 0x000f000f, regWrite nvmeRegAcq 0x10000, regWrite nvmeRegCc 1]

def iterations (k : ℕ) : List Input := List.replicate k (.iterate fun _ => true)

/-- Guest memory with the given bytes at the given addresses and zeros elsewhere. -/
def memoryOf (bytes : List (ℕ × ℕ)) : Memory := fun a =>
  BitVec.ofNat 8 ((bytes.lookup a.toNat).getD 0)

/-- A run of checked inputs from a device started over a flat, zeroed guest memory. -/
def bootRun (maxNumKeys : BitVec 32) (ok : Device → Input → Bool) (inputs : List Input) :
    Option Device :=
  (nvmeCtrlInit (fun _ => true) ⟨.flat, fun _ => 0, []⟩ maxNumKeys).bind fun n =>
    execute Device.step ok ⟨n, none⟩ inputs

theorem reaches_of_bootRun {maxNumKeys : BitVec 32} {ok : Device → Input → Bool}
    {C : Device → Input → Prop} {inputs : List Input}
    (hok : ∀ d, ∀ i ∈ inputs, ok d i = true → C d i) {d : Device}
    (h : bootRun maxNumKeys ok inputs = some d) :
    ∃ d₀, Device.Initial maxNumKeys d₀ ∧ Reaches Device.step C d₀ d := by
  obtain ⟨n, hn, hr⟩ := Option.bind_eq_some_iff.mp h
  exact ⟨⟨n, none⟩, ⟨⟨_, _, hn, rfl⟩, rfl⟩, reaches_of_execute hok hr⟩

theorem reachable_of_bootRun {maxNumKeys : BitVec 32} {ok : Device → Input → Bool}
    {inputs : List Input} {d : Device} (h : bootRun maxNumKeys ok inputs = some d) :
    d.Reachable maxNumKeys :=
  reaches_of_bootRun (fun _ _ _ _ => trivial) h

end VfuKvssd
