import VfuKvssd.KeyValue.Commands

/-! # The controller's surroundings: libvfio-user, guest memory and the event log

`Vfu` is what the controller uses of libvfio-user's DMA API, with the behaviour
it documents. The log records what the controller does in order; nothing in the
controller reads it.
-/
namespace VfuKvssd
open Foundations

/-- Number of queues, the admin queue at index 0 included. -/
abbrev nvmeMaxQueues : ℕ := 64

instance : NeZero nvmeMaxQueues := ⟨by decide⟩

/-- Index of a queue in the `sq` and `cq` arrays. -/
abbrev QueueId := Fin nvmeMaxQueues

/-- 16-byte completion queue entry. `status` holds the phase tag in bit 0. -/
structure NvmeCqe where
  cdw0 : BitVec 32
  sqHead : BitVec 16
  sqId : BitVec 16
  cid : BitVec 16
  status : BitVec 16
deriving DecidableEq

def NvmeCqe.toBytes (c : NvmeCqe) : List Byte :=
  leBytes 4 c.cdw0.toNat ++ leBytes 4 0 ++ leBytes 2 c.sqHead.toNat ++ leBytes 2 c.sqId.toNat ++
    leBytes 2 c.cid.toNat ++ leBytes 2 c.status.toNat

@[simp] theorem NvmeCqe.toBytes_length (c : NvmeCqe) : c.toBytes.length = 16 := by
  simp [toBytes]

inductive Prot
  | read
  | write
deriving DecidableEq

/-- A scatter-gather entry: a range of guest addresses. Its local mapping is that range of guest
memory. -/
structure Sg where
  base : Addr
  len : ℕ

def Sg.addrs (s : Sg) : List Addr := span s.base s.len

/-- `vfu_addr_to_sgl` (`none` stands for a result that is not positive) and `vfu_sgl_get`
(`true` stands for 0). A positive result gives that many entries, at most the limit passed,
and they cover the requested range in order. -/
structure Vfu where
  addrToSgl : Addr → ℕ → ℕ → Prot → Option (List Sg)
  sglGet : List Sg → Bool
  ne_nil : ∀ {a n maxSg prot sgl}, addrToSgl a n maxSg prot = some sgl → sgl ≠ []
  length_le : ∀ {a n maxSg prot sgl}, addrToSgl a n maxSg prot = some sgl → sgl.length ≤ maxSg
  covers : ∀ {a n maxSg prot sgl}, addrToSgl a n maxSg prot = some sgl →
    sgl.flatMap Sg.addrs = span a n

/-- Everything mapped by one region. -/
def Vfu.flat : Vfu where
  addrToSgl a n maxSg _ := if 0 < maxSg then some [⟨a, n⟩] else none
  sglGet _ := true
  ne_nil h := by
    split at h
    · rw [← Option.some.inj h]
      exact List.cons_ne_nil _ _
    · cases h
  length_le h := by
    split at h
    · rw [← Option.some.inj h]
      simpa
    · cases h
  covers h := by
    split at h
    · rw [← Option.some.inj h]
      simp [Sg.addrs]
    · cases h

def Vfu.unmapped : Vfu where
  addrToSgl _ _ _ _ := none
  sglGet _ := true
  ne_nil h := by cases h
  length_le h := by cases h
  covers h := by cases h

/-- What the controller does, as seen from outside it. -/
inductive Event
  /-- guest memory read through a local mapping -/
  | dmaRead (a : Addr) (n : ℕ)
  /-- guest memory written through a local mapping -/
  | dmaWrite (a : Addr) (bytes : List Byte)
  /-- `vfu_irq_trigger` -/
  | irq (vector : ℤ)
  /-- outcome of `kvdma_h2c` and the bytes it leaves in the destination -/
  | h2c (ok : Bool) (bytes : List Byte)
  /-- outcome of `kvdma_c2h` and the bytes it is handed -/
  | c2h (ok : Bool) (bytes : List Byte)
  /-- a completion queue (re)initialised by Create I/O CQ or by enabling the controller -/
  | cqInit (qid : QueueId) (size : ℕ)
  /-- a submission queue (re)initialised by Create I/O SQ or by enabling the controller -/
  | sqInit (qid : QueueId) (cqid : BitVec 16)
  /-- CQ head doorbell -/
  | cqHead (qid : QueueId) (value : BitVec 16)
  /-- a consumed command, with dword 0 and the status it ends with -/
  | command (qid : QueueId) (cqid : BitVec 16) (sqe : NvmeSqe) (cdw0 : BitVec 32) (status : Status)
  /-- a completion posted to a slot of an enabled completion queue -/
  | posted (cqid : QueueId) (slot : BitVec 16) (cqe : NvmeCqe)
  /-- bytes returned by a BAR read -/
  | reply (bytes : List Byte)

def Event.reads : Event → List Addr
  | .dmaRead a n => span a n
  | _ => []

def Event.writes : Event → List Addr
  | .dmaWrite a bytes => span a bytes.length
  | _ => []

structure World where
  vfu : Vfu
  mem : Memory
  trace : List Event

def World.log (w : World) (e : Event) : World := { w with trace := w.trace ++ [e] }

@[simp] theorem World.log_vfu (w : World) (e : Event) : (w.log e).vfu = w.vfu := rfl
@[simp] theorem World.log_mem (w : World) (e : Event) : (w.log e).mem = w.mem := rfl
@[simp] theorem World.log_trace (w : World) (e : Event) : (w.log e).trace = w.trace ++ [e] := rfl

/-- `memcpy` out of a local mapping. -/
def World.dmaRead (w : World) (a : Addr) (n : ℕ) : List Byte × World :=
  ((span a n).map w.mem, w.log (.dmaRead a n))

/-- `memcpy` into a local mapping. -/
def World.dmaWrite (w : World) (a : Addr) (bytes : List Byte) : World :=
  { w with mem := writeAll w.mem (span a bytes.length) bytes }.log (.dmaWrite a bytes)

end VfuKvssd
