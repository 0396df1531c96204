import VfuKvssd.Controller.CqOverrun
import VfuKvssd.Foundations.PhaseRing

/-! # A host on the other side of the queues

The host submits by moving SQ tails over entries in its memory, polls each CQ
with a slot and an expected phase, and releases what it has read through the CQ
head doorbell. `FollowsRules` states the ring rules, most of them as conditions
on every moment of a run. A queue is observed from its creation on.
-/
namespace VfuKvssd
open Foundations

/-! ## What the log says about a queue -/

/-- Entries of a submission queue that were executed. -/
def executedNext (q : QueueId) (l : List NvmeSqe) : Event → List NvmeSqe
  | .sqInit q' _ => if q' = q then [] else l
  | .command q' _ sqe _ _ => if q' = q then l ++ [sqe] else l
  | _ => l

def executed (q : QueueId) (es : List Event) : List NvmeSqe := es.foldl (executedNext q) []

/-- An executed command that is owed a completion. -/
structure Due where
  qid : QueueId
  sqe : NvmeSqe
  cdw0 : BitVec 32
  status : Status

/-- Commands executed for a completion queue, other than Asynchronous Event Requests. -/
def dueNext (c : QueueId) (l : List Due) : Event → List Due
  | .cqInit c' _ => if c' = c then [] else l
  | .command q cqid sqe cdw0 st =>
    if cqid.toNat = c.val ∧ ¬ (q = 0 ∧ sqe.opcode = nvmeAdmAsyncEvent) then
      l ++ [⟨q, sqe, cdw0, st⟩]
    else l
  | _ => l

def due (c : QueueId) (es : List Event) : List Due := es.foldl (dueNext c) []

/-- Completions posted to a completion queue. -/
def postsNext (c : QueueId) (l : List NvmeCqe) : Event → List NvmeCqe
  | .cqInit c' _ => if c' = c then [] else l
  | .posted c' _ cqe => if c' = c then l ++ [cqe] else l
  | _ => l

def posts (c : QueueId) (es : List Event) : List NvmeCqe := es.foldl (postsNext c) []

/-- The completion of a command: its queue, identifier, dword 0 and fifteen status bits. -/
structure Answers (cqe : NvmeCqe) (x : Due) : Prop where
  sqId : cqe.sqId = BitVec.ofNat 16 x.qid.val
  cid : cqe.cid = x.sqe.cid
  cdw0 : cqe.cdw0 = x.cdw0
  status : cqe.status >>> 1 = x.status &&& 0x7fff

/-! ## Rings in guest memory -/

def NvmeCqe.ofBytes (bs : List Byte) : NvmeCqe where
  cdw0 := BitVec.ofNat 32 (leNat (bs.take 4))
  sqHead := BitVec.ofNat 16 (leNat ((bs.drop 8).take 2))
  sqId := BitVec.ofNat 16 (leNat ((bs.drop 10).take 2))
  cid := BitVec.ofNat 16 (leNat ((bs.drop 12).take 2))
  status := BitVec.ofNat 16 (leNat ((bs.drop 14).take 2))

def NvmeCqe.tag (cqe : NvmeCqe) : Bool := cqe.status.getLsbD 0

def NvmeSq.ring (sq : NvmeSq) : List Addr := span sq.dma (64 * sq.size.toNat)

def NvmeCq.ring (cq : NvmeCq) : List Addr := span cq.dma (16 * cq.size.toNat)

def NvmeSq.entry (sq : NvmeSq) (mem : Memory) (j : ℕ) : NvmeSqe :=
  ⟨Buffer.ofBytes ((slotSpan sq.dma 64 j).map mem)⟩

def NvmeCq.entry (cq : NvmeCq) (mem : Memory) (j : ℕ) : NvmeCqe :=
  .ofBytes ((slotSpan cq.dma 16 j).map mem)

/-- The `k` entries of a submission queue from slot `j` on. -/
def NvmeSq.entries (sq : NvmeSq) (mem : Memory) : ℕ → ℕ → List NvmeSqe
  | _, 0 => []
  | j, k + 1 => sq.entry mem j :: sq.entries mem ((j + 1) % sq.size.toNat) k

def NvmeSq.between (sq : NvmeSq) (mem : Memory) (a b : BitVec 16) : List NvmeSqe :=
  sq.entries mem a.toNat (ringDist sq.size.toNat a.toNat b.toNat)

/-- Entries submitted and not yet fetched. -/
def NvmeCtrl.pending (n : NvmeCtrl) (q : QueueId) : List NvmeSqe :=
  (n.sq q).between n.world.mem (n.sq q).head (n.sq q).tail

/-! ## The host -/

/-- The host's side of a completion queue: where it polls, what it has read, and how many of these
entries it has released. -/
structure CqReader where
  cursor : Cursor
  received : List NvmeCqe
  released : ℕ

def CqReader.fresh : CqReader := ⟨⟨0, true⟩, [], 0⟩

/-- Read the entry at the cursor if it carries the expected phase. -/
def CqReader.poll (r : CqReader) (cq : NvmeCq) (mem : Memory) : CqReader :=
  let cqe := cq.entry mem r.cursor.head
  if cqe.tag = r.cursor.phase then
    { r with cursor := r.cursor.next cq.size.toNat, received := r.received ++ [cqe] }
  else r

/-- A created queue is read from its start; a head doorbell releases up to the slot it names. -/
def readerNext (c : QueueId) (size : ℕ) (r : CqReader) : Event → CqReader
  | .cqInit c' _ => if c' = c then .fresh else r
  | .cqHead c' v =>
    if c' = c then { r with released := r.released + ringDist size (r.released % size) v.toNat }
    else r
  | _ => r

/-- The host's side of a submission queue: its own tail, and what it has submitted. -/
structure SqWriter where
  tail : BitVec 16
  submitted : List NvmeSqe

def SqWriter.fresh : SqWriter := ⟨0, []⟩

/-- A tail doorbell write submits the entries from the host's tail up to the value written. -/
def SqWriter.ring (w : SqWriter) (sq : NvmeSq) (mem : Memory) : Option (BitVec 16) → SqWriter
  | some tail => ⟨tail, w.submitted ++ sq.between mem w.tail tail⟩
  | none => w

/-- A created queue starts with nothing submitted. -/
def writerNext (q : QueueId) (w : SqWriter) : Event → SqWriter
  | .sqInit q' _ => if q' = q then .fresh else w
  | _ => w

/-- The value that an access writes to the tail doorbell of a submission queue. -/
def Input.sqTail (q : QueueId) : Input → Option (BitVec 16)
  | .bar0 true offset buf =>
    let idx := (offset - nvmeRegDoorbell) / 4
    if nvmeRegDoorbell ≤ offset ∧ idx / 2 % 2 ^ 16 = q.val ∧ idx % 2 = 0 then
      some (BitVec.ofNat 16 (leNat buf))
    else none
  | _ => none

structure Host where
  writer : QueueId → SqWriter
  reader : QueueId → CqReader

def Host.submitted (h : Host) (q : QueueId) : List NvmeSqe := (h.writer q).submitted

/-- The host after its access to the device, or after a step that the device makes on its own. -/
def Host.after (h : Host) (i : Input) (d d' : Device) : Host where
  writer q := (d.newEvents d').foldl (writerNext q)
    ((h.writer q).ring (d.n.sq q) d.n.world.mem (i.sqTail q))
  reader c := (d.newEvents d').foldl (readerNext c (d.n.cq c).size.toNat) (h.reader c)

structure System where
  d : Device
  host : Host

inductive Action
  | device (i : Input)
  | poll (c : QueueId)

namespace System

def step (s : System) : Action → Option System
  | .device i => (s.d.step i).map fun d' => ⟨d', s.host.after i s.d d'⟩
  | .poll c => some ⟨s.d, { s.host with
      reader := Function.update s.host.reader c
        ((s.host.reader c).poll (s.d.n.cq c) s.d.n.world.mem) }⟩

structure Initial (maxNumKeys : BitVec 32) (s : System) : Prop where
  device : s.d.Initial maxNumKeys
  host : s.host = ⟨fun _ => .fresh, fun _ => .fresh⟩

end System

/-! ## The ring rules -/

/-- Completion rings share no address with other completion rings or with submission rings. -/
def NvmeCtrl.RingsApart (n : NvmeCtrl) : Prop :=
  ∀ c, (n.cq c).enabled = true →
    (∀ b, (n.cq b).enabled = true → b ≠ c → (n.cq b).ring.Disjoint (n.cq c).ring) ∧
    ∀ q, (n.sq q).enabled = true → (n.sq q).ring.Disjoint (n.cq c).ring

/-- Every slot of every ring can be mapped for its transfer. -/
def NvmeCtrl.RingsReachable (n : NvmeCtrl) : Prop :=
  (∀ q, (n.sq q).enabled = true → ∀ j < (n.sq q).size.toNat,
    n.world.vfu.reaches ((n.sq q).dma + BitVec.ofNat 64 (64 * j)) 64 .read = true) ∧
  ∀ c, (n.cq c).enabled = true → ∀ j < (n.cq c).size.toNat,
    n.world.vfu.reaches ((n.cq c).dma + BitVec.ofNat 64 (16 * j)) 16 .write = true

/-- Completion queues stay below 2^16 entries, which is far above MQES. -/
def NvmeCtrl.SizesInRange (n : NvmeCtrl) : Prop :=
  ∀ c, (n.cq c).enabled = true → (n.cq c).size.toNat < 2 ^ 16

/-- Only completions that were read are released, and fewer are unreleased than the queue holds. -/
def System.Released (s : System) : Prop :=
  ∀ c, (s.d.n.cq c).enabled = true →
    (s.host.reader c).released ≤ (s.host.reader c).received.length ∧
    (posts c s.d.n.world.trace).length < (s.host.reader c).released + (s.d.n.cq c).size.toNat

/-- The rules that hold at every moment. -/
def System.InOrder (s : System) : Prop :=
  s.d.n.TailsInRange ∧ s.d.n.SizesInRange ∧ s.d.n.RingsApart ∧ s.d.n.RingsReachable ∧ s.Released

/-- A completion queue is created over zeroed memory. -/
def ZeroedCqs (d d' : Device) : Prop :=
  ∀ e ∈ d.newEvents d', match e with
    | .cqInit c _ => ∀ a ∈ (d'.n.cq c).ring, d.n.world.mem a = 0
    | _ => True

/-- The host writes neither completion rings nor entries that are still pending; transfers of ring
entries are allocated, data buffers lie outside the rings, and no completion queue is deleted under
a submission queue. -/
def KeepsRings (d d' : Device) : Input → Prop
  | .hostMemory mem =>
    (∀ c, (d.n.cq c).enabled = true → ∀ a ∈ (d.n.cq c).ring, mem a = d.n.world.mem a) ∧
    ∀ q, (d.n.sq q).enabled = true → d'.n.pending q = d.n.pending q
  | .iterate heap =>
    heap .sqeSgl = true ∧ heap .cqeSgl = true ∧ deletesUsedCq d (.iterate heap) = false ∧
    ∀ q, d.busy = some q → ∀ a ∈ dataBuffer q (d.n.headEntry q),
      (∀ c, (d'.n.cq c).enabled = true → a ∉ (d'.n.cq c).ring) ∧
      ∀ p, (d'.n.sq p).enabled = true → a ∉ (d'.n.sq p).ring
  | _ => True

def FollowsRules (s : System) : Action → Prop
  | .device i => ∀ d', s.d.step i = some d' →
      ZeroedCqs s.d d' ∧ KeepsRings s.d d' i ∧ System.InOrder ⟨d', s.host.after i s.d d'⟩
  | .poll c => (s.d.n.cq c).enabled = true

/-! ## The rules can be checked -/

/-- The check of `RingsApart` by the bounds of the rings. -/
def NvmeCtrl.ringsApart (n : NvmeCtrl) : Bool :=
  decide (∀ c, (n.cq c).enabled = true →
    (∀ b, (n.cq b).enabled = true → b ≠ c → spansApart (n.cq b).dma (16 * (n.cq b).size.toNat)
      (n.cq c).dma (16 * (n.cq c).size.toNat) = true) ∧
    ∀ q, (n.sq q).enabled = true → spansApart (n.sq q).dma (64 * (n.sq q).size.toNat)
      (n.cq c).dma (16 * (n.cq c).size.toNat) = true)

theorem NvmeCtrl.ringsApart_sound {n : NvmeCtrl} (h : n.ringsApart = true) : n.RingsApart := by
  intro c hc
  obtain ⟨hcq, hsq⟩ := of_decide_eq_true h c hc
  exact ⟨fun b hb hne => span_disjoint (hcq b hb hne), fun q hq => span_disjoint (hsq q hq)⟩

instance (n : NvmeCtrl) : Decidable n.RingsReachable :=
  inferInstanceAs (Decidable ((∀ _, _) ∧ ∀ _, _))

instance (n : NvmeCtrl) : Decidable n.SizesInRange := inferInstanceAs (Decidable (∀ _, _))

instance (s : System) : Decidable s.Released := inferInstanceAs (Decidable (∀ _, _))

def System.inOrder (s : System) : Bool :=
  s.d.n.ringsApart &&
    decide (s.d.n.TailsInRange ∧ s.d.n.SizesInRange ∧ s.d.n.RingsReachable ∧ s.Released)

theorem System.inOrder_sound {s : System} (h : s.inOrder = true) : s.InOrder := by
  rw [inOrder, Bool.and_eq_true, decide_eq_true_eq] at h
  obtain ⟨hapart, htails, hsizes, hreach, hrel⟩ := h
  exact ⟨htails, hsizes, NvmeCtrl.ringsApart_sound hapart, hreach, hrel⟩

def zeroedCq (d d' : Device) : Event → Bool
  | .cqInit c _ => (d'.n.cq c).ring.all fun a => d.n.world.mem a == 0
  | _ => true

theorem zeroedCqs_of_all {d d' : Device} (h : (d.newEvents d').all (zeroedCq d d') = true) :
    ZeroedCqs d d' := by
  intro e he
  have hz := List.all_eq_true.mp h e he
  cases e with
  | cqInit c size => simpa [zeroedCq] using hz
  | _ => trivial

instance (d d' : Device) (i : Input) : Decidable (KeepsRings d d' i) :=
  match i with
  | .hostMemory _ => inferInstanceAs (Decidable ((∀ _, _) ∧ ∀ _, _))
  | .iterate _ => inferInstanceAs (Decidable (_ ∧ _ ∧ _ ∧ ∀ _, _ → ∀ _ ∈ _, _))
  | .bar0 .. | .msix .. | .reset | .dmaRegions _ => .isTrue trivial

def followsRules (s : System) : Action → Bool
  | .device i =>
    match s.d.step i with
    | none => true
    | some d' => (s.d.newEvents d').all (zeroedCq s.d d') && decide (KeepsRings s.d d' i) &&
        System.inOrder ⟨d', s.host.after i s.d d'⟩
  | .poll c => (s.d.n.cq c).enabled

theorem followsRules_sound {s : System} {a : Action} (h : followsRules s a = true) :
    FollowsRules s a := by
  cases a with
  | poll c => exact h
  | device i =>
    intro d' hs
    simp only [followsRules, hs, Bool.and_eq_true, decide_eq_true_eq] at h
    exact ⟨zeroedCqs_of_all h.1.1, h.1.2, System.inOrder_sound h.2⟩

end VfuKvssd
