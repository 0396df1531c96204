import VfuKvssd.Controller.Engine

/-! # What a step of the device can do

`StepCase` lists the outcomes of a device step and `Executed` those of a command,
guards included. Every invariant of the device is proved from these two lists.
-/
namespace VfuKvssd
open Foundations

namespace NvmeCtrl
variable (n : NvmeCtrl) (q : QueueId) (s : NvmeSq) (c : NvmeCq) (e : Event) (w : World)

@[simp] theorem withWorld_sq : (n.withWorld w).sq = n.sq := rfl
@[simp] theorem withWorld_cq : (n.withWorld w).cq = n.cq := rfl
@[simp] theorem withWorld_cc : (n.withWorld w).cc = n.cc := rfl
@[simp] theorem withWorld_csts : (n.withWorld w).csts = n.csts := rfl
@[simp] theorem withWorld_ns : (n.withWorld w).ns = n.ns := rfl
@[simp] theorem withWorld_world : (n.withWorld w).world = w := rfl
@[simp] theorem log_sq : (n.log e).sq = n.sq := rfl
@[simp] theorem log_cq : (n.log e).cq = n.cq := rfl
@[simp] theorem log_cc : (n.log e).cc = n.cc := rfl
@[simp] theorem log_csts : (n.log e).csts = n.csts := rfl
@[simp] theorem log_ns : (n.log e).ns = n.ns := rfl
@[simp] theorem log_world : (n.log e).world = n.world.log e := rfl
@[simp] theorem setSq_sq : (n.setSq q s).sq = Function.update n.sq q s := rfl
@[simp] theorem setSq_cq : (n.setSq q s).cq = n.cq := rfl
@[simp] theorem setSq_cc : (n.setSq q s).cc = n.cc := rfl
@[simp] theorem setSq_csts : (n.setSq q s).csts = n.csts := rfl
@[simp] theorem setSq_ns : (n.setSq q s).ns = n.ns := rfl
@[simp] theorem setSq_world : (n.setSq q s).world = n.world := rfl
@[simp] theorem setCq_cq : (n.setCq q c).cq = Function.update n.cq q c := rfl
@[simp] theorem setCq_sq : (n.setCq q c).sq = n.sq := rfl
@[simp] theorem setCq_cc : (n.setCq q c).cc = n.cc := rfl
@[simp] theorem setCq_csts : (n.setCq q c).csts = n.csts := rfl
@[simp] theorem setCq_ns : (n.setCq q c).ns = n.ns := rfl
@[simp] theorem setCq_world : (n.setCq q c).world = n.world := rfl

end NvmeCtrl

theorem ioQueue_some {qid : BitVec 16} {q : QueueId} (h : ioQueue qid = some q) :
    q ≠ 0 ∧ qid.toNat = q.val := by
  rw [ioQueue] at h
  split at h
  · rename_i hq
    rw [← Option.some.inj h]
    refine ⟨fun hz => hq.1 ?_, rfl⟩
    apply BitVec.eq_of_toNat_eq
    simpa using congrArg Fin.val hz
  · cases h

/-- Everything a consumed command can do. -/
inductive Executed (n : NvmeCtrl) (heap : Heap) (q : QueueId) (sqe : NvmeSqe) :
    Status → BitVec 32 → NvmeCtrl → Prop
  | identify (hq : q = 0) (ho : sqe.opcode = nvmeAdmIdentify) {page : IdPage} {ok : Bool}
      {buf : List Byte} {w : World} {st : Status} (hst : st ≠ nvmeNoComplete)
      (hx : nvmePrpXfer n.world (heap .dataSgl) sqe.prp1 sqe.prp2 page.bytes true = (ok, buf, w)) :
      Executed n heap q sqe st 0 (n.withWorld w)
  | ednek (hq : q = 0) (ho : sqe.opcode = nvmeAdmSetFeatures)
      (hf : sqe.cdw10.setWidth 8 = nvmeFeatKvEdnek) :
      Executed n heap q sqe nvmeSuccess 0 { n with ns := { n.ns with ednek := sqe.cdw11 } }
  | createCq (hq : q = 0) (ho : sqe.opcode = nvmeAdmCreateCq) {c : QueueId}
      (hc : ioQueue sqe.qid = some c) :
      Executed n heap q sqe nvmeSuccess 0
        ((n.setCq c (createdCq sqe)).log (.cqInit c (createdCq sqe).size.toNat))
  | createSq (hq : q = 0) (ho : sqe.opcode = nvmeAdmCreateSq) {s : QueueId}
      (hs : ioQueue sqe.qid = some s) (hl : n.liveCq sqe.target = true) :
      Executed n heap q sqe nvmeSuccess 0 ((n.setSq s (createdSq sqe)).log (.sqInit s sqe.target))
  | deleteCq (hq : q = 0) (ho : sqe.opcode = nvmeAdmDeleteCq) {c : QueueId}
      (hc : ioQueue sqe.qid = some c) :
      Executed n heap q sqe nvmeSuccess 0 (n.setCq c { n.cq c with enabled := false })
  | deleteSq (hq : q = 0) (ho : sqe.opcode = nvmeAdmDeleteSq) {s : QueueId}
      (hs : ioQueue sqe.qid = some s) :
      Executed n heap q sqe nvmeSuccess 0 (n.setSq s { n.sq s with enabled := false })
  | asyncEvent (hq : q = 0) (ho : sqe.opcode = nvmeAdmAsyncEvent) :
      Executed n heap q sqe nvmeNoComplete 0 n
  | noEffect (hq : q = 0) {st : Status} {cdw0 : BitVec 32} (hst : st ≠ nvmeNoComplete)
      (hf : ¬ (sqe.opcode = nvmeAdmSetFeatures ∧ sqe.cdw10.setWidth 8 = nvmeFeatKvEdnek))
      (ha : sqe.opcode ≠ nvmeAdmAsyncEvent) : Executed n heap q sqe st cdw0 n
  | kv (hq : q ≠ 0) {op : KvOp} (ho : kvOpOf sqe.opcode = some op) {st : Status} {ns : KvNs}
      {w : World}
      (hh : kvHandle op n.ns (.ofSqe sqe) (kvdma heap) n.world heap = some (st, ns, w)) :
      Executed n heap q sqe st 0 { n.withWorld w with ns := ns }
  | unsupported (hq : q ≠ 0) (ho : kvOpOf sqe.opcode = none) :
      Executed n heap q sqe (nvmeInvalidOpcode ||| nvmeDnr) 0 n

theorem nvmeSuccess_completes : nvmeSuccess ≠ nvmeNoComplete := by decide
theorem invalidField_completes : nvmeInvalidField ||| nvmeDnr ≠ nvmeNoComplete := by decide
theorem invalidQid_completes : nvmeStatusInvalidQid ||| nvmeDnr ≠ nvmeNoComplete := by decide
theorem invalidOpcode_completes : nvmeInvalidOpcode ||| nvmeDnr ≠ nvmeNoComplete := by decide

section Admin
variable (n : NvmeCtrl) (heap : Heap) {sqe : NvmeSqe}

theorem Executed.noEffect_opcode {op : Byte} (ho : sqe.opcode = op)
    (hop : op ≠ nvmeAdmSetFeatures ∧ op ≠ nvmeAdmAsyncEvent) {st : Status} {cdw0 : BitVec 32}
    (hst : st ≠ nvmeNoComplete) : Executed n heap 0 sqe st cdw0 n :=
  .noEffect rfl hst (fun h => hop.1 (ho.symm.trans h.1)) fun h => hop.2 (ho.symm.trans h)

theorem nvmeAdminIdentify_executed (ho : sqe.opcode = nvmeAdmIdentify) :
    Executed n heap 0 sqe (nvmeAdminIdentify n heap sqe).1 0 (nvmeAdminIdentify n heap sqe).2 := by
  rw [nvmeAdminIdentify]
  split
  · exact .noEffect_opcode n heap ho (by decide) invalidField_completes
  · rename_i page _
    rcases hx : nvmePrpXfer n.world (heap .dataSgl) sqe.prp1 sqe.prp2 page.bytes true with
      ⟨ok, buf, w⟩
    cases ok
    · exact .identify rfl ho invalidField_completes hx
    · exact .identify rfl ho nvmeSuccess_completes hx

theorem nvmeAdminSetFeatures_executed (ho : sqe.opcode = nvmeAdmSetFeatures) :
    Executed n heap 0 sqe (nvmeAdminSetFeatures n sqe).1 (nvmeAdminSetFeatures n sqe).2.1
      (nvmeAdminSetFeatures n sqe).2.2 := by
  simp only [nvmeAdminSetFeatures]
  split_ifs with h₁ h₂
  · refine .noEffect rfl nvmeSuccess_completes (fun h => ?_) (by rw [ho]; decide)
    exact absurd (h₁.symm.trans h.2) (by decide)
  · exact .ednek rfl ho h₂
  · exact .noEffect rfl nvmeSuccess_completes (fun h => h₂ h.2) (by rw [ho]; decide)

theorem nvmeAdminCreateCq_executed (ho : sqe.opcode = nvmeAdmCreateCq) :
    Executed n heap 0 sqe (nvmeAdminCreateCq n sqe).1 0 (nvmeAdminCreateCq n sqe).2 := by
  rw [nvmeAdminCreateCq]
  cases hq : ioQueue sqe.qid with
  | none => exact .noEffect_opcode n heap ho (by decide) invalidQid_completes
  | some q => exact .createCq rfl ho hq

theorem nvmeAdminCreateSq_executed (ho : sqe.opcode = nvmeAdmCreateSq) :
    Executed n heap 0 sqe (nvmeAdminCreateSq n sqe).1 0 (nvmeAdminCreateSq n sqe).2 := by
  rw [nvmeAdminCreateSq]
  cases hq : ioQueue sqe.qid with
  | none => exact .noEffect_opcode n heap ho (by decide) invalidQid_completes
  | some q =>
    dsimp only
    split
    · rename_i hlive
      exact .createSq rfl ho hq hlive
    · exact .noEffect_opcode n heap ho (by decide) invalidQid_completes

theorem nvmeAdminDeleteCq_executed (ho : sqe.opcode = nvmeAdmDeleteCq) :
    Executed n heap 0 sqe (nvmeAdminDeleteCq n sqe).1 0 (nvmeAdminDeleteCq n sqe).2 := by
  rw [nvmeAdminDeleteCq]
  cases hq : ioQueue sqe.qid with
  | none => exact .noEffect_opcode n heap ho (by decide) invalidQid_completes
  | some q => exact .deleteCq rfl ho hq

theorem nvmeAdminDeleteSq_executed (ho : sqe.opcode = nvmeAdmDeleteSq) :
    Executed n heap 0 sqe (nvmeAdminDeleteSq n sqe).1 0 (nvmeAdminDeleteSq n sqe).2 := by
  rw [nvmeAdminDeleteSq]
  cases hq : ioQueue sqe.qid with
  | none => exact .noEffect_opcode n heap ho (by decide) invalidQid_completes
  | some q => exact .deleteSq rfl ho hq

theorem nvmeAdminGetFeatures_status (sqe : NvmeSqe) :
    (nvmeAdminGetFeatures n sqe).1 = nvmeSuccess := by
  simp only [nvmeAdminGetFeatures]
  split_ifs <;> rfl

theorem nvmeAdminCmd_executed (sqe : NvmeSqe) :
    Executed n heap 0 sqe (nvmeAdminCmd n heap sqe).1 (nvmeAdminCmd n heap sqe).2.1
      (nvmeAdminCmd n heap sqe).2.2 := by
  rw [nvmeAdminCmd]
  split_ifs with h₁ h₂ h₃ h₄ h₅ h₆ h₇ h₈ h₉ <;> try dsimp only
  · exact nvmeAdminIdentify_executed n heap h₁
  · exact nvmeAdminSetFeatures_executed n heap h₂
  · refine .noEffect_opcode n heap h₃ (by decide) ?_
    simp only [nvmeAdminGetFeatures_status]
    exact nvmeSuccess_completes
  · exact nvmeAdminCreateCq_executed n heap h₄
  · exact nvmeAdminCreateSq_executed n heap h₅
  · exact nvmeAdminDeleteCq_executed n heap h₆
  · exact nvmeAdminDeleteSq_executed n heap h₇
  · exact .noEffect_opcode n heap h₈ (by decide) nvmeSuccess_completes
  · exact .asyncEvent rfl h₉
  · exact .noEffect rfl invalidOpcode_completes (fun h => h₂ h.1) h₉

end Admin

/-- The list of command outcomes is complete. -/
theorem nvmeExecute_executed {n n' : NvmeCtrl} {heap : Heap} {q : QueueId} {sqe : NvmeSqe}
    {st : Status} {cdw0 : BitVec 32} (h : nvmeExecute n heap q sqe = some (st, cdw0, n')) :
    Executed n heap q sqe st cdw0 n' := by
  rw [nvmeExecute] at h
  split at h
  · rename_i hq
    have he := nvmeAdminCmd_executed n heap sqe
    rw [Option.some.inj h] at he
    exact hq ▸ he
  · rename_i hq
    obtain ⟨⟨st', m⟩, hio, hr⟩ := Option.map_eq_some_iff.mp h
    obtain ⟨rfl, rfl, rfl⟩ : st' = st ∧ 0 = cdw0 ∧ m = n' := by simpa using hr
    simp only [nvmeIoKv] at hio
    split at hio
    · rename_i ho
      obtain ⟨rfl, rfl⟩ := Prod.mk.inj (Option.some.inj hio)
      exact .unsupported hq ho
    · rename_i op ho
      obtain ⟨⟨st, ns, w⟩, hh, hr⟩ := Option.map_eq_some_iff.mp hio
      obtain ⟨rfl, rfl⟩ := Prod.mk.inj hr
      exact .kv hq ho hh

/-- What follows a command: nothing, a completion dropped by a disabled queue, or one posted. -/
inductive Completed (n : NvmeCtrl) (heap : Heap) (q : QueueId) (sqe : NvmeSqe) (cdw0 : BitVec 32)
    (st : Status) : NvmeCtrl → Prop
  | silent (hst : st = nvmeNoComplete) : Completed n heap q sqe cdw0 st n
  | dropped (hst : st ≠ nvmeNoComplete) {c : QueueId} (hc : (n.sq q).cqid.toNat = c.val)
      (he : (n.cq c).enabled = false) : Completed n heap q sqe cdw0 st n
  | posted (hst : st ≠ nvmeNoComplete) {c : QueueId} (hc : (n.sq q).cqid.toNat = c.val)
      (he : (n.cq c).enabled = true) :
      Completed n heap q sqe cdw0 st (nvmePostTo n heap c
        (cqeFor (n.cq c) (BitVec.ofNat 16 q.val) (n.sq q).head sqe.cid cdw0 st))

theorem nvmePostCqe_completed {n n' : NvmeCtrl} {heap : Heap} {q : QueueId} {sqe : NvmeSqe}
    {cdw0 : BitVec 32} {st : Status} (hst : st ≠ nvmeNoComplete)
    (h : nvmePostCqe n heap (n.sq q).cqid (BitVec.ofNat 16 q.val) (n.sq q).head sqe.cid cdw0 st =
      some n') : Completed n heap q sqe cdw0 st n' := by
  rw [nvmePostCqe] at h
  split at h
  swap
  · cases h
  rename_i hc
  by_cases he : (n.cq ⟨(n.sq q).cqid.toNat, hc⟩).enabled = true
  · simp only [he, if_true, Option.some.injEq] at h
    exact h ▸ .posted hst (c := ⟨(n.sq q).cqid.toNat, hc⟩) rfl he
  · simp only [he, Bool.false_eq_true, if_false, Option.some.injEq] at h
    exact h ▸ .dropped hst (c := ⟨(n.sq q).cqid.toNat, hc⟩) rfl (by simpa using he)

/-- The entry at the head of a submission queue, as guest memory holds it. -/
def NvmeCtrl.headEntry (n : NvmeCtrl) (q : QueueId) : NvmeSqe :=
  ⟨Buffer.ofBytes ((span ((n.sq q).slotAddr (n.sq q).head) 64).map n.world.mem)⟩

/-- The controller once that entry is fetched. -/
def NvmeCtrl.fetched (n : NvmeCtrl) (q : QueueId) (w : World) : NvmeCtrl :=
  (n.withWorld w).setSq q { n.sq q with head := (n.sq q).nextHead }

/-- An iteration that consumes the entry at the head. -/
inductive Consumed (n : NvmeCtrl) (heap : Heap) (q : QueueId) : NvmeCtrl → Prop
  | mk (hsize : (n.sq q).size ≠ 0) {buf : List Byte} {w : World}
      (hfetch : Moved false (span ((n.sq q).slotAddr (n.sq q).head) 64) (List.replicate 64 0) buf
        n.world w)
      {st : Status} {cdw0 : BitVec 32} {n₁ n₂ : NvmeCtrl}
      (hx : Executed (n.fetched q w) heap q (n.headEntry q) st cdw0 n₁)
      (hp : Completed (n₁.log (.command q (n₁.sq q).cqid (n.headEntry q) cdw0 st)) heap q
        (n.headEntry q) cdw0 st n₂) : Consumed n heap q n₂

def bar0Reply (n : NvmeCtrl) (offset count : ℕ) : List Byte :=
  if nvmeRegDoorbell ≤ offset then List.replicate count 0 else nvmeRegRead n offset count

/-- A doorbell write: which queue, which of its two doorbells, and the value. -/
structure Doorbell (offset : ℕ) (buf : List Byte) (isCq : Bool) (q : QueueId) (val : BitVec 16) :
    Prop where
  range : nvmeRegDoorbell ≤ offset
  queue : (offset - nvmeRegDoorbell) / 4 / 2 % 2 ^ 16 = q.val
  side : isCq = decide ((offset - nvmeRegDoorbell) / 4 % 2 = 1)
  value : ∃ v, rdLe buf = some v ∧ val = v.setWidth 16

/-- Everything a step can do. -/
inductive StepCase (d : Device) : Input → Device → Prop
  | read (hb : d.busy = none) {offset : ℕ} {buf : List Byte} :
      StepCase d (.bar0 false offset buf)
        ⟨d.n.log (.reply (bar0Reply d.n offset buf.length)), none⟩
  | noQueue (hb : d.busy = none) {offset : ℕ} {buf : List Byte} (ho : nvmeRegDoorbell ≤ offset)
      (hq : nvmeMaxQueues ≤ (offset - nvmeRegDoorbell) / 4 / 2 % 2 ^ 16) :
      StepCase d (.bar0 true offset buf) ⟨d.n, none⟩
  | cqHead (hb : d.busy = none) {offset : ℕ} {buf : List Byte} {q : QueueId} {val : BitVec 16}
      (hd : Doorbell offset buf true q val) :
      StepCase d (.bar0 true offset buf)
        ⟨(d.n.setCq q { d.n.cq q with head := val }).log (.cqHead q val), none⟩
  | sqTail (hb : d.busy = none) {offset : ℕ} {buf : List Byte} {q : QueueId} {val : BitVec 16}
      (hd : Doorbell offset buf false q val) :
      StepCase d (.bar0 true offset buf)
        ⟨d.n.setSq q { d.n.sq q with tail := val }, if (d.n.sq q).enabled then some q else none⟩
  | register (hb : d.busy = none) {offset : ℕ} {buf : List Byte} (ho : offset < nvmeRegDoorbell)
      {v : BitVec 64} (hv : rdLe buf = some v) :
      StepCase d (.bar0 true offset buf) ⟨nvmeRegStore d.n offset v buf.length, none⟩
  | msixRead (hb : d.busy = none) {offset : ℕ} {buf reply : List Byte} :
      StepCase d (.msix false offset buf) ⟨d.n.log (.reply reply), none⟩
  | msixFailed (hb : d.busy = none) {isWrite : Bool} {offset : ℕ} {buf : List Byte} :
      StepCase d (.msix isWrite offset buf) ⟨d.n, none⟩
  | msixWrite (hb : d.busy = none) {offset : ℕ} {buf : List Byte} {region : Buffer 4096} :
      StepCase d (.msix true offset buf) ⟨{ d.n with msixRegion := region }, none⟩
  | reset (hb : d.busy = none) : StepCase d .reset ⟨nvmeCtrlReset d.n, none⟩
  | finished {heap : Heap} {q : QueueId} (hb : d.busy = some q)
      (hh : (d.n.sq q).head = (d.n.sq q).tail) : StepCase d (.iterate heap) ⟨d.n, none⟩
  | fetchFailed {heap : Heap} {q : QueueId} (hb : d.busy = some q)
      (hh : (d.n.sq q).head ≠ (d.n.sq q).tail)
      (hx : (nvmeGpaXfer d.n.world (heap .sqeSgl) ((d.n.sq q).slotAddr (d.n.sq q).head)
        (List.replicate 64 0) false).1 = false) : StepCase d (.iterate heap) ⟨d.n, none⟩
  | consumed {heap : Heap} {q : QueueId} (hb : d.busy = some q)
      (hh : (d.n.sq q).head ≠ (d.n.sq q).tail)
      (hx : (nvmeGpaXfer d.n.world (heap .sqeSgl) ((d.n.sq q).slotAddr (d.n.sq q).head)
        (List.replicate 64 0) false).1 = true) {n : NvmeCtrl} (hc : Consumed d.n heap q n) :
      StepCase d (.iterate heap) ⟨n, some q⟩
  | hostMemory (mem : Memory) :
      StepCase d (.hostMemory mem) ⟨d.n.withWorld { d.n.world with mem := mem }, d.busy⟩
  | dmaRegions (vfu : Vfu) :
      StepCase d (.dmaRegions vfu) ⟨d.n.withWorld { d.n.world with vfu := vfu }, d.busy⟩

theorem nvmeConsume_consumed {n n' : NvmeCtrl} {heap : Heap} {q : QueueId} {buf : List Byte}
    {w : World} (hfetch : Moved false (span ((n.sq q).slotAddr (n.sq q).head) 64)
      (List.replicate 64 0) buf n.world w)
    (h : nvmeConsume (n.withWorld w) heap q (n.headEntry q) = some n') :
    Consumed n heap q n' := by
  rw [nvmeConsume] at h
  split at h
  · cases h
  rename_i hsize
  split at h
  · cases h
  rename_i st cdw0 n₁ hx
  refine Consumed.mk (n := n) hsize hfetch (nvmeExecute_executed hx) ?_
  simp only at h
  split at h
  · rename_i hst
    exact Option.some.inj h ▸ .silent hst
  · rename_i hst
    exact nvmePostCqe_completed hst h

theorem nvmeProcessSqStep_cases {d d' : Device} {heap : Heap} (h : d.step (.iterate heap) = some d') :
    StepCase d (.iterate heap) d' := by
  cases hb : d.busy with
  | none => simp [Device.step, hb] at h
  | some q =>
    simp only [Device.step, hb] at h
    obtain ⟨⟨n, more⟩, hs, rfl⟩ := Option.map_eq_some_iff.mp h
    rw [nvmeProcessSqStep] at hs
    split at hs
    · rename_i hh
      obtain ⟨rfl, rfl⟩ := Prod.mk.inj (Option.some.inj hs)
      exact .finished hb hh
    rename_i hh
    have hout := nvmeGpaXfer_outcome d.n.world (heap .sqeSgl)
      ((d.n.sq q).slotAddr (d.n.sq q).head) (List.replicate 64 0) false
    split at hs
    · rename_i buf w hx
      rw [hx] at hout
      cases hout
      obtain ⟨rfl, rfl⟩ := Prod.mk.inj (Option.some.inj hs)
      exact .fetchFailed hb hh (by rw [hx])
    · rename_i buf w hx
      rw [hx] at hout
      cases hout with
      | done hm =>
        obtain ⟨n', hc, hr⟩ := Option.map_eq_some_iff.mp hs
        obtain ⟨rfl, rfl⟩ := Prod.mk.inj hr
        rw [List.length_replicate] at hm
        refine .consumed hb hh (by rw [hx]) (nvmeConsume_consumed hm ?_)
        rw [← hc, NvmeCtrl.headEntry, hm.buf]
        rfl

theorem nvmeBar0Access_cases {d d' : Device} {isWrite : Bool} {offset : ℕ} {buf : List Byte}
    (h : d.step (.bar0 isWrite offset buf) = some d') :
    StepCase d (.bar0 isWrite offset buf) d' := by
  cases hb : d.busy with
  | some q => simp [Device.step, hb] at h
  | none =>
    simp only [Device.step, hb] at h
    obtain ⟨⟨n, reply, busy⟩, ha, rfl⟩ := Option.map_eq_some_iff.mp h
    simp only [nvmeBar0Access] at ha
    cases isWrite with
    | false =>
      have hr : StepCase d (.bar0 false offset buf) _ := .read hb
      rw [bar0Reply] at hr
      simp only [Bool.false_eq_true, if_false] at ha
      split_ifs at ha hr with ho
      · obtain ⟨rfl, rfl, rfl⟩ : d.n = n ∧ List.replicate buf.length 0 = reply ∧ none = busy := by
          simpa using ha
        exact hr
      · obtain ⟨rfl, rfl, rfl⟩ : d.n = n ∧ nvmeRegRead d.n offset buf.length = reply ∧
            none = busy := by simpa using ha
        exact hr
    | true =>
      simp only [if_true] at ha
      by_cases ho : nvmeRegDoorbell ≤ offset
      · rw [if_pos ho] at ha
        split at ha
        · cases ha
        rename_i v hv
        by_cases hq : (offset - nvmeRegDoorbell) / 4 / 2 % 2 ^ 16 < nvmeMaxQueues
        · rw [dif_pos hq] at ha
          by_cases hc : (offset - nvmeRegDoorbell) / 4 % 2 = 1
          · rw [if_pos hc, Option.some.injEq, Prod.mk.injEq, Prod.mk.injEq] at ha
            obtain ⟨rfl, rfl, rfl⟩ := ha
            exact .cqHead hb ⟨ho, rfl, by simp [hc], v, hv, rfl⟩
          · rw [if_neg hc, Option.some.injEq, Prod.mk.injEq, Prod.mk.injEq] at ha
            obtain ⟨rfl, rfl, rfl⟩ := ha
            have hs := StepCase.sqTail (d := d) hb
              (q := ⟨(offset - nvmeRegDoorbell) / 4 / 2 % 2 ^ 16, hq⟩)
              ⟨ho, rfl, by simp [hc], v, hv, rfl⟩
            simpa [NvmeCtrl.reply] using hs
        · rw [dif_neg hq, Option.some.injEq, Prod.mk.injEq, Prod.mk.injEq] at ha
          obtain ⟨rfl, rfl, rfl⟩ := ha
          exact .noQueue hb ho (not_lt.mp hq)
      · rw [if_neg ho] at ha
        obtain ⟨m, hm, hr⟩ := Option.map_eq_some_iff.mp ha
        obtain ⟨v, hv, rfl⟩ := Option.map_eq_some_iff.mp hm
        simp only [Prod.mk.injEq] at hr
        obtain ⟨rfl, rfl, rfl⟩ := hr
        exact .register hb (not_le.mp ho) hv

/-- The list of step outcomes is complete. -/
theorem Device.step_cases {d d' : Device} {i : Input} (h : d.step i = some d') :
    StepCase d i d' := by
  cases i with
  | bar0 isWrite offset buf => exact nvmeBar0Access_cases h
  | msix isWrite offset buf =>
    cases hb : d.busy with
    | some q => simp [step, hb] at h
    | none =>
      simp only [step, hb, Option.some.injEq] at h
      rw [← h]
      by_cases hfit : 4096 < offset + buf.length
      · simp only [nvmeMsixAccess, if_pos hfit, Bool.false_eq_true, if_false]
        exact .msixFailed hb
      simp only [nvmeMsixAccess, if_neg hfit]
      cases isWrite with
      | false => exact .msixRead hb
      | true => exact .msixWrite hb
  | reset =>
    cases hb : d.busy with
    | some q => simp [step, hb] at h
    | none =>
      simp only [step, hb, Option.some.injEq] at h
      exact h ▸ .reset hb
  | iterate heap => exact nvmeProcessSqStep_cases h
  | hostMemory mem => exact Option.some.inj h ▸ .hostMemory mem
  | dmaRegions vfu => exact Option.some.inj h ▸ .dmaRegions vfu

end VfuKvssd
