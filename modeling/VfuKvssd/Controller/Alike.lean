import VfuKvssd.Controller.Invariants
import VfuKvssd.KeyValue.Contexts

/-! # Controllers that behave alike

Two controllers over the same guest memory and mappings whose logs have grown by
the same events, and whose queues are related entry by entry. What an iteration
looks at is the same on both sides, so they go on alike.
-/
namespace VfuKvssd
open Foundations

/-! ## The surroundings -/

/-- The same guest, and logs that extend `t₁` and `t₂` by the same events. -/
structure World.Alike (t₁ t₂ : List Event) (w₁ w₂ : World) : Prop where
  vfu : w₁.vfu = w₂.vfu
  mem : w₁.mem = w₂.mem
  trace : ∃ es, w₁.trace = t₁ ++ es ∧ w₂.trace = t₂ ++ es

section Worlds
variable {t₁ t₂ : List Event} {w₁ w₂ : World}

theorem World.Alike.log (h : World.Alike t₁ t₂ w₁ w₂) (e : Event) :
    World.Alike t₁ t₂ (w₁.log e) (w₂.log e) := by
  obtain ⟨es, h₁, h₂⟩ := h.trace
  refine ⟨h.vfu, h.mem, es ++ [e], ?_, ?_⟩
  · rw [World.log_trace, h₁, List.append_assoc]
  · rw [World.log_trace, h₂, List.append_assoc]

theorem World.Alike.dmaWrite (h : World.Alike t₁ t₂ w₁ w₂) (a : Addr) (bytes : List Byte) :
    World.Alike t₁ t₂ (w₁.dmaWrite a bytes) (w₂.dmaWrite a bytes) := by
  have hw : World.Alike t₁ t₂ { w₁ with mem := writeAll w₁.mem (span a bytes.length) bytes }
      { w₂ with mem := writeAll w₂.mem (span a bytes.length) bytes } :=
    ⟨h.vfu, by rw [h.mem], h.trace⟩
  exact hw.log _

/-- Equal results and buffers, and surroundings that stay alike. -/
def SameXfer (t₁ t₂ : List Event) (r₁ r₂ : Bool × List Byte × World) : Prop :=
  r₁.1 = r₂.1 ∧ r₁.2.1 = r₂.2.1 ∧ World.Alike t₁ t₂ r₁.2.2 r₂.2.2

theorem sglCopyLoop_alike (toHost : Bool) (len : ℕ) (sgl : List Sg) (done : ℕ) (buf : List Byte)
    (h : World.Alike t₁ t₂ w₁ w₂) :
    (sglCopyLoop toHost len sgl done buf w₁).1 = (sglCopyLoop toHost len sgl done buf w₂).1 ∧
      (sglCopyLoop toHost len sgl done buf w₁).2.1 = (sglCopyLoop toHost len sgl done buf w₂).2.1 ∧
      World.Alike t₁ t₂ (sglCopyLoop toHost len sgl done buf w₁).2.2
        (sglCopyLoop toHost len sgl done buf w₂).2.2 := by
  induction sgl generalizing done buf w₁ w₂ with
  | nil => exact ⟨rfl, rfl, h⟩
  | cons s sgl ih =>
    rw [sglCopyLoop, sglCopyLoop]
    by_cases hd : done < len
    · simp only [hd, if_true]
      cases toHost with
      | true => exact ih _ _ (h.dmaWrite _ _)
      | false =>
        simp only [World.dmaRead, h.mem, Bool.false_eq_true, if_false]
        exact ih _ _ (h.log _)
    · simp only [hd, if_false]
      exact ⟨trivial, trivial, h⟩

theorem nvmeSglCopy_alike (h : World.Alike t₁ t₂ w₁ w₂) (sgl : List Sg) (buf : List Byte)
    (toHost : Bool) :
    SameXfer t₁ t₂ (nvmeSglCopy w₁ sgl buf toHost) (nvmeSglCopy w₂ sgl buf toHost) := by
  rw [nvmeSglCopy, nvmeSglCopy, h.vfu]
  split
  · exact ⟨rfl, rfl, h⟩
  split
  · exact ⟨rfl, rfl, h⟩
  obtain ⟨hdone, hbuf, hw⟩ := sglCopyLoop_alike toHost buf.length sgl 0 buf h
  exact ⟨by simp only [hdone], hbuf, hw⟩

theorem nvmeGpaXfer_alike (h : World.Alike t₁ t₂ w₁ w₂) (sglOk : Bool) (gpa : Addr)
    (buf : List Byte) (toHost : Bool) :
    SameXfer t₁ t₂ (nvmeGpaXfer w₁ sglOk gpa buf toHost) (nvmeGpaXfer w₂ sglOk gpa buf toHost) := by
  rw [nvmeGpaXfer, nvmeGpaXfer, h.vfu]
  split
  · exact ⟨rfl, rfl, h⟩
  split
  · exact ⟨rfl, rfl, h⟩
  split
  · exact ⟨rfl, rfl, h⟩
  · exact nvmeSglCopy_alike h _ _ _

theorem nvmePrpXfer_alike (h : World.Alike t₁ t₂ w₁ w₂) (sglOk : Bool) (prp1 prp2 : Addr)
    (buf : List Byte) (toHost : Bool) :
    SameXfer t₁ t₂ (nvmePrpXfer w₁ sglOk prp1 prp2 buf toHost)
      (nvmePrpXfer w₂ sglOk prp1 prp2 buf toHost) := by
  rw [nvmePrpXfer, nvmePrpXfer, h.vfu]
  split
  · exact ⟨rfl, rfl, h⟩
  split
  · exact ⟨rfl, rfl, h⟩
  dsimp only
  split
  · exact ⟨rfl, rfl, h⟩
  split
  · exact nvmeSglCopy_alike h _ _ _
  split
  · exact ⟨rfl, rfl, h⟩
  split
  · exact ⟨rfl, rfl, h⟩
  · exact nvmeSglCopy_alike h _ _ _

theorem kvdma_related (t₁ t₂ : List Event) (heap : Heap) :
    (kvdma heap).Related (World.Alike t₁ t₂) (kvdma heap) where
  h2c cmd dst h := by
    obtain ⟨hok, hbuf, hw⟩ := nvmePrpXfer_alike h (heap .dataSgl) cmd.prp1 cmd.prp2 dst false
    refine ⟨hok, hbuf, ?_⟩
    simp only [kvdma_h2c, kvdmaH2c, hok, hbuf]
    exact hw.log _
  c2h cmd src h := by
    obtain ⟨hok, -, hw⟩ := nvmePrpXfer_alike h (heap .dataSgl) cmd.prp1 cmd.prp2 src true
    refine ⟨hok, ?_⟩
    simp only [kvdma_c2h, kvdmaC2h, hok]
    exact hw.log _

end Worlds

/-! ## Queues -/

/-- A relation on queue entries that what the controller does respects: related queues are enabled
together, an enabled one is read alike, and every update keeps the relation. -/
structure QueueRel (S : QueueId → NvmeSq → NvmeSq → Prop) (C : QueueId → NvmeCq → NvmeCq → Prop) :
    Prop where
  sqRefl : ∀ q s, S q s s
  sqEnabled : ∀ {q s s'}, S q s s' → s.enabled = s'.enabled
  sqView : ∀ {q s s'}, S q s s' → s.enabled = true →
    s.dma = s'.dma ∧ s.size = s'.size ∧ s.cqid = s'.cqid ∧ s.head = s'.head
  sqFetch : ∀ {q s s'}, S q s s' → s.enabled = true →
    S q { s with head := s.nextHead } { s' with head := s'.nextHead }
  sqDisable : ∀ {q s s'}, S q s s' → S q { s with enabled := false } { s' with enabled := false }
  cqRefl : ∀ c x, C c x x
  cqEnabled : ∀ {c x y}, C c x y → x.enabled = y.enabled
  cqView : ∀ {c x y}, C c x y → x.enabled = true → x = y
  cqDisable : ∀ {c x y}, C c x y → C c { x with enabled := false } { y with enabled := false }

/-- The controller without its surroundings and its queues. -/
def NvmeCtrl.core (n : NvmeCtrl) : NvmeCtrl :=
  { n with world := ⟨.unmapped, fun _ => 0, []⟩, sq := fun _ => .zero, cq := fun _ => .zero }

/-- Alike surroundings, related queues, and all the rest equal. -/
structure NvmeCtrl.Alike (S : QueueId → NvmeSq → NvmeSq → Prop)
    (C : QueueId → NvmeCq → NvmeCq → Prop) (t₁ t₂ : List Event) (n₁ n₂ : NvmeCtrl) : Prop where
  world : World.Alike t₁ t₂ n₁.world n₂.world
  sq : ∀ q, S q (n₁.sq q) (n₂.sq q)
  cq : ∀ c, C c (n₁.cq c) (n₂.cq c)
  rest : n₁.core = n₂.core

/-- Equal statuses and results, and controllers that stay alike. -/
def SameRun {α : Type} (S : QueueId → NvmeSq → NvmeSq → Prop) (C : QueueId → NvmeCq → NvmeCq → Prop)
    (t₁ t₂ : List Event) (r₁ r₂ : α × NvmeCtrl) : Prop :=
  r₁.1 = r₂.1 ∧ NvmeCtrl.Alike S C t₁ t₂ r₁.2 r₂.2

/-- Equal statuses and dwords 0, and controllers that stay alike. -/
def SameCommand (S : QueueId → NvmeSq → NvmeSq → Prop) (C : QueueId → NvmeCq → NvmeCq → Prop)
    (t₁ t₂ : List Event) (r₁ r₂ : Status × BitVec 32 × NvmeCtrl) : Prop :=
  r₁.1 = r₂.1 ∧ SameRun S C t₁ t₂ r₁.2 r₂.2

theorem SameRun.command {S : QueueId → NvmeSq → NvmeSq → Prop} {C : QueueId → NvmeCq → NvmeCq → Prop}
    {t₁ t₂ : List Event} {r₁ r₂ : Status × NvmeCtrl} (h : SameRun S C t₁ t₂ r₁ r₂) :
    SameCommand S C t₁ t₂ (r₁.1, 0, r₁.2) (r₂.1, 0, r₂.2) := ⟨h.1, rfl, h.2⟩

namespace NvmeCtrl.Alike
variable {S : QueueId → NvmeSq → NvmeSq → Prop} {C : QueueId → NvmeCq → NvmeCq → Prop}
  {t₁ t₂ : List Event} {n₁ n₂ : NvmeCtrl}

theorem ns (h : Alike S C t₁ t₂ n₁ n₂) : n₁.ns = n₂.ns :=
  (congrArg NvmeCtrl.ns h.rest :)

theorem withWorld (h : Alike S C t₁ t₂ n₁ n₂) {w₁ w₂ : World} (hw : World.Alike t₁ t₂ w₁ w₂) :
    Alike S C t₁ t₂ (n₁.withWorld w₁) (n₂.withWorld w₂) :=
  ⟨hw, h.sq, h.cq, h.rest⟩

theorem log (h : Alike S C t₁ t₂ n₁ n₂) (e : Event) :
    Alike S C t₁ t₂ (n₁.log e) (n₂.log e) := h.withWorld (h.world.log e)

theorem setSq (h : Alike S C t₁ t₂ n₁ n₂) {q : QueueId} {s s' : NvmeSq} (hs : S q s s') :
    Alike S C t₁ t₂ (n₁.setSq q s) (n₂.setSq q s') := by
  refine ⟨h.world, fun p => ?_, h.cq, h.rest⟩
  by_cases hp : p = q
  · subst hp
    simpa using hs
  · simpa [Function.update_of_ne hp] using h.sq p

theorem setCq (h : Alike S C t₁ t₂ n₁ n₂) {c : QueueId} {x y : NvmeCq} (hc : C c x y) :
    Alike S C t₁ t₂ (n₁.setCq c x) (n₂.setCq c y) := by
  refine ⟨h.world, h.sq, fun b => ?_, h.rest⟩
  by_cases hb : b = c
  · subst hb
    simpa using hc
  · simpa [Function.update_of_ne hb] using h.cq b

theorem withNs (h : Alike S C t₁ t₂ n₁ n₂) (ns : KvNs) :
    Alike S C t₁ t₂ { n₁ with ns := ns } { n₂ with ns := ns } :=
  ⟨h.world, h.sq, h.cq, congrArg (fun n : NvmeCtrl => { n with ns := ns }) h.rest⟩

/-! ## Commands -/

theorem identify (h : Alike S C t₁ t₂ n₁ n₂) (heap : Heap) (sqe : NvmeSqe) :
    SameRun S C t₁ t₂ (nvmeAdminIdentify n₁ heap sqe) (nvmeAdminIdentify n₂ heap sqe) := by
  have hpage (cns csi : Byte) : nvmeIdentifyPage n₁ cns csi = nvmeIdentifyPage n₂ cns csi := by
    simp only [nvmeIdentifyPage, h.ns]
  rw [nvmeAdminIdentify, nvmeAdminIdentify, hpage]
  split
  · exact ⟨rfl, h⟩
  · rename_i page _
    generalize page.bytes = bytes
    obtain ⟨hok, -, hw⟩ := nvmePrpXfer_alike h.world (heap .dataSgl) sqe.prp1 sqe.prp2 bytes true
    exact ⟨by simp only [hok], h.withWorld hw⟩

theorem setFeatures (h : Alike S C t₁ t₂ n₁ n₂) (sqe : NvmeSqe) :
    SameCommand S C t₁ t₂ (nvmeAdminSetFeatures n₁ sqe) (nvmeAdminSetFeatures n₂ sqe) := by
  rw [nvmeAdminSetFeatures, nvmeAdminSetFeatures, h.ns]
  refine related_ite ⟨rfl, rfl, h⟩ ?_
  exact related_ite ⟨rfl, rfl, h.withNs _⟩ ⟨rfl, rfl, h⟩

theorem createCq (hr : QueueRel S C) (h : Alike S C t₁ t₂ n₁ n₂) (sqe : NvmeSqe) :
    SameRun S C t₁ t₂ (nvmeAdminCreateCq n₁ sqe) (nvmeAdminCreateCq n₂ sqe) := by
  rw [nvmeAdminCreateCq, nvmeAdminCreateCq]
  split
  · exact ⟨rfl, h⟩
  · exact ⟨rfl, (h.setCq (hr.cqRefl _ _)).log _⟩

theorem liveCq (hr : QueueRel S C) (h : Alike S C t₁ t₂ n₁ n₂) (cqid : BitVec 16) :
    n₁.liveCq cqid = n₂.liveCq cqid := by
  rw [NvmeCtrl.liveCq, NvmeCtrl.liveCq]
  split
  · exact hr.cqEnabled (h.cq _)
  · rfl

theorem createSq (hr : QueueRel S C) (h : Alike S C t₁ t₂ n₁ n₂) (sqe : NvmeSqe) :
    SameRun S C t₁ t₂ (nvmeAdminCreateSq n₁ sqe) (nvmeAdminCreateSq n₂ sqe) := by
  rw [nvmeAdminCreateSq, nvmeAdminCreateSq, h.liveCq hr]
  split
  · exact ⟨rfl, h⟩
  split
  · exact ⟨rfl, (h.setSq (hr.sqRefl _ _)).log _⟩
  · exact ⟨rfl, h⟩

theorem deleteCq (hr : QueueRel S C) (h : Alike S C t₁ t₂ n₁ n₂) (sqe : NvmeSqe) :
    SameRun S C t₁ t₂ (nvmeAdminDeleteCq n₁ sqe) (nvmeAdminDeleteCq n₂ sqe) := by
  rw [nvmeAdminDeleteCq, nvmeAdminDeleteCq]
  split
  · exact ⟨rfl, h⟩
  · exact ⟨rfl, h.setCq (hr.cqDisable (h.cq _))⟩

theorem deleteSq (hr : QueueRel S C) (h : Alike S C t₁ t₂ n₁ n₂) (sqe : NvmeSqe) :
    SameRun S C t₁ t₂ (nvmeAdminDeleteSq n₁ sqe) (nvmeAdminDeleteSq n₂ sqe) := by
  rw [nvmeAdminDeleteSq, nvmeAdminDeleteSq]
  split
  · exact ⟨rfl, h⟩
  · exact ⟨rfl, h.setSq (hr.sqDisable (h.sq _))⟩

theorem adminCmd (hr : QueueRel S C) (h : Alike S C t₁ t₂ n₁ n₂) (heap : Heap) (sqe : NvmeSqe) :
    SameCommand S C t₁ t₂ (nvmeAdminCmd n₁ heap sqe) (nvmeAdminCmd n₂ heap sqe) := by
  have hfeat : nvmeAdminGetFeatures n₁ sqe = nvmeAdminGetFeatures n₂ sqe := by
    simp only [nvmeAdminGetFeatures, h.ns]
  rw [nvmeAdminCmd, nvmeAdminCmd, hfeat]
  refine related_ite (h.identify heap sqe).command ?_
  refine related_ite (h.setFeatures sqe) ?_
  refine related_ite ⟨rfl, rfl, h⟩ ?_
  refine related_ite (h.createCq hr sqe).command ?_
  refine related_ite (h.createSq hr sqe).command ?_
  refine related_ite (h.deleteCq hr sqe).command ?_
  refine related_ite (h.deleteSq hr sqe).command ?_
  refine related_ite ⟨rfl, rfl, h⟩ ?_
  exact related_ite ⟨rfl, rfl, h⟩ ⟨rfl, rfl, h⟩

theorem ioKv (h : Alike S C t₁ t₂ n₁ n₂) (heap : Heap) (sqe : NvmeSqe) :
    Option.Rel (SameRun S C t₁ t₂) (nvmeIoKv n₁ heap sqe) (nvmeIoKv n₂ heap sqe) := by
  rw [nvmeIoKv, nvmeIoKv]
  dsimp only
  split
  · exact .some ⟨rfl, h⟩
  · rename_i op _
    have hk := kvHandle_related (kvdma_related t₁ t₂ heap) h.world op n₁.ns (.ofSqe sqe) heap
    rw [h.ns] at hk ⊢
    generalize kvHandle op n₂.ns _ _ n₁.world heap = r₁ at hk ⊢
    generalize kvHandle op n₂.ns _ _ n₂.world heap = r₂ at hk ⊢
    cases hk with
    | none => exact .none
    | some hk =>
      obtain ⟨hst, hns, hw⟩ := hk
      refine .some ⟨hst, ?_⟩
      dsimp only
      rw [hns]
      exact (h.withWorld hw).withNs _

theorem execute (hr : QueueRel S C) (h : Alike S C t₁ t₂ n₁ n₂) (heap : Heap) (q : QueueId)
    (sqe : NvmeSqe) :
    Option.Rel (SameCommand S C t₁ t₂) (nvmeExecute n₁ heap q sqe) (nvmeExecute n₂ heap q sqe) := by
  rw [nvmeExecute, nvmeExecute]
  split
  · exact .some (h.adminCmd hr heap sqe)
  · have hio := h.ioKv heap sqe
    generalize nvmeIoKv n₁ heap sqe = r₁ at hio ⊢
    generalize nvmeIoKv n₂ heap sqe = r₂ at hio ⊢
    cases hio with
    | none => exact .none
    | some hio => exact .some ⟨hio.1, rfl, hio.2⟩

/-! ## Completions -/

theorem raise (h : Alike S C t₁ t₂ n₁ n₂) (irq : ℤ) :
    Alike S C t₁ t₂ (n₁.raise irq) (n₂.raise irq) := by
  rw [NvmeCtrl.raise, NvmeCtrl.raise]
  split
  · exact h.log _
  · exact h

theorem postTo (hr : QueueRel S C) (h : Alike S C t₁ t₂ n₁ n₂) (heap : Heap) {c : QueueId}
    (hc : n₁.cq c = n₂.cq c) (cqe : NvmeCqe) :
    Alike S C t₁ t₂ (nvmePostTo n₁ heap c cqe) (nvmePostTo n₂ heap c cqe) := by
  obtain ⟨-, -, hw⟩ := nvmeGpaXfer_alike h.world (heap .cqeSgl)
    ((n₂.cq c).slotAddr (n₂.cq c).tail) cqe.toBytes true
  simp only [nvmePostTo, hc]
  exact (((h.withWorld hw).log _).setCq (hr.cqRefl _ _)).raise _

theorem postCqe (hr : QueueRel S C) (h : Alike S C t₁ t₂ n₁ n₂) (heap : Heap)
    (cqid sqid sqHead cid : BitVec 16) (cdw0 : BitVec 32) (st : Status) :
    Option.Rel (Alike S C t₁ t₂) (nvmePostCqe n₁ heap cqid sqid sqHead cid cdw0 st)
      (nvmePostCqe n₂ heap cqid sqid sqHead cid cdw0 st) := by
  rw [nvmePostCqe, nvmePostCqe]
  split
  swap
  · exact .none
  rename_i hlt
  have hen := hr.cqEnabled (h.cq ⟨cqid.toNat, hlt⟩)
  dsimp only
  cases he : (n₁.cq ⟨cqid.toNat, hlt⟩).enabled with
  | false =>
    rw [← hen, he]
    exact .some h
  | true =>
    have hc := hr.cqView (h.cq ⟨cqid.toNat, hlt⟩) he
    rw [← hen, he, hc]
    exact .some (h.postTo hr heap hc _)

/-! ## The rest of an iteration -/

theorem consume (hr : QueueRel S C) (h : Alike S C t₁ t₂ n₁ n₂) (heap : Heap) {q : QueueId}
    (he : (n₁.sq q).enabled = true) (sqe : NvmeSqe) :
    Option.Rel (Alike S C t₁ t₂) (nvmeConsume n₁ heap q sqe) (nvmeConsume n₂ heap q sqe) := by
  obtain ⟨-, hsize, -, -⟩ := hr.sqView (h.sq q) he
  rw [nvmeConsume, nvmeConsume]
  dsimp only
  by_cases hz : (n₁.sq q).size = 0
  · rw [if_pos hz, if_pos (hsize ▸ hz)]
    exact .none
  rw [if_neg hz, if_neg fun hz' => hz (hsize.trans hz')]
  have hfetched := h.setSq (hr.sqFetch (h.sq q) he)
  have hx := hfetched.execute hr heap q sqe
  -- the command has left its own submission queue as the fetch made it
  have hself {st : Status} {cdw0 : BitVec 32} {m : NvmeCtrl}
      (hm : nvmeExecute (n₁.setSq q { n₁.sq q with head := (n₁.sq q).nextHead }) heap q sqe =
        some (st, cdw0, m)) : (m.sq q).enabled = true := by
    rw [(nvmeExecute_executed hm).sq_self]
    simpa using he
  revert hself
  generalize nvmeExecute (n₁.setSq q _) heap q sqe = r₁ at hx ⊢
  generalize nvmeExecute (n₂.setSq q _) heap q sqe = r₂ at hx ⊢
  intro hself
  cases hx with
  | none => exact .none
  | @some r₁ r₂ hx =>
    obtain ⟨st, cdw0, m₁⟩ := r₁
    obtain ⟨st', cdw0', m₂⟩ := r₂
    obtain ⟨rfl, rfl, hm⟩ := hx
    dsimp only at hm ⊢
    obtain ⟨-, -, hcqid, hhead⟩ := hr.sqView (hm.sq q) (hself rfl)
    simp only [NvmeCtrl.log_sq]
    rw [hcqid, hhead]
    split
    · exact .some (hm.log _)
    · exact (hm.log _).postCqe hr heap _ _ _ _ _ _

/-- Alike controllers, and the loops go on or end together. -/
def SameIteration (S : QueueId → NvmeSq → NvmeSq → Prop) (C : QueueId → NvmeCq → NvmeCq → Prop)
    (t₁ t₂ : List Event) (r₁ r₂ : NvmeCtrl × Bool) : Prop :=
  Alike S C t₁ t₂ r₁.1 r₂.1 ∧ r₁.2 = r₂.2

/-- An iteration on an enabled queue that is empty on both sides or on neither. -/
theorem processSqStep (hr : QueueRel S C) (h : Alike S C t₁ t₂ n₁ n₂) (heap : Heap) {q : QueueId}
    (he : (n₁.sq q).enabled = true)
    (hempty : (n₁.sq q).head = (n₁.sq q).tail ↔ (n₂.sq q).head = (n₂.sq q).tail) :
    Option.Rel (SameIteration S C t₁ t₂) (nvmeProcessSqStep n₁ heap q)
      (nvmeProcessSqStep n₂ heap q) := by
  obtain ⟨hdma, -, -, hhead⟩ := hr.sqView (h.sq q) he
  have haddr : (n₁.sq q).slotAddr (n₁.sq q).head = (n₂.sq q).slotAddr (n₂.sq q).head := by
    rw [NvmeSq.slotAddr, NvmeSq.slotAddr, hdma, hhead]
  obtain ⟨hok, hbuf, hw⟩ := nvmeGpaXfer_alike h.world (heap .sqeSgl)
    ((n₂.sq q).slotAddr (n₂.sq q).head) (List.replicate 64 0) false
  simp only [nvmeProcessSqStep, haddr]
  by_cases hz : (n₂.sq q).head = (n₂.sq q).tail
  · rw [if_pos hz, if_pos (hempty.mpr hz)]
    exact .some ⟨h, rfl⟩
  rw [if_neg hz, if_neg fun hz' => hz (hempty.mp hz')]
  generalize nvmeGpaXfer n₁.world _ _ _ _ = r₁ at hok hbuf hw ⊢
  generalize nvmeGpaXfer n₂.world _ _ _ _ = r₂ at hok hbuf hw ⊢
  obtain ⟨ok, buf, w₁⟩ := r₁
  obtain ⟨_, _, w₂⟩ := r₂
  subst hok hbuf
  have hfetch := h.withWorld hw
  cases ok with
  | false => exact .some ⟨hfetch, rfl⟩
  | true =>
    have hc := hfetch.consume hr heap (q := q) he ⟨Buffer.ofBytes buf⟩
    dsimp only at hc ⊢
    generalize nvmeConsume (n₁.withWorld w₁) heap q _ = r₁ at hc ⊢
    generalize nvmeConsume (n₂.withWorld w₂) heap q _ = r₂ at hc ⊢
    cases hc with
    | none => exact .none
    | some hc => exact .some ⟨hc, rfl⟩

end NvmeCtrl.Alike

end VfuKvssd
