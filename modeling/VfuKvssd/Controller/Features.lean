import VfuKvssd.Controller.LastWriter

/-! # Set Features and Get Features

The two are separate switches over the feature identifier. EDNEK is kept and
read back; Number of Queues answers from a constant; every other feature is
accepted and not kept.
-/
namespace VfuKvssd
open Foundations

/-! ## The outcome of a command in the log -/

theorem Completed.no_command {n n' : NvmeCtrl} {heap : Heap} {q : QueueId} {sqe : NvmeSqe}
    {cdw0 : BitVec 32} {st : Status} (hp : Completed n heap q sqe cdw0 st n') :
    ∃ ps, n'.world.trace = n.world.trace ++ ps ∧ ∀ p c s x t, .command p c s x t ∉ ps := by
  cases hp with
  | silent | dropped => exact ⟨[], by simp, by simp⟩
  | @posted _ c _ _ =>
    obtain ⟨es, irqs, he⟩ := nvmePostTo_effect n heap c
      (cqeFor (n.cq c) (BitVec.ofNat 16 q.val) (n.sq q).head sqe.cid cdw0 st)
    refine ⟨_, by rw [he.trace, List.append_assoc, List.append_assoc], fun p c s x t hm => ?_⟩
    rw [← List.append_assoc, ← mem_queueEvents rfl, he.queueEvents, List.mem_singleton] at hm
    cases hm

theorem Managed.no_command {n n' : NvmeCtrl} {xs : List Event} (hm : Managed n n' xs) :
    ∀ p c s x t, .command p c s x t ∉ xs := by
  intro p c s x t h
  cases hm with
  | same | deleteCq | deleteSq => cases h
  | createCq | createSq => simp at h

/-- The status and dword 0 in the log are those that running the command gave. -/
theorem nvmeConsume_command {n n' : NvmeCtrl} {heap : Heap} {q : QueueId} {w : World}
    (hw : ∃ fs, w.trace = n.world.trace ++ fs ∧ ∀ e ∈ fs, e.isData = true) {sqe : NvmeSqe}
    (h : nvmeConsume (n.withWorld w) heap q sqe = some n') :
    ∃ st cdw0 n₀ es, nvmeExecute (n.fetched q w) heap q sqe = some (st, cdw0, n₀) ∧
      Completed (n₀.log (.command q (n₀.sq q).cqid sqe cdw0 st)) heap q sqe cdw0 st n' ∧
      n'.world.trace = n.world.trace ++ es ∧
      ∀ p c s x t, .command p c s x t ∈ es → p = q ∧ s = sqe ∧ x = cdw0 ∧ t = st := by
  obtain ⟨fs, hfs, hdata⟩ := hw
  rw [nvmeConsume] at h
  split at h
  · cases h
  split at h
  · cases h
  rename_i st cdw0 n₀ hx
  have hx' : nvmeExecute (n.fetched q w) heap q sqe = some (st, cdw0, n₀) := hx
  obtain ⟨xs, he, hm, -⟩ := (nvmeExecute_executed hx').managed
  have hp : Completed (n₀.log (.command q (n₀.sq q).cqid sqe cdw0 st)) heap q sqe cdw0 st n' := by
    simp only at h
    split at h
    · rename_i hst
      exact Option.some.inj h ▸ .silent hst
    · rename_i hst
      exact nvmePostCqe_completed hst h
  obtain ⟨ps, hps, hno⟩ := hp.no_command
  refine ⟨st, cdw0, n₀, fs ++ xs ++ .command q (n₀.sq q).cqid sqe cdw0 st :: ps, hx',
    hp, ?_, ?_⟩
  · have htr := he.trace
    simp only [NvmeCtrl.fetched, NvmeCtrl.setSq_world, NvmeCtrl.withWorld_world, hfs] at htr
    simp [hps, htr]
  · intro p c s x t hmem
    rw [List.mem_append, List.mem_append, List.mem_cons] at hmem
    rcases hmem with (hmem | hmem) | hmem | hmem
    · exact absurd (hdata _ hmem) (by simp [Event.isData])
    · rw [← mem_queueEvents rfl] at hmem
      exact absurd hmem (hm.no_command _ _ _ _ _)
    · injection hmem with h₁ _ h₂ h₃ h₄
      exact ⟨h₁, h₂, h₃, h₄⟩
    · exact absurd hmem (hno _ _ _ _ _)

/-- A command in the log of an iteration was run with the outcome logged, and then completed. -/
theorem Device.iterate_command {d d' : Device} {heap : Heap}
    (hs : d.step (.iterate heap) = some d') {q : QueueId} {cqid : BitVec 16} {sqe : NvmeSqe}
    {cdw0 : BitVec 32} {st : Status} (hmem : .command q cqid sqe cdw0 st ∈ d.newEvents d') :
    ∃ w n₀, nvmeExecute (d.n.fetched q w) heap q sqe = some (st, cdw0, n₀) ∧
      Completed (n₀.log (.command q (n₀.sq q).cqid sqe cdw0 st)) heap q sqe cdw0 st d'.n := by
  cases hb : d.busy with
  | none => simp [step, hb] at hs
  | some p =>
    simp only [step, hb] at hs
    obtain ⟨⟨n, more⟩, hn, rfl⟩ := Option.map_eq_some_iff.mp hs
    rw [nvmeProcessSqStep] at hn
    have hquiet {d' : Device} (hd' : d'.n.world = d.n.world)
        (hm : .command q cqid sqe cdw0 st ∈ d.newEvents d') : False := by
      have hnil : d.newEvents d' = [] := newEvents_eq (by rw [hd', List.append_nil])
      rw [hnil] at hm
      cases hm
    have hout := nvmeGpaXfer_outcome d.n.world (heap .sqeSgl)
      ((d.n.sq p).slotAddr (d.n.sq p).head) (List.replicate 64 0) false
    split at hn
    · obtain ⟨rfl, -⟩ := Prod.mk.inj (Option.some.inj hn)
      exact (hquiet rfl hmem).elim
    split at hn
    · rename_i buf w hx
      rw [hx] at hout
      cases hout
      obtain ⟨rfl, -⟩ := Prod.mk.inj (Option.some.inj hn)
      exact (hquiet rfl hmem).elim
    · rename_i buf w hx
      rw [hx] at hout
      cases hout with
      | done hm =>
        obtain ⟨n', hc, hr⟩ := Option.map_eq_some_iff.mp hn
        obtain ⟨rfl, -⟩ := Prod.mk.inj hr
        obtain ⟨fs, hfs, hes⟩ := hm.trace
        obtain ⟨st', cdw0', n₀, es, hx', hp, htr, hall⟩ :=
          nvmeConsume_command ⟨fs, hfs, hes.isData⟩ hc
        rw [newEvents_eq htr] at hmem
        obtain ⟨rfl, rfl, rfl, rfl⟩ := hall _ _ _ _ _ hmem
        exact ⟨w, n₀, hx', hp⟩

/-! ## Features -/

def NvmeSqe.fid (sqe : NvmeSqe) : Byte := sqe.cdw10.setWidth 8

def Event.setsFeature (fid : Byte) : Event → Prop
  | .command q _ sqe _ _ => q = 0 ∧ sqe.opcode = nvmeAdmSetFeatures ∧ sqe.fid = fid
  | _ => False

instance (fid : Byte) : (e : Event) → Decidable (e.setsFeature fid)
  | .command .. => inferInstanceAs (Decidable (_ ∧ _ ∧ _))
  | .dmaRead .. | .dmaWrite .. | .h2c .. | .c2h .. | .posted .. | .cqHead .. | .sqInit ..
  | .cqInit .. | .irq _ | .reply _ => .isFalse id

/-- An iteration consumes this admin command, which ends with this dword 0 and status. -/
def Device.Completes (d d' : Device) (sqe : NvmeSqe) (cdw0 : BitVec 32) (st : Status) : Prop :=
  (∃ heap, d.step (.iterate heap) = some d') ∧
    ∃ cqid, .command 0 cqid sqe cdw0 st ∈ d.newEvents d'

/-- A Set Features that succeeds, a run without another one for its feature and without a reset,
and a Get Features for it. -/
structure FeatureRun (maxNumKeys : BitVec 32) (set get : NvmeSqe) (granted read : BitVec 32)
    (st : Status) (d₀ d₁ d₂ d₃ : Device) : Prop where
  start : d₀.Reachable maxNumKeys
  sets : d₀.Completes d₁ set granted nvmeSuccess
  set_opcode : set.opcode = nvmeAdmSetFeatures
  between : Reaches Device.step (fun _ i => i ≠ .reset) d₁ d₂
  untouched : ∀ e ∈ d₁.newEvents d₂, ¬ e.setsFeature set.fid
  gets : d₂.Completes d₃ get read st
  get_opcode : get.opcode = nvmeAdmGetFeatures
  fid : get.fid = set.fid

/-- The value in force after a Set Features: what it granted for Number of Queues, and otherwise
what it set. -/
def inForce (set : NvmeSqe) (granted : BitVec 32) : BitVec 32 :=
  if set.fid = nvmeFeatNumQueues then granted else set.cdw11

/-- A Set Features for Number of Queues that asks for as many queues of both kinds as there are. -/
def NvmeSqe.asksForAllQueues (sqe : NvmeSqe) : Prop :=
  nvmeMaxIoQueues0 ≤ sqe.cdw11.setWidth 16 ∧ nvmeMaxIoQueues0 ≤ (sqe.cdw11 >>> 16).setWidth 16

theorem nvmeExecute_setFeatures {n : NvmeCtrl} {heap : Heap} {sqe : NvmeSqe}
    (ho : sqe.opcode = nvmeAdmSetFeatures) :
    nvmeExecute n heap 0 sqe = some (nvmeAdminSetFeatures n sqe) := by
  rw [nvmeExecute, if_pos rfl, nvmeAdminCmd, ho, if_neg (by decide), if_pos rfl]

theorem nvmeExecute_getFeatures {n : NvmeCtrl} {heap : Heap} {sqe : NvmeSqe}
    (ho : sqe.opcode = nvmeAdmGetFeatures) :
    nvmeExecute n heap 0 sqe =
      some ((nvmeAdminGetFeatures n sqe).1, (nvmeAdminGetFeatures n sqe).2, n) := by
  rw [nvmeExecute, if_pos rfl, nvmeAdminCmd, ho, if_neg (by decide), if_neg (by decide), if_pos rfl]

theorem nvmeAdminGetFeatures_ednek (n : NvmeCtrl) {sqe : NvmeSqe}
    (hf : sqe.fid = nvmeFeatKvEdnek) : (nvmeAdminGetFeatures n sqe).2 = n.ns.ednek := by
  simp only [nvmeAdminGetFeatures, show sqe.cdw10.setWidth 8 = nvmeFeatKvEdnek from hf]
  rw [if_neg (by decide), if_pos trivial]

theorem nvmeAdminGetFeatures_numQueues (n : NvmeCtrl) {sqe : NvmeSqe}
    (hf : sqe.fid = nvmeFeatNumQueues) :
    (nvmeAdminGetFeatures n sqe).2 = packCounts nvmeMaxIoQueues0 nvmeMaxIoQueues0 := by
  simp only [nvmeAdminGetFeatures, show sqe.cdw10.setWidth 8 = nvmeFeatNumQueues from hf]
  rw [if_pos trivial]

theorem nvmeAdminGetFeatures_other (n : NvmeCtrl) {sqe : NvmeSqe} (hq : sqe.fid ≠ nvmeFeatNumQueues)
    (he : sqe.fid ≠ nvmeFeatKvEdnek) : (nvmeAdminGetFeatures n sqe).2 = 0 := by
  rw [nvmeAdminGetFeatures]
  exact (congrArg Prod.snd ((if_neg hq).trans (if_neg he)))

theorem nvmeAdminSetFeatures_allQueues (n : NvmeCtrl) {sqe : NvmeSqe}
    (hf : sqe.fid = nvmeFeatNumQueues) (ha : sqe.asksForAllQueues) :
    (nvmeAdminSetFeatures n sqe).2.1 = packCounts nvmeMaxIoQueues0 nvmeMaxIoQueues0 := by
  have hmin {x : BitVec 16} (h : nvmeMaxIoQueues0 ≤ x) :
      minCount x nvmeMaxIoQueues0 = nvmeMaxIoQueues0 := if_neg (BitVec.not_lt.mpr h)
  simp only [nvmeAdminSetFeatures, show sqe.cdw10.setWidth 8 = nvmeFeatNumQueues from hf]
  rw [if_pos trivial, hmin ha.1, hmin ha.2]

theorem nvmeAdminSetFeatures_ednek (n : NvmeCtrl) {sqe : NvmeSqe}
    (hf : sqe.fid = nvmeFeatKvEdnek) : (nvmeAdminSetFeatures n sqe).2.2.ns.ednek = sqe.cdw11 := by
  simp only [nvmeAdminSetFeatures, show sqe.cdw10.setWidth 8 = nvmeFeatKvEdnek from hf]
  rw [if_neg (by decide), if_pos trivial]

/-! ## EDNEK over runs -/

theorem Executed.ednek_frame {n n' : NvmeCtrl} {heap : Heap} {q : QueueId} {sqe : NvmeSqe}
    {st : Status} {cdw0 : BitVec 32} (hx : Executed n heap q sqe st cdw0 n') (hv : n.ns.Valid)
    (hs : ¬ (q = 0 ∧ sqe.opcode = nvmeAdmSetFeatures ∧ sqe.fid = nvmeFeatKvEdnek)) :
    n'.ns.ednek = n.ns.ednek := by
  cases hx with
  | ednek hq ho hf => exact absurd ⟨hq, ho, hf⟩ hs
  | @kv hq op ho st ns w hh =>
    have hset : ns.settings.ednek = n.ns.settings.ednek :=
      congrArg KvNs.ednek (kvHandle_settings hv hh).2
    exact hset
  | _ => rfl

theorem StepCase.ednek_frame {d d' : Device} {i : Input} (hs : StepCase d i d') (hok : d.Ok)
    (hv : d.n.ns.Valid) (hk : ∀ e ∈ d.newEvents d', ¬ e.setsFeature nvmeFeatKvEdnek) :
    d'.n.ns.ednek = d.n.ns.ednek := by
  rcases hs.ns_eq with he | ⟨heap, q, -, hb, hc⟩
  · rw [he]
  obtain ⟨c, hserved⟩ := hc.served hok.rings (hok.busy q hb)
  obtain ⟨n₁, st, cdw0, ps, hr, hns, hps, -⟩ := hserved.ran
  obtain ⟨es, hes⟩ := hr.trace
  have hnew : d.newEvents d' = es ++ ps :=
    Device.newEvents_eq (by rw [hps, hes, List.append_assoc])
  have hcmd := hk _ (hnew ▸ List.mem_append_left ps (hr.command_mem hes).1)
  obtain ⟨-, ⟨buf, w, hm, n₀, hx, rfl⟩, -, -⟩ := hr
  rw [hns]
  exact hx.ednek_frame (n := d.n.fetched q w) hv hcmd

theorem Device.Reachable.ednek_frame {maxNumKeys : BitVec 32} {d₁ d₂ : Device}
    (h : Reachable maxNumKeys d₁) (hr : Reaches step (fun _ _ => True) d₁ d₂)
    (hk : ∀ e ∈ d₁.newEvents d₂, ¬ e.setsFeature nvmeFeatKvEdnek) :
    d₂.n.ns.ednek = d₁.n.ns.ednek :=
  h.frame (f := fun d => d.n.ns.ednek)
    (fun _ _ _ hd hs he => hs.ednek_frame hd.ok hd.ns_valid.1 he) hr hk

/-! ## Coherence -/

theorem Device.Completes.reachable {maxNumKeys : BitVec 32} {d d' : Device} {sqe : NvmeSqe}
    {cdw0 : BitVec 32} {st : Status} (h : d.Completes d' sqe cdw0 st)
    (hd : d.Reachable maxNumKeys) : d'.Reachable maxNumKeys := by
  obtain ⟨⟨heap, hs⟩, -⟩ := h
  exact hd.next hs

theorem Device.Completes.getFeatures {d d' : Device} {sqe : NvmeSqe} {cdw0 : BitVec 32}
    {st : Status} (h : d.Completes d' sqe cdw0 st) (ho : sqe.opcode = nvmeAdmGetFeatures) :
    ∃ n : NvmeCtrl, n.ns = d.n.ns ∧ st = nvmeSuccess ∧ cdw0 = (nvmeAdminGetFeatures n sqe).2 := by
  obtain ⟨⟨heap, hs⟩, cqid, hmem⟩ := h
  obtain ⟨w, n₀, hx, -⟩ := iterate_command hs hmem
  rw [nvmeExecute_getFeatures ho, nvmeAdminGetFeatures_status] at hx
  obtain ⟨hst, hr⟩ := Prod.mk.inj (Option.some.inj hx)
  exact ⟨d.n.fetched 0 w, rfl, hst.symm, (Prod.mk.inj hr).1.symm⟩

theorem Device.Completes.setFeatures {d d' : Device} {sqe : NvmeSqe} {cdw0 : BitVec 32}
    {st : Status} (h : d.Completes d' sqe cdw0 st) (ho : sqe.opcode = nvmeAdmSetFeatures) :
    ∃ n : NvmeCtrl, cdw0 = (nvmeAdminSetFeatures n sqe).2.1 ∧
      d'.n.ns = (nvmeAdminSetFeatures n sqe).2.2.ns := by
  obtain ⟨⟨heap, hs⟩, cqid, hmem⟩ := h
  obtain ⟨w, n₀, hx, hp⟩ := iterate_command hs hmem
  rw [nvmeExecute_setFeatures ho, Option.some.injEq] at hx
  refine ⟨d.n.fetched 0 w, ?_, ?_⟩
  · rw [hx]
  · rw [hx, hp.frame.2.1, NvmeCtrl.log_ns]

/-- A Get Features after a Set Features always succeeds. For EDNEK it returns the value that was
set and, once all queues were asked for, for Number of Queues the counts that were granted; for
every other feature nothing is kept and it returns 0. -/
theorem FeatureRun.reads {maxNumKeys : BitVec 32} {set get : NvmeSqe} {granted read : BitVec 32}
    {st : Status} {d₀ d₁ d₂ d₃ : Device}
    (h : FeatureRun maxNumKeys set get granted read st d₀ d₁ d₂ d₃) :
    st = nvmeSuccess ∧
    (set.fid = nvmeFeatKvEdnek → read = inForce set granted) ∧
    (set.fid = nvmeFeatNumQueues → set.asksForAllQueues → read = inForce set granted) ∧
    (set.fid ≠ nvmeFeatKvEdnek → set.fid ≠ nvmeFeatNumQueues → read = 0) := by
  obtain ⟨m, hm, hst, hread⟩ := h.gets.getFeatures h.get_opcode
  obtain ⟨n, hgranted, hns⟩ := h.sets.setFeatures h.set_opcode
  refine ⟨hst, fun hf => ?_, fun hf ha => ?_, fun he hq => ?_⟩
  · have hkept := (h.sets.reachable h.start).ednek_frame (h.between.mono fun _ _ _ => trivial)
      (by simpa only [hf] using h.untouched)
    rw [hread, nvmeAdminGetFeatures_ednek m (h.fid.trans hf), hm, hkept, hns,
      nvmeAdminSetFeatures_ednek n hf, inForce, hf, if_neg (by decide)]
  · rw [hread, nvmeAdminGetFeatures_numQueues m (h.fid.trans hf), inForce, if_pos hf, hgranted,
      nvmeAdminSetFeatures_allQueues n hf ha]
  · have hq' : get.fid ≠ nvmeFeatNumQueues := by
      rw [h.fid]
      exact hq
    have he' : get.fid ≠ nvmeFeatKvEdnek := by
      rw [h.fid]
      exact he
    rw [hread, nvmeAdminGetFeatures_other m hq' he']

/-! ## Concrete runs -/

/-- A Set Features at address 0, one for Power Management at 64 and a Get Features for the first
feature at 128; the value is given by the low bytes of its halves. -/
def featureMemory (fid lo hi : ℕ) : Memory :=
  memoryOf [(0, 0x09), (40, fid), (44, lo), (46, hi), (64, 0x09), (104, 0x02), (108, 0x05),
    (128, 0x0a), (168, fid)]

def featureSqe (fid lo hi : ℕ) (a : Addr) : NvmeSqe :=
  ⟨Buffer.ofBytes ((span a 64).map (featureMemory fid lo hi))⟩

def featureInputs (fid lo hi : ℕ) : List Input :=
  .hostMemory (featureMemory fid lo hi) :: enableAdmin ++ [sqTailWrite 0 3]

/-- The admin commands in a log, with their outcomes. -/
def adminCommands (es : List Event) : List (NvmeSqe × BitVec 32 × Status) :=
  es.filterMap fun e => match e with
    | .command q _ sqe cdw0 st => if q = 0 then some (sqe, cdw0, st) else none
    | _ => none

theorem mem_of_adminCommands {es : List Event} {sqe : NvmeSqe} {cdw0 : BitVec 32} {st : Status}
    (h : (sqe, cdw0, st) ∈ adminCommands es) : ∃ cqid, .command 0 cqid sqe cdw0 st ∈ es := by
  obtain ⟨e, he, hm⟩ := List.mem_filterMap.mp h
  cases e with
  | command q cqid sqe' cdw0' st' =>
    dsimp only at hm
    by_cases hq : q = 0
    · rw [if_pos hq] at hm
      obtain ⟨rfl, rfl, rfl⟩ : sqe' = sqe ∧ cdw0' = cdw0 ∧ st' = st := by simpa using hm
      exact ⟨cqid, hq ▸ he⟩
    · rw [if_neg hq] at hm
      cases hm
  | _ => cases hm

/-- What the first and the last command of a run return. -/
def featureReads (fid lo hi : ℕ) (granted read : BitVec 32) : Bool :=
  ((bootRun 1 (fun _ _ => true) (featureInputs fid lo hi)).bind fun d₀ =>
    (d₀.step (.iterate fun _ => true)).bind fun d₁ =>
      (d₁.step (.iterate fun _ => true)).bind fun d₂ =>
        (d₂.step (.iterate fun _ => true)).map fun d₃ =>
          decide ((featureSqe fid lo hi 0, granted, nvmeSuccess) ∈ adminCommands (d₀.newEvents d₁) ∧
            (∀ e ∈ d₁.newEvents d₂, ¬ e.setsFeature (featureSqe fid lo hi 0).fid) ∧
            (featureSqe fid lo hi 128, read, nvmeSuccess) ∈ adminCommands (d₂.newEvents d₃))) =
    some true

theorem featureRun_of_reads (fid lo hi : ℕ) (granted read : BitVec 32)
    (hr : featureReads fid lo hi granted read = true)
    (hset : (featureSqe fid lo hi 0).opcode = nvmeAdmSetFeatures)
    (hget : (featureSqe fid lo hi 128).opcode = nvmeAdmGetFeatures)
    (hfid : (featureSqe fid lo hi 128).fid = (featureSqe fid lo hi 0).fid) :
    ∃ d₀ d₁ d₂ d₃, FeatureRun 1 (featureSqe fid lo hi 0) (featureSqe fid lo hi 128) granted read
      nvmeSuccess d₀ d₁ d₂ d₃ := by
  obtain ⟨d₀, hd₀, hrest⟩ := Option.bind_eq_some_iff.mp (of_decide_eq_true hr)
  obtain ⟨d₁, hd₁, hrest⟩ := Option.bind_eq_some_iff.mp hrest
  obtain ⟨d₂, hd₂, hrest⟩ := Option.bind_eq_some_iff.mp hrest
  obtain ⟨d₃, hd₃, hobs⟩ := Option.map_eq_some_iff.mp hrest
  obtain ⟨hs, hkept, hg⟩ := of_decide_eq_true hobs
  exact ⟨d₀, d₁, d₂, d₃, reachable_of_bootRun hd₀, ⟨⟨_, hd₁⟩, mem_of_adminCommands hs⟩, hset,
    .single _ (by simp) hd₂, hkept, ⟨⟨_, hd₃⟩, mem_of_adminCommands hg⟩, hget, hfid⟩

/-- EDNEK set to 1 reads back after a Set Features for another feature. -/
theorem FeatureRun.reads_ednek :
    ∃ d₀ d₁ d₂ d₃ read, FeatureRun 1 (featureSqe 0x20 1 0 0) (featureSqe 0x20 1 0 128) 0 read
      nvmeSuccess d₀ d₁ d₂ d₃ ∧ read = 1 := by
  obtain ⟨d₀, d₁, d₂, d₃, h⟩ := featureRun_of_reads 0x20 1 0 0 1 (by decide +kernel)
    (by decide +kernel) (by decide +kernel) (by decide +kernel)
  exact ⟨d₀, d₁, d₂, d₃, 1, h, (h.reads.2.1 (by decide +kernel)).trans (by decide +kernel)⟩

/-- The volatile write cache is accepted as 1 and reads as 0; a request for four queues of each
kind is granted and reads as the maximum. -/
theorem features_not_in_force :
    (∃ d₀ d₁ d₂ d₃ read, FeatureRun 1 (featureSqe 0x06 1 0 0) (featureSqe 0x06 1 0 128) 0 read
      nvmeSuccess d₀ d₁ d₂ d₃ ∧ read ≠ inForce (featureSqe 0x06 1 0 0) 0) ∧
    ∃ d₀ d₁ d₂ d₃ read, FeatureRun 1 (featureSqe 0x07 3 3 0) (featureSqe 0x07 3 3 128) 0x00030003
      read nvmeSuccess d₀ d₁ d₂ d₃ ∧ read ≠ inForce (featureSqe 0x07 3 3 0) 0x00030003 := by
  constructor
  · obtain ⟨d₀, d₁, d₂, d₃, h⟩ := featureRun_of_reads 0x06 1 0 0 0 (by decide +kernel)
      (by decide +kernel) (by decide +kernel) (by decide +kernel)
    exact ⟨d₀, d₁, d₂, d₃, 0, h, by decide +kernel⟩
  · obtain ⟨d₀, d₁, d₂, d₃, h⟩ := featureRun_of_reads 0x07 3 3 0x00030003 0x003e003e
      (by decide +kernel) (by decide +kernel) (by decide +kernel) (by decide +kernel)
    exact ⟨d₀, d₁, d₂, d₃, 0x003e003e, h, by decide +kernel⟩

end VfuKvssd
