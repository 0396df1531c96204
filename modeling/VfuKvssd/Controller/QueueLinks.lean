import VfuKvssd.Controller.Progress
import VfuKvssd.Controller.Lifecycle

/-! # Submission queues and their completion queues

Create SQ checks that its completion queue is enabled; Delete CQ does not check
that no submission queue names it. Runs without such a deletion never drop a
completion.
-/
namespace VfuKvssd
open Foundations

def NvmeCtrl.Linked (n : NvmeCtrl) : Prop :=
  ∀ q, (n.sq q).enabled = true → ∃ c : QueueId, (n.sq q).cqid.toNat = c.val ∧
    (n.cq c).enabled = true

/-- The next iteration fetches the entry at the head. -/
def Device.fetches (d : Device) (heap : Heap) (q : QueueId) : Bool :=
  d.busy == some q && (d.n.sq q).head != (d.n.sq q).tail && heap .sqeSgl &&
    d.n.world.vfu.reaches ((d.n.sq q).slotAddr (d.n.sq q).head) 64 .read

/-- An enabled submission queue names this completion queue. -/
def NvmeCtrl.inUse (n : NvmeCtrl) (c : QueueId) : Bool :=
  decide (∃ q, (n.sq q).enabled = true ∧ (n.sq q).cqid.toNat = c.val)

/-- The input runs a Delete CQ of a completion queue that an enabled submission queue names. -/
def deletesUsedCq (d : Device) : Input → Bool
  | .iterate heap => d.fetches heap 0 && (d.n.headEntry 0).opcode == nvmeAdmDeleteCq &&
      match ioQueue (d.n.headEntry 0).qid with
      | some c => d.n.inUse c
      | none => false
  | _ => false

theorem Device.fetches_iff {d : Device} {heap : Heap} {q : QueueId} :
    d.fetches heap q = true ↔ d.busy = some q ∧ (d.n.sq q).head ≠ (d.n.sq q).tail ∧
      (nvmeGpaXfer d.n.world (heap .sqeSgl) ((d.n.sq q).slotAddr (d.n.sq q).head)
        (List.replicate 64 0) false).1 = true := by
  rw [nvmeGpaXfer_ok _ _ _ _ (by simp)]
  simp [fetches, xferProt, and_assoc]

namespace NvmeCtrl.Linked
variable {n n' : NvmeCtrl}

theorem mono (h : n.Linked)
    (hsq : ∀ q, (n'.sq q).enabled = true →
      (n.sq q).enabled = true ∧ (n'.sq q).cqid = (n.sq q).cqid)
    (hcq : ∀ c, (n.cq c).enabled = true → (n'.cq c).enabled = true) : n'.Linked := by
  intro q he
  obtain ⟨he', hid⟩ := hsq q he
  obtain ⟨c, hc, hcen⟩ := h q he'
  exact ⟨c, hid ▸ hc, hcq c hcen⟩

theorem congr (h : n.Linked) (hsq : n'.sq = n.sq) (hcq : n'.cq = n.cq) : n'.Linked :=
  h.mono (fun q he => by rw [hsq] at he ⊢; exact ⟨he, rfl⟩) fun c he => by rwa [hcq]

theorem queuesDown (n : NvmeCtrl) : (nvmeQueuesDown n).Linked := by
  intro q he
  cases he

theorem setSq (h : n.Linked) {q : QueueId} {s : NvmeSq}
    (hs : s.enabled = true → ∃ c : QueueId, s.cqid.toNat = c.val ∧ (n.cq c).enabled = true) :
    (n.setSq q s).Linked := by
  intro p he
  by_cases hp : p = q
  · subst hp
    simp only [setSq_sq, setSq_cq, Function.update_self] at he ⊢
    exact hs he
  · simp only [setSq_sq, setSq_cq, Function.update_of_ne hp] at he ⊢
    exact h p he

/-- A completion queue may change as long as it stays enabled or is not in use. -/
theorem setCq (h : n.Linked) {c : QueueId} {x : NvmeCq}
    (hx : (n.cq c).enabled = true → x.enabled = true ∨ n.inUse c = false) :
    (n.setCq c x).Linked := by
  intro q he
  obtain ⟨c', hc', hen⟩ := h q he
  refine ⟨c', hc', ?_⟩
  by_cases hcc : c' = c
  · subst hcc
    simp only [setCq_cq, Function.update_self]
    refine (hx hen).resolve_right fun hu => ?_
    simp only [inUse, decide_eq_false_iff_not, not_exists, not_and] at hu
    exact hu q he hc'
  · simp only [setCq_cq, Function.update_of_ne hcc]
    exact hen

theorem enable (h : n.Linked) : (nvmeEnable n).Linked := by
  have hcq : (n.setCq 0 ((nvmeEnable n).cq 0)).Linked := h.setCq fun _ => .inl rfl
  exact (hcq.setSq (q := 0) (s := (nvmeEnable n).sq 0) fun _ => ⟨0, rfl, rfl⟩).congr
    (by simp [nvmeEnable]) (by simp [nvmeEnable])

theorem ccWrite (h : n.Linked) (v : BitVec 32) : (nvmeCcWrite n v).Linked := by
  have h₁ : (nvmeCcEnable { n with cc := v } n.cc).Linked := by
    have h₀ : ({ n with cc := v } : NvmeCtrl).Linked := h.congr rfl rfl
    rw [nvmeCcEnable]
    split_ifs
    · exact h₀.enable
    · exact (queuesDown _).congr rfl rfl
    · exact h₀
  rw [nvmeCcWrite, nvmeCcShutdown]
  split_ifs
  · exact (queuesDown _).congr rfl rfl
  · exact h₁.congr rfl rfl
  · exact h₁

end NvmeCtrl.Linked

theorem Executed.linked {n n' : NvmeCtrl} {heap : Heap} {q : QueueId} {sqe : NvmeSqe} {st : Status}
    {cdw0 : BitVec 32} (hx : Executed n heap q sqe st cdw0 n') (h : n.Linked)
    (hdel : q = 0 → sqe.opcode = nvmeAdmDeleteCq → ∀ c, ioQueue sqe.qid = some c →
      n.inUse c = false) : n'.Linked := by
  cases hx with
  | createCq hq ho hc => exact (h.setCq fun _ => .inl rfl).congr rfl rfl
  | createSq hq ho hs hl => exact (h.setSq fun _ => liveCq_iff.mp hl).congr rfl rfl
  | deleteCq hq ho hc => exact h.setCq fun _ => .inr (hdel hq ho _ hc)
  | deleteSq hq ho hs =>
    refine h.setSq fun he => ?_
    cases he
  | _ => exact h.congr rfl rfl

theorem StepCase.linked {d d' : Device} {i : Input} (hs : StepCase d i d') (h : d.n.Linked)
    (hdel : deletesUsedCq d i = false) : d'.n.Linked := by
  cases hs with
  | @cqHead hb offset buf q val hd =>
    exact (h.setCq (x := { d.n.cq q with head := val }) fun he => .inl he).congr rfl rfl
  | @sqTail hb offset buf q val hd => exact h.setSq fun he => h q he
  | @register hb offset buf ho v hv =>
    rcases nvmeRegStore_cases d.n offset v buf.length with ⟨-, he⟩ | ⟨-, _, _, _, _, _, he⟩
    · simp only [he]
      exact h.ccWrite _
    · rw [he]
      exact h.congr rfl rfl
  | reset hb => exact (NvmeCtrl.Linked.queuesDown _).congr rfl rfl
  | @consumed heap q hb hh hx n hc =>
    have hfetch := Device.fetches_iff.mpr ⟨hb, hh, hx⟩
    obtain ⟨hsize, hm, hx, hp⟩ := hc
    rename_i w st cdw0 n₁
    obtain ⟨hsq, -, -, -, hcq⟩ := hp.frame
    have hf : (d.n.fetched q w).Linked := (h.congr rfl rfl : (d.n.withWorld w).Linked).setSq
      fun he => h q he
    have hused (c : QueueId) : (d.n.fetched q w).inUse c = d.n.inUse c := by
      simp only [NvmeCtrl.inUse, NvmeCtrl.fetched, NvmeCtrl.setSq_sq, NvmeCtrl.withWorld_sq]
      congr 1
      apply propext
      refine exists_congr fun p => ?_
      by_cases hpq : p = q <;> simp [hpq]
    have h₁ := hx.linked hf fun hq ho c hc => by
      subst hq
      rw [hused]
      simpa [deletesUsedCq, hfetch, ho, hc] using hdel
    refine h₁.mono (fun p he => ?_) fun c he => ?_
    · rw [hsq] at he ⊢
      exact ⟨he, rfl⟩
    · rw [hcq]
      exact he
  | read | noQueue | msixRead | msixFailed | msixWrite | finished | fetchFailed | hostMemory
  | dmaRegions =>
    exact h.congr rfl rfl

/-- In every run that never deletes a completion queue in use, every enabled submission queue has
an enabled completion queue, and every command consumed next that is not an Asynchronous Event
Request has its completion posted. -/
theorem Device.completions_not_dropped {maxNumKeys : BitVec 32} {d₀ d : Device}
    (h₀ : Initial maxNumKeys d₀)
    (hr : Reaches step (fun d i => deletesUsedCq d i = false) d₀ d) :
    (∀ q, (d.n.sq q).enabled = true → ∃ c : QueueId, (d.n.sq q).cqid.toNat = c.val ∧
      (d.n.cq c).enabled = true) ∧
    (∀ heap d' q, d.step (.iterate heap) = some d' → d.busy = some q → d'.busy = some q →
      ¬ (q = 0 ∧ (d.n.headEntry q).opcode = nvmeAdmAsyncEvent) →
      ∃ (c : QueueId) (cdw0 : BitVec 32) (st : Status) (es : List Event),
        (d.n.sq q).cqid.toNat = c.val ∧ d'.n.world.trace = d.n.world.trace ++ es ∧
        .command q (d.n.sq q).cqid (d.n.headEntry q) cdw0 st ∈ es ∧
        .posted c (d.n.cq c).tail (d.n.completion q c cdw0 st) ∈ es) := by
  obtain ⟨hok, hlink⟩ : d.Ok ∧ d.n.Linked := by
    apply hr.invariant (I := fun d => d.Ok ∧ d.n.Linked)
    · rintro s i t ⟨hok, h⟩ hdel hs
      exact ⟨(step_cases hs).ok hok, (step_cases hs).linked h hdel⟩
    · refine ⟨h₀.ok, fun q he => ?_⟩
      rw [h₀.queues_off.1 q] at he
      cases he
  refine ⟨hlink, fun heap d' q hs hb hb' hne => ?_⟩
  have hen := hok.busy q hb
  obtain ⟨c₀, hc₀, hcen⟩ := hlink q hen
  obtain ⟨c, hserved⟩ := (consumed_of_busy hs hb hb').served hok.rings hen
  generalize d'.n = n' at hserved
  cases hserved with
  | unanswered hrun => exact absurd (hrun.noComplete_iff.mp rfl) hne
  | dropped hrun hst he =>
    rw [show c = c₀ from Fin.ext (hrun.own.symm.trans hc₀), hcen] at he
    cases he
  | @posted n₁ st cdw0 hrun hst he =>
    obtain ⟨fs, xs, htr, -⟩ := hrun.world
    obtain ⟨es, irqs, hp⟩ := nvmePostTo_effect n₁ heap c (d.n.completion q c cdw0 st)
    refine ⟨c, cdw0, st, fs ++ xs ++ [.command q (d.n.sq q).cqid (d.n.headEntry q) cdw0 st] ++ es ++
      [.posted c (n₁.cq c).tail (d.n.completion q c cdw0 st)] ++ irqs, hrun.own, ?_, by simp, ?_⟩
    · rw [hp.trace, htr]
      simp
    · simp [hrun.cq]

/-- Create CQ 1, Create SQ 1 on it, Delete CQ 1. -/
def createThenDelete : Memory :=
  memoryOf [(0, 5), (40, 1), (42, 15), (64, 1), (104, 1), (106, 15), (110, 1), (128, 4), (168, 1)]

theorem Device.completions_not_dropped_created :
    ∃ d₀ d, Initial 1 d₀ ∧ Reaches step (fun d i => deletesUsedCq d i = false) d₀ d ∧
      (d.n.sq 1).enabled = true ∧ ∃ c : QueueId, (d.n.sq 1).cqid.toNat = c.val ∧
        (d.n.cq c).enabled = true := by
  have hrun : (bootRun 1 (fun d i => !deletesUsedCq d i) (enableAdmin ++
      [.hostMemory createThenDelete, sqTailWrite 0 2] ++ iterations 3)).map
      (fun d => (d.n.sq 1).enabled) = some true := by decide +kernel
  obtain ⟨d, hd, hobs⟩ := Option.map_eq_some_iff.mp hrun
  obtain ⟨d₀, h₀, hr⟩ := reaches_of_bootRun
    (C := fun d i => deletesUsedCq d i = false) (fun _ _ _ hc => by simpa using hc) hd
  exact ⟨d₀, d, h₀, hr, hobs, (completions_not_dropped h₀ hr).1 1 hobs⟩

/-- Deleting CQ 1 under SQ 1 leaves an enabled submission queue whose completions are dropped. -/
theorem Device.sq_survives_its_cq :
    ∃ d, Reachable 1 d ∧ (d.n.sq 1).enabled = true ∧ (d.n.sq 1).cqid = 1 ∧
      (d.n.cq 1).enabled = false := by
  have hrun : (bootRun 1 (fun _ _ => true) (enableAdmin ++
      [.hostMemory createThenDelete, sqTailWrite 0 3] ++ iterations 4)).map
      (fun d => decide ((d.n.sq 1).enabled = true ∧ (d.n.sq 1).cqid = 1 ∧
        (d.n.cq 1).enabled = false)) = some true := by decide +kernel
  obtain ⟨d, hd, hobs⟩ := Option.map_eq_some_iff.mp hrun
  exact ⟨d, reachable_of_bootRun hd, of_decide_eq_true hobs⟩

end VfuKvssd
