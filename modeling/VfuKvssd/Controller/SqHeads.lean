import VfuKvssd.Controller.RingHoles
import VfuKvssd.Controller.Iterations

/-! # The submission head that completions report

The head of a submission queue counts the entries consumed since its creation,
modulo its size. A completion reports it, so that the host can tell which slots
are free again.
-/
namespace VfuKvssd
open Foundations

theorem Ran.executed {n n₁ : NvmeCtrl} {heap : Heap} {q c : QueueId} {st : Status}
    {cdw0 : BitVec 32} (hr : Ran n heap q c st cdw0 n₁) :
    executed q n₁.world.trace = VfuKvssd.executed q n.world.trace ++ [n.headEntry q] := by
  obtain ⟨m, es, xs, -, -, hm, hio, htr, hes⟩ := hr.managed
  have hquiet := hm.sqQuiet (q := q) fun h => (hio h).2.2
  rw [htr, executed_append, hes, List.foldl_append, List.foldl_cons, List.foldl_nil, executedNext,
    if_pos rfl, hquiet.executed]

theorem nvmePostTo_executed (n : NvmeCtrl) (heap : Heap) (c : QueueId) (cqe : NvmeCqe)
    (q : QueueId) :
    executed q (nvmePostTo n heap c cqe).world.trace = executed q n.world.trace := by
  obtain ⟨es, irqs, hp⟩ := nvmePostTo_effect n heap c cqe
  rw [hp.trace, List.append_assoc, List.append_assoc, executed_append, ← List.append_assoc,
    hp.queueEvents]
  rfl

/-- Every enabled submission queue stands behind the entries that it has executed. -/
def HeadCounts (n : NvmeCtrl) : Prop :=
  ∀ q, (n.sq q).enabled = true →
    (n.sq q).head.toNat = (executed q n.world.trace).length % (n.sq q).size.toNat

namespace HeadCounts
variable {n n' : NvmeCtrl}

/-- Queues keep their head and size, or are created, and the log agrees. -/
theorem view (h : HeadCounts n) {es : List Event} (htr : n'.world.trace = n.world.trace ++ es)
    (hv : ∀ q, (n'.sq q).enabled = true → SqView n n' q (queueEvents es)) : HeadCounts n' := by
  intro q he
  rw [htr, executed_append]
  cases hv q he with
  | kept hsq hex =>
    rw [hsq] at he ⊢
    rw [hex]
    exact h q he
  | created hf hex =>
    rw [hex, hf.head]
    exact (Nat.zero_mod _).symm

theorem congr (h : HeadCounts n) {es : List Event} (htr : n'.world.trace = n.world.trace ++ es)
    (hes : ∀ q l, (queueEvents es).foldl (executedNext q) l = l)
    (hsq : ∀ q, (n'.sq q).enabled = true → (n.sq q).enabled = true ∧
      (n'.sq q).head = (n.sq q).head ∧ (n'.sq q).size = (n.sq q).size) : HeadCounts n' := by
  intro q he
  obtain ⟨hen, hhead, hsize⟩ := hsq q he
  rw [htr, executed_append, hes, hhead, hsize]
  exact h q hen

theorem ran (h : HeadCounts n) (hok : n.RingsOk) {heap : Heap} {q c : QueueId} {st : Status}
    {cdw0 : BitVec 32} {n₁ : NvmeCtrl} (hr : Ran n heap q c st cdw0 n₁)
    (he : (n.sq q).enabled = true) : HeadCounts n₁ := by
  intro p hp
  by_cases hpq : p = q
  · subst hpq
    rw [hr.sq, hr.executed, List.length_append, List.length_singleton]
    change (n.sq p).nextHead.toNat = _
    rw [NvmeSq.nextHead_toNat (hok.sq p he), h p he, Nat.mod_add_mod]
    rfl
  · obtain ⟨m, es, xs, hsq, -, hm, -, htr, hes⟩ := hr.managed
    rw [htr, executed_append, hes, List.foldl_append, List.foldl_cons, List.foldl_nil,
      executedNext, if_neg (Ne.symm hpq)]
    cases hm.sqView hp with
    | kept hkept hex =>
      rw [hkept, hsq, Function.update_of_ne hpq] at hp ⊢
      rw [hex]
      exact h p hp
    | created hf hex =>
      rw [hex, hf.head]
      exact (Nat.zero_mod _).symm

theorem served (h : HeadCounts n) (hok : n.RingsOk) {heap : Heap} {q c : QueueId}
    (hs : Served n heap q c n') (he : (n.sq q).enabled = true) : HeadCounts n' := by
  cases hs with
  | unanswered hr | dropped hr => exact h.ran hok hr he
  | @posted n₁ st cdw0 hr =>
    have hran := h.ran hok hr he
    intro p hen
    rw [(nvmePostTo_frame n₁ heap c _).1] at hen ⊢
    rw [nvmePostTo_executed]
    exact hran p hen

theorem step {d d' : Device} {i : Input} (h : HeadCounts d.n) (hok : d.Ok)
    (hs : StepCase d i d') : HeadCounts d'.n := by
  have hkept {n' : NvmeCtrl} (htr : n'.world.trace = d.n.world.trace) (hsq : n'.sq = d.n.sq) :
      HeadCounts n' := by
    have htr' : n'.world.trace = d.n.world.trace ++ [] := by simpa using htr
    refine h.congr htr' (fun _ _ => rfl) fun q he => ?_
    rw [hsq] at he ⊢
    exact ⟨he, rfl, rfl⟩
  cases hs with
  | read | msixRead | cqHead =>
    exact h.congr rfl (fun _ _ => rfl) fun q he => ⟨he, rfl, rfl⟩
  | noQueue | msixFailed | msixWrite | finished | fetchFailed | hostMemory | dmaRegions =>
    exact hkept rfl rfl
  | @sqTail _ _ _ q val _ =>
    refine h.congr (List.append_nil _).symm (fun _ _ => rfl) fun p he => ?_
    by_cases hp : p = q
    · subst hp
      simpa using he
    · simpa [hp] using he
  | reset =>
    intro q he
    cases he
  | register =>
    obtain ⟨es, hw, hsw⟩ := nvmeRegStore_switched d.n _ _ _
    exact h.view (by rw [hw]) fun q he => hsw.sqView he
  | @consumed heap q hb _ _ n hc =>
    obtain ⟨c, hserved⟩ := hc.served hok.rings (hok.busy q hb)
    exact h.served hok.rings hserved (hok.busy q hb)

end HeadCounts

theorem Device.Reachable.headCounts {maxNumKeys : BitVec 32} {d : Device}
    (hd : d.Reachable maxNumKeys) : HeadCounts d.n := by
  have h : d.Ok ∧ HeadCounts d.n := by
    refine hd.invariant (I := fun d => d.Ok ∧ HeadCounts d.n)
      (fun d₀ h₀ => ⟨h₀.ok, fun q he => ?_⟩) fun _ _ _ h hs => ⟨hs.ok h.1, h.2.step h.1 hs⟩
    rw [h₀.queues_off.1 q] at he
    cases he
  exact h.2

/-- The phase tag does not reach the status field. -/
theorem cqeFor_answers (cq : NvmeCq) (q : QueueId) (sqHead : BitVec 16) (sqe : NvmeSqe)
    (cdw0 : BitVec 32) (st : Status) :
    Answers (cqeFor cq (BitVec.ofNat 16 q.val) sqHead sqe.cid cdw0 st) ⟨q, sqe, cdw0, st⟩ := by
  refine ⟨rfl, rfl, rfl, ?_⟩
  have hphase : ({ cq with phase := cq.phase &&& 1 } : NvmeCq).phase =
      if cq.phase.getLsbD 0 then 1 else 0 := by
    change cq.phase &&& 1 = _
    rw [show (1 : BitVec 8) = 1#8 from rfl, BitVec.and_one_eq_setWidth_ofBool_getLsbD]
    cases cq.phase.getLsbD 0 <;> rfl
  rw [← cqeFor_status hphase (BitVec.ofNat 16 q.val) sqHead sqe.cid cdw0 st, cqeFor, cqeFor,
    BitVec.and_assoc]
  rfl

/-- A completion that a step of a run posts answers the entry that stands in the next slot of its
submission queue, counted from the queue's creation on, with what this entry came to in the step,
and reports the slot behind it as the queue's head. -/
theorem Device.Reachable.sq_heads {maxNumKeys : BitVec 32} {d d' : Device} {i : Input}
    (hd : d.Reachable maxNumKeys) (hs : d.step i = some d') {c : QueueId} {slot : BitVec 16}
    {cqe : NvmeCqe} (hpost : .posted c slot cqe ∈ d.newEvents d') :
    ∃ q cdw0 st, d.busy = some q ∧ (d.n.sq q).cqid.toNat = c.val ∧
      let size := (d.n.sq q).size.toNat
      let done := executed q d.n.world.trace
      let sqe := (d.n.sq q).entry d.n.world.mem (done.length % size)
      executed q d'.n.world.trace = done ++ [sqe] ∧
        .command q (d.n.sq q).cqid sqe cdw0 st ∈ d.newEvents d' ∧
        Answers cqe ⟨q, sqe, cdw0, st⟩ ∧ cqe.sqHead.toNat = (done.length + 1) % size := by
  cases (step_cases hs).cqStep hd.ok c with
  | changed hc =>
    obtain ⟨es, htr⟩ := hd.trace (.single i trivial hs)
    rw [newEvents_eq htr] at hpost
    exact absurd hpost (hc.not_posted htr slot cqe)
  | @posted heap q st cdw0 n₁ before hi hf hr hst he htr hbefore hn =>
    obtain ⟨hb, -, -⟩ := fetches_iff.mp hf
    have hen := hd.ok.busy q hb
    obtain ⟨es, irqs, hp⟩ := nvmePostTo_effect n₁ heap c (d.n.completion q c cdw0 st)
    have htr' : d'.n.world.trace = d.n.world.trace ++
        (before ++ [.command q (d.n.sq q).cqid (d.n.headEntry q) cdw0 st] ++
          (es ++ [.posted c (n₁.cq c).tail (d.n.completion q c cdw0 st)] ++ irqs)) := by
      rw [hn, hp.trace, htr]
      simp
    have hcqe : cqe = d.n.completion q c cdw0 st := by
      rw [newEvents_eq htr', List.mem_append, List.mem_append] at hpost
      rcases hpost with (hm | hm) | hm
      · exact absurd rfl (hbefore _ hm)
      · cases List.mem_singleton.mp hm
      · rw [← mem_queueEvents rfl, hp.queueEvents, List.mem_singleton] at hm
        injection hm
    have hcount := hd.headCounts q hen
    refine ⟨q, cdw0, st, hb, hr.own, ?_, ?_, ?_, ?_⟩
    · rw [hn, nvmePostTo_executed, hr.executed, NvmeCtrl.headEntry_eq, hcount]
    · rw [newEvents_eq htr', ← hcount, ← NvmeCtrl.headEntry_eq]
      exact List.mem_append_left _ (List.mem_append_right _ (List.mem_singleton_self _))
    · rw [hcqe, NvmeCtrl.completion, NvmeCtrl.headEntry_eq, hcount]
      exact cqeFor_answers _ _ _ _ _ _
    · rw [hcqe]
      change (d.n.sq q).nextHead.toNat = _
      rw [NvmeSq.nextHead_toNat (hd.ok.rings.sq q hen), hcount, Nat.mod_add_mod]

/-- The second command of an admin queue of 16 entries is completed with head 2. -/
theorem Device.Reachable.sq_heads_second :
    ∃ d d' heap c slot cqe, Reachable 1 d ∧ d.step (.iterate heap) = some d' ∧
      .posted c slot cqe ∈ d.newEvents d' ∧ cqe.sqHead.toNat = 2 := by
  have hrun : ((bootRun 1 (fun _ _ => true) (enableAdmin ++ [sqTailWrite 0 2] ++
      iterations 1)).bind fun d => (d.step (.iterate fun _ => true)).map fun d' =>
        decide (d.busy = some 0 ∧ (d.n.sq 0).size = 16 ∧
          (executed 0 d.n.world.trace).length = 1) &&
        (d.newEvents d').any fun e => !(postsNext 0 [] e).isEmpty) = some true := by decide +kernel
  obtain ⟨d, hd, hrest⟩ := Option.bind_eq_some_iff.mp hrun
  obtain ⟨d', hd', hobs⟩ := Option.map_eq_some_iff.mp hrest
  rw [Bool.and_eq_true, decide_eq_true_eq, List.any_eq_true] at hobs
  obtain ⟨⟨hb, hsize, hdone⟩, e, he, hpost⟩ := hobs
  have hr : Reachable 1 d := reachable_of_bootRun hd
  cases e with
  | posted c slot cqe =>
    obtain ⟨q, cdw0, st, hq, -, -, -, -, hhead⟩ := hr.sq_heads hd' he
    obtain rfl : 0 = q := Option.some.inj (hb.symm.trans hq)
    rw [hdone, hsize] at hhead
    exact ⟨d, d', _, c, slot, cqe, hr, hd', he, hhead⟩
  | _ => simp [postsNext] at hpost

end VfuKvssd
