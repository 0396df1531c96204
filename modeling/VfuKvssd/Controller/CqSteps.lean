import VfuKvssd.Controller.QueueViews

/-! # A step seen from one completion queue

Every step leaves the queue alone, takes it down, starts it afresh, or posts one
entry to it. Only the last moves its tail and its phase.
-/
namespace VfuKvssd
open Foundations

/-- Events that start a completion queue or post to it. -/
def Event.Concerns (c : QueueId) : Event → Prop
  | .cqInit c' _ => c' = c
  | .posted c' _ _ => c' = c
  | _ => False

instance (c : QueueId) (e : Event) : Decidable (e.Concerns c) :=
  match e with
  | .cqInit .. | .posted .. => inferInstanceAs (Decidable (_ = _))
  | .dmaRead .. | .dmaWrite .. | .irq _ | .h2c .. | .c2h .. | .sqInit .. | .cqHead .. | .command ..
  | .reply _ => .isFalse id

theorem Event.Concerns.not_isData {c : QueueId} {e : Event} (h : e.Concerns c) :
    e.isData = false := by
  cases e <;> first | rfl | cases h

/-- A change of the controller that posts nothing to a completion queue. -/
inductive CqChange (n n' : NvmeCtrl) (c : QueueId) : Prop
  /-- nothing changes but the head, which the host sets -/
  | kept {es : List Event} (htr : n'.world.trace = n.world.trace ++ es)
      (hes : ∀ e ∈ es, ¬ e.Concerns c) {v : BitVec 16} (hcq : n'.cq c = { n.cq c with head := v })
  | stopped {es : List Event} (htr : n'.world.trace = n.world.trace ++ es)
      (hes : ∀ slot cqe, .posted c slot cqe ∉ es) (hoff : (n'.cq c).enabled = false)
  | created {es : List Event} (htr : n'.world.trace = n.world.trace ++ es)
      (hes : ∀ slot cqe, .posted c slot cqe ∉ es) (hi : .cqInit c (n'.cq c).size.toNat ∈ es)
      (hf : (n'.cq c).Fresh)

/-- The outcomes of a step for a completion queue. -/
inductive CqStep (d : Device) (i : Input) (d' : Device) (c : QueueId) : Prop
  | changed (h : CqChange d.n d'.n c)
  | posted {heap : Heap} {q : QueueId} {st : Status} {cdw0 : BitVec 32} {n₁ : NvmeCtrl}
      {pre : List Event} (hi : i = .iterate heap) (hf : d.fetches heap q = true)
      (hr : Ran d.n heap q c st cdw0 n₁) (hst : st ≠ nvmeNoComplete)
      (he : (d.n.cq c).enabled = true)
      (htr : n₁.world.trace = d.n.world.trace ++ pre ++
        [.command q (d.n.sq q).cqid (d.n.headEntry q) cdw0 st])
      (hpre : ∀ e ∈ pre, ¬ e.Concerns c)
      (hn : d'.n = nvmePostTo n₁ heap c (d.n.completion q c cdw0 st))

namespace CqChange
variable {n n' n'' : NvmeCtrl} {c : QueueId}

theorem of_data {es : List Event} (hcq : n'.cq c = n.cq c)
    (htr : n'.world.trace = n.world.trace ++ es) (hes : queueEvents es = []) : CqChange n n' c := by
  refine .kept htr (fun e he hc => ?_) (v := (n.cq c).head) hcq
  have hmem := (mem_queueEvents hc.not_isData).mpr he
  rw [hes] at hmem
  cases hmem

/-- Events that concern another queue change nothing. -/
theorem append (h : CqChange n n' c) {fs : List Event} (hcq : n''.cq c = n'.cq c)
    (htr : n''.world.trace = n'.world.trace ++ fs) (hfs : ∀ e ∈ fs, ¬ e.Concerns c) :
    CqChange n n'' c := by
  have hposted {es : List Event} (hes : ∀ slot cqe, .posted c slot cqe ∉ es) (slot : BitVec 16)
      (cqe : NvmeCqe) : .posted c slot cqe ∉ es ++ fs := by
    rw [List.mem_append]
    rintro (hm | hm)
    · exact hes slot cqe hm
    · exact hfs _ hm rfl
  cases h with
  | kept htr' hes hcq' =>
    refine .kept (by rw [htr, htr', List.append_assoc]) (fun e he => ?_) (hcq.trans hcq')
    rcases List.mem_append.mp he with he | he
    · exact hes e he
    · exact hfs e he
  | stopped htr' hes hoff =>
    exact .stopped (by rw [htr, htr', List.append_assoc]) (hposted hes) (hcq ▸ hoff)
  | created htr' hes hi hf =>
    rw [← hcq] at hi hf
    exact .created (by rw [htr, htr', List.append_assoc]) (hposted hes)
      (List.mem_append_left _ hi) hf

end CqChange

theorem Managed.cqChange {n m n' : NvmeCtrl} {xs es : List Event} (hm : Managed m n' xs)
    (hcq : m.cq = n.cq) (htr : n'.world.trace = n.world.trace ++ es) {q : QueueId}
    {cqid : BitVec 16} {sqe : NvmeSqe} {cdw0 : BitVec 32} {st : Status}
    (hes : queueEvents es = xs ++ [.command q cqid sqe cdw0 st]) (c : QueueId) :
    CqChange n n' c := by
  have hmem {e : Event} (hd : e.isData = false) (he : e ∈ es) :
      e ∈ xs ∨ e = .command q cqid sqe cdw0 st := by
    rw [← mem_queueEvents hd, hes, List.mem_append, List.mem_singleton] at he
    exact he
  have hquiet (hxs : ∀ e ∈ xs, ¬ e.Concerns c) : ∀ e ∈ es, ¬ e.Concerns c := by
    intro e he hc
    rcases hmem hc.not_isData he with hx | rfl
    · exact hxs e hx hc
    · exact hc
  cases hm with
  | same _ hcq' =>
    exact .kept htr (hquiet (by simp)) (v := (n.cq c).head) (by rw [hcq', hcq])
  | createSq _ _ _ hcq' =>
    exact .kept htr (hquiet (by simp [Event.Concerns])) (v := (n.cq c).head) (by rw [hcq', hcq])
  | deleteSq _ _ hcq' =>
    exact .kept htr (hquiet (by simp)) (v := (n.cq c).head) (by rw [hcq', hcq])
  | @createCq b _ x hx _ hcq' =>
    by_cases hb : c = b
    · subst hb
      have hcq'' : n'.cq c = x := by rw [hcq', Function.update_self]
      refine .created htr (fun slot cqe hp => ?_) ?_ (hcq'' ▸ hx)
      · rcases hmem rfl hp with hp | hp
        · simp at hp
        · cases hp
      · rw [hcq'', ← mem_queueEvents rfl, hes]
        exact List.mem_append_left _ (List.mem_singleton.mpr rfl)
    · refine .kept htr (hquiet (by simp [Event.Concerns, Ne.symm hb])) (v := (n.cq c).head) ?_
      rw [hcq', Function.update_of_ne hb, hcq]
  | @deleteCq b _ _ hcq' =>
    by_cases hb : c = b
    · subst hb
      refine .stopped htr (fun slot cqe hp => ?_) (by rw [hcq', Function.update_self])
      rcases hmem rfl hp with hp | hp
      · cases hp
      · cases hp
    · refine .kept htr (hquiet (by simp)) (v := (n.cq c).head) ?_
      rw [hcq', Function.update_of_ne hb, hcq]

theorem Ran.cqChange {n n₁ : NvmeCtrl} {heap : Heap} {q b : QueueId} {st : Status}
    {cdw0 : BitVec 32} (h : Ran n heap q b st cdw0 n₁) (c : QueueId) : CqChange n n₁ c := by
  obtain ⟨m, es, xs, -, hcq, hm, -, htr, hes⟩ := h.managed
  exact hm.cqChange hcq htr hes c

/-- A command neither starts its own completion queue nor posts to it. -/
theorem Ran.command_last {n n₁ : NvmeCtrl} {heap : Heap} {q c : QueueId} {st : Status}
    {cdw0 : BitVec 32} (h : Ran n heap q c st cdw0 n₁) (hadmin : (n.sq 0).cqid = 0) :
    ∃ pre, n₁.world.trace = n.world.trace ++ pre ++
        [.command q (n.sq q).cqid (n.headEntry q) cdw0 st] ∧ ∀ e ∈ pre, ¬ e.Concerns c := by
  obtain ⟨fs, ys, hlast, -⟩ := h.world
  obtain ⟨m, es, xs, -, hcq, hm, hio, htr, hes⟩ := h.managed
  refine ⟨fs ++ ys, by simpa using hlast, fun e he hc => ?_⟩
  have hall : es = fs ++ ys ++ [.command q (n.sq q).cqid (n.headEntry q) cdw0 st] := by
    rw [hlast, List.append_assoc, List.append_assoc] at htr
    rw [← List.append_cancel_left htr, List.append_assoc]
  have hmem : e ∈ xs ++ [.command q (n.sq q).cqid (n.headEntry q) cdw0 st] := by
    rw [← hes, mem_queueEvents hc.not_isData, hall]
    exact List.mem_append_left _ he
  rw [List.mem_append, List.mem_singleton] at hmem
  rcases hmem with hx | rfl
  swap
  · exact hc
  by_cases hq : q = 0
  · -- the admin queues complete on queue 0, which no command creates
    have hc0 : c = 0 := by
      apply Fin.ext
      rw [← h.own, hq, hadmin]
      rfl
    subst hc0
    cases hm with
    | same | deleteCq | deleteSq => cases hx
    | createCq hb =>
      rw [List.mem_singleton.mp hx] at hc
      exact hb hc
    | createSq =>
      rw [List.mem_singleton.mp hx] at hc
      exact hc
  · rw [(hio hq).2.2] at hx
    cases hx

theorem nvmeRegStore_cqChange (n : NvmeCtrl) (offset : ℕ) (v : BitVec 64) (count : ℕ)
    (c : QueueId) : CqChange n (nvmeRegStore n offset v count) c := by
  obtain ⟨es, hw, hs⟩ := nvmeRegStore_switched n offset v count
  have htr : (nvmeRegStore n offset v count).world.trace = n.world.trace ++ es := by rw [hw]
  have hnone (slot : BitVec 16) (cqe : NvmeCqe) : .posted c slot cqe ∉ es := by
    have hes : es = [] ∨ ∃ k, es = [.sqInit 0 0, .cqInit 0 k] := by
      rcases nvmeRegStore_cases n offset v count with ⟨-, he⟩ | ⟨-, _, _, _, _, _, he⟩
      · rw [he, nvmeCcWrite_world] at htr
        split at htr
        · simp only [World.log_trace, List.append_assoc, List.append_cancel_left_eq] at htr
          exact .inr ⟨_, htr.symm⟩
        · exact .inl (List.self_eq_append_right.mp htr)
      · rw [he] at htr
        exact .inl (List.self_eq_append_right.mp htr)
    rcases hes with rfl | ⟨k, rfl⟩ <;> simp
  cases hs with
  | same _ hcq => exact .of_data (congrFun hcq c) htr rfl
  | down _ hcq => exact .stopped htr hnone (hcq c)
  | @start x y _ _ hy _ hcq =>
    by_cases hc : c = 0
    · subst hc
      have hcq' : (nvmeRegStore n offset v count).cq 0 = y := by rw [hcq, Function.update_self]
      exact .created htr hnone (by simp [hcq']) (hcq' ▸ hy)
    · refine .kept htr (by simp [Event.Concerns, Ne.symm hc]) (v := (n.cq c).head) ?_
      rw [hcq, Function.update_of_ne hc]

theorem nvmePostTo_quiet (n : NvmeCtrl) (heap : Heap) {b c : QueueId} (hb : c ≠ b)
    (cqe : NvmeCqe) :
    (nvmePostTo n heap b cqe).cq c = n.cq c ∧
      ∃ fs, (nvmePostTo n heap b cqe).world.trace = n.world.trace ++ fs ∧
        ∀ e ∈ fs, ¬ e.Concerns c := by
  obtain ⟨es, irqs, hp⟩ := nvmePostTo_effect n heap b cqe
  refine ⟨by rw [(nvmePostTo_frame n heap b cqe).2.1, Function.update_of_ne hb],
    es ++ [.posted b (n.cq b).tail cqe] ++ irqs, by rw [hp.trace]; simp, fun e he hc => ?_⟩
  rw [← mem_queueEvents hc.not_isData, hp.queueEvents, List.mem_singleton] at he
  rw [he] at hc
  exact hb hc.symm

theorem StepCase.cqStep {d d' : Device} {i : Input} (hs : StepCase d i d') (hok : d.Ok)
    (c : QueueId) : CqStep d i d' c := by
  cases hs with
  | read | msixRead => exact .changed (.of_data rfl rfl rfl)
  | noQueue | sqTail | msixFailed | msixWrite | finished | fetchFailed | hostMemory | dmaRegions =>
    exact .changed (.of_data rfl (List.append_nil _).symm rfl)
  | reset => exact .changed (.stopped (List.append_nil _).symm (by simp) rfl)
  | @cqHead hb offset buf b val hd =>
    by_cases hc : c = b
    · subst hc
      exact .changed (.kept (v := val) rfl (by simp [Event.Concerns]) (by simp))
    · exact .changed (.kept (v := (d.n.cq c).head) rfl (by simp [Event.Concerns]) (by simp [hc]))
  | @register hb offset buf ho v hv =>
    exact .changed (nvmeRegStore_cqChange d.n offset v buf.length c)
  | @consumed heap q hb hh hx n hc =>
    obtain ⟨b, hserved⟩ := hc.served hok.rings (hok.busy q hb)
    cases hserved with
    | unanswered hr | dropped hr => exact .changed (hr.cqChange c)
    | @posted n₁ st cdw0 hr hst he =>
      by_cases hbc : c = b
      · subst hbc
        obtain ⟨pre, htr, hpre⟩ := hr.command_last hok.rings.admin
        exact .posted rfl (Device.fetches_iff.mpr ⟨hb, hh, hx⟩) hr hst he htr hpre rfl
      · obtain ⟨hcq, fs, hfs, hquiet⟩ := nvmePostTo_quiet n₁ heap hbc (d.n.completion q b cdw0 st)
        exact .changed ((hr.cqChange c).append hcq hfs hquiet)

end VfuKvssd
