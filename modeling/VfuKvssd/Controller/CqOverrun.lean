import VfuKvssd.Controller.QueueEvents
import VfuKvssd.Controller.QueueLinks
import VfuKvssd.Foundations.Rings

/-! # Completions that the host has not released

The CQ head doorbell is recorded in `cq.head`, which `nvme_post_cqe` never looks
at: it posts into a full queue as well. Runs in which no command is consumed
while its completion queue is full never overwrite an unreleased completion.
-/
namespace VfuKvssd
open Foundations

/-- Slots of a completion queue posted and not yet released: a head doorbell releases everything
posted before the slot it names. -/
def outstandingNext (c : QueueId) (l : List ℕ) : Event → List ℕ
  | .cqInit c' _ => if c' = c then [] else l
  | .posted c' slot _ => if c' = c then l ++ [slot.toNat] else l
  | .cqHead c' v => if c' = c then l.dropWhile (· ≠ v.toNat) else l
  | _ => l

def outstanding (c : QueueId) (es : List Event) : List ℕ := es.foldl (outstandingNext c) []

/-- Every head doorbell of an enabled completion queue has been in range. -/
def NvmeCtrl.HeadsInRange (n : NvmeCtrl) : Prop :=
  ∀ c, (n.cq c).enabled = true → (n.cq c).head.toNat < (n.cq c).size.toNat

instance (n : NvmeCtrl) : Decidable n.HeadsInRange := inferInstanceAs (Decidable (∀ _, _))

/-- Every tail doorbell of an enabled submission queue has been in range. -/
def NvmeCtrl.TailsInRange (n : NvmeCtrl) : Prop :=
  ∀ q, (n.sq q).enabled = true → (n.sq q).tail.toNat < (n.sq q).size.toNat

instance (n : NvmeCtrl) : Decidable n.TailsInRange := inferInstanceAs (Decidable (∀ _, _))

/-- By its own pointers the queue holds as many entries as it may. -/
def NvmeCq.full (cq : NvmeCq) : Bool := (cq.tail.toNat + 1) % cq.size.toNat == cq.head.toNat

/-- The input consumes a command that is to be completed, and the completion queue is full. -/
def postsToFull (d : Device) : Input → Bool
  | .iterate heap =>
    match d.busy with
    | none => false
    | some q =>
      d.fetches heap q && !(q == 0 && (d.n.headEntry q).opcode == nvmeAdmAsyncEvent) &&
        if h : (d.n.sq q).cqid.toNat < nvmeMaxQueues then
          (d.n.cq ⟨(d.n.sq q).cqid.toNat, h⟩).enabled && (d.n.cq ⟨(d.n.sq q).cqid.toNat, h⟩).full
        else false
  | _ => false

/-- Head doorbells stay in range and no completion is due while its queue is full. -/
def PostsWithRoom (d : Device) (i : Input) : Prop :=
  postsToFull d i = false ∧ ∀ d', d.step i = some d' → d'.n.HeadsInRange

theorem outstandingNext_data (c : QueueId) (l : List ℕ) (e : Event) (h : e.isData = true) :
    outstandingNext c l e = l := by
  cases e <;> first | rfl | cases h

theorem outstanding_append (c : QueueId) (es fs : List Event) :
    outstanding c (es ++ fs) = (queueEvents fs).foldl (outstandingNext c) (outstanding c es) := by
  rw [outstanding, List.foldl_append]
  exact foldl_queueEvents (outstandingNext_data c) _ fs

theorem outstanding_inert (c : QueueId) {es fs : List Event} (h : queueEvents fs = []) :
    outstanding c (es ++ fs) = outstanding c es := by
  rw [outstanding_append, h]
  rfl

/-- The outstanding slots are those right behind the tail, and there are no more of them than
between head and tail. -/
def NvmeCq.Holds (cq : NvmeCq) (l : List ℕ) : Prop :=
  ∃ m ≤ ringDist cq.size.toNat cq.head.toNat cq.tail.toNat,
    l = ringSlots cq.size.toNat cq.tail.toNat m

/-- Every enabled completion queue holds its outstanding slots. -/
def NvmeCtrl.Accounted (n : NvmeCtrl) : Prop :=
  ∀ c, (n.cq c).enabled = true → (n.cq c).Holds (outstanding c n.world.trace)

theorem NvmeCq.holds_nil (cq : NvmeCq) : cq.Holds [] := ⟨0, Nat.zero_le _, rfl⟩

theorem NvmeCq.Holds.length_lt {cq : NvmeCq} {l : List ℕ} (h : cq.Holds l) (hok : cq.Ok) :
    l.length < cq.size.toNat := by
  obtain ⟨m, hm, rfl⟩ := h
  rw [ringSlots_length]
  exact hm.trans_lt (ringDist_lt hok.size_pos _ _)

theorem NvmeCq.Holds.tail_not_mem {cq : NvmeCq} {l : List ℕ} (h : cq.Holds l) (hok : cq.Ok) :
    cq.tail.toNat ∉ l := by
  have hlen := h.length_lt hok
  obtain ⟨m, hm, rfl⟩ := h
  rw [ringSlots_length] at hlen
  exact not_mem_ringSlots hok.tail_lt hlen

theorem NvmeCq.advance_size (cq : NvmeCq) : cq.advance.size = cq.size := by
  rw [advance]; split <;> rfl

theorem NvmeCq.advance_head (cq : NvmeCq) : cq.advance.head = cq.head := by
  rw [advance]; split <;> rfl

theorem NvmeCq.advance_tail {cq : NvmeCq} (hok : cq.Ok) :
    cq.advance.tail.toNat = (cq.tail.toNat + 1) % cq.size.toNat := by
  have hl := hok.size_le
  have ht := hok.tail_lt
  have hw : (cq.tail + 1).toNat = (cq.tail.toNat + 1) % 2 ^ 16 := by simp [BitVec.toNat_add]
  have hcond : (cq.tail + 1).setWidth 32 = cq.size ↔ (cq.tail + 1).toNat = cq.size.toNat := by
    rw [← BitVec.toNat_inj, BitVec.toNat_setWidth]
    omega
  rw [add_mod_ring (by omega), advance]
  split
  · rename_i he
    rw [hcond] at he
    rw [show ({ cq with tail := 0, phase := cq.phase ^^^ 1 } : NvmeCq).tail.toNat = 0 from rfl]
    split_ifs <;> omega
  · rename_i he
    rw [hcond] at he
    rw [show ({ cq with tail := cq.tail + 1 } : NvmeCq).tail = cq.tail + 1 from rfl]
    split_ifs <;> omega

theorem NvmeCq.Holds.advance {cq : NvmeCq} {l : List ℕ} (h : cq.Holds l) (hok : cq.Ok)
    (hh : cq.head.toNat < cq.size.toNat) (hroom : cq.full = false) :
    cq.advance.Holds (l ++ [cq.tail.toNat]) := by
  have hlen := h.length_lt hok
  obtain ⟨m, hm, rfl⟩ := h
  rw [ringSlots_length] at hlen
  refine ⟨m + 1, ?_, ?_⟩
  · rw [advance_size, advance_head, advance_tail hok,
      ringDist_succ hh hok.tail_lt (by simpa [full] using hroom)]
    omega
  · rw [advance_size, advance_tail hok, ringSlots_snoc hok.tail_lt hlen]

theorem NvmeCq.Holds.release {cq : NvmeCq} {l : List ℕ} {v : BitVec 16} (h : cq.Holds l)
    (hok : cq.Ok) (hv : v.toNat < cq.size.toNat) :
    { cq with head := v }.Holds (l.dropWhile (· ≠ v.toNat)) := by
  have hlen := h.length_lt hok
  obtain ⟨m, hm, rfl⟩ := h
  rw [ringSlots_length] at hlen
  obtain ⟨k, hk, he⟩ := dropWhile_ringSlots hok.tail_lt hv hlen
  exact ⟨k, hk, he⟩

namespace NvmeCtrl.Accounted
variable {n n' : NvmeCtrl}

theorem congr (h : n.Accounted) (hcq : n'.cq = n.cq) (es : List Event)
    (htr : n'.world.trace = n.world.trace ++ es) (hes : queueEvents es = []) : n'.Accounted := by
  intro c he
  rw [htr, outstanding_inert c hes]
  rw [hcq] at he ⊢
  exact h c he

/-- The changes of a command keep the account: created queues start empty. -/
theorem managed (h : n.Accounted) {m : NvmeCtrl} (hcq : m.cq = n.cq) {xs es : List Event}
    (hm : Managed m n' xs) (htr : n'.world.trace = n.world.trace ++ es) {q : QueueId}
    {cqid : BitVec 16} {sqe : NvmeSqe} {cdw0 : BitVec 32} {st : Status}
    (hes : queueEvents es = xs ++ [.command q cqid sqe cdw0 st]) : n'.Accounted := by
  intro c he
  rw [htr, outstanding_append, hes, List.foldl_append]
  change (n'.cq c).Holds (xs.foldl (outstandingNext c) (outstanding c n.world.trace))
  cases hm with
  | same _ hcq' | createSq _ _ _ hcq' | deleteSq _ _ hcq' =>
    rw [hcq', hcq] at he ⊢
    exact h c he
  | @createCq c' _ x hx _ hcq' =>
    rw [hcq', hcq] at he ⊢
    by_cases hc : c = c'
    · subst hc
      simpa [outstandingNext] using NvmeCq.holds_nil x
    · simp only [List.foldl_cons, List.foldl_nil, outstandingNext, if_neg (Ne.symm hc),
        Function.update_of_ne hc] at he ⊢
      exact h c he
  | @deleteCq c' _ _ hcq' =>
    rw [hcq', hcq] at he ⊢
    by_cases hc : c = c'
    · subst hc
      simp at he
    · simp only [Function.update_of_ne hc] at he ⊢
      exact h c he

theorem switched (h : n.Accounted) {es : List Event} (hs : Switched n n' es)
    (htr : n'.world.trace = n.world.trace ++ es) : n'.Accounted := by
  intro c he
  cases hs with
  | same hsq hcq => exact (h.congr hcq _ htr rfl) c he
  | down hsq hcq =>
    rw [hcq c] at he
    cases he
  | @start x y hx hid hy hsq hcq =>
    rw [htr, outstanding_append]
    rw [hcq] at he ⊢
    by_cases hc : c = 0
    · subst hc
      simpa [queueEvents, Event.isData, outstandingNext] using NvmeCq.holds_nil y
    · simp only [Function.update_of_ne hc] at he ⊢
      simpa [queueEvents, Event.isData, outstandingNext, Ne.symm hc] using h c he

end NvmeCtrl.Accounted

theorem Served.accounted {n n' : NvmeCtrl} {heap : Heap} {q c : QueueId}
    (hs : Served n heap q c n') (h : n.Accounted) (hok : n.RingsOk) (hh : n.HeadsInRange)
    (hroom : (n.cq c).enabled = true → ¬ (q = 0 ∧ (n.headEntry q).opcode = nvmeAdmAsyncEvent) →
      (n.cq c).full = false) : n'.Accounted := by
  have hran {n₁ : NvmeCtrl} {st : Status} {cdw0 : BitVec 32} (hr : Ran n heap q c st cdw0 n₁) :
      n₁.Accounted := by
    obtain ⟨m, es, xs, -, hcq, hm, -, htr, hes⟩ := hr.managed
    exact h.managed hcq hm htr hes
  cases hs with
  | unanswered hr => exact hran hr
  | dropped hr => exact hran hr
  | @posted n₁ st cdw0 hr hst he =>
    obtain ⟨ps, irqs, hp⟩ := nvmePostTo_effect n₁ heap c (n.completion q c cdw0 st)
    obtain ⟨-, hcq, -⟩ := nvmePostTo_frame n₁ heap c (n.completion q c cdw0 st)
    have haer : ¬ (q = 0 ∧ (n.headEntry q).opcode = nvmeAdmAsyncEvent) :=
      fun ha => hst (hr.noComplete_iff.mpr ha)
    intro c' he'
    rw [hp.trace, List.append_assoc, List.append_assoc, outstanding_append, ← List.append_assoc,
      hp.queueEvents]
    rw [hcq] at he' ⊢
    by_cases hc : c' = c
    · subst hc
      have hholds := hran hr c' (by rw [hr.cq]; exact he)
      rw [hr.cq] at hholds
      simp only [Function.update_self, List.foldl_cons, List.foldl_nil, outstandingNext, if_true,
        hr.cq]
      exact hholds.advance (hok.cq c' he) (hh c' he) (hroom he haer)
    · simp only [Function.update_of_ne hc, List.foldl_cons, List.foldl_nil, outstandingNext,
        if_neg (Ne.symm hc)] at he' ⊢
      exact hran hr c' he'

theorem StepCase.accounted {d d' : Device} {i : Input} (hs : StepCase d i d') (hok : d.Ok)
    (hh : d.n.HeadsInRange) (h : d.n.Accounted) (hroom : postsToFull d i = false)
    (hh' : d'.n.HeadsInRange) : d'.n.Accounted := by
  cases hs with
  | read | msixRead => exact h.congr rfl [.reply _] rfl rfl
  | noQueue | sqTail | msixFailed | msixWrite | finished | fetchFailed | hostMemory | dmaRegions =>
    exact h.congr rfl [] (by simp) rfl
  | reset =>
    have hdown : Switched d.n (nvmeCtrlReset d.n) [] := .down (fun _ => rfl) fun _ => rfl
    exact h.switched hdown (List.append_nil _).symm
  | @cqHead hb offset buf c val hd =>
    intro c' he
    rw [NvmeCtrl.log_world, World.log_trace, outstanding_append]
    by_cases hc : c' = c
    · subst hc
      have hv := hh' c' he
      simp only [NvmeCtrl.log_cq, NvmeCtrl.setCq_cq, Function.update_self] at he hv ⊢
      simpa [queueEvents, Event.isData, outstandingNext] using
        (h c' he).release (hok.rings.cq c' he) hv
    · simp only [NvmeCtrl.log_cq, NvmeCtrl.setCq_cq, Function.update_of_ne hc] at he ⊢
      simpa [queueEvents, Event.isData, outstandingNext, Ne.symm hc] using h c' he
  | @register hb offset buf ho v hv =>
    obtain ⟨es, hw, hsw⟩ := nvmeRegStore_switched d.n offset v buf.length
    exact h.switched hsw (by simp [hw])
  | @consumed heap q hb hhd hx n hc =>
    obtain ⟨c, hserved⟩ := hc.served hok.rings (hok.busy q hb)
    refine hserved.accounted h hok.rings hh fun he ha => ?_
    have hown := hserved.own
    have hlt : (d.n.sq q).cqid.toNat < nvmeMaxQueues := hown ▸ c.isLt
    have hfetch := Device.fetches_iff.mpr ⟨hb, hhd, hx⟩
    have hc' : (⟨(d.n.sq q).cqid.toNat, hlt⟩ : QueueId) = c := Fin.ext hown
    simpa [postsToFull, hb, hfetch, hlt, hc', he, not_and_or.mp ha] using hroom

/-- In every run whose head doorbells are in range and in which no completion is due while its
queue is full, every enabled completion queue of size n has at most n - 1 completions posted and
not released, and no completion is written to a slot that holds one of them. -/
theorem Device.completions_not_overwritten {maxNumKeys : BitVec 32} {d₀ d : Device}
    (h₀ : Initial maxNumKeys d₀) (hr : Reaches step PostsWithRoom d₀ d) :
    (∀ c, (d.n.cq c).enabled = true →
      (outstanding c d.n.world.trace).length < (d.n.cq c).size.toNat) ∧
    ∀ heap d' c slot cqe, d.step (.iterate heap) = some d' →
      .posted c slot cqe ∈ d.newEvents d' → slot.toNat ∉ outstanding c d.n.world.trace := by
  obtain ⟨hok, hh, hacc⟩ : d.Ok ∧ d.n.HeadsInRange ∧ d.n.Accounted := by
    apply hr.invariant (I := fun d => d.Ok ∧ d.n.HeadsInRange ∧ d.n.Accounted)
    · rintro s i t ⟨hok, hh, h⟩ ⟨hroom, hnext⟩ hs
      have hcase := step_cases hs
      exact ⟨hcase.ok hok, hnext t hs, hcase.accounted hok hh h hroom (hnext t hs)⟩
    · have hoff := h₀.queues_off.2
      exact ⟨h₀.ok, fun c he => by simp [hoff] at he, fun c he => by simp [hoff] at he⟩
  refine ⟨fun c he => (hacc c he).length_lt (hok.rings.cq c he), ?_⟩
  intro heap d' c slot cqe hs hmem
  cases step_cases hs with
  | finished | fetchFailed =>
    have hnew : d.newEvents ⟨d.n, none⟩ = [] := newEvents_eq (by simp)
    rw [hnew] at hmem
    cases hmem
  | @consumed _ q hb hhd hx n hc =>
    obtain ⟨c', hserved⟩ := hc.served hok.rings (hok.busy q hb)
    obtain ⟨st, cdw0, xs, ys, es, htr, hes, hxs, hys⟩ := hserved.events
    rw [newEvents_eq htr, ← mem_queueEvents rfl, hes, List.mem_append, List.mem_append,
      List.mem_singleton] at hmem
    rcases hmem with (hmem | hmem) | hmem
    · rcases hxs _ hmem with ⟨_, _, he⟩ | ⟨_, _, he⟩ <;> cases he
    · cases hmem
    · obtain ⟨he, hpost⟩ := hys _ hmem
      injection hpost with hc' hslot
      subst hc' hslot
      exact (hacc c he).tail_not_mem (hok.rings.cq c he)

def staysInRange (d : Device) (i : Input) : Bool :=
  match d.step i with
  | none => true
  | some d' => decide (d'.n.HeadsInRange ∧ d'.n.TailsInRange)

theorem staysInRange_next {d d' : Device} {i : Input} (h : staysInRange d i = true)
    (hs : d.step i = some d') : d'.n.HeadsInRange ∧ d'.n.TailsInRange := by
  rw [staysInRange, hs] at h
  exact of_decide_eq_true h

/-- Admin queues of 16 and 2 entries and three commands in one doorbell. -/
def smallCqInputs (consumed : ℕ) : List Input :=
  [regWrite nvmeRegAqa 0x0001000f, regWrite nvmeRegAcq 0x10000, regWrite nvmeRegCc 1,
    sqTailWrite 0 3] ++ iterations consumed

theorem Device.completions_not_overwritten_one :
    ∃ d₀ d, Initial 1 d₀ ∧ Reaches step PostsWithRoom d₀ d ∧ (d.n.cq 0).enabled = true ∧
      (d.n.cq 0).size = 2 ∧ (outstanding 0 d.n.world.trace).length = 1 ∧
      (outstanding 0 d.n.world.trace).length < (d.n.cq 0).size.toNat := by
  have hrun : (bootRun 1 (fun d i => !postsToFull d i && staysInRange d i) (smallCqInputs 1)).map
      (fun d => decide ((d.n.cq 0).enabled = true ∧ (d.n.cq 0).size = 2 ∧
        (outstanding 0 d.n.world.trace).length = 1)) = some true := by decide +kernel
  obtain ⟨d, hd, hobs⟩ := Option.map_eq_some_iff.mp hrun
  obtain ⟨he, hsize, hone⟩ := of_decide_eq_true hobs
  obtain ⟨d₀, h₀, hr⟩ := reaches_of_bootRun (C := PostsWithRoom) (fun d i _ hok => by
    rw [Bool.and_eq_true, Bool.not_eq_true'] at hok
    exact ⟨hok.1, fun d' hs => (staysInRange_next hok.2 hs).1⟩) hd
  exact ⟨d₀, d, h₀, hr, he, hsize, hone, (completions_not_overwritten h₀ hr).1 0 he⟩

/-- With all doorbells in range, the third completion overwrites the first one, which the host has
not released, and three are outstanding in a queue of two. -/
theorem Device.third_completion_overwrites :
    ∃ d₀ d d' slot cqe, Initial 1 d₀ ∧
      Reaches step (fun d i => ∀ d', d.step i = some d' → d'.n.HeadsInRange ∧ d'.n.TailsInRange) d₀ d ∧
      d.step (.iterate fun _ => true) = some d' ∧ .posted 0 slot cqe ∈ d.newEvents d' ∧
      slot.toNat ∈ outstanding 0 d.n.world.trace ∧ (d'.n.cq 0).enabled = true ∧
      (d'.n.cq 0).size = 2 ∧ (outstanding 0 d'.n.world.trace).length = 3 := by
  have hrun : ((bootRun 1 staysInRange (smallCqInputs 2)).bind fun d =>
      (d.step (.iterate fun _ => true)).map fun d' =>
        ((d.newEvents d').any fun e => match e with
          | .posted c slot _ => c == 0 && decide (slot.toNat ∈ outstanding 0 d.n.world.trace)
          | _ => false) &&
        decide ((d'.n.cq 0).enabled = true ∧ (d'.n.cq 0).size = 2 ∧
          (outstanding 0 d'.n.world.trace).length = 3)) = some true := by decide +kernel
  obtain ⟨d, hd, hmap⟩ := Option.bind_eq_some_iff.mp hrun
  obtain ⟨d', hstep, hobs⟩ := Option.map_eq_some_iff.mp hmap
  obtain ⟨hany, hend⟩ := (Bool.and_eq_true _ _).mp hobs
  obtain ⟨e, he, hpost⟩ := List.any_eq_true.mp hany
  obtain ⟨d₀, h₀, hr⟩ := reaches_of_bootRun
    (C := fun d i => ∀ d', d.step i = some d' → d'.n.HeadsInRange ∧ d'.n.TailsInRange)
    (fun _ _ _ hok _ hs => staysInRange_next hok hs) hd
  cases e with
  | posted c slot cqe =>
    rw [Bool.and_eq_true, beq_iff_eq, decide_eq_true_eq] at hpost
    obtain ⟨rfl, hmem⟩ := hpost
    exact ⟨d₀, d, d', slot, cqe, h₀, hr, hstep, he, hmem, of_decide_eq_true hend⟩
  | _ => cases hpost

end VfuKvssd
