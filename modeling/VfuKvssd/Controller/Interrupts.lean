import VfuKvssd.Controller.Iterations
import VfuKvssd.Controller.PhaseTags
import VfuKvssd.Foundations.Pairs

/-! # Interrupts

`nvme_post_cqe` raises the vector kept in the completion queue right after it has
posted to it, whether or not the write of the entry worked. The vector is the one
that the last Create CQ of the queue asked for; the admin queue keeps vector 0.
-/
namespace VfuKvssd
open Foundations

/-- The vector that the commands of a log have given to a completion queue. -/
def vectorNext (c : QueueId) (v : ℕ) : Event → ℕ
  | .command q _ sqe _ _ =>
    if q = 0 ∧ sqe.opcode = nvmeAdmCreateCq ∧ ioQueue sqe.qid = some c then sqe.target.toNat else v
  | _ => v

def vector (c : QueueId) (es : List Event) : ℕ := es.foldl (vectorNext c) 0

def Event.IsPost : Event → Prop
  | .posted _ _ _ => True
  | _ => False

def Event.IsIrq : Event → Prop
  | .irq _ => True
  | _ => False

/-- Events other than commands, completions and interrupts. -/
def Event.IsQuiet : Event → Prop
  | .command _ _ _ _ _ | .posted _ _ _ | .irq _ => False
  | _ => True

theorem Event.IsPost.not_irq (e : Event) (h : e.IsPost) : ¬ e.IsIrq := by
  cases e <;> simp_all [IsPost, IsIrq]

theorem Event.IsQuiet.neither {e : Event} (h : e.IsQuiet) : ¬ e.IsPost ∧ ¬ e.IsIrq := by
  cases e <;> simp_all [IsQuiet, IsPost, IsIrq]

/-- The interrupt that belongs to a completion. -/
def Raises (es : List Event) (a b : Event) : Prop :=
  ∃ c slot cqe, a = .posted c slot cqe ∧ b = .irq (vector c es)

/-- Every completion is directly followed by its interrupt, and there are no others. -/
abbrev Signalled (es : List Event) : Prop := Paired Event.IsPost Event.IsIrq Raises es

/-! ## Quiet events -/

theorem vector_concat (c : QueueId) (es : List Event) (e : Event) :
    vector c (es ++ [e]) = vectorNext c (vector c es) e := by
  rw [vector, List.foldl_append]
  rfl

theorem vector_append_quiet (c : QueueId) (es : List Event) {fs : List Event}
    (hfs : ∀ e ∈ fs, e.IsQuiet) : vector c (es ++ fs) = vector c es := by
  induction fs generalizing es with
  | nil => rw [List.append_nil]
  | cons f fs ih =>
    have hf : vectorNext c (vector c es) f = vector c es := by
      have hq := hfs f (by simp)
      cases f <;> first | rfl | cases hq
    rw [List.append_cons, ih _ fun e he => hfs e (by simp [he]), vector_concat, hf]

theorem XferEvents.quiet {toHost : Bool} {as : List Addr} {es : List Event}
    (h : XferEvents toHost as es) : ∀ e ∈ es, e.IsQuiet := by
  intro e he
  rcases h e he with ⟨a, bytes, -, rfl, -⟩ | ⟨a, n, -, rfl, -⟩ <;> trivial

theorem Touched.quiet_log {toHost : Bool} {as : List Addr} {w w' : World} {es : List Event}
    (h : Touched toHost as w w' es) {e : Event} (he : e.IsQuiet) :
    ∃ fs, (w'.log e).trace = w.trace ++ fs ∧ ∀ f ∈ fs, f.IsQuiet := by
  refine ⟨es ++ [e], by simp [h.trace], fun f hf => ?_⟩
  rcases List.mem_append.mp hf with hf | hf
  · exact h.events.quiet f hf
  · rw [List.mem_singleton.mp hf]
    exact he

theorem kvHandle_quiet {heap : Heap} {cmd : NvmeKVCmd} {w w' : World} {op : KvOp}
    (hc : KvContext op cmd (kvdma heap) w w') :
    ∃ es, w'.trace = w.trace ++ es ∧ ∀ e ∈ es, e.IsQuiet := by
  cases hc with
  | same => exact ⟨[], by simp, by simp⟩
  | @received _ dst _ =>
    obtain ⟨_, _, ht, -, -⟩ := nvmePrpXfer_touched w (heap .dataSgl) cmd.prp1 cmd.prp2 dst false
    exact ht.quiet_log (e := .h2c _ _) trivial
  | @retrieved _ src _ | @listed _ src _ =>
    obtain ⟨_, _, ht, -, -⟩ := nvmePrpXfer_touched w (heap .dataSgl) cmd.prp1 cmd.prp2 src true
    exact ht.quiet_log (e := .c2h _ _) trivial

/-- Running a command posts nothing and raises nothing. -/
theorem Executed.quiet {n n' : NvmeCtrl} {heap : Heap} {q : QueueId} {sqe : NvmeSqe} {st : Status}
    {cdw0 : BitVec 32} (hx : Executed n heap q sqe st cdw0 n') :
    ∃ es, n'.world.trace = n.world.trace ++ es ∧ ∀ e ∈ es, e.IsQuiet := by
  cases hx with
  | @identify _ _ page ok buf w st _ hx =>
    obtain ⟨_, es, ht, -, -⟩ :=
      nvmePrpXfer_touched n.world (heap .dataSgl) sqe.prp1 sqe.prp2 page.bytes true
    rw [hx] at ht
    exact ⟨es, ht.trace, ht.events.quiet⟩
  | createCq | createSq => exact ⟨[_], rfl, by simp [Event.IsQuiet]⟩
  | kv _ _ hh => exact kvHandle_quiet (kvHandle_context hh).2
  | ednek | deleteCq | deleteSq | asyncEvent | noEffect | unsupported =>
    exact ⟨[], by simp, by simp⟩

/-! ## One iteration -/

/-- A command changes the vector of the queue that it creates and no other. -/
theorem nvmeExecute_irq {n n' : NvmeCtrl} {heap : Heap} {q : QueueId} {sqe : NvmeSqe} {st : Status}
    {cdw0 : BitVec 32} (h : nvmeExecute n heap q sqe = some (st, cdw0, n')) (c : QueueId) :
    (n'.cq c).irq =
      if q = 0 ∧ sqe.opcode = nvmeAdmCreateCq ∧ ioQueue sqe.qid = some c then
        (sqe.target.toNat : ℤ)
      else (n.cq c).irq := by
  by_cases hcreate : q = 0 ∧ sqe.opcode = nvmeAdmCreateCq
  · obtain ⟨rfl, ho⟩ := hcreate
    rw [nvmeExecute_createCq ho, Option.some.injEq, Prod.mk.injEq, Prod.mk.injEq] at h
    obtain ⟨-, -, rfl⟩ := h
    rw [nvmeAdminCreateCq]
    cases hq : ioQueue sqe.qid with
    | none => simp
    | some b =>
      by_cases hb : c = b
      · subst hb
        simp [ho, createdCq]
      · simp [hb, Ne.symm hb]
  · rw [if_neg fun hall => hcreate ⟨hall.1, hall.2.1⟩]
    cases nvmeExecute_executed h with
    | createCq hq ho => exact absurd ⟨hq, ho⟩ hcreate
    | @deleteCq _ _ b _ =>
      by_cases hb : c = b
      · subst hb
        simp
      · simp [hb]
    | identify | ednek | createSq | deleteSq | asyncEvent | noEffect | kv | unsupported => rfl

theorem NvmeCq.advance_irq (cq : NvmeCq) : cq.advance.irq = cq.irq := by
  rw [advance]; split <;> rfl

theorem nvmePostTo_signals (n : NvmeCtrl) (heap : Heap) (c : QueueId) (cqe : NvmeCqe)
    (hirq : 0 ≤ (n.cq c).irq) :
    ∃ es, (nvmePostTo n heap c cqe).world.trace =
        n.world.trace ++ es ++ [.posted c (n.cq c).tail cqe, .irq (n.cq c).irq] ∧
      ∀ e ∈ es, e.IsQuiet := by
  have ho := nvmeGpaXfer_outcome n.world (heap .cqeSgl) ((n.cq c).slotAddr (n.cq c).tail)
    cqe.toBytes true
  rcases hx : nvmeGpaXfer n.world (heap .cqeSgl) ((n.cq c).slotAddr (n.cq c).tail) cqe.toBytes true
    with ⟨ok, buf, w⟩
  rw [hx] at ho
  simp only [nvmePostTo, hx, NvmeCtrl.raise, if_pos hirq]
  cases ho with
  | failed => exact ⟨[], by simp, by simp⟩
  | done hm =>
    obtain ⟨es, htr, hes⟩ := hm.trace
    exact ⟨es, by simp [htr], hes.quiet⟩

/-- No command gives the admin queue a vector. -/
theorem vector_zero (es : List Event) : vector 0 es = 0 := by
  have hnext (v : ℕ) (e : Event) : vectorNext 0 v e = v := by
    cases e with
    | command q cqid sqe cdw0 st => exact if_neg fun h => (ioQueue_some h.2.2).1 rfl
    | _ => rfl
  rw [vector]
  induction es with
  | nil => rfl
  | cons e es ih => rwa [List.foldl_cons, hnext]

/-! ## Register writes -/

theorem nvmeRegStore_quiet (n : NvmeCtrl) (offset : ℕ) (v : BitVec 64) (count : ℕ) :
    ∃ es, (nvmeRegStore n offset v count).world.trace = n.world.trace ++ es ∧
      ∀ e ∈ es, e.IsQuiet := by
  rcases nvmeRegStore_cases n offset v count with ⟨-, he⟩ | ⟨-, _, _, _, _, _, he⟩
  · rw [he, nvmeCcWrite_world]
    split
    · refine ⟨[.sqInit 0 0, .cqInit 0 (((n.aqa >>> 16) &&& 0xfff) + 1).toNat], by simp, ?_⟩
      simp [Event.IsQuiet]
    · exact ⟨[], by simp, by simp⟩
  · rw [he]
    exact ⟨[], by simp, by simp⟩

theorem nvmeRegStore_irq (n : NvmeCtrl) (offset : ℕ) (v : BitVec 64) (count : ℕ) (c : QueueId) :
    ((nvmeRegStore n offset v count).cq c).irq = (n.cq c).irq ∨
      c = 0 ∧ ((nvmeRegStore n offset v count).cq c).irq = 0 := by
  rcases nvmeRegStore_cases n offset v count with ⟨-, he⟩ | ⟨-, _, _, _, _, _, he⟩
  swap
  · rw [he]
    exact .inl rfl
  have hshut (m : NvmeCtrl) (old : BitVec 32) :
      ((nvmeCcShutdown m old).cq c).irq = (m.cq c).irq := by
    rw [nvmeCcShutdown]
    split_ifs <;> rfl
  rw [he, nvmeCcWrite, hshut, nvmeCcEnable]
  split_ifs
  · by_cases hc : c = 0
    · subst hc
      exact .inr ⟨rfl, by simp [nvmeEnable, NvmeCq.zero]⟩
    · exact .inl (by simp [nvmeEnable, hc])
  · exact .inl rfl
  · exact .inl rfl

/-! ## Runs -/

/-- The log of a device pairs completions with interrupts, and every completion queue holds the
vector that the log gives it. -/
structure Vectored (n : NvmeCtrl) : Prop where
  signalled : Signalled n.world.trace
  irq : ∀ c, (n.cq c).irq = vector c n.world.trace

namespace Vectored
variable {n n' : NvmeCtrl}

theorem append_quiet (h : Vectored n) {es : List Event}
    (htr : n'.world.trace = n.world.trace ++ es) (hes : ∀ e ∈ es, e.IsQuiet)
    (hirq : ∀ c, (n'.cq c).irq = (n.cq c).irq) : Vectored n' := by
  refine ⟨?_, fun c => ?_⟩
  · rw [htr]
    exact h.signalled.append_quiet fun e he => (hes e he).neither
  · rw [hirq, h.irq, htr, vector_append_quiet c _ hes]

theorem post (h : Vectored n) (heap : Heap) (c : QueueId) (cqe : NvmeCqe) :
    Vectored (nvmePostTo n heap c cqe) := by
  have hnonneg : 0 ≤ (n.cq c).irq := by
    rw [h.irq]
    exact Int.natCast_nonneg _
  obtain ⟨es, htr, hes⟩ := nvmePostTo_signals n heap c cqe hnonneg
  have hquiet : ∀ e ∈ es, ¬ e.IsPost ∧ ¬ e.IsIrq := fun e he => (hes e he).neither
  refine ⟨?_, fun b => ?_⟩
  · rw [htr]
    refine (h.signalled.append_quiet hquiet).pair trivial trivial ?_
    refine ⟨c, _, cqe, rfl, ?_⟩
    rw [h.irq, vector_append_quiet c _ hes]
  · have hb : ((nvmePostTo n heap c cqe).cq b).irq = (n.cq b).irq := by
      rw [(nvmePostTo_frame n heap c cqe).2.1]
      by_cases hbc : b = c
      · rw [hbc, Function.update_self, NvmeCq.advance_irq]
      · rw [Function.update_of_ne hbc]
    rw [hb, h.irq, htr, ← List.singleton_append, ← List.append_assoc, vector_concat, vector_concat,
      vector_append_quiet b _ hes]
    rfl

theorem command (h : Vectored n) {heap : Heap} {q : QueueId} {sqe : NvmeSqe} {st : Status}
    {cdw0 : BitVec 32} (hx : nvmeExecute n heap q sqe = some (st, cdw0, n')) (cqid : BitVec 16) :
    Vectored (n'.log (.command q cqid sqe cdw0 st)) := by
  obtain ⟨es, htr, hes⟩ := (nvmeExecute_executed hx).quiet
  refine ⟨?_, fun c => ?_⟩
  · have hrun : Signalled (n.world.trace ++ es) :=
      h.signalled.append_quiet fun e he => (hes e he).neither
    rw [NvmeCtrl.log_world, World.log_trace, htr]
    exact hrun.quiet id id
  · rw [NvmeCtrl.log_cq, nvmeExecute_irq hx, h.irq, NvmeCtrl.log_world, World.log_trace, htr,
      vector_concat, vector_append_quiet c _ hes, vectorNext]
    exact (Nat.cast_ite ..).symm

theorem completed (h : Vectored n) {heap : Heap} {q : QueueId} {sqe : NvmeSqe} {cdw0 : BitVec 32}
    {st : Status} (hp : Completed n heap q sqe cdw0 st n') : Vectored n' := by
  cases hp with
  | silent | dropped => exact h
  | posted => exact h.post heap _ _

theorem iterate {d d' : Device} (h : Vectored d.n) {heap : Heap}
    (hs : d.step (.iterate heap) = some d') : Vectored d'.n := by
  rcases Device.iterate_inv hs with hn | ⟨q, buf, w, st, cdw0, n₀, -, hm, hx, hp⟩
  · exact hn ▸ h
  · obtain ⟨fs, htr, hfs⟩ := hm.trace
    have hfetched : Vectored (d.n.fetched q w) := h.append_quiet htr hfs.quiet fun _ => rfl
    exact (hfetched.command hx _).completed hp

/-- A register write starts the admin queue with vector 0 or leaves every vector alone. -/
theorem regStore (h : Vectored n) (offset : ℕ) (v : BitVec 64) (count : ℕ) :
    Vectored (nvmeRegStore n offset v count) := by
  obtain ⟨es, htr, hes⟩ := nvmeRegStore_quiet n offset v count
  refine h.append_quiet htr hes fun c => ?_
  rcases nvmeRegStore_irq n offset v count c with hirq | ⟨rfl, hirq⟩
  · exact hirq
  · rw [hirq, h.irq, vector_zero]
    rfl

theorem step {d d' : Device} {i : Input} (h : Vectored d.n) (hs : d.step i = some d') :
    Vectored d'.n := by
  have hkept {n' : NvmeCtrl} (hw : n'.world.trace = d.n.world.trace)
      (hcq : ∀ c, (n'.cq c).irq = (d.n.cq c).irq) : Vectored n' := by
    have htr : n'.world.trace = d.n.world.trace ++ [] := by simpa using hw
    exact h.append_quiet htr (by simp) hcq
  have hlogged {e : Event} (he : e.IsQuiet) : Vectored (d.n.log e) :=
    h.append_quiet rfl (by simpa using he) fun _ => rfl
  cases Device.step_cases hs with
  | read | msixRead => exact hlogged trivial
  | noQueue | sqTail | msixFailed | msixWrite | hostMemory | dmaRegions | reset =>
    exact hkept rfl fun _ => rfl
  | @cqHead _ _ _ q val _ =>
    refine h.append_quiet rfl (by simp [Event.IsQuiet]) fun c => ?_
    by_cases hc : c = q
    · subst hc
      simp
    · simp [hc]
  | register => exact h.regStore _ _ _
  | finished | fetchFailed | consumed => exact h.iterate hs

end Vectored

theorem Device.Initial.vectored {maxNumKeys : BitVec 32} {d : Device} (h : Initial maxNumKeys d) :
    Vectored d.n := by
  obtain ⟨⟨heap, world, hi, htr⟩, -⟩ := h
  obtain ⟨ns, -, hn⟩ := Option.map_eq_some_iff.mp hi
  rw [← hn]
  refine ⟨?_, fun c => ?_⟩
  · rw [htr]
    exact .nil
  · rw [htr]
    rfl

/-- Every completion in the log of a run is directly followed by the interrupt of its queue, with
the vector of the last Create CQ for that queue before it and 0 for the admin queue; and no other
interrupt is raised. -/
theorem Device.Reachable.interrupts {maxNumKeys : BitVec 32} {d : Device}
    (hd : d.Reachable maxNumKeys) :
    (∀ before c slot cqe after, d.n.world.trace = before ++ .posted c slot cqe :: after →
      ∃ rest, after = .irq (vector c before) :: rest) ∧
    ∀ before v after, d.n.world.trace = before ++ .irq v :: after →
      ∃ rest c slot cqe, before = rest ++ [.posted c slot cqe] ∧ v = vector c rest := by
  obtain ⟨d₀, h₀, hr⟩ := hd
  have h : Vectored d.n :=
    hr.invariant (I := fun d => Vectored d.n) (fun _ _ _ h _ hs => h.step hs) h₀.vectored
  refine ⟨fun before c slot cqe after hes => ?_, fun before v after hes => ?_⟩
  · obtain ⟨b, rest, rfl, -, c', slot', cqe', ha, rfl⟩ :=
      h.signalled.next Event.IsPost.not_irq hes trivial
    cases ha
    exact ⟨rest, rfl⟩
  · obtain ⟨rest, a, rfl, -, c, slot, cqe, rfl, hb⟩ :=
      h.signalled.prev Event.IsPost.not_irq hes trivial
    cases hb
    exact ⟨rest, c, slot, cqe, rfl, rfl⟩

/-- Create CQ 1 with vector 5 and Create SQ 1 on it, whose ring holds an unsupported command. -/
def vectorFiveMemory : Memory :=
  memoryOf [(0, 5), (26, 0x20), (40, 1), (42, 15), (46, 5), (64, 1), (90, 3), (104, 1), (106, 15),
    (110, 1)]

theorem Device.Reachable.interrupts_vector_five :
    ∃ d, Reachable 1 d ∧ ∃ rest c slot cqe after,
      d.n.world.trace = rest ++ .posted c slot cqe :: .irq 5 :: after ∧ vector c rest = 5 := by
  have hrun : (bootRun 1 (fun _ _ => true) (enableAdmin ++
      [.hostMemory vectorFiveMemory, sqTailWrite 0 2] ++ iterations 3 ++ [sqTailWrite 1 1] ++
      iterations 2)).map (fun d => d.n.world.trace.any fun e =>
        match e with
        | .irq v => decide (v = 5)
        | _ => false) = some true := by decide +kernel
  obtain ⟨d, hd, hobs⟩ := Option.map_eq_some_iff.mp hrun
  obtain ⟨e, he, hv⟩ := List.any_eq_true.mp hobs
  cases e with
  | irq v =>
    obtain rfl : v = 5 := of_decide_eq_true hv
    obtain ⟨before, after, hes⟩ := List.append_of_mem he
    have hr : Reachable 1 d := reachable_of_bootRun hd
    obtain ⟨rest, c, slot, cqe, hbefore, hvec⟩ := hr.interrupts.2 before 5 after hes
    refine ⟨d, hr, rest, c, slot, cqe, after, ?_, by exact_mod_cast hvec.symm⟩
    rw [hes, hbefore, List.append_assoc]
    rfl
  | _ => cases hv

end VfuKvssd
