import VfuKvssd.Controller.Progress

/-! # What a step does to the queues, and the queue events it logs

Queue events are what remains of the log without memory accesses, transfer
outcomes, interrupts and replies. Observers of the queues are folds over them.
-/
namespace VfuKvssd
open Foundations

def queueEvents (es : List Event) : List Event := es.filter fun e => !e.isData

@[simp] theorem queueEvents_append (es fs : List Event) :
    queueEvents (es ++ fs) = queueEvents es ++ queueEvents fs := List.filter_append ..

theorem queueEvents_data {es : List Event} (h : ∀ e ∈ es, e.isData = true) :
    queueEvents es = [] := by
  rw [queueEvents, List.filter_eq_nil_iff]
  intro e he
  simp [h e he]

theorem queueEvents_single {e : Event} (h : e.isData = false) : queueEvents [e] = [e] := by
  simp [queueEvents, h]

theorem mem_queueEvents {e : Event} {es : List Event} (h : e.isData = false) :
    e ∈ queueEvents es ↔ e ∈ es := by
  simp [queueEvents, h]

/-- A fold that ignores data sees only the queue events. -/
theorem foldl_queueEvents {σ : Type*} {next : σ → Event → σ}
    (hnext : ∀ s e, e.isData = true → next s e = s) (s : σ) (es : List Event) :
    es.foldl next s = (queueEvents es).foldl next s := by
  induction es generalizing s with
  | nil => rfl
  | cons e es ih =>
    rw [List.foldl_cons, ih]
    cases he : e.isData with
    | true => rw [hnext s e he, queueEvents, queueEvents, List.filter_cons_of_neg (by simp [he])]
    | false => rw [queueEvents, queueEvents, List.filter_cons_of_pos (by simp [he]), List.foldl_cons]

/-! ## Commands -/

/-- A completion queue as Create CQ or an enable leaves it. -/
structure NvmeCq.Fresh (c : NvmeCq) : Prop where
  head : c.head = 0
  tail : c.tail = 0
  phase : c.phase = 1
  enabled : c.enabled = true

/-- A submission queue as Create SQ or an enable leaves it. -/
structure NvmeSq.Fresh (s : NvmeSq) : Prop where
  head : s.head = 0
  tail : s.tail = 0
  enabled : s.enabled = true

/-- What a command does to the queue arrays, with the queue events it logs. -/
inductive Managed (n n' : NvmeCtrl) : List Event → Prop
  | same (hsq : n'.sq = n.sq) (hcq : n'.cq = n.cq) : Managed n n' []
  | createCq {c : QueueId} (hc : c ≠ 0) {x : NvmeCq} (hx : x.Fresh) (hsq : n'.sq = n.sq)
      (hcq : n'.cq = Function.update n.cq c x) : Managed n n' [.cqInit c x.size.toNat]
  | createSq {s : QueueId} (hs : s ≠ 0) {x : NvmeSq} (hx : x.Fresh)
      (hsq : n'.sq = Function.update n.sq s x) (hcq : n'.cq = n.cq) :
      Managed n n' [.sqInit s x.cqid]
  | deleteCq {c : QueueId} (hc : c ≠ 0) (hsq : n'.sq = n.sq)
      (hcq : n'.cq = Function.update n.cq c { n.cq c with enabled := false }) : Managed n n' []
  | deleteSq {s : QueueId} (hs : s ≠ 0)
      (hsq : n'.sq = Function.update n.sq s { n.sq s with enabled := false })
      (hcq : n'.cq = n.cq) : Managed n n' []

theorem Executed.managed {n n' : NvmeCtrl} {heap : Heap} {q : QueueId} {sqe : NvmeSqe} {st : Status}
    {cdw0 : BitVec 32} (hx : Executed n heap q sqe st cdw0 n') :
    ∃ xs, CommandEffect q sqe n.world n'.world xs ∧ Managed n n' (queueEvents xs) ∧
      (q ≠ 0 → n'.sq = n.sq ∧ n'.cq = n.cq ∧ queueEvents xs = []) := by
  have hnone : CommandEffect q sqe n.world n.world [] := .none q sqe n.world
  cases hx with
  | identify hq ho hst hp =>
    obtain ⟨es, he, hd⟩ := identify_effect hq ho hp
    have hnil := queueEvents_data hd
    exact ⟨es, he, hnil ▸ .same rfl rfl, fun _ => ⟨rfl, rfl, hnil⟩⟩
  | createCq hq ho hc =>
    exact ⟨_, hnone.log rfl rfl, .createCq (ioQueue_some hc).1 ⟨rfl, rfl, rfl, rfl⟩ rfl rfl,
      fun h => absurd hq h⟩
  | createSq hq ho hs hl =>
    exact ⟨_, hnone.log rfl rfl, .createSq (x := createdSq sqe) (ioQueue_some hs).1 ⟨rfl, rfl, rfl⟩
      rfl rfl, fun h => absurd hq h⟩
  | deleteCq hq ho hc => exact ⟨[], hnone, .deleteCq (ioQueue_some hc).1 rfl rfl, fun h => absurd hq h⟩
  | deleteSq hq ho hs => exact ⟨[], hnone, .deleteSq (ioQueue_some hs).1 rfl rfl, fun h => absurd hq h⟩
  | kv hq ho hh =>
    obtain ⟨es, he, hd⟩ := kvHandle_effect hq ho (kvHandle_context hh).2
    have hnil := queueEvents_data hd
    exact ⟨es, he, hnil ▸ .same rfl rfl, fun _ => ⟨rfl, rfl, hnil⟩⟩
  | ednek | asyncEvent | noEffect | unsupported =>
    exact ⟨[], hnone, .same rfl rfl, fun _ => ⟨rfl, rfl, rfl⟩⟩

/-- A consumed entry up to its completion, seen from the queues: the fetch, the command's own
changes `xs`, and the command event. -/
theorem Ran.managed {n n₁ : NvmeCtrl} {heap : Heap} {q c : QueueId} {st : Status} {cdw0 : BitVec 32}
    (h : Ran n heap q c st cdw0 n₁) :
    ∃ m es xs, m.sq = Function.update n.sq q (n.sq q).fetched ∧ m.cq = n.cq ∧ Managed m n₁ xs ∧
      (q ≠ 0 → n₁.sq = m.sq ∧ n₁.cq = m.cq ∧ xs = []) ∧
      n₁.world.trace = n.world.trace ++ es ∧
      queueEvents es = xs ++ [.command q (n.sq q).cqid (n.headEntry q) cdw0 st] := by
  obtain ⟨-, ⟨buf, w, hm, n₀, hx, rfl⟩, -, -⟩ := h
  obtain ⟨fs, hf⟩ := hm.touched
  obtain ⟨xs, he, hmg, hio⟩ := hx.managed
  refine ⟨n.fetched q w, fs ++ xs ++ [.command q (n.sq q).cqid (n.headEntry q) cdw0 st],
    queueEvents xs, rfl, rfl, ?_, hio, ?_, ?_⟩
  · generalize queueEvents xs = ys at hmg
    cases hmg with
    | same hsq hcq => exact .same hsq hcq
    | createCq hc hx hsq hcq => exact .createCq hc hx hsq hcq
    | createSq hs hx hsq hcq => exact .createSq hs hx hsq hcq
    | deleteCq hc hsq hcq => exact .deleteCq hc hsq hcq
    | deleteSq hs hsq hcq => exact .deleteSq hs hsq hcq
  · have htr := he.trace
    simp only [NvmeCtrl.fetched, NvmeCtrl.setSq_world, NvmeCtrl.withWorld_world, hf.trace] at htr
    simp [htr]
  · rw [queueEvents_append, queueEvents_append, queueEvents_data hf.events.isData,
      queueEvents_single rfl, List.nil_append]

theorem PostEffect.queueEvents {n : NvmeCtrl} {heap : Heap} {c : QueueId} {cqe : NvmeCqe}
    {w' : World} {es irqs : List Event} (h : PostEffect n heap c cqe w' es irqs) :
    queueEvents (es ++ [.posted c (n.cq c).tail cqe] ++ irqs) = [.posted c (n.cq c).tail cqe] := by
  have hirqs : ∀ e ∈ irqs, e.isData = true := by
    intro e he
    obtain ⟨v, rfl⟩ := h.irqs e he
    rfl
  rw [queueEvents_append, queueEvents_append, queueEvents_data h.events.isData,
    queueEvents_data hirqs, queueEvents_single rfl, List.nil_append, List.append_nil]

/-! ## Register writes -/

/-- What a register write does to the queue arrays, with the queue events it logs. -/
inductive Switched (n n' : NvmeCtrl) : List Event → Prop
  | same (hsq : n'.sq = n.sq) (hcq : n'.cq = n.cq) : Switched n n' []
  | down {es : List Event} (hsq : ∀ q, (n'.sq q).enabled = false)
      (hcq : ∀ c, (n'.cq c).enabled = false) : Switched n n' es
  | start {x : NvmeSq} {y : NvmeCq} (hx : x.Fresh) (hid : x.cqid = 0) (hy : y.Fresh)
      (hsq : n'.sq = Function.update n.sq 0 x) (hcq : n'.cq = Function.update n.cq 0 y) :
      Switched n n' [.sqInit 0 0, .cqInit 0 y.size.toNat]

theorem Switched.congr {n n' m : NvmeCtrl} {es : List Event} (h : Switched n n' es)
    (hsq : m.sq = n'.sq) (hcq : m.cq = n'.cq) : Switched n m es := by
  cases h with
  | same h₁ h₂ => exact .same (hsq.trans h₁) (hcq.trans h₂)
  | down h₁ h₂ => exact .down (hsq ▸ h₁) (hcq ▸ h₂)
  | start hx hid hy h₁ h₂ => exact .start hx hid hy (hsq.trans h₁) (hcq.trans h₂)

theorem nvmeCcEnable_switched (n : NvmeCtrl) (old : BitVec 32) :
    ∃ es, (nvmeCcEnable n old).world = { n.world with trace := n.world.trace ++ es } ∧
      Switched n (nvmeCcEnable n old) es := by
  rw [nvmeCcEnable]
  split_ifs
  · refine ⟨[.sqInit 0 0, .cqInit 0 (((n.aqa >>> 16) &&& 0xfff) + 1).toNat], ?_, ?_⟩
    · simp [nvmeEnable, World.log]
    · exact .start (x := { NvmeSq.zero with dma := n.asq, size := (n.aqa &&& 0xfff) + 1, enabled := true })
        (y := { NvmeCq.zero with
          dma := n.acq, size := ((n.aqa >>> 16) &&& 0xfff) + 1, phase := 1, enabled := true })
        ⟨rfl, rfl, rfl⟩ rfl ⟨rfl, rfl, rfl, rfl⟩ rfl rfl
  · exact ⟨[], by simp [nvmeDisable, nvmeQueuesDown], .down (fun _ => rfl) fun _ => rfl⟩
  · exact ⟨[], by simp, .same rfl rfl⟩

/-- Every register write leaves the arrays alone, takes every queue down, or starts the admin
queues afresh. -/
theorem nvmeRegStore_switched (n : NvmeCtrl) (offset : ℕ) (v : BitVec 64) (count : ℕ) :
    ∃ es, (nvmeRegStore n offset v count).world = { n.world with trace := n.world.trace ++ es } ∧
      Switched n (nvmeRegStore n offset v count) es := by
  rcases nvmeRegStore_cases n offset v count with ⟨-, he⟩ | ⟨-, _, _, _, _, _, he⟩
  swap
  · rw [he]
    exact ⟨[], by simp, .same rfl rfl⟩
  rw [he, nvmeCcWrite, nvmeCcShutdown]
  obtain ⟨es, hw, hs⟩ := nvmeCcEnable_switched { n with cc := v.setWidth 32 } n.cc
  have hs' : Switched n (nvmeCcEnable { n with cc := v.setWidth 32 } n.cc) es := by
    generalize nvmeCcEnable { n with cc := v.setWidth 32 } n.cc = m at hs
    cases hs with
    | same h₁ h₂ => exact .same h₁ h₂
    | down h₁ h₂ => exact .down h₁ h₂
    | start hx hid hy h₁ h₂ => exact .start hx hid hy h₁ h₂
  split_ifs
  · exact ⟨es, hw, .down (fun _ => rfl) fun _ => rfl⟩
  · exact ⟨es, hw, hs'.congr rfl rfl⟩
  · exact ⟨es, hw, hs'⟩

/-! ## Events of a step -/

/-- The events that a log has gained since an earlier one. -/
def Device.newEvents (d d' : Device) : List Event :=
  d'.n.world.trace.drop d.n.world.trace.length

theorem Device.newEvents_eq {d d' : Device} {es : List Event}
    (h : d'.n.world.trace = d.n.world.trace ++ es) : d.newEvents d' = es := by
  rw [newEvents, h, List.drop_left]

theorem Served.events {n n' : NvmeCtrl} {heap : Heap} {q c : QueueId} (hs : Served n heap q c n') :
    ∃ st cdw0 xs ys es, n'.world.trace = n.world.trace ++ es ∧
      queueEvents es = xs ++ [.command q (n.sq q).cqid (n.headEntry q) cdw0 st] ++ ys ∧
      (∀ e ∈ xs, (∃ c k, e = .cqInit c k) ∨ ∃ s k, e = .sqInit s k) ∧
      ∀ e ∈ ys, (n.cq c).enabled = true ∧
        e = .posted c (n.cq c).tail (n.completion q c cdw0 st) := by
  have hran {n₁ : NvmeCtrl} {st : Status} {cdw0 : BitVec 32} (hr : Ran n heap q c st cdw0 n₁) :
      ∃ xs es, n₁.world.trace = n.world.trace ++ es ∧
        queueEvents es = xs ++ [.command q (n.sq q).cqid (n.headEntry q) cdw0 st] ∧
        ∀ e ∈ xs, (∃ c k, e = .cqInit c k) ∨ ∃ s k, e = .sqInit s k := by
    obtain ⟨m, es, xs, -, -, hm, -, htr, hq⟩ := hr.managed
    refine ⟨xs, es, htr, hq, fun e he => ?_⟩
    cases hm with
    | same | deleteCq | deleteSq => cases he
    | createCq => exact .inl ⟨_, _, List.mem_singleton.mp he⟩
    | createSq => exact .inr ⟨_, _, List.mem_singleton.mp he⟩
  cases hs with
  | @unanswered _ cdw0 hr =>
    obtain ⟨xs, es, htr, hq, hxs⟩ := hran hr
    exact ⟨_, cdw0, xs, [], es, htr, by simpa using hq, hxs, by simp⟩
  | @dropped _ st cdw0 hr =>
    obtain ⟨xs, es, htr, hq, hxs⟩ := hran hr
    exact ⟨st, cdw0, xs, [], es, htr, by simpa using hq, hxs, by simp⟩
  | @posted n₁ st cdw0 hr hst he =>
    obtain ⟨xs, es, htr, hq, hxs⟩ := hran hr
    obtain ⟨ps, irqs, hp⟩ := nvmePostTo_effect n₁ heap c (n.completion q c cdw0 st)
    refine ⟨st, cdw0, xs, [.posted c (n.cq c).tail (n.completion q c cdw0 st)],
      es ++ (ps ++ [.posted c (n₁.cq c).tail (n.completion q c cdw0 st)] ++ irqs), ?_, ?_, hxs,
      fun e hm => ⟨he, List.mem_singleton.mp hm⟩⟩
    · rw [hp.trace, htr]
      simp
    · rw [queueEvents_append, hq, hp.queueEvents, hr.cq]

end VfuKvssd
