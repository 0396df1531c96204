import VfuKvssd.Controller.KvRuns

/-! # Where the controller touches guest memory

Doorbell values, sizes, addresses and entries are the guest's; every access
still falls in a slot of a live ring or in the two pages that a data command
names.
-/
namespace VfuKvssd
open Foundations

/-- Guest addresses that an iteration of a queue may read: the slot at its head and, for a Store,
the pages of its PRPs. -/
def MayRead (n : NvmeCtrl) (q : QueueId) (a : Addr) : Prop :=
  ((n.sq q).head.toNat < (n.sq q).size.toNat ∧
    a ∈ span ((n.sq q).dma + (n.sq q).head.setWidth 64 * 64) 64) ∨
  ((q ≠ 0 ∧ (n.headEntry q).opcode = nvmeCmdKvStore) ∧
    a ∈ prpWindow (n.headEntry q).prp1 (n.headEntry q).prp2)

/-- Guest addresses that an iteration of a queue may write: the slot at the tail of an enabled
completion queue and, for Identify, Retrieve and List, the pages of the PRPs. -/
def MayWrite (n : NvmeCtrl) (q : QueueId) (a : Addr) : Prop :=
  (∃ c, (n.cq c).enabled = true ∧ (n.cq c).tail.toNat < (n.cq c).size.toNat ∧
    a ∈ span ((n.cq c).dma + (n.cq c).tail.setWidth 64 * 16) 16) ∨
  (WritesData q (n.headEntry q) ∧ a ∈ prpWindow (n.headEntry q).prp1 (n.headEntry q).prp2)

/-- A step whose accesses and memory changes all lie within two sets of addresses. -/
structure Confined (w w' : World) (reads writes : Addr → Prop) : Prop where
  log : ∃ es, w'.trace = w.trace ++ es ∧ (∀ e ∈ es, ∀ a ∈ e.reads, reads a) ∧
    ∀ e ∈ es, ∀ a ∈ e.writes, writes a
  memory : ∀ a, w'.mem a ≠ w.mem a → writes a

theorem Confined.refl (w : World) (reads writes : Addr → Prop) : Confined w w reads writes :=
  ⟨⟨[], by simp, by simp, by simp⟩, fun _ h => absurd rfl h⟩

theorem Confined.log_quiet {w w' : World} {reads writes : Addr → Prop}
    (h : Confined w w' reads writes) {e : Event} (hr : e.reads = []) (hw : e.writes = []) :
    Confined w (w'.log e) reads writes := by
  obtain ⟨⟨es, htr, hreads, hwrites⟩, hmem⟩ := h
  refine ⟨⟨es ++ [e], by simp [htr], ?_, ?_⟩, hmem⟩
  · intro x hx a ha
    rcases List.mem_append.mp hx with hx | hx
    · exact hreads x hx a ha
    · rw [List.mem_singleton.mp hx, hr] at ha
      cases ha
  · intro x hx a ha
    rcases List.mem_append.mp hx with hx | hx
    · exact hwrites x hx a ha
    · rw [List.mem_singleton.mp hx, hw] at ha
      cases ha

theorem Ran.confined {n n₁ : NvmeCtrl} {heap : Heap} {q c : QueueId} {st : Status}
    {cdw0 : BitVec 32} (h : Ran n heap q c st cdw0 n₁)
    (hhead : (n.sq q).head.toNat < (n.sq q).size.toNat) :
    Confined n.world n₁.world (MayRead n q) (MayWrite n q) := by
  obtain ⟨fs, xs, htr, hfs, hreads, hwrites, -, -, hmem⟩ := h.world
  refine ⟨⟨fs ++ xs ++ [.command q (n.sq q).cqid (n.headEntry q) cdw0 st], by simp [htr], ?_, ?_⟩,
    fun a ha => .inr (hmem a ha)⟩
  · intro e he a ha
    simp only [List.mem_append, List.mem_singleton] at he
    rcases he with (he | he) | rfl
    · rcases hfs e he with ⟨_, _, hf, -, -⟩ | ⟨_, _, -, rfl, hs⟩
      · cases hf
      · exact .inl ⟨hhead, hs ha⟩
    · exact .inr (hreads e he a ha)
    · simp [Event.reads] at ha
  · intro e he a ha
    simp only [List.mem_append, List.mem_singleton] at he
    rcases he with (he | he) | rfl
    · rcases hfs e he with ⟨_, _, hf, -, -⟩ | ⟨_, _, -, rfl, hs⟩
      · cases hf
      · simp [Event.writes] at ha
    · exact .inr (hwrites e he a ha)
    · simp [Event.writes] at ha

theorem Served.confined {n n' : NvmeCtrl} {heap : Heap} {q c : QueueId}
    (hs : Served n heap q c n') (hok : n.RingsOk)
    (hhead : (n.sq q).head.toNat < (n.sq q).size.toNat) :
    Confined n.world n'.world (MayRead n q) (MayWrite n q) := by
  cases hs with
  | unanswered hr => exact hr.confined hhead
  | dropped hr => exact hr.confined hhead
  | @posted n₁ st cdw0 hr hst he =>
    obtain ⟨⟨es, htr, hreads, hwrites⟩, hmem⟩ := hr.confined hhead
    obtain ⟨ps, irqs, hp⟩ := nvmePostTo_effect n₁ heap c (n.completion q c cdw0 st)
    have hslot : ∀ a ∈ span ((n₁.cq c).slotAddr (n₁.cq c).tail) 16, MayWrite n q a := by
      intro a ha
      rw [hr.cq] at ha
      exact .inl ⟨c, he, (hok.cq c he).tail_lt, ha⟩
    refine ⟨⟨es ++ ps ++ [.posted c (n₁.cq c).tail (n.completion q c cdw0 st)] ++ irqs,
      by rw [hp.trace, htr]; simp, ?_, ?_⟩, fun a ha => ?_⟩
    · intro e hm a ha
      simp only [List.mem_append, List.mem_singleton] at hm
      rcases hm with ((hm | hm) | rfl) | hm
      · exact hreads e hm a ha
      · rcases hp.events e hm with ⟨_, _, -, rfl, -⟩ | ⟨_, _, hf, -, -⟩
        · simp [Event.reads] at ha
        · cases hf
      · simp [Event.reads] at ha
      · obtain ⟨v, rfl⟩ := hp.irqs e hm
        simp [Event.reads] at ha
    · intro e hm a ha
      simp only [List.mem_append, List.mem_singleton] at hm
      rcases hm with ((hm | hm) | rfl) | hm
      · exact hwrites e hm a ha
      · rcases hp.events e hm with ⟨_, _, -, rfl, hsub⟩ | ⟨_, _, hf, -, -⟩
        · exact hslot a (hsub ha)
        · cases hf
      · simp [Event.writes] at ha
      · obtain ⟨v, rfl⟩ := hp.irqs e hm
        simp [Event.writes] at ha
    · by_cases hin : a ∈ span ((n₁.cq c).slotAddr (n₁.cq c).tail) 16
      · exact hslot a hin
      · exact hmem a ((hp.outside a hin) ▸ ha)

theorem nvmeRegStore_confined (n : NvmeCtrl) (offset : ℕ) (v : BitVec 64) (count : ℕ)
    (reads writes : Addr → Prop) :
    Confined n.world (nvmeRegStore n offset v count).world reads writes := by
  have hrefl := Confined.refl n.world reads writes
  rcases nvmeRegStore_cases n offset v count with ⟨-, he⟩ | ⟨-, _, _, _, _, _, he⟩
  · rw [he, nvmeCcWrite_world]
    split_ifs
    · exact (hrefl.log_quiet rfl rfl).log_quiet rfl rfl
    · exact hrefl
  · rw [he]
    exact hrefl

/-- Confinement of every step of every run. Apart from the guest's own writes, only iterations of
`nvme_process_sq` access guest memory; an iteration works on an enabled queue whose size is not
zero, uses queue indices below `NVME_MAX_QUEUES`, and stays within `MayRead` and `MayWrite`. -/
theorem Device.Reachable.dma_confined {maxNumKeys : BitVec 32} {d : Device}
    (h : Reachable maxNumKeys d) :
    (∀ i d', d.step i = some d' → (∀ heap, i ≠ .iterate heap) → (∀ mem, i ≠ .hostMemory mem) →
      Confined d.n.world d'.n.world (fun _ => False) (fun _ => False)) ∧
    (∀ q, d.busy = some q →
      (d.n.sq q).enabled = true ∧ 1 ≤ (d.n.sq q).size.toNat ∧
      (d.n.sq q).cqid.toNat < nvmeMaxQueues ∧
      (q = 0 ∨ d.n.ns.entriesAllocated < 2 ^ 31 → ∀ heap, ∃ d', d.step (.iterate heap) = some d') ∧
      ∀ heap d', d.step (.iterate heap) = some d' →
        Confined d.n.world d'.n.world (MayRead d.n q) (MayWrite d.n q)) := by
  have hok := h.ok
  refine ⟨fun i d' hs hi hm => ?_, fun q hb => ?_⟩
  · have hrefl := Confined.refl d.n.world (fun _ => False) (fun _ => False)
    cases step_cases hs with
    | read | cqHead | msixRead => exact hrefl.log_quiet rfl rfl
    | noQueue | sqTail | msixFailed | msixWrite | reset | dmaRegions => exact ⟨hrefl.1, hrefl.2⟩
    | register => exact nvmeRegStore_confined _ _ _ _ _ _
    | finished | fetchFailed | consumed => exact absurd rfl (hi _)
    | hostMemory => exact absurd rfl (hm _)
  · have hen := hok.busy q hb
    have hsq := hok.rings.sq q hen
    refine ⟨hen, hsq.size_pos, hsq.cqid_lt, fun hk heap => ?_, fun heap d' hs => ?_⟩
    · exact iterate_isSome hok hb heap (hk.imp_right fun hint => ⟨h.ns_valid.1, fun _ => hint⟩)
    · cases step_cases hs with
      | finished | fetchFailed => exact .refl _ _ _
      | consumed hb' hh hx hc =>
        rw [hb] at hb'
        obtain rfl := Option.some.inj hb'
        obtain ⟨c, hserved⟩ := hc.served hok.rings hen
        exact hserved.confined hok.rings hsq.head_lt

/-- A Store that reads its value from a page of the guest. -/
theorem Device.Reachable.dma_confined_store :
    ∃ d d', Reachable 1 d ∧ d.busy = some 1 ∧ d.step (.iterate fun _ => true) = some d' ∧
      (∀ e ∈ d.n.world.trace, 0x40000 ∉ e.reads) ∧ (∃ e ∈ d'.n.world.trace, 0x40000 ∈ e.reads) ∧
      Confined d.n.world d'.n.world (MayRead d.n 1) (MayWrite d.n 1) := by
  have hrun : ((bootRun 1 (fun _ _ => true) storeInputs.dropLast).bind fun d =>
      (d.step (.iterate fun _ => true)).map fun d' =>
        decide (d.busy = some 1 ∧ (∀ e ∈ d.n.world.trace, 0x40000 ∉ e.reads) ∧
          ∃ e ∈ d'.n.world.trace, 0x40000 ∈ e.reads)) = some true := by decide +kernel
  obtain ⟨d, hd, hmap⟩ := Option.bind_eq_some_iff.mp hrun
  obtain ⟨d', hs, hobs⟩ := Option.map_eq_some_iff.mp hmap
  obtain ⟨hb, hbefore, hafter⟩ := of_decide_eq_true hobs
  have hr : Reachable 1 d := reachable_of_bootRun hd
  obtain ⟨-, -, -, -, hconf⟩ := hr.dma_confined.2 1 hb
  exact ⟨d, d', hr, hb, hs, hbefore, hafter, hconf _ d' hs⟩

end VfuKvssd
