import VfuKvssd.Controller.KvList
import VfuKvssd.Controller.KvRuns

/-! # Transfers to the host and the size of its buffer

A Retrieve clamps its transfer to `hbs`. A List checks every entry against `hbs`,
but not its 4-byte header.
-/
namespace VfuKvssd
open Foundations

/-- Bytes handed to `dma->c2h`. -/
def Event.handed : Event → Option (List Byte)
  | .c2h _ bytes => some bytes
  | _ => none

/-- What a command has handed to the controller-to-host transfer. -/
def NvmeCtrl.handed (n n' : NvmeCtrl) : List (List Byte) :=
  (n'.world.trace.drop n.world.trace.length).filterMap Event.handed

/-- Whatever the allocations do, the command hands over no more bytes than the host declared. -/
def WithinHostBuffer (n : NvmeCtrl) (sqe : NvmeSqe) : Prop :=
  ∀ heap st n', nvmeIoKv n heap sqe = some (st, n') →
    ∀ bytes ∈ n.handed n', bytes.length ≤ (NvmeKVCmd.ofSqe sqe).hbs

/-- A List whose header alone is larger than the host buffer. -/
def HeaderOverruns (sqe : NvmeSqe) : Prop :=
  sqe.opcode = nvmeCmdKvList ∧ (NvmeKVCmd.ofSqe sqe).kl ≤ 16 ∧ (NvmeKVCmd.ofSqe sqe).hbs < 4

section Handed
variable {n n' : NvmeCtrl} {heap : Heap} {sqe : NvmeSqe} {st : Status} {bytes : List Byte}

theorem Event.handed_inert {e : Event} (h : e.kvInert = true) : e.handed = none := by
  cases e <;> first | rfl | cases h

theorem NvmeCtrl.handed_self (n : NvmeCtrl) : n.handed n = [] := by
  simp [handed]

theorem NvmeCtrl.Hands.handed (h : n.Hands heap sqe bytes)
    (hs : nvmeIoKv n heap sqe = some (st, n')) : n.handed n' = [bytes] := by
  rw [h, Option.some.injEq, Prod.mk.injEq] at hs
  rcases hx : kvdmaC2h heap n.world (.ofSqe sqe) bytes with ⟨ok, w'⟩
  obtain ⟨fs, htr, hfs⟩ := kvdmaC2h_trace hx
  rw [← hs.2, hx, NvmeCtrl.handed, withWorld_world, htr, List.drop_left, List.filterMap_append,
    List.filterMap_eq_nil_iff.mpr fun e he => Event.handed_inert (hfs e he)]
  rfl

theorem NvmeCtrl.Hands.mem_outside (h : n.Hands heap sqe bytes)
    (hs : nvmeIoKv n heap sqe = some (st, n')) {a : Addr}
    (ha : a ∉ prpAddrs (NvmeKVCmd.ofSqe sqe).prp1 (NvmeKVCmd.ofSqe sqe).prp2 bytes.length) :
    n'.world.mem a = n.world.mem a := by
  rw [h, Option.some.injEq, Prod.mk.injEq] at hs
  have hout := (nvmePrpXfer_outcome n.world (heap .dataSgl) (NvmeKVCmd.ofSqe sqe).prp1
    (NvmeKVCmd.ofSqe sqe).prp2 bytes true).1
  rw [← hs.2, withWorld_world, kvdmaC2h, World.log_mem]
  generalize nvmePrpXfer n.world _ _ _ _ _ = r at hout
  cases hout with
  | failed => rfl
  | done hm =>
    rw [hm.mem]
    exact writeAll_outside ha

theorem NvmeCtrl.retrieve_outcome (ho : sqe.opcode = nvmeCmdKvRetrieve)
    (hs : nvmeIoKv n heap sqe = some (st, n')) :
    n' = n ∨ ∃ bytes, bytes.length ≤ (NvmeKVCmd.ofSqe sqe).hbs ∧ n.Hands heap sqe bytes := by
  have hop : kvOpOf (NvmeKVCmd.ofSqe sqe).opcode = some .retrieve := (congrArg kvOpOf ho).trans rfl
  have hio : nvmeIoKv n heap sqe = some ((kvRetrieve n.ns (.ofSqe sqe) (kvdma heap) n.world).1,
      n.withWorld (kvRetrieve n.ns (.ofSqe sqe) (kvdma heap) n.world).2) := by
    simp only [nvmeIoKv, hop, kvHandle, Option.map_some]
    generalize kvRetrieve n.ns _ _ _ = r
    rfl
  rw [hio, Option.some.injEq, Prod.mk.injEq] at hs
  rw [← hs.2]
  by_cases hk : 16 < (NvmeKVCmd.ofSqe sqe).kl
  · left
    rw [kvRetrieve, if_pos hk]
    rfl
  cases hp : n.ns.pairs.find? (kvKeyMatch (.ofSqe sqe)) with
  | none =>
    left
    rw [kvRetrieve, if_neg hk, hp]
    rfl
  | some p =>
    right
    have hr := kvRetrieve_found (not_lt.mp hk) hp (kvdma heap) n.world
    rw [kvdma_c2h] at hr
    refine ⟨p.val.bytes.take (min (NvmeKVCmd.ofSqe sqe).hbs 4096), by simp, ?_⟩
    rw [Hands, hio, hr]

theorem returnedData_listed_length (ns : KvNs) (i hbs : ℕ) :
    (returnedData (ns.listed i hbs)).length ≤ max hbs 4 ∧
      4 ≤ (returnedData (ns.listed i hbs)).length := by
  have hfit := fitting_size_le kdsSize (hbs - 4) (ns.usedFrom i)
  rw [returnedData_length, KvNs.listed]
  omega

/-- Everything a Retrieve or a List hands over fits, or is the header of a List. -/
theorem handed_outcome (h : n.ns.Valid)
    (ho : sqe.opcode = nvmeCmdKvRetrieve ∨ sqe.opcode = nvmeCmdKvList) (hh : ¬ HeaderOverruns sqe)
    (hs : nvmeIoKv n heap sqe = some (st, n')) :
    n' = n ∨ ∃ bytes, bytes.length ≤ (NvmeKVCmd.ofSqe sqe).hbs ∧ n.Hands heap sqe bytes := by
  rcases ho with ho | ho
  · exact n.retrieve_outcome ho hs
  · rcases n.list_outcome h ho hs with ⟨-, hn⟩ | ⟨i, hk, -, hhands⟩
    · exact .inl hn
    · refine .inr ⟨_, ?_, hhands⟩
      have hlen := (returnedData_listed_length n.ns i (NvmeKVCmd.ofSqe sqe).hbs).1
      have hb : ¬ (NvmeKVCmd.ofSqe sqe).hbs < 4 := fun hb => hh ⟨ho, hk, hb⟩
      omega

/-- With memory at hand, a List whose header overruns the buffer hands over four bytes at least. -/
theorem HeaderOverruns.not_within (h : n.ns.Valid) (hh : HeaderOverruns sqe) :
    ¬ WithinHostBuffer n sqe := by
  intro hw
  obtain ⟨ho, hk, hb⟩ := hh
  have hsome : ∃ r, nvmeIoKv n (fun _ => true) sqe = some r := by
    simp only [nvmeIoKv, kvOpOf_list ho, kvHandle, Option.map_some]
    exact ⟨_, rfl⟩
  obtain ⟨⟨st, n'⟩, hs⟩ := hsome
  rcases n.list_outcome h ho hs with ⟨⟨-, hkl⟩ | ⟨-, s, hfalse⟩, -⟩ | ⟨i, -, -, hhands⟩
  · omega
  · cases hfalse
  · have hle := hw _ st n' hs (returnedData (n.ns.listed i (NvmeKVCmd.ofSqe sqe).hbs))
      (by rw [hhands.handed hs]; exact List.mem_singleton_self _)
    have hge := (returnedData_listed_length n.ns i (NvmeKVCmd.ofSqe sqe).hbs).2
    omega

end Handed

/-- A Retrieve or a List hands over at most `hbs` bytes exactly when it is not a List with an
acceptable key length and fewer than four bytes of buffer; and then no guest byte outside the
declared buffer changes. -/
theorem Device.Reachable.host_buffer_iff {maxNumKeys : BitVec 32} {d : Device}
    (h : Reachable maxNumKeys d) (w : World) {sqe : NvmeSqe}
    (ho : sqe.opcode = nvmeCmdKvRetrieve ∨ sqe.opcode = nvmeCmdKvList) :
    (WithinHostBuffer (d.n.withWorld w) sqe ↔ ¬ HeaderOverruns sqe) ∧
    (¬ HeaderOverruns sqe → ∀ heap st n', nvmeIoKv (d.n.withWorld w) heap sqe = some (st, n') →
      ∀ a, a ∉ prpAddrs (NvmeKVCmd.ofSqe sqe).prp1 (NvmeKVCmd.ofSqe sqe).prp2
        (NvmeKVCmd.ofSqe sqe).hbs → n'.world.mem a = w.mem a) := by
  have hv : (d.n.withWorld w).ns.Valid := h.ns_valid.1
  refine ⟨⟨fun hw hh => hh.not_within hv hw, fun hh heap st n' hs bytes hb => ?_⟩,
    fun hh heap st n' hs a ha => ?_⟩
  · rcases handed_outcome hv ho hh hs with rfl | ⟨bs, hlen, hhands⟩
    · rw [NvmeCtrl.handed_self] at hb
      cases hb
    · rw [hhands.handed hs, List.mem_singleton] at hb
      exact hb ▸ hlen
  · rcases handed_outcome hv ho hh hs with rfl | ⟨bs, hlen, hhands⟩
    · rfl
    · exact hhands.mem_outside hs fun hmem => ha (prpAddrs_mono hlen hmem)

/-- A List of two keys into a buffer that the second entry does not fit. -/
theorem Device.Reachable.host_buffer_cut :
    ∃ d n', Reachable 2 d ∧ d.n.ns.usedFrom 0 = [[0x61], [0x62]] ∧
      nvmeIoKv d.n (fun _ => true) (listInto 12) = some (nvmeSuccess, n') ∧
      d.n.handed n' = [[1, 0, 0, 0, 1, 0, 0x61, 0, 0, 0]] ∧
      (∀ bytes ∈ d.n.handed n', bytes.length ≤ 12) ∧
      ∀ a, a ∉ prpAddrs 0x40000 0 12 → n'.world.mem a = d.n.world.mem a := by
  have hrun : ((bootRun 2 (fun _ _ => true) (twoKeysInputs 1)).bind fun d =>
      (nvmeIoKv d.n (fun _ => true) (listInto 12)).map fun r =>
        decide (d.n.ns.usedFrom 0 = [[0x61], [0x62]] ∧ r.1 = nvmeSuccess ∧
          d.n.handed r.2 = [[1, 0, 0, 0, 1, 0, 0x61, 0, 0, 0]])) = some true := by decide +kernel
  obtain ⟨d, hd, hmap⟩ := Option.bind_eq_some_iff.mp hrun
  obtain ⟨⟨st, n'⟩, hio, hobs⟩ := Option.map_eq_some_iff.mp hmap
  obtain ⟨hkeys, rfl, hhanded⟩ := of_decide_eq_true hobs
  have hr : Reachable 2 d := reachable_of_bootRun hd
  have hop : (listInto 12).opcode = nvmeCmdKvList := by decide
  obtain ⟨hiff, hmem⟩ := hr.host_buffer_iff d.n.world (.inr hop)
  have hfits : ¬ HeaderOverruns (listInto 12) := fun hh => absurd hh.2.2 (by decide)
  have hwithin := hiff.mpr hfits _ _ n' hio
  rw [show (NvmeKVCmd.ofSqe (listInto 12)).hbs = 12 by decide] at hwithin
  refine ⟨d, n', hr, hkeys, hio, hhanded, hwithin, fun a ha => hmem hfits _ _ n' hio a ?_⟩
  rwa [show (NvmeKVCmd.ofSqe (listInto 12)).prp1 = 0x40000 by decide,
    show (NvmeKVCmd.ofSqe (listInto 12)).prp2 = 0 by decide,
    show (NvmeKVCmd.ofSqe (listInto 12)).hbs = 12 by decide]

/-- The header goes out whole: four bytes into a buffer of one. -/
theorem Device.header_overruns_buffer :
    ∃ d n', Reachable 1 d ∧ nvmeIoKv d.n (fun _ => true) (listInto 1) = some (nvmeSuccess, n') ∧
      d.n.handed n' = [[0, 0, 0, 0]] ∧ (NvmeKVCmd.ofSqe (listInto 1)).hbs = 1 := by
  have hrun : ((bootRun 1 (fun _ _ => true) []).bind fun d =>
      (nvmeIoKv d.n (fun _ => true) (listInto 1)).map fun r =>
        decide (r.1 = nvmeSuccess ∧ d.n.handed r.2 = [[0, 0, 0, 0]])) = some true := by
    decide +kernel
  obtain ⟨d, hd, hmap⟩ := Option.bind_eq_some_iff.mp hrun
  obtain ⟨⟨st, n'⟩, hio, hobs⟩ := Option.map_eq_some_iff.mp hmap
  obtain ⟨rfl, hhanded⟩ := of_decide_eq_true hobs
  exact ⟨d, n', reachable_of_bootRun hd, hio, hhanded, by decide⟩

end VfuKvssd
