import VfuKvssd.Controller.KvRuns

/-! # Failed KV commands

A command that ends in an error leaves the store as it was, with one exception:
`kv_store` occupies a slot and counts it before it transfers the value, so an
insertion whose transfer fails stays behind.
-/
namespace VfuKvssd
open Foundations

/-- Stored keys, stored values and the usage counter are the same. -/
structure SameStore (ns ns' : KvNs) : Prop where
  contents : ns'.contents = ns.contents
  nuse : ns'.idNsKv.nuse = ns.idNsKv.nuse

/-- A status other than success means that nothing has changed. -/
def ErrorAtomic (n : NvmeCtrl) (heap : Heap) (sqe : NvmeSqe) : Prop :=
  ∀ st n', nvmeIoKv n heap sqe = some (st, n') → st ≠ nvmeSuccess → SameStore n.ns n'.ns

/-- A Store of a new key that passes every check and finds a slot, and whose transfer fails. -/
structure FailedInsert (n : NvmeCtrl) (heap : Heap) (sqe : NvmeSqe) : Prop where
  store : sqe.opcode = nvmeCmdKvStore
  inserts : InsertsKey n.ns (.ofSqe sqe)
  slot : n.ns.hole = none → heap .pairsGrown = true ∧ n.ns.entriesAllocated < 2 ^ 31
  transfer : (nvmePrpXfer n.world (heap .dataSgl) sqe.prp1 sqe.prp2
    (List.replicate (NvmeKVCmd.ofSqe sqe).hbs 0) false).1 = false

theorem zero_bytes_take {k : ℕ} (hk : k ≤ 4096) :
    KvPair.zero.val.bytes.take k = List.replicate k 0 := by
  rw [show KvPair.zero.val.bytes = List.replicate 4096 0 from List.ofFn_const 4096 0,
    List.take_replicate, Nat.min_eq_left hk]

theorem Buffer.copy_own {k : ℕ} (f : Buffer 4096) : f.copy 0 (f.bytes.take k) = f := by
  funext i
  rw [Buffer.copy]
  split
  · rename_i hi
    have hlt : i.val - 0 < (f.bytes.take k).length := by omega
    rw [List.getD_eq_getElem?_getD, List.getElem?_eq_getElem hlt, Option.getD_some, List.getElem_take,
      Buffer.getElem_bytes]
    rfl
  · rfl

theorem kvdmaH2c_ok (heap : Heap) (w : World) (cmd : NvmeKVCmd) (dst : List Byte) :
    ((kvdma heap).h2c w cmd dst).1 =
      (nvmePrpXfer w (heap .dataSgl) cmd.prp1 cmd.prp2 dst false).1 := rfl

/-- A failed transfer in leaves the destination as it was. -/
theorem kvdmaH2c_failed {heap : Heap} {w w' : World} {cmd : NvmeKVCmd} {dst bytes : List Byte}
    (h : (kvdma heap).h2c w cmd dst = (false, bytes, w')) : bytes = dst := by
  have ho := (nvmePrpXfer_outcome w (heap .dataSgl) cmd.prp1 cmd.prp2 dst false).1
  have hx : kvdmaH2c heap w cmd dst = (false, bytes, w') := h
  simp only [kvdmaH2c, Prod.mk.injEq] at hx
  obtain ⟨hok, hb, -⟩ := hx
  generalize nvmePrpXfer w (heap .dataSgl) cmd.prp1 cmd.prp2 dst false = r at ho hok hb
  cases ho with
  | failed => exact hb.symm
  | done => cases hok

theorem KvNs.overwrite_own {ns : KvNs} {i k : ℕ} {p : KvPair} (hi : ns.pairs[i]? = some p) :
    ns.overwrite i p (p.val.bytes.take k) = ns := by
  obtain ⟨hlt, hget⟩ := List.getElem?_eq_some_iff.mp hi
  have hset : ns.pairs.set i p = ns.pairs := by rw [← hget, List.set_getElem_self]
  rw [KvNs.overwrite, Buffer.copy_own, hset]

section Store
variable {n : NvmeCtrl} {heap : Heap} {sqe : NvmeSqe}

/-- What a Store of a valid namespace leaves behind when it ends in an error. -/
theorem kvStore_error {st : Status} {ns' : KvNs} {w' : World} (h : n.ns.Valid)
    (hs : kvStore n.ns (.ofSqe sqe) (kvdma heap) n.world heap = some (st, ns', w'))
    (hst : st ≠ nvmeSuccess) :
    ns' = n.ns ∨ sqe.opcode ≠ nvmeCmdKvStore ∨ FailedInsert n heap sqe := by
  have ho := kvStore_outcome h (.ofSqe sqe) (kvdma heap) n.world heap
  rw [hs] at ho
  cases ho with
  | @overwrite hc i p hslot hi hm hopt ok dst ctx' ht =>
    cases ok with
    | true => exact absurd rfl hst
    | false =>
      rw [kvdmaH2c_failed ht]
      exact .inl (KvNs.overwrite_own hi)
  | @insert hn base j hr hb hj ok dst ctx' ht =>
    cases ok with
    | true => exact absurd rfl hst
    | false =>
      by_cases hop : sqe.opcode = nvmeCmdKvStore
      swap
      · exact .inr (.inl hop)
      refine .inr (.inr ⟨hop, hn, fun hhole => ?_, ?_⟩)
      · obtain ⟨hh, -⟩ | ⟨-, hg, rfl, -⟩ := KvNs.room_cases hr
        · rw [hhole] at hh
          cases hh
        · refine ⟨hg, ?_⟩
          have hint := hb.allocated_int
          rw [KvNs.entriesAllocated_grown] at hint
          have hpos : (0 : ℕ) < 2 ^ 31 := by decide
          omega
      · have hok := kvdmaH2c_ok heap n.world (.ofSqe sqe)
          (KvPair.zero.val.bytes.take (NvmeKVCmd.ofSqe sqe).hbs)
        rw [ht, zero_bytes_take hn.storable.2] at hok
        exact hok.symm
  | _ => exact .inl rfl

/-- A failed insertion is an error that leaves the key behind. -/
theorem FailedInsert.not_atomic (h : n.ns.Valid) (hf : FailedInsert n heap sqe) :
    ¬ ErrorAtomic n heap sqe := by
  intro hatomic
  have hop : kvOpOf (NvmeKVCmd.ofSqe sqe).opcode = some .store :=
    (congrArg kvOpOf hf.store).trans rfl
  have hn := hf.inserts
  have ho := kvStore_outcome h (.ofSqe sqe) (kvdma heap) n.world heap
  rcases hs : kvStore n.ns (.ofSqe sqe) (kvdma heap) n.world heap with _ | ⟨st, ns', w'⟩
  · rw [hs] at ho
    cases ho with
    | outOfRange _ hhole _ he =>
      have hlt := (hf.slot hhole).2
      omega
  have hio : nvmeIoKv n heap sqe = some (st, { n.withWorld w' with ns := ns' }) := by
    simp only [nvmeIoKv, hop, kvHandle, hs, Option.map_some]
  have hsame := hatomic st _ hio
  rw [hs] at ho
  have hx := (kvdmaH2c_ok heap n.world (.ofSqe sqe) _).trans hf.transfer
  rw [← zero_bytes_take hn.storable.2] at hx
  cases ho with
  | @insert _ base j hr hb hj ok dst ctx' ht =>
    rw [ht] at hx
    obtain rfl : ok = false := hx
    have hc := congrFun (hsame (by decide)).contents (NvmeKVCmd.ofSqe sqe).keyBytes
    change (base.occupy j (.ofSqe sqe) dst).contents _ = n.ns.contents _ at hc
    rw [h.contents_insert hn hr hj, Function.update_self,
      h.contents_none hn.storable.1 hn.absent] at hc
    cases hc
  | keySize hk => exact absurd hn.storable.1 (not_le.mpr hk)
  | valSize _ hv => exact absurd hn.storable.2 (not_le.mpr hv)
  | keyExists _ hslot => rw [hn.absent] at hslot; cases hslot
  | overwrite _ hslot => rw [hn.absent] at hslot; cases hslot
  | keyNotExists _ _ hopt => rw [hn.allowed] at hopt; cases hopt
  | full _ _ _ hfull => rw [hn.notFull] at hfull; cases hfull
  | noMemory _ hr =>
    cases hhole : n.ns.hole with
    | some j => simp [KvNs.room, hhole] at hr
    | none => simp [KvNs.room, hhole, (hf.slot hhole).1] at hr

theorem errorAtomic_of_not_failedInsert (h : n.ns.Valid) (hf : ¬ FailedInsert n heap sqe) :
    ErrorAtomic n heap sqe := by
  intro st n' hio hst
  simp only [nvmeIoKv] at hio
  split at hio
  · obtain ⟨-, rfl⟩ := Prod.mk.inj (Option.some.inj hio)
    exact ⟨rfl, rfl⟩
  rename_i op hop
  obtain ⟨⟨st', ns', w'⟩, hh, hr⟩ := Option.map_eq_some_iff.mp hio
  obtain ⟨rfl, rfl⟩ := Prod.mk.inj hr
  cases op with
  | store =>
    rcases kvStore_error h hh hst with he | hne | hfail
    · exact ⟨congrArg KvNs.contents he, congrArg (·.idNsKv.nuse) he⟩
    · exact absurd (kvOpOf_eq hop) hne
    · exact absurd hfail hf
  | delete =>
    simp only [kvHandle, Option.some.injEq, Prod.mk.injEq] at hh
    obtain ⟨rfl, rfl, -⟩ := hh
    have ho := kvDelete_outcome n.ns (.ofSqe sqe)
    generalize kvDelete n.ns (.ofSqe sqe) = r at ho hst
    cases ho with
    | keySize | absent => exact ⟨rfl, rfl⟩
    | present => exact absurd rfl hst
  | retrieve | exist | list =>
    simp only [kvHandle, Option.some.injEq, Prod.mk.injEq] at hh
    obtain ⟨-, rfl, -⟩ := hh
    exact ⟨rfl, rfl⟩

end Store

/-- For every reachable namespace, every I/O command, every outcome of the host transfer and of
allocation: errors are atomic exactly when the command is not an insertion whose transfer fails. -/
theorem Device.Reachable.error_atomic_iff {maxNumKeys : BitVec 32} {d : Device}
    (h : Reachable maxNumKeys d) (w : World) (heap : Heap) (sqe : NvmeSqe) :
    ErrorAtomic (d.n.withWorld w) heap sqe ↔ ¬ FailedInsert (d.n.withWorld w) heap sqe :=
  have hv : (d.n.withWorld w).ns.Valid := h.ns_valid.1
  ⟨fun ha hf => hf.not_atomic hv ha, errorAtomic_of_not_failedInsert hv⟩

def oneByteStore : NvmeSqe :=
  ⟨fun i => if i.val = 0 ∨ i.val = 40 ∨ i.val = 44 then 1 else if i.val = 8 then 0x61 else 0⟩

/-- An overwrite whose transfer fails: the key keeps the value that was stored before. -/
theorem Device.Reachable.error_atomic_overwrite :
    ∃ d st n', Reachable 1 d ∧ d.n.ns.contents [0x61] ≠ none ∧
      nvmeIoKv d.n (fun _ => true) oneByteStore = some (st, n') ∧ st = nvmeInvalidField ∧
      n'.ns.contents = d.n.ns.contents := by
  have hrun : ((bootRun 1 (fun _ _ => true) (storeInputs ++ [.dmaRegions .unmapped])).bind fun d =>
      (nvmeIoKv d.n (fun _ => true) oneByteStore).map fun r =>
        decide ((d.n.ns.contents [0x61]).isSome = true ∧
          d.n.ns.slotOf (.ofSqe oneByteStore) ≠ none ∧ r.1 = nvmeInvalidField)) =
      some true := by decide +kernel
  obtain ⟨d, hd, hmap⟩ := Option.bind_eq_some_iff.mp hrun
  obtain ⟨⟨st, n'⟩, hio, hobs⟩ := Option.map_eq_some_iff.mp hmap
  obtain ⟨hkey, hslot, rfl⟩ := of_decide_eq_true hobs
  have hr : Reachable 1 d := reachable_of_bootRun hd
  have hatomic := (hr.error_atomic_iff d.n.world (fun _ => true) oneByteStore).mpr
    fun hf => hslot hf.inserts.absent
  exact ⟨d, _, n', hr, Option.isSome_iff_ne_none.mp hkey, hio, rfl,
    (hatomic _ n' hio (by decide)).contents⟩

/-- With no memory mapped, the Store fails and its key stays behind. -/
theorem Device.failed_store_stays :
    ∃ d st n', Reachable 1 d ∧ nvmeIoKv d.n (fun _ => true) oneByteStore = some (st, n') ∧
      st ≠ nvmeSuccess ∧ ¬ SameStore d.n.ns n'.ns := by
  have hrun : ((bootRun 1 (fun _ _ => true) [.dmaRegions .unmapped]).bind fun d =>
      (nvmeIoKv d.n (fun _ => true) oneByteStore).map fun r =>
        decide (r.1 ≠ nvmeSuccess ∧ r.2.ns.idNsKv.nuse ≠ d.n.ns.idNsKv.nuse)) =
      some true := by decide +kernel
  obtain ⟨d, hd, hmap⟩ := Option.bind_eq_some_iff.mp hrun
  obtain ⟨⟨st, n'⟩, hio, hobs⟩ := Option.map_eq_some_iff.mp hmap
  obtain ⟨hst, hnuse⟩ := of_decide_eq_true hobs
  exact ⟨d, st, n', reachable_of_bootRun hd, hio, hst,
    fun hs => hnuse hs.nuse⟩

end VfuKvssd
