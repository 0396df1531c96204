import VfuKvssd.KeyValue.Slots
import VfuKvssd.Foundations.Runs

/-! # The representation invariant of the namespace

Key uniqueness, zeroed free slots, exact accounting and the bounds on the table
hold after `kv_ns_init` and after every handler call, whatever the commands, the
transfers and the allocations do.
-/
namespace VfuKvssd
open Foundations

/-- The slots as a table of optional pairs. -/
def KvNs.table (ns : KvNs) : SlotTable.Table (List Byte) (Buffer 4096) := ns.pairs.map KvPair.entry

theorem KvNs.countP_table (ns : KvNs) : ns.table.countP Option.isSome = ns.numUsed := by
  simp only [table, numUsed, List.countP_map]
  congr 1
  funext p
  exact p.isSome_entry

theorem KvNs.getElem?_table (ns : KvNs) (i : ℕ) : ns.table[i]? = ns.pairs[i]?.map KvPair.entry := by
  simp [table]

/-- Representation invariant. -/
structure KvNs.Valid (ns : KvNs) : Prop where
  kl_le : ∀ p ∈ ns.pairs, p.used = true → p.kl ≤ 16
  unused_zero : ∀ p ∈ ns.pairs, p.used = false → p = KvPair.zero
  unique : SlotTable.Unique ns.table
  nuse_eq : ns.idNsKv.nuse.toNat = kvSlotSize * ns.numUsed
  nsze_eq : ns.idNsKv.nsze.toNat = kvSlotSize * ns.maxNumKeys.toNat
  used_le : ns.numUsed ≤ ns.maxNumKeys.toNat
  allocated_eq : ∃ j, ns.entriesAllocated = kvInitialEntries * 2 ^ j
  allocated_le : ns.entriesAllocated ≤ max kvInitialEntries (2 * ns.maxNumKeys.toNat)
  allocated_int : ns.entriesAllocated ≤ 2 ^ 31

theorem KvNs.Valid.entriesAllocated_pos {ns : KvNs} (h : ns.Valid) : 0 < ns.entriesAllocated := by
  obtain ⟨k, hk⟩ := h.allocated_eq
  rw [hk]
  exact Nat.mul_pos (by decide) (Nat.two_pow_pos k)

theorem kvNsInit_maxNumKeys {heap : Heap} {maxNumKeys : BitVec 32} {ns : KvNs}
    (h : kvNsInit heap maxNumKeys = some ns) : ns.maxNumKeys = maxNumKeys := by
  rw [kvNsInit] at h
  split at h
  · rw [← Option.some.inj h]
  · cases h

theorem kvNsInit_valid {heap : Heap} {maxNumKeys : BitVec 32} {ns : KvNs}
    (h : kvNsInit heap maxNumKeys = some ns) : ns.Valid := by
  rw [kvNsInit] at h
  split at h
  swap
  · cases h
  obtain rfl := Option.some.inj h
  constructor
  case nsze_eq =>
    have hm := maxNumKeys.isLt
    simp only [BitVec.toNat_mul, BitVec.toNat_setWidth, BitVec.toNat_ofNat, kvSlotSize,
      nvmeKvMaxKeySize, nvmeKvMaxValSize]
    omega
  case nuse_eq =>
    simp only [KvNs.numUsed, List.countP_replicate]
    rfl
  case used_le =>
    simp only [KvNs.numUsed, List.countP_replicate]
    exact Nat.zero_le _
  case unique => simp [SlotTable.Unique, KvNs.table]
  case allocated_eq => exact ⟨0, by simp [KvNs.entriesAllocated]⟩
  case allocated_le => simp [KvNs.entriesAllocated]
  case allocated_int => simp [KvNs.entriesAllocated, kvInitialEntries]
  case kl_le =>
    intro p hp hu
    rw [List.eq_of_mem_replicate hp] at hu
    cases hu
  case unused_zero =>
    intro p hp _
    exact List.eq_of_mem_replicate hp

/-! ## The four effects -/

/-- Put received bytes at the start of the value of slot `i`, which holds `p`. -/
def KvNs.overwrite (ns : KvNs) (i : ℕ) (p : KvPair) (dst : List Byte) : KvNs :=
  { ns with pairs := ns.pairs.set i { p with val := p.val.copy 0 dst } }

/-- Use the free slot `j` for the command's key, with received bytes over a zero buffer. -/
def KvNs.occupy (ns : KvNs) (j : ℕ) (cmd : NvmeKVCmd) (dst : List Byte) : KvNs :=
  KvNs.setNuse
    { ns with
      pairs := ns.pairs.set j
        { kvKeyStore KvPair.zero cmd with val := KvPair.zero.val.copy 0 dst } }
    (ns.idNsKv.nuse + BitVec.ofNat 64 kvSlotSize)

def KvNs.clear (ns : KvNs) (i : ℕ) : KvNs :=
  KvNs.setNuse { ns with pairs := ns.pairs.set i KvPair.zero }
    (ns.idNsKv.nuse - BitVec.ofNat 64 kvSlotSize)

namespace KvNs
variable {ns : KvNs} {cmd : NvmeKVCmd} {p : KvPair} {i j : ℕ} {dst : List Byte}

@[simp] theorem entriesAllocated_overwrite :
    (ns.overwrite i p dst).entriesAllocated = ns.entriesAllocated := List.length_set

@[simp] theorem entriesAllocated_occupy :
    (ns.occupy j cmd dst).entriesAllocated = ns.entriesAllocated := List.length_set

@[simp] theorem entriesAllocated_clear : (ns.clear i).entriesAllocated = ns.entriesAllocated :=
  List.length_set

@[simp] theorem entriesAllocated_grown : ns.grown.entriesAllocated = 2 * ns.entriesAllocated := by
  simp only [entriesAllocated, grown, List.length_append, List.length_replicate]
  omega

theorem table_overwrite (hu : p.used = true) :
    (ns.overwrite i p dst).table = ns.table.set i (some (p.keyBytes, p.val.copy 0 dst)) := by
  simp only [table, overwrite, List.map_set]
  simp [KvPair.entry, hu, KvPair.keyBytes]

theorem table_occupy (hk : cmd.kl ≤ 16) :
    (ns.occupy j cmd dst).table =
      ns.table.set j (some (cmd.keyBytes, KvPair.zero.val.copy 0 dst)) := by
  simp only [table, occupy, setNuse, List.map_set]
  congr 1
  rw [← kvKeyStore_keyBytes KvPair.zero hk]
  rfl

theorem table_clear : (ns.clear i).table = ns.table.set i none := by
  simp [table, clear, setNuse, List.map_set]

theorem table_grown : ns.grown.table = ns.table ++ List.replicate ns.entriesAllocated none := by
  simp [table, grown]

theorem getElem?_table_used (hi : ns.pairs[i]? = some p) (hu : p.used = true) :
    ns.table[i]? = some (some (p.keyBytes, p.val)) := by
  rw [getElem?_table, hi]
  simp [KvPair.entry, hu]

theorem getElem?_table_unused (hi : ns.pairs[i]? = some p) (hu : p.used = false) :
    ns.table[i]? = some none := by
  rw [getElem?_table, hi]
  simp [KvPair.entry, hu]

theorem hole_some (h : ns.hole = some j) : ∃ p, ns.pairs[j]? = some p ∧ p.used = false := by
  obtain ⟨hj, hu, -⟩ := List.findIdx?_eq_some_iff_getElem.mp h
  exact ⟨_, List.getElem?_eq_getElem hj, by simpa using hu⟩

theorem slotOf_some (h : ns.slotOf cmd = some i) :
    ∃ p, ns.pairs[i]? = some p ∧ kvKeyMatch cmd p = true := by
  obtain ⟨hi, hm, -⟩ := List.findIdx?_eq_some_iff_getElem.mp h
  exact ⟨_, List.getElem?_eq_getElem hi, hm⟩

theorem numUsed_of_hole_none (h : ns.hole = none) : ns.numUsed = ns.entriesAllocated := by
  rw [hole, List.findIdx?_eq_none_iff] at h
  rw [numUsed, entriesAllocated, List.countP_eq_length]
  intro p hp
  simpa using h p hp

theorem numUsed_grown : ns.grown.numUsed = ns.numUsed := by
  simp [numUsed, grown, KvPair.zero, List.countP_replicate]

theorem numUsed_occupy (hk : cmd.kl ≤ 16) (hj : ns.pairs[j]? = some p) (hu : p.used = false) :
    (ns.occupy j cmd dst).numUsed = ns.numUsed + 1 := by
  rw [← countP_table, ← countP_table, table_occupy hk,
    SlotTable.countP_fill (getElem?_table_unused hj hu)]

end KvNs

theorem kvKeyMatch_used {cmd : NvmeKVCmd} {p : KvPair} (h : kvKeyMatch cmd p = true) :
    p.used = true := by
  cases hu : p.used
  · simp [kvKeyMatch, hu] at h
  · rfl

namespace KvNs.Valid
variable {ns : KvNs} {cmd : NvmeKVCmd} {p : KvPair} {i j : ℕ} {dst : List Byte}

/-- The division in `kv_store` recovers the number of used slots. -/
theorem nuse_div (h : ns.Valid) :
    (ns.idNsKv.nuse / BitVec.ofNat 64 kvSlotSize).toNat = ns.numUsed := by
  rw [BitVec.toNat_udiv, h.nuse_eq]
  simp [kvSlotSize, nvmeKvMaxKeySize, nvmeKvMaxValSize]

theorem full_iff (h : ns.Valid) : ns.full = true ↔ ns.maxNumKeys.toNat ≤ ns.numUsed := by
  have hm := ns.maxNumKeys.isLt
  rw [full, decide_eq_true_eq, BitVec.le_def, h.nuse_div, BitVec.toNat_setWidth]
  omega

theorem keyBytes_of_match (h : ns.Valid) (hk : cmd.kl ≤ 16) (hp : p ∈ ns.pairs)
    (hm : kvKeyMatch cmd p = true) : p.keyBytes = cmd.keyBytes :=
  ((kvKeyMatch_iff hk (h.kl_le p hp (kvKeyMatch_used hm))).mp hm).2

theorem not_mem_keys (h : ns.Valid) (hk : cmd.kl ≤ 16) (hs : ns.slotOf cmd = none) :
    cmd.keyBytes ∉ SlotTable.keys ns.table := by
  rw [SlotTable.mem_keys]
  rintro ⟨v, hv⟩
  obtain ⟨p, hp, he⟩ := List.mem_map.mp hv
  have hu : p.used = true := by
    rw [← KvPair.isSome_entry, he]
    rfl
  have hkey : p.keyBytes = cmd.keyBytes := by
    simp only [KvPair.entry, hu, if_true, Option.some.injEq, Prod.mk.injEq] at he
    exact he.1
  have hn := List.findIdx?_eq_none_iff.mp hs p hp
  rw [Bool.eq_false_iff, ne_eq, kvKeyMatch_iff hk (h.kl_le p hp hu)] at hn
  exact hn ⟨hu, hkey⟩

theorem forall_set {Q : KvPair → Prop} {ps : List KvPair} {q : KvPair} (h : ∀ p ∈ ps, Q p) (hq : Q q) :
    ∀ p ∈ ps.set i q, Q p := by
  intro p hp
  rcases List.mem_or_eq_of_mem_set hp with hp | rfl
  · exact h p hp
  · exact hq

theorem overwrite (h : ns.Valid) (hi : ns.pairs[i]? = some p) (hu : p.used = true) :
    (ns.overwrite i p dst).Valid := by
  have hmem := List.mem_of_getElem? hi
  have hslot := getElem?_table_used hi hu
  have hused : (ns.overwrite i p dst).numUsed = ns.numUsed := by
    rw [← countP_table, ← countP_table, table_overwrite hu, SlotTable.countP_replace hslot]
  exact {
    kl_le := forall_set h.kl_le (h.kl_le p hmem)
    unused_zero := forall_set h.unused_zero fun hn => by simp [hu] at hn
    unique := by
      rw [table_overwrite hu]
      exact SlotTable.replace_unique hslot h.unique
    nuse_eq := by rw [hused]; exact h.nuse_eq
    nsze_eq := h.nsze_eq
    used_le := by rw [hused]; exact h.used_le
    allocated_eq := by simpa only [entriesAllocated_overwrite] using h.allocated_eq
    allocated_le := by rw [entriesAllocated_overwrite]; exact h.allocated_le
    allocated_int := by rw [entriesAllocated_overwrite]; exact h.allocated_int }

theorem occupy (h : ns.Valid) (hk : cmd.kl ≤ 16) (hj : ns.pairs[j]? = some p)
    (hu : p.used = false) (hkey : cmd.keyBytes ∉ SlotTable.keys ns.table)
    (hroom : ns.numUsed < ns.maxNumKeys.toNat) : (ns.occupy j cmd dst).Valid := by
  have hslot := getElem?_table_unused hj hu
  have hused : (ns.occupy j cmd dst).numUsed = ns.numUsed + 1 := numUsed_occupy hk hj hu
  have hm := ns.maxNumKeys.isLt
  exact {
    kl_le := forall_set h.kl_le fun _ => by simp only [kvKeyStore]; omega
    unused_zero := forall_set h.unused_zero fun hn => by simp [kvKeyStore] at hn
    unique := by
      rw [table_occupy hk]
      exact SlotTable.fill_unique hslot hkey h.unique
    nuse_eq := by
      rw [hused]
      have hn := h.nuse_eq
      simp only [KvNs.occupy, setNuse, BitVec.toNat_add, BitVec.toNat_ofNat, kvSlotSize,
        nvmeKvMaxKeySize, nvmeKvMaxValSize] at hn ⊢
      omega
    nsze_eq := by simpa only [KvNs.occupy, setNuse] using h.nsze_eq
    used_le := by rw [hused]; exact hroom
    allocated_eq := by simpa only [entriesAllocated_occupy] using h.allocated_eq
    allocated_le := by rw [entriesAllocated_occupy]; exact h.allocated_le
    allocated_int := by rw [entriesAllocated_occupy]; exact h.allocated_int }

theorem slotSize_le_nuse (h : ns.Valid) (hi : ns.pairs[i]? = some p) (hu : p.used = true) :
    kvSlotSize ≤ ns.idNsKv.nuse.toNat := by
  have hpos : 0 < ns.numUsed := List.countP_pos_iff.mpr ⟨p, List.mem_of_getElem? hi, hu⟩
  rw [h.nuse_eq]
  exact Nat.le_mul_of_pos_right _ hpos

theorem clear (h : ns.Valid) (hi : ns.pairs[i]? = some p) (hu : p.used = true) :
    (ns.clear i).Valid := by
  have hslot := getElem?_table_used hi hu
  have hused : (ns.clear i).numUsed + 1 = ns.numUsed := by
    rw [← countP_table, ← countP_table, table_clear, SlotTable.countP_clear hslot]
  have hle := h.used_le
  have hm := ns.maxNumKeys.isLt
  exact {
    kl_le := forall_set h.kl_le fun hn => by cases hn
    unused_zero := forall_set h.unused_zero fun _ => rfl
    unique := by
      rw [table_clear]
      exact SlotTable.clear_unique hslot h.unique
    nuse_eq := by
      have hn := h.nuse_eq
      rw [← hused] at hn hle
      simp only [KvNs.clear, setNuse, BitVec.toNat_sub, BitVec.toNat_ofNat, kvSlotSize,
        nvmeKvMaxKeySize, nvmeKvMaxValSize] at hn ⊢
      omega
    nsze_eq := h.nsze_eq
    used_le := by
      have hc : (ns.clear i).maxNumKeys = ns.maxNumKeys := rfl
      rw [hc]
      omega
    allocated_eq := by simpa only [entriesAllocated_clear] using h.allocated_eq
    allocated_le := by rw [entriesAllocated_clear]; exact h.allocated_le
    allocated_int := by rw [entriesAllocated_clear]; exact h.allocated_int }

/-- Growth happens only when every slot is used, so the table stays within twice the capacity. -/
theorem grown (h : ns.Valid) (hhole : ns.hole = none) (hroom : ns.numUsed < ns.maxNumKeys.toNat)
    (hint : ns.entriesAllocated < 2 ^ 31) : ns.grown.Valid := by
  have hall := numUsed_of_hole_none hhole
  have hused : ns.grown.numUsed = ns.numUsed := numUsed_grown
  obtain ⟨k, hk⟩ := h.allocated_eq
  exact {
    kl_le := by
      intro p hp hu
      rcases List.mem_append.mp hp with hp | hp
      · exact h.kl_le p hp hu
      · rw [List.eq_of_mem_replicate hp]
        exact Nat.zero_le _
    unused_zero := by
      intro p hp hu
      rcases List.mem_append.mp hp with hp | hp
      · exact h.unused_zero p hp hu
      · exact List.eq_of_mem_replicate hp
    unique := by
      rw [table_grown, SlotTable.Unique, SlotTable.keys_append, SlotTable.keys_replicate_none,
        List.append_nil]
      exact h.unique
    nuse_eq := by rw [hused]; exact h.nuse_eq
    nsze_eq := h.nsze_eq
    used_le := by rw [hused]; exact h.used_le
    allocated_eq := ⟨k + 1, by rw [entriesAllocated_grown, hk, pow_succ]; ring⟩
    allocated_le := by
      rw [entriesAllocated_grown]
      exact le_max_of_le_right (by rw [hall] at hroom; change _ ≤ 2 * ns.maxNumKeys.toNat; omega)
    allocated_int := by
      -- a power of two below 2 ^ 31 doubles to at most 2 ^ 31
      rw [entriesAllocated_grown]
      rw [hk, kvInitialEntries] at hint ⊢
      have hk' : k < 27 := by
        by_contra hc
        have hp := Nat.pow_le_pow_right (n := 2) (by decide) (not_lt.mp hc)
        omega
      have hp := Nat.pow_le_pow_right (n := 2) (by decide) (show k ≤ 26 by omega)
      omega }

end KvNs.Valid

end VfuKvssd
