import VfuKvssd.Controller.Progress
import VfuKvssd.KeyValue.ListKeys

/-! # List commands through the controller

What a List that completes with success has transferred: which keys, in which
layout, and how a host that follows the format reads them back.
-/
namespace VfuKvssd
open Foundations

/-- The command completes with success after transferring these bytes to the host. -/
def NvmeCtrl.Sends (n : NvmeCtrl) (heap : Heap) (sqe : NvmeSqe) (bytes : List Byte) : Prop :=
  n.Hands heap sqe bytes ∧ (kvdmaC2h heap n.world (.ofSqe sqe) bytes).1 = true

theorem NvmeCtrl.Sends.length_le {n : NvmeCtrl} {heap : Heap} {sqe : NvmeSqe} {bytes : List Byte}
    (h : n.Sends heap sqe bytes) : bytes.length ≤ 2 * kvssdPageSize :=
  nvmePrpXfer_len h.2

theorem transferStatus_success {ok : Bool} (h : transferStatus ok = nvmeSuccess) : ok = true := by
  cases ok
  · exact absurd h (by decide)
  · rfl

theorem kvOpOf_list {sqe : NvmeSqe} (ho : sqe.opcode = nvmeCmdKvList) :
    kvOpOf (NvmeKVCmd.ofSqe sqe).opcode = some .list := (congrArg kvOpOf ho).trans rfl

/-- A List that gets past its allocations hands over the keys that fit. -/
theorem NvmeCtrl.list_outcome {n n' : NvmeCtrl} (h : n.ns.Valid) {heap : Heap} {sqe : NvmeSqe}
    {st : Status} (ho : sqe.opcode = nvmeCmdKvList) (hs : nvmeIoKv n heap sqe = some (st, n')) :
    ((st = nvmeInvalidField ∧ 16 < (NvmeKVCmd.ofSqe sqe).kl ∨
      st = nvmeCapExceeded ∧ ∃ s, heap s = false) ∧ n' = n) ∨
    ∃ i, (NvmeKVCmd.ofSqe sqe).kl ≤ 16 ∧ n.ns.StartsAt (NvmeKVCmd.ofSqe sqe).keyBytes i ∧
      n.Hands heap sqe (returnedData (n.ns.listed i (NvmeKVCmd.ofSqe sqe).hbs)) := by
  have hlist := kvList_outcome h (.ofSqe sqe) (kvdma heap) n.world heap
  have hio : nvmeIoKv n heap sqe = some ((kvList n.ns (.ofSqe sqe) (kvdma heap) n.world heap).1,
      n.withWorld (kvList n.ns (.ofSqe sqe) (kvdma heap) n.world heap).2) := by
    simp only [nvmeIoKv, kvOpOf_list ho, kvHandle, Option.map_some]
    generalize kvList n.ns _ _ _ _ = r
    rfl
  rw [hio, Option.some.injEq, Prod.mk.injEq] at hs
  obtain ⟨rfl, rfl⟩ := hs
  generalize hr : kvList n.ns (.ofSqe sqe) (kvdma heap) n.world heap = r at hlist hio
  cases hlist with
  | keySize hk => exact .inl ⟨.inl ⟨rfl, hk⟩, rfl⟩
  | noMemory hk hs => exact .inl ⟨.inr ⟨rfl, _, hs⟩, rfl⟩
  | @sent hk i hi ok ctx' ht =>
    rw [kvdma_c2h] at ht
    refine .inr ⟨i, hk, hi, ?_⟩
    rw [Hands, hio, ht]

theorem NvmeCtrl.list_sends {n n' : NvmeCtrl} (h : n.ns.Valid) {heap : Heap} {sqe : NvmeSqe}
    (ho : sqe.opcode = nvmeCmdKvList) (hs : nvmeIoKv n heap sqe = some (nvmeSuccess, n')) :
    ∃ i, n.ns.StartsAt (NvmeKVCmd.ofSqe sqe).keyBytes i ∧
      n.Sends heap sqe (returnedData (n.ns.listed i (NvmeKVCmd.ofSqe sqe).hbs)) := by
  rcases n.list_outcome h ho hs with ⟨⟨hst, -⟩ | ⟨hst, -⟩, -⟩ | ⟨i, -, hi, hh⟩
  · exact absurd hst (by decide)
  · exact absurd hst (by decide)
  · have hst := (Prod.mk.inj (Option.some.inj (hh.symm.trans hs))).1
    exact ⟨i, hi, hh, transferStatus_success hst⟩

/-- With room for every entry from the start slot on, a List completes with success exactly when its
allocations do and its data can be mapped. -/
theorem NvmeCtrl.list_success_iff {n : NvmeCtrl} (h : n.ns.Valid) {heap : Heap} {sqe : NvmeSqe}
    (ho : sqe.opcode = nvmeCmdKvList) (hk : (NvmeKVCmd.ofSqe sqe).kl ≤ 16) {i : ℕ}
    (hi : (n.ns.slotOf (.ofSqe sqe)).getD 0 = i)
    (hfit : 4 + ((n.ns.usedFrom i).map kdsSize).sum ≤ (NvmeKVCmd.ofSqe sqe).hbs) :
    (∃ n', nvmeIoKv n heap sqe = some (nvmeSuccess, n')) ↔ heap .rds = true ∧
      (∀ j p, i ≤ j → n.ns.pairs[j]? = some p → p.used = true → heap (.rdsGrown j) = true) ∧
      heap .dataSgl = true ∧ n.world.vfu.mapsPrps sqe.prp1 sqe.prp2
        (4 + ((n.ns.usedFrom i).map kdsSize).sum) .write = true := by
  have hlen := returnedData_length (n.ns.usedFrom i)
  have hxfer : ((kvdma heap).c2h n.world (.ofSqe sqe) (returnedData (n.ns.usedFrom i))).1 =
      (nvmePrpXfer n.world (heap .dataSgl) sqe.prp1 sqe.prp2 (returnedData (n.ns.usedFrom i))
        true).1 := rfl
  have hlist : (kvList n.ns (.ofSqe sqe) (kvdma heap) n.world heap).1 = nvmeSuccess ↔ _ :=
    kvList_success_iff h hk hi hfit
  rw [hxfer, nvmePrpXfer_ok _ _ _ _ _ (by omega), hlen, Bool.and_eq_true] at hlist
  refine Iff.trans ?_ hlist
  simp only [nvmeIoKv, kvOpOf_list ho, kvHandle, Option.map_some, Option.some.injEq, Prod.mk.injEq]
  constructor
  · rintro ⟨_, hst, -⟩
    exact hst
  · exact fun hst => ⟨_, hst, rfl⟩

/-! ## The keys in the transferred data -/

/-- The keys that a Returned Data Structure carries, each with its length, and their count. -/
structure Carries (bytes : List Byte) (keys : List (List Byte)) : Prop where
  data : bytes = returnedData keys
  count : keys.length < 2 ^ 16
  lengths : ∀ k ∈ keys, k.length < 2 ^ 16

theorem Carries.header {bytes : List Byte} {keys : List (List Byte)} (h : Carries bytes keys) :
    leNat (bytes.take 2) = keys.length := by
  have hc := h.count
  rw [h.data, returnedData, List.append_assoc, List.take_left' (leBytes_length _ _), leNat_leBytes]
  omega

theorem Carries.body {bytes : List Byte} {keys : List (List Byte)} (h : Carries bytes keys) :
    bytes.drop 4 = keys.flatMap kds := by
  rw [h.data, returnedData]
  exact List.drop_left' (by simp)

theorem Carries.unique {bytes : List Byte} {keys keys' : List (List Byte)} (h : Carries bytes keys)
    (h' : Carries bytes keys') : keys = keys' :=
  records_inj h.lengths h'.lengths (h.header.symm.trans h'.header) (h.body.symm.trans h'.body)

section Keys
variable {ns : KvNs} {i j hbs : ℕ} {key : List Byte}

theorem usedKeys_eq_keys (ps : List KvPair) :
    usedKeys ps = SlotTable.keys (ps.map KvPair.entry) := by
  induction ps with
  | nil => rfl
  | cons p ps ih =>
    cases hu : p.used with
    | false =>
      rw [usedKeys_cons_unused ps hu, ih]
      simp [SlotTable.keys, KvPair.entry, hu]
    | true =>
      rw [usedKeys_cons_used ps hu, ih]
      simp [SlotTable.keys, KvPair.entry, hu]

theorem KvNs.Valid.usedFrom_nodup (h : ns.Valid) (i : ℕ) : (ns.usedFrom i).Nodup := by
  have hall : (usedKeys ns.pairs).Nodup := by
    rw [usedKeys_eq_keys]
    exact h.unique
  exact hall.sublist (((List.drop_sublist i ns.pairs).filter _).map _)

theorem KvNs.Valid.usedFrom_length (h : ns.Valid) {k : List Byte} (hk : k ∈ ns.usedFrom i) :
    k.length ≤ 16 := by
  obtain ⟨p, hp, rfl⟩ := List.mem_map.mp hk
  obtain ⟨hp, hu⟩ := List.mem_filter.mp hp
  have hkl := h.kl_le p (List.mem_of_mem_drop hp) hu
  rw [p.keyBytes_length hkl]
  exact hkl

theorem KvNs.listed_initial (ns : KvNs) (i hbs : ℕ) : ns.listed i hbs <+: ns.usedFrom i :=
  fitting_initial _ _ _

theorem four_mul_length_le (keys : List (List Byte)) :
    4 * keys.length ≤ (keys.map kdsSize).sum := by
  induction keys with
  | nil => exact Nat.le_refl _
  | cons k ks ih =>
    have hk : 4 ≤ kdsSize k := by
      simp only [kdsSize, recordSize, kdsPad]
      omega
    rw [List.length_cons, List.map_cons, List.sum_cons]
    omega

/-- A list that transfers successfully is too short for its 16-bit count to wrap. -/
theorem KvNs.Valid.carries (h : ns.Valid)
    (hlen : (returnedData (ns.listed i hbs)).length ≤ 2 * kvssdPageSize) :
    Carries (returnedData (ns.listed i hbs)) (ns.listed i hbs) := by
  refine ⟨rfl, ?_, fun k hk => ?_⟩
  · have h4 := four_mul_length_le (ns.listed i hbs)
    rw [returnedData_length, kvssdPageSize] at hlen
    omega
  · have hk16 := h.usedFrom_length ((ns.listed_initial i hbs).subset hk)
    omega

theorem KvNs.Valid.startsAt_unique (h : ns.Valid) (hi : ns.StartsAt key i)
    (hj : ns.StartsAt key j) : i = j := by
  rcases hi with ⟨p, hp, hpu, hpk⟩ | ⟨hno, rfl⟩
  · rcases hj with ⟨q, hq, hqu, hqk⟩ | ⟨hno, rfl⟩
    · exact h.slot_unique hp hq hpu hqu (hpk.trans hqk.symm)
    · exact absurd hpk (hno p (List.mem_of_getElem? hp) hpu)
  · rcases hj with ⟨q, hq, hqu, hqk⟩ | ⟨-, rfl⟩
    · exact absurd hqk (hno q (List.mem_of_getElem? hq) hqu)
    · rfl

end Keys

/-- A List that completes with success transfers exactly the longest run of keys, in slot order
from the start slot on, that fits the host buffer behind the header, each once, with its stored
bytes and a count that is their number. -/
theorem Device.Reachable.list_selection {maxNumKeys : BitVec 32} {d : Device}
    (h : Reachable maxNumKeys d) (w : World) {heap : Heap} {sqe : NvmeSqe} {n' : NvmeCtrl}
    (ho : sqe.opcode = nvmeCmdKvList) (hb : 4 ≤ (NvmeKVCmd.ofSqe sqe).hbs)
    (hs : nvmeIoKv (d.n.withWorld w) heap sqe = some (nvmeSuccess, n')) :
    ∃ i bytes keys, d.n.ns.StartsAt (NvmeKVCmd.ofSqe sqe).keyBytes i ∧
      (d.n.withWorld w).Sends heap sqe bytes ∧
      bytes = leBytes 2 keys.length ++ [0, 0] ++ keys.flatMap kds ∧
      leNat (bytes.take 2) = keys.length ∧
      keys <+: d.n.ns.usedFrom i ∧ bytes.length ≤ (NvmeKVCmd.ofSqe sqe).hbs ∧
      (∀ ks, ks <+: d.n.ns.usedFrom i → 4 + (ks.map kdsSize).sum ≤ (NvmeKVCmd.ofSqe sqe).hbs →
        ks <+: keys) ∧ keys.Nodup := by
  have hv : (d.n.withWorld w).ns.Valid := h.ns_valid.1
  obtain ⟨i, hi, hsend⟩ := NvmeCtrl.list_sends hv ho hs
  have hcarry := hv.carries hsend.length_le
  have hpre := d.n.ns.listed_initial i (NvmeKVCmd.ofSqe sqe).hbs
  refine ⟨i, _, _, hi, hsend, rfl, hcarry.header, hpre, ?_, fun ks hks hfit => ?_,
    (hv.usedFrom_nodup i).sublist hpre.sublist⟩
  · have hfit := fitting_size_le kdsSize ((NvmeKVCmd.ofSqe sqe).hbs - 4) (d.n.ns.usedFrom i)
    rw [returnedData_length]
    change 4 + ((fitting kdsSize _ (d.n.ns.usedFrom i)).map kdsSize).sum ≤ _
    omega
  · exact prefix_fitting hks (by omega)

/-! ## Reading the data back -/

/-- The format's decoder: a count in the first 16 bits, then one record for each key from byte 4
on. -/
def decodeReturned (bytes : List Byte) : Option (List (List Byte)) :=
  if bytes.length < 4 then none else decodeRecords (leNat (bytes.take 2)) (bytes.drop 4)

/-- Where the entry that follows the given keys starts. -/
def entryStart (ks : List (List Byte)) : ℕ := 4 + (ks.map kdsSize).sum

/-- Every entry starts at a multiple of four bytes, and the decoder gives the keys back. -/
structure RoundTrips (bytes : List Byte) (keys : List (List Byte)) : Prop where
  aligned : ∀ ks k, ks ++ [k] <+: keys → kds k <+: bytes.drop (entryStart ks) ∧ entryStart ks % 4 = 0
  decodes : decodeReturned bytes = some keys

/-- No key of odd length is followed by a key that still fits the host buffer. -/
def KvNs.EvenBeforeLast (ns : KvNs) (i hbs : ℕ) : Prop :=
  ∀ ks k l, ks ++ [k, l] <+: ns.usedFrom i → 4 + ((ks ++ [k, l]).map kdsSize).sum ≤ hbs →
    k.length % 2 = 0

theorem kdsSize_mod_four_iff (k : List Byte) : kdsSize k % 4 = 0 ↔ k.length % 2 = 0 := by
  simp only [kdsSize, recordSize, kdsPad]
  omega

theorem kdsPad_of_even {k : List Byte} (h : k.length % 2 = 0) :
    kdsPad (2 + k.length) = padTo4 (2 + k.length) := by
  simp only [kdsPad, padTo4]
  omega

theorem entryStart_snoc (ks : List (List Byte)) (k : List Byte) :
    entryStart (ks ++ [k]) = entryStart ks + kdsSize k := by
  simp only [entryStart, List.map_append, List.sum_append, List.map_singleton, List.sum_singleton]
  omega

theorem kds_prefix_drop {keys ks : List (List Byte)} {k : List Byte} (h : ks ++ [k] <+: keys) :
    kds k <+: (returnedData keys).drop (entryStart ks) := by
  obtain ⟨ls, rfl⟩ := h
  have hsplit : returnedData (ks ++ [k] ++ ls) =
      (leBytes 2 (ks ++ [k] ++ ls).length ++ [0, 0] ++ ks.flatMap kds) ++ (kds k ++ ls.flatMap kds) := by
    simp only [returnedData, List.flatMap_append, List.flatMap_cons, List.flatMap_nil,
      List.append_nil, List.append_assoc]
  rw [hsplit, List.drop_left']
  · exact List.prefix_append _ _
  · simp only [entryStart, List.length_append, leBytes_length, List.length_cons, List.length_nil,
      List.length_flatMap, kds_length]

/-- The condition says that all selected keys but the last have even length. -/
theorem KvNs.evenBeforeLast_iff {ns : KvNs} {i hbs : ℕ} (hb : 4 ≤ hbs) :
    ns.EvenBeforeLast i hbs ↔ ∀ k ∈ (ns.listed i hbs).dropLast, k.length % 2 = 0 := by
  constructor
  · intro h k hk
    obtain ⟨ks, rest, hsplit⟩ := List.append_of_mem hk
    have hne : ns.listed i hbs ≠ [] := by
      intro hnil
      simp [hnil] at hk
    have hlisted := List.dropLast_concat_getLast hne
    rw [hsplit] at hlisted
    -- what follows `k` in the selection is not empty
    obtain ⟨l, tail, hrest⟩ : ∃ l tail, rest ++ [(ns.listed i hbs).getLast hne] = l :: tail :=
      List.exists_cons_of_ne_nil (by simp)
    rw [List.append_assoc, List.cons_append, hrest] at hlisted
    have hpre : ks ++ [k, l] <+: ns.listed i hbs := ⟨tail, by rw [← hlisted]; simp⟩
    obtain ⟨hused, hfit⟩ := prefix_fitting_iff.mp hpre
    exact h ks k l hused (by omega)
  · intro h ks k l hused hfit
    have hpre : ks ++ [k, l] <+: ns.listed i hbs := prefix_fitting hused (by omega)
    obtain ⟨tail, hlisted⟩ := hpre
    refine h k ?_
    rw [← hlisted, List.append_assoc, List.dropLast_append_of_ne_nil (by simp)]
    simp

theorem roundTrips_iff {ns : KvNs} {i hbs : ℕ} (hb : 4 ≤ hbs)
    (hc : Carries (returnedData (ns.listed i hbs)) (ns.listed i hbs)) :
    RoundTrips (returnedData (ns.listed i hbs)) (ns.listed i hbs) ↔ ns.EvenBeforeLast i hbs := by
  constructor
  · intro h ks k l hused hfit
    have hpre : ks ++ [k, l] <+: ns.listed i hbs := prefix_fitting hused (by omega)
    have hk : ks ++ [k] <+: ns.listed i hbs := by
      refine List.IsPrefix.trans ⟨[l], by simp⟩ hpre
    have hl : ks ++ [k] ++ [l] <+: ns.listed i hbs := by
      rw [List.append_assoc]
      exact hpre
    -- the entry of `k` starts and ends at a multiple of four
    have hstart := (h.aligned ks k hk).2
    have hend := (h.aligned (ks ++ [k]) l hl).2
    rw [entryStart_snoc] at hend
    exact (kdsSize_mod_four_iff k).mp (by omega)
  · intro h
    rw [KvNs.evenBeforeLast_iff hb] at h
    refine ⟨fun ks k hk => ⟨kds_prefix_drop hk, ?_⟩, ?_⟩
    · -- every key before `k` is one of those with another key behind it
      have hks : ∀ l ∈ ks, kdsSize l % 4 = 0 := by
        obtain ⟨rest, hlisted⟩ := hk
        intro l hl
        refine (kdsSize_mod_four_iff l).mpr (h l ?_)
        rw [← hlisted, List.append_assoc, List.dropLast_append_of_ne_nil (by simp)]
        exact List.mem_append_left _ hl
      have hsum : (ks.map kdsSize).sum % 4 = 0 := by
        refine Nat.mod_eq_zero_of_dvd (List.dvd_sum fun x hx => ?_)
        obtain ⟨l, hl, rfl⟩ := List.mem_map.mp hx
        exact Nat.dvd_of_mod_eq_zero (hks l hl)
      rw [entryStart]
      omega
    · have hdec : decodeRecords (ns.listed i hbs).length
          ((ns.listed i hbs).flatMap (record kdsPad)) = some (ns.listed i hbs) :=
        decodeRecords_flatMap hc.lengths fun k hk => kdsPad_of_even (h k hk)
      rw [decodeReturned, hc.header, hc.body, if_neg]
      · exact hdec
      · rw [returnedData_length]
        omega

/-- A List that completes with success has every entry at a multiple of four bytes and is read back
by the decoder exactly when no key of odd length is followed by one that still fits. -/
theorem Device.Reachable.list_roundtrip_iff {maxNumKeys : BitVec 32} {d : Device}
    (h : Reachable maxNumKeys d) (w : World) {heap : Heap} {sqe : NvmeSqe} {n' : NvmeCtrl}
    (ho : sqe.opcode = nvmeCmdKvList) (hb : 4 ≤ (NvmeKVCmd.ofSqe sqe).hbs)
    (hs : nvmeIoKv (d.n.withWorld w) heap sqe = some (nvmeSuccess, n')) :
    ∃ i bytes, d.n.ns.StartsAt (NvmeKVCmd.ofSqe sqe).keyBytes i ∧
      (d.n.withWorld w).Sends heap sqe bytes ∧
      (RoundTrips bytes (d.n.ns.listed i (NvmeKVCmd.ofSqe sqe).hbs) ↔
        d.n.ns.EvenBeforeLast i (NvmeKVCmd.ofSqe sqe).hbs) := by
  have hv : (d.n.withWorld w).ns.Valid := h.ns_valid.1
  obtain ⟨i, hi, hsend⟩ := NvmeCtrl.list_sends hv ho hs
  exact ⟨i, _, hi, hsend, roundTrips_iff hb (hv.carries hsend.length_le)⟩

/-- An I/O queue pair and Stores with empty values: of the first `kl` bytes of "aa", and of "b". -/
def twoKeysMemory (kl : ℕ) : Memory :=
  memoryOf [(0, 5), (26, 2), (40, 1), (42, 15), (64, 1), (90, 3), (104, 1), (106, 15), (110, 1),
    (0x30000, 1), (0x30008, 0x61), (0x30009, 0x61), (0x3002c, kl), (0x30040, 1), (0x30048, 0x62),
    (0x3006c, 1)]

def twoKeysInputs (kl : ℕ) : List Input :=
  enableAdmin ++ [.hostMemory (twoKeysMemory kl), sqTailWrite 0 2] ++ iterations 3 ++
    [sqTailWrite 1 2] ++ iterations 2

/-- A List without a start key into a buffer of the given size. -/
def listInto (hbs : Byte) : NvmeSqe :=
  ⟨fun i => if i.val = 0 then 6 else if i.val = 26 then 4 else if i.val = 40 then hbs else 0⟩

def listAll : NvmeSqe := listInto 64

/-- No stored key is empty. -/
def KvNs.noEmptyKey (ns : KvNs) : Bool := ns.pairs.all fun p => !(p.used && p.keyBytes == [])

theorem KvNs.startsAt_zero {ns : KvNs} (h : ns.noEmptyKey = true) : ns.StartsAt [] 0 := by
  refine .inr ⟨fun p hp hu hk => ?_, rfl⟩
  have hp := List.all_eq_true.mp h p hp
  simp [hu, hk] at hp

/-- A namespace that holds the two keys, from which a List without a start key succeeds. -/
theorem Device.listAll_after (kl : ℕ) (p : NvmeCtrl → Bool)
    (hrun : ((bootRun 2 (fun _ _ => true) (twoKeysInputs kl)).bind fun d =>
      (nvmeIoKv d.n (fun _ => true) listAll).map fun r =>
        decide (r.1 = nvmeSuccess) && d.n.ns.noEmptyKey && p d.n) = some true) :
    ∃ d n', Reachable 2 d ∧ nvmeIoKv d.n (fun _ => true) listAll = some (nvmeSuccess, n') ∧
      d.n.ns.StartsAt [] 0 ∧ p d.n = true := by
  obtain ⟨d, hd, hmap⟩ := Option.bind_eq_some_iff.mp hrun
  obtain ⟨⟨st, n'⟩, hio, hobs⟩ := Option.map_eq_some_iff.mp hmap
  rw [Bool.and_eq_true, Bool.and_eq_true, decide_eq_true_eq] at hobs
  obtain ⟨⟨rfl, hkeys⟩, hp⟩ := hobs
  exact ⟨d, n', reachable_of_bootRun hd, hio, KvNs.startsAt_zero hkeys, hp⟩

theorem Device.Reachable.list_selection_twoKeys :
    ∃ d bytes keys, Reachable 2 d ∧ d.n.ns.usedFrom 0 = [[0x61], [0x62]] ∧
      d.n.Sends (fun _ => true) listAll bytes ∧ leNat (bytes.take 2) = keys.length ∧
      keys = d.n.ns.usedFrom 0 := by
  obtain ⟨d, n', hr, hio, hstart, hp⟩ := listAll_after 1
    (fun n => decide (n.ns.usedFrom 0 = [[0x61], [0x62]])) (by decide +kernel)
  have hused := of_decide_eq_true hp
  obtain ⟨i, bytes, keys, hi, hsend, -, hcount, hpre, -, hmax, -⟩ :=
    hr.list_selection d.n.world (show listAll.opcode = _ by decide) (by decide) hio
  obtain rfl : i = 0 := hr.ns_valid.1.startsAt_unique hi hstart
  refine ⟨d, bytes, keys, hr, hused, hsend, hcount, ?_⟩
  exact hpre.eq_of_length_le (hmax _ List.prefix_rfl (by rw [hused]; decide)).length_le

/-- A key of even length in front of one of odd length. -/
theorem Device.Reachable.list_roundtrip_evenFirst :
    ∃ d bytes, Reachable 2 d ∧ d.n.Sends (fun _ => true) listAll bytes ∧
      d.n.ns.listed 0 (NvmeKVCmd.ofSqe listAll).hbs = [[0x61, 0x61], [0x62]] ∧
      RoundTrips bytes [[0x61, 0x61], [0x62]] := by
  obtain ⟨d, n', hr, hio, hstart, hp⟩ := listAll_after 2
    (fun n => decide (n.ns.listed 0 64 = [[0x61, 0x61], [0x62]])) (by decide +kernel)
  have hlisted : d.n.ns.listed 0 (NvmeKVCmd.ofSqe listAll).hbs = [[0x61, 0x61], [0x62]] := by
    rw [show (NvmeKVCmd.ofSqe listAll).hbs = 64 by decide]
    exact of_decide_eq_true hp
  obtain ⟨i, bytes, hi, hsend, hiff⟩ :=
    hr.list_roundtrip_iff d.n.world (show listAll.opcode = _ by decide) (by decide) hio
  obtain rfl : i = 0 := hr.ns_valid.1.startsAt_unique hi hstart
  rw [KvNs.evenBeforeLast_iff (by decide), hlisted] at hiff
  exact ⟨d, bytes, hr, hsend, hlisted, hiff.mpr (by decide)⟩

/-- With the keys "a" and "b" the second entry starts at byte 10 and the decoder finds no list. -/
theorem Device.odd_key_breaks_list :
    ∃ d n' bytes, Reachable 2 d ∧ nvmeIoKv d.n (fun _ => true) listAll = some (nvmeSuccess, n') ∧
      d.n.ns.StartsAt (NvmeKVCmd.ofSqe listAll).keyBytes 0 ∧
      d.n.Sends (fun _ => true) listAll bytes ∧ decodeReturned bytes = none ∧
      ¬ RoundTrips bytes (d.n.ns.listed 0 (NvmeKVCmd.ofSqe listAll).hbs) := by
  obtain ⟨d, n', hr, hio, hstart, hp⟩ := listAll_after 1
    (fun n => (decodeReturned (returnedData (n.ns.listed 0 64))).isNone) (by decide +kernel)
  have hnone := Option.isNone_iff_eq_none.mp hp
  obtain ⟨i, hi, hsend⟩ := NvmeCtrl.list_sends hr.ns_valid.1 (by decide) hio
  obtain rfl : i = 0 := hr.ns_valid.1.startsAt_unique hi hstart
  refine ⟨d, n', _, hr, hio, hstart, hsend, hnone, fun hrt => ?_⟩
  have hdec := hrt.decodes
  rw [show (NvmeKVCmd.ofSqe listAll).hbs = 64 by decide, hnone] at hdec
  cases hdec

end VfuKvssd
