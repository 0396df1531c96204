import VfuKvssd.KeyValue.KvMap

/-! # The slot that a new key is stored in

`kv_store` keeps the index in an `int`: the first free slot that its scan met,
or the old length of the array once it has doubled. A full array of 2^31 slots
leaves the range of `int`.
-/
namespace VfuKvssd
open Foundations

variable {σ : Type}

/-- The array and the index that `kv_store` uses for a new key. `none` is a failed `realloc`. -/
def kvStoreSlot (ns : KvNs) (cmd : NvmeKVCmd) (heap : Heap) : Option (KvNs × ℤ) :=
  kvGrow ns (kvStoreScan cmd ns.pairs 0 (-1)).1 heap

/-- The index is not negative, lies within the array, and names its lowest unused slot. -/
structure LowestUnused (ns : KvNs) (slot : ℤ) : Prop where
  nonneg : 0 ≤ slot
  lt : slot < ns.entriesAllocated
  unused : ∃ p, ns.pairs[slot.toNat]? = some p ∧ p.used = false
  lower : ∀ i p, i < slot.toNat → ns.pairs[i]? = some p → p.used = true

section Chosen
variable {ns : KvNs} {cmd : NvmeKVCmd} {heap : Heap}

theorem kvStore_inserts (hn : InsertsKey ns cmd) (dma : KvDma σ) (ctx : σ) {grown : KvNs}
    {slot : ℤ} (hs : kvStoreSlot ns cmd heap = some (grown, slot)) :
    kvStore ns cmd dma ctx heap = kvInsert grown slot cmd dma ctx := by
  have hmatch := kvStoreScan_match cmd ns.pairs 0 (-1)
  have habsent : ns.pairs.findIdx? (kvKeyMatch cmd) = none := hn.absent
  rw [habsent, Option.map_none] at hmatch
  rw [kvStoreSlot] at hs
  rw [kvStore, if_neg (Nat.not_lt.mpr hn.storable.1), if_neg (Nat.not_lt.mpr hn.storable.2)]
  rcases hscan : kvStoreScan cmd ns.pairs 0 (-1) with ⟨f, m⟩
  rw [hscan] at hmatch hs
  obtain rfl : m = none := hmatch
  simp only [hn.allowed, hn.notFull, Bool.false_eq_true, if_false, hs]

/-- The index is the lowest unused slot, or the length of the array when all are used. -/
theorem kvStoreSlot_eq (h : ns.Valid) (hs : ns.slotOf cmd = none) (hg : heap .pairsGrown = true) :
    kvStoreSlot ns cmd heap =
      some (match ns.hole with
        | some j => (ns, (j : ℤ))
        | none => (ns.grown, toCInt ns.entriesAllocated)) := by
  have hscan := kvStoreScan_hole cmd ns.pairs 0 (-1) hs (by simpa [KvNs.entriesAllocated] using h.allocated_int)
  simp only [Nat.zero_add, show ((-1 : ℤ) < 0) by decide, if_true] at hscan
  rw [kvStoreSlot, hscan]
  cases hh : ns.hole with
  | some j =>
    rw [KvNs.hole] at hh
    simp only [hh, Option.map_some, Option.getD_some, kvGrow]
    rw [if_neg (by omega)]
  | none =>
    rw [KvNs.hole] at hh
    simp only [hh, Option.map_none, Option.getD_none, kvGrow, hg]
    rfl

theorem KvNs.lowestUnused_hole {j : ℕ} (hh : ns.hole = some j) : LowestUnused ns j := by
  obtain ⟨hj, hu, hlow⟩ := List.findIdx?_eq_some_iff_getElem.mp hh
  refine ⟨by omega, ?_, ?_, ?_⟩
  · exact_mod_cast hj
  · exact ⟨ns.pairs[j], List.getElem?_eq_getElem hj, by simpa using hu⟩
  · intro i p hi hp
    obtain ⟨hlt, rfl⟩ := List.getElem?_eq_some_iff.mp hp
    simpa using hlow i hi

theorem KvNs.Valid.lowestUnused_grown (h : ns.Valid) (hh : ns.hole = none) :
    LowestUnused ns.grown ns.entriesAllocated := by
  have hpos := h.entriesAllocated_pos
  have hlen : ns.pairs.length = ns.entriesAllocated := rfl
  rw [KvNs.hole, List.findIdx?_eq_none_iff] at hh
  refine ⟨by omega, ?_, ?_, ?_⟩
  · rw [KvNs.entriesAllocated_grown]
    omega
  · refine ⟨KvPair.zero, ?_, rfl⟩
    rw [Int.toNat_natCast, KvNs.grown, ← hlen, List.getElem?_append_right le_rfl, Nat.sub_self]
    simp [hlen, hpos]
  · intro i p hi hp
    rw [Int.toNat_natCast, ← hlen] at hi
    rw [KvNs.grown, List.getElem?_append_left hi] at hp
    simpa using hh p (List.mem_of_getElem? hp)

end Chosen

/-- After any sequence of handler calls, a Store that inserts a new key, with its `realloc`
succeeding, uses the lowest unused slot exactly when some slot is unused or fewer than 2^31 slots
are allocated. -/
theorem kvStore_slot_iff {heap₀ heap : Heap} {maxNumKeys : BitVec 32} {ns₀ ns : KvNs}
    (h₀ : kvNsInit heap₀ maxNumKeys = some ns₀) (hr : Reaches kvCall (fun _ _ => True) ns₀ ns)
    {cmd : NvmeKVCmd} (hn : InsertsKey ns cmd) (hg : heap .pairsGrown = true) :
    ∃ grown slot, (∀ (dma : KvDma σ) (ctx : σ),
        kvStore ns cmd dma ctx heap = kvInsert grown slot cmd dma ctx) ∧
      kvStoreSlot ns cmd heap = some (grown, slot) ∧
      (LowestUnused grown slot ↔
        (∃ p ∈ ns.pairs, p.used = false) ∨ ns.entriesAllocated < 2 ^ 31) := by
  obtain ⟨h, -⟩ := kvCalls_valid h₀ hr
  have hslot := kvStoreSlot_eq h hn.absent hg
  cases hh : ns.hole with
  | some j =>
    simp only [hh] at hslot
    refine ⟨ns, j, fun dma ctx => kvStore_inserts hn dma ctx hslot, hslot, ?_⟩
    obtain ⟨p, hp, hu⟩ := KvNs.hole_some hh
    exact iff_of_true (KvNs.lowestUnused_hole hh) (.inl ⟨p, List.mem_of_getElem? hp, hu⟩)
  | none =>
    simp only [hh] at hslot
    refine ⟨_, _, fun dma ctx => kvStore_inserts hn dma ctx hslot, hslot, ?_⟩
    have hall : ¬ ∃ p ∈ ns.pairs, p.used = false := by
      rintro ⟨p, hp, hu⟩
      have hused := List.findIdx?_eq_none_iff.mp hh p hp
      rw [hu] at hused
      cases hused
    by_cases hint : ns.entriesAllocated < 2 ^ 31
    · rw [toCInt_of_lt hint]
      exact iff_of_true (h.lowestUnused_grown hh) (.inr hint)
    · have he : ns.entriesAllocated = 2 ^ 31 := le_antisymm h.allocated_int (not_lt.mp hint)
      rw [he, toCInt_two_pow]
      refine iff_of_false (fun hl => absurd hl.nonneg (by decide)) ?_
      rintro (hp | hlt)
      · exact hall hp
      · exact absurd hlt (by decide)

/-- The first key goes into slot 0. -/
theorem kvStore_slot_first :
    ∃ ns₀ grown slot, kvNsInit (fun _ => true) 1 = some ns₀ ∧
      InsertsKey ns₀ failedStoreCall.cmd ∧
      kvStoreSlot ns₀ failedStoreCall.cmd (fun _ => true) = some (grown, slot) ∧
      LowestUnused grown slot := by
  obtain ⟨ns₀, h₀⟩ : ∃ ns₀, kvNsInit (fun _ => true) 1 = some ns₀ := ⟨_, rfl⟩
  have hns := Option.some.inj h₀
  have hn : InsertsKey ns₀ failedStoreCall.cmd := by
    rw [← hns]
    exact ⟨by unfold NvmeKVCmd.storable; decide +kernel, by decide +kernel, by decide +kernel,
      by decide +kernel⟩
  let heap : Heap := fun _ => true
  obtain ⟨grown, slot, -, hslot, hiff⟩ := kvStore_slot_iff (σ := Unit) h₀ .refl hn
    (show heap .pairsGrown = true from rfl)
  refine ⟨ns₀, grown, slot, h₀, hn, hslot, hiff.mpr (.inr ?_)⟩
  rw [← hns]
  decide +kernel

/-! ## A full array of 2^31 slots -/

/-- A Store of no bytes under a key of four bytes. -/
def storeKey (i : ℕ) : KvCall where
  op := .store
  cmd := ⟨fun j => if 8 ≤ j.val ∧ j.val < 12 then (leBytes 4 i).getD (j.val - 8) 0
    else if j.val = 44 then 4 else 0⟩
  dma := ⟨fun _ _ dst => (true, dst, ()), fun _ _ _ => (true, ())⟩
  heap := fun _ => true

theorem storeKey_storable (i : ℕ) : (storeKey i).cmd.storable :=
  ⟨by change 4 ≤ 16; decide, by change 0 ≤ nvmeKvMaxValSize; decide⟩

theorem storeKey_keyBytes (i : ℕ) : (storeKey i).cmd.keyBytes = leBytes 4 i := by
  rfl

theorem storeKey_allowed (i : ℕ) : (storeKey i).cmd.dontStoreIfKeyNotExists = false := by
  have hro : (storeKey i).cmd.ro = 0 := rfl
  rw [NvmeKVCmd.dontStoreIfKeyNotExists, hro]
  decide

theorem leBytes_four_injective {i j : ℕ} (hi : i < 2 ^ 32) (hj : j < 2 ^ 32)
    (h : leBytes 4 i = leBytes 4 j) : i = j := by
  have hv := congrArg leNat h
  rwa [leNat_leBytes, leNat_leBytes, Nat.mod_eq_of_lt (by omega), Nat.mod_eq_of_lt (by omega)] at hv

theorem KvNs.Valid.slotOf_none {ns : KvNs} {cmd : NvmeKVCmd} (h : ns.Valid) (hk : cmd.kl ≤ 16)
    (hc : ns.contents cmd.keyBytes = none) : ns.slotOf cmd = none := by
  cases hs : ns.slotOf cmd with
  | none => rfl
  | some i =>
    obtain ⟨p, hp, hm⟩ := KvNs.slotOf_some hs
    rw [h.contents_match hk hp hm] at hc
    cases hc

/-- The keys below `k` are stored and those from `k` on are not. -/
structure Filled (ns : KvNs) (k : ℕ) : Prop where
  valid : ns.Valid
  cap : ns.maxNumKeys = 0xffffffff
  used : ns.numUsed = k
  absent : ∀ i, k ≤ i → i < 2 ^ 32 → ns.contents (leBytes 4 i) = none

theorem Filled.inserts {ns : KvNs} {k : ℕ} (h : Filled ns k) (hk : k ≤ 2 ^ 31) :
    InsertsKey ns (storeKey k).cmd := by
  refine ⟨storeKey_storable k, h.valid.slotOf_none (storeKey_storable k).1 ?_, storeKey_allowed k, ?_⟩
  · rw [storeKey_keyBytes]
    exact h.absent k le_rfl (by omega)
  · rw [Bool.eq_false_iff, ne_eq, h.valid.full_iff, h.cap, h.used,
      show (0xffffffff : BitVec 32).toNat = 2 ^ 32 - 1 from rfl]
    omega

theorem Filled.next {ns : KvNs} {k : ℕ} (h : Filled ns k) (hk : k < 2 ^ 31) :
    ∃ ns', kvCall ns (storeKey k) = some ns' ∧ Filled ns' (k + 1) := by
  have hn := h.inserts hk.le
  have ho := kvStore_outcome h.valid (storeKey k).cmd (storeKey k).dma () (storeKey k).heap
  have hcall : kvCall ns (storeKey k) = (kvStore ns (storeKey k).cmd (storeKey k).dma ()
    (storeKey k).heap).map fun r => r.2.1 := rfl
  rw [hcall]
  generalize kvStore ns (storeKey k).cmd (storeKey k).dma () (storeKey k).heap = r at ho
  cases ho with
  | keySize hkl => exact absurd hn.storable.1 (Nat.not_le.mpr hkl)
  | valSize _ hv => exact absurd hn.storable.2 (Nat.not_le.mpr hv)
  | keyExists _ hs | overwrite _ hs =>
    rw [hn.absent] at hs
    cases hs
  | keyNotExists _ _ ho =>
    rw [hn.allowed] at ho
    cases ho
  | full _ _ _ hf =>
    rw [hn.notFull] at hf
    cases hf
  | noMemory _ hr =>
    rw [KvNs.room] at hr
    split at hr
    · cases hr
    · exact absurd hr (by simp [storeKey])
  | outOfRange _ hhole _ hint =>
    have hall := KvNs.numUsed_of_hole_none hhole
    rw [h.used, hint] at hall
    omega
  | @insert hn base j hr hb hj ok dst ctx' ht =>
    refine ⟨_, rfl, h.valid.insert hn hr hb hj, ?_, ?_, fun i hi hlt => ?_⟩
    · exact (congrArg KvNs.maxNumKeys (KvNs.settings_room hr)).trans h.cap
    · rw [KvNs.numUsed_occupy hn.storable.1 hj rfl, KvNs.numUsed_room hr, h.used]
    · have hne : leBytes 4 i ≠ (storeKey k).cmd.keyBytes := fun he => by
        rw [storeKey_keyBytes] at he
        have := leBytes_four_injective hlt (by omega) he
        omega
      rw [h.valid.contents_insert hn hr hj, Function.update_of_ne hne]
      exact h.absent i (by omega) hlt

theorem kvNsInit_filled {heap : Heap} {ns₀ : KvNs} (h₀ : kvNsInit heap 0xffffffff = some ns₀) :
    Filled ns₀ 0 := by
  have hv := kvNsInit_valid h₀
  have hused : ns₀.numUsed = 0 := by
    rw [kvNsInit] at h₀
    split at h₀
    · rw [← Option.some.inj h₀]
      simp [KvNs.numUsed, KvPair.zero, List.countP_replicate]
    · cases h₀
  refine ⟨hv, kvNsInit_maxNumKeys h₀, hused, fun i _ _ => ?_⟩
  have hkeys : SlotTable.keys ns₀.table = [] :=
    List.eq_nil_of_length_eq_zero (by rw [SlotTable.keys_length, KvNs.countP_table, hused])
  rw [KvNs.contents, SlotTable.lookup_eq_none_iff, hkeys]
  exact List.not_mem_nil

/-- Any number of keys up to 2^31 can be stored. -/
theorem filled_reached {heap : Heap} {ns₀ : KvNs} (h₀ : kvNsInit heap 0xffffffff = some ns₀) {k : ℕ}
    (hk : k ≤ 2 ^ 31) : ∃ ns, Reaches kvCall (fun _ _ => True) ns₀ ns ∧ Filled ns k := by
  induction k with
  | zero => exact ⟨ns₀, .refl, kvNsInit_filled h₀⟩
  | succ k ih =>
    obtain ⟨ns, hr, hf⟩ := ih (by omega)
    obtain ⟨ns', hs, hf'⟩ := hf.next (by omega)
    exact ⟨ns', .tail (storeKey k) hr trivial hs, hf'⟩

theorem Filled.hole_none {ns : KvNs} (h : Filled ns (2 ^ 31)) :
    ns.hole = none ∧ ns.entriesAllocated = 2 ^ 31 := by
  have hle : ns.numUsed ≤ ns.entriesAllocated := List.countP_le_length
  have hlen : ns.pairs.length = 2 ^ 31 :=
    le_antisymm h.valid.allocated_int (h.used ▸ hle)
  refine ⟨?_, hlen⟩
  have hall : ∀ p ∈ ns.pairs, p.used = true := by
    rw [← List.countP_eq_length]
    exact h.used.trans hlen.symm
  rw [KvNs.hole, List.findIdx?_eq_none_iff]
  intro p hp
  rw [hall p hp]
  rfl

/-- The Store of a new key into a namespace of 2^32 - 1 keys that holds 2^31 of them: every slot is
used, and the index of the first new one is negative. -/
theorem kvStore_slot_negative :
    ∃ ns₀ ns grown, kvNsInit (fun _ => true) 0xffffffff = some ns₀ ∧
      Reaches kvCall (fun _ _ => True) ns₀ ns ∧ InsertsKey ns (storeKey (2 ^ 31)).cmd ∧
      kvStoreSlot ns (storeKey (2 ^ 31)).cmd (fun _ => true) = some (grown, -2 ^ 31) ∧
      ¬ LowestUnused grown (-2 ^ 31) := by
  obtain ⟨ns₀, h₀⟩ : ∃ ns₀, kvNsInit (fun _ => true) 0xffffffff = some ns₀ := ⟨_, rfl⟩
  obtain ⟨ns, hr, hf⟩ := filled_reached h₀ le_rfl
  have hn := hf.inserts le_rfl
  obtain ⟨hh, he⟩ := hf.hole_none
  refine ⟨ns₀, ns, ns.grown, h₀, hr, hn, ?_, fun hl => absurd hl.nonneg (by decide)⟩
  rw [kvStoreSlot_eq hf.valid hn.absent rfl, hh, he, toCInt_two_pow]

end VfuKvssd
