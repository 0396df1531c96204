import VfuKvssd.KeyValue.Handlers
import VfuKvssd.Foundations.SlotTable

/-! # What the handlers do to the slot array

The split key comparison decides equality of key strings, the scan finds the
matching slot or the first free one, and every effect of a handler on the array
is one of four: overwrite a value, occupy a free slot, clear a slot, or append
free slots.
-/
namespace VfuKvssd
open Foundations

/-- The stored pair of a slot, if the slot is used. -/
def KvPair.entry (p : KvPair) : Option (List Byte × Buffer 4096) :=
  if p.used then some (p.keyBytes, p.val) else none

@[simp] theorem KvPair.entry_zero : KvPair.zero.entry = none := rfl

theorem KvPair.isSome_entry (p : KvPair) : p.entry.isSome = p.used := by
  cases h : p.used <;> simp [entry, h]

theorem NvmeKVCmd.keyBytes_of_le {cmd : NvmeKVCmd} (h : cmd.kl ≤ 8) :
    cmd.keyBytes = cmd.key.bytes.take cmd.kl := by
  rw [keyBytes, List.take_append_of_le_length (by simpa using h)]

theorem NvmeKVCmd.keyBytes_of_gt {cmd : NvmeKVCmd} (h : 8 < cmd.kl) :
    cmd.keyBytes = cmd.key.bytes ++ cmd.keyHi.bytes.take (cmd.kl - 8) := by
  rw [keyBytes, List.take_append, List.take_of_length_le (by simp; omega), Buffer.bytes_length]

/-- The two comparisons of at most eight bytes decide equality of the whole keys. -/
theorem kvKeyMatch_iff {cmd : NvmeKVCmd} {p : KvPair} (hc : cmd.kl ≤ 16) (hp : p.kl ≤ 16) :
    kvKeyMatch cmd p = true ↔ p.used = true ∧ p.keyBytes = cmd.keyBytes := by
  by_cases hu : p.used = true
  swap
  · simp [kvKeyMatch, hu]
  by_cases hk : cmd.kl = p.kl
  swap
  · have hne : p.keyBytes ≠ cmd.keyBytes := by
      intro he
      have hl := congrArg List.length he
      rw [NvmeKVCmd.keyBytes_length hc] at hl
      simp only [KvPair.keyBytes, List.length_take, Buffer.bytes_length] at hl
      omega
    simp [kvKeyMatch, hu, hk, hne]
  rw [KvPair.keyBytes, ← hk]
  by_cases h8 : 8 < cmd.kl
  · have hsplit : p.key.bytes.take cmd.kl =
        p.key.bytes.take 8 ++ (p.key.bytes.drop 8).take (cmd.kl - 8) := by
      rw [← List.take_add]
      congr 1
      omega
    have hlen : (p.key.bytes.take 8).length = cmd.key.bytes.length := by simp
    have h₁ : min cmd.kl 8 = 8 := by omega
    have h₂ : min (cmd.kl - 8) 8 = cmd.kl - 8 := by omega
    have h₃ : cmd.key.bytes.take 8 = cmd.key.bytes := List.take_of_length_le (by simp)
    have happ : p.key.bytes.take 8 ++ (p.key.bytes.drop 8).take (cmd.kl - 8) =
        cmd.key.bytes ++ cmd.keyHi.bytes.take (cmd.kl - 8) ↔
        cmd.key.bytes = p.key.bytes.take 8 ∧
          cmd.keyHi.bytes.take (cmd.kl - 8) = (p.key.bytes.drop 8).take (cmd.kl - 8) := by
      constructor
      · intro he
        obtain ⟨ha, hb⟩ := List.append_inj he hlen
        exact ⟨ha.symm, hb.symm⟩
      · rintro ⟨ha, hb⟩
        rw [ha, hb]
    rw [NvmeKVCmd.keyBytes_of_gt h8, hsplit, happ]
    simp only [kvKeyMatch, hu, ← hk, h₁, h₂, h₃, h8, if_true]
    simp
  · have h₁ : min cmd.kl 8 = cmd.kl := by omega
    rw [NvmeKVCmd.keyBytes_of_le (by omega), eq_comm (a := p.key.bytes.take cmd.kl)]
    simp [kvKeyMatch, hu, ← hk, h₁, h8]

theorem kvKeyStore_keyBytes (p : KvPair) {cmd : NvmeKVCmd} (hc : cmd.kl ≤ 16) :
    (kvKeyStore p cmd).keyBytes = cmd.keyBytes := by
  have hkl : min cmd.kl 16 = cmd.kl := by omega
  by_cases h8 : 8 < cmd.kl
  · have h₁ : min cmd.kl 8 = 8 := by omega
    have h₂ : min (cmd.kl - 8) 8 = cmd.kl - 8 := by omega
    have h₃ : cmd.key.bytes.take 8 = cmd.key.bytes := List.take_of_length_le (by simp)
    have hhi : (cmd.keyHi.bytes.take (cmd.kl - 8)).length = cmd.kl - 8 := by
      simp only [List.length_take, Buffer.bytes_length]
      omega
    have hlo : (p.key.copy 0 cmd.key.bytes).bytes = cmd.key.bytes ++ p.key.bytes.drop 8 := by
      simpa using Buffer.bytes_copy p.key 0 cmd.key.bytes (by simp)
    have hlen : (cmd.key.bytes ++ cmd.keyHi.bytes.take (cmd.kl - 8)).length = cmd.kl := by
      rw [List.length_append, hhi, Buffer.bytes_length]
      omega
    simp only [KvPair.keyBytes, kvKeyStore, h8, if_true, h₁, h₂, h₃, hkl]
    have htake : (cmd.key.bytes ++ p.key.bytes.drop 8).take 8 = cmd.key.bytes :=
      List.take_left' (by simp)
    rw [Buffer.bytes_copy _ _ _ (by omega), hlo, htake, NvmeKVCmd.keyBytes_of_gt h8,
      List.take_left' hlen]
  · have h₁ : min cmd.kl 8 = cmd.kl := by omega
    have hlen : (cmd.key.bytes.take cmd.kl).length = cmd.kl := by
      simp only [List.length_take, Buffer.bytes_length]
      omega
    simp only [KvPair.keyBytes, kvKeyStore, h8, if_false, h₁, hkl]
    rw [Buffer.bytes_copy _ _ _ (by omega), List.take_zero, List.nil_append, List.take_left' hlen,
      NvmeKVCmd.keyBytes_of_le (by omega)]

section Scan
variable {cmd : NvmeKVCmd}

def KvNs.slotOf (ns : KvNs) (cmd : NvmeKVCmd) : Option ℕ := ns.pairs.findIdx? (kvKeyMatch cmd)

def KvNs.hole (ns : KvNs) : Option ℕ := ns.pairs.findIdx? fun p => !p.used

theorem toCInt_of_lt {i : ℕ} (h : i < 2 ^ 31) : toCInt i = i := by
  rw [toCInt, BitVec.toInt_eq_toNat_of_lt] <;> rw [BitVec.toNat_ofNat, Nat.mod_eq_of_lt] <;> omega

theorem kvStoreScan_match (cmd : NvmeKVCmd) (ps : List KvPair) (i : ℕ) (f : ℤ) :
    (kvStoreScan cmd ps i f).2 = (ps.findIdx? (kvKeyMatch cmd)).map (i + ·) := by
  induction ps generalizing i f with
  | nil => rfl
  | cons p ps ih =>
    rw [kvStoreScan, List.findIdx?_cons]
    by_cases hm : kvKeyMatch cmd p = true
    · simp [hm]
    · simp only [hm, if_false, Bool.false_eq_true, ih, Option.map_map]
      congr 1
      funext j
      simp only [Function.comp_apply]
      omega

/-- Within the range of `int`, a scan without a match ends with the lowest free slot. -/
theorem kvStoreScan_hole (cmd : NvmeKVCmd) (ps : List KvPair) (i : ℕ) (f : ℤ)
    (hm : ps.findIdx? (kvKeyMatch cmd) = none) (hlen : i + ps.length ≤ 2 ^ 31) :
    (kvStoreScan cmd ps i f).1 =
      if f < 0 then ((ps.findIdx? fun p => !p.used).map fun j => ((i + j : ℕ) : ℤ)).getD f else f := by
  induction ps generalizing i f with
  | nil => simp [kvStoreScan]
  | cons p ps ih =>
    rw [List.findIdx?_cons] at hm
    rw [List.length_cons] at hlen
    by_cases hp : kvKeyMatch cmd p = true
    · simp [hp] at hm
    simp only [hp, if_false, Bool.false_eq_true, Option.map_eq_none_iff] at hm
    have hi : toCInt i = i := toCInt_of_lt (by omega)
    have hshift (j : ℕ) : i + 1 + j = i + (j + 1) := by omega
    rw [kvStoreScan, List.findIdx?_cons]
    simp only [hp, if_false, Bool.false_eq_true]
    rw [ih _ _ hm (by omega)]
    by_cases hf : f < 0
    · cases hu : p.used
      · simp [hf, hi]
      · simp only [hf, Bool.not_true, Bool.and_false, Bool.false_eq_true, if_false, if_true,
          Option.map_map, Function.comp_def, hshift]
    · simp [hf]

end Scan

section Store
variable {σ : Type} {ns : KvNs} {cmd : NvmeKVCmd} {dma : KvDma σ} {ctx : σ} {heap : Heap}

def KvNs.grown (ns : KvNs) : KvNs :=
  { ns with pairs := ns.pairs ++ List.replicate ns.entriesAllocated KvPair.zero }

/-- `kv_store` with its scan replaced by what the scan finds. -/
theorem kvStore_eq (hlen : ns.entriesAllocated ≤ 2 ^ 31) :
    kvStore ns cmd dma ctx heap =
      if 16 < cmd.kl then some (nvmeKvInvalidKeySize, ns, ctx)
      else if nvmeKvMaxValSize < cmd.hbs then some (nvmeKvInvalidValSize, ns, ctx)
      else match ns.slotOf cmd with
        | some i =>
          if cmd.dontStoreIfKeyExists then some (nvmeKvKeyExists, ns, ctx)
          else kvReceive ns i cmd dma ctx
        | none =>
          if cmd.dontStoreIfKeyNotExists then some (nvmeKvKeyNotExists, ns, ctx)
          else if ns.full then some (nvmeCapExceeded, ns, ctx)
          else match ns.hole with
            | some j => kvInsert ns j cmd dma ctx
            | none =>
              if heap .pairsGrown then kvInsert ns.grown (toCInt ns.entriesAllocated) cmd dma ctx
              else some (nvmeCapExceeded, ns, ctx) := by
  rw [kvStore]
  by_cases hk : 16 < cmd.kl
  · simp only [hk, if_true]
  by_cases hv : nvmeKvMaxValSize < cmd.hbs
  · simp only [hk, hv, if_true]
  simp only [hk, hv, if_false]
  have hmatch := kvStoreScan_match cmd ns.pairs 0 (-1)
  cases hs : kvStoreScan cmd ns.pairs 0 (-1) with
  | mk f m =>
    rw [hs] at hmatch
    simp only [Nat.zero_add, Option.map_id'] at hmatch
    cases m with
    | some i => simp only [KvNs.slotOf, ← hmatch]
    | none =>
      have hhole := kvStoreScan_hole cmd ns.pairs 0 (-1) hmatch.symm
        (by simpa [KvNs.entriesAllocated] using hlen)
      rw [hs] at hhole
      simp only [Nat.zero_add, show ((-1 : ℤ) < 0) by decide, if_true] at hhole
      simp only [KvNs.slotOf, ← hmatch]
      congr 2
      cases hj : ns.hole with
      | some j =>
        have hf : f = (j : ℤ) := by
          rw [KvNs.hole] at hj
          simpa [hj] using hhole
        simp only [kvGrow, hf, show ¬ ((j : ℤ) < 0) by omega, if_false]
      | none =>
        have hf : f = -1 := by
          rw [KvNs.hole] at hj
          simpa [hj] using hhole
        simp only [kvGrow, hf, show ((-1 : ℤ) < 0) by decide, if_true]
        cases heap .pairsGrown <;> rfl

end Store

end VfuKvssd
