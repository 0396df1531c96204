import VfuKvssd.KeyValue.KvMap
import VfuKvssd.Foundations.Records

/-! # What List returns

From the slot of the start key on, `kv_list` collects the keys of used slots as
long as their entries fit the host buffer. The Returned Data Structure is a
4-byte header with a 16-bit count, followed by one record for each key.
-/
namespace VfuKvssd
open Foundations

variable {σ : Type}

/-- `kds_wo_pad % 4`: the padding that `kv_list` adds to an entry. -/
def kdsPad (n : ℕ) : ℕ := n % 4

def kds (k : List Byte) : List Byte := record kdsPad k

def kdsSize (k : List Byte) : ℕ := recordSize kdsPad k.length

/-- The Returned Data Structure with the given keys. -/
def returnedData (keys : List (List Byte)) : List Byte :=
  leBytes 2 keys.length ++ [0, 0] ++ keys.flatMap kds

def usedKeys (ps : List KvPair) : List (List Byte) := (ps.filter (·.used)).map KvPair.keyBytes

def KvNs.usedFrom (ns : KvNs) (i : ℕ) : List (List Byte) := usedKeys (ns.pairs.drop i)

/-- Where a List of a key starts: at the slot that holds it, else at slot 0. -/
def KvNs.StartsAt (ns : KvNs) (key : List Byte) (i : ℕ) : Prop :=
  (∃ p, ns.pairs[i]? = some p ∧ p.used = true ∧ p.keyBytes = key) ∨
    ((∀ p ∈ ns.pairs, p.used = true → p.keyBytes ≠ key) ∧ i = 0)

/-- The keys that fit a host buffer, from slot `i` on. -/
def KvNs.listed (ns : KvNs) (i hbs : ℕ) : List (List Byte) :=
  fitting kdsSize (hbs - 4) (ns.usedFrom i)

@[simp] theorem kds_length (k : List Byte) : (kds k).length = kdsSize k := record_length

theorem kdsSize_pos (k : List Byte) : 0 < kdsSize k := by
  rw [kdsSize, recordSize]
  omega

theorem returnedData_length (keys : List (List Byte)) :
    (returnedData keys).length = 4 + (keys.map kdsSize).sum := by
  simp only [returnedData, List.length_append, leBytes_length, List.length_cons, List.length_nil,
    List.length_flatMap, kds_length]

/-! ## The loop -/

theorem leBytes_mod (n v : ℕ) : leBytes n (v % 256 ^ n) = leBytes n v := by
  induction n generalizing v with
  | zero => rfl
  | succ n ih =>
    have hlow : BitVec.ofNat 8 (v % 256 ^ (n + 1)) = BitVec.ofNat 8 v := by
      apply BitVec.eq_of_toNat_eq
      simp only [BitVec.toNat_ofNat]
      exact Nat.mod_mod_of_dvd v (Dvd.intro_left (256 ^ n) rfl)
    have hhigh : v % 256 ^ (n + 1) / 256 = v / 256 % 256 ^ n := by
      rw [pow_succ', Nat.mod_mul_right_div_self]
    rw [leBytes, leBytes, hlow, hhigh, ih]

/-- A list buffer after some keys: the count in front, the entries behind. -/
def rdsWith (v : ℕ) (rest : List Byte) : List Byte := leBytes 2 v ++ rest

theorem bumpNrk_rdsWith (v : ℕ) (rest : List Byte) :
    bumpNrk (rdsWith v rest) = rdsWith (v + 1) rest := by
  rw [bumpNrk, rdsWith, List.take_left' (leBytes_length _ _), List.drop_left' (leBytes_length _ _),
    leNat_leBytes, rdsWith]
  congr 1
  rw [← leBytes_mod 2 (v % 256 ^ 2 + 1), ← leBytes_mod 2 (v + 1), Nat.mod_add_mod]

theorem usedKeys_cons_used {p : KvPair} (ps : List KvPair) (hu : p.used = true) :
    usedKeys (p :: ps) = p.keyBytes :: usedKeys ps := by
  simp [usedKeys, hu]

theorem usedKeys_cons_unused {p : KvPair} (ps : List KvPair) (hu : p.used = false) :
    usedKeys (p :: ps) = usedKeys ps := by
  simp [usedKeys, hu]

theorem KvPair.keyBytes_length {p : KvPair} (h : p.kl ≤ 16) : p.keyBytes.length = p.kl := by
  simp only [keyBytes, List.length_take, Buffer.bytes_length]
  omega

/-- The loop appends the entries of the keys that fit and counts them. -/
theorem kvListFrom_eq {hbs : ℕ} {heap : Heap} {ps : List KvPair} {i v : ℕ} {rest out : List Byte}
    (hkl : ∀ p ∈ ps, p.used = true → p.kl ≤ 16)
    (h : kvListFrom hbs heap ps i (rdsWith v rest) = some out) :
    out = rdsWith (v + (fitting kdsSize (hbs - (2 + rest.length)) (usedKeys ps)).length)
      (rest ++ (fitting kdsSize (hbs - (2 + rest.length)) (usedKeys ps)).flatMap kds) := by
  induction ps generalizing i v rest with
  | nil =>
    rw [kvListFrom, Option.some.injEq] at h
    simp [usedKeys, fitting, ← h]
  | cons p ps ih =>
    rw [List.forall_mem_cons] at hkl
    simp only [kvListFrom] at h
    cases hu : p.used with
    | false =>
      simp only [hu, Bool.not_false, if_true] at h
      rw [usedKeys_cons_unused ps hu]
      exact ih hkl.2 h
    | true =>
      have hlen := p.keyBytes_length (hkl.1 hu)
      have hsize : kdsSize p.keyBytes = 2 + p.kl + (2 + p.kl) % 4 := by
        rw [kdsSize, recordSize, hlen, kdsPad]
      have hpos := kdsSize_pos p.keyBytes
      have hrds : (rdsWith v rest).length = 2 + rest.length := by simp [rdsWith]
      simp only [hu, Bool.not_true, Bool.false_eq_true, if_false, hrds, ← hsize] at h
      split_ifs at h with hg hfit
      · -- the entry does not fit: the loop stops here
        rw [usedKeys_cons_used ps hu, fitting, if_neg (by omega)]
        simp [← Option.some.inj h]
      · -- the entry fits: one more key, and the rest of the budget
        have hentry : leBytes 2 p.kl ++ p.key.bytes.take p.kl ++
            List.replicate (kdsSize p.keyBytes - (2 + p.kl)) 0 = kds p.keyBytes := by
          rw [kds, record, hlen, hsize, Nat.add_sub_cancel_left, kdsPad, KvPair.keyBytes]
        have hbuf : bumpNrk (rdsWith v rest ++ leBytes 2 p.kl ++ p.key.bytes.take p.kl ++
            List.replicate (kdsSize p.keyBytes - (2 + p.kl)) 0) =
            rdsWith (v + 1) (rest ++ kds p.keyBytes) := by
          rw [← hentry, ← bumpNrk_rdsWith]
          simp only [rdsWith, List.append_assoc]
        rw [hbuf] at h
        rw [ih hkl.2 h, usedKeys_cons_used ps hu, fitting, if_pos (by omega)]
        have hbudget : hbs - (2 + (rest ++ kds p.keyBytes).length) =
            hbs - (2 + rest.length) - kdsSize p.keyBytes := by
          rw [List.length_append, kds_length]
          omega
        rw [hbudget, List.length_cons, List.flatMap_cons, List.append_assoc]
        congr 1
        omega

/-- The loop gives up only when an allocation fails. -/
theorem kvListFrom_none {hbs : ℕ} {heap : Heap} {ps : List KvPair} {i : ℕ} {rds : List Byte}
    (h : kvListFrom hbs heap ps i rds = none) : ∃ s, heap s = false := by
  by_contra hc
  push Not at hc
  obtain ⟨out, ho⟩ := kvListFrom_isSome (fun i => by simpa using hc (.rdsGrown i)) hbs ps i rds
  rw [h] at ho
  cases ho

/-- With room for every entry the loop needs one `realloc` for each used slot, and goes through
exactly when all of them succeed. -/
theorem kvListFrom_isSome_iff {hbs : ℕ} {heap : Heap} {ps : List KvPair} {i : ℕ} {rds : List Byte}
    (hkl : ∀ p ∈ ps, p.used = true → p.kl ≤ 16) (hrds : 2 ≤ rds.length)
    (hfit : rds.length + ((usedKeys ps).map kdsSize).sum ≤ hbs) :
    (kvListFrom hbs heap ps i rds).isSome = true ↔
      ∀ j p, ps[j]? = some p → p.used = true → heap (.rdsGrown (i + j)) = true := by
  induction ps generalizing i rds with
  | nil => simp [kvListFrom]
  | cons p ps ih =>
    obtain ⟨hp, hps⟩ := List.forall_mem_cons.mp hkl
    have hcons : (∀ j q, (p :: ps)[j]? = some q → q.used = true →
        heap (.rdsGrown (i + j)) = true) ↔ (p.used = true → heap (.rdsGrown i) = true) ∧
          ∀ j q, ps[j]? = some q → q.used = true → heap (.rdsGrown (i + 1 + j)) = true := by
      constructor
      · refine fun h => ⟨h 0 p rfl, fun j q hq => ?_⟩
        rw [Nat.add_assoc, Nat.add_comm 1 j]
        exact h (j + 1) q hq
      · rintro ⟨hfirst, hrest⟩ j q hq
        cases j with
        | zero => exact Option.some.inj hq ▸ hfirst
        | succ j =>
          rw [Nat.add_comm j 1, ← Nat.add_assoc]
          exact hrest j q hq
    rw [hcons]
    simp only [kvListFrom]
    cases hu : p.used with
    | false =>
      simp only [Bool.not_false, if_true, Bool.false_eq_true, false_imp_iff, true_and]
      rw [usedKeys_cons_unused ps hu] at hfit
      exact ih hps hrds hfit
    | true =>
      have hlen := p.keyBytes_length (hp hu)
      have hsize : kdsSize p.keyBytes = 2 + p.kl + (2 + p.kl) % 4 := by
        rw [kdsSize, recordSize, hlen, kdsPad]
      rw [usedKeys_cons_used ps hu, List.map_cons, List.sum_cons] at hfit
      simp only [Bool.not_true, Bool.false_eq_true, if_false, true_imp_iff, ← hsize]
      cases heap (.rdsGrown i) with
      | false => simp
      | true =>
        rw [if_neg (by simp), if_neg (by omega), eq_self, true_and]
        have hentry : (rds ++ leBytes 2 p.kl ++ p.key.bytes.take p.kl ++
            List.replicate (kdsSize p.keyBytes - (2 + p.kl)) 0).length =
            rds.length + kdsSize p.keyBytes := by
          have htake : (p.key.bytes.take p.kl).length = p.kl := hlen
          simp only [List.length_append, leBytes_length, List.length_replicate, htake]
          omega
        refine ih hps ?_ ?_
        · rw [bumpNrk_length (by omega)]
          omega
        · rw [bumpNrk_length (by omega)]
          omega

/-! ## The handler -/

/-- Everything `kv_list` can do on a valid namespace. -/
inductive ListOutcome (ns : KvNs) (cmd : NvmeKVCmd) (dma : KvDma σ) (ctx : σ) (heap : Heap) :
    Status × σ → Prop
  | keySize (hk : 16 < cmd.kl) : ListOutcome ns cmd dma ctx heap (nvmeInvalidField, ctx)
  | noMemory (hk : cmd.kl ≤ 16) {s : AllocSite} (hs : heap s = false) :
      ListOutcome ns cmd dma ctx heap (nvmeCapExceeded, ctx)
  | sent (hk : cmd.kl ≤ 16) {i : ℕ} (hi : ns.StartsAt cmd.keyBytes i) {ok : Bool} {ctx' : σ}
      (ht : dma.c2h ctx cmd (returnedData (ns.listed i cmd.hbs)) = (ok, ctx')) :
      ListOutcome ns cmd dma ctx heap (transferStatus ok, ctx')

theorem KvNs.Valid.startsAt {ns : KvNs} (h : ns.Valid) {cmd : NvmeKVCmd} (hk : cmd.kl ≤ 16) :
    ns.StartsAt cmd.keyBytes ((ns.slotOf cmd).getD 0) := by
  cases hs : ns.slotOf cmd with
  | some i =>
    obtain ⟨p, hi, hm⟩ := KvNs.slotOf_some hs
    exact .inl ⟨p, hi, kvKeyMatch_used hm, h.keyBytes_of_match hk (List.mem_of_getElem? hi) hm⟩
  | none =>
    refine .inr ⟨fun p hp hu he => ?_, rfl⟩
    have hn := List.findIdx?_eq_none_iff.mp hs p hp
    rw [Bool.eq_false_iff, ne_eq, kvKeyMatch_iff hk (h.kl_le p hp hu)] at hn
    exact hn ⟨hu, he⟩

theorem kvListFrom_returned {ns : KvNs} (h : ns.Valid) {hbs i : ℕ} {heap : Heap} {out : List Byte}
    (hl : kvListFrom hbs heap (ns.pairs.drop i) i [0, 0, 0, 0] = some out) :
    out = returnedData (ns.listed i hbs) := by
  have hrds : ([0, 0, 0, 0] : List Byte) = rdsWith 0 [0, 0] := rfl
  rw [hrds] at hl
  rw [kvListFrom_eq (fun p hp => h.kl_le p (List.mem_of_mem_drop hp)) hl, Nat.zero_add, rdsWith,
    returnedData, List.append_assoc]
  rfl

theorem kvList_outcome {ns : KvNs} (h : ns.Valid) (cmd : NvmeKVCmd) (dma : KvDma σ) (ctx : σ)
    (heap : Heap) : ListOutcome ns cmd dma ctx heap (kvList ns cmd dma ctx heap) := by
  rw [kvList]
  split
  · exact .keySize ‹_›
  rename_i hk
  split
  · rename_i hrds
    exact .noMemory (not_lt.mp hk) (by simpa using hrds)
  dsimp only
  split
  · rename_i hnone
    obtain ⟨s, hs⟩ := kvListFrom_none hnone
    exact .noMemory (not_lt.mp hk) hs
  · rename_i rds hr
    obtain rfl := kvListFrom_returned h hr
    exact .sent (not_lt.mp hk) (h.startsAt (not_lt.mp hk)) rfl

/-- With room for every entry from the start slot on, `kv_list` succeeds exactly when its
allocations do and its data is transferred. -/
theorem kvList_success_iff {ns : KvNs} (h : ns.Valid) {cmd : NvmeKVCmd} {dma : KvDma σ} {ctx : σ}
    {heap : Heap} (hk : cmd.kl ≤ 16) {i : ℕ} (hi : (ns.slotOf cmd).getD 0 = i)
    (hfit : 4 + ((ns.usedFrom i).map kdsSize).sum ≤ cmd.hbs) :
    (kvList ns cmd dma ctx heap).1 = nvmeSuccess ↔ heap .rds = true ∧
      (∀ j p, i ≤ j → ns.pairs[j]? = some p → p.used = true → heap (.rdsGrown j) = true) ∧
      (dma.c2h ctx cmd (returnedData (ns.usedFrom i))).1 = true := by
  have hloop : (kvListFrom cmd.hbs heap (ns.pairs.drop i) i [0, 0, 0, 0]).isSome = true ↔ _ :=
    kvListFrom_isSome_iff (fun p hp => h.kl_le p (List.mem_of_mem_drop hp)) (by decide) hfit
  have hslots : (∀ j p, (ns.pairs.drop i)[j]? = some p → p.used = true →
      heap (.rdsGrown (i + j)) = true) ↔
      ∀ j p, i ≤ j → ns.pairs[j]? = some p → p.used = true → heap (.rdsGrown j) = true := by
    constructor
    · intro hall j p hle hp hu
      have hj := hall (j - i) p (by rw [List.getElem?_drop, Nat.add_sub_cancel' hle, hp]) hu
      rwa [Nat.add_sub_cancel' hle] at hj
    · exact fun hall j p hp hu =>
        hall (i + j) p (Nat.le_add_right i j) (by rw [← List.getElem?_drop, hp]) hu
  rw [← hslots, ← hloop, kvList, if_neg (not_lt.mpr hk)]
  have hcap : nvmeCapExceeded ≠ nvmeSuccess := by decide
  have hfield : nvmeInvalidField ≠ nvmeSuccess := by decide
  cases heap .rds with
  | false => simp [hcap]
  | true =>
    rw [if_neg (by simp), eq_self, true_and]
    dsimp only
    rw [← KvNs.slotOf, hi]
    cases hl : kvListFrom cmd.hbs heap (ns.pairs.drop i) i [0, 0, 0, 0] with
    | none => simp [hcap]
    | some out =>
      have hlisted : ns.listed i cmd.hbs = ns.usedFrom i := fitting_eq_self (by omega)
      rw [kvListFrom_returned h hl, hlisted]
      rcases hc : dma.c2h ctx cmd (returnedData (ns.usedFrom i)) with ⟨ok, ctx'⟩
      simp only [hc, Option.isSome_some, true_and]
      cases ok <;> simp [hfield]

end VfuKvssd
