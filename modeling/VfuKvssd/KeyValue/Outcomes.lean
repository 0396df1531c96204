import VfuKvssd.KeyValue.Invariant

/-! # Outcomes of the handlers on a valid namespace

`StoreOutcome` lists everything `kv_store` can do, guards included. From it the
invariant follows for every handler and, by induction, for every sequence of
handler calls.
-/
namespace VfuKvssd
open Foundations

variable {σ : Type}

/-- Where a new key goes: the lowest free slot, or the first slot of the grown
array. `none` is a failed `realloc`. -/
def KvNs.room (ns : KvNs) (heap : Heap) : Option (KvNs × ℕ) :=
  match ns.hole with
  | some j => some (ns, j)
  | none => if heap .pairsGrown then some (ns.grown, ns.entriesAllocated) else none

/-- A slot that is found belongs to the array as it is, or to the grown one. -/
theorem KvNs.room_cases {ns base : KvNs} {heap : Heap} {j : ℕ}
    (hr : ns.room heap = some (base, j)) :
    ns.hole = some j ∧ base = ns ∨
      ns.hole = none ∧ heap .pairsGrown = true ∧ base = ns.grown ∧ j = ns.entriesAllocated := by
  rw [room] at hr
  split at hr
  · rename_i k hh
    obtain ⟨rfl, rfl⟩ := Prod.mk.inj (Option.some.inj hr)
    exact .inl ⟨hh, rfl⟩
  · rename_i hh
    split at hr
    · rename_i hg
      obtain ⟨rfl, rfl⟩ := Prod.mk.inj (Option.some.inj hr)
      exact .inr ⟨hh, hg, rfl, rfl⟩
    · cases hr

def transferStatus (ok : Bool) : Status := if ok then nvmeSuccess else nvmeInvalidField

/-- A Store that gets past the length checks. -/
def NvmeKVCmd.storable (cmd : NvmeKVCmd) : Prop := cmd.kl ≤ 16 ∧ cmd.hbs ≤ nvmeKvMaxValSize

theorem NvmeKVCmd.storable.take_length {cmd : NvmeKVCmd} (hc : cmd.storable) (b : Buffer 4096) :
    (b.bytes.take cmd.hbs).length = cmd.hbs := by
  have hv : cmd.hbs ≤ 4096 := hc.2
  rw [List.length_take, Buffer.bytes_length, Nat.min_eq_left hv]

/-- A Store that passes every check and needs a slot for a new key. -/
structure InsertsKey (ns : KvNs) (cmd : NvmeKVCmd) : Prop where
  storable : cmd.storable
  absent : ns.slotOf cmd = none
  allowed : cmd.dontStoreIfKeyNotExists = false
  notFull : ns.full = false

/-- Everything `kv_store` can do. -/
inductive StoreOutcome (ns : KvNs) (cmd : NvmeKVCmd) (dma : KvDma σ) (ctx : σ) (heap : Heap) :
    Option (Status × KvNs × σ) → Prop
  | keySize (hk : 16 < cmd.kl) :
      StoreOutcome ns cmd dma ctx heap (some (nvmeKvInvalidKeySize, ns, ctx))
  | valSize (hk : cmd.kl ≤ 16) (hv : nvmeKvMaxValSize < cmd.hbs) :
      StoreOutcome ns cmd dma ctx heap (some (nvmeKvInvalidValSize, ns, ctx))
  | keyExists (hc : cmd.storable) {i : ℕ} (hs : ns.slotOf cmd = some i)
      (ho : cmd.dontStoreIfKeyExists = true) :
      StoreOutcome ns cmd dma ctx heap (some (nvmeKvKeyExists, ns, ctx))
  | overwrite (hc : cmd.storable) {i : ℕ} {p : KvPair} (hs : ns.slotOf cmd = some i)
      (hi : ns.pairs[i]? = some p) (hm : kvKeyMatch cmd p = true)
      (ho : cmd.dontStoreIfKeyExists = false) {ok : Bool} {dst : List Byte} {ctx' : σ}
      (ht : dma.h2c ctx cmd (p.val.bytes.take cmd.hbs) = (ok, dst, ctx')) :
      StoreOutcome ns cmd dma ctx heap (some (transferStatus ok, ns.overwrite i p dst, ctx'))
  | keyNotExists (hc : cmd.storable) (hs : ns.slotOf cmd = none)
      (ho : cmd.dontStoreIfKeyNotExists = true) :
      StoreOutcome ns cmd dma ctx heap (some (nvmeKvKeyNotExists, ns, ctx))
  | full (hc : cmd.storable) (hs : ns.slotOf cmd = none)
      (ho : cmd.dontStoreIfKeyNotExists = false) (hf : ns.full = true) :
      StoreOutcome ns cmd dma ctx heap (some (nvmeCapExceeded, ns, ctx))
  | noMemory (hn : InsertsKey ns cmd) (hr : ns.room heap = none) :
      StoreOutcome ns cmd dma ctx heap (some (nvmeCapExceeded, ns, ctx))
  | insert (hn : InsertsKey ns cmd) {base : KvNs} {j : ℕ} (hr : ns.room heap = some (base, j))
      (hb : base.Valid) (hj : base.pairs[j]? = some KvPair.zero) {ok : Bool} {dst : List Byte}
      {ctx' : σ} (ht : dma.h2c ctx cmd (KvPair.zero.val.bytes.take cmd.hbs) = (ok, dst, ctx')) :
      StoreOutcome ns cmd dma ctx heap (some (transferStatus ok, base.occupy j cmd dst, ctx'))
  | outOfRange (hn : InsertsKey ns cmd) (hr : ns.hole = none) (hg : heap .pairsGrown = true)
      (hint : ns.entriesAllocated = 2 ^ 31) : StoreOutcome ns cmd dma ctx heap none

section Insert
variable {ns base : KvNs} {cmd : NvmeKVCmd} {dma : KvDma σ} {ctx : σ} {heap : Heap} {j : ℕ}

theorem kvInsert_zero (hj : base.pairs[j]? = some KvPair.zero) {ok : Bool} {dst : List Byte}
    {ctx' : σ} (ht : dma.h2c ctx cmd (KvPair.zero.val.bytes.take cmd.hbs) = (ok, dst, ctx')) :
    kvInsert base j cmd dma ctx = some (transferStatus ok, base.occupy j cmd dst, ctx') := by
  have hlt : j < base.pairs.length := (List.getElem?_eq_some_iff.mp hj).1
  have hget : (base.pairs.set j (kvKeyStore KvPair.zero cmd))[j]? =
      some (kvKeyStore KvPair.zero cmd) := List.getElem?_set_self hlt
  have hval : (kvKeyStore KvPair.zero cmd).val = KvPair.zero.val := rfl
  rw [kvInsert, if_neg (by omega), Int.toNat_natCast, hj]
  simp only [kvReceive, KvNs.setNuse, hget, hval, ht]
  simp only [KvNs.occupy, KvNs.setNuse, List.set_set, transferStatus]

theorem KvNs.Valid.room (h : ns.Valid) (hroom : ns.numUsed < ns.maxNumKeys.toNat)
    (hr : ns.room heap = some (base, j)) (hint : ns.hole = none → ns.entriesAllocated < 2 ^ 31) :
    base.Valid ∧ base.pairs[j]? = some KvPair.zero := by
  obtain ⟨hh, rfl⟩ | ⟨hh, -, rfl, rfl⟩ := KvNs.room_cases hr
  · obtain ⟨p, hp, hu⟩ := KvNs.hole_some hh
    exact ⟨h, by rw [hp, h.unused_zero p (List.mem_of_getElem? hp) hu]⟩
  · refine ⟨h.grown hh hroom (hint hh), ?_⟩
    have hpos := h.entriesAllocated_pos
    have hlen : ns.pairs.length = ns.entriesAllocated := rfl
    simp only [KvNs.grown, ← hlen]
    rw [List.getElem?_append_right le_rfl, Nat.sub_self, hlen]
    simp [hpos]

end Insert

theorem toCInt_two_pow : toCInt (2 ^ 31) = -2 ^ 31 := by decide

/-- The list of outcomes is complete. -/
theorem kvStore_outcome {ns : KvNs} (h : ns.Valid) (cmd : NvmeKVCmd) (dma : KvDma σ) (ctx : σ)
    (heap : Heap) : StoreOutcome ns cmd dma ctx heap (kvStore ns cmd dma ctx heap) := by
  rw [kvStore_eq h.allocated_int]
  by_cases hk : 16 < cmd.kl
  · simp only [hk, if_true]
    exact .keySize hk
  by_cases hv : nvmeKvMaxValSize < cmd.hbs
  · simp only [hk, hv, if_true, if_false]
    exact .valSize (by omega) hv
  have hc : cmd.storable := ⟨by omega, by omega⟩
  simp only [hk, hv, if_false]
  cases hs : ns.slotOf cmd with
  | some i =>
    cases ho : cmd.dontStoreIfKeyExists
    · obtain ⟨p, hi, hm⟩ := KvNs.slotOf_some hs
      rcases ht : dma.h2c ctx cmd (p.val.bytes.take cmd.hbs) with ⟨ok, dst, ctx'⟩
      simp only [kvReceive, hi, ht, Bool.false_eq_true, if_false]
      exact .overwrite hc hs hi hm ho ht
    · simp only [if_true]
      exact .keyExists hc hs ho
  | none =>
    cases ho : cmd.dontStoreIfKeyNotExists
    swap
    · simp only [if_true]
      exact .keyNotExists hc hs ho
    cases hf : ns.full
    swap
    · simp only [if_true, Bool.false_eq_true, if_false]
      exact .full hc hs ho hf
    simp only [Bool.false_eq_true, if_false]
    have hn : InsertsKey ns cmd := ⟨hc, hs, ho, hf⟩
    have hroom : ns.numUsed < ns.maxNumKeys.toNat := by
      by_contra hle
      rw [h.full_iff.mpr (not_lt.mp hle)] at hf
      cases hf
    rcases ht : dma.h2c ctx cmd (KvPair.zero.val.bytes.take cmd.hbs) with ⟨ok, dst, ctx'⟩
    cases hh : ns.hole with
    | some j =>
      have hr : ns.room heap = some (ns, j) := by simp only [KvNs.room, hh]
      obtain ⟨hb, hj⟩ := h.room hroom hr (by simp [hh])
      simp only [kvInsert_zero hj ht]
      exact .insert hn hr hb hj ht
    | none =>
      cases hg : heap .pairsGrown
      · simp only [Bool.false_eq_true, if_false]
        exact .noMemory hn (by simp [KvNs.room, hh, hg])
      simp only [if_true]
      have hr : ns.room heap = some (ns.grown, ns.entriesAllocated) := by
        simp only [KvNs.room, hh, hg, if_true]
      by_cases hint : ns.entriesAllocated < 2 ^ 31
      · obtain ⟨hb, hj⟩ := h.room hroom hr fun _ => hint
        rw [toCInt_of_lt hint, kvInsert_zero hj ht]
        exact .insert hn hr hb hj ht
      · have he : ns.entriesAllocated = 2 ^ 31 := le_antisymm h.allocated_int (not_lt.mp hint)
        rw [he, toCInt_two_pow, kvInsert, if_pos (by decide)]
        exact .outOfRange hn hh hg he

/-- Everything `kv_delete` can do. -/
inductive DeleteOutcome (ns : KvNs) (cmd : NvmeKVCmd) : Status × KvNs → Prop
  | keySize (hk : 16 < cmd.kl) : DeleteOutcome ns cmd (nvmeInvalidField, ns)
  | present (hk : cmd.kl ≤ 16) {i : ℕ} {p : KvPair} (hs : ns.slotOf cmd = some i)
      (hi : ns.pairs[i]? = some p) (hm : kvKeyMatch cmd p = true) :
      DeleteOutcome ns cmd (nvmeSuccess, ns.clear i)
  | absent (hk : cmd.kl ≤ 16) (hs : ns.slotOf cmd = none) :
      DeleteOutcome ns cmd
        (if ns.ednek &&& 0x01 != 0 then nvmeKvKeyNotExists else nvmeSuccess, ns)

theorem kvDelete_outcome (ns : KvNs) (cmd : NvmeKVCmd) : DeleteOutcome ns cmd (kvDelete ns cmd) := by
  rw [kvDelete]
  by_cases hk : 16 < cmd.kl
  · simp only [hk, if_true]
    exact .keySize hk
  simp only [hk, if_false]
  cases hs : ns.slotOf cmd with
  | some i =>
    obtain ⟨p, hi, hm⟩ := KvNs.slotOf_some hs
    rw [KvNs.slotOf] at hs
    simp only [hs]
    exact .present (by omega) hs hi hm
  | none =>
    have he := DeleteOutcome.absent (by omega) hs
    rw [KvNs.slotOf] at hs
    simp only [hs]
    split_ifs at he ⊢ <;> exact he

/-! ## Every handler keeps the invariant -/

theorem KvNs.Valid.insert {ns base : KvNs} {cmd : NvmeKVCmd} {heap : Heap} {j : ℕ} {dst : List Byte}
    (h : ns.Valid) (hn : InsertsKey ns cmd) (hr : ns.room heap = some (base, j)) (hb : base.Valid)
    (hj : base.pairs[j]? = some KvPair.zero) :
    (base.occupy j cmd dst).Valid := by
  have hroom : ns.numUsed < ns.maxNumKeys.toNat := by
    have hf := hn.notFull
    rw [Bool.eq_false_iff, ne_eq, h.full_iff] at hf
    omega
  have hkey := h.not_mem_keys hn.storable.1 hn.absent
  obtain ⟨-, rfl⟩ | ⟨-, -, rfl, rfl⟩ := KvNs.room_cases hr
  · exact hb.occupy hn.storable.1 hj rfl hkey hroom
  · refine hb.occupy hn.storable.1 hj rfl ?_ (by rw [KvNs.numUsed_grown]; exact hroom)
    rw [KvNs.table_grown, SlotTable.keys_append, SlotTable.keys_replicate_none, List.append_nil]
    exact hkey

/-- Everything but the slots and the usage accounted for them. -/
def KvNs.settings (ns : KvNs) : KvNs := { ns.setNuse 0 with pairs := [] }

theorem KvNs.settings_room {ns base : KvNs} {heap : Heap} {j : ℕ}
    (hr : ns.room heap = some (base, j)) : base.settings = ns.settings := by
  obtain ⟨-, rfl⟩ | ⟨-, -, rfl, -⟩ := room_cases hr
  · rfl
  · rfl

theorem KvNs.numUsed_room {ns base : KvNs} {heap : Heap} {j : ℕ}
    (hr : ns.room heap = some (base, j)) : base.numUsed = ns.numUsed := by
  obtain ⟨-, rfl⟩ | ⟨-, -, rfl, -⟩ := room_cases hr
  · rfl
  · exact KvNs.numUsed_grown

theorem kvHandle_settings {ns ns' : KvNs} (h : ns.Valid) {op : KvOp} {cmd : NvmeKVCmd}
    {dma : KvDma σ} {ctx ctx' : σ} {heap : Heap} {st : Status}
    (hh : kvHandle op ns cmd dma ctx heap = some (st, ns', ctx')) :
    ns'.Valid ∧ ns'.settings = ns.settings := by
  cases op with
  | store =>
    have ho := kvStore_outcome h cmd dma ctx heap
    rw [show kvStore ns cmd dma ctx heap = some (st, ns', ctx') from hh] at ho
    cases ho with
    | overwrite hc hs hi hm => exact ⟨h.overwrite hi (kvKeyMatch_used hm), rfl⟩
    | @insert hn base j hr hb hj ok dst ctx' ht =>
      have hset : (base.occupy j cmd dst).settings = base.settings := by
        simp only [KvNs.settings, KvNs.occupy, KvNs.setNuse]
      exact ⟨h.insert hn hr hb hj, hset.trans (KvNs.settings_room hr)⟩
    | _ => exact ⟨h, rfl⟩
  | delete =>
    have ho := kvDelete_outcome ns cmd
    simp only [kvHandle, Option.some.injEq, Prod.mk.injEq] at hh
    obtain ⟨-, rfl, -⟩ := hh
    generalize kvDelete ns cmd = r at ho
    cases ho with
    | present hk hs hi hm => exact ⟨h.clear hi (kvKeyMatch_used hm), rfl⟩
    | _ => exact ⟨h, rfl⟩
  | retrieve | exist | list =>
    simp only [kvHandle, Option.some.injEq, Prod.mk.injEq] at hh
    obtain ⟨-, rfl, -⟩ := hh
    exact ⟨h, rfl⟩

theorem kvHandle_valid {ns ns' : KvNs} (h : ns.Valid) {op : KvOp} {cmd : NvmeKVCmd} {dma : KvDma σ}
    {ctx ctx' : σ} {heap : Heap} {st : Status}
    (hh : kvHandle op ns cmd dma ctx heap = some (st, ns', ctx')) :
    ns'.Valid ∧ ns'.maxNumKeys = ns.maxNumKeys ∧ ns'.ednek = ns.ednek := by
  obtain ⟨hv, hs⟩ := kvHandle_settings h hh
  exact ⟨hv, (congrArg KvNs.maxNumKeys hs :), (congrArg KvNs.ednek hs :)⟩

/-! ## Statuses and transfers of a handler call -/

/-- The statuses a handler can end with. -/
def kvStatuses : List Status :=
  [nvmeSuccess, nvmeInvalidField, nvmeCapExceeded, nvmeKvInvalidValSize, nvmeKvInvalidKeySize,
    nvmeKvKeyNotExists, nvmeKvKeyExists]

/-- What a handler call does outside the namespace: nothing, one transfer in by a Store, or one
transfer out by a Retrieve or a List. -/
inductive KvContext (op : KvOp) (cmd : NvmeKVCmd) (dma : KvDma σ) (ctx : σ) : σ → Prop
  | same : KvContext op cmd dma ctx ctx
  | received (ho : op = .store) {dst : List Byte} (hl : dst.length ≤ cmd.hbs) :
      KvContext op cmd dma ctx (dma.h2c ctx cmd dst).2.2
  | retrieved (ho : op = .retrieve) {src : List Byte}
      (hl : src.length = min cmd.hbs nvmeKvMaxValSize) :
      KvContext op cmd dma ctx (dma.c2h ctx cmd src).2
  | listed (ho : op = .list) {src : List Byte} (hl : src.length ≤ max cmd.hbs 4) :
      KvContext op cmd dma ctx (dma.c2h ctx cmd src).2

@[simp] theorem bumpNrk_length {rds : List Byte} (h : 2 ≤ rds.length) :
    (bumpNrk rds).length = rds.length := by
  simp only [bumpNrk, List.length_append, leBytes_length, List.length_drop]
  omega

theorem kvListFrom_length {hbs : ℕ} {heap : Heap} {ps : List KvPair} {i : ℕ}
    {rds out : List Byte} (h : kvListFrom hbs heap ps i rds = some out) (h2 : 2 ≤ rds.length) :
    out.length ≤ max hbs rds.length := by
  induction ps generalizing i rds with
  | nil =>
    rw [kvListFrom, Option.some.injEq] at h
    rw [h]
    exact le_max_right _ _
  | cons p ps ih =>
    simp only [kvListFrom] at h
    split_ifs at h with hu hg hfit
    · exact ih h h2
    · rw [Option.some.injEq] at h
      rw [h]
      exact le_max_right _ _
    · have hkl : (p.key.bytes.take p.kl).length ≤ p.kl := by simp
      have hlen := ih h (by rw [bumpNrk_length] <;> simp <;> omega)
      rw [bumpNrk_length (by simp; omega)] at hlen
      simp only [List.length_append, leBytes_length, List.length_replicate] at hlen
      omega

section Context
variable {ns ns' : KvNs} {op : KvOp} {cmd : NvmeKVCmd} {dma : KvDma σ} {ctx ctx' : σ} {heap : Heap}
  {st : Status}

theorem transferStatus_mem (ok : Bool) :
    (if ok then nvmeSuccess else nvmeInvalidField) ∈ kvStatuses := by
  cases ok <;> simp [kvStatuses]

theorem kvReceive_context {i : ℕ} (h : kvReceive ns i cmd dma ctx = some (st, ns', ctx')) :
    st ∈ kvStatuses ∧ KvContext .store cmd dma ctx ctx' := by
  rw [kvReceive] at h
  split at h
  · cases h
  · rename_i p _
    rw [Option.some.injEq, Prod.mk.injEq, Prod.mk.injEq] at h
    obtain ⟨rfl, -, rfl⟩ := h
    exact ⟨transferStatus_mem _, .received rfl (by simp)⟩

theorem kvInsert_context {slot : ℤ} (h : kvInsert ns slot cmd dma ctx = some (st, ns', ctx')) :
    st ∈ kvStatuses ∧ KvContext .store cmd dma ctx ctx' := by
  rw [kvInsert] at h
  split at h
  · cases h
  split at h
  · cases h
  · exact kvReceive_context h

theorem kvStore_context (h : kvStore ns cmd dma ctx heap = some (st, ns', ctx')) :
    st ∈ kvStatuses ∧ KvContext .store cmd dma ctx ctx' := by
  have hret {s : Status} (hs : s ∈ kvStatuses) (he : some (s, ns, ctx) = some (st, ns', ctx')) :
      st ∈ kvStatuses ∧ KvContext .store cmd dma ctx ctx' := by
    rw [Option.some.injEq, Prod.mk.injEq, Prod.mk.injEq] at he
    obtain ⟨rfl, -, rfl⟩ := he
    exact ⟨hs, .same⟩
  rw [kvStore] at h
  split at h
  · exact hret (by simp [kvStatuses]) h
  split at h
  · exact hret (by simp [kvStatuses]) h
  split at h
  · split at h
    · exact hret (by simp [kvStatuses]) h
    · exact kvReceive_context h
  · split at h
    · exact hret (by simp [kvStatuses]) h
    split at h
    · exact hret (by simp [kvStatuses]) h
    split at h
    · exact hret (by simp [kvStatuses]) h
    · exact kvInsert_context h

theorem kvRetrieve_context :
    (kvRetrieve ns cmd dma ctx).1 ∈ kvStatuses ∧
      KvContext .retrieve cmd dma ctx (kvRetrieve ns cmd dma ctx).2 := by
  rw [kvRetrieve]
  split
  · exact ⟨by simp [kvStatuses], .same⟩
  split
  · refine ⟨transferStatus_mem _, .retrieved rfl ?_⟩
    simp [nvmeKvMaxValSize]
  · exact ⟨by simp [kvStatuses], .same⟩

theorem kvList_context :
    (kvList ns cmd dma ctx heap).1 ∈ kvStatuses ∧
      KvContext .list cmd dma ctx (kvList ns cmd dma ctx heap).2 := by
  rw [kvList]
  split
  · exact ⟨by simp [kvStatuses], .same⟩
  split
  · exact ⟨by simp [kvStatuses], .same⟩
  dsimp only
  split
  · exact ⟨by simp [kvStatuses], .same⟩
  · rename_i rds hr
    have hl := kvListFrom_length hr (by simp)
    simp only [List.length_cons, List.length_nil, Nat.zero_add, Nat.reduceAdd] at hl
    exact ⟨transferStatus_mem _, .listed rfl hl⟩

theorem kvHandle_context (h : kvHandle op ns cmd dma ctx heap = some (st, ns', ctx')) :
    st ∈ kvStatuses ∧ KvContext op cmd dma ctx ctx' := by
  cases op with
  | store => exact kvStore_context h
  | retrieve =>
    simp only [kvHandle, Option.some.injEq, Prod.mk.injEq] at h
    obtain ⟨rfl, -, rfl⟩ := h
    exact kvRetrieve_context
  | list =>
    simp only [kvHandle, Option.some.injEq, Prod.mk.injEq] at h
    obtain ⟨rfl, -, rfl⟩ := h
    exact kvList_context
  | delete =>
    simp only [kvHandle, Option.some.injEq, Prod.mk.injEq] at h
    obtain ⟨rfl, -, rfl⟩ := h
    refine ⟨?_, .same⟩
    have ho := kvDelete_outcome ns cmd
    generalize kvDelete ns cmd = r at ho
    cases ho with
    | keySize | present => simp [kvStatuses]
    | absent =>
      dsimp only
      split_ifs <;> simp [kvStatuses]
  | exist =>
    simp only [kvHandle, Option.some.injEq, Prod.mk.injEq] at h
    obtain ⟨rfl, -, rfl⟩ := h
    refine ⟨?_, .same⟩
    rw [kvExist]
    split_ifs <;> simp [kvStatuses]

end Context

/-! ## Sequences of handler calls -/

/-- One call, with its own transfer results and allocation results. -/
structure KvCall where
  op : KvOp
  cmd : NvmeKVCmd
  dma : KvDma Unit
  heap : Heap

def kvCall (ns : KvNs) (c : KvCall) : Option KvNs :=
  (kvHandle c.op ns c.cmd c.dma () c.heap).map fun r => r.2.1

theorem kvCalls_valid {heap : Heap} {maxNumKeys : BitVec 32} {ns₀ ns : KvNs}
    (h₀ : kvNsInit heap maxNumKeys = some ns₀) (hr : Reaches kvCall (fun _ _ => True) ns₀ ns) :
    ns.Valid ∧ ns.maxNumKeys = maxNumKeys := by
  apply hr.invariant (I := fun ns => ns.Valid ∧ ns.maxNumKeys = maxNumKeys) _
    ⟨kvNsInit_valid h₀, kvNsInit_maxNumKeys h₀⟩
  rintro s c t ⟨hv, hm⟩ - hs
  obtain ⟨⟨st, ns', u⟩, hh, rfl⟩ := Option.map_eq_some_iff.mp hs
  obtain ⟨hv', hm', -⟩ := kvHandle_valid hv hh
  exact ⟨hv', hm'.trans hm⟩

/-- Unless the slot array grows past the range of `int`, every handler has a defined outcome. -/
theorem kvHandle_isSome {ns : KvNs} (h : ns.Valid) {heap : Heap}
    (hint : heap .pairsGrown = true → ns.entriesAllocated < 2 ^ 31) (op : KvOp)
    (cmd : NvmeKVCmd) (dma : KvDma σ) (ctx : σ) :
    (kvHandle op ns cmd dma ctx heap).isSome = true := by
  cases op with
  | store =>
    have ho := kvStore_outcome h cmd dma ctx heap
    change (kvStore ns cmd dma ctx heap).isSome = true
    generalize kvStore ns cmd dma ctx heap = r at ho
    cases ho with
    | outOfRange hn hr hg he => exact absurd he (hint hg).ne
    | _ => rfl
  | retrieve | delete | exist | list => rfl

theorem KvNs.Valid.slot_unique {ns : KvNs} (h : ns.Valid) {i j : ℕ} {p q : KvPair}
    (hi : ns.pairs[i]? = some p) (hj : ns.pairs[j]? = some q) (hp : p.used = true)
    (hq : q.used = true) (hkey : p.keyBytes = q.keyBytes) : i = j := by
  have hti := getElem?_table_used hi hp
  have htj := getElem?_table_used hj hq
  by_contra hne
  have hpair : ns.table.Pairwise fun a b => ∀ k ∈ a.map Prod.fst, ∀ l ∈ b.map Prod.fst, k ≠ l := by
    have hu := h.unique
    rw [SlotTable.Unique, SlotTable.keys, List.Nodup, List.pairwise_filterMap] at hu
    exact hu
  obtain ⟨hil, hie⟩ := List.getElem?_eq_some_iff.mp hti
  obtain ⟨hjl, hje⟩ := List.getElem?_eq_some_iff.mp htj
  rw [List.pairwise_iff_getElem] at hpair
  rcases Nat.lt_or_gt_of_ne hne with hlt | hlt
  · exact hpair i j hil hjl hlt p.keyBytes (by simp [hie]) q.keyBytes (by simp [hje]) hkey
  · exact hpair j i hjl hil hlt q.keyBytes (by simp [hje]) p.keyBytes (by simp [hie]) hkey.symm

/-- The representation invariant, spelled out, after any sequence of handler calls with any
commands, transfer results and allocation failures. A call that would leave the range of `int`
has no outcome; below 2^31 slots every call has one. -/
theorem kvCalls_representation {heap : Heap} {maxNumKeys : BitVec 32} {ns₀ ns : KvNs}
    (h₀ : kvNsInit heap maxNumKeys = some ns₀) (hr : Reaches kvCall (fun _ _ => True) ns₀ ns) :
    (∀ (i j : ℕ) (p q : KvPair), ns.pairs[i]? = some p → ns.pairs[j]? = some q →
      p.used = true → q.used = true → p.kl = q.kl →
      p.key.bytes.take p.kl = q.key.bytes.take p.kl → i = j) ∧
    (∀ p ∈ ns.pairs, p.used = true → p.kl ≤ 16) ∧
    (∀ p ∈ ns.pairs, p.used = false → p = KvPair.zero) ∧
    ns.idNsKv.nuse.toNat = 4112 * ns.numUsed ∧
    (∀ cmd i, ns.slotOf cmd = some i → 4112 ≤ ns.idNsKv.nuse.toNat) ∧
    (ns.idNsKv.nuse / BitVec.ofNat 64 kvSlotSize).toNat = ns.numUsed ∧
    ns.numUsed ≤ maxNumKeys.toNat ∧
    ns.idNsKv.nuse ≤ ns.idNsKv.nsze ∧
    (∃ j, ns.entriesAllocated = 16 * 2 ^ j) ∧
    ns.entriesAllocated ≤ max 16 (2 * maxNumKeys.toNat) ∧
    (ns.entriesAllocated < 2 ^ 31 → ∀ c, (kvCall ns c).isSome = true) := by
  obtain ⟨h, hmax⟩ := kvCalls_valid h₀ hr
  have hused : ns.numUsed ≤ maxNumKeys.toNat := hmax ▸ h.used_le
  refine ⟨?_, h.kl_le, h.unused_zero, h.nuse_eq, ?_, h.nuse_div, hused, ?_, h.allocated_eq,
    hmax ▸ h.allocated_le, fun hint c => ?_⟩
  · intro i j p q hi hj hp hq hkl hkey
    exact h.slot_unique hi hj hp hq (by rw [KvPair.keyBytes, KvPair.keyBytes, ← hkl, hkey])
  · intro cmd i hs
    obtain ⟨p, hi, hm⟩ := KvNs.slotOf_some hs
    exact h.slotSize_le_nuse hi (kvKeyMatch_used hm)
  · rw [BitVec.le_def, h.nuse_eq, h.nsze_eq]
    exact Nat.mul_le_mul_left _ h.used_le
  · rw [kvCall, Option.isSome_map]
    exact kvHandle_isSome h (fun _ => hint) c.op c.cmd c.dma ()

/-- A Store of a one-byte key whose transfer fails. -/
def failedStoreCall : KvCall where
  op := .store
  cmd := ⟨fun i => if i.val = 0 ∨ i.val = 44 then 1 else 0⟩
  dma := ⟨fun _ _ dst => (false, dst, ()), fun _ _ _ => (true, ())⟩
  heap := fun _ => true

theorem kvCalls_representation_failedStore :
    ∃ ns₀ ns, kvNsInit (fun _ => true) 1 = some ns₀ ∧ kvCall ns₀ failedStoreCall = some ns ∧
      ns.numUsed = 1 ∧ ns.idNsKv.nuse.toNat = 4112 * ns.numUsed := by
  have hrun : (((kvNsInit (fun _ => true) 1).bind (kvCall · failedStoreCall)).map KvNs.numUsed) =
      some 1 := by decide +kernel
  obtain ⟨ns, hns, hused⟩ := Option.map_eq_some_iff.mp hrun
  obtain ⟨ns₀, h₀, hcall⟩ := Option.bind_eq_some_iff.mp hns
  exact ⟨ns₀, ns, h₀, hcall, hused,
    (kvCalls_representation h₀ (Reaches.single failedStoreCall trivial hcall)).2.2.2.1⟩

end VfuKvssd
