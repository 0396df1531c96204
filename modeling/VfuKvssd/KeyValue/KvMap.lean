import VfuKvssd.KeyValue.Outcomes

/-! # The namespace as a finite map

`KvSpec` says what each KV command does to a map from keys to value buffers, with
no slots in sight. On a valid namespace every handler follows it.
-/
namespace VfuKvssd
open Foundations

variable {σ : Type}

/-- Stored values by key. -/
abbrev KvMap := List Byte → Option (Buffer 4096)

noncomputable def KvMap.card (m : KvMap) : ℕ := Set.ncard {k | m k ≠ none}

def KvNs.contents (ns : KvNs) : KvMap := SlotTable.lookup ns.table

/-- Data that moved while a command ran: nothing, bytes taken from the host, or bytes handed to
it, with the outcome of the transfer. -/
inductive KvIo
  | none
  | received (ok : Bool) (bytes : List Byte)
  | sent (ok : Bool) (bytes : List Byte)
deriving DecidableEq

/-- What a command does to a map of capacity `cap`, in terms of the data that moved. -/
inductive KvSpec (cap : ℕ) (ednek : Bool) (m : KvMap) (cmd : NvmeKVCmd) :
    KvOp → KvIo → Status → KvMap → Prop
  | storeKeySize (hk : 16 < cmd.kl) : KvSpec cap ednek m cmd .store .none nvmeKvInvalidKeySize m
  | storeValSize (hk : cmd.kl ≤ 16) (hv : 4096 < cmd.hbs) :
      KvSpec cap ednek m cmd .store .none nvmeKvInvalidValSize m
  | storeExists (hk : cmd.kl ≤ 16) (hv : cmd.hbs ≤ 4096) {v : Buffer 4096}
      (hp : m cmd.keyBytes = some v) (ho : cmd.dontStoreIfKeyExists = true) :
      KvSpec cap ednek m cmd .store .none nvmeKvKeyExists m
  | storeOverwrite (hk : cmd.kl ≤ 16) (hv : cmd.hbs ≤ 4096) {v : Buffer 4096}
      (hp : m cmd.keyBytes = some v) (ho : cmd.dontStoreIfKeyExists = false) {bytes : List Byte}
      (hl : bytes.length = cmd.hbs) :
      KvSpec cap ednek m cmd .store (.received true bytes) nvmeSuccess
        (Function.update m cmd.keyBytes (some (v.copy 0 bytes)))
  | storeNotExists (hk : cmd.kl ≤ 16) (hv : cmd.hbs ≤ 4096) (hp : m cmd.keyBytes = none)
      (ho : cmd.dontStoreIfKeyNotExists = true) :
      KvSpec cap ednek m cmd .store .none nvmeKvKeyNotExists m
  | storeFull (hk : cmd.kl ≤ 16) (hv : cmd.hbs ≤ 4096) (hp : m cmd.keyBytes = none)
      (ho : cmd.dontStoreIfKeyNotExists = false) (hf : cap ≤ m.card) :
      KvSpec cap ednek m cmd .store .none nvmeCapExceeded m
  | storeInsert (hk : cmd.kl ≤ 16) (hv : cmd.hbs ≤ 4096) (hp : m cmd.keyBytes = none)
      (ho : cmd.dontStoreIfKeyNotExists = false) (hf : m.card < cap) {bytes : List Byte}
      (hl : bytes.length = cmd.hbs) :
      KvSpec cap ednek m cmd .store (.received true bytes) nvmeSuccess
        (Function.update m cmd.keyBytes (some (Buffer.copy (fun _ => 0) 0 bytes)))
  | retrieveKeySize (hk : 16 < cmd.kl) : KvSpec cap ednek m cmd .retrieve .none nvmeInvalidField m
  | retrieve (hk : cmd.kl ≤ 16) {v : Buffer 4096} (hp : m cmd.keyBytes = some v) (ok : Bool) :
      KvSpec cap ednek m cmd .retrieve (.sent ok (v.bytes.take (min cmd.hbs 4096)))
        (transferStatus ok) m
  | retrieveAbsent (hk : cmd.kl ≤ 16) (hp : m cmd.keyBytes = none) :
      KvSpec cap ednek m cmd .retrieve .none nvmeKvKeyNotExists m
  | deleteKeySize (hk : 16 < cmd.kl) : KvSpec cap ednek m cmd .delete .none nvmeInvalidField m
  | delete (hk : cmd.kl ≤ 16) {v : Buffer 4096} (hp : m cmd.keyBytes = some v) :
      KvSpec cap ednek m cmd .delete .none nvmeSuccess (Function.update m cmd.keyBytes none)
  | deleteAbsent (hk : cmd.kl ≤ 16) (hp : m cmd.keyBytes = none) :
      KvSpec cap ednek m cmd .delete .none
        (if ednek then nvmeKvKeyNotExists else nvmeSuccess) m
  | existKeySize (hk : 16 < cmd.kl) : KvSpec cap ednek m cmd .exist .none nvmeInvalidField m
  | exist (hk : cmd.kl ≤ 16) {v : Buffer 4096} (hp : m cmd.keyBytes = some v) :
      KvSpec cap ednek m cmd .exist .none nvmeSuccess m
  | existAbsent (hk : cmd.kl ≤ 16) (hp : m cmd.keyBytes = none) :
      KvSpec cap ednek m cmd .exist .none nvmeKvKeyNotExists m
  | listKeySize (hk : 16 < cmd.kl) : KvSpec cap ednek m cmd .list .none nvmeInvalidField m
  | list (hk : cmd.kl ≤ 16) (ok : Bool) {bytes : List Byte} (hl : bytes.length ≤ max cmd.hbs 4) :
      KvSpec cap ednek m cmd .list (.sent ok bytes) (transferStatus ok) m

/-! ## Slots and the map -/

namespace KvNs.Valid
variable {ns base : KvNs} {cmd : NvmeKVCmd} {i j : ℕ} {p : KvPair} {dst : List Byte}

theorem contents_none (h : ns.Valid) (hk : cmd.kl ≤ 16) (hs : ns.slotOf cmd = none) :
    ns.contents cmd.keyBytes = none :=
  SlotTable.lookup_eq_none_iff.mpr (h.not_mem_keys hk hs)

theorem table_match (h : ns.Valid) (hk : cmd.kl ≤ 16) (hi : ns.pairs[i]? = some p)
    (hm : kvKeyMatch cmd p = true) : ns.table[i]? = some (some (cmd.keyBytes, p.val)) := by
  rw [getElem?_table_used hi (kvKeyMatch_used hm),
    h.keyBytes_of_match hk (List.mem_of_getElem? hi) hm]

theorem contents_match (h : ns.Valid) (hk : cmd.kl ≤ 16) (hi : ns.pairs[i]? = some p)
    (hm : kvKeyMatch cmd p = true) : ns.contents cmd.keyBytes = some p.val := by
  rw [contents, SlotTable.lookup_eq_some_iff h.unique]
  exact List.mem_of_getElem? (h.table_match hk hi hm)

theorem contents_overwrite (h : ns.Valid) (hk : cmd.kl ≤ 16) (hi : ns.pairs[i]? = some p)
    (hm : kvKeyMatch cmd p = true) :
    (ns.overwrite i p dst).contents =
      Function.update ns.contents cmd.keyBytes (some (p.val.copy 0 dst)) := by
  rw [contents, table_overwrite (kvKeyMatch_used hm),
    h.keyBytes_of_match hk (List.mem_of_getElem? hi) hm]
  exact SlotTable.lookup_replace (h.table_match hk hi hm) h.unique

theorem contents_clear (h : ns.Valid) (hk : cmd.kl ≤ 16) (hi : ns.pairs[i]? = some p)
    (hm : kvKeyMatch cmd p = true) :
    (ns.clear i).contents = Function.update ns.contents cmd.keyBytes none := by
  rw [contents, table_clear]
  exact SlotTable.lookup_clear (h.table_match hk hi hm) h.unique

theorem contents_grown (ns : KvNs) : ns.grown.contents = ns.contents := by
  rw [contents, table_grown, SlotTable.lookup_append_none]
  rfl

theorem contents_room {heap : Heap} (hr : ns.room heap = some (base, j)) :
    base.contents = ns.contents := by
  obtain ⟨-, rfl⟩ | ⟨-, -, rfl, -⟩ := room_cases hr
  · rfl
  · exact contents_grown ns

theorem contents_insert {heap : Heap} (h : ns.Valid) (hn : InsertsKey ns cmd)
    (hr : ns.room heap = some (base, j)) (hj : base.pairs[j]? = some KvPair.zero) :
    (base.occupy j cmd dst).contents =
      Function.update ns.contents cmd.keyBytes (some (KvPair.zero.val.copy 0 dst)) := by
  have hbase := contents_room hr
  have hkey : cmd.keyBytes ∉ SlotTable.keys base.table := by
    rw [← SlotTable.lookup_eq_none_iff]
    exact (congrFun hbase _).trans (h.contents_none hn.storable.1 hn.absent)
  rw [contents, table_occupy hn.storable.1,
    SlotTable.lookup_fill (getElem?_table_unused hj rfl) hkey]
  exact congrArg (Function.update · _ _) hbase

theorem card_contents (h : ns.Valid) : ns.contents.card = ns.numUsed := by
  rw [KvMap.card, contents, SlotTable.ncard_keys h.unique, countP_table]

theorem contents_key_length (h : ns.Valid) {k : List Byte} (hk : ns.contents k ≠ none) :
    k.length ≤ 16 := by
  obtain ⟨v, hv⟩ := Option.ne_none_iff_exists'.mp hk
  rw [contents, SlotTable.lookup_eq_some_iff h.unique] at hv
  obtain ⟨p, hp, he⟩ := List.mem_map.mp hv
  rw [KvPair.entry] at he
  split at he
  · rename_i hu
    obtain ⟨rfl, -⟩ := Prod.mk.inj (Option.some.inj he)
    have hkl := h.kl_le p hp hu
    simp only [KvPair.keyBytes, List.length_take, Buffer.bytes_length]
    omega
  · cases he

end KvNs.Valid

/-! ## The handlers follow the map -/

/-- The transfer that a handler call makes. -/
inductive KvIo.Performed (dma : KvDma σ) (cmd : NvmeKVCmd) (ctx : σ) : KvIo → σ → Prop
  | none : Performed dma cmd ctx .none ctx
  | received {dst bytes : List Byte} {ok : Bool} {ctx' : σ} (hl : dst.length = cmd.hbs)
      (h : dma.h2c ctx cmd dst = (ok, bytes, ctx')) : Performed dma cmd ctx (.received ok bytes) ctx'
  | sent {src : List Byte} {ok : Bool} {ctx' : σ} (h : dma.c2h ctx cmd src = (ok, ctx')) :
      Performed dma cmd ctx (.sent ok src) ctx'

/-- A handler call follows the map specification, unless its transfer in fails. -/
def FollowsSpec (ns : KvNs) (op : KvOp) (cmd : NvmeKVCmd) (dma : KvDma σ) (ctx : σ) (st : Status)
    (ns' : KvNs) (ctx' : σ) : Prop :=
  ∃ io, KvIo.Performed dma cmd ctx io ctx' ∧ ((∀ bytes, io ≠ .received false bytes) →
    KvSpec ns.maxNumKeys.toNat (ns.ednek &&& 0x01 != 0) ns.contents cmd op io st ns'.contents)

section Spec
variable {ns ns' : KvNs} {op : KvOp} {cmd : NvmeKVCmd} {dma : KvDma σ} {ctx ctx' : σ} {heap : Heap}
  {st : Status}

theorem FollowsSpec.quiet (h : KvSpec ns.maxNumKeys.toNat (ns.ednek &&& 0x01 != 0) ns.contents cmd
    op .none st ns'.contents) : FollowsSpec ns op cmd dma ctx st ns' ctx :=
  ⟨.none, .none, fun _ => h⟩

theorem kvStore_spec (h : ns.Valid) (hheap : heap .pairsGrown = true)
    (hlen : ∀ ctx dst, (dma.h2c ctx cmd dst).2.1.length = dst.length)
    (hh : kvStore ns cmd dma ctx heap = some (st, ns', ctx')) :
    FollowsSpec ns .store cmd dma ctx st ns' ctx' := by
  have ho := kvStore_outcome h cmd dma ctx heap
  rw [hh] at ho
  cases ho with
  | keySize hk => exact .quiet (.storeKeySize hk)
  | valSize hk hv => exact .quiet (.storeValSize hk hv)
  | keyExists hc hs hopt =>
    obtain ⟨p, hi, hm⟩ := KvNs.slotOf_some hs
    exact .quiet (.storeExists hc.1 hc.2 (h.contents_match hc.1 hi hm) hopt)
  | @overwrite hc i p hs hi hm hopt ok dst ctx' ht =>
    have hl := hc.take_length p.val
    refine ⟨_, .received hl ht, fun hok => ?_⟩
    cases ok with
    | false => exact absurd rfl (hok dst)
    | true =>
      rw [h.contents_overwrite hc.1 hi hm]
      refine .storeOverwrite hc.1 hc.2 (h.contents_match hc.1 hi hm) hopt ?_
      have hd := hlen ctx (p.val.bytes.take cmd.hbs)
      rw [ht, hl] at hd
      exact hd
  | keyNotExists hc hs hopt => exact .quiet (.storeNotExists hc.1 hc.2 (h.contents_none hc.1 hs) hopt)
  | full hc hs hopt hf =>
    refine .quiet (.storeFull hc.1 hc.2 (h.contents_none hc.1 hs) hopt ?_)
    rw [h.card_contents]
    exact h.full_iff.mp hf
  | noMemory hn hr =>
    simp only [KvNs.room, hheap, if_true] at hr
    split at hr <;> cases hr
  | @insert hn base j hr hb hj ok dst ctx' ht =>
    have hl := hn.storable.take_length KvPair.zero.val
    refine ⟨_, .received hl ht, fun hok => ?_⟩
    cases ok with
    | false => exact absurd rfl (hok dst)
    | true =>
      rw [h.contents_insert hn hr hj]
      refine .storeInsert hn.storable.1 hn.storable.2 (h.contents_none hn.storable.1 hn.absent)
        hn.allowed ?_ ?_
      · have hf := hn.notFull
        rw [Bool.eq_false_iff, ne_eq, h.full_iff] at hf
        rw [h.card_contents]
        omega
      · have hd := hlen ctx (KvPair.zero.val.bytes.take cmd.hbs)
        rw [ht, hl] at hd
        exact hd

theorem KvNs.slotOf_eq_none : ns.slotOf cmd = none ↔ ns.pairs.find? (kvKeyMatch cmd) = none := by
  rw [KvNs.slotOf, List.findIdx?_eq_none_iff, List.find?_eq_none]
  simp

theorem kvRetrieve_found {p : KvPair} (hkl : cmd.kl ≤ 16)
    (hp : ns.pairs.find? (kvKeyMatch cmd) = some p) (dma : KvDma σ) (ctx : σ) :
    kvRetrieve ns cmd dma ctx =
      (transferStatus (dma.c2h ctx cmd (p.val.bytes.take (min cmd.hbs 4096))).1,
        (dma.c2h ctx cmd (p.val.bytes.take (min cmd.hbs 4096))).2) := by
  rw [kvRetrieve, if_neg (not_lt.mpr hkl), hp]
  rfl

theorem kvRetrieve_spec (h : ns.Valid) (dma : KvDma σ) (ctx : σ) :
    FollowsSpec ns .retrieve cmd dma ctx (kvRetrieve ns cmd dma ctx).1 ns
      (kvRetrieve ns cmd dma ctx).2 := by
  rw [kvRetrieve]
  split
  · exact .quiet (.retrieveKeySize ‹_›)
  rename_i hk
  split
  · rename_i p hp
    rcases ht : dma.c2h ctx cmd (p.val.bytes.take (min cmd.hbs nvmeKvMaxValSize)) with ⟨ok, ctx'⟩
    obtain ⟨i, hi⟩ := List.mem_iff_getElem?.mp (List.mem_of_find?_eq_some hp)
    exact ⟨_, .sent ht, fun _ => .retrieve (not_lt.mp hk)
      (h.contents_match (not_lt.mp hk) hi (List.find?_some hp)) ok⟩
  · rename_i hp
    exact .quiet (.retrieveAbsent (not_lt.mp hk)
      (h.contents_none (not_lt.mp hk) (KvNs.slotOf_eq_none.mpr hp)))

theorem kvDelete_spec (h : ns.Valid) (dma : KvDma σ) (ctx : σ) :
    FollowsSpec ns .delete cmd dma ctx (kvDelete ns cmd).1 (kvDelete ns cmd).2 ctx := by
  have ho := kvDelete_outcome ns cmd
  generalize kvDelete ns cmd = r at ho
  cases ho with
  | keySize hk => exact .quiet (.deleteKeySize hk)
  | present hk hs hi hm =>
    have hd : KvSpec ns.maxNumKeys.toNat (ns.ednek &&& 0x01 != 0) ns.contents cmd .delete .none
      nvmeSuccess _ := .delete hk (h.contents_match hk hi hm)
    rw [← h.contents_clear hk hi hm] at hd
    exact .quiet hd
  | absent hk hs => exact .quiet (.deleteAbsent hk (h.contents_none hk hs))

theorem kvExist_spec (h : ns.Valid) (dma : KvDma σ) (ctx : σ) :
    FollowsSpec ns .exist cmd dma ctx (kvExist ns cmd) ns ctx := by
  rw [kvExist]
  split_ifs with hk hany
  · exact .quiet (.existKeySize hk)
  · obtain ⟨p, hp, hm⟩ := List.any_eq_true.mp hany
    obtain ⟨i, hi⟩ := List.mem_iff_getElem?.mp hp
    exact .quiet (.exist (not_lt.mp hk) (h.contents_match (not_lt.mp hk) hi hm))
  · refine .quiet (.existAbsent (not_lt.mp hk) (h.contents_none (not_lt.mp hk) ?_))
    rw [KvNs.slotOf_eq_none, List.find?_eq_none]
    simpa using hany

theorem kvListFrom_isSome (hheap : ∀ i, heap (.rdsGrown i) = true) (hbs : ℕ) (ps : List KvPair)
    (i : ℕ) (rds : List Byte) : ∃ out, kvListFrom hbs heap ps i rds = some out := by
  induction ps generalizing i rds with
  | nil => exact ⟨rds, rfl⟩
  | cons p ps ih =>
    simp only [kvListFrom, hheap, Bool.not_true, Bool.false_eq_true, if_false]
    split_ifs
    · exact ih _ _
    · exact ⟨rds, rfl⟩
    · exact ih _ _

theorem kvList_spec (hheap : ∀ s, heap s = true) (ns : KvNs) (dma : KvDma σ) (ctx : σ) :
    FollowsSpec ns .list cmd dma ctx (kvList ns cmd dma ctx heap).1 ns
      (kvList ns cmd dma ctx heap).2 := by
  rw [kvList]
  split
  · exact .quiet (.listKeySize ‹_›)
  rename_i hk
  simp only [hheap, Bool.not_true, Bool.false_eq_true, if_false]
  obtain ⟨rds, hr⟩ := kvListFrom_isSome (fun i => hheap (.rdsGrown i)) cmd.hbs
    (ns.pairs.drop ((ns.pairs.findIdx? (kvKeyMatch cmd)).getD 0))
    ((ns.pairs.findIdx? (kvKeyMatch cmd)).getD 0) [0, 0, 0, 0]
  have hl := kvListFrom_length hr (by simp)
  simp only [List.length_cons, List.length_nil, Nat.zero_add, Nat.reduceAdd] at hl
  simp only [hr]
  rcases ht : dma.c2h ctx cmd rds with ⟨ok, ctx'⟩
  simp only [ht]
  exact ⟨_, .sent ht, fun _ => .list (not_lt.mp hk) ok hl⟩

/-- Every handler follows the map specification when its allocations succeed. -/
theorem kvHandle_spec (h : ns.Valid) (hheap : ∀ s, heap s = true)
    (hlen : ∀ ctx dst, (dma.h2c ctx cmd dst).2.1.length = dst.length)
    (hh : kvHandle op ns cmd dma ctx heap = some (st, ns', ctx')) :
    FollowsSpec ns op cmd dma ctx st ns' ctx' := by
  cases op with
  | store => exact kvStore_spec h (hheap _) hlen hh
  | retrieve =>
    simp only [kvHandle, Option.some.injEq, Prod.mk.injEq] at hh
    obtain ⟨rfl, rfl, rfl⟩ := hh
    exact kvRetrieve_spec h dma ctx
  | delete =>
    simp only [kvHandle, Option.some.injEq, Prod.mk.injEq] at hh
    obtain ⟨rfl, rfl, rfl⟩ := hh
    exact kvDelete_spec h dma ctx
  | exist =>
    simp only [kvHandle, Option.some.injEq, Prod.mk.injEq] at hh
    obtain ⟨rfl, rfl, rfl⟩ := hh
    exact kvExist_spec h dma ctx
  | list =>
    simp only [kvHandle, Option.some.injEq, Prod.mk.injEq] at hh
    obtain ⟨rfl, rfl, rfl⟩ := hh
    exact kvList_spec hheap ns dma ctx

end Spec

end VfuKvssd
