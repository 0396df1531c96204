import VfuKvssd.Controller.LastWriter
import VfuKvssd.Controller.Pagination

/-! # Listing while others write

Between two pages of a listing the device may run on: other commands store and
delete keys, queues come and go, the controller is reset. A key that stays stored
keeps its slot, so a host that goes on with the last key of a page meets every
such key once, as long as the key it goes on with is itself not deleted.
-/
namespace VfuKvssd
open Foundations

def KvNs.Holds (ns : KvNs) (k : List Byte) (i : ℕ) : Prop :=
  ∃ p, ns.pairs[i]? = some p ∧ p.used = true ∧ p.keyBytes = k

/-! ## Slots that keys keep -/

section Slots
variable {ns ns' : KvNs} {k l : List Byte} {i j : ℕ} {p : KvPair}

theorem KvNs.Holds.stored (h : ns.Holds k i) : ns.contents k ≠ none := by
  obtain ⟨p, hp, hu, hk⟩ := h
  rw [contents_ne_none_iff, usedFrom, List.drop_zero, mem_usedKeys]
  exact ⟨p, List.mem_of_getElem? hp, hu, hk⟩

theorem KvNs.holds_exists (h : ns.contents k ≠ none) : ∃ i, ns.Holds k i := by
  rw [contents_ne_none_iff, usedFrom, List.drop_zero, mem_usedKeys] at h
  obtain ⟨p, hp, hu, hk⟩ := h
  obtain ⟨i, hi⟩ := List.mem_iff_getElem?.mp hp
  exact ⟨i, p, hi, hu, hk⟩

theorem KvNs.Valid.holds_unique (h : ns.Valid) (hi : ns.Holds k i) (hj : ns.Holds k j) :
    i = j :=
  h.startsAt_unique (.inl hi) (.inl hj)

theorem KvNs.Holds.key_unique (hk : ns.Holds k i) (hl : ns.Holds l i) : k = l := by
  obtain ⟨p, hp, -, rfl⟩ := hk
  obtain ⟨q, hq, -, rfl⟩ := hl
  rw [Option.some.inj (hp.symm.trans hq)]

/-- The keys from a slot on are those whose slot is not before it. -/
theorem KvNs.Valid.mem_usedFrom_iff (h : ns.Valid) (hj : ns.Holds k j) :
    k ∈ ns.usedFrom i ↔ i ≤ j := by
  rw [usedFrom, mem_usedKeys]
  constructor
  · rintro ⟨p, hp, hu, hk⟩
    obtain ⟨m, hm⟩ := List.mem_iff_getElem?.mp hp
    rw [List.getElem?_drop] at hm
    have hslot := h.holds_unique hj ⟨p, hm, hu, hk⟩
    omega
  · intro hle
    obtain ⟨p, hp, hu, hk⟩ := hj
    refine ⟨p, List.mem_iff_getElem?.mpr ⟨j - i, ?_⟩, hu, hk⟩
    rw [List.getElem?_drop, Nat.add_sub_cancel' hle, hp]

/-- A key stays in its slot when another slot is written, or its own with the same key. -/
theorem KvNs.Holds.set {q : KvPair} (h : ns.Holds k i)
    (hpairs : ns'.pairs = ns.pairs.set j q) (hq : j = i → q.used = true ∧ q.keyBytes = k) :
    ns'.Holds k i := by
  obtain ⟨p, hp, hu, hk⟩ := h
  rw [Holds, hpairs]
  by_cases hji : j = i
  · subst hji
    obtain ⟨hlt, -⟩ := List.getElem?_eq_some_iff.mp hp
    exact ⟨q, List.getElem?_set_self hlt, hq rfl⟩
  · exact ⟨p, by rw [List.getElem?_set_ne hji, hp], hu, hk⟩

theorem KvNs.Holds.room {heap : Heap} (h : ns.Holds k i) (hr : ns.room heap = some (ns', j)) :
    ns'.Holds k i := by
  rcases KvNs.room_cases hr with ⟨-, rfl⟩ | ⟨-, -, rfl, -⟩
  · exact h
  · obtain ⟨p, hp, hu, hk⟩ := h
    obtain ⟨hlt, -⟩ := List.getElem?_eq_some_iff.mp hp
    exact ⟨p, (List.getElem?_append_left hlt).trans hp, hu, hk⟩

variable {σ : Type} {cmd : NvmeKVCmd} {dma : KvDma σ} {ctx ctx' : σ} {heap : Heap} {st : Status}

theorem kvStore_holds (h : ns.Valid) (hk : ns.Holds k i)
    (hs : kvStore ns cmd dma ctx heap = some (st, ns', ctx')) : ns'.Holds k i := by
  have ho := kvStore_outcome h cmd dma ctx heap
  rw [hs] at ho
  cases ho with
  | keySize | valSize | keyExists | keyNotExists | full | noMemory => exact hk
  | @overwrite hc j p hslot hj hm =>
    refine hk.set rfl fun hji => ?_
    subst hji
    obtain ⟨q, hq, hu, hkey⟩ := hk
    obtain rfl := Option.some.inj (hq.symm.trans hj)
    exact ⟨hu, hkey⟩
  | @insert hn base j hr hb hj =>
    have hbase := hk.room hr
    refine hbase.set rfl fun hji => ?_
    subst hji
    -- a free slot holds no key
    obtain ⟨q, hq, hu, -⟩ := hbase
    obtain rfl := Option.some.inj (hq.symm.trans hj)
    cases hu

theorem kvDelete_holds (h : ns.Valid) (hk : ns.Holds k i)
    (hk' : (kvDelete ns cmd).2.contents k ≠ none) : (kvDelete ns cmd).2.Holds k i := by
  have ho := kvDelete_outcome ns cmd
  generalize kvDelete ns cmd = r at ho hk'
  cases ho with
  | keySize | absent => exact hk
  | @present hkl j p hs hj hm =>
    refine hk.set rfl fun hji => ?_
    subst hji
    -- the key that is deleted is not stored afterwards
    obtain ⟨q, hq, -, rfl⟩ := hk
    obtain rfl := Option.some.inj (hq.symm.trans hj)
    rw [h.contents_clear hkl hj hm, h.keyBytes_of_match hkl (List.mem_of_getElem? hj) hm,
      Function.update_self] at hk'
    exact absurd rfl hk'

/-- A key that is stored before and after a command is in the same slot. -/
theorem kvHandle_holds {op : KvOp} (h : ns.Valid) (hk : ns.Holds k i)
    (hh : kvHandle op ns cmd dma ctx heap = some (st, ns', ctx'))
    (hk' : ns'.contents k ≠ none) : ns'.Holds k i := by
  cases op with
  | store => exact kvStore_holds h hk hh
  | delete =>
    simp only [kvHandle, Option.some.injEq, Prod.mk.injEq] at hh
    obtain ⟨-, rfl, -⟩ := hh
    exact kvDelete_holds h hk hk'
  | retrieve | exist | list =>
    simp only [kvHandle, Option.some.injEq, Prod.mk.injEq] at hh
    obtain ⟨-, rfl, -⟩ := hh
    exact hk

end Slots

section Runs
variable {k : List Byte} {i : ℕ}

theorem Executed.holds {n n' : NvmeCtrl} {heap : Heap} {q : QueueId} {sqe : NvmeSqe}
    {st : Status} {cdw0 : BitVec 32} (hx : Executed n heap q sqe st cdw0 n') (h : n.ns.Valid)
    (hk : n.ns.Holds k i) (hk' : n'.ns.contents k ≠ none) : n'.ns.Holds k i := by
  cases hx with
  | kv _ _ hh => exact kvHandle_holds h hk hh hk'
  | _ => exact hk

theorem StepCase.holds {d d' : Device} {x : Input} (hs : StepCase d x d') (hok : d.Ok)
    (h : d.n.ns.Valid) (hk : d.n.ns.Holds k i) (hk' : d'.n.ns.contents k ≠ none) :
    d'.n.ns.Holds k i := by
  rcases hs.ns_eq with he | ⟨heap, q, -, hb, hc⟩
  · rw [he]
    exact hk
  obtain ⟨c, hserved⟩ := hc.served hok.rings (hok.busy q hb)
  obtain ⟨n₁, st, cdw0, ps, hr, hns, -⟩ := hserved.ran
  obtain ⟨-, ⟨buf, w, hm, n₀, hx, rfl⟩, -, -⟩ := hr
  rw [hns] at hk' ⊢
  exact hx.holds (n := d.n.fetched q w) h hk hk'

/-- Every one of the keys is stored. -/
def Device.Stores (d : Device) (ks : Set (List Byte)) : Prop :=
  ∀ k ∈ ks, d.n.ns.contents k ≠ none

/-- Keys that are stored in every state of a run keep their slots. -/
theorem Device.Reachable.holds {maxNumKeys : BitVec 32} {d d' : Device} {ks : Set (List Byte)}
    (h : Reachable maxNumKeys d) (hr : Reaches step (fun d _ => d.Stores ks) d d')
    (hd' : d'.Stores ks) (hk : k ∈ ks) (hi : d.n.ns.Holds k i) : d'.n.ns.Holds k i := by
  have hkept : d'.n.ns.contents k ≠ none → d'.n.ns.Holds k i := by
    refine hr.relates (R := fun _ e => e.n.ns.contents k ≠ none → e.n.ns.Holds k i) (fun _ => hi) ?_
    intro t x u ht hheld hstored hstep hk'
    have hreach := h.trans (ht.mono fun _ _ _ => trivial)
    exact (step_cases hstep).holds hreach.ok hreach.ns_valid.1 (hheld (hstored k hk)) hk'
  exact hkept (hd' k hk)

end Runs

/-! ## One page -/

section Page
variable {n : NvmeCtrl} {hbs i : ℕ} {key next : List Byte} {page : List (List Byte)}

theorem KvNs.Valid.mem_behind_iff {ns : KvNs} {k l : List Byte} {j m : ℕ}
    {rest : List (List Byte)} (h : ns.Valid) (hj : ns.Holds k j)
    (hrest : ns.usedFrom j = k :: rest) (hm : ns.Holds l m) : l ∈ rest ↔ j < m := by
  have hnodup := h.usedFrom_nodup j
  have hmem := h.mem_usedFrom_iff (i := j) hm
  rw [hrest, List.nodup_cons] at hnodup
  rw [hrest, List.mem_cons] at hmem
  constructor
  · intro hl
    rcases Nat.lt_or_eq_of_le (hmem.mp (.inr hl)) with hlt | rfl
    · exact hlt
    · rw [← hj.key_unique hm] at hl
      exact absurd hl hnodup.1
  · intro hlt
    rcases hmem.mpr hlt.le with rfl | hl
    · exact absurd (h.holds_unique hj hm) hlt.ne
    · exact hl

/-- A page ends at the slot of its last key, and the keys of the slots up to there are the keys of
the page. -/
theorem ListPage.span (hv : n.ns.Valid) (h : ListPage n hbs key page)
    (hi : n.ns.StartsAt key i) (hlast : page.getLast? = some next) :
    ∃ j, i ≤ j ∧ n.ns.Holds next j ∧ page.Nodup ∧
      ∀ k m, n.ns.Holds k m → (k ∈ page ↔ i ≤ m ∧ m ≤ j) := by
  obtain ⟨rest, hsplit, hnext⟩ := h.split hv hi hlast
  have hmem : next ∈ n.ns.usedFrom i := by
    rw [hsplit]
    exact List.mem_append_left _ (List.mem_of_getLast? hlast)
  have hstored : n.ns.contents next ≠ none := by
    rw [KvNs.contents_ne_none_iff]
    exact ((List.drop_sublist i n.ns.pairs).filter _).map _ |>.subset hmem
  obtain ⟨j, hj⟩ := KvNs.holds_exists hstored
  have hnodup := hv.usedFrom_nodup i
  rw [hsplit] at hnodup
  obtain ⟨hpage, hrest, hdisj⟩ := List.nodup_append'.mp hnodup
  refine ⟨j, (hv.mem_usedFrom_iff hj).mp hmem, hj, hpage, fun k m hm => ?_⟩
  have hfrom := hv.mem_usedFrom_iff (i := i) hm
  have hbehind := hv.mem_behind_iff hj (hnext j (.inl hj)) hm
  rw [hsplit, List.mem_append] at hfrom
  constructor
  · intro hk
    refine ⟨hfrom.mp (.inl hk), ?_⟩
    by_contra hlt
    exact hdisj hk (hbehind.mpr (by omega))
  · rintro ⟨hle, hle'⟩
    rcases hfrom.mpr hle with hk | hk
    · exact hk
    · have hlt := hbehind.mp hk
      omega

theorem ListPage.head (hv : n.ns.Valid) (hb : 44 ≤ hbs) (h : ListPage n hbs key page)
    (hi : n.ns.Holds key i) : ∃ tail, page = key :: tail := by
  obtain ⟨i', hi', rfl⟩ := h.eq hv
  obtain rfl := hv.startsAt_unique (.inl hi) hi'
  have hfirst : ∃ rest, n.ns.usedFrom i = key :: rest := by
    obtain ⟨p, hp, hu, rfl⟩ := hi
    obtain ⟨hlt, hget⟩ := List.getElem?_eq_some_iff.mp hp
    rw [KvNs.usedFrom, List.drop_eq_getElem_cons hlt, hget, usedKeys_cons_used _ hu]
    exact ⟨_, rfl⟩
  obtain ⟨rest, hrest⟩ := hfirst
  obtain ⟨more, hmore⟩ := hv.take_two_listed (i := i) hb
  rw [hrest] at hmore
  cases rest with
  | nil => exact ⟨_, hmore.symm⟩
  | cons _ _ => exact ⟨_, hmore.symm⟩

end Page

/-! ## Page after page -/

/-- The pages of a host that goes on with the last key of a page, with the device running on in
between. The keys `ks` and the key the host goes on with stay stored meanwhile. -/
inductive Scan (hbs : ℕ) (ks : Set (List Byte)) :
    Device → List Byte → List (List (List Byte)) → Device → List Byte → Prop
  | start (d : Device) (key : List Byte) (hd : d.Stores ks) : Scan hbs ks d key [] d key
  | next {d d₁ d' : Device} {key next last : List Byte} {page : List (List Byte)}
      {pages : List (List (List Byte))} (hp : ListPage d.n hbs key page)
      (hmore : ∃ k ∈ page, k ≠ key) (hlast : page.getLast? = some next)
      (hd : d.Stores (insert next ks))
      (hrun : Reaches Device.step (fun d _ => d.Stores (insert next ks)) d d₁)
      (hd₁ : d₁.Stores (insert next ks)) (h : Scan hbs ks d₁ next pages d' last) :
      Scan hbs ks d key (page :: pages) d' last

namespace Scan
variable {maxNumKeys : BitVec 32} {hbs i m : ℕ} {ks : Set (List Byte)} {d d' : Device}
  {key k last : List Byte} {pages : List (List (List Byte))} {final : List (List Byte)}

theorem stores (h : Scan hbs ks d key pages d' last) : d.Stores ks := by
  cases h with
  | start _ _ hd => exact hd
  | next _ _ _ hd => exact fun k hk => hd k (Set.mem_insert_of_mem _ hk)

theorem holds (h : Scan hbs ks d key pages d' last) (hd : d.Reachable maxNumKeys) (hk : k ∈ ks)
    (hm : d.n.ns.Holds k m) : d'.n.ns.Holds k m := by
  induction h with
  | start => exact hm
  | next _ _ _ _ hrun hd₁ _ ih =>
    exact ih (hd.trans (hrun.mono fun _ _ _ => trivial))
      (hd.holds hrun hd₁ (Set.mem_insert_of_mem _ hk) hm)

/-- From a stored key on, the pages without their first keys bring the keys behind it, each once. -/
theorem behind (h : Scan hbs ks d key pages d' last) (hd : d.Reachable maxNumKeys)
    (hb : 44 ≤ hbs) (hi : d.n.ns.Holds key i) (hf : ListPage d'.n hbs last final)
    (hend : ∀ k ∈ final, k = last) (hk : k ∈ ks) (hm : d.n.ns.Holds k m) :
    ((pages ++ [final]).flatMap List.tail).count k = if i < m then 1 else 0 := by
  induction h generalizing i m with
  | start d key _ =>
    have hv := hd.ns_valid.1
    have hall := hf.at_end hv hb (.inl hi) hend
    obtain ⟨tail, rfl⟩ := hf.head hv hb hi
    have hnodup := hv.usedFrom_nodup i
    rw [hall, List.nodup_cons] at hnodup
    rw [List.nil_append, List.flatMap_singleton, List.tail_cons, hnodup.2.count]
    simp only [hv.mem_behind_iff hi hall hm]
  | @next d d₁ d' key next last page pages hp hmore hlast hstart hrun hd₁ h ih =>
    have hv := hd.ns_valid.1
    obtain ⟨j, hij, hj, hnodup, hspan⟩ := hp.span hv (.inl hi) hlast
    obtain ⟨tail, rfl⟩ := hp.head hv hb hi
    have hj₁ := hd.holds hrun hd₁ (Set.mem_insert _ _) hj
    have hm₁ := hd.holds hrun hd₁ (Set.mem_insert_of_mem _ hk) hm
    have hrest := ih (hd.trans (hrun.mono fun _ _ _ => trivial)) hj₁ hf hend hm₁
    rw [List.nodup_cons] at hnodup
    -- the first key repeats, and the others of the page are behind it
    have htail : k ∈ tail ↔ i < m ∧ m ≤ j := by
      have hpage := hspan k m hm
      rw [List.mem_cons] at hpage
      by_cases hkey : k = key
      · subst hkey
        obtain rfl := hv.holds_unique hi hm
        exact iff_of_false hnodup.1 fun hlt => lt_irrefl _ hlt.1
      · have hne : i ≠ m := by
          rintro rfl
          exact hkey (hm.key_unique hi)
        rw [or_iff_right hkey] at hpage
        rw [hpage]
        omega
    rw [List.cons_append, List.flatMap_cons, List.count_append, hrest, List.tail_cons,
      hnodup.2.count]
    simp only [htail]
    split_ifs <;> omega

end Scan

/-- However the device runs between the pages, once a page brings no other key, every key that has
stayed stored from the first page on has been met once if its slot is not before the start slot,
and not at all otherwise. -/
theorem Device.Reachable.scan_meets_once {maxNumKeys : BitVec 32} {d d' : Device}
    (hd : Reachable maxNumKeys d) {hbs : ℕ} (hb : 44 ≤ hbs) {ks : Set (List Byte)}
    {key last : List Byte} {pages : List (List (List Byte))} {final : List (List Byte)}
    (h : Scan hbs ks d key pages d' last) (hf : ListPage d'.n hbs last final)
    (hend : ∀ k ∈ final, k = last) :
    ∃ i, d.n.ns.StartsAt key i ∧ ∀ k ∈ ks, ∃ m, d.n.ns.Holds k m ∧ d'.n.ns.Holds k m ∧
      (visited (pages ++ [final])).count k = if i ≤ m then 1 else 0 := by
  have hv := hd.ns_valid.1
  obtain ⟨i, hi⟩ := d.n.ns.startsAt_exists key
  refine ⟨i, hi, fun k hk => ?_⟩
  obtain ⟨m, hm⟩ := KvNs.holds_exists (h.stores k hk)
  refine ⟨m, hm, h.holds hd hk hm, ?_⟩
  cases h with
  | start =>
    have hall := hf.at_end hv hb hi hend
    have hnodup := hv.usedFrom_nodup i
    rw [hall] at hnodup
    rw [List.nil_append, visited, List.flatMap_nil, List.append_nil, hnodup.count, ← hall]
    simp only [hv.mem_usedFrom_iff hm]
  | next hp hmore hlast hstart hrun hd₁ h =>
    obtain ⟨j, hij, hj, hnodup, hspan⟩ := hp.span hv hi hlast
    have hj₁ := hd.holds hrun hd₁ (Set.mem_insert _ _) hj
    have hm₁ := hd.holds hrun hd₁ (Set.mem_insert_of_mem _ hk) hm
    have hrest := h.behind (hd.trans (hrun.mono fun _ _ _ => trivial)) hb hj₁ hf hend hk hm₁
    rw [List.cons_append, visited, List.count_append, hrest, hnodup.count]
    simp only [hspan k m hm]
    split_ifs <;> omega

/-- The queue is done, and its third entry is a Delete of the key "a". -/
def deleteInputs : List Input :=
  iterations 1 ++
    [.hostMemory (memoryOf [(0x30080, 0x10), (0x30088, 0x61), (0x300ac, 1)]), sqTailWrite 1 3] ++
    iterations 1

/-- After a page with "a" and "b" the key "a" is deleted, and the page of "b" ends the listing. -/
theorem Device.Reachable.scan_meets_once_deleted :
    ∃ d d', Reachable 2 d ∧ Scan 64 {[0x62]} d [] [[[0x61], [0x62]]] d' [0x62] ∧
      ListPage d'.n 64 [0x62] [[0x62]] ∧ d.n.ns.usedFrom 0 = [[0x61], [0x62]] ∧
      d'.n.ns.usedFrom 0 = [[0x62]] ∧ d.n.ns.StartsAt [] 0 ∧ ∃ m, d.n.ns.Holds [0x62] m ∧
      (visited ([[[0x61], [0x62]]] ++ [[[0x62]]])).count [0x62] = if 0 ≤ m then 1 else 0 := by
  have hrun : ((bootRun 2 (fun _ _ => true) (twoKeysInputs 1)).bind fun d =>
      (nvmeIoKv d.n (fun _ => true) listAll).bind fun r =>
        (execute step (fun d _ => decide ([0x62] ∈ d.n.ns.usedFrom 0)) d deleteInputs).bind fun d' =>
          (nvmeIoKv d'.n (fun _ => true) listFromB).map fun r' =>
            decide (r.1 = nvmeSuccess ∧ r'.1 = nvmeSuccess ∧ d.n.ns.noEmptyKey = true ∧
              d.n.ns.usedFrom 0 = [[0x61], [0x62]] ∧ d.n.ns.listed 0 64 = [[0x61], [0x62]] ∧
              d'.n.ns.usedFrom 0 = [[0x62]] ∧ d'.n.ns.listed 1 64 = [[0x62]]) &&
            (d'.n.ns.pairs[1]?.any fun p => p.used && p.keyBytes == [0x62])) = some true := by
    decide +kernel
  obtain ⟨d, hd, hrun⟩ := Option.bind_eq_some_iff.mp hrun
  obtain ⟨⟨st, n₁⟩, hio, hrun⟩ := Option.bind_eq_some_iff.mp hrun
  obtain ⟨d', hd', hrun⟩ := Option.bind_eq_some_iff.mp hrun
  obtain ⟨⟨st', n₂⟩, hio', hobs⟩ := Option.map_eq_some_iff.mp hrun
  rw [Bool.and_eq_true, decide_eq_true_eq] at hobs
  obtain ⟨⟨rfl, rfl, hkeys, hused, hlist, hused', hlist'⟩, hslot⟩ := hobs
  obtain ⟨p, hp, hpb⟩ := (Option.any_eq_true _ _).mp hslot
  rw [Bool.and_eq_true, beq_iff_eq] at hpb
  have hr := reachable_of_bootRun hd
  have hstores {e : Device} (he : [0x62] ∈ e.n.ns.usedFrom 0) :
      e.Stores (insert [0x62] {[0x62]}) := by
    rintro k hk
    obtain rfl : k = [0x62] := by simpa using hk
    exact KvNs.contents_ne_none_iff.mpr he
  have hreach : Reaches step (fun d _ => d.Stores (insert [0x62] {[0x62]})) d d' :=
    reaches_of_execute (fun s _ _ hs => hstores (of_decide_eq_true hs)) hd'
  have hr' := hr.trans (hreach.mono fun _ _ _ => trivial)
  have hstart := KvNs.startsAt_zero hkeys
  have hpage : ListPage d.n 64 [] [[0x61], [0x62]] :=
    hlist ▸ ListPage.of_success hr.ns_valid.1 (show listAll.opcode = _ by decide) hstart hio
  have hpage' : ListPage d'.n 64 [0x62] [[0x62]] :=
    hlist' ▸ ListPage.of_success hr'.ns_valid.1 (show listFromB.opcode = _ by decide)
      (.inl ⟨p, hp, hpb.1, hpb.2⟩) hio'
  have hlast : d'.Stores (insert [0x62] {[0x62]}) := hstores (by rw [hused']; simp)
  have hscan : Scan 64 {[0x62]} d [] [[[0x61], [0x62]]] d' [0x62] :=
    .next hpage (by decide) rfl (hstores (by rw [hused]; simp)) hreach hlast
      (.start _ _ fun k hk => hlast k (Set.mem_insert_of_mem _ hk))
  obtain ⟨i, hi, hmeets⟩ := hr.scan_meets_once (show 44 ≤ 64 by decide) hscan hpage' (by decide)
  obtain rfl := hr.ns_valid.1.startsAt_unique hi hstart
  obtain ⟨m, hm, -, hcount⟩ := hmeets [0x62] rfl
  exact ⟨d, d', hr, hscan, hpage', hused, hused', hstart, m, hm, hcount⟩

end VfuKvssd
