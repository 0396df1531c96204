import VfuKvssd.Controller.KvList

/-! # Listing everything

In one page: a List without a start key begins at the slot of the empty key when
that key is stored. Page by page: a host that takes the last key of a page as the
start key of the next one meets every key once and comes to an end.
-/
namespace VfuKvssd
open Foundations

section Slots
variable {ns : KvNs} {i j : ℕ} {k : List Byte} {xs ys : List (List Byte)}

theorem KvNs.contents_ne_none_iff : ns.contents k ≠ none ↔ k ∈ ns.usedFrom 0 := by
  rw [ne_eq, KvNs.contents, SlotTable.lookup_eq_none_iff, not_not, usedFrom, List.drop_zero,
    usedKeys_eq_keys]
  rfl

theorem mem_usedKeys {ps : List KvPair} : k ∈ usedKeys ps ↔ ∃ p ∈ ps, p.used = true ∧ p.keyBytes = k := by
  simp only [usedKeys, List.mem_map, List.mem_filter, and_assoc]

theorem KvNs.startsAt_exists (ns : KvNs) (k : List Byte) : ∃ i, ns.StartsAt k i := by
  by_cases h : ∃ p ∈ ns.pairs, p.used = true ∧ p.keyBytes = k
  · obtain ⟨p, hp, hu, hk⟩ := h
    obtain ⟨i, hi⟩ := List.mem_iff_getElem?.mp hp
    exact ⟨i, .inl ⟨p, hi, hu, hk⟩⟩
  · exact ⟨0, .inr ⟨fun p hp hu hk => h ⟨p, hp, hu, hk⟩, rfl⟩⟩

/-- From the slot of a key on, the keys are this one and those behind it. -/
theorem KvNs.Valid.usedFrom_startsAt (h : ns.Valid) (hs : ns.usedFrom i = xs ++ k :: ys)
    (hj : ns.StartsAt k j) : ns.usedFrom j = k :: ys := by
  obtain ⟨l₁, l₂, hfilter, -, hmap⟩ := List.map_eq_append_iff.mp hs
  obtain ⟨p, l₃, rfl, rfl, rfl⟩ := List.map_eq_cons_iff.mp hmap
  obtain ⟨ps, qs, hdrop, -, htail⟩ := List.filter_eq_append_iff.mp hfilter
  obtain ⟨before, behind, rfl, -, hu, rfl⟩ := List.filter_eq_cons_iff.mp htail
  -- the slot of `p` is `i` plus what was skipped, and no other slot holds its key
  have hdrop' : ns.pairs.drop i = (ps ++ before) ++ p :: behind := by rw [hdrop, List.append_assoc]
  have hslot : ns.pairs[i + (ps ++ before).length]? = some p := by
    rw [← List.getElem?_drop, hdrop', List.getElem?_append_right le_rfl, Nat.sub_self]
    rfl
  obtain rfl := h.startsAt_unique hj (.inl ⟨p, hslot, hu, rfl⟩)
  rw [usedFrom, ← List.drop_drop, hdrop', List.drop_left, usedKeys_cons_used _ hu]
  rfl

end Slots

/-! ## One page from the beginning -/

/-- The empty key is stored behind a used slot. -/
def KvNs.EmptyKeyBehind (ns : KvNs) : Prop :=
  ∃ (i j : ℕ) (p q : KvPair), j < i ∧ ns.pairs[i]? = some p ∧ p.used = true ∧ p.kl = 0 ∧
    ns.pairs[j]? = some q ∧ q.used = true

theorem KvNs.startsAt_le {ns : KvNs} (hno : ¬ ns.EmptyKeyBehind) {i j : ℕ} {q : KvPair}
    (h : ns.Valid) (hi : ns.StartsAt [] i) (hq : ns.pairs[j]? = some q) (hqu : q.used = true) :
    i ≤ j := by
  by_contra hlt
  rcases hi with ⟨p, hp, hpu, hpk⟩ | ⟨-, rfl⟩
  · refine hno ⟨i, j, p, q, by omega, hp, hpu, ?_, hq, hqu⟩
    have hlen := p.keyBytes_length (h.kl_le p (List.mem_of_getElem? hp) hpu)
    rw [hpk] at hlen
    exact hlen.symm
  · omega

theorem KvNs.Valid.all_from_iff {ns : KvNs} (h : ns.Valid) {i : ℕ} (hi : ns.StartsAt [] i) :
    (∀ k, ns.contents k ≠ none → k ∈ ns.usedFrom i) ↔ ¬ ns.EmptyKeyBehind := by
  constructor
  · rintro hall ⟨i', j, p, q, hlt, hp, hpu, hpk, hq, hqu⟩
    have hkey : p.keyBytes = [] := by rw [KvPair.keyBytes, hpk, List.take_zero]
    obtain rfl := h.startsAt_unique hi (.inl ⟨p, hp, hpu, hkey⟩)
    -- the key of slot `j` is met from slot `i` on as well, at another slot
    have hmem : q.keyBytes ∈ ns.usedFrom 0 := by
      rw [usedFrom, List.drop_zero, mem_usedKeys]
      exact ⟨q, List.mem_of_getElem? hq, hqu, rfl⟩
    obtain ⟨r, hr, hru, hrk⟩ := mem_usedKeys.mp (hall _ (KvNs.contents_ne_none_iff.mpr hmem))
    obtain ⟨m, hm⟩ := List.mem_iff_getElem?.mp hr
    rw [List.getElem?_drop] at hm
    have hsame := h.slot_unique hm hq hru hqu hrk
    omega
  · intro hno k hk
    rw [KvNs.contents_ne_none_iff, usedFrom, List.drop_zero, mem_usedKeys] at hk
    obtain ⟨q, hq, hqu, rfl⟩ := hk
    obtain ⟨j, hj⟩ := List.mem_iff_getElem?.mp hq
    have hle := KvNs.startsAt_le hno h hi hj hqu
    rw [usedFrom, mem_usedKeys]
    refine ⟨q, List.mem_iff_getElem?.mpr ⟨j - i, ?_⟩, hqu, rfl⟩
    rw [List.getElem?_drop, Nat.add_sub_cancel' hle, hj]

/-- A start slot from which nothing is missed has all the keys behind it. -/
theorem KvNs.Valid.usedFrom_eq_zero {ns : KvNs} (h : ns.Valid) {i : ℕ} (hi : ns.StartsAt [] i)
    (hno : ¬ ns.EmptyKeyBehind) : ns.usedFrom i = ns.usedFrom 0 := by
  have hsub : (ns.usedFrom i).Sublist (ns.usedFrom 0) :=
    ((List.drop_sublist i ns.pairs).filter _).map _
  refine hsub.eq_of_length_le ((h.usedFrom_nodup 0).subperm fun k hk => ?_).length_le
  exact (h.all_from_iff hi).mpr hno k (KvNs.contents_ne_none_iff.mpr hk)

/-- The List completes with success and returns every stored key. -/
def NvmeCtrl.ListsAll (n : NvmeCtrl) (heap : Heap) (sqe : NvmeSqe) : Prop :=
  ∃ n' bytes keys, nvmeIoKv n heap sqe = some (nvmeSuccess, n') ∧ n.Sends heap sqe bytes ∧
    Carries bytes keys ∧ ∀ k, n.ns.contents k ≠ none → k ∈ keys

/-- A List of all keys has the memory it asks for, and its data can be mapped: behind the first
page it fits one page. -/
structure NvmeCtrl.Listable (n : NvmeCtrl) (heap : Heap) (sqe : NvmeSqe) : Prop where
  header : heap .rds = true
  entries : ∀ j p, n.ns.pairs[j]? = some p → p.used = true → heap (.rdsGrown j) = true
  sgl : heap .dataSgl = true
  mapped : n.world.vfu.mapsPrps sqe.prp1 sqe.prp2 (4 + ((n.ns.usedFrom 0).map kdsSize).sum)
    .write = true

/-- After any Stores and Deletes, a List without a start key into a buffer for all entries returns
every stored key exactly when the empty key is not stored behind a used slot and the List has its
memory and its pages. -/
theorem kvCalls_list_all_iff {heap₀ : Heap} {maxNumKeys : BitVec 32} {ns₀ ns : KvNs}
    (h₀ : kvNsInit heap₀ maxNumKeys = some ns₀)
    (hr : Reaches kvCall (fun _ c => c.op = .store ∨ c.op = .delete) ns₀ ns) {n : NvmeCtrl}
    (hn : n.ns = ns) {heap : Heap} {sqe : NvmeSqe} (ho : sqe.opcode = nvmeCmdKvList)
    (hk : (NvmeKVCmd.ofSqe sqe).kl = 0)
    (hb : 4 + ((ns.usedFrom 0).map kdsSize).sum ≤ (NvmeKVCmd.ofSqe sqe).hbs) :
    n.ListsAll heap sqe ↔ ¬ ns.EmptyKeyBehind ∧ n.Listable heap sqe := by
  subst hn
  have hv := (kvCalls_valid h₀ (hr.mono fun _ _ _ => trivial)).1
  have hk16 : (NvmeKVCmd.ofSqe sqe).kl ≤ 16 := by omega
  have hkey : (NvmeKVCmd.ofSqe sqe).keyBytes = [] := by
    rw [NvmeKVCmd.keyBytes, hk, List.take_zero]
  generalize hslot : (n.ns.slotOf (.ofSqe sqe)).getD 0 = i
  have hi : n.ns.StartsAt [] i := by
    have hstart := hv.startsAt hk16
    rwa [hkey, hslot] at hstart
  have hsub : (n.ns.usedFrom i).Sublist (n.ns.usedFrom 0) :=
    ((List.drop_sublist i n.ns.pairs).filter _).map _
  have hsum : ((n.ns.usedFrom i).map kdsSize).sum ≤ ((n.ns.usedFrom 0).map kdsSize).sum :=
    (hsub.map kdsSize).sum_le_sum fun _ _ => Nat.zero_le _
  have hsuccess := @NvmeCtrl.list_success_iff n hv heap sqe ho hk16 i hslot (by omega)
  constructor
  · rintro ⟨n', bytes, keys, hs, hsend, hcarry, hall⟩
    obtain ⟨j, hj, hsend'⟩ := NvmeCtrl.list_sends hv ho hs
    obtain rfl := hv.startsAt_unique hi (hkey ▸ hj)
    have hkeys : keys = n.ns.usedFrom i := by
      rw [hsend.1.unique hsend'.1] at hcarry
      rw [hcarry.unique (hv.carries hsend'.length_le), KvNs.listed, fitting_eq_self (by omega)]
    subst hkeys
    have hno := (hv.all_from_iff hi).mp hall
    obtain ⟨hrds, hgrown, hsgl, hmapped⟩ := hsuccess.mp ⟨n', hs⟩
    rw [hv.usedFrom_eq_zero hi hno] at hmapped
    exact ⟨hno, hrds, fun j p hp hu => hgrown j p (KvNs.startsAt_le hno hv hi hp hu) hp hu, hsgl,
      hmapped⟩
  · rintro ⟨hno, hrds, hgrown, hsgl, hmapped⟩
    have hsame := hv.usedFrom_eq_zero hi hno
    rw [← hsame] at hmapped
    obtain ⟨n', hs⟩ := hsuccess.mpr ⟨hrds, fun j p _ hp hu => hgrown j p hp hu, hsgl, hmapped⟩
    obtain ⟨j, hj, hsend⟩ := NvmeCtrl.list_sends hv ho hs
    obtain rfl := hv.startsAt_unique hi (hkey ▸ hj)
    refine ⟨n', _, _, hs, hsend, hv.carries hsend.length_le, ?_⟩
    rw [KvNs.listed, fitting_eq_self (by omega)]
    exact (hv.all_from_iff hi).mpr hno

/-- A Store with an empty value of the key that consists of `kl` bytes `b`, zeros from byte 1 on. -/
def storeCall (kl b : Byte) : KvCall where
  op := .store
  cmd := ⟨fun i => if i.val = 0 then 1 else if i.val = 8 then b else if i.val = 44 then kl else 0⟩
  dma := ⟨fun _ _ dst => (true, dst, ()), fun _ _ _ => (true, ())⟩
  heap := fun _ => true

/-- A fresh controller over the namespace that the given Stores leave, and its answer to `listAll`. -/
def listAfter (calls : List KvCall) : Option (KvNs × KvNs × NvmeCtrl × Status × NvmeCtrl) :=
  (kvNsInit (fun _ => true) 2).bind fun ns₀ =>
    (execute kvCall (fun _ c => c.op == .store) ns₀ calls).bind fun ns =>
      (nvmeCtrlInit (fun _ => true) ⟨.flat, fun _ => 0, []⟩ 2).bind fun n =>
        (nvmeIoKv { n with ns := ns } (fun _ => true) listAll).map fun r =>
          (ns₀, ns, { n with ns := ns }, r)

theorem listAfter_some {calls : List KvCall} {ns₀ ns : KvNs} {n n' : NvmeCtrl} {st : Status}
    (h : listAfter calls = some (ns₀, ns, n, st, n')) :
    kvNsInit (fun _ => true) 2 = some ns₀ ∧
      Reaches kvCall (fun _ c => c.op = .store ∨ c.op = .delete) ns₀ ns ∧ n.ns = ns ∧
      nvmeIoKv n (fun _ => true) listAll = some (st, n') := by
  obtain ⟨ns₀', h₀, h⟩ := Option.bind_eq_some_iff.mp h
  obtain ⟨ns', hrun, h⟩ := Option.bind_eq_some_iff.mp h
  obtain ⟨n₀, -, h⟩ := Option.bind_eq_some_iff.mp h
  obtain ⟨r, hio, h⟩ := Option.map_eq_some_iff.mp h
  simp only [Prod.mk.injEq] at h
  obtain ⟨rfl, rfl, rfl, rfl⟩ := h
  exact ⟨h₀, reaches_of_execute (fun _ _ _ hc => .inl (beq_iff_eq.mp hc)) hrun, rfl, hio⟩

theorem kvCalls_list_all_oneKey :
    ∃ (ns : KvNs) (n : NvmeCtrl), n.ns = ns ∧ ns.contents [0x61] ≠ none ∧
      n.ListsAll (fun _ => true) listAll := by
  have hrun : (listAfter [storeCall 1 0x61]).map (fun r => decide (
      r.2.1.usedFrom 0 = [[0x61]] ∧
      r.2.2.1.world.vfu.mapsPrps listAll.prp1 listAll.prp2 10 .write = true)) = some true := by
    decide +kernel
  obtain ⟨⟨ns₀, ns, n, st, n'⟩, hr, hobs⟩ := Option.map_eq_some_iff.mp hrun
  obtain ⟨hused, hmapped⟩ := of_decide_eq_true hobs
  dsimp only at hused hmapped
  obtain ⟨h₀, hreach, hn, hio⟩ := listAfter_some hr
  have hsize : 4 + ((ns.usedFrom 0).map kdsSize).sum = 10 := by
    rw [hused]
    decide
  have hstored : ns.contents [0x61] ≠ none := by
    rw [KvNs.contents_ne_none_iff, hused]
    exact List.mem_singleton_self _
  refine ⟨ns, n, hn, hstored, (kvCalls_list_all_iff h₀ hreach hn (by decide) (by decide)
    (by rw [hsize]; decide)).mpr ⟨?_, rfl, fun _ _ _ _ => rfl, rfl, ?_⟩⟩
  · -- the only stored key is not empty
    rintro ⟨i, j, p, q, -, hp, hpu, hpk, -⟩
    have hmem : p.keyBytes ∈ ns.usedFrom 0 := by
      rw [KvNs.usedFrom, List.drop_zero, mem_usedKeys]
      exact ⟨p, List.mem_of_getElem? hp, hpu, rfl⟩
    rw [hused, KvPair.keyBytes, hpk, List.take_zero] at hmem
    exact absurd hmem (by decide)
  · rw [hn, hsize]
    exact hmapped

/-- With "a" in slot 0 and the empty key in slot 1, a List without a start key misses "a". -/
theorem kvCalls_empty_key_hides :
    ∃ ns₀ ns n n' bytes keys, kvNsInit (fun _ => true) 2 = some ns₀ ∧
      Reaches kvCall (fun _ c => c.op = .store ∨ c.op = .delete) ns₀ ns ∧ n.ns = ns ∧
      (NvmeKVCmd.ofSqe listAll).kl = 0 ∧
      4 + ((ns.usedFrom 0).map kdsSize).sum ≤ (NvmeKVCmd.ofSqe listAll).hbs ∧
      nvmeIoKv n (fun _ => true) listAll = some (nvmeSuccess, n') ∧
      n.Sends (fun _ => true) listAll bytes ∧ Carries bytes keys ∧
      ns.contents [0x61] ≠ none ∧ [0x61] ∉ keys := by
  have hrun : (listAfter [storeCall 1 0x61, storeCall 0 0]).map (fun r =>
      decide (r.2.2.2.1 = nvmeSuccess ∧ r.2.1.usedFrom 0 = [[0x61], []] ∧
        r.2.1.listed 1 64 = [[]]) && (r.2.1.pairs[1]?.any fun p => p.used && p.keyBytes == [])) =
      some true := by decide +kernel
  obtain ⟨⟨ns₀, ns, n, st, n'⟩, hr, hobs⟩ := Option.map_eq_some_iff.mp hrun
  obtain ⟨hfacts, hslot⟩ := (Bool.and_eq_true _ _).mp hobs
  obtain ⟨hst, hused, hlisted⟩ := of_decide_eq_true hfacts
  dsimp only at hst hused hlisted hslot
  subst hst
  obtain ⟨h₀, hreach, hn, hio⟩ := listAfter_some hr
  have hv := (kvCalls_valid h₀ (hreach.mono fun _ _ _ => trivial)).1
  obtain ⟨p, hp, hpu⟩ := (Option.any_eq_true _ _).mp hslot
  rw [Bool.and_eq_true, beq_iff_eq] at hpu
  obtain ⟨i, hi, hsend⟩ := NvmeCtrl.list_sends (hn ▸ hv) (by decide) hio
  have hstart : ns.StartsAt (NvmeKVCmd.ofSqe listAll).keyBytes 1 := .inl ⟨p, hp, hpu.1, hpu.2⟩
  obtain rfl : i = 1 := hv.startsAt_unique (hn ▸ hi) hstart
  refine ⟨ns₀, ns, n, n', _, _, h₀, hreach, hn, by decide, by rw [hused]; decide, hio, hsend,
    KvNs.Valid.carries (hn ▸ hv) hsend.length_le, ?_, ?_⟩
  · rw [KvNs.contents_ne_none_iff, hused]
    exact List.mem_cons_self
  · rw [hn, show (NvmeKVCmd.ofSqe listAll).hbs = 64 by decide, hlisted]
    decide

/-! ## Page by page -/

/-- A List of a key into a buffer of `hbs` bytes completes with success and brings these keys. -/
def ListPage (n : NvmeCtrl) (hbs : ℕ) (key : List Byte) (page : List (List Byte)) : Prop :=
  ∃ w heap sqe bytes, sqe.opcode = nvmeCmdKvList ∧ (NvmeKVCmd.ofSqe sqe).keyBytes = key ∧
    (NvmeKVCmd.ofSqe sqe).hbs = hbs ∧ (n.withWorld w).Sends heap sqe bytes ∧ Carries bytes page

/-- The pages of a host that goes on with the last key of a page as long as the page brings a key
other than its start key, and the key it has come to. -/
inductive Pages (n : NvmeCtrl) (hbs : ℕ) : List Byte → List (List (List Byte)) → List Byte → Prop
  | start (key : List Byte) : Pages n hbs key [] key
  | next {key next last : List Byte} {page : List (List Byte)} {pages : List (List (List Byte))}
      (hp : ListPage n hbs key page) (hmore : ∃ k ∈ page, k ≠ key)
      (hlast : page.getLast? = some next) (h : Pages n hbs next pages last) :
      Pages n hbs key (page :: pages) last

/-- The host has come to a page that brings no other key. -/
def Paginates (n : NvmeCtrl) (hbs : ℕ) (key : List Byte) (pages : List (List (List Byte)))
    (final : List (List Byte)) : Prop :=
  ∃ last, Pages n hbs key pages last ∧ ListPage n hbs last final ∧ ∀ k ∈ final, k = last

/-- The keys met, without the first key of each page after the first, which repeats. -/
def visited : List (List (List Byte)) → List (List Byte)
  | [] => []
  | page :: pages => page ++ pages.flatMap List.tail

section Pages
variable {n : NvmeCtrl} {hbs i : ℕ} {key last : List Byte} {page rest : List (List Byte)}
  {pages : List (List (List Byte))}

/-- A page is what fits from the slot of its key on. -/
theorem ListPage.eq (h : ListPage n hbs key page) (hv : n.ns.Valid) :
    ∃ i, n.ns.StartsAt key i ∧ page = n.ns.listed i hbs := by
  obtain ⟨w, heap, sqe, bytes, ho, rfl, rfl, hsend, hcarry⟩ := h
  have hs := hsend.1
  rw [NvmeCtrl.Hands, hsend.2] at hs
  obtain ⟨i, hi, hlist⟩ := NvmeCtrl.list_sends (n := n.withWorld w) hv ho hs
  refine ⟨i, hi, hcarry.unique ?_⟩
  rw [hsend.1.unique hlist.1]
  exact hv.carries hlist.length_le

theorem ListPage.of_success {n' : NvmeCtrl} {heap : Heap} {sqe : NvmeSqe} (hv : n.ns.Valid)
    (ho : sqe.opcode = nvmeCmdKvList) (hi : n.ns.StartsAt (NvmeKVCmd.ofSqe sqe).keyBytes i)
    (hs : nvmeIoKv n heap sqe = some (nvmeSuccess, n')) :
    ListPage n (NvmeKVCmd.ofSqe sqe).hbs (NvmeKVCmd.ofSqe sqe).keyBytes
      (n.ns.listed i (NvmeKVCmd.ofSqe sqe).hbs) := by
  obtain ⟨j, hj, hsend⟩ := NvmeCtrl.list_sends hv ho hs
  obtain rfl := hv.startsAt_unique hi hj
  exact ⟨n.world, heap, sqe, _, ho, rfl, rfl, hsend, hv.carries hsend.length_le⟩

theorem kdsSize_le {k : List Byte} (h : k.length ≤ 16) : kdsSize k ≤ 20 := by
  simp only [kdsSize, recordSize, kdsPad]
  omega

theorem KvNs.Valid.take_two_listed {ns : KvNs} (h : ns.Valid) (hb : 44 ≤ hbs) :
    (ns.usedFrom i).take 2 <+: ns.listed i hbs := by
  refine prefix_fitting (List.take_prefix 2 _) ?_
  have hlen : ((ns.usedFrom i).take 2).length ≤ 2 := by simp
  have hsum : (((ns.usedFrom i).take 2).map kdsSize).sum ≤ ((ns.usedFrom i).take 2).length * 20 := by
    rw [← List.length_map (f := kdsSize), ← smul_eq_mul]
    refine List.sum_le_card_nsmul _ _ fun x hx => ?_
    obtain ⟨k, hk, rfl⟩ := List.mem_map.mp hx
    exact kdsSize_le (h.usedFrom_length (List.mem_of_mem_take hk))
  omega

/-- A page that brings no key other than its start key has reached the end. -/
theorem ListPage.at_end (hv : n.ns.Valid) (hb : 44 ≤ hbs) (h : ListPage n hbs key page)
    (hi : n.ns.StartsAt key i) (hno : ∀ k ∈ page, k = key) : n.ns.usedFrom i = page := by
  obtain ⟨i', hi', rfl⟩ := h.eq hv
  obtain rfl := hv.startsAt_unique hi hi'
  have hpre := hv.take_two_listed (i := i) hb
  have hnodup := hv.usedFrom_nodup i
  have hlisted := n.ns.listed_initial i hbs
  -- two keys would fit, and the second one is not the start key
  rcases hused : n.ns.usedFrom i with _ | ⟨a, _ | ⟨b, rest⟩⟩
  · rw [hused] at hlisted
    exact (List.prefix_nil.mp hlisted).symm
  · rw [hused] at hlisted hpre
    exact (hlisted.eq_of_length_le hpre.length_le).symm
  · rw [hused] at hpre hnodup
    have hab : a = b := by
      rw [hno a (hpre.subset (by simp)), hno b (hpre.subset (by simp))]
    rw [hab] at hnodup
    simp at hnodup

/-- A page splits what is left: the next start key is its last one, with the rest behind it. -/
theorem ListPage.split (hv : n.ns.Valid) (h : ListPage n hbs key page)
    (hi : n.ns.StartsAt key i) {next : List Byte} (hlast : page.getLast? = some next) :
    ∃ rest, n.ns.usedFrom i = page ++ rest ∧
      ∀ j, n.ns.StartsAt next j → n.ns.usedFrom j = next :: rest := by
  obtain ⟨i', hi', rfl⟩ := h.eq hv
  obtain rfl := hv.startsAt_unique hi hi'
  obtain ⟨rest, hrest⟩ := n.ns.listed_initial i hbs
  obtain ⟨front, hfront⟩ := List.getLast?_eq_some_iff.mp hlast
  have hsplit : n.ns.usedFrom i = front ++ next :: rest := by
    rw [← hrest, hfront, List.append_assoc]
    rfl
  exact ⟨rest, hrest.symm, fun j hj => hv.usedFrom_startsAt hsplit hj⟩

/-- From a stored key on, the pages without their first keys are exactly the keys behind it, and
there are no more pages than keys. -/
theorem Pages.behind (hv : n.ns.Valid) (hb : 44 ≤ hbs) (h : Pages n hbs key pages last)
    (hi : n.ns.StartsAt key i) (hu : n.ns.usedFrom i = key :: rest) :
    pages.length ≤ rest.length ∧
      (∀ final, ListPage n hbs last final → (∀ k ∈ final, k = last) →
        (pages ++ [final]).flatMap List.tail = rest) := by
  induction h generalizing i rest with
  | start key =>
    refine ⟨Nat.zero_le _, fun final hf hno => ?_⟩
    have hall := hf.at_end hv hb hi hno
    rw [hu] at hall
    simp [← hall]
  | @next key next last page pages hp hmore hlast _ ih =>
    obtain ⟨rest', hsplit, hnext⟩ := hp.split hv hi hlast
    obtain ⟨j, hj⟩ := n.ns.startsAt_exists next
    obtain ⟨hcount, hkeys⟩ := ih hj (hnext j hj)
    -- the page starts with its own key and brings at least one more
    obtain ⟨tail, rfl⟩ : ∃ tail, page = key :: tail := by
      cases page with
      | nil => cases hlast
      | cons a tail =>
        rw [hu, List.cons_append] at hsplit
        exact ⟨tail, by rw [(List.cons.inj hsplit).1]⟩
    have hrest : rest = tail ++ rest' := by
      rw [hu] at hsplit
      exact (List.cons.inj hsplit).2
    have htail : tail ≠ [] := by
      rintro rfl
      obtain ⟨k, hk, hne⟩ := hmore
      exact hne (List.mem_singleton.mp hk)
    have hpos := List.length_pos_iff.mpr htail
    refine ⟨?_, fun final hf hno => ?_⟩
    · rw [hrest, List.length_append, List.length_cons]
      omega
    · rw [List.cons_append, List.flatMap_cons, hkeys final hf hno, hrest]
      rfl

end Pages

/-- Repeating List with the last key of the previous page, into a buffer of at least 44 bytes,
takes at most as many further pages as there are used slots from the start slot on, and once a page
brings no other key, the keys met are those of all these slots, in slot order, each once. -/
theorem Device.Reachable.list_pagination {maxNumKeys : BitVec 32} {d : Device}
    (h : Reachable maxNumKeys d) {hbs : ℕ} (hb : 44 ≤ hbs) (key : List Byte) :
    ∃ i, d.n.ns.StartsAt key i ∧
      (∀ pages last, Pages d.n hbs key pages last → pages.length ≤ (d.n.ns.usedFrom i).length) ∧
      (∀ pages final, Paginates d.n hbs key pages final →
        visited (pages ++ [final]) = d.n.ns.usedFrom i) ∧
      (d.n.ns.usedFrom i).Nodup := by
  have hv := h.ns_valid.1
  obtain ⟨i, hi⟩ := d.n.ns.startsAt_exists key
  refine ⟨i, hi, fun pages last hp => ?_, ?_, hv.usedFrom_nodup i⟩
  · cases hp with
    | start => exact Nat.zero_le _
    | next hpage hmore hlast hp =>
      obtain ⟨rest, hsplit, hnext⟩ := hpage.split hv hi hlast
      obtain ⟨j, hj⟩ := d.n.ns.startsAt_exists _
      have hcount := (hp.behind hv hb hj (hnext j hj)).1
      have hpos := List.length_pos_of_mem (List.mem_of_getLast? hlast)
      rw [hsplit, List.length_append, List.length_cons]
      omega
  · rintro pages final ⟨last, hp, hfinal, hno⟩
    cases hp with
    | start =>
      rw [hfinal.at_end hv hb hi hno]
      simp [visited]
    | next hpage hmore hlast hp =>
      obtain ⟨rest, hsplit, hnext⟩ := hpage.split hv hi hlast
      obtain ⟨j, hj⟩ := d.n.ns.startsAt_exists _
      have hkeys := (hp.behind hv hb hj (hnext j hj)).2 final hfinal hno
      rw [List.cons_append, visited, hkeys, hsplit]

/-- A List of the key "b" into a buffer of 64 bytes. -/
def listFromB : NvmeSqe :=
  ⟨fun i => if i.val = 0 then 6 else if i.val = 8 then 0x62 else if i.val = 26 then 4
    else if i.val = 40 then 64 else if i.val = 44 then 1 else 0⟩

/-- The keys "a" and "b" fit one page; the page of "b" ends the loop. -/
theorem Device.Reachable.list_pagination_twoKeys :
    ∃ d, Reachable 2 d ∧ Paginates d.n 64 [] [[[0x61], [0x62]]] [[0x62]] ∧
      d.n.ns.usedFrom 0 = [[0x61], [0x62]] ∧
      visited ([[[0x61], [0x62]]] ++ [[[0x62]]]) = d.n.ns.usedFrom 0 := by
  obtain ⟨d, n₁, hr, hio₁, hstart, hobs⟩ := listAll_after 1 (fun n =>
    decide (n.ns.usedFrom 0 = [[0x61], [0x62]] ∧ n.ns.listed 0 64 = [[0x61], [0x62]] ∧
      n.ns.listed 1 64 = [[0x62]]) &&
    (n.ns.pairs[1]?.any fun p => p.used && p.keyBytes == [0x62]) &&
    (nvmeIoKv n (fun _ => true) listFromB).any fun r => r.1 == nvmeSuccess) (by decide +kernel)
  rw [Bool.and_eq_true, Bool.and_eq_true, decide_eq_true_eq] at hobs
  obtain ⟨⟨⟨hused, hlist₀, hlist₁⟩, hslot⟩, hnext⟩ := hobs
  obtain ⟨p, hp, hpb⟩ := (Option.any_eq_true _ _).mp hslot
  rw [Bool.and_eq_true, beq_iff_eq] at hpb
  obtain ⟨⟨st, n₂⟩, hio₂, hst⟩ := (Option.any_eq_true _ _).mp hnext
  obtain rfl : st = nvmeSuccess := eq_of_beq hst
  have hv := hr.ns_valid.1
  have hpage₁ : ListPage d.n 64 [] [[0x61], [0x62]] :=
    hlist₀ ▸ ListPage.of_success hv (show listAll.opcode = _ by decide) hstart hio₁
  have hpage₂ : ListPage d.n 64 [0x62] [[0x62]] :=
    hlist₁ ▸ ListPage.of_success hv (show listFromB.opcode = _ by decide)
      (.inl ⟨p, hp, hpb.1, hpb.2⟩) hio₂
  have hpages : Paginates d.n 64 [] [[[0x61], [0x62]]] [[0x62]] :=
    ⟨[0x62], .next hpage₁ (by decide) rfl (.start _), hpage₂, by decide⟩
  obtain ⟨i, hi, -, hvisited, -⟩ := hr.list_pagination (show 44 ≤ 64 by decide) []
  obtain rfl : i = 0 := hv.startsAt_unique hi hstart
  exact ⟨d, hr, hpages, hused, hvisited _ _ hpages⟩

end VfuKvssd
