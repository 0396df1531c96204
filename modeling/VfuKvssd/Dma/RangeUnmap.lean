import VfuKvssd.Foundations.ByteMemory
import VfuKvssd.Foundations.CursorTree

/-! # Unmapping a range of DMA addresses

`dma_controller_remove_region` as the patch to libvfio-user leaves it: from the
first region that ends at or after the start of the range on, regions are removed
until one starts at or after `unmap_end`, which is computed in 64 bits. The flag
`in_cb`, set around the callback, is left out: nothing here reads it.
-/
namespace VfuKvssd
open Foundations

/-- `dma_memory_region_t`, as far as unmapping reads it. A region that is registered is not empty
and lies within the address space, and one without a mapping has no file descriptor. -/
structure DmaMemoryRegion where
  iovBase : BitVec 64
  iovLen : BitVec 64
  /-- `none` stands for NULL -/
  vaddr : Option (BitVec 64)
  fd : ℤ
  nonempty : 0 < iovLen.toNat
  fits : iovBase.toNat + iovLen.toNat ≤ 2 ^ 64
  unmapped : vaddr = none → fd = -1
deriving DecidableEq

namespace DmaMemoryRegion

def last (r : DmaMemoryRegion) : ℕ := r.iovBase.toNat + r.iovLen.toNat - 1

def Shares (r : DmaMemoryRegion) (addr size : ℕ) : Prop :=
  ∃ b, r.iovBase.toNat ≤ b ∧ b ≤ r.last ∧ addr ≤ b ∧ b < addr + size

def Apart (r s : DmaMemoryRegion) : Prop :=
  r.last < s.iovBase.toNat ∨ s.last < r.iovBase.toNat

instance (r s : DmaMemoryRegion) : Decidable (r.Apart s) := inferInstanceAs (Decidable (_ ∨ _))

end DmaMemoryRegion

inductive DmaEvent
  /-- `DMA unmap [%p, %p) partially overlaps region [%p, %p); removing entire region (splitting not
  implemented)` -/
  | warning (dmaAddr unmapEnd rStart rEnd : BitVec 64)
  | unregister (region : DmaMemoryRegion)
  /-- `dma_controller_unmap_region` -/
  | unmap (region : DmaMemoryRegion)

/-- The tree of regions, keyed by their last bytes. -/
abbrev RegionTree := CursorTree DmaMemoryRegion ℕ DmaMemoryRegion.last

/-- `dma_controller_t`, with the calls made so far. -/
structure DmaController (B : RegionTree) (γ : Type) where
  regions : B.Tree
  generation : γ
  log : List DmaEvent

/-- What the function returns. -/
inductive UnmapCode
  | ok
  | enoent
deriving DecidableEq

section Remove
variable (B : RegionTree) {γ : Type} (incrementRegionsGeneration : γ → γ)

/-- What the body of the loop logs for a region. `unregisters` tells whether there is a
`dma_unregister` callback. -/
def regionEvents (unregisters : Bool) (dmaAddr unmapEnd : BitVec 64) (region : DmaMemoryRegion) :
    List DmaEvent :=
  let rStart := region.iovBase
  let rEnd := rStart + region.iovLen
  (if rStart < dmaAddr ∨ unmapEnd < rEnd then [.warning dmaAddr unmapEnd rStart rEnd] else []) ++
    (if unregisters then [.unregister region] else []) ++
    if region.vaddr ≠ none then [.unmap region] else []

/-- The loop: cursor, number of regions removed and log. `none` is a failed assertion. The regions
removed start at different addresses below `unmapEnd`, so that their number fits a `size_t`. -/
def removeLoop (unregisters : Bool) (dmaAddr unmapEnd : BitVec 64) (i : B.Iter) (removed : ℕ)
    (log : List DmaEvent) : Option (B.Iter × ℕ × List DmaEvent) :=
  match _h : B.iterGet i with
  | none => some (i, removed, log)
  | some region =>
    if unmapEnd ≤ region.iovBase then some (i, removed, log)
    else if region.vaddr = none ∧ region.fd ≠ -1 then none
    else
      removeLoop unregisters dmaAddr unmapEnd (B.iterRemove i) (removed + 1)
        (log ++ regionEvents unregisters dmaAddr unmapEnd region)
termination_by (B.ahead i).length
decreasing_by exact B.ahead_remove_lt ‹_›

def dmaControllerRemoveRegion (dma : DmaController B γ) (dmaAddr size : BitVec 64)
    (unregisters : Bool) : Option (UnmapCode × DmaController B γ) :=
  let unmapEnd := dmaAddr + size
  (removeLoop B unregisters dmaAddr unmapEnd (B.iterInit dma.regions dmaAddr.toNat) 0 dma.log).map
    fun (i, removed, log) =>
      if removed = 0 then (.enoent, ⟨B.tree i, dma.generation, log⟩)
      else (.ok, ⟨B.tree i, incrementRegionsGeneration dma.generation, log⟩)

end Remove

/-! ## What the loop removes -/

/-- The loop goes on to the next region. -/
def startsBelow (unmapEnd : BitVec 64) (r : DmaMemoryRegion) : Bool := decide (r.iovBase < unmapEnd)

/-- The loop never fails its assertion, and it removes the regions from the cursor on that start
below the end. -/
theorem removeLoop_spec (B : RegionTree) (unregisters : Bool) (dmaAddr unmapEnd : BitVec 64)
    (i : B.Iter) (removed : ℕ) (log : List DmaEvent) :
    ∃ j, removeLoop B unregisters dmaAddr unmapEnd i removed log = some (j,
        removed + ((B.ahead i).takeWhile (startsBelow unmapEnd)).length,
        log ++ ((B.ahead i).takeWhile (startsBelow unmapEnd)).flatMap
          (regionEvents unregisters dmaAddr unmapEnd)) ∧
      B.behind j = B.behind i ∧ B.ahead j = (B.ahead i).dropWhile (startsBelow unmapEnd) ∧
      ((B.ahead i).takeWhile (startsBelow unmapEnd) = [] → j = i) := by
  fun_induction removeLoop B unregisters dmaAddr unmapEnd i removed log with
  | case1 i removed log hget =>
    rw [B.get_none hget]
    exact ⟨i, by simp, rfl, by simp [B.get_none hget], fun _ => rfl⟩
  | case2 i removed log r hget hend =>
    obtain ⟨rs, hahead⟩ := B.get_some hget
    have hno : ¬ startsBelow unmapEnd r = true := by simpa [startsBelow] using hend
    rw [hahead, List.takeWhile_cons_of_neg hno, List.dropWhile_cons_of_neg hno]
    exact ⟨i, by simp, rfl, hahead, fun _ => rfl⟩
  | case3 i removed log r hget hend hassert => exact absurd (r.unmapped hassert.1) hassert.2
  | case4 i removed log r hget hend hassert ih =>
    obtain ⟨rs, hahead⟩ := B.get_some hget
    have hyes : startsBelow unmapEnd r = true := by simpa [startsBelow] using hend
    obtain ⟨j, hloop, hbehind, hj, -⟩ := ih
    have hrest := B.ahead_remove hahead
    rw [hrest] at hloop hj
    rw [hloop, hahead, List.takeWhile_cons_of_pos hyes, List.dropWhile_cons_of_pos hyes]
    refine ⟨j, ?_, hbehind.trans (B.behind_remove hahead), hj, by simp⟩
    simp [Nat.add_assoc, Nat.add_comm 1]

section Exact
variable {B : RegionTree} {γ : Type} {next : γ → γ} {dma dma' : DmaController B γ}
  {dmaAddr size : BitVec 64} {unregisters : Bool} {code : UnmapCode}

def gone (dma : DmaController B γ) (dmaAddr size : BitVec 64) : List DmaMemoryRegion :=
  (B.ahead (B.iterInit dma.regions dmaAddr.toNat)).takeWhile (startsBelow (dmaAddr + size))

def unregistered (log : List DmaEvent) : List DmaMemoryRegion :=
  log.filterMap fun e => match e with
    | .unregister r => some r
    | _ => none

theorem unregistered_regionEvents (unregisters : Bool) (dmaAddr unmapEnd : BitVec 64)
    (rs : List DmaMemoryRegion) :
    unregistered (rs.flatMap (regionEvents unregisters dmaAddr unmapEnd)) =
      if unregisters then rs else [] := by
  induction rs with
  | nil => simp [unregistered]
  | cons r rs ih =>
    rw [List.flatMap_cons, unregistered, List.filterMap_append]
    rw [unregistered] at ih
    rw [ih, regionEvents]
    cases unregisters <;> split_ifs <;> simp

/-- The result of the function. -/
structure Unmapped (next : γ → γ) (dma : DmaController B γ) (dmaAddr size : BitVec 64)
    (unregisters : Bool) (code : UnmapCode) (dma' : DmaController B γ) : Prop where
  regions : ∀ r, r ∈ B.items dma'.regions ↔ r ∈ B.items dma.regions ∧ r ∉ gone dma dmaAddr size
  calls : unregistered (dma'.log.drop dma.log.length) =
    if unregisters then gone dma dmaAddr size else []
  none : gone dma dmaAddr size = [] → code = .enoent ∧ dma' = dma
  some : gone dma dmaAddr size ≠ [] → code = .ok ∧ dma'.generation = next dma.generation

theorem dmaControllerRemoveRegion_spec (next : γ → γ) (dma : DmaController B γ)
    (dmaAddr size : BitVec 64) (unregisters : Bool) :
    ∃ code dma', dmaControllerRemoveRegion B next dma dmaAddr size unregisters =
        some (code, dma') ∧ Unmapped next dma dmaAddr size unregisters code dma' := by
  obtain ⟨j, hloop, hbehind, hahead, hsame⟩ := removeLoop_spec B unregisters dmaAddr
    (dmaAddr + size) (B.iterInit dma.regions dmaAddr.toNat) 0 dma.log
  rw [← gone] at hloop hsame
  have hitems : B.items dma.regions = B.behind j ++ (gone dma dmaAddr size ++ B.ahead j) := by
    have h := B.items_tree (B.iterInit dma.regions dmaAddr.toNat)
    rw [B.tree_init] at h
    rw [h, hbehind, hahead, gone, List.takeWhile_append_dropWhile]
  have hregions (r : DmaMemoryRegion) :
      r ∈ B.items (B.tree j) ↔ r ∈ B.items dma.regions ∧ r ∉ gone dma dmaAddr size := by
    have hnodup := B.nodup_items dma.regions
    rw [hitems, List.nodup_append', List.nodup_append'] at hnodup
    obtain ⟨-, ⟨-, -, hrest⟩, hbehind⟩ := hnodup
    rw [B.items_tree, hitems]
    simp only [List.mem_append]
    constructor
    · rintro (hb | ha)
      · exact ⟨.inl hb, fun hg => hbehind hb (List.mem_append_left _ hg)⟩
      · exact ⟨.inr (.inr ha), fun hg => hrest hg ha⟩
    · rintro ⟨hb | hg | ha, hno⟩
      · exact .inl hb
      · exact absurd hg hno
      · exact .inr ha
  have hcalls : unregistered ((dma.log ++ (gone dma dmaAddr size).flatMap
      (regionEvents unregisters dmaAddr (dmaAddr + size))).drop dma.log.length) =
      if unregisters then gone dma dmaAddr size else [] := by
    rw [List.drop_left, unregistered_regionEvents]
  simp only [dmaControllerRemoveRegion, hloop, Option.map_some, Nat.zero_add]
  by_cases hg : gone dma dmaAddr size = []
  · rw [if_pos (by rw [hg]; rfl)]
    refine ⟨_, _, rfl, hregions, hcalls, fun _ => ⟨rfl, ?_⟩, fun h => absurd hg h⟩
    rw [hsame hg, B.tree_init, hg, List.flatMap_nil, List.append_nil]
  · rw [if_neg fun h => hg (List.eq_nil_of_length_eq_zero h)]
    exact ⟨_, _, rfl, hregions, hcalls, fun h => absurd h hg, fun _ => ⟨rfl, rfl⟩⟩

def DmaController.Disjoint (dma : DmaController B γ) : Prop :=
  (B.items dma.regions).Pairwise DmaMemoryRegion.Apart

instance (dma : DmaController B γ) : Decidable dma.Disjoint :=
  inferInstanceAs (Decidable (List.Pairwise _ _))

theorem mem_gone_iff (hd : dma.Disjoint) {r : DmaMemoryRegion} :
    r ∈ gone dma dmaAddr size ↔
      r ∈ B.items dma.regions ∧ dmaAddr.toNat ≤ r.last ∧ r.iovBase < dmaAddr + size := by
  have hsorted : (B.items dma.regions).Pairwise fun r s => r.iovBase < s.iovBase := by
    refine ((B.increasing dma.regions).and hd).imp fun {r s} h => ?_
    obtain ⟨hlt, hap⟩ := h
    have hr := r.nonempty
    have hs := s.nonempty
    rw [BitVec.lt_def]
    simp only [DmaMemoryRegion.Apart, DmaMemoryRegion.last] at hlt hap
    omega
  have hahead : (B.ahead (B.iterInit dma.regions dmaAddr.toNat)).Pairwise fun r s =>
      startsBelow (dmaAddr + size) s = true → startsBelow (dmaAddr + size) r = true := by
    rw [B.ahead_init]
    refine (hsorted.sublist (List.dropWhile_sublist _)).imp fun {r s} hlt hs => ?_
    rw [startsBelow, decide_eq_true_eq] at hs ⊢
    exact BitVec.lt_trans hlt hs
  rw [gone, takeWhile_eq_filter hahead, List.mem_filter, B.mem_ahead_init, and_assoc, startsBelow,
    decide_eq_true_eq]

theorem DmaMemoryRegion.shares_iff {r : DmaMemoryRegion} {addr size : ℕ} :
    r.Shares addr size ↔ 0 < size ∧ addr ≤ r.last ∧ r.iovBase.toNat < addr + size := by
  have hr := r.nonempty
  constructor
  · rintro ⟨b, h₁, h₂, h₃, h₄⟩
    omega
  · rintro ⟨h₁, h₂, h₃⟩
    refine ⟨max r.iovBase.toNat addr, ?_⟩
    simp only [last] at h₂ ⊢
    omega

/-- The function does what its comment says: exactly the regions with a byte in the range are
removed and handed to `dma_unregister`, each once, `ENOENT` is returned and nothing is changed
exactly when there are none, and the generation advances exactly when something was removed. -/
structure ExactUnmap (next : γ → γ) (dma : DmaController B γ) (dmaAddr size : BitVec 64)
    (unregisters : Bool) (code : UnmapCode) (dma' : DmaController B γ) : Prop where
  regions : ∀ r, r ∈ B.items dma'.regions ↔
    r ∈ B.items dma.regions ∧ ¬ r.Shares dmaAddr.toNat size.toNat
  once : (unregistered (dma'.log.drop dma.log.length)).Nodup
  calls : ∀ r, r ∈ unregistered (dma'.log.drop dma.log.length) ↔
    unregisters = true ∧ r ∈ B.items dma.regions ∧ r ∉ B.items dma'.regions
  enoent : code = .enoent ↔
    ∀ r ∈ B.items dma.regions, ¬ r.Shares dmaAddr.toNat size.toNat
  unchanged : code = .enoent → dma' = dma
  advances : (∃ r ∈ B.items dma.regions, r ∉ B.items dma'.regions) →
    dma'.generation = next dma.generation
  keeps : (∀ r ∈ B.items dma.regions, r ∈ B.items dma'.regions) →
    dma'.generation = dma.generation

/-- The range is empty and no region has it strictly inside, or its end is below 2^64 or above all
regions. -/
def RangeInBounds (dma : DmaController B γ) (dmaAddr size : BitVec 64) : Prop :=
  if size = 0 then
    ∀ r ∈ B.items dma.regions, ¬ (r.iovBase.toNat < dmaAddr.toNat ∧ dmaAddr.toNat ≤ r.last)
  else dmaAddr.toNat + size.toNat < 2 ^ 64 ∨ ∀ r ∈ B.items dma.regions, r.last < dmaAddr.toNat

instance (dma : DmaController B γ) (dmaAddr size : BitVec 64) :
    Decidable (RangeInBounds dma dmaAddr size) :=
  inferInstanceAs (Decidable (if size = 0 then _ else _))

theorem gone_nodup (dma : DmaController B γ) (dmaAddr size : BitVec 64) :
    (gone dma dmaAddr size).Nodup := by
  refine (B.nodup_items dma.regions).sublist ((List.takeWhile_sublist _).trans ?_)
  rw [B.ahead_init]
  exact List.dropWhile_sublist _

theorem rangeInBounds_iff (hd : dma.Disjoint) (hrange : dmaAddr.toNat + size.toNat ≤ 2 ^ 64) :
    RangeInBounds dma dmaAddr size ↔ ∀ r ∈ B.items dma.regions,
      (r ∈ gone dma dmaAddr size ↔ r.Shares dmaAddr.toNat size.toNat) := by
  have hend : (dmaAddr + size).toNat = (dmaAddr.toNat + size.toNat) % 2 ^ 64 := BitVec.toNat_add ..
  have hmem {r : DmaMemoryRegion} (hr : r ∈ B.items dma.regions) :
      (r ∈ gone dma dmaAddr size ↔ r.Shares dmaAddr.toNat size.toNat) ↔
        (dmaAddr.toNat ≤ r.last ∧
            r.iovBase.toNat < (dmaAddr.toNat + size.toNat) % 2 ^ 64 ↔
          0 < size.toNat ∧ dmaAddr.toNat ≤ r.last ∧
            r.iovBase.toNat < dmaAddr.toNat + size.toNat) := by
    rw [mem_gone_iff hd, DmaMemoryRegion.shares_iff, BitVec.lt_def, hend, and_iff_right hr]
  rw [RangeInBounds]
  have hlt := dmaAddr.isLt
  split_ifs with hz
  · have hsize : size.toNat = 0 := by rw [hz]; rfl
    refine forall₂_congr fun r hr => ?_
    rw [hmem hr, hsize]
    have hmod : (dmaAddr.toNat + 0) % 2 ^ 64 = dmaAddr.toNat := Nat.mod_eq_of_lt hlt
    rw [hmod]
    omega
  · have hsize : size.toNat ≠ 0 := fun h => hz (BitVec.eq_of_toNat_eq h)
    rcases Nat.lt_or_eq_of_le hrange with hin | htop
    · refine iff_of_true (.inl hin) fun r hr => ?_
      rw [hmem hr, Nat.mod_eq_of_lt hin]
      omega
    · -- the end wraps around to 0, and nothing starts below it
      rw [or_iff_right (by omega)]
      refine forall₂_congr fun r hr => ?_
      have hr' := r.fits
      have hr'' := r.nonempty
      rw [hmem hr, htop, Nat.mod_self]
      simp only [DmaMemoryRegion.last]
      omega

theorem Unmapped.exact_iff (h : Unmapped next dma dmaAddr size unregisters code dma')
    (hd : dma.Disjoint) (hrange : dmaAddr.toNat + size.toNat ≤ 2 ^ 64) :
    ExactUnmap next dma dmaAddr size unregisters code dma' ↔ RangeInBounds dma dmaAddr size := by
  rw [rangeInBounds_iff hd hrange]
  constructor
  · intro hx r hr
    have hkept := (h.regions r).symm.trans (hx.regions r)
    rw [and_congr_right_iff] at hkept
    exact not_iff_not.mp (hkept hr)
  · intro hgone
    have hitems {r : DmaMemoryRegion} (hr : r ∈ gone dma dmaAddr size) : r ∈ B.items dma.regions :=
      ((mem_gone_iff hd).mp hr).1
    have hremoved {r : DmaMemoryRegion} : r ∈ gone dma dmaAddr size ↔
        r ∈ B.items dma.regions ∧ r ∉ B.items dma'.regions := by
      rw [h.regions]
      exact ⟨fun hr => ⟨hitems hr, fun hk => hk.2 hr⟩, fun hr => not_not.mp fun hn => hr.2 ⟨hr.1, hn⟩⟩
    have hnone : (∀ r ∈ B.items dma.regions, ¬ r.Shares dmaAddr.toNat size.toNat) ↔
        gone dma dmaAddr size = [] := by
      rw [List.eq_nil_iff_forall_not_mem]
      exact ⟨fun hs r hr => hs r (hitems hr) ((hgone r (hitems hr)).mp hr),
        fun hg r hr hs => hg r ((hgone r hr).mpr hs)⟩
    have hcode : code = .enoent ↔ gone dma dmaAddr size = [] := by
      refine ⟨fun hc => ?_, fun hg => (h.none hg).1⟩
      by_contra hg
      rw [(h.some hg).1] at hc
      cases hc
    refine ⟨fun r => ?_, ?_, fun r => ?_, hcode.trans hnone.symm, fun hc => (h.none (hcode.mp hc)).2,
      ?_, fun hall => ?_⟩
    · rw [h.regions, and_congr_right_iff]
      exact fun hr => not_congr (hgone r hr)
    · rw [h.calls]
      split
      · exact gone_nodup dma dmaAddr size
      · exact List.nodup_nil
    · rw [h.calls, ← hremoved]
      cases unregisters <;> simp
    · rintro ⟨r, hr, hno⟩
      exact (h.some (List.ne_nil_of_mem (hremoved.mpr ⟨hr, hno⟩))).2
    · have hg : gone dma dmaAddr size = [] :=
        List.eq_nil_iff_forall_not_mem.mpr fun r hr => (hremoved.mp hr).2 (hall r (hitems hr))
      rw [(h.none hg).2]

/-- For every set of disjoint regions and every range within the address space, the function
returns, and it unmaps the range exactly when the range is in bounds. -/
theorem dmaControllerRemoveRegion_exact_iff (next : γ → γ) {dma : DmaController B γ}
    (hd : dma.Disjoint) {dmaAddr size : BitVec 64}
    (hrange : dmaAddr.toNat + size.toNat ≤ 2 ^ 64) (unregisters : Bool) :
    ∃ code dma', dmaControllerRemoveRegion B next dma dmaAddr size unregisters =
        some (code, dma') ∧
      (ExactUnmap next dma dmaAddr size unregisters code dma' ↔
        RangeInBounds dma dmaAddr size) := by
  obtain ⟨code, dma', hcall, h⟩ := dmaControllerRemoveRegion_spec next dma dmaAddr size unregisters
  exact ⟨code, dma', hcall, h.exact_iff hd hrange⟩

end Exact

/-! ## Concrete regions -/

/-- Regions kept in a sorted list, and a generation that counts. -/
abbrev ListController := DmaController (.sortedList DmaMemoryRegion.last) ℕ

def pageAt (base : BitVec 64) (h : base.toNat + 0x1000 ≤ 2 ^ 64) : DmaMemoryRegion :=
  ⟨base, 0x1000, none, -1, by decide, h, fun _ => rfl⟩

/-- Three pages, the first two next to each other. -/
def threePages : ListController :=
  ⟨⟨[pageAt 0x1000 (by decide), pageAt 0x2000 (by decide), pageAt 0x5000 (by decide)],
    by decide⟩, 0, []⟩

/-- The last page of the address space. -/
def topPage : ListController := ⟨⟨[pageAt 0xfffffffffffff000 (by decide)], by decide⟩, 0, []⟩

/-- A range over the second halves of two pages. -/
theorem dmaControllerRemoveRegion_exact_halves :
    ∃ code dma', dmaControllerRemoveRegion _ Nat.succ threePages 0x1800 0x1000 true =
        some (code, dma') ∧ ExactUnmap Nat.succ threePages 0x1800 0x1000 true code dma' := by
  have hd : threePages.Disjoint := by decide
  have hrange : (0x1800 : BitVec 64).toNat + (0x1000 : BitVec 64).toNat ≤ 2 ^ 64 := by decide
  obtain ⟨code, dma', hcall, hiff⟩ := dmaControllerRemoveRegion_exact_iff Nat.succ hd hrange true
  exact ⟨code, dma', hcall, hiff.mpr (.inl (by decide))⟩

/-- The last page cannot be unmapped, since its end wraps around to 0; and an empty range inside a
page removes that page. -/
theorem range_unmap_misses :
    (∃ dma', dmaControllerRemoveRegion _ Nat.succ topPage 0xfffffffffffff000 0x1000 true =
        some (.enoent, dma') ∧
      ¬ ExactUnmap Nat.succ topPage 0xfffffffffffff000 0x1000 true .enoent dma') ∧
    ∃ dma', dmaControllerRemoveRegion _ Nat.succ threePages 0x1800 0 true = some (.ok, dma') ∧
      ¬ ExactUnmap Nat.succ threePages 0x1800 0 true .ok dma' := by
  have htop : topPage.Disjoint := by decide
  have hthree : threePages.Disjoint := by decide
  constructor
  · obtain ⟨code, dma', hcall, h⟩ :=
      dmaControllerRemoveRegion_spec Nat.succ topPage 0xfffffffffffff000 0x1000 true
    have hgone : gone topPage 0xfffffffffffff000 0x1000 = [] := by decide
    obtain ⟨rfl, -⟩ := h.none hgone
    refine ⟨dma', hcall, fun hx => ?_⟩
    exact absurd ((h.exact_iff htop (by decide)).mp hx) (by decide)
  · obtain ⟨code, dma', hcall, h⟩ := dmaControllerRemoveRegion_spec Nat.succ threePages 0x1800 0 true
    have hgone : gone threePages 0x1800 0 ≠ [] := by decide
    obtain ⟨rfl, -⟩ := h.some hgone
    refine ⟨dma', hcall, fun hx => ?_⟩
    exact absurd ((h.exact_iff hthree (by decide)).mp hx) (by decide)

end VfuKvssd
