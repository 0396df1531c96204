import VfuKvssd.Dma.RangeUnmap

/-! # Sequences of unmaps

A client sends one unmap after another, or one coarse unmap where the regions were
mapped page by page. The function as it was before the patch removed a region only
when the range was that region; its lines are the ones that the patch deletes.
-/
namespace VfuKvssd
open Foundations

/-- The range of an unmap request. -/
structure UnmapRange where
  addr : BitVec 64
  size : BitVec 64
deriving DecidableEq

namespace UnmapRange

def Touches (u : UnmapRange) (r : DmaMemoryRegion) : Prop := r.Shares u.addr.toNat u.size.toNat

instance (u : UnmapRange) (r : DmaMemoryRegion) : Decidable (u.Touches r) :=
  decidable_of_iff _ DmaMemoryRegion.shares_iff.symm

def Covers (u : UnmapRange) (r : DmaMemoryRegion) : Prop :=
  u.addr.toNat ≤ r.iovBase.toNat ∧ r.last < u.addr.toNat + u.size.toNat

instance (u : UnmapRange) (r : DmaMemoryRegion) : Decidable (u.Covers r) :=
  inferInstanceAs (Decidable (_ ∧ _))

/-- The range lies in the address space and is in bounds for the regions. -/
def Fits {B : RegionTree} {γ : Type} (u : UnmapRange) (dma : DmaController B γ) : Prop :=
  u.addr.toNat + u.size.toNat ≤ 2 ^ 64 ∧ RangeInBounds dma u.addr u.size

instance {B : RegionTree} {γ : Type} (u : UnmapRange) (dma : DmaController B γ) :
    Decidable (u.Fits dma) := inferInstanceAs (Decidable (_ ∧ _))

end UnmapRange

def DmaMemoryRegion.range (r : DmaMemoryRegion) : UnmapRange := ⟨r.iovBase, r.iovLen⟩

section Serve
variable (B : RegionTree) {γ : Type} (incrementRegionsGeneration : γ → γ)

/-- `dma_controller_remove_region` before the patch: the first region that ends at or after the
start of the range must be the range. `none` is a failed assertion. -/
def dmaControllerRemoveRegionBefore (dma : DmaController B γ) (dmaAddr size : BitVec 64)
    (unregisters : Bool) : Option (UnmapCode × DmaController B γ) :=
  let i := B.iterInit dma.regions dmaAddr.toNat
  match B.iterGet i with
  | none => some (.enoent, dma)
  | some region =>
    if region.iovBase ≠ dmaAddr ∨ region.iovLen ≠ size then some (.enoent, dma)
    else if region.vaddr = none ∧ region.fd ≠ -1 then none
    else some (.ok, ⟨B.tree (B.iterRemove i), incrementRegionsGeneration dma.generation,
      dma.log ++ ((if unregisters then [.unregister region] else []) ++
        if region.vaddr ≠ none then [.unmap region] else [])⟩)

/-- A request after the other, with the codes returned. -/
def serve (remove : DmaController B γ → BitVec 64 → BitVec 64 →
    Option (UnmapCode × DmaController B γ)) (dma : DmaController B γ) :
    List UnmapRange → Option (List UnmapCode × DmaController B γ)
  | [] => some ([], dma)
  | u :: us =>
    (remove dma u.addr u.size).bind fun (code, dma₁) =>
      (serve remove dma₁ us).map fun (codes, dma₂) => (code :: codes, dma₂)

end Serve

section Tables
variable {B : RegionTree} {γ : Type} {dma dma' : DmaController B γ} {u : UnmapRange}

theorem DmaController.disjoint_iff : dma.Disjoint ↔ ∀ ⦃r⦄, r ∈ B.items dma.regions →
    ∀ ⦃s⦄, s ∈ B.items dma.regions → r ≠ s → r.Apart s := by
  have : Std.Symm DmaMemoryRegion.Apart := ⟨fun _ _ h => h.symm⟩
  exact ⟨fun h => h.forall, fun h => (B.nodup_items _).pairwise_of_forall_ne fun r hr s hs => h hr hs⟩

theorem DmaController.Disjoint.mono (h : dma.Disjoint)
    (hsub : ∀ r ∈ B.items dma'.regions, r ∈ B.items dma.regions) : dma'.Disjoint :=
  DmaController.disjoint_iff.mpr fun r hr s hs =>
    DmaController.disjoint_iff.mp h (hsub r hr) (hsub s hs)

theorem UnmapRange.Fits.mono (h : u.Fits dma)
    (hsub : ∀ r ∈ B.items dma'.regions, r ∈ B.items dma.regions) : u.Fits dma' := by
  refine ⟨h.1, ?_⟩
  have hin := h.2
  rw [RangeInBounds] at hin ⊢
  split_ifs at hin ⊢ with hz
  · exact fun r hr => hin r (hsub r hr)
  · exact hin.imp_right fun hall r hr => hall r (hsub r hr)

/-- What is gone is logged in the order of the addresses. -/
theorem dmaControllerRemoveRegion_log {next : γ → γ} {unregisters : Bool} {code : UnmapCode}
    {dmaAddr size : BitVec 64}
    (h : dmaControllerRemoveRegion B next dma dmaAddr size unregisters = some (code, dma')) :
    dma'.log = dma.log ++
      (gone dma dmaAddr size).flatMap (regionEvents unregisters dmaAddr (dmaAddr + size)) := by
  obtain ⟨j, hloop, -⟩ := removeLoop_spec B unregisters dmaAddr (dmaAddr + size)
    (B.iterInit dma.regions dmaAddr.toNat) 0 dma.log
  simp only [dmaControllerRemoveRegion, hloop, Option.map_some, Option.some.injEq] at h
  split at h <;> cases h <;> rfl

end Tables

/-! ## One unmap after another -/

/-- What a sequence of unmaps leaves: the regions that no range touches, each of the others
unregistered once, and a request that succeeds exactly when it is the first to touch some region. -/
structure Unmaps {B : RegionTree} {γ : Type} (next : γ → γ) (unregisters : Bool)
    (dma : DmaController B γ) (us : List UnmapRange) (codes : List UnmapCode)
    (dma' : DmaController B γ) : Prop where
  regions : ∀ r, r ∈ B.items dma'.regions ↔
    r ∈ B.items dma.regions ∧ ∀ u ∈ us, ¬ u.Touches r
  calls : ∃ es, dma'.log = dma.log ++ es ∧ (unregistered es).Nodup ∧ ∀ r, r ∈ unregistered es ↔
    unregisters = true ∧ r ∈ B.items dma.regions ∧ r ∉ B.items dma'.regions
  length : codes.length = us.length
  answers : ∀ k u, us[k]? = some u → (codes[k]? = some .ok ↔
    ∃ r ∈ B.items dma.regions, u.Touches r ∧ ∀ v ∈ us.take k, ¬ v.Touches r)
  generation : dma'.generation = next^[codes.count .ok] dma.generation

section Runs
variable {B : RegionTree} {γ : Type} {next : γ → γ} {unregisters : Bool}
  {dma dma₁ dma₂ : DmaController B γ} {u : UnmapRange} {us : List UnmapRange} {code : UnmapCode}
  {codes : List UnmapCode}

theorem ExactUnmap.succeeds_iff
    (h : ExactUnmap next dma u.addr u.size unregisters code dma₁) :
    code = .ok ↔ ∃ r ∈ B.items dma.regions, u.Touches r := by
  have hno : code = .ok ↔ ¬ code = .enoent := by cases code <;> simp
  rw [hno, h.enoent]
  push Not
  rfl

theorem ExactUnmap.generation_eq (h : ExactUnmap next dma u.addr u.size unregisters code dma₁) :
    dma₁.generation = next^[[code].count .ok] dma.generation := by
  cases code with
  | enoent => rw [h.unchanged rfl]; rfl
  | ok =>
    obtain ⟨r, hr, ht⟩ := h.succeeds_iff.mp rfl
    exact h.advances ⟨r, hr, fun hr' => ((h.regions r).mp hr').2 ht⟩

theorem Unmaps.calls_cons {es fs : List DmaEvent} (hes : dma₁.log = dma.log ++ es)
    (h : ExactUnmap next dma u.addr u.size unregisters code dma₁)
    (hs : Unmaps next unregisters dma₁ us codes dma₂) (honce : (unregistered fs).Nodup)
    (hcalls : ∀ r, r ∈ unregistered fs ↔
      unregisters = true ∧ r ∈ B.items dma₁.regions ∧ r ∉ B.items dma₂.regions) :
    (unregistered (es ++ fs)).Nodup ∧ ∀ r, r ∈ unregistered (es ++ fs) ↔
      unregisters = true ∧ r ∈ B.items dma.regions ∧ r ∉ B.items dma₂.regions := by
  have hes' : dma₁.log.drop dma.log.length = es := by rw [hes, List.drop_left]
  have hfirst := h.calls
  have hfirstOnce := h.once
  rw [hes'] at hfirst hfirstOnce
  rw [show unregistered (es ++ fs) = unregistered es ++ unregistered fs from List.filterMap_append]
  constructor
  · refine List.nodup_append'.mpr ⟨hfirstOnce, honce, fun r hr hr' => ?_⟩
    exact ((hfirst r).mp hr).2.2 ((hcalls r).mp hr').2.1
  · intro r
    rw [List.mem_append, hfirst, hcalls]
    by_cases hr : r ∈ B.items dma₁.regions
    · have hold := ((h.regions r).mp hr).1
      tauto
    · have hgone : r ∉ B.items dma₂.regions := fun hr' => hr ((hs.regions r).mp hr').1
      tauto

theorem Unmaps.cons (hlog : ∃ es, dma₁.log = dma.log ++ es)
    (h : ExactUnmap next dma u.addr u.size unregisters code dma₁)
    (hs : Unmaps next unregisters dma₁ us codes dma₂) :
    Unmaps next unregisters dma (u :: us) (code :: codes) dma₂ where
  regions r := by
    rw [hs.regions, h.regions, List.forall_mem_cons, and_assoc]
    rfl
  calls := by
    obtain ⟨es, hes⟩ := hlog
    obtain ⟨fs, hfs, honce, hcalls⟩ := hs.calls
    exact ⟨es ++ fs, by rw [hfs, hes, List.append_assoc], Unmaps.calls_cons hes h hs honce hcalls⟩
  length := congrArg Nat.succ hs.length
  answers k v hv := by
    cases k with
    | zero =>
      obtain rfl := Option.some.inj hv
      simpa using h.succeeds_iff
    | succ k =>
      refine (hs.answers k v hv).trans (exists_congr fun r => ?_)
      rw [h.regions, List.take_succ_cons, List.forall_mem_cons]
      change (_ ∧ ¬ u.Touches r) ∧ _ ↔ _
      tauto
  generation := by
    rw [hs.generation, h.generation_eq, ← Function.iterate_add_apply, ← List.count_append]
    rw [List.perm_append_comm.count_eq]
    rfl

/-- From disjoint regions, every sequence of unmaps whose ranges fit is served. -/
theorem serve_spec (next : γ → γ) (unregisters : Bool) (hd : dma.Disjoint)
    (hus : ∀ u ∈ us, u.Fits dma) :
    ∃ codes dma', serve B (dmaControllerRemoveRegion B next · · · unregisters) dma us =
        some (codes, dma') ∧ Unmaps next unregisters dma us codes dma' := by
  induction us generalizing dma with
  | nil =>
    refine ⟨[], dma, rfl, fun r => by simp, ⟨[], by simp, List.nodup_nil, fun r => ?_⟩, rfl,
      fun k u hu => by simp at hu, rfl⟩
    simp [unregistered]
  | cons u us ih =>
    obtain ⟨hu, hrest⟩ := List.forall_mem_cons.mp hus
    obtain ⟨code, dma₁, hcall, hun⟩ :=
      dmaControllerRemoveRegion_spec next dma u.addr u.size unregisters
    have hexact := (hun.exact_iff hd hu.1).mpr hu.2
    have hsub (r : DmaMemoryRegion) (hr : r ∈ B.items dma₁.regions) : r ∈ B.items dma.regions :=
      ((hun.regions r).mp hr).1
    obtain ⟨codes, dma', hserve, hs⟩ := ih (hd.mono hsub) fun v hv => (hrest v hv).mono hsub
    refine ⟨code :: codes, dma', ?_, .cons ⟨_, dmaControllerRemoveRegion_log hcall⟩ hexact hs⟩
    simp only [serve, hcall, hserve, Option.bind_some, Option.map_some]

/-- In whatever order the requests come, the same regions are left and the same regions are handed
to `dma_unregister`. -/
theorem serve_any_order (next : γ → γ) (unregisters : Bool) (hd : dma.Disjoint)
    (hus : ∀ u ∈ us, u.Fits dma) :
    ∃ codes dma' es, serve B (dmaControllerRemoveRegion B next · · · unregisters) dma us =
        some (codes, dma') ∧ Unmaps next unregisters dma us codes dma' ∧
      dma'.log = dma.log ++ es ∧
      ∀ vs, vs.Perm us → ∃ codes' dma'' fs,
        serve B (dmaControllerRemoveRegion B next · · · unregisters) dma vs =
            some (codes', dma'') ∧
          B.items dma''.regions = B.items dma'.regions ∧ dma''.log = dma.log ++ fs ∧
          (unregistered fs).Perm (unregistered es) := by
  obtain ⟨codes, dma', hserve, h⟩ := serve_spec next unregisters hd hus
  obtain ⟨es, hes, hesOnce, hesCalls⟩ := h.calls
  refine ⟨codes, dma', es, hserve, h, hes, fun vs hp => ?_⟩
  obtain ⟨codes', dma'', hserve', h'⟩ := serve_spec next unregisters hd fun v hv =>
    hus v (hp.mem_iff.mp hv)
  obtain ⟨fs, hfs, hfsOnce, hfsCalls⟩ := h'.calls
  have hsame (r : DmaMemoryRegion) : r ∈ B.items dma''.regions ↔ r ∈ B.items dma'.regions := by
    rw [h'.regions, h.regions]
    simp only [hp.mem_iff]
  refine ⟨codes', dma'', fs, hserve', B.items_ext hsame, hfs, ?_⟩
  refine (List.perm_ext_iff_of_nodup hfsOnce hesOnce).mpr fun r => ?_
  rw [hfsCalls, hesCalls, hsame]

/-- Unmaps of the first two pages and of the second, in both orders. -/
theorem serve_any_order_twice :
    ∃ codes dma' es, serve _ (dmaControllerRemoveRegion _ Nat.succ · · · true) threePages
        [⟨0x1000, 0x2000⟩, ⟨0x2000, 0x1000⟩] = some (codes, dma') ∧
      Unmaps Nat.succ true threePages [⟨0x1000, 0x2000⟩, ⟨0x2000, 0x1000⟩] codes dma' ∧
      dma'.log = threePages.log ++ es ∧
      ∃ codes' dma'' fs, serve _ (dmaControllerRemoveRegion _ Nat.succ · · · true) threePages
          [⟨0x2000, 0x1000⟩, ⟨0x1000, 0x2000⟩] = some (codes', dma'') ∧
        (CursorTree.sortedList DmaMemoryRegion.last).items dma''.regions =
          (CursorTree.sortedList DmaMemoryRegion.last).items dma'.regions ∧
        dma''.log = threePages.log ++ fs ∧ (unregistered fs).Perm (unregistered es) := by
  have hd : threePages.Disjoint := by decide
  have hus : ∀ u ∈ [(⟨0x1000, 0x2000⟩ : UnmapRange), ⟨0x2000, 0x1000⟩], u.Fits threePages := by
    decide
  obtain ⟨codes, dma', es, hserve, h, hes, hother⟩ := serve_any_order Nat.succ true hd hus
  exact ⟨codes, dma', es, hserve, h, hes, hother _ (List.Perm.swap _ _ _)⟩

end Runs

/-! ## One coarse unmap and one unmap for each region -/

section Coalesce
variable {B : RegionTree} {γ : Type} {next : γ → γ} {unregisters : Bool}
  {dma dma' : DmaController B γ} {r : DmaMemoryRegion} {u : UnmapRange}

/-- What is logged for a region that is removed without a warning. -/
def closing (unregisters : Bool) (r : DmaMemoryRegion) : List DmaEvent :=
  (if unregisters then [.unregister r] else []) ++ if r.vaddr ≠ none then [.unmap r] else []

theorem ahead_init_self (hd : dma.Disjoint) (hr : r ∈ B.items dma.regions) :
    ∃ rs, B.ahead (B.iterInit dma.regions r.iovBase.toNat) = r :: rs := by
  have hne := r.nonempty
  have hmem : r ∈ B.ahead (B.iterInit dma.regions r.iovBase.toNat) := by
    refine B.mem_ahead_init.mpr ⟨hr, ?_⟩
    rw [DmaMemoryRegion.last]
    omega
  have hsorted : (B.ahead (B.iterInit dma.regions r.iovBase.toNat)).Pairwise fun s t =>
      s.last < t.last := by
    rw [B.ahead_init]
    exact (B.increasing _).sublist (List.dropWhile_sublist _)
  cases hahead : B.ahead (B.iterInit dma.regions r.iovBase.toNat) with
  | nil => simp [hahead] at hmem
  | cons s rs =>
    -- a region before this one at the cursor would end inside it
    have hs : s ∈ B.ahead (B.iterInit dma.regions r.iovBase.toNat) := by simp [hahead]
    obtain ⟨hs, hlast⟩ := B.mem_ahead_init.mp hs
    rw [hahead] at hmem hsorted
    rcases List.mem_cons.mp hmem with rfl | hrest
    · exact ⟨rs, rfl⟩
    · have hlt := List.rel_of_pairwise_cons hsorted hrest
      have hneq : s ≠ r := fun he => by rw [he] at hlt; exact lt_irrefl _ hlt
      have hap := DmaController.disjoint_iff.mp hd hs hr hneq
      simp only [DmaMemoryRegion.Apart, DmaMemoryRegion.last] at hap hlt hlast
      omega

/-- Before the patch, an unmap of a region removes that region. -/
theorem removeRegionBefore_self (next : γ → γ) (unregisters : Bool) (hd : dma.Disjoint) (hr : r ∈ B.items dma.regions) :
    ∃ dma', dmaControllerRemoveRegionBefore B next dma r.iovBase r.iovLen unregisters =
        some (.ok, dma') ∧
      (∀ s, s ∈ B.items dma'.regions ↔ s ∈ B.items dma.regions ∧ s ≠ r) ∧
      dma'.log = dma.log ++ closing unregisters r ∧
      dma'.generation = next dma.generation := by
  obtain ⟨rs, hahead⟩ := ahead_init_self hd hr
  have hget : B.iterGet (B.iterInit dma.regions r.iovBase.toNat) = some r := by
    rw [B.get_eq, hahead, List.head?_cons]
  have hassert : ¬ (r.vaddr = none ∧ r.fd ≠ -1) := fun h => h.2 (r.unmapped h.1)
  have hitems : B.items dma.regions =
      B.behind (B.iterInit dma.regions r.iovBase.toNat) ++ r :: rs := by
    have h := B.items_tree (B.iterInit dma.regions r.iovBase.toNat)
    rwa [B.tree_init, hahead] at h
  refine ⟨⟨B.tree (B.iterRemove (B.iterInit dma.regions r.iovBase.toNat)), next dma.generation,
    dma.log ++ closing unregisters r⟩, ?_, fun s => ?_, rfl, rfl⟩
  · simp only [dmaControllerRemoveRegionBefore, hget, ne_eq, not_true_eq_false, or_self, if_false]
    rw [if_neg hassert]
    rfl
  · have hnodup := B.nodup_items dma.regions
    rw [hitems, List.nodup_middle, List.nodup_cons] at hnodup
    rw [B.items_tree, B.behind_remove hahead, B.ahead_remove hahead, hitems]
    constructor
    · intro hs
      refine ⟨?_, fun he => hnodup.1 (he ▸ hs)⟩
      simp only [List.mem_append, List.mem_cons] at hs ⊢
      tauto
    · simp only [List.mem_append, List.mem_cons]
      tauto

/-- Before the patch, any other unmap is refused. -/
theorem removeRegionBefore_refused (hno : ∀ r ∈ B.items dma.regions, r.range ≠ u) :
    dmaControllerRemoveRegionBefore B next dma u.addr u.size unregisters = some (.enoent, dma) := by
  rw [dmaControllerRemoveRegionBefore]
  split
  · rfl
  · next r hget =>
    obtain ⟨rs, hahead⟩ := B.get_some hget
    have hr : r ∈ B.ahead (B.iterInit dma.regions u.addr.toNat) := by simp [hahead]
    have hne := hno r (B.mem_ahead_init.mp hr).1
    rw [if_pos]
    by_contra h
    push Not at h
    exact hne (by rw [DmaMemoryRegion.range, h.1, h.2])

/-- Before the patch, an unmap for each of some regions removes these regions. -/
theorem serve_before (next : γ → γ) (unregisters : Bool) (hd : dma.Disjoint)
    {rs : List DmaMemoryRegion} (hnodup : rs.Nodup) (hrs : ∀ r ∈ rs, r ∈ B.items dma.regions) :
    ∃ dma', serve B (dmaControllerRemoveRegionBefore B next · · · unregisters) dma
        (rs.map DmaMemoryRegion.range) = some (List.replicate rs.length .ok, dma') ∧
      (∀ s, s ∈ B.items dma'.regions ↔ s ∈ B.items dma.regions ∧ s ∉ rs) ∧
      dma'.log = dma.log ++ rs.flatMap (closing unregisters) ∧
      dma'.generation = next^[rs.length] dma.generation := by
  induction rs generalizing dma with
  | nil => exact ⟨dma, rfl, by simp, by simp, rfl⟩
  | cons r rs ih =>
    obtain ⟨hr, hnodup⟩ := List.nodup_cons.mp hnodup
    obtain ⟨hmem, hrest⟩ := List.forall_mem_cons.mp hrs
    obtain ⟨dma₁, hcall, hitems, hlog, hgen⟩ :=
      removeRegionBefore_self next unregisters hd hmem
    obtain ⟨dma₂, hserve, hitems', hlog', hgen'⟩ :=
      ih (hd.mono fun s hs => ((hitems s).mp hs).1) hnodup fun s hs =>
        (hitems s).mpr ⟨hrest s hs, fun he => hr (he ▸ hs)⟩
    refine ⟨dma₂, ?_, fun s => ?_, ?_, ?_⟩
    · rw [List.map_cons, serve]
      simp only [DmaMemoryRegion.range] at hserve ⊢
      simp only [hcall, hserve, Option.bind_some, Option.map_some, List.length_cons,
        List.replicate_succ]
    · rw [hitems', hitems, List.mem_cons]
      tauto
    · rw [hlog', hlog, List.flatMap_cons, List.append_assoc]
    · rw [hgen', hgen, List.length_cons, Function.iterate_succ_apply]

theorem regionEvents_covered (hend : r.iovBase < u.addr + u.size) (hc : u.Covers r) :
    regionEvents unregisters u.addr (u.addr + u.size) r = closing unregisters r := by
  have hsum : (u.addr + u.size).toNat = (u.addr.toNat + u.size.toNat) % 2 ^ 64 := BitVec.toNat_add ..
  have hsum' : (r.iovBase + r.iovLen).toNat = (r.iovBase.toNat + r.iovLen.toNat) % 2 ^ 64 :=
    BitVec.toNat_add ..
  obtain ⟨hstart, hlast⟩ := hc
  have hne := r.nonempty
  have hlt := r.iovBase.isLt
  rw [BitVec.lt_def, hsum] at hend
  rw [DmaMemoryRegion.last] at hlast
  have hno : ¬ (r.iovBase < u.addr ∨ u.addr + u.size < r.iovBase + r.iovLen) := by
    rw [BitVec.lt_def, BitVec.lt_def, hsum, hsum']
    omega
  simp only [regionEvents, if_neg hno, List.nil_append, closing]

theorem gone_eq_filter (hd : dma.Disjoint) (hu : u.Fits dma) :
    gone dma u.addr u.size = (B.items dma.regions).filter (u.Touches ·) := by
  have hsorted : (gone dma u.addr u.size).Pairwise fun r s => r.last < s.last := by
    rw [gone, B.ahead_init]
    exact (B.increasing _).sublist
      ((List.takeWhile_sublist _).trans (List.dropWhile_sublist _))
  refine eq_of_increasing hsorted ((B.increasing _).sublist List.filter_sublist) fun r => ?_
  rw [List.mem_filter, decide_eq_true_iff]
  have hiff := (rangeInBounds_iff hd hu.1).mp hu.2 r
  exact ⟨fun hr => ⟨((mem_gone_iff hd).mp hr).1, (hiff ((mem_gone_iff hd).mp hr).1).mp hr⟩,
    fun hr => (hiff hr.1).mpr hr.2⟩

/-- A request fails exactly when nothing is removed. -/
theorem Unmapped.enoent_iff {dmaAddr size : BitVec 64} {code : UnmapCode}
    (h : Unmapped next dma dmaAddr size unregisters code dma') :
    code = .enoent ↔ gone dma dmaAddr size = [] := by
  refine ⟨fun hc => ?_, fun hg => (h.none hg).1⟩
  by_contra hg
  rw [(h.some hg).1] at hc
  cases hc

theorem log_covered {code : UnmapCode} (hd : dma.Disjoint) (hu : u.Fits dma)
    (hcut : ∀ r ∈ B.items dma.regions, u.Touches r → u.Covers r)
    (hcall : dmaControllerRemoveRegion B next dma u.addr u.size unregisters = some (code, dma')) :
    dma'.log = dma.log ++ (gone dma u.addr u.size).flatMap (closing unregisters) := by
  rw [dmaControllerRemoveRegion_log hcall]
  congr 1
  refine List.flatMap_congr fun r hr => ?_
  have hin := (mem_gone_iff hd).mp hr
  rw [gone_eq_filter hd hu, List.mem_filter, decide_eq_true_iff] at hr
  exact regionEvents_covered hin.2.2 (hcut r hr.1 hr.2)

theorem filter_touches_range (hd : dma.Disjoint) (hr : r ∈ B.items dma.regions) :
    (B.items dma.regions).filter (r.range.Touches ·) = [r] := by
  have hne := r.nonempty
  have hsorted := (B.increasing dma.regions).sublist
    (List.filter_sublist (p := fun s => decide (r.range.Touches s)))
  refine eq_of_increasing hsorted (List.pairwise_singleton _ _) fun s => ?_
  rw [List.mem_filter, decide_eq_true_iff, List.mem_singleton]
  rw [UnmapRange.Touches, DmaMemoryRegion.shares_iff]
  constructor
  · rintro ⟨hs, -, hlast, hbase⟩
    by_contra hneq
    have hap := DmaController.disjoint_iff.mp hd hs hr hneq
    simp only [DmaMemoryRegion.range] at hlast hbase
    simp only [DmaMemoryRegion.Apart, DmaMemoryRegion.last] at hap hlast
    omega
  · rintro rfl
    refine ⟨hr, hne, ?_, ?_⟩ <;> simp only [DmaMemoryRegion.range, DmaMemoryRegion.last] <;> omega

/-- An unmap of a range that cuts no region removes what one unmap for each region in it removed
before the patch, with the same calls; for the range of a region nothing is changed by the patch,
and for every other range the unmap was refused. -/
theorem dmaControllerRemoveRegion_coalesces (next : γ → γ) (unregisters : Bool)
    (hd : dma.Disjoint) (hu : u.Fits dma)
    (hcut : ∀ r ∈ B.items dma.regions, u.Touches r → u.Covers r) :
    ∃ code dma' codes dma'',
      dmaControllerRemoveRegion B next dma u.addr u.size unregisters = some (code, dma') ∧
      serve B (dmaControllerRemoveRegionBefore B next · · · unregisters) dma
          (((B.items dma.regions).filter (u.Touches ·)).map DmaMemoryRegion.range) =
        some (codes, dma'') ∧
      (∀ c ∈ codes, c = .ok) ∧ (code = .enoent ↔ codes = []) ∧
      B.items dma'.regions = B.items dma''.regions ∧ dma'.log = dma''.log ∧
      if ∃ r ∈ B.items dma.regions, r.range = u then
        dmaControllerRemoveRegionBefore B next dma u.addr u.size unregisters = some (code, dma'') ∧
          dma'.generation = dma''.generation
      else dmaControllerRemoveRegionBefore B next dma u.addr u.size unregisters =
        some (.enoent, dma) := by
  obtain ⟨code, dma', hcall, hun⟩ :=
    dmaControllerRemoveRegion_spec next dma u.addr u.size unregisters
  have hgone := gone_eq_filter hd hu
  obtain ⟨dma'', hserve, hitems, hlog, hgen⟩ := serve_before next unregisters hd
    (gone_nodup dma u.addr u.size) fun r hr => ((mem_gone_iff hd).mp hr).1
  rw [hgone] at hserve
  refine ⟨code, dma', _, dma'', hcall, hserve, fun c => List.eq_of_mem_replicate, ?_, ?_, ?_, ?_⟩
  · rw [← hgone, List.replicate_eq_nil_iff, List.length_eq_zero_iff]
    exact hun.enoent_iff
  · refine B.items_ext fun r => ?_
    rw [hun.regions, hitems]
  · rw [log_covered hd hu hcut hcall, hlog]
  · split_ifs with hown
    · obtain ⟨r, hr, rfl⟩ := hown
      have hone := filter_touches_range hd hr
      rw [hone, List.map_singleton] at hserve
      rw [hone] at hgone
      have hok := hun.some (by rw [hgone]; simp)
      obtain ⟨dma₁, hbefore, -⟩ := removeRegionBefore_self next unregisters hd hr
      simp only [serve, DmaMemoryRegion.range] at hserve
      simp only [hbefore, Option.bind_some, Option.map_some] at hserve
      cases hserve
      refine ⟨by rw [hok.1]; exact hbefore, ?_⟩
      rw [hok.2, hgen, hgone]
      rfl
    · push Not at hown
      exact removeRegionBefore_refused hown

/-- The first two pages at once. -/
theorem dmaControllerRemoveRegion_coalesces_two :
    ∃ code dma' codes dma'',
      dmaControllerRemoveRegion _ Nat.succ threePages 0x1000 0x2000 true = some (code, dma') ∧
      serve _ (dmaControllerRemoveRegionBefore _ Nat.succ · · · true) threePages
        [⟨0x1000, 0x1000⟩, ⟨0x2000, 0x1000⟩] = some (codes, dma'') ∧
      (∀ c ∈ codes, c = .ok) ∧ (code = .enoent ↔ codes = []) ∧
      (CursorTree.sortedList DmaMemoryRegion.last).items dma'.regions =
        (CursorTree.sortedList DmaMemoryRegion.last).items dma''.regions ∧
      dma'.log = dma''.log ∧
      dmaControllerRemoveRegionBefore _ Nat.succ threePages 0x1000 0x2000 true =
        some (.enoent, threePages) := by
  have hd : threePages.Disjoint := by decide
  have hu : (⟨0x1000, 0x2000⟩ : UnmapRange).Fits threePages := by decide
  obtain ⟨code, dma', codes, dma'', hcall, hserve, hok, hcode, hitems, hlog, hif⟩ :=
    dmaControllerRemoveRegion_coalesces Nat.succ true hd hu (by decide)
  rw [if_neg (by decide)] at hif
  exact ⟨code, dma', codes, dma'', hcall, hserve, hok, hcode, hitems, hlog, hif⟩

end Coalesce
end VfuKvssd
