import VfuKvssd.Controller.Engine

/-! # Transfers within the advertised limit

Identify Controller advertises 2^MDTS pages of 4096 bytes. A buffer of that
length which does not start on a page boundary touches one page more, and its
second PRP is then the address of a PRP list.
-/
namespace VfuKvssd
open Foundations

/-- The largest transfer that an Identify Controller page advertises; CAP.MPSMIN is 4096. -/
def mdtsBytes (page : IdPage) : ℕ := 2 ^ (page 0x4d).toNat * kvssdPageSize

/-! ## What PRPs describe -/

def prpEntry (mem : Memory) (a : Addr) : Addr := BitVec.ofNat 64 (leNat ((span a 8).map mem))

/-- The entries of a PRP list at an address. The last place of a page names the next part of the
list when more than one entry is still to come. -/
def prpList (mem : Memory) : Addr → ℕ → List Addr
  | _, 0 => []
  | a, k + 1 =>
    let a := if k ≠ 0 ∧ a.toNat % kvssdPageSize = kvssdPageSize - 8 then prpEntry mem a else a
    prpEntry mem a :: prpList mem (a + 8) k

def prpRest (prp1 : Addr) (len : ℕ) : ℕ := len - prpFirst prp1 len

def prpPages (mem : Memory) (prp1 prp2 : Addr) (len : ℕ) : List Addr :=
  prpList mem prp2 ((prpRest prp1 len + kvssdPageSize - 1) / kvssdPageSize)

/-- The guest addresses of a buffer, in order: up to a page through the second PRP, and more than
that through a PRP list. -/
def prpBuffer (mem : Memory) (prp1 prp2 : Addr) (len : ℕ) : List Addr :=
  span prp1 (prpFirst prp1 len) ++
    if prpRest prp1 len ≤ kvssdPageSize then span prp2 (prpRest prp1 len)
    else ((prpPages mem prp1 prp2 len).flatMap fun p => span p kvssdPageSize).take (prpRest prp1 len)

/-- The second PRP is a page address, or the address of a list of page addresses. -/
structure ValidPrps (mem : Memory) (prp1 prp2 : Addr) (len : ℕ) : Prop where
  page : 0 < prpRest prp1 len → prpRest prp1 len ≤ kvssdPageSize →
    prp2.toNat % kvssdPageSize = 0
  list : kvssdPageSize < prpRest prp1 len → prp2.toNat % 8 = 0 ∧
    ∀ p ∈ prpPages mem prp1 prp2 len, p.toNat % kvssdPageSize = 0

/-- Every page with an address in the list is mapped: a range within it is one entry, and such
entries can be mapped together. -/
structure Vfu.MapsPages (v : Vfu) (prot : Prot) (as : List Addr) : Prop where
  entry : ∀ {a n maxSg}, a ∈ as → 0 < n → a.toNat % kvssdPageSize + n ≤ kvssdPageSize →
    0 < maxSg → v.addrToSgl a n maxSg prot = some [⟨a, n⟩]
  get : ∀ {sgl : List Sg}, (∀ s ∈ sgl, s.base ∈ as ∧
    s.base.toNat % kvssdPageSize + s.len ≤ kvssdPageSize) → v.sglGet sgl = true

/-- The transfer returns 0 and has moved the whole buffer. -/
def MovesWhole (w : World) (sglOk : Bool) (prp1 prp2 : Addr) (buf : List Byte) (toHost : Bool) :
    Prop :=
  ∃ buf' w', nvmePrpXfer w sglOk prp1 prp2 buf toHost = (true, buf', w') ∧
    Moved toHost (prpBuffer w.mem prp1 prp2 buf.length) buf buf' w w'

/-! ## The limit that is enforced -/

/-- At most one page is left to the second PRP exactly when the buffer lies in two pages. -/
theorem prpRest_le_page_iff (prp1 : Addr) (len : ℕ) :
    prpRest prp1 len ≤ kvssdPageSize ↔
      prp1.toNat % kvssdPageSize + len ≤ 2 * kvssdPageSize := by
  have hoff : prp1.toNat % 4096 < 4096 := Nat.mod_lt _ (by decide)
  rw [prpRest, prpFirst_eq, kvssdPageSize]
  omega

theorem prpBuffer_two {mem : Memory} {prp1 prp2 : Addr} {len : ℕ}
    (h : prpRest prp1 len ≤ kvssdPageSize) :
    prpBuffer mem prp1 prp2 len = prpAddrs prp1 prp2 len := by
  rw [prpBuffer, if_pos h]
  rfl

theorem mem_span_self {a : Addr} {n : ℕ} (h : 0 < n) : a ∈ span a n :=
  mem_span.mpr ⟨0, h, by simp⟩

theorem nvmePrpXfer_two {w : World} {prp1 prp2 : Addr} {buf : List Byte} {toHost : Bool}
    (hpos : 0 < buf.length) (hrest : prpRest prp1 buf.length ≤ kvssdPageSize)
    (hv : ValidPrps w.mem prp1 prp2 buf.length)
    (hm : w.vfu.MapsPages (xferProt toHost) (prpBuffer w.mem prp1 prp2 buf.length)) :
    (nvmePrpXfer w true prp1 prp2 buf toHost).1 = true := by
  have hoff : prp1.toNat % kvssdPageSize < kvssdPageSize := Nat.mod_lt _ (by decide)
  have hfirst : 0 < prpFirst prp1 buf.length := by
    rw [prpFirst_eq]
    omega
  have hin : prp1.toNat % kvssdPageSize + prpFirst prp1 buf.length ≤ kvssdPageSize := by
    have h := prpFirst_le_page prp1 buf.length
    omega
  rw [prpBuffer_two hrest, prpAddrs] at hm
  have hprp1 : prp1 ∈ span prp1 (prpFirst prp1 buf.length) ++
      span prp2 (buf.length - prpFirst prp1 buf.length) :=
    List.mem_append_left _ (mem_span_self hfirst)
  have hle := prpFirst_le prp1 buf.length
  rw [nvmePrpXfer, if_neg (by omega)]
  simp only [Bool.not_true, Bool.false_eq_true, if_false,
    hm.entry hprp1 hfirst hin (show 0 < nvmeMaxSg by decide)]
  by_cases hz : buf.length - prpFirst prp1 buf.length = 0
  · rw [if_pos hz, nvmeSglCopy_ok w toHost (by simp) (by simp [nvmeMaxSg])
      (by simp [Sg.addrs]; omega)]
    apply hm.get
    rintro s hs
    rw [List.mem_singleton.mp hs]
    exact ⟨hprp1, hin⟩
  · have hpage : prp2.toNat % kvssdPageSize = 0 := hv.page (Nat.pos_of_ne_zero hz) hrest
    have hprp2 : prp2 ∈ span prp1 (prpFirst prp1 buf.length) ++
        span prp2 (buf.length - prpFirst prp1 buf.length) :=
      List.mem_append_right _ (mem_span_self (Nat.pos_of_ne_zero hz))
    have hin₂ : prp2.toNat % kvssdPageSize + (buf.length - prpFirst prp1 buf.length) ≤
        kvssdPageSize := by
      rw [hpage, Nat.zero_add]
      exact hrest
    rw [if_neg hz, if_neg (Nat.not_lt.mpr (show buf.length - prpFirst prp1 buf.length ≤ _ from hrest))]
    simp only [hm.entry hprp2 (Nat.pos_of_ne_zero hz) hin₂ (show 0 < nvmeMaxSg - 1 by decide),
      List.length_singleton]
    rw [nvmeSglCopy_ok w toHost (by simp) (by simp [nvmeMaxSg]) (by simp [Sg.addrs]; omega)]
    apply hm.get
    intro s hs
    rcases List.mem_pair.mp hs with rfl | rfl
    · exact ⟨hprp1, hin⟩
    · exact ⟨hprp2, hin₂⟩

theorem nvmePrpXfer_noList {w : World} {prp1 prp2 : Addr} {buf : List Byte} {toHost : Bool}
    (hpos : 0 < buf.length) : (nvmePrpXfer w false prp1 prp2 buf toHost).1 = false := by
  rw [nvmePrpXfer, if_neg (by omega)]
  rfl

/-- A transfer over valid PRPs and mapped pages moves the whole buffer exactly when its scatter list
is allocated and the advertised maximum covers it from the start of its first page on. -/
theorem nvmePrpXfer_supported_iff (w : World) (sglOk : Bool) (prp1 prp2 : Addr) (buf : List Byte)
    (toHost : Bool) (hpos : 1 ≤ buf.length)
    (hv : ValidPrps w.mem prp1 prp2 buf.length)
    (hm : w.vfu.MapsPages (xferProt toHost) (prpBuffer w.mem prp1 prp2 buf.length)) :
    MovesWhole w sglOk prp1 prp2 buf toHost ↔
      sglOk = true ∧ prp1.toNat % kvssdPageSize + buf.length ≤ mdtsBytes nvmeFillIdCtrl := by
  have hlimit : mdtsBytes nvmeFillIdCtrl = 2 * kvssdPageSize := by decide +kernel
  obtain ⟨hout, hpages⟩ := nvmePrpXfer_outcome w sglOk prp1 prp2 buf toHost
  rw [hlimit, ← prpRest_le_page_iff]
  constructor
  · rintro ⟨buf', w', hx, -⟩
    rw [hx] at hpages
    refine ⟨?_, hpages rfl⟩
    cases sglOk with
    | true => rfl
    | false =>
      have hno : (nvmePrpXfer w false prp1 prp2 buf toHost).1 = false := nvmePrpXfer_noList hpos
      rw [hx] at hno
      cases hno
  · rintro ⟨rfl, hrest⟩
    have hok := nvmePrpXfer_two hpos hrest hv hm
    rcases hx : nvmePrpXfer w true prp1 prp2 buf toHost with ⟨ok, buf', w'⟩
    rw [hx] at hok hout
    obtain rfl : ok = true := hok
    cases hout with
    | done hmoved => exact ⟨buf', w', hx, by rwa [prpBuffer_two hrest]⟩

theorem Vfu.flat_mapsPages (prot : Prot) (as : List Addr) : Vfu.flat.MapsPages prot as :=
  ⟨fun _ _ _ hmax => if_pos hmax, fun _ => rfl⟩

/-- The advertised maximum from a page boundary on. -/
theorem nvmePrpXfer_supported_aligned :
    MovesWhole ⟨.flat, fun _ => 0, []⟩ true 0x1000 0x3000
      (List.replicate (mdtsBytes nvmeFillIdCtrl) 7) true := by
  have hlimit : mdtsBytes nvmeFillIdCtrl = 8192 := by decide +kernel
  have hrest : prpRest 0x1000 (List.replicate (mdtsBytes nvmeFillIdCtrl) (7 : Byte)).length =
      kvssdPageSize := by
    rw [List.length_replicate, hlimit, prpRest, prpFirst_eq]
    decide
  refine (nvmePrpXfer_supported_iff _ true 0x1000 0x3000 _ true ?_ ⟨?_, ?_⟩
    (Vfu.flat_mapsPages _ _)).mpr ⟨rfl, ?_⟩
  · rw [List.length_replicate, hlimit]
    decide
  · exact fun _ _ => by decide
  · intro h
    exact absurd hrest (Nat.ne_of_gt h)
  · rw [List.length_replicate, hlimit]
    decide

/-- A PRP list at 0x10000 that names the pages 0x2000 and 0x3000. -/
def prpListMemory : Memory := memoryOf [(0x10001, 0x20), (0x10009, 0x30)]

/-- The advertised maximum from 4 bytes into a page on: three mapped pages, the last two named by a
PRP list, and the transfer is rejected. -/
theorem mdts_transfer_rejected :
    (List.replicate 8192 (7 : Byte)).length ≤ mdtsBytes nvmeFillIdCtrl ∧
    ValidPrps prpListMemory 0x1004 0x10000 8192 ∧
    Vfu.flat.MapsPages .write (prpBuffer prpListMemory 0x1004 0x10000 8192) ∧
    ¬ MovesWhole ⟨.flat, prpListMemory, []⟩ true 0x1004 0x10000 (List.replicate 8192 7) true := by
  have hlimit : mdtsBytes nvmeFillIdCtrl = 8192 := by decide +kernel
  have hrest : prpRest 0x1004 8192 = 4100 := by
    rw [prpRest, prpFirst_eq]
    decide
  refine ⟨by rw [List.length_replicate, hlimit], ⟨fun _ h => ?_, fun _ => ⟨by decide, ?_⟩⟩,
    Vfu.flat_mapsPages _ _, ?_⟩
  · rw [hrest] at h
    exact absurd h (by decide)
  · rw [prpPages, hrest]
    decide +kernel
  · rintro ⟨buf', w', hx, -⟩
    have hpages := (nvmePrpXfer_outcome ⟨.flat, prpListMemory, []⟩ true 0x1004 0x10000
      (List.replicate 8192 7) true).2
    rw [hx, List.length_replicate] at hpages
    exact absurd (hrest ▸ hpages rfl : 4100 ≤ kvssdPageSize) (by decide)

end VfuKvssd
