import VfuKvssd.Controller.Invariants

/-! # Accesses to the register block

A write is decoded by `rd_le` before its offset is looked at; a read returns a
window of the register image. ASQ and ACQ may be written whole or by halves.
-/
namespace VfuKvssd
open Foundations

/-! ## Decoding a write -/

/-- Registers and doorbells. -/
def nvmeBar0Size : ℕ := 0x4000

/-- The amounts by which `rd_le` shifts, from byte `i` on. -/
def rdLeShifts : List Byte → ℕ → List ℕ
  | [], _ => []
  | _ :: bs, i => 8 * i :: rdLeShifts bs (i + 1)

/-- The loop of `rd_le` from byte `i` on; a shift by 64 or more has no outcome. -/
def rdLeLoop : List Byte → ℕ → BitVec 64 → Option (BitVec 64)
  | [], _, v => some v
  | b :: bs, i, v =>
    if 8 * i < 64 then rdLeLoop bs (i + 1) (v ||| b.setWidth 64 <<< (8 * i)) else none

theorem rdLeLoop_eq (bs : List Byte) {i : ℕ} (hi : i ≤ 8) (v : BitVec 64) :
    rdLeLoop bs i v = if i + bs.length ≤ 8 then some (v ||| BitVec.ofNat 64 (leNat bs) <<< (8 * i))
      else none := by
  induction bs generalizing i v with
  | nil => simp [rdLeLoop, leNat, hi]
  | cons b bs ih =>
    rw [rdLeLoop]
    by_cases hlt : 8 * i < 64
    · rw [if_pos hlt, ih (by omega), leNat, ofNat_cons, BitVec.shiftLeft_or_distrib,
        ← BitVec.shiftLeft_add, BitVec.or_assoc, List.length_cons]
      rw [show i + 1 + bs.length = i + (bs.length + 1) by omega,
        show 8 * (i + 1) = 8 + 8 * i by omega]
    · rw [if_neg hlt, if_neg (by rw [List.length_cons]; omega)]

/-- The loop computes the little-endian number as long as every shift is defined. -/
theorem rdLe_eq_loop (bs : List Byte) : rdLe bs = rdLeLoop bs 0 0 := by
  rw [rdLeLoop_eq bs (Nat.zero_le 8), rdLe]
  simp

theorem rdLeShifts_lt_iff (bs : List Byte) {i : ℕ} (hi : i ≤ 8) :
    (∀ s ∈ rdLeShifts bs i, s < 64) ↔ i + bs.length ≤ 8 := by
  induction bs generalizing i with
  | nil => simpa [rdLeShifts] using hi
  | cons b bs ih =>
    rw [rdLeShifts, List.forall_mem_cons, List.length_cons]
    constructor
    · intro ⟨hlt, hrest⟩
      have := (ih (by omega)).mp hrest
      omega
    · intro h
      exact ⟨by omega, (ih (by omega)).mpr (by omega)⟩

def bar0Use (n : NvmeCtrl) (buf : List Byte) (offset : ℕ) (v : BitVec 64) :
    NvmeCtrl × List Byte × Option QueueId :=
  if nvmeRegDoorbell ≤ offset then
    let val : BitVec 16 := v.setWidth 16
    let idx := (offset - nvmeRegDoorbell) / 4
    let qid := idx / 2 % 2 ^ 16
    if h : qid < nvmeMaxQueues then
      let q : QueueId := ⟨qid, h⟩
      if idx % 2 = 1 then ((n.setCq q { n.cq q with head := val }).log (.cqHead q val), buf, none)
      else
        let n := n.setSq q { n.sq q with tail := val }
        (n, buf, if (n.sq q).enabled then some q else none)
    else (n, buf, none)
  else (nvmeRegStore n offset v buf.length, buf, none)

/-- Every write decodes its whole buffer first, at any offset. -/
theorem nvmeBar0Access_write (n : NvmeCtrl) (buf : List Byte) (offset : ℕ) :
    nvmeBar0Access n buf offset true = (rdLe buf).map (bar0Use n buf offset) := by
  unfold nvmeBar0Access bar0Use nvmeRegWrite
  cases rdLe buf with
  | none => simp
  | some v =>
    simp only [if_true, Option.map_some]
    split_ifs <;> rfl

/-- A BAR0 write is well defined: no shift of `rd_le` reaches 64, and the access uses the
little-endian number of the first eight bytes. -/
structure DecodesWrite (n : NvmeCtrl) (buf : List Byte) (offset : ℕ) : Prop where
  shifts : ∀ s ∈ rdLeShifts buf 0, s < 64
  value : rdLeLoop buf 0 0 = some (BitVec.ofNat 64 (leNat (buf.take 8)))
  used : nvmeBar0Access n buf offset true =
    some (bar0Use n buf offset (BitVec.ofNat 64 (leNat (buf.take 8))))

/-- A BAR0 write is well defined exactly up to eight bytes, whatever its offset. -/
theorem decodesWrite_iff (n : NvmeCtrl) (buf : List Byte) (offset : ℕ) :
    DecodesWrite n buf offset ↔ buf.length ≤ 8 := by
  constructor
  · intro h
    simpa using (rdLeShifts_lt_iff buf (Nat.zero_le 8)).mp h.shifts
  · intro hlen
    have hv : rdLe buf = some (BitVec.ofNat 64 (leNat (buf.take 8))) := by
      rw [rdLe, if_pos hlen, List.take_of_length_le hlen]
    refine ⟨(rdLeShifts_lt_iff buf (Nat.zero_le 8)).mpr (by omega), ?_, ?_⟩
    · rw [← rdLe_eq_loop, hv]
    · rw [nvmeBar0Access_write, hv, Option.map_some]

/-- Nine bytes written at ASQ, inside BAR0: the last shift is by 64. -/
theorem nine_byte_write_undecoded :
    nvmeRegAsq + (List.replicate 9 0xff : List Byte).length ≤ nvmeBar0Size ∧
      64 ∈ rdLeShifts (List.replicate 9 0xff) 0 ∧
      ∀ n, ¬ DecodesWrite n (List.replicate 9 0xff) nvmeRegAsq := by
  refine ⟨by decide, by decide, fun n h => ?_⟩
  exact absurd (h.shifts 64 (by decide)) (by decide)

/-! ## Register image -/

/-- The first 0x40 bytes of the register block: every register at its offset, little-endian, and
zeros where there is none. -/
def regImage (n : NvmeCtrl) : List Byte :=
  leBytes 8 n.cap.toNat ++ leBytes 4 n.vs.toNat ++ leBytes 4 n.intms.toNat ++
    leBytes 4 n.intmc.toNat ++ leBytes 4 n.cc.toNat ++ leBytes 4 0 ++ leBytes 4 n.csts.toNat ++
    leBytes 4 0 ++ leBytes 4 n.aqa.toNat ++ leBytes 8 n.asq.toNat ++ leBytes 8 n.acq.toNat ++
    leBytes 8 0

theorem nvmeRegs_bytes (n : NvmeCtrl) : (nvmeRegs n).bytes = regImage n := by
  rfl

/-- The device once it has answered a read. -/
def Device.replies (d : Device) (bytes : List Byte) : Device := ⟨d.n.log (.reply bytes), none⟩

theorem Device.step_window {d : Device} (hb : d.busy = none) {offset : ℕ} {buf : List Byte}
    (h : offset + buf.length ≤ 0x40) :
    d.step (.bar0 false offset buf) =
      some (d.replies (((regImage d.n).drop offset).take buf.length)) := by
  have hoff : ¬ nvmeRegDoorbell ≤ offset := by
    rw [show nvmeRegDoorbell = 0x1000 from rfl]
    omega
  simp only [step, hb, nvmeBar0Access]
  rw [if_neg hoff, if_neg Bool.false_ne_true, nvmeRegRead, if_pos h, nvmeRegs_bytes]
  rfl

/-- Offsets at which a write has an effect. -/
def writableOffsets : List ℕ :=
  [nvmeRegIntms, nvmeRegIntmc, nvmeRegCc, nvmeRegAqa, nvmeRegAsq, nvmeRegAsq + 4, nvmeRegAcq,
    nvmeRegAcq + 4]

theorem nvmeRegStore_other {n : NvmeCtrl} {offset : ℕ} (h : offset ∉ writableOffsets)
    (v : BitVec 64) (count : ℕ) : nvmeRegStore n offset v count = n := by
  simp only [writableOffsets, List.mem_cons, List.not_mem_nil, or_false, not_or] at h
  obtain ⟨h₁, h₂, h₃, h₄, h₅, h₆, h₇, h₈⟩ := h
  simp only [nvmeRegStore, h₁, h₂, h₃, h₄, h₅, h₆, h₇, h₈, if_false]

theorem Device.step_regStore {d : Device} (hb : d.busy = none) {offset : ℕ} {buf : List Byte}
    (ho : offset < nvmeRegDoorbell) (hlen : buf.length ≤ 8) :
    d.step (.bar0 true offset buf) =
      some ⟨nvmeRegStore d.n offset (BitVec.ofNat 64 (leNat buf)) buf.length, none⟩ := by
  simp only [step, hb, nvmeBar0Access]
  rw [if_neg (by omega), if_pos trivial, nvmeRegWrite, rdLe, if_pos hlen]
  rfl

/-- A write of up to eight bytes elsewhere in the register block changes nothing. -/
theorem Device.step_other {d : Device} (hb : d.busy = none) {offset : ℕ} {buf : List Byte}
    (ho : offset < nvmeRegDoorbell) (hlen : buf.length ≤ 8) (h : offset ∉ writableOffsets) :
    d.step (.bar0 true offset buf) = some d := by
  rw [step_regStore hb ho hlen, nvmeRegStore_other h, ← hb]

/-! ## ASQ and ACQ -/

inductive AdminBase
  | asq
  | acq

namespace AdminBase

def offset : AdminBase → ℕ
  | asq => nvmeRegAsq
  | acq => nvmeRegAcq

def get (n : NvmeCtrl) : AdminBase → BitVec 64
  | asq => n.asq
  | acq => n.acq

def set (n : NvmeCtrl) (v : BitVec 64) : AdminBase → NvmeCtrl
  | asq => { n with asq := v }
  | acq => { n with acq := v }

def wholeWrite (r : AdminBase) (v : BitVec 64) : Input := .bar0 true r.offset (leBytes 8 v.toNat)

def lowWrite (r : AdminBase) (v : BitVec 64) : Input := .bar0 true r.offset (leBytes 4 v.toNat)

def highWrite (r : AdminBase) (v : BitVec 64) : Input :=
  .bar0 true (r.offset + 4) (leBytes 4 (v.toNat / 2 ^ 32))

/-- Neither a reset nor a write at one of the register's two offsets. -/
def Spares (r : AdminBase) : Input → Prop
  | .reset => False
  | .bar0 true offset _ => offset ≠ r.offset ∧ offset ≠ r.offset + 4
  | _ => True

end AdminBase

def lowMask : BitVec 64 := 0xffffffff#64

theorem lowMask_getLsbD (i : ℕ) : lowMask.getLsbD i = decide (i < 32) := by
  rw [lowMask, BitVec.getLsbD, show (0xffffffff#64).toNat = 2 ^ 32 - 1 from rfl,
    Nat.testBit_two_pow_sub_one]

theorem low_half (v : BitVec 64) :
    BitVec.ofNat 64 (leNat (leBytes 4 v.toNat)) &&& lowMask = v &&& lowMask := by
  apply BitVec.eq_of_getLsbD_eq
  intro i hi
  rw [BitVec.getLsbD_and, BitVec.getLsbD_and, lowMask_getLsbD, leNat_leBytes,
    show 256 ^ 4 = 2 ^ 32 from rfl, BitVec.getLsbD_ofNat, Nat.testBit_mod_two_pow]
  by_cases h : i < 32
  · simp [h, hi, BitVec.getLsbD]
  · simp [h]

theorem high_half (v : BitVec 64) :
    (BitVec.ofNat 64 (leNat (leBytes 4 (v.toNat / 2 ^ 32))) &&& lowMask) <<< 32 =
      v &&& ~~~lowMask := by
  apply BitVec.eq_of_getLsbD_eq
  intro i hi
  rw [BitVec.getLsbD_shiftLeft, BitVec.getLsbD_and, BitVec.getLsbD_and, BitVec.getLsbD_not,
    lowMask_getLsbD, lowMask_getLsbD, leNat_leBytes, show 256 ^ 4 = 2 ^ 32 from rfl,
    BitVec.getLsbD_ofNat, Nat.testBit_mod_two_pow, Nat.testBit_div_two_pow]
  by_cases h : i < 32
  · simp [h]
  · have hback : i - 32 + 32 = i := by omega
    have hlow : i - 32 < 32 := by omega
    simp [h, hi, hback, hlow, BitVec.getLsbD, hlow.trans (show 32 < 64 by decide)]

/-- Two halves, taken by complementary masks, make the whole. -/
theorem join_halves (m v w : BitVec 64) :
    (((w &&& ~~~m) ||| (v &&& m)) &&& m) ||| (v &&& ~~~m) = v := by
  apply BitVec.eq_of_getLsbD_eq
  intro i hi
  simp only [BitVec.getLsbD_or, BitVec.getLsbD_and, BitVec.getLsbD_not, hi, decide_true,
    Bool.true_and]
  cases w.getLsbD i <;> cases v.getLsbD i <;> cases m.getLsbD i <;> rfl

theorem writeHigh_writeLow (w v : BitVec 64) :
    writeHigh (writeLow w (BitVec.ofNat 64 (leNat (leBytes 4 v.toNat))) 4)
      (BitVec.ofNat 64 (leNat (leBytes 4 (v.toNat / 2 ^ 32)))) = v := by
  rw [writeHigh, writeLow, if_neg (by decide), ← lowMask, low_half, high_half, join_halves]

theorem writeLow_writeHigh (w v : BitVec 64) :
    writeLow (writeHigh w (BitVec.ofNat 64 (leNat (leBytes 4 (v.toNat / 2 ^ 32)))))
      (BitVec.ofNat 64 (leNat (leBytes 4 v.toNat))) 4 = v := by
  have hjoin := join_halves (~~~lowMask) v w
  rw [BitVec.not_not] at hjoin
  rw [writeHigh, writeLow, if_neg (by decide), ← lowMask, low_half, high_half, hjoin]

theorem ofNat_leBytes (v : BitVec 64) : BitVec.ofNat 64 (leNat (leBytes 8 v.toNat)) = v := by
  rw [leNat_leBytes, show 256 ^ 8 = 2 ^ 64 from rfl, Nat.mod_eq_of_lt v.isLt, BitVec.ofNat_toNat,
    BitVec.setWidth_eq]

namespace AdminBase

theorem set_lowHigh (r : AdminBase) (n : NvmeCtrl) (lo hi : BitVec 64) :
    nvmeRegStore (nvmeRegStore n r.offset lo 4) (r.offset + 4) hi 4 =
      r.set n (writeHigh (writeLow (r.get n) lo 4) hi) := by
  cases r <;> rfl

theorem set_highLow (r : AdminBase) (n : NvmeCtrl) (lo hi : BitVec 64) :
    nvmeRegStore (nvmeRegStore n (r.offset + 4) hi 4) r.offset lo 4 =
      r.set n (writeLow (writeHigh (r.get n) hi) lo 4) := by
  cases r <;> rfl

end AdminBase

section AdminBaseWrites
variable {d : Device} (hb : d.busy = none) (r : AdminBase) (v : BitVec 64)
include hb

theorem Device.step_wholeWrite : d.step (r.wholeWrite v) = some ⟨r.set d.n v, none⟩ := by
  rw [AdminBase.wholeWrite, step_regStore hb (by cases r <;> decide) (by simp), ofNat_leBytes,
    leBytes_length]
  cases r <;> rfl

theorem Device.run_lowHigh :
    run Device.step d [r.lowWrite v, r.highWrite v] = some ⟨r.set d.n v, none⟩ := by
  have hlow : d.step (.bar0 true r.offset (leBytes 4 v.toNat)) = _ :=
    step_regStore hb (by cases r <;> decide) (by simp)
  rw [AdminBase.lowWrite, AdminBase.highWrite, run_cons hlow, run,
    step_regStore rfl (by cases r <;> decide) (by simp), Option.bind_some, run, leBytes_length,
    leBytes_length, r.set_lowHigh, writeHigh_writeLow]

theorem Device.run_highLow :
    run Device.step d [r.highWrite v, r.lowWrite v] = some ⟨r.set d.n v, none⟩ := by
  have hhigh : d.step (.bar0 true (r.offset + 4) (leBytes 4 (v.toNat / 2 ^ 32))) = _ :=
    step_regStore hb (by cases r <;> decide) (by simp)
  rw [AdminBase.lowWrite, AdminBase.highWrite, run_cons hhigh, run,
    step_regStore rfl (by cases r <;> decide) (by simp), Option.bind_some, run, leBytes_length,
    leBytes_length, r.set_highLow, writeLow_writeHigh]

end AdminBaseWrites

namespace AdminBase

theorem get_set (r : AdminBase) (n : NvmeCtrl) (v : BitVec 64) : r.get (r.set n v) = v := by
  cases r <;> rfl

theorem get_congr {n n' : NvmeCtrl} (hasq : n'.asq = n.asq) (hacq : n'.acq = n.acq)
    (r : AdminBase) : r.get n' = r.get n := by
  cases r with
  | asq => exact hasq
  | acq => exact hacq

theorem get_ccWrite (r : AdminBase) (n : NvmeCtrl) (v : BitVec 32) :
    r.get (nvmeCcWrite n v) = r.get n := by
  refine get_congr ?_ ?_ r <;>
  · simp only [nvmeCcWrite, nvmeCcShutdown, nvmeCcEnable]
    split_ifs <;> rfl

theorem get_regStore {r : AdminBase} {n : NvmeCtrl} {offset : ℕ} (h₁ : offset ≠ r.offset)
    (h₂ : offset ≠ r.offset + 4) (v : BitVec 64) (count : ℕ) :
    r.get (nvmeRegStore n offset v count) = r.get n := by
  by_cases hcc : offset = nvmeRegCc
  · rw [hcc]
    exact get_ccWrite r n _
  · cases r with
    | asq =>
      have ha : offset ≠ nvmeRegAsq := h₁
      have hb : offset ≠ nvmeRegAsq + 4 := h₂
      simp only [nvmeRegStore, hcc, ha, hb, if_false, get]
      split_ifs <;> rfl
    | acq =>
      have ha : offset ≠ nvmeRegAcq := h₁
      have hb : offset ≠ nvmeRegAcq + 4 := h₂
      simp only [nvmeRegStore, hcc, ha, hb, if_false, get]
      split_ifs <;> rfl

theorem get_postTo (r : AdminBase) (n : NvmeCtrl) (heap : Heap) (c : QueueId) (cqe : NvmeCqe) :
    r.get (nvmePostTo n heap c cqe) = r.get n := by
  refine get_congr ?_ ?_ r <;>
  · simp only [nvmePostTo, NvmeCtrl.raise]
    split_ifs <;> rfl

theorem get_consumed (r : AdminBase) {n n' : NvmeCtrl} {heap : Heap} {q : QueueId}
    (hc : Consumed n heap q n') : r.get n' = r.get n := by
  obtain ⟨-, -, hx, hp⟩ := hc
  rename_i n₁
  have hexec : r.get n₁ = r.get n := by
    cases hx <;> exact get_congr rfl rfl r
  rw [← hexec]
  cases hp with
  | silent | dropped => exact get_congr rfl rfl r
  | posted => rw [get_postTo]; exact get_congr rfl rfl r

end AdminBase

theorem StepCase.get_adminBase {d d' : Device} {i : Input} (hs : StepCase d i d') {r : AdminBase}
    (hi : r.Spares i) : r.get d'.n = r.get d.n := by
  cases hs with
  | register hb ho hv => exact AdminBase.get_regStore hi.1 hi.2 _ _
  | reset => exact hi.elim
  | consumed hb hh hx hc => exact r.get_consumed hc
  | _ => exact AdminBase.get_congr rfl rfl r

/-- What reads of a register return as long as it holds `v`. -/
structure Device.Reads (d : Device) (r : AdminBase) (v : BitVec 64) : Prop where
  whole : ∀ buf : List Byte, buf.length = 8 →
    d.step (.bar0 false r.offset buf) = some (d.replies (leBytes 8 v.toNat))
  low : ∀ buf : List Byte, buf.length = 4 →
    d.step (.bar0 false r.offset buf) = some (d.replies ((leBytes 8 v.toNat).take 4))
  high : ∀ buf : List Byte, buf.length = 4 →
    d.step (.bar0 false (r.offset + 4) buf) = some (d.replies ((leBytes 8 v.toNat).drop 4))

theorem regImage_adminBase (n : NvmeCtrl) (r : AdminBase) :
    ((regImage n).drop r.offset).take 8 = leBytes 8 (r.get n).toNat := by
  cases r <;> rfl

theorem Device.reads_of_get {d : Device} (hb : d.busy = none) {r : AdminBase} {v : BitVec 64}
    (hv : r.get d.n = v) : d.Reads r v := by
  have hin : r.offset + 8 ≤ 0x40 := by cases r <;> decide
  subst hv
  constructor
  · intro buf hlen
    rw [step_window hb (by omega), hlen, regImage_adminBase]
  · intro buf hlen
    rw [step_window hb (by omega), hlen, ← regImage_adminBase, List.take_take,
      Nat.min_eq_left (by decide)]
  · intro buf hlen
    rw [step_window hb (by omega), hlen, ← regImage_adminBase, List.drop_take, List.drop_drop]

/-- The register file is coherent: reads return windows of the register image, the three ways of
writing ASQ or ACQ agree and last until the next write or reset, and nothing else can be written. -/
theorem Device.registers_coherent {d : Device} (hb : d.busy = none) :
    (∀ offset buf, offset + buf.length ≤ 0x40 → d.step (.bar0 false offset buf) =
      some (d.replies (((regImage d.n).drop offset).take buf.length))) ∧
    (∀ (r : AdminBase) (v : BitVec 64), ∃ d₁, run Device.step d [r.wholeWrite v] = some d₁ ∧
      run Device.step d [r.lowWrite v, r.highWrite v] = some d₁ ∧
      run Device.step d [r.highWrite v, r.lowWrite v] = some d₁ ∧
      ∀ d₂, Reaches Device.step (fun _ => r.Spares) d₁ d₂ → d₂.busy = none → d₂.Reads r v) ∧
    ∀ offset buf, offset < 0x1000 → buf.length ≤ 8 → offset ∉ writableOffsets →
      d.step (.bar0 true offset buf) = some d := by
  refine ⟨fun _ _ h => step_window hb h, fun r v => ?_, fun _ _ ho hlen h => step_other hb ho hlen h⟩
  refine ⟨⟨r.set d.n v, none⟩, ?_, run_lowHigh hb r v, run_highLow hb r v, ?_⟩
  · rw [run_cons (step_wholeWrite hb r v), run]
  · intro d₂ hr hb₂
    refine reads_of_get hb₂ (hr.invariant (I := fun d => r.get d.n = v) ?_ (r.get_set d.n v))
    exact fun s i t hg hi hs => ((step_cases hs).get_adminBase hi).trans hg

/-- On a device just started, ASQ written by halves reads back. -/
theorem Device.registers_coherent_started :
    ∃ d d₁ : Device, d.Reachable 1 ∧ d.busy = none ∧
      run Device.step d [AdminBase.asq.highWrite 0x123456789abcdef0,
        AdminBase.asq.lowWrite 0x123456789abcdef0] = some d₁ ∧
      d₁.Reads .asq 0x123456789abcdef0 := by
  obtain ⟨n, hn⟩ : ∃ n, nvmeCtrlInit (fun _ => true) ⟨.flat, fun _ => 0, []⟩ 1 = some n := ⟨_, rfl⟩
  have hinit : Device.Initial 1 ⟨n, none⟩ := ⟨⟨_, _, hn, rfl⟩, rfl⟩
  obtain ⟨-, hwrite, -⟩ := Device.registers_coherent (d := ⟨n, none⟩) rfl
  obtain ⟨d₁, -, -, hrun, hreads⟩ := hwrite .asq 0x123456789abcdef0
  have hidle : d₁.busy = none := by
    rw [run_highLow rfl] at hrun
    rw [← Option.some.inj hrun]
  exact ⟨⟨n, none⟩, d₁, ⟨_, hinit, .refl⟩, rfl, hrun, hreads d₁ .refl hidle⟩

end VfuKvssd
