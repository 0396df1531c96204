import VfuKvssd.Controller.KvErrors
import VfuKvssd.Controller.QueueEvents

/-! # What a Retrieve returns after the last Store of its key

A slot keeps 4096 bytes and no length, and `kv_store` writes only `hbs` of them
over a present key. A later Retrieve returns the last value padded with zeros
exactly when nothing but zeros was left behind it.
-/
namespace VfuKvssd
open Foundations

/-- The command has a valid key length and this key. -/
def NvmeSqe.names (sqe : NvmeSqe) (k : List Byte) : Prop :=
  (NvmeKVCmd.ofSqe sqe).kl ≤ 16 ∧ (NvmeKVCmd.ofSqe sqe).keyBytes = k

instance (sqe : NvmeSqe) (k : List Byte) : Decidable (sqe.names k) :=
  inferInstanceAs (Decidable (_ ∧ _))

def NvmeSqe.writesKey (sqe : NvmeSqe) (k : List Byte) : Prop :=
  (sqe.opcode = nvmeCmdKvStore ∨ sqe.opcode = nvmeCmdKvDelete) ∧ sqe.names k

def Event.writesKey (k : List Byte) : Event → Prop
  | .command q _ sqe _ _ => q ≠ 0 ∧ sqe.writesKey k
  | _ => False

/-- The iteration consumes a Store of `k` that succeeds and carries the bytes `v`. -/
structure StoresValue (d d₁ : Device) (k v : List Byte) : Prop where
  step : ∃ heap, d.step (.iterate heap) = some d₁
  command : ∃ q cqid sqe cdw0, q ≠ 0 ∧ .command q cqid sqe cdw0 nvmeSuccess ∈ d.newEvents d₁ ∧
    sqe.opcode = nvmeCmdKvStore ∧ sqe.names k
  value : .h2c true v ∈ d.newEvents d₁

/-- What `v` alone determines of a Retrieve: its bytes, then zeros. -/
def valueOnly (v : List Byte) (hbs : ℕ) : List Byte :=
  (v ++ List.replicate (4096 - v.length) 0).take (min hbs 4096)

/-- As long as no Store or Delete of `k` is consumed, every Retrieve of `k` depends on `v` alone. -/
def LastWriterOnly (d₁ : Device) (k v : List Byte) : Prop :=
  ∀ d₂, Reaches Device.step (fun _ _ => True) d₁ d₂ →
    (∀ e ∈ d₁.newEvents d₂, ¬ e.writesKey k) → ∀ w heap sqe,
    sqe.opcode = nvmeCmdKvRetrieve → sqe.names k →
    (d₂.n.withWorld w).Hands heap sqe (valueOnly v (NvmeKVCmd.ofSqe sqe).hbs)

/-! ## A Retrieve -/

theorem NvmeCtrl.hands_contents {n : NvmeCtrl} (h : n.ns.Valid) (heap : Heap) {sqe : NvmeSqe}
    {k : List Byte} (ho : sqe.opcode = nvmeCmdKvRetrieve) (hk : sqe.names k) {b : Buffer 4096}
    (hb : n.ns.contents k = some b) :
    n.Hands heap sqe (b.bytes.take (min (NvmeKVCmd.ofSqe sqe).hbs 4096)) := by
  obtain ⟨hkl, rfl⟩ := hk
  have hop : kvOpOf (NvmeKVCmd.ofSqe sqe).opcode = some .retrieve :=
    (congrArg kvOpOf ho).trans rfl
  cases hp : n.ns.pairs.find? (kvKeyMatch (.ofSqe sqe)) with
  | none =>
    rw [h.contents_none hkl (KvNs.slotOf_eq_none.mpr hp)] at hb
    cases hb
  | some p =>
    obtain ⟨i, hi⟩ := List.mem_iff_getElem?.mp (List.mem_of_find?_eq_some hp)
    rw [h.contents_match hkl hi (List.find?_some hp)] at hb
    have hr := kvRetrieve_found hkl hp (kvdma heap) n.world
    rw [Option.some.inj hb] at hr
    rw [Hands, nvmeIoKv]
    simp only [hop, kvHandle, hr, Option.map_some, kvdma_c2h]
    generalize kvdmaC2h heap n.world _ _ = r
    rfl

/-! ## Commands that leave a key alone -/

theorem kvStore_frame {ns ns' : KvNs} {cmd : NvmeKVCmd} {σ : Type} {dma : KvDma σ} {ctx ctx' : σ}
    {heap : Heap} {st : Status} (h : ns.Valid)
    (hs : kvStore ns cmd dma ctx heap = some (st, ns', ctx')) {k : List Byte}
    (hk : cmd.kl ≤ 16 → cmd.keyBytes ≠ k) : ns'.contents k = ns.contents k := by
  have ho := kvStore_outcome h cmd dma ctx heap
  rw [hs] at ho
  cases ho with
  | overwrite hc hslot hi hm =>
    rw [h.contents_overwrite hc.1 hi hm, Function.update_of_ne (hk hc.1).symm]
  | insert hn hr hb hj =>
    rw [h.contents_insert hn hr hj, Function.update_of_ne (hk hn.storable.1).symm]
  | _ => rfl

theorem kvDelete_frame {ns : KvNs} {cmd : NvmeKVCmd} (h : ns.Valid) {k : List Byte}
    (hk : cmd.kl ≤ 16 → cmd.keyBytes ≠ k) : (kvDelete ns cmd).2.contents k = ns.contents k := by
  have ho := kvDelete_outcome ns cmd
  generalize kvDelete ns cmd = r at ho
  cases ho with
  | keySize | absent => rfl
  | present hkl hs hi hm => rw [h.contents_clear hkl hi hm, Function.update_of_ne (hk hkl).symm]

theorem Executed.contents_frame {n n' : NvmeCtrl} {heap : Heap} {q : QueueId} {sqe : NvmeSqe}
    {st : Status} {cdw0 : BitVec 32} (hx : Executed n heap q sqe st cdw0 n') (h : n.ns.Valid)
    {k : List Byte} (hk : q ≠ 0 → ¬ sqe.writesKey k) : n'.ns.contents k = n.ns.contents k := by
  cases hx with
  | @kv hq op ho st ns w hh =>
    have hop := kvOpOf_eq ho
    cases op with
    | store => exact kvStore_frame h hh fun hkl he => hk hq ⟨.inl hop, hkl, he⟩
    | delete =>
      simp only [kvHandle, Option.some.injEq, Prod.mk.injEq] at hh
      obtain ⟨-, rfl, -⟩ := hh
      exact kvDelete_frame h fun hkl he => hk hq ⟨.inr hop, hkl, he⟩
    | retrieve | exist | list =>
      simp only [kvHandle, Option.some.injEq, Prod.mk.injEq] at hh
      obtain ⟨-, rfl, -⟩ := hh
      rfl
  | _ => rfl

theorem Ran.command_mem {n n₁ : NvmeCtrl} {heap : Heap} {q c : QueueId} {st : Status}
    {cdw0 : BitVec 32} (hr : Ran n heap q c st cdw0 n₁) {es : List Event}
    (htr : n₁.world.trace = n.world.trace ++ es) :
    .command q (n.sq q).cqid (n.headEntry q) cdw0 st ∈ es ∧
      ∀ q' c' sqe' x s, .command q' c' sqe' x s ∈ es → q' = q ∧ sqe' = n.headEntry q ∧ s = st := by
  obtain ⟨m, fs, xs, -, -, hm, -, hfs, hq⟩ := hr.managed
  obtain rfl : fs = es := List.append_cancel_left (hfs.symm.trans htr)
  constructor
  · rw [← mem_queueEvents rfl, hq]
    simp
  · intro q' c' sqe' x s he
    rw [← mem_queueEvents rfl, hq, List.mem_append, List.mem_singleton] at he
    rcases he with he | he
    · cases hm with
      | same | deleteCq | deleteSq => cases he
      | createCq | createSq => simp at he
    · injection he with h₁ _ h₂ _ h₃
      exact ⟨h₁, h₂, h₃⟩

theorem StepCase.contents_frame {d d' : Device} {i : Input} (hs : StepCase d i d') (hok : d.Ok)
    (h : d.n.ns.Valid) {k : List Byte} (hk : ∀ e ∈ d.newEvents d', ¬ e.writesKey k) :
    d'.n.ns.contents k = d.n.ns.contents k := by
  rcases hs.ns_eq with he | ⟨heap, q, -, hb, hc⟩
  · rw [he]
  obtain ⟨c, hserved⟩ := hc.served hok.rings (hok.busy q hb)
  obtain ⟨n₁, st, cdw0, ps, hr, hns, hps, -⟩ := hserved.ran
  obtain ⟨es, hes⟩ := hr.trace
  have hcmd := (hr.command_mem hes).1
  obtain ⟨-, ⟨buf, w, hm, n₀, hx, rfl⟩, -, -⟩ := hr
  rw [hns]
  refine hx.contents_frame (n := d.n.fetched q w) h fun hq hw =>
    hk (.command q (d.n.sq q).cqid (d.n.headEntry q) cdw0 st) ?_ ⟨hq, hw⟩
  have hnew : d.newEvents d' = es ++ ps :=
    Device.newEvents_eq (by rw [hps, hes, List.append_assoc])
  rw [hnew]
  exact List.mem_append_left _ hcmd

/-- What every step keeps unless it logs an event of a kind, every run keeps that logs none. -/
theorem Device.Reachable.frame {maxNumKeys : BitVec 32} {α : Type*} {f : Device → α}
    {P : Event → Prop} (hframe : ∀ d i d', d.Reachable maxNumKeys → StepCase d i d' →
      (∀ e ∈ d.newEvents d', ¬ P e) → f d' = f d)
    {d₁ d₂ : Device} (h : Reachable maxNumKeys d₁) (hr : Reaches step (fun _ _ => True) d₁ d₂)
    (hk : ∀ e ∈ d₁.newEvents d₂, ¬ P e) : f d₂ = f d₁ := by
  obtain ⟨es, htr, hc⟩ : ∃ es, d₂.n.world.trace = d₁.n.world.trace ++ es ∧
      ((∀ e ∈ es, ¬ P e) → f d₂ = f d₁) := by
    refine hr.relates (R := fun d₁ d₂ => ∃ es, d₂.n.world.trace = d₁.n.world.trace ++ es ∧
      ((∀ e ∈ es, ¬ P e) → f d₂ = f d₁)) ⟨[], by simp⟩ ?_
    rintro t i u ht ⟨es, htr, hc⟩ - hstep
    have hreach := h.trans ht
    have hcase := step_cases hstep
    obtain ⟨fs, hfs⟩ := hcase.trace hreach.ok
    refine ⟨es ++ fs, by rw [hfs, htr, List.append_assoc], fun hall => ?_⟩
    rw [hframe t i u hreach hcase (by
      rw [newEvents_eq hfs]
      exact fun e he => hall e (List.mem_append_right _ he))]
    exact hc fun e he => hall e (List.mem_append_left _ he)
  exact hc (by rwa [← newEvents_eq htr])

theorem Device.Reachable.contents_frame {maxNumKeys : BitVec 32} {d₁ d₂ : Device}
    (h : Reachable maxNumKeys d₁) (hr : Reaches step (fun _ _ => True) d₁ d₂) {k : List Byte}
    (hk : ∀ e ∈ d₁.newEvents d₂, ¬ e.writesKey k) :
    d₂.n.ns.contents k = d₁.n.ns.contents k :=
  h.frame (f := fun d => d.n.ns.contents k)
    (fun _ _ _ hd hs he => hs.contents_frame hd.ok hd.ns_valid.1 he) hr hk

/-! ## The last Store -/

theorem kvStore_success {ns ns' : KvNs} {cmd : NvmeKVCmd} {w w' : World} {heap : Heap} {st : Status}
    (h : ns.Valid) (hs : kvStore ns cmd (kvdma heap) w heap = some (st, ns', w'))
    (hst : st = nvmeSuccess) :
    ∃ bytes, bytes.length = cmd.hbs ∧ cmd.hbs ≤ 4096 ∧
      (∀ es b, w'.trace = w.trace ++ es → .h2c true b ∈ es → b = bytes) ∧
      ns'.contents = Function.update ns.contents cmd.keyBytes
        (some (((ns.contents cmd.keyBytes).getD fun _ => 0).copy 0 bytes)) := by
  have hlen {b : Buffer 4096} {bytes : List Byte} (hc : cmd.storable)
      (ht : kvdmaH2c heap w cmd (b.bytes.take cmd.hbs) = (true, bytes, w')) :
      bytes.length = cmd.hbs := by
    have hl := kvdmaH2c_length heap w cmd (b.bytes.take cmd.hbs)
    rwa [ht, hc.take_length b] at hl
  have honly {dst bytes : List Byte} (ht : kvdmaH2c heap w cmd dst = (true, bytes, w'))
      (es : List Event) (b : List Byte) (htr : w'.trace = w.trace ++ es)
      (hb : .h2c true b ∈ es) : b = bytes := by
    obtain ⟨fs, hw, hfs⟩ := kvdmaH2c_trace ht
    rw [← List.append_cancel_left (hw.symm.trans htr), List.mem_append, List.mem_singleton] at hb
    rcases hb with hb | hb
    · exact absurd (hfs _ hb) (by simp [Event.kvInert])
    · simpa using hb
  have ho := kvStore_outcome h cmd (kvdma heap) w heap
  rw [hs] at ho
  cases ho with
  | @overwrite hc i p hslot hi hm hopt ok dst _ ht =>
    cases ok with
    | false => exact absurd hst (by decide)
    | true =>
      rw [kvdma_h2c] at ht
      refine ⟨dst, hlen hc ht, hc.2, honly ht, ?_⟩
      rw [h.contents_overwrite hc.1 hi hm, h.contents_match hc.1 hi hm]
      rfl
  | @insert hn base j hr hb hj ok dst _ ht =>
    cases ok with
    | false => exact absurd hst (by decide)
    | true =>
      rw [kvdma_h2c] at ht
      refine ⟨dst, hlen hn.storable ht, hn.storable.2, honly ht, ?_⟩
      rw [h.contents_insert hn hr hj, h.contents_none hn.storable.1 hn.absent]
      rfl
  | keySize | valSize | keyExists | keyNotExists | full | noMemory => exact absurd hst (by decide)

/-- A Store that is executed with success leaves the bytes it brought in at the front of what was
under its key. -/
theorem Ran.store_contents {n n₁ : NvmeCtrl} {heap : Heap} {q c : QueueId} {cdw0 : BitVec 32}
    (hr : Ran n heap q c nvmeSuccess cdw0 n₁) (h : n.ns.Valid) (hq : q ≠ 0)
    (hop : (n.headEntry q).opcode = nvmeCmdKvStore) {es : List Event}
    (hes : n₁.world.trace = n.world.trace ++ es) {v : List Byte} (hget : .h2c true v ∈ es) :
    v.length ≤ 4096 ∧ n₁.ns.contents = Function.update n.ns.contents
      (NvmeKVCmd.ofSqe (n.headEntry q)).keyBytes (some (((n.ns.contents
        (NvmeKVCmd.ofSqe (n.headEntry q)).keyBytes).getD fun _ => 0).copy 0 v)) := by
  obtain ⟨-, ⟨buf, w, hm, n₀, hex, rfl⟩, -, -⟩ := hr
  obtain ⟨fs, hf⟩ := hm.touched
  generalize hst : nvmeSuccess = st at hex hes
  cases hex with
  | @kv _ op ho _ ns w' hh =>
    obtain rfl : op = .store := by
      rw [hop] at ho
      exact (Option.some.inj ho).symm
    obtain ⟨bytes, hlen, hhbs, honly, hc'⟩ := kvStore_success h hh hst.symm
    obtain ⟨gs, hgs⟩ := (Executed.kv (n := n.fetched q w) hq ho hh).effect
    have hall : es = fs ++ gs ++ [.command q (n.sq q).cqid (n.headEntry q) 0 st] := by
      refine List.append_cancel_left (hes.symm.trans ?_)
      have htr : w'.trace = w.trace ++ gs := hgs.trace
      simp [htr, hf.trace]
    rw [hall, List.mem_append, List.mem_append, List.mem_singleton] at hget
    obtain rfl : v = bytes := by
      rcases hget with (hget | hget) | hget
      · exact absurd (hf.events.kvInert _ hget) (by simp [Event.kvInert])
      · exact honly gs v hgs.trace hget
      · cases hget
    exact ⟨by omega, hc'⟩
  | unsupported _ ho =>
    rw [hop] at ho
    cases ho
  | identify hz | ednek hz | createCq hz | createSq hz | deleteCq hz | deleteSq hz | asyncEvent hz
  | noEffect hz => exact absurd hz hq

theorem StoresValue.contents {d d₁ : Device} {k v : List Byte} (hs : StoresValue d d₁ k v)
    (hok : d.Ok) (h : d.n.ns.Valid) :
    v.length ≤ 4096 ∧ d₁.n.ns.contents k =
      some (((d.n.ns.contents k).getD fun _ => 0).copy 0 v) := by
  obtain ⟨⟨heap, hstep⟩, ⟨q', cqid, sqe, cdw0', hq', hcmd, hop, hkl, hkey⟩, hval⟩ := hs
  have hcase := Device.step_cases hstep
  obtain ⟨es', hes'⟩ := hcase.trace hok
  rw [Device.newEvents_eq hes'] at hcmd hval
  cases hcase with
  | finished | fetchFailed =>
    have hnil : es' = [] := by simpa using hes'
    rw [hnil] at hcmd
    cases hcmd
  | @consumed _ q hb hh hx n hc =>
    obtain ⟨c, hserved⟩ := hc.served hok.rings (hok.busy q hb)
    obtain ⟨n₁, st, cdw0, ps, hr, hns, hps, hinert⟩ := hserved.ran
    obtain ⟨es, hes⟩ := hr.trace
    have hsplit : es' = es ++ ps := by
      refine List.append_cancel_left (hes'.symm.trans ?_)
      rw [show (Device.mk n (some q)).n.world.trace = n.world.trace from rfl, hps, hes,
        List.append_assoc]
    have hin {e : Event} (he : e ∈ es') (hk : e.kvInert = false) : e ∈ es := by
      rw [hsplit, List.mem_append] at he
      exact he.resolve_right fun hp => by simp [hinert e hp] at hk
    obtain ⟨rfl, rfl, hst⟩ := (hr.command_mem hes).2 _ _ _ _ _ (hin hcmd rfl)
    rw [← hst] at hr
    obtain ⟨hlen, hc'⟩ := hr.store_contents h hq' hop hes (hin hval rfl)
    refine ⟨hlen, ?_⟩
    rw [show (Device.mk n (some q')).n.ns = n.ns from rfl, hns, ← hkey, hc', Function.update_self]

/-! ## What is left behind the value -/

theorem Buffer.drop_bytes_zero_iff (f : Buffer 4096) {l : ℕ} :
    f.bytes.drop l = List.replicate (4096 - l) 0 ↔ ∀ i : Fin 4096, l ≤ i.val → f i = 0 := by
  rw [List.eq_replicate_iff, List.length_drop, Buffer.bytes_length]
  constructor
  · rintro ⟨-, hz⟩ i hi
    refine hz (f i) (List.mem_drop_iff_getElem.mpr ⟨i.val - l, ?_, ?_⟩)
    · rw [Buffer.bytes_length]
      omega
    · simp only [Buffer.getElem_bytes]
      congr 1
      apply Fin.ext
      simp only
      omega
  · intro hz
    refine ⟨rfl, fun b hb => ?_⟩
    obtain ⟨j, hj, rfl⟩ := List.mem_drop_iff_getElem.mp hb
    rw [Buffer.getElem_bytes]
    exact hz _ (by simp)

theorem Buffer.bytes_copy_zero (f : Buffer 4096) {v : List Byte} (hv : v.length ≤ 4096) :
    (f.copy 0 v).bytes = v ++ f.bytes.drop v.length := by
  rw [Buffer.bytes_copy f _ _ (by omega), List.take_zero, List.nil_append, Nat.zero_add]

/-- The same command turned into a Retrieve of 4096 bytes. -/
def NvmeSqe.retrieveWhole (sqe : NvmeSqe) : NvmeSqe :=
  ⟨fun i => if i.val = 0 then nvmeCmdKvRetrieve else if i.val = 41 then 0x10
    else if 40 ≤ i.val ∧ i.val < 44 then 0 else sqe.raw i⟩

theorem NvmeSqe.retrieveWhole_names {sqe : NvmeSqe} {k : List Byte} (h : sqe.names k) :
    sqe.retrieveWhole.names k := by
  have hkey : (NvmeKVCmd.ofSqe sqe.retrieveWhole).key = (NvmeKVCmd.ofSqe sqe).key := by
    funext i
    have hi := i.isLt
    simp only [NvmeKVCmd.key, NvmeKVCmd.ofSqe, retrieveWhole]
    rw [if_neg (by omega), if_neg (by omega), if_neg (by omega)]
  have hhi : (NvmeKVCmd.ofSqe sqe.retrieveWhole).keyHi = (NvmeKVCmd.ofSqe sqe).keyHi := by
    funext i
    simp only [NvmeKVCmd.keyHi, NvmeKVCmd.ofSqe, retrieveWhole]
    rw [if_neg (by omega), if_neg (by omega), if_neg (by omega)]
  have hkl : (NvmeKVCmd.ofSqe sqe.retrieveWhole).kl = (NvmeKVCmd.ofSqe sqe).kl := rfl
  rw [names, NvmeKVCmd.keyBytes, hkl, hkey, hhi]
  exact h

theorem NvmeSqe.retrieveWhole_hbs (sqe : NvmeSqe) :
    (NvmeKVCmd.ofSqe sqe.retrieveWhole).hbs = 4096 := by
  rfl

theorem LastWriterOnly.tail_zero {d₁ : Device} {k v : List Byte} {b : Buffer 4096} {sqe : NvmeSqe}
    (h : LastWriterOnly d₁ k v) (hvalid : d₁.n.ns.Valid) (hk : sqe.names k) (hv : v.length ≤ 4096)
    (hc : d₁.n.ns.contents k = some (b.copy 0 v)) :
    ∀ i : Fin 4096, v.length ≤ i.val → b i = 0 := by
  have hnew : d₁.newEvents d₁ = [] := Device.newEvents_eq (by simp)
  have hlast := h d₁ .refl (by simp [hnew]) d₁.n.world (fun _ => true) sqe.retrieveWhole rfl
    (NvmeSqe.retrieveWhole_names hk)
  have hall := NvmeCtrl.hands_contents (n := d₁.n.withWorld d₁.n.world) hvalid (fun _ => true)
    (show sqe.retrieveWhole.opcode = _ from rfl) (NvmeSqe.retrieveWhole_names hk) hc
  have heq := hall.unique hlast
  rw [NvmeSqe.retrieveWhole_hbs, valueOnly, Nat.min_self, List.take_of_length_le (by simp),
    List.take_of_length_le (by simp; omega), Buffer.bytes_copy_zero b hv] at heq
  exact (Buffer.drop_bytes_zero_iff b).mp (List.append_cancel_left heq)

/-- For every reachable state and every successful Store from it: Retrieves of the key depend on
the stored bytes alone, until the next Store or Delete of it, exactly when the buffer under the key
held only zeros past those bytes. -/
theorem Device.Reachable.last_writer_only_iff {maxNumKeys : BitVec 32} {d d₁ : Device}
    {k v : List Byte} (h : Reachable maxNumKeys d) (hs : StoresValue d d₁ k v) :
    LastWriterOnly d₁ k v ↔
      ∀ i : Fin 4096, v.length ≤ i.val → (d.n.ns.contents k).getD (fun _ => 0) i = 0 := by
  obtain ⟨hv, hc⟩ := hs.contents h.ok h.ns_valid.1
  have h₁ : Reachable maxNumKeys d₁ := by
    obtain ⟨heap, hstep⟩ := hs.step
    exact h.next hstep
  constructor
  · intro hlast
    obtain ⟨_, _, sqe, _, -, -, -, hk⟩ := hs.command
    exact hlast.tail_zero h₁.ns_valid.1 hk hv hc
  · intro hz d₂ hr hno w heap sqe ho hk
    have h₂ := h₁.trans hr
    have hhands := NvmeCtrl.hands_contents (n := d₂.n.withWorld w) h₂.ns_valid.1 heap ho hk
      ((h₁.contents_frame hr hno).trans hc)
    rwa [Buffer.bytes_copy_zero _ hv, (Buffer.drop_bytes_zero_iff _).mpr hz] at hhands

/-- A successful Store of `k` from an I/O queue. -/
def Event.storesKey (k : List Byte) : Event → Bool
  | .command q _ sqe _ st =>
    q != 0 && st == nvmeSuccess && sqe.opcode == nvmeCmdKvStore && decide (sqe.names k)
  | _ => false

/-- The bytes of a successful transfer from the host. -/
def Event.brings (v : List Byte) : Event → Bool
  | .h2c ok bytes => ok && bytes == v
  | _ => false

theorem StoresValue.of_events {d d₁ : Device} {heap : Heap} {k v : List Byte}
    (hs : d.step (.iterate heap) = some d₁) (hk : (d.newEvents d₁).any (Event.storesKey k) = true)
    (hv : (d.newEvents d₁).any (Event.brings v) = true) : StoresValue d d₁ k v := by
  obtain ⟨e, he, hk⟩ := List.any_eq_true.mp hk
  obtain ⟨f, hf, hv⟩ := List.any_eq_true.mp hv
  refine ⟨⟨heap, hs⟩, ?_, ?_⟩
  · cases e with
    | command q cqid sqe cdw0 st =>
      simp only [Event.storesKey, Bool.and_eq_true, bne_iff_ne, beq_iff_eq, decide_eq_true_eq] at hk
      obtain ⟨⟨⟨hq, rfl⟩, ho⟩, hn⟩ := hk
      exact ⟨q, cqid, sqe, cdw0, hq, he, ho, hn⟩
    | _ => cases hk
  · cases f with
    | h2c ok bytes =>
      simp only [Event.brings, Bool.and_eq_true, beq_iff_eq] at hv
      obtain ⟨rfl, rfl⟩ := hv
      exact hf
    | _ => cases hv

/-- Two Stores under one key, of two bytes and then of one. -/
def shorterStoreMemory : Memory :=
  memoryOf [(0, 5), (26, 2), (40, 1), (42, 15), (64, 1), (90, 3), (104, 1), (106, 15), (110, 1),
    (0x30000, 1), (0x30008, 0x61), (0x3001a, 4), (0x30028, 2), (0x3002c, 1),
    (0x30040, 1), (0x30048, 0x61), (0x3005a, 4), (0x30068, 1), (0x3006c, 1), (0x40000, 7),
    (0x40001, 9)]

def shorterStoreInputs (stores : ℕ) : List Input :=
  enableAdmin ++ [.hostMemory shorterStoreMemory, sqTailWrite 0 2] ++ iterations 3 ++
    [sqTailWrite 1 2] ++ iterations stores

theorem Device.Reachable.last_writer_only_first :
    ∃ d d₁, Reachable 1 d ∧ StoresValue d d₁ [0x61] [7, 9] ∧ LastWriterOnly d₁ [0x61] [7, 9] := by
  have hrun : ((bootRun 1 (fun _ _ => true) (shorterStoreInputs 0)).bind fun d =>
      (d.step (.iterate fun _ => true)).map fun d₁ =>
        (d.newEvents d₁).any (Event.storesKey [0x61]) && (d.newEvents d₁).any (Event.brings [7, 9]) &&
          (d.n.ns.contents [0x61]).isNone) = some true := by decide +kernel
  obtain ⟨d, hd, hmap⟩ := Option.bind_eq_some_iff.mp hrun
  obtain ⟨d₁, hstep, hobs⟩ := Option.map_eq_some_iff.mp hmap
  rw [Bool.and_eq_true, Bool.and_eq_true, Option.isNone_iff_eq_none] at hobs
  obtain ⟨⟨hk, hv⟩, hnone⟩ := hobs
  have hr : Reachable 1 d := reachable_of_bootRun hd
  have hs := StoresValue.of_events hstep hk hv
  exact ⟨d, d₁, hr, hs, (hr.last_writer_only_iff hs).mpr fun i _ => by rw [hnone]; rfl⟩

/-- After a Store of two bytes, a Store of one leaves the second byte to be retrieved. -/
theorem Device.shorter_store_leaks :
    ∃ d d₁, Reachable 1 d ∧ StoresValue d d₁ [0x61] [7] ∧ ¬ LastWriterOnly d₁ [0x61] [7] := by
  have hrun : ((bootRun 1 (fun _ _ => true) (shorterStoreInputs 1)).bind fun d =>
      (d.step (.iterate fun _ => true)).map fun d₁ =>
        (d.newEvents d₁).any (Event.storesKey [0x61]) && (d.newEvents d₁).any (Event.brings [7]) &&
          decide ((d.n.ns.contents [0x61]).getD (fun _ => 0) 1 = 9)) = some true := by decide +kernel
  obtain ⟨d, hd, hmap⟩ := Option.bind_eq_some_iff.mp hrun
  obtain ⟨d₁, hstep, hobs⟩ := Option.map_eq_some_iff.mp hmap
  rw [Bool.and_eq_true, Bool.and_eq_true, decide_eq_true_eq] at hobs
  obtain ⟨⟨hk, hv⟩, hold⟩ := hobs
  have hreach : Reachable 1 d := reachable_of_bootRun hd
  have hreach₁ := hreach.next hstep
  have hs := StoresValue.of_events hstep hk hv
  refine ⟨d, d₁, hreach, hs, fun hlast => ?_⟩
  obtain ⟨hlen, hc⟩ := hs.contents hreach.ok hreach.ns_valid.1
  obtain ⟨_, _, sqe, _, -, -, -, hkey⟩ := hs.command
  have hz := hlast.tail_zero hreach₁.ns_valid.1 hkey hlen hc 1 (by decide)
  rw [hold] at hz
  exact absurd hz (by decide)

end VfuKvssd
