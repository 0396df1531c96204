import VfuKvssd.Controller.World

/-! # Transfers between local buffers and guest memory

`nvme_sgl_copy`, `nvme_gpa_xfer` and `nvme_prp_xfer`. A transfer that succeeds
moves exactly its bytes between the buffer and the addresses its PRPs name, in
order; one that fails changes nothing. The first component of a result is
whether the source returns 0.
-/
namespace VfuKvssd
open Foundations

def kvssdPageSize : ℕ := 4096
def nvmeMaxSg : ℕ := 16

/-- The copy loop of `nvme_sgl_copy`: bytes done, local buffer and surroundings. -/
def sglCopyLoop (toHost : Bool) (len : ℕ) : List Sg → ℕ → List Byte → World → ℕ × List Byte × World
  | [], done, buf, w => (done, buf, w)
  | s :: sgl, done, buf, w =>
    if done < len then
      let c := if len < done + s.len then len - done else s.len
      if toHost then
        sglCopyLoop toHost len sgl (done + c) buf (w.dmaWrite s.base ((buf.drop done).take c))
      else
        let r := w.dmaRead s.base c
        sglCopyLoop toHost len sgl (done + c) (buf.take done ++ r.1 ++ buf.drop (done + c)) r.2
    else (done, buf, w)

def nvmeSglCopy (w : World) (sgl : List Sg) (buf : List Byte) (toHost : Bool) :
    Bool × List Byte × World :=
  if sgl.length = 0 ∨ nvmeMaxSg < sgl.length then (false, buf, w)
  else if !w.vfu.sglGet sgl then (false, buf, w)
  else
    match sglCopyLoop toHost buf.length sgl 0 buf w with
    | (done, buf', w') => (done == buf.length, buf', w')

def xferProt (toHost : Bool) : Prot := if toHost then .write else .read

/-- Transfer a contiguous guest range. `sglOk` is the outcome of the `malloc` of the list. -/
def nvmeGpaXfer (w : World) (sglOk : Bool) (gpa : Addr) (buf : List Byte) (toHost : Bool) :
    Bool × List Byte × World :=
  if buf.length = 0 then (true, buf, w)
  else if !sglOk then (false, buf, w)
  else match w.vfu.addrToSgl gpa buf.length 8 (xferProt toHost) with
    | none => (false, buf, w)
    | some sgl => nvmeSglCopy w sgl buf toHost

/-- `MIN(len, ps - off)`: how much of a transfer the first PRP takes. -/
def prpFirst (prp1 : Addr) (len : ℕ) : ℕ :=
  min len (kvssdPageSize - (prp1 &&& BitVec.ofNat 64 (kvssdPageSize - 1)).toNat)

def nvmePrpXfer (w : World) (sglOk : Bool) (prp1 prp2 : Addr) (buf : List Byte) (toHost : Bool) :
    Bool × List Byte × World :=
  if buf.length = 0 then (true, buf, w)
  else if !sglOk then (false, buf, w)
  else
    let first := prpFirst prp1 buf.length
    match w.vfu.addrToSgl prp1 first nvmeMaxSg (xferProt toHost) with
    | none => (false, buf, w)
    | some sgl =>
      let remaining := buf.length - first
      if remaining = 0 then nvmeSglCopy w sgl buf toHost
      else if kvssdPageSize < remaining then (false, buf, w)
      else match w.vfu.addrToSgl prp2 remaining (nvmeMaxSg - sgl.length) (xferProt toHost) with
        | none => (false, buf, w)
        | some sgl' => nvmeSglCopy w (sgl ++ sgl') buf toHost

/-! ## What a transfer does -/

/-- Events of a transfer in one direction over some addresses. -/
def XferEvents (toHost : Bool) (as : List Addr) (es : List Event) : Prop :=
  ∀ e ∈ es, (∃ a bytes, toHost = true ∧ e = .dmaWrite a bytes ∧ span a bytes.length ⊆ as) ∨
    (∃ a n, toHost = false ∧ e = .dmaRead a n ∧ span a n ⊆ as)

theorem XferEvents.mono {toHost : Bool} {as bs : List Addr} {es : List Event}
    (h : XferEvents toHost as es) (hs : as ⊆ bs) : XferEvents toHost bs es := by
  intro e he
  rcases h e he with ⟨a, bytes, ht, rfl, hsub⟩ | ⟨a, n, ht, rfl, hsub⟩
  · exact .inl ⟨a, bytes, ht, rfl, List.Subset.trans hsub hs⟩
  · exact .inr ⟨a, n, ht, rfl, List.Subset.trans hsub hs⟩

theorem XferEvents.cons {toHost : Bool} {as : List Addr} {e : Event} {es : List Event}
    (he : XferEvents toHost as [e]) (h : XferEvents toHost as es) :
    XferEvents toHost as (e :: es) := by
  intro x hx
  rcases List.mem_cons.mp hx with rfl | hx
  · exact he x (by simp)
  · exact h x hx

theorem XferEvents.entry {toHost : Bool} {s : Sg} {sgl : List Sg} {e : Event} {es : List Event}
    (he : XferEvents toHost s.addrs [e]) (h : XferEvents toHost (sgl.flatMap Sg.addrs) es) :
    XferEvents toHost ((s :: sgl).flatMap Sg.addrs) (e :: es) := by
  rw [List.flatMap_cons]
  exact .cons (he.mono (List.subset_append_left _ _)) (h.mono (List.subset_append_right _ _))

/-- A finished transfer over the addresses `as`. -/
structure Moved (toHost : Bool) (as : List Addr) (buf buf' : List Byte) (w w' : World) : Prop where
  vfu : w'.vfu = w.vfu
  mem : w'.mem = if toHost then writeAll w.mem as buf else w.mem
  buf : buf' = if toHost then buf else as.map w.mem
  trace : ∃ es, w'.trace = w.trace ++ es ∧ XferEvents toHost as es

/-- Transfers are all or nothing. -/
inductive XferOutcome (toHost : Bool) (as : List Addr) (buf : List Byte) (w : World) :
    Bool × List Byte × World → Prop
  | failed : XferOutcome toHost as buf w (false, buf, w)
  | done {buf' : List Byte} {w' : World} (h : Moved toHost as buf buf' w w') :
      XferOutcome toHost as buf w (true, buf', w')

/-- Entries that cover exactly the rest of the buffer: writing to the host. -/
theorem sglCopyLoop_toHost {len : ℕ} {buf : List Byte} (hb : buf.length = len) (sgl : List Sg)
    (done : ℕ) (w : World) (hlen : done + (sgl.flatMap Sg.addrs).length = len) :
    ∃ w', sglCopyLoop true len sgl done buf w = (len, buf, w') ∧ w'.vfu = w.vfu ∧
      w'.mem = writeAll w.mem (sgl.flatMap Sg.addrs) (buf.drop done) ∧
      ∃ es, w'.trace = w.trace ++ es ∧ XferEvents true (sgl.flatMap Sg.addrs) es := by
  induction sgl generalizing done w with
  | nil =>
    have hd : done = len := by simpa using hlen
    exact ⟨w, by rw [sglCopyLoop, hd], rfl, by simp, [], by simp, by simp [XferEvents]⟩
  | cons s sgl ih =>
    rw [List.flatMap_cons, List.length_append, Sg.addrs, span_length] at hlen
    by_cases hd : done < len
    · let chunk := (buf.drop done).take s.len
      have hchunk : chunk.length = s.len := by simp [chunk]; omega
      have hsplit : buf.drop done = chunk ++ buf.drop (done + s.len) := by
        rw [← List.drop_drop, List.take_append_drop]
      obtain ⟨w', hloop, hvfu, hmem, es, htr, hes⟩ :=
        ih (done + s.len) (w.dmaWrite s.base chunk) (by omega)
      refine ⟨w', ?_, hvfu, ?_, .dmaWrite s.base chunk :: es, ?_, ?_⟩
      · rw [sglCopyLoop, if_pos hd, if_neg (by omega : ¬ len < done + s.len)]
        exact hloop
      · rw [hmem, hsplit, List.flatMap_cons, Sg.addrs, writeAll_append _ _ _ _ _ (by simp [hchunk])]
        simp [World.dmaWrite, hchunk]
      · rw [htr]
        simp [World.dmaWrite]
      · refine .entry (fun e he => ?_) hes
        rw [List.mem_singleton] at he
        exact .inl ⟨_, _, rfl, he, by rw [hchunk, Sg.addrs]; exact List.Subset.refl _⟩
    · have hz : s.len = 0 := by omega
      have hnil : sgl.flatMap Sg.addrs = [] := List.eq_nil_of_length_eq_zero (by omega)
      refine ⟨w, ?_, rfl, ?_, [], by simp, by simp [XferEvents]⟩
      · rw [sglCopyLoop, if_neg hd, show done = len by omega]
      · simp [List.flatMap_cons, hnil, Sg.addrs, hz]

/-- Entries that cover exactly the rest of the buffer: reading from the host. -/
theorem sglCopyLoop_fromHost {len : ℕ} (sgl : List Sg) (done : ℕ) (buf : List Byte) (w : World)
    (hb : buf.length = len) (hlen : done + (sgl.flatMap Sg.addrs).length = len) :
    ∃ w', sglCopyLoop false len sgl done buf w =
        (len, buf.take done ++ (sgl.flatMap Sg.addrs).map w.mem, w') ∧ w'.vfu = w.vfu ∧
      w'.mem = w.mem ∧ ∃ es, w'.trace = w.trace ++ es ∧
        XferEvents false (sgl.flatMap Sg.addrs) es := by
  induction sgl generalizing done buf w with
  | nil =>
    have hd : done = len := by simpa using hlen
    refine ⟨w, ?_, rfl, rfl, [], by simp, by simp [XferEvents]⟩
    rw [sglCopyLoop, hd, ← hb]
    simp
  | cons s sgl ih =>
    rw [List.flatMap_cons, List.length_append, Sg.addrs, span_length] at hlen
    by_cases hd : done < len
    · let next := buf.take done ++ (span s.base s.len).map w.mem ++ buf.drop (done + s.len)
      have hnext : next.length = len := by simp [next]; omega
      have htake : next.take (done + s.len) = buf.take done ++ (span s.base s.len).map w.mem :=
        List.take_left' (by simp; omega)
      obtain ⟨w', hloop, hvfu, hmem, es, htr, hes⟩ :=
        ih (done + s.len) next (w.log (.dmaRead s.base s.len)) hnext (by omega)
      refine ⟨w', ?_, hvfu, hmem, .dmaRead s.base s.len :: es, ?_, ?_⟩
      · rw [sglCopyLoop, if_pos hd, if_neg (by omega : ¬ len < done + s.len)]
        refine hloop.trans ?_
        rw [htake]
        simp [List.flatMap_cons, Sg.addrs]
      · rw [htr]
        simp
      · refine .entry (fun e he => ?_) hes
        rw [List.mem_singleton] at he
        exact .inr ⟨_, _, rfl, he, List.Subset.refl _⟩
    · have hz : s.len = 0 := by omega
      have hnil : sgl.flatMap Sg.addrs = [] := List.eq_nil_of_length_eq_zero (by omega)
      refine ⟨w, ?_, rfl, rfl, [], by simp, by simp [XferEvents]⟩
      rw [sglCopyLoop, if_neg hd, show done = len by omega, ← hb]
      simp [List.flatMap_cons, hnil, Sg.addrs, hz]

theorem nvmeSglCopy_outcome (w : World) {sgl : List Sg} {as : List Addr} {buf : List Byte}
    (toHost : Bool) (hs : sgl.flatMap Sg.addrs = as) (hlen : as.length = buf.length) :
    XferOutcome toHost as buf w (nvmeSglCopy w sgl buf toHost) := by
  rw [nvmeSglCopy]
  split
  · exact .failed
  split
  · exact .failed
  subst hs
  cases toHost with
  | true =>
    obtain ⟨w', hloop, hvfu, hmem, htr⟩ := sglCopyLoop_toHost rfl sgl 0 w (by simpa using hlen)
    rw [hloop]
    simp only [beq_self_eq_true]
    exact .done ⟨hvfu, by simpa using hmem, by simp, htr⟩
  | false =>
    obtain ⟨w', hloop, hvfu, hmem, htr⟩ :=
      sglCopyLoop_fromHost sgl 0 buf w rfl (by simpa using hlen)
    rw [hloop]
    simp only [beq_self_eq_true]
    exact .done ⟨hvfu, by simpa using hmem, by simp, htr⟩

/-- A list of entries that covers the buffer is copied exactly when it can be mapped. -/
theorem nvmeSglCopy_ok (w : World) {sgl : List Sg} {buf : List Byte} (toHost : Bool)
    (hne : sgl.length ≠ 0) (hmax : sgl.length ≤ nvmeMaxSg)
    (hcover : (sgl.flatMap Sg.addrs).length = buf.length) :
    (nvmeSglCopy w sgl buf toHost).1 = w.vfu.sglGet sgl := by
  simp only [nvmeSglCopy]
  rw [if_neg (by omega)]
  cases hget : w.vfu.sglGet sgl with
  | false => rfl
  | true =>
    simp only [Bool.not_true, Bool.false_eq_true, if_false]
    cases toHost with
    | true =>
      obtain ⟨w', hloop, -⟩ := sglCopyLoop_toHost rfl sgl 0 w (by simpa using hcover)
      simp [hloop]
    | false =>
      obtain ⟨w', hloop, -⟩ := sglCopyLoop_fromHost sgl 0 buf w rfl (by simpa using hcover)
      simp [hloop]

theorem nvmeGpaXfer_outcome (w : World) (sglOk : Bool) (gpa : Addr) (buf : List Byte)
    (toHost : Bool) :
    XferOutcome toHost (span gpa buf.length) buf w (nvmeGpaXfer w sglOk gpa buf toHost) := by
  rw [nvmeGpaXfer]
  split_ifs with hz hok
  · rw [hz, span_zero]
    exact .done ⟨rfl, by simp, by simp [List.eq_nil_of_length_eq_zero hz], [], by simp,
      by simp [XferEvents]⟩
  · exact .failed
  · cases hsgl : w.vfu.addrToSgl gpa buf.length 8 (xferProt toHost) with
    | none => exact .failed
    | some sgl => exact nvmeSglCopy_outcome w toHost (w.vfu.covers hsgl) (by simp)

/-- A contiguous range that `nvme_gpa_xfer` can map. -/
def Vfu.reaches (v : Vfu) (gpa : Addr) (len : ℕ) (prot : Prot) : Bool :=
  match v.addrToSgl gpa len 8 prot with
  | none => false
  | some sgl => v.sglGet sgl

/-- A transfer of at least one byte succeeds exactly when its list is allocated and its range can
be mapped. -/
theorem nvmeGpaXfer_ok (w : World) (sglOk : Bool) (gpa : Addr) (buf : List Byte)
    (hb : 0 < buf.length) (toHost : Bool) :
    (nvmeGpaXfer w sglOk gpa buf toHost).1 =
      (sglOk && w.vfu.reaches gpa buf.length (xferProt toHost)) := by
  cases sglOk with
  | false => simp [nvmeGpaXfer, Nat.pos_iff_ne_zero.mp hb]
  | true =>
    rw [nvmeGpaXfer, if_neg (by omega), Vfu.reaches]
    simp only [Bool.not_true, Bool.false_eq_true, if_false, Bool.true_and]
    cases hsgl : w.vfu.addrToSgl gpa buf.length 8 (xferProt toHost) with
    | none => rfl
    | some sgl =>
      have hlen := w.vfu.length_le hsgl
      have hne : sgl.length ≠ 0 := fun h => w.vfu.ne_nil hsgl (List.eq_nil_of_length_eq_zero h)
      have hmax : nvmeMaxSg = 16 := rfl
      exact nvmeSglCopy_ok w toHost hne (by omega) (by simp [w.vfu.covers hsgl])

/-- The guest addresses that two PRPs give to `len` bytes, in order. -/
def prpAddrs (prp1 prp2 : Addr) (len : ℕ) : List Addr :=
  span prp1 (prpFirst prp1 len) ++ span prp2 (len - prpFirst prp1 len)

theorem prpFirst_le (prp1 : Addr) (len : ℕ) : prpFirst prp1 len ≤ len := Nat.min_le_left _ _

@[simp] theorem prpAddrs_length (prp1 prp2 : Addr) (len : ℕ) :
    (prpAddrs prp1 prp2 len).length = len := by
  have h := prpFirst_le prp1 len
  simp only [prpAddrs, List.length_append, span_length]
  omega

theorem prpAddrs_mono {prp1 prp2 : Addr} {k len : ℕ} (h : k ≤ len) :
    prpAddrs prp1 prp2 k ⊆ prpAddrs prp1 prp2 len := by
  have hfirst : prpFirst prp1 k ≤ prpFirst prp1 len := min_le_min_right _ h
  have hrest : k - prpFirst prp1 k ≤ len - prpFirst prp1 len := by
    simp only [prpFirst]
    omega
  intro a ha
  rw [prpAddrs, List.mem_append] at ha ⊢
  rcases ha with ha | ha
  · exact .inl (span_subset hfirst ha)
  · exact .inr (span_subset hrest ha)

theorem prpFirst_eq (prp1 : Addr) (len : ℕ) :
    prpFirst prp1 len = min len (kvssdPageSize - prp1.toNat % kvssdPageSize) := by
  have hand : (prp1 &&& BitVec.ofNat 64 (kvssdPageSize - 1)).toNat = prp1.toNat % kvssdPageSize := by
    rw [BitVec.toNat_and]
    exact Nat.and_two_pow_sub_one_eq_mod prp1.toNat 12
  rw [prpFirst, hand]

/-- The first PRP never crosses its page. -/
theorem prpFirst_le_page (prp1 : Addr) (len : ℕ) :
    prpFirst prp1 len ≤ kvssdPageSize - prp1.toNat % kvssdPageSize := by
  rw [prpFirst_eq]
  exact Nat.min_le_right _ _

/-- A PRP transfer moves its bytes over `prpAddrs` or changes nothing, and one that moves
anything leaves at most a page to the second PRP. -/
theorem nvmePrpXfer_outcome (w : World) (sglOk : Bool) (prp1 prp2 : Addr) (buf : List Byte)
    (toHost : Bool) :
    XferOutcome toHost (prpAddrs prp1 prp2 buf.length) buf w
        (nvmePrpXfer w sglOk prp1 prp2 buf toHost) ∧
      ((nvmePrpXfer w sglOk prp1 prp2 buf toHost).1 = true →
        buf.length - prpFirst prp1 buf.length ≤ kvssdPageSize) := by
  have hfirst := prpFirst_le prp1 buf.length
  rw [nvmePrpXfer]
  split_ifs with hz hok
  · have hnil : prpAddrs prp1 prp2 buf.length = [] :=
      List.eq_nil_of_length_eq_zero (by rw [prpAddrs_length, hz])
    refine ⟨?_, fun _ => by omega⟩
    rw [hnil]
    exact .done ⟨rfl, by simp, by simp [List.eq_nil_of_length_eq_zero hz], [], by simp,
      by simp [XferEvents]⟩
  · exact ⟨.failed, by simp⟩
  cases hsgl : w.vfu.addrToSgl prp1 (prpFirst prp1 buf.length) nvmeMaxSg (xferProt toHost) with
  | none => exact ⟨by simpa only [hsgl] using .failed, by simp [hsgl]⟩
  | some sgl =>
    have hc := w.vfu.covers hsgl
    simp only [hsgl]
    split_ifs with hrem hpage
    · refine ⟨nvmeSglCopy_outcome w toHost ?_ (prpAddrs_length _ _ _), fun _ => by omega⟩
      rw [prpAddrs, hrem, span_zero, List.append_nil, hc]
    · exact ⟨.failed, by simp⟩
    cases hsgl' : w.vfu.addrToSgl prp2 (buf.length - prpFirst prp1 buf.length)
        (nvmeMaxSg - sgl.length) (xferProt toHost) with
    | none => exact ⟨.failed, by simp⟩
    | some sgl' =>
      refine ⟨nvmeSglCopy_outcome w toHost ?_ (prpAddrs_length _ _ _), fun _ => by omega⟩
      rw [List.flatMap_append, hc, w.vfu.covers hsgl', prpAddrs]

/-- A buffer of `len` bytes that `nvme_prp_xfer` can map: what the first page leaves fits one page,
and both pieces get their entries. -/
def Vfu.mapsPrps (v : Vfu) (prp1 prp2 : Addr) (len : ℕ) (prot : Prot) : Bool :=
  let first := prpFirst prp1 len
  match v.addrToSgl prp1 first nvmeMaxSg prot with
  | none => false
  | some sgl =>
    if len - first = 0 then v.sglGet sgl
    else if kvssdPageSize < len - first then false
    else match v.addrToSgl prp2 (len - first) (nvmeMaxSg - sgl.length) prot with
      | none => false
      | some sgl' => v.sglGet (sgl ++ sgl')

/-- A transfer of at least one byte succeeds exactly when its list is allocated and its buffer can
be mapped. -/
theorem nvmePrpXfer_ok (w : World) (sglOk : Bool) (prp1 prp2 : Addr) (buf : List Byte)
    (hb : 0 < buf.length) (toHost : Bool) :
    (nvmePrpXfer w sglOk prp1 prp2 buf toHost).1 =
      (sglOk && w.vfu.mapsPrps prp1 prp2 buf.length (xferProt toHost)) := by
  cases sglOk with
  | false => simp [nvmePrpXfer, Nat.pos_iff_ne_zero.mp hb]
  | true =>
    have hfirst := prpFirst_le prp1 buf.length
    rw [nvmePrpXfer, if_neg (by omega), Vfu.mapsPrps]
    simp only [Bool.not_true, Bool.false_eq_true, if_false, Bool.true_and]
    cases hsgl : w.vfu.addrToSgl prp1 (prpFirst prp1 buf.length) nvmeMaxSg (xferProt toHost) with
    | none => rfl
    | some sgl =>
      have hlen := w.vfu.length_le hsgl
      have hne : sgl.length ≠ 0 := fun h => w.vfu.ne_nil hsgl (List.eq_nil_of_length_eq_zero h)
      have hcover := w.vfu.covers hsgl
      dsimp only
      split_ifs with hrest hpage
      · exact nvmeSglCopy_ok w toHost hne hlen (by rw [hcover, span_length]; omega)
      · rfl
      · cases hsgl' : w.vfu.addrToSgl prp2 (buf.length - prpFirst prp1 buf.length)
            (nvmeMaxSg - sgl.length) (xferProt toHost) with
        | none => rfl
        | some sgl' =>
          have hlen' := w.vfu.length_le hsgl'
          refine nvmeSglCopy_ok w toHost (by simp [hne]) ?_ ?_
          · rw [List.length_append]
            omega
          · rw [List.flatMap_append, hcover, w.vfu.covers hsgl']
            simp only [List.length_append, span_length]
            omega

/-- The guest address of buffer byte `i` when the first PRP takes `first` bytes. -/
def prpAddr (prp1 prp2 : Addr) (first i : ℕ) : Addr :=
  if i < first then prp1 + BitVec.ofNat 64 i else prp2 + BitVec.ofNat 64 (i - first)

theorem prpAddrs_eq_map (prp1 prp2 : Addr) (len : ℕ) :
    prpAddrs prp1 prp2 len =
      (List.range len).map (prpAddr prp1 prp2 (prpFirst prp1 len)) := by
  have hlen : len = prpFirst prp1 len + (len - prpFirst prp1 len) := by
    have h := prpFirst_le prp1 len
    omega
  conv_rhs => rw [hlen, List.range_add, List.map_append, List.map_map, ← hlen]
  rw [prpAddrs, span, span]
  congr 1
  · apply List.map_congr_left
    intro i hi
    rw [prpAddr, if_pos (List.mem_range.mp hi)]
  · apply List.map_congr_left
    intro i _
    rw [Function.comp_apply, prpAddr, if_neg (by omega), Nat.add_sub_cancel_left]

theorem prpAddrs_nodup {prp1 prp2 : Addr} {len : ℕ} (hlen : len ≤ 2 ^ 64)
    (hd : (span prp1 (prpFirst prp1 len)).Disjoint (span prp2 (len - prpFirst prp1 len))) :
    (prpAddrs prp1 prp2 len).Nodup := by
  have hfirst := prpFirst_le prp1 len
  rw [prpAddrs, List.nodup_append']
  exact ⟨span_nodup (by omega), span_nodup (by omega), hd⟩

/-- A transfer that succeeds spans at most two pages. -/
theorem nvmePrpXfer_len {w : World} {sglOk : Bool} {prp1 prp2 : Addr} {buf : List Byte}
    {toHost : Bool} (h : (nvmePrpXfer w sglOk prp1 prp2 buf toHost).1 = true) :
    buf.length ≤ 2 * kvssdPageSize := by
  have hrest := (nvmePrpXfer_outcome w sglOk prp1 prp2 buf toHost).2 h
  have hfirst := prpFirst_le_page prp1 buf.length
  omega

/-- A PRP transfer is exact and all or nothing: one that returns 0 has paired buffer byte `i` with
`prp1 + i` below `first` and with `prp2 + (i - first)` from there on, in this order, and one that
fails leaves the buffer and the guest as they were. Over guest ranges that do not overlap, reading
back what was written gives the same bytes. -/
theorem nvmePrpXfer_exact (w : World) (sglOk : Bool) (prp1 prp2 : Addr) (buf : List Byte)
    (toHost : Bool) {ok : Bool} {buf' : List Byte} {w' : World}
    (hx : nvmePrpXfer w sglOk prp1 prp2 buf toHost = (ok, buf', w')) {first : ℕ}
    (hfirst : first = min buf.length (4096 - prp1.toNat % 4096)) :
    (ok = true →
      w'.mem = (if toHost then
        writeAll w.mem ((List.range buf.length).map (prpAddr prp1 prp2 first)) buf else w.mem) ∧
      buf' = if toHost then buf
        else (List.range buf.length).map fun i => w.mem (prpAddr prp1 prp2 first i)) ∧
    (ok = false → buf' = buf ∧ w' = w) ∧
    (ok = true → toHost = true →
      (span prp1 first).Disjoint (span prp2 (buf.length - first)) →
      ∀ sglOk' dst dst' w'', dst.length = buf.length →
        nvmePrpXfer w' sglOk' prp1 prp2 dst false = (true, dst', w'') → dst' = buf) := by
  obtain rfl : first = prpFirst prp1 buf.length := by
    rw [hfirst, prpFirst_eq, kvssdPageSize]
  have hout := (nvmePrpXfer_outcome w sglOk prp1 prp2 buf toHost).1
  have hlen : (nvmePrpXfer w sglOk prp1 prp2 buf toHost).1 = true →
      buf.length ≤ 2 * kvssdPageSize := nvmePrpXfer_len
  rw [hx] at hout hlen
  rw [prpAddrs_eq_map] at hout
  refine ⟨?_, ?_, ?_⟩
  · rintro rfl
    cases hout with
    | done h => exact ⟨h.mem, by simpa [Function.comp_def] using h.buf⟩
  · rintro rfl
    cases hout
    exact ⟨rfl, rfl⟩
  · rintro rfl rfl hd sglOk' dst dst' w'' hdst hback
    have hpages : buf.length ≤ 2 * kvssdPageSize := hlen rfl
    have hnodup : (prpAddrs prp1 prp2 buf.length).Nodup :=
      prpAddrs_nodup (by rw [kvssdPageSize] at hpages; omega) hd
    have hread := (nvmePrpXfer_outcome w' sglOk' prp1 prp2 dst false).1
    rw [hback, hdst] at hread
    cases hout with
    | done hwrite =>
      rw [← prpAddrs_eq_map] at hwrite
      cases hread with
      | done hread =>
        rw [hread.buf, hwrite.mem]
        exact map_writeAll hnodup (prpAddrs_length _ _ _)

/-- Two bytes over a page boundary, to the host and back. -/
theorem nvmePrpXfer_exact_twoPages :
    ∃ w' w'', nvmePrpXfer ⟨.flat, fun _ => 0, []⟩ true 0xfff 0x3000 [7, 9] true =
        (true, [7, 9], w') ∧ w'.mem 0x3000 = 9 ∧
      nvmePrpXfer w' true 0xfff 0x3000 [0, 0] false = (true, [7, 9], w'') := by
  rcases hx : nvmePrpXfer ⟨.flat, fun _ => 0, []⟩ true 0xfff 0x3000 [7, 9] true with ⟨ok, buf', w'⟩
  rcases hy : nvmePrpXfer w' true 0xfff 0x3000 [0, 0] false with ⟨ok', dst, w''⟩
  have hok : (nvmePrpXfer ⟨.flat, fun _ => 0, []⟩ true 0xfff 0x3000 [7, 9] true).1 = true ∧
      (nvmePrpXfer (nvmePrpXfer ⟨.flat, fun _ => 0, []⟩ true 0xfff 0x3000 [7, 9] true).2.2 true
        0xfff 0x3000 [0, 0] false).1 = true := by decide +kernel
  rw [hx, hy] at hok
  obtain ⟨rfl, rfl⟩ := hok
  obtain ⟨hdone, -, hback⟩ := nvmePrpXfer_exact _ _ _ _ _ _ hx rfl
  obtain ⟨hmem, rfl⟩ := hdone rfl
  have hdst := hback rfl rfl (by decide) true [0, 0] dst w'' rfl hy
  refine ⟨w', w'', rfl, ?_, by rw [hy, hdst]⟩
  rw [hmem]
  decide +kernel

end VfuKvssd
