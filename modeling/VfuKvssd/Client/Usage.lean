import VfuKvssd.Client.Harness

/-! # Size and use as the client sees them

Identify Namespace tells the client the size of the namespace and how much of it
is in use, in bytes of slot footprint. The client asks for it on the admin pair
at any point of a session on the I/O pair, and finds the number of keys that its
requests so far have left.
-/
namespace VfuKvssd.Harness
open Foundations

/-- The fields of Identify Namespace about size and use. -/
structure Usage where
  nsze : ℕ
  ncap : ℕ
  nuse : ℕ
  nvmcap : ℕ

def word (bytes : List Byte) (off : ℕ) : ℕ := leNat ((bytes.drop off).take 8)

def Usage.ofPage (bytes : List Byte) : Usage :=
  ⟨word bytes 0x00, word bytes 0x08, word bytes 0x10, word bytes 0x30⟩

def usageEntry (cid : BitVec 16) : List Byte := nvmeSqe 0x06 cid 1 dataIova 0x00 0

def usageRequest (v : Cursor) (cid : BitVec 16) : Client Usage := do
  let cqe ← adminPair.exchange v (usageEntry cid)
  ensure (cqe.tag == v.phase) (.errx "%s: phase bit not set (status=%#x)")
  ensure (cqe.status >>> 1 == 0) (.errx "%s: non-zero status %#x")
  ensure (cqe.cid == cid) (.errx "%s: cid mismatch %u != %u")
  adminPair.release v
  let bytes ← peek dataIova page
  return .ofPage bytes

inductive Request
  | kv (r : KvRequest)
  | usage (cid : BitVec 16)

inductive Reply
  | kv (reply : KvReply)
  | usage (u : Usage)

def Request.Fits : Request → Prop
  | .kv r => r.Fits
  | .usage _ => True

/-- Requests on both pairs in any order, from the positions `a` and `v` on. -/
def session (a v : Cursor) : List Request → Client (List Reply)
  | [] => return []
  | .kv r :: rs => do
    let reply ← kvRequest v r
    let replies ← session a (v.next qDepth) rs
    return .kv reply :: replies
  | .usage cid :: rs => do
    let u ← usageRequest a cid
    let replies ← session (a.next qDepth) v rs
    return .usage u :: replies

/-! ## The map that a session talks to -/

/-- What a map of capacity `cap` reports. -/
noncomputable def usageOf (cap : ℕ) (m : KvMap) : Usage :=
  ⟨kvSlotSize * cap, kvSlotSize * cap, kvSlotSize * m.card, kvSlotSize * cap⟩

noncomputable def respond (cap : ℕ) (ednek : Bool) (m : KvMap) : Request → Reply × KvMap
  | .kv r => (.kv (answer cap ednek m r).1, (answer cap ednek m r).2)
  | .usage _ => (.usage (usageOf cap m), m)

noncomputable def responses (cap : ℕ) (ednek : Bool) (m : KvMap) :
    List Request → List Reply × KvMap
  | [] => ([], m)
  | r :: rs =>
    ((respond cap ednek m r).1 :: (responses cap ednek (respond cap ednek m r).2 rs).1,
      (responses cap ednek (respond cap ednek m r).2 rs).2)

/-! ## The page -/

theorem usage_nvmeIdNsPage (id : NvmeIdNsKV) :
    Usage.ofPage (nvmeIdNsPage id).bytes =
      ⟨id.nsze.toNat, id.nsze.toNat, id.nuse.toNat, id.nsze.toNat⟩ := by
  have hself (f : IdPage) {off : ℕ} (ho : off + 8 ≤ 4096) (x : BitVec 64) :
      word (f.copy off (leBytes 8 x.toNat)).bytes off = x.toNat := by
    have hw := Buffer.window_copy f off (leBytes 8 x.toNat) (by rw [leBytes_length]; exact ho)
    rw [leBytes_length] at hw
    rw [word, hw, leNat_toNat (by norm_num)]
  have hapart (f : IdPage) {off o : ℕ} (ho : o + 8 ≤ off ∨ off + 8 ≤ o) (x : BitVec 64) :
      word (f.copy off (leBytes 8 x.toNat)).bytes o = word f.bytes o := by
    rw [word, Buffer.window_copy_apart f (by rw [leBytes_length]; exact ho), word]
  rw [Usage.ofPage, Usage.mk.injEq, nvmeIdNsPage]
  refine ⟨?_, ?_, ?_, ?_⟩
  · rw [hapart _ (by norm_num), hapart _ (by norm_num), hapart _ (by norm_num), hself _ (by norm_num)]
  · rw [hapart _ (by norm_num), hapart _ (by norm_num), hself _ (by norm_num)]
  · rw [hapart _ (by norm_num), hself _ (by norm_num)]
  · rw [hself _ (by norm_num)]

theorem usage_reachable {maxNumKeys : BitVec 32} {d : Device} (hd : d.Reachable maxNumKeys) :
    Usage.ofPage (nvmeIdNsPage d.n.ns.idNsKv).bytes = usageOf maxNumKeys.toNat d.n.ns.contents := by
  obtain ⟨hvalid, hmax⟩ := hd.ns_valid
  rw [usage_nvmeIdNsPage, usageOf, hvalid.nsze_eq, hvalid.nuse_eq, hvalid.card_contents, hmax]

/-! ## Requests -/

section Requests
variable {maxNumKeys : BitVec 32} {ednek : Bool} {j k : ℕ} {m : KvMap} {d : Device}

theorem nvmeExecute_usage {n n₀ : NvmeCtrl} {st : Status} {cdw0 : BitVec 32} {cid : BitVec 16}
    (hm : n.world.vfu.MapsBelow memSize)
    (hx : nvmeExecute n (fun _ => true) 0 ⟨Buffer.ofBytes (usageEntry cid)⟩ = some (st, cdw0, n₀)) :
    st = nvmeSuccess ∧ n₀.ns = n.ns ∧ n₀.sq = n.sq ∧ n₀.cq = n.cq ∧
      n₀.world.mem = writeAll n.world.mem (span (BitVec.ofNat 64 dataIova) kvssdPageSize)
        (nvmeIdNsPage n.ns.idNsKv).bytes := by
  have hdec : SqeDecodes ⟨Buffer.ofBytes (usageEntry cid)⟩ 0x06 cid dataIova 0x00 0 :=
    nvmeSqe_decodes 0x06 cid 1 dataIova 0x00 0
  generalize (⟨Buffer.ofBytes (usageEntry cid)⟩ : NvmeSqe) = sqe at hx hdec
  have hp : nvmeIdentifyPage n (sqe.cdw10.setWidth 8) ((sqe.cdw11 >>> 24).setWidth 8) =
      some (nvmeIdNsPage n.ns.idNsKv) := by
    rw [hdec.cdw10, nvmeIdentifyPage, if_neg (by decide), if_pos (by decide)]
  have hprp : sqe.prp1.toNat = dataIova := by rw [hdec.prp1]; rfl
  obtain ⟨hst, w, rfl, hw⟩ := nvmeExecute_identify hm hdec.opcode hp (by rw [hprp]; rfl)
    (by rw [hprp]; decide) hx
  rw [hdec.prp1] at hw
  exact ⟨hst, rfl, rfl, rfl, hw⟩

theorem dataPage_cqSpan {a : Addr} (ha : a ∈ span (BitVec.ofNat 64 dataIova) kvssdPageSize) (j : ℕ) :
    a ∉ adminPair.cqSpan (j % adminPair.depth) := by
  have hj := adminPair_within.slot_lt j
  rw [mem_span_ofNat (by decide)] at ha
  have hd : adminPair.depth = 8 := rfl
  have hc : adminPair.cqSlot (j % adminPair.depth) = 4096 + 16 * (j % adminPair.depth) := rfl
  rw [QueuePair.cqSpan, mem_span_ofNat (by rw [hc]; omega), hc]
  have hv : dataIova = 16384 := rfl
  omega

/-- The client reads what the namespace holds, and the I/O pair is left alone. -/
theorem runs_usageRequest (cid : BitVec 16) (h : adminPair.Ready memSize maxNumKeys j d) :
    Runs (On (· = d)) (usageRequest (ringPos qDepth j) cid) fun u c =>
      u = usageOf maxNumKeys.toNat d.n.ns.contents ∧
        adminPair.Ready memSize maxNumKeys (j + 1) c.dev ∧ c.dev.n.ns = d.n.ns ∧
        c.dev.n.sq 1 = d.n.sq 1 ∧ c.dev.n.cq 1 = d.n.cq 1 := by
  have hlen : (usageEntry cid).length = 64 := nvmeSqe_length ..
  obtain ⟨d₁, hd₁⟩ : ∃ d₁, d₁ = d.setMemory
    (stored d.n.world.mem (adminPair.sqSlot (j % adminPair.depth)) (usageEntry cid)) := ⟨_, rfl⟩
  have hdec := nvmeSqe_decodes 0x06 cid 1 dataIova 0x00 0
  obtain ⟨d₂, st, cdw0, n₀, hready₂, hans, hexchange⟩ := QueuePair.runs_exchange adminPair_within h
    (.inl rfl) hlen (fun _ => by rw [usageEntry, hdec.opcode]; decide) hd₁
  have hentry : adminPair.sqEntry d₁.n.world.mem (j % adminPair.depth) =
      ⟨Buffer.ofBytes (usageEntry cid)⟩ := by
    rw [hd₁, Device.setMemory_mem, QueuePair.sqEntry_stored _ _ hlen]
  obtain ⟨n, -, hvfu, hns, hcq, hsq, hx⟩ := hans.ran
  rw [hentry] at hx
  obtain ⟨rfl, hns₀, hsq₀, hcq₀, hmem₀⟩ := nvmeExecute_usage (by
    rw [hvfu, hd₁]
    exact h.mapped) hx
  have hns₂ : d₂.n.ns = d.n.ns := by rw [hans.ns, hns₀, hns, hd₁, Device.setMemory_ns]
  have hpage : (span (BitVec.ofNat 64 dataIova) kvssdPageSize).map d₂.n.world.mem =
      (nvmeIdNsPage d.n.ns.idNsKv).bytes := by
    rw [List.map_congr_left fun a ha => hans.outside a (dataPage_cqSpan ha j), hmem₀,
      map_writeAll (span_nodup (by decide)) (by rw [span_length, Buffer.bytes_length]; rfl), hns,
      hd₁, Device.setMemory_ns]
  obtain ⟨d₃, hready₃, hns₃, hmem₃, hsq₃, hcq₃, hrelease⟩ :=
    QueuePair.runs_release adminPair_within hready₂ j
  refine hexchange.bind fun cqe => ?_
  refine Runs.seq (R := fun c => c.dev = d₂ ∧
    cqe = adminPair.cqEntry d₂.n.world.mem (j % adminPair.depth)) (Runs.ensure ?_) ?_
  · rintro c ⟨rfl, rfl⟩
    exact ⟨by rw [hans.tag]; exact beq_self_eq_true _, rfl, rfl⟩
  refine Runs.seq (R := fun c => c.dev = d₂ ∧
    cqe = adminPair.cqEntry d₂.n.world.mem (j % adminPair.depth)) (Runs.ensure ?_) ?_
  · rintro c ⟨rfl, rfl⟩
    exact ⟨by rw [hans.status]; rfl, rfl, rfl⟩
  refine Runs.seq (R := On (· = d₂)) (Runs.ensure ?_) ?_
  · rintro c ⟨rfl, rfl⟩
    refine ⟨?_, rfl⟩
    rw [hans.cid, hentry, usageEntry, hdec.cid]
    exact beq_self_eq_true _
  refine hrelease.seq ((runs_peek dataIova VfuKvssd.page).bind fun bytes => Runs.pure ?_)
  rintro c ⟨rfl, hbytes⟩
  refine ⟨?_, hready₃, by rw [hns₃, hns₂], ?_, ?_⟩
  · rw [hbytes, hmem₃, show VfuKvssd.page = kvssdPageSize from rfl, hpage, usage_reachable h.reachable]
  · rw [hsq₃, hans.sq, hsq₀, hsq 1 (by decide), hd₁, Device.setMemory_sq]
  · rw [hcq₃ 1 (by decide), hans.cq, Function.update_of_ne (by decide), hcq₀, hcq, hd₁,
      Device.setMemory_cq]

end Requests

/-! ## Sessions -/

/-- Both pairs are ready, at commands number `j` and `k`, and the namespace holds `m`. -/
structure Both (maxNumKeys : BitVec 32) (ednek : Bool) (j k : ℕ) (m : KvMap) (d : Device) : Prop where
  admin : adminPair.Ready memSize maxNumKeys j d
  live : Live maxNumKeys ednek k m d

/-- A client that uses both pairs in any order sees the replies of a map with the capacity of the
device; in particular the use that Identify Namespace reports is, at every point of the session,
the footprint of exactly the keys that the requests so far have left. -/
theorem session_refines_map {maxNumKeys : BitVec 32} (hcap : maxNumKeys.toNat < 2 ^ 30)
    (ednek : Bool) {rs : List Request} (hrs : ∀ r ∈ rs, r.Fits) (j k : ℕ) (m : KvMap) :
    Runs (On (Both maxNumKeys ednek j k m)) (session (ringPos qDepth j) (ringPos qDepth k) rs)
      fun replies c => replies = (responses maxNumKeys.toNat ednek m rs).1 ∧
        ∃ j' k', Both maxNumKeys ednek j' k' (responses maxNumKeys.toNat ednek m rs).2 c.dev := by
  induction rs generalizing j k m with
  | nil => exact Runs.pure fun c hc => ⟨rfl, j, k, hc⟩
  | cons r rs ih =>
    have hrest := ih fun x hx => hrs x (List.mem_cons_of_mem _ hx)
    cases r with
    | kv r =>
      have hfirst : Runs (On (Both maxNumKeys ednek j k m)) (kvRequest (ringPos qDepth k) r)
          fun reply c => reply = (answer maxNumKeys.toNat ednek m r).1 ∧
            Both maxNumKeys ednek j (k + 1) (answer maxNumKeys.toNat ednek m r).2 c.dev := by
        refine runs_of_each fun d hd => ?_
        refine (runs_kvRequest hcap (hrs (.kv r) List.mem_cons_self) hd.live).post ?_
        rintro reply c ⟨hreply, hlive, hsq, hcq⟩
        exact ⟨hreply, hd.admin.frame hlive.ready hsq hcq, hlive⟩
      refine hfirst.bind fun reply => Runs.assume fun hreply => ?_
      have hgo := hrest j (k + 1) (answer maxNumKeys.toNat ednek m r).2
      rw [← ringPos_next (by decide) k] at hgo
      refine hgo.bind fun replies => Runs.pure ?_
      rintro c ⟨rfl, hboth⟩
      exact ⟨by rw [hreply]; rfl, hboth⟩
    | usage cid =>
      have hfirst : Runs (On (Both maxNumKeys ednek j k m)) (usageRequest (ringPos qDepth j) cid)
          fun u c => u = usageOf maxNumKeys.toNat m ∧ Both maxNumKeys ednek (j + 1) k m c.dev := by
        refine runs_of_each fun d hd => ?_
        refine (runs_usageRequest cid hd.admin).post ?_
        rintro u c ⟨hu, hready, hns, hsq, hcq⟩
        refine ⟨by rw [hu, hd.live.contents], hready, ?_, by rw [hns, hd.live.setting], ?_⟩
        · exact hd.live.ready.frame hready hsq hcq
        · rw [hns, hd.live.contents]
      refine hfirst.bind fun u => Runs.assume fun hu => ?_
      have hgo := hrest (j + 1) k m
      rw [← ringPos_next (by decide) j] at hgo
      refine hgo.bind fun replies => Runs.pure ?_
      rintro c ⟨rfl, hboth⟩
      exact ⟨by rw [hu]; rfl, hboth⟩

/-- Admin queues of 8 entries, and the I/O pair. -/
def bothInputs : List Input :=
  [regWrite nvmeRegAqa 0x00070007, regWrite nvmeRegAcq 0x1000, regWrite nvmeRegCc 1,
    .hostMemory pairMemory, sqTailWrite 0 2] ++ iterations 3

def storeUsage : List Request :=
  [.kv ⟨.store, 10, asciiBytes "abc", 15, 0, asciiBytes "hello-kv-value"⟩, .usage 11]

theorem storeUsage_fits : ∀ r ∈ storeUsage, r.Fits := by
  intro r hr
  simp only [storeUsage, List.mem_cons, List.not_mem_nil, or_false] at hr
  rcases hr with rfl | rfl
  · exact ⟨by decide, by decide, by decide⟩
  · trivial

theorem session_refines_map_storeUsage : ∃ d m, Both 2 false 2 0 m d ∧ ∃ c,
    (session (ringPos qDepth 2) (ringPos qDepth 0) storeUsage).run ⟨d, 1, 0⟩ =
      .ok ((responses 2 false m storeUsage).1, c) := by
  have hrun : (bootRun 2 (fun _ _ => true) bothInputs).map (fun d => decide (
      d.busy = none ∧ d.n.sq 0 = ⟨0, 8, 0, 0, 2, 2, true⟩ ∧ d.n.sq 1 = ⟨0x2000, 8, 1, 1, 0, 0, true⟩ ∧
      ((d.n.cq 0).enabled = true ∧ (d.n.cq 0).dma = 0x1000 ∧ (d.n.cq 0).size = 8 ∧
        (d.n.cq 0).tail = 2 ∧ (d.n.cq 0).phase = 1) ∧
      ((d.n.cq 1).enabled = true ∧ (d.n.cq 1).dma = 0x3000 ∧ (d.n.cq 1).size = 8 ∧
        (d.n.cq 1).tail = 0 ∧ (d.n.cq 1).phase = 1) ∧
      (d.n.ns.ednek &&& 0x01 != 0) = false)) = some true := by decide +kernel
  obtain ⟨d, hd, hobs⟩ := Option.map_eq_some_iff.mp hrun
  obtain ⟨hidle, hsq₀, hsq₁, ⟨hon₀, hdma₀, hsize₀, htail₀, hphase₀⟩,
    ⟨hon₁, hdma₁, hsize₁, htail₁, hphase₁⟩, hednek⟩ := of_decide_eq_true hobs
  have hadmin : adminPair.At 2 d.n := by
    have hsq : d.n.sq adminPair.q = _ := hsq₀
    exact ⟨by rw [hsq], by rw [hsq]; rfl, by rw [hsq]; rfl, by rw [hsq]; rfl, by rw [hsq]; rfl,
      hon₀, hdma₀, congrArg BitVec.toNat hsize₀, congrArg BitVec.toNat htail₀, hphase₀⟩
  have hio : ioPair.At 0 d.n := by
    have hsq : d.n.sq ioPair.q = _ := hsq₁
    exact ⟨by rw [hsq], by rw [hsq]; rfl, by rw [hsq]; rfl, by rw [hsq]; rfl, by rw [hsq]; rfl,
      hon₁, hdma₁, congrArg BitVec.toNat hsize₁, congrArg BitVec.toNat htail₁, hphase₁⟩
  have hreach := (reachable_of_bootRun hd).next (i := .dmaRegions .flat) rfl
  have hboth : Both 2 false 2 0 d.n.ns.contents
      { d with n := d.n.withWorld { d.n.world with vfu := .flat } } := by
    refine ⟨⟨hreach, hidle, Vfu.flat_mapsBelow memSize, hadmin.congr rfl rfl, ?_⟩,
      ⟨hreach, hidle, Vfu.flat_mapsBelow memSize, hio.congr rfl rfl, ?_⟩, hednek, rfl⟩
    · change (d.n.sq 0).tail = (d.n.sq 0).head
      rw [hsq₀]
    · change (d.n.sq 1).tail = (d.n.sq 1).head
      rw [hsq₁]
  have hcap : (2 : BitVec 32).toNat < 2 ^ 30 := by decide
  obtain ⟨_, c, hpass, rfl, -⟩ :=
    session_refines_map hcap false storeUsage_fits 2 0 _ ⟨_, 1, 0⟩ hboth
  exact ⟨_, _, hboth, c, hpass⟩

end VfuKvssd.Harness
