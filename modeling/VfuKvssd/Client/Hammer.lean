import VfuKvssd.Client.AdminPort
import VfuKvssd.Controller.Readiness

/-! # The hammer runs to its end

Each client function gets one triple, between the disabled controller (`Down`)
and an enabled one whose rings stand at a command number (`Up`). Every mode
starts and ends with `Down`, for any number of rounds and any seed.
-/
namespace VfuKvssd
open Foundations

section Rules
variable {P Q : Device → Prop}

theorem runs_poke {iova : ℕ} {bytes : List Byte}
    (h : ∀ d, P d → Q (d.setMemory (stored d.n.world.mem iova bytes))) :
    Runs (On P) (poke iova bytes) fun _ => On Q :=
  Runs.modify fun c hc => h c.dev hc

theorem runs_peekCqe (iova : ℕ) :
    Runs (On P) (peekCqe iova) fun cqe c => P c.dev ∧
      cqe = .ofBytes ((span (BitVec.ofNat 64 iova) 16).map c.dev.n.world.mem) := by
  refine Runs.get.bind fun c => Runs.pure ?_
  rintro s ⟨rfl, hc⟩
  exact ⟨hc, rfl⟩

theorem runs_countOps (k : ℕ) : Runs (On P) (countOps k) fun _ => On P :=
  Runs.modify fun _ hc => hc

theorem runs_xrand : Runs (On P) xrand fun _ => On P := by
  have hseed : Runs (On P) (modify Ctx.reseed : Client PUnit) fun _ => On P :=
    Runs.modify fun c hc => by rwa [On, c.reseed_dev]
  exact hseed.seq (Runs.get.bind fun _ => Runs.pure fun _ h => h.2)

theorem regImage_csts (n : NvmeCtrl) :
    ((regImage n).drop nvmeRegCsts).take 4 = leBytes 4 n.csts.toNat := rfl

theorem Device.step_rdCsts {d : Device} (hb : d.busy = none) :
    d.step (.bar0 false nvmeRegCsts (leBytes 4 0)) =
      some (d.replies (leBytes 4 d.n.csts.toNat)) := by
  rw [step_window hb (by decide), leBytes_length, regImage_csts]

theorem Device.access_rdCsts {d : Device} (hb : d.busy = none) :
    d.access false nvmeRegCsts (leBytes 4 0) =
      some (leBytes 4 d.n.csts.toNat, d.replies (leBytes 4 d.n.csts.toNat)) := by
  have hread : nvmeBar0Access d.n (leBytes 4 0) nvmeRegCsts false =
      some (d.n, leBytes 4 d.n.csts.toNat, none) := by
    rw [nvmeBar0Access, if_neg (by decide), if_neg Bool.false_ne_true, nvmeRegRead,
      if_pos (by decide), nvmeRegs_bytes, leBytes_length, regImage_csts]
  rw [access, hread, Option.bind_some, step_rdCsts hb, Option.bind_some, replies, settle_register,
    Option.map_some]

theorem regRd32_csts {c : Ctx} (hb : c.dev.busy = none) :
    (regRd32 nvmeRegCsts).run c =
      .ok (c.dev.n.csts, { c with dev := c.dev.replies (leBytes 4 c.dev.n.csts.toNat) }) := by
  have hregion : (accessRegion false nvmeRegCsts (leBytes 4 0)).run c =
      .ok (some (leBytes 4 c.dev.n.csts.toNat),
        { c with dev := c.dev.replies (leBytes 4 c.dev.n.csts.toNat) }) := by
    rw [StateT.run, accessRegion, if_neg (by decide), Device.access_rdCsts hb]
  rw [regRd32, StateT.run_bind, hregion]
  change Except.ok (BitVec.ofNat 32 (leNat (leBytes 4 c.dev.n.csts.toNat)), _) = _
  rw [leNat_toNat (w := 32) (by norm_num), BitVec.ofNat_toNat, BitVec.setWidth_eq]

theorem runs_rdCsts (hidle : ∀ d, P d → d.busy = none)
    (h : ∀ d d' bytes, P d → d.step (.bar0 false nvmeRegCsts (leBytes 4 0)) = some d' →
      d' = d.replies bytes → Q d') :
    Runs (On P) (regRd32 nvmeRegCsts) fun v c => v = c.dev.n.csts ∧ Q c.dev :=
  fun c hc => ⟨_, _, regRd32_csts (hidle c.dev hc), rfl,
    h c.dev _ _ hc (Device.step_rdCsts (hidle c.dev hc)) rfl⟩

end Rules

/-! ## Enable and disable -/

section Switch
variable {maxNumKeys : BitVec 32}

theorem Down.next {d d' : Device} {i : Input} (h : Down maxNumKeys d) (hs : d.step i = some d')
    (hb : d'.busy = none) (hv : d'.n.world.vfu = d.n.world.vfu) (hcc : d'.n.cc = d.n.cc) :
    Down maxNumKeys d' :=
  ⟨h.reachable.next hs, hb, hv ▸ h.mapped, hcc.trans h.cc⟩

/-- Admin queue attributes and base addresses as the client programs them. -/
structure Programmed (maxNumKeys : BitVec 32) (d : Device) : Prop where
  down : Down maxNumKeys d
  aqa : d.n.aqa = 0x000f000f
  asq : d.n.asq = BitVec.ofNat 64 asqIova
  acq : d.n.acq = BitVec.ofNat 64 acqIova

theorem Device.step_store32 {d : Device} (hb : d.busy = none) {o : ℕ}
    (ho : o < nvmeRegDoorbell) (v : BitVec 32) :
    d.step (.bar0 true o (leBytes 4 v.toNat)) =
      some ⟨nvmeRegStore d.n o (v.setWidth 64) 4, none⟩ := by
  rw [step_regStore hb ho (by simp), leNat_toNat (w := 32) (by norm_num), leBytes_length,
    show BitVec.ofNat 64 v.toNat = v.setWidth 64 from BitVec.eq_of_toNat_eq (by simp)]

theorem Device.step_store64 {d : Device} (hb : d.busy = none) {o : ℕ}
    (ho : o < nvmeRegDoorbell) (v : BitVec 64) :
    d.step (.bar0 true o (leBytes 8 v.toNat)) = some ⟨nvmeRegStore d.n o v 8, none⟩ := by
  rw [step_regStore hb ho (by simp), ofNat_leBytes, leBytes_length]

theorem nvmeCcWrite_enable {n : NvmeCtrl} (hcc : n.cc = 0) :
    nvmeCcWrite n ccEnable = nvmeEnable { n with cc := ccEnable } := by
  have hen : (ccEn ccEnable && !ccEn 0) = true := by decide
  have hshut : ¬ (ccShn ccEnable != 0 && ccShn 0 == 0) = true := by decide
  have hback : ¬ (ccShn ccEnable == 0 && ccShn 0 != 0) = true := by decide
  rw [nvmeCcWrite, hcc, nvmeCcEnable, if_pos hen, nvmeCcShutdown]
  exact (if_neg hshut).trans (if_neg hback)

/-- A shutdown notification on an enabled controller completes at once. -/
theorem nvmeCcWrite_shutdown {n : NvmeCtrl} (hcc : n.cc = ccEnable) :
    (nvmeCcWrite n (ccEnable ||| ccShnNormal)).csts =
      (n.csts &&& ~~~nvmeCstsShstMask) ||| nvmeCstsShstComplete := by
  have hen : ¬ (ccEn (ccEnable ||| ccShnNormal) && !ccEn ccEnable) = true := by decide
  have hdis : ¬ (!ccEn (ccEnable ||| ccShnNormal) && ccEn ccEnable) = true := by decide
  have hshut : (ccShn (ccEnable ||| ccShnNormal) != 0 && ccShn ccEnable == 0) = true := by decide
  rw [nvmeCcWrite, hcc, nvmeCcEnable, if_neg hen, if_neg hdis, nvmeCcShutdown, if_pos hshut]

theorem Programmed.enable {d : Device} (h : Programmed maxNumKeys d) :
    Up maxNumKeys 0 ⟨nvmeCcWrite d.n ccEnable, none⟩ := by
  have hs := Device.step_store32 h.down.idle (o := nvmeRegCc) (by decide) ccEnable
  have hn : nvmeRegStore d.n nvmeRegCc (ccEnable.setWidth 64) 4 = nvmeCcWrite d.n ccEnable := by
    change nvmeCcWrite d.n ((ccEnable.setWidth 64).setWidth 32) = _
    rw [show (ccEnable.setWidth 64).setWidth 32 = ccEnable by decide]
  have hasq : (nvmeEnable { d.n with cc := ccEnable }).sq 0 =
      { NvmeSq.zero with dma := d.n.asq, size := (d.n.aqa &&& 0xfff) + 1, enabled := true } := rfl
  have hacq : (nvmeEnable { d.n with cc := ccEnable }).cq 0 =
      { NvmeCq.zero with
        dma := d.n.acq, size := ((d.n.aqa >>> 16) &&& 0xfff) + 1, phase := 1, enabled := true } :=
    rfl
  rw [h.asq, h.aqa] at hasq
  rw [h.acq, h.aqa] at hacq
  rw [hn, nvmeCcWrite_enable h.down.cc] at hs
  rw [nvmeCcWrite_enable h.down.cc]
  refine ⟨h.down.reachable.next hs, rfl, ⟨h.down.mapped, rfl, rfl, ?_, ?_, ?_, ?_, ?_, ?_, ?_, ?_⟩,
    ?_⟩ <;> simp only [hasq, hacq]
  · decide
  · rfl
  · decide
  · exact ⟨rfl, rfl⟩
  · rfl

/-- The device is idle, enabled or not. -/
structure AtRest (maxNumKeys : BitVec 32) (d : Device) : Prop where
  reachable : d.Reachable maxNumKeys
  idle : d.busy = none
  mapped : d.n.world.vfu.MapsBelow memSize

theorem Up.atRest {k : ℕ} {d : Device} (h : Up maxNumKeys k d) : AtRest maxNumKeys d :=
  ⟨h.reachable, h.idle, h.rings.mapped⟩

theorem Down.atRest {d : Device} (h : Down maxNumKeys d) : AtRest maxNumKeys d :=
  ⟨h.reachable, h.idle, h.mapped⟩

theorem Up.replies {k : ℕ} {d d' : Device} {i : Input} {bytes : List Byte} (h : Up maxNumKeys k d)
    (hs : d.step i = some d') (hd : d' = d.replies bytes) : Up maxNumKeys k d' := by
  subst hd
  obtain ⟨h₁, h₂, h₃, h₄, h₅, h₆, h₇, h₈, h₉, h₁₀, h₁₁⟩ := h.rings
  exact ⟨h.reachable.next hs, rfl, ⟨h₁, h₂, h₃, h₄, h₅, h₆, h₇, h₈, h₉, h₁₀, h₁₁⟩, h.caughtUp⟩

theorem runs_controllerEnable :
    Runs (On (Down maxNumKeys)) controllerEnable fun _ => On (Up maxNumKeys 0) := by
  have haqa : Runs (On (Down maxNumKeys))
      (regWr32 nvmeRegAqa (BitVec.ofNat 32 (qDepth - 1) ||| (BitVec.ofNat 32 (qDepth - 1) <<< 16)))
      fun _ => On fun d => Down maxNumKeys d ∧ d.n.aqa = 0x000f000f :=
    runs_store32 (by decide) (fun d h => h.idle) fun d h =>
      ⟨h.next (Device.step_store32 h.idle (by decide) _) rfl rfl rfl, rfl⟩
  have hasq : Runs (On fun d => Down maxNumKeys d ∧ d.n.aqa = 0x000f000f)
      (regWr64 nvmeRegAsq (BitVec.ofNat 64 asqIova))
      fun _ => On fun d => Down maxNumKeys d ∧ d.n.aqa = 0x000f000f ∧
        d.n.asq = BitVec.ofNat 64 asqIova :=
    runs_store64 (by decide) (fun d h => h.1.idle) fun d h =>
      ⟨h.1.next (Device.step_store64 h.1.idle (by decide) _) rfl rfl rfl, h.2, rfl⟩
  have hacq : Runs (On fun d => Down maxNumKeys d ∧ d.n.aqa = 0x000f000f ∧
        d.n.asq = BitVec.ofNat 64 asqIova)
      (regWr64 nvmeRegAcq (BitVec.ofNat 64 acqIova)) fun _ => On (Programmed maxNumKeys) :=
    runs_store64 (by decide) (fun d h => h.1.idle) fun d h =>
      ⟨h.1.next (Device.step_store64 h.1.idle (by decide) _) rfl rfl rfl, h.2.1, h.2.2, rfl⟩
  have hcc : Runs (On (Programmed maxNumKeys)) (regWr32 nvmeRegCc ccEnable)
      fun _ => On (Up maxNumKeys 0) :=
    runs_store32 (by decide) (fun d h => h.down.idle) fun d h => h.enable
  refine haqa.seq (hasq.seq (hacq.seq (hcc.seq ?_)))
  refine (runs_rdCsts (fun d h => h.idle) fun d d' bytes h hs hd => h.replies hs hd).bind fun v => ?_
  refine Runs.ensure ?_
  rintro c ⟨rfl, h⟩
  exact ⟨by rw [h.rings.csts]; rfl, h⟩

theorem runs_controllerDisable :
    Runs (On (AtRest maxNumKeys)) controllerDisable fun _ => On (Down maxNumKeys) := by
  have hcc : Runs (On (AtRest maxNumKeys)) (regWr32 nvmeRegCc 0)
      fun _ => On (Down maxNumKeys) := by
    refine runs_store32 (by decide) (fun d h => h.idle) fun d h => ?_
    have hs := Device.step_store32 h.idle (o := nvmeRegCc) (by decide) 0
    refine ⟨h.reachable.next hs, rfl, ?_, nvmeCcWrite_cc d.n _⟩
    change (nvmeCcWrite d.n _).world.vfu.MapsBelow memSize
    rw [nvmeCcWrite_world]
    split
    · exact h.mapped
    · exact h.mapped
  refine hcc.seq ?_
  refine (runs_rdCsts (Q := Down maxNumKeys) (fun d h => h.idle) fun d d' bytes h hs hd =>
    h.next hs (hd ▸ rfl) (hd ▸ rfl) (hd ▸ rfl)).bind fun v => ?_
  refine Runs.ensure ?_
  rintro c ⟨rfl, h⟩
  have hready := h.reachable.coherent.ready
  rw [h.cc, show ccEn 0 = false by decide, cstsRdy, bne_eq_false_iff_eq] at hready
  exact ⟨by rw [hready]; rfl, h⟩

end Switch

/-! ## Entries in shared memory -/

section Entries

theorem asqEntry_stored_self (mem : Memory) {bytes : List Byte} (hlen : bytes.length = 64) (j : ℕ) :
    asqEntry (stored mem (asqSlot j) bytes) j = ⟨Buffer.ofBytes bytes⟩ := by
  rw [asqEntry, stored, hlen, map_writeAll (span_nodup (by norm_num)) (by simp [hlen])]

theorem asqEntry_stored_other (mem : Memory) {bytes : List Byte} (hlen : bytes.length = 64)
    {i j : ℕ} (hi : i < 16) (hj : j < 16) (hij : i ≠ j) :
    asqEntry (stored mem (asqSlot i) bytes) j = asqEntry mem j := by
  have hlti := asqSlot_lt hi
  have hltj := asqSlot_lt hj
  simp only [asqSlot, asqIova, page] at hlti hltj
  rw [asqEntry, asqEntry]
  congr 2
  refine List.map_congr_left fun a ha => writeAll_outside ?_
  rw [hlen]
  intro ha'
  simp only [asqSlot, asqIova] at ha ha'
  rw [mem_span_ofNat (by omega)] at ha ha'
  omega

theorem field_ofBytes {bytes : List Byte} (hlen : bytes.length = 64) {off n : ℕ}
    (h : off + n ≤ 64) :
    Entry.field (Buffer.ofBytes bytes) off n = (bytes.drop off).take n := by
  have hbytes : Buffer.bytes (Buffer.ofBytes bytes : Entry) = bytes := by
    apply List.ext_getElem (by simp [hlen])
    intro i h₁ h₂
    simp [Buffer.getElem_bytes, Buffer.ofBytes, List.getD_eq_getElem?_getD, h₂]
  apply List.ext_getElem
  · simp [Entry.field, hlen]
    omega
  · intro i h₁ h₂
    simp only [Entry.field, List.getElem_map, List.getElem_range, hbytes, List.getElem_take,
      List.getElem_drop]
    simp [List.getD_eq_getElem?_getD, show off + i < bytes.length by simp at h₁ h₂; omega]

/-- A number in an entry reads back, whichever field it is in. -/
theorem number_ofBytes {bytes : List Byte} (hlen : bytes.length = 64) {off n w : ℕ}
    (h : off + n ≤ 64) (hw : 256 ^ n = 2 ^ w) {v : BitVec w}
    (hv : (bytes.drop off).take n = leBytes n v.toNat) :
    BitVec.ofNat w (leNat (Entry.field (Buffer.ofBytes bytes) off n)) = v := by
  rw [field_ofBytes hlen h, hv, leNat_toNat hw, BitVec.ofNat_toNat, BitVec.setWidth_eq]

section Decode
variable (opcode : Byte) (cid : BitVec 16) (nsid : BitVec 32) (prp1 : ℕ) (cdw10 cdw11 : BitVec 32)

theorem nvmeSqe_length : (nvmeSqe opcode cid nsid prp1 cdw10 cdw11).length = 64 := by
  simp [nvmeSqe]

/-- What the device reads back from such an entry. -/
structure SqeDecodes (sqe : NvmeSqe) (opcode : Byte) (cid : BitVec 16) (prp1 : ℕ)
    (cdw10 cdw11 : BitVec 32) : Prop where
  opcode : sqe.opcode = opcode
  cid : sqe.cid = cid
  prp1 : sqe.prp1 = BitVec.ofNat 64 prp1
  cdw10 : sqe.cdw10 = cdw10
  cdw11 : sqe.cdw11 = cdw11

theorem nvmeSqe_decodes :
    SqeDecodes ⟨Buffer.ofBytes (nvmeSqe opcode cid nsid prp1 cdw10 cdw11)⟩ opcode cid prp1 cdw10
      cdw11 := by
  have hlen := nvmeSqe_length opcode cid nsid prp1 cdw10 cdw11
  have hcid : ((nvmeSqe opcode cid nsid prp1 cdw10 cdw11).drop 2).take 2 = leBytes 2 cid.toNat := rfl
  have hprp : ((nvmeSqe opcode cid nsid prp1 cdw10 cdw11).drop 24).take 8 =
      leBytes 8 (BitVec.ofNat 64 prp1).toNat := rfl
  have hcdw10 : ((nvmeSqe opcode cid nsid prp1 cdw10 cdw11).drop 40).take 4 =
      leBytes 4 cdw10.toNat := rfl
  have hcdw11 : ((nvmeSqe opcode cid nsid prp1 cdw10 cdw11).drop 44).take 4 =
      leBytes 4 cdw11.toNat := rfl
  refine ⟨rfl, ?_, ?_, ?_, ?_⟩
  · exact number_ofBytes hlen (by norm_num) (by norm_num) hcid
  · exact number_ofBytes hlen (by norm_num) (by norm_num) hprp
  · exact number_ofBytes hlen (by norm_num) (by norm_num) hcdw10
  · exact number_ofBytes hlen (by norm_num) (by norm_num) hcdw11

end Decode

theorem harmless_identify {cid : BitVec 16} {prp : ℕ} {cdw10 : BitVec 32} (hlow : dataIova ≤ prp)
    (hhigh : prp + page ≤ 2 ^ 64) (hpage : prp % page = 0) :
    Harmless ⟨Buffer.ofBytes (nvmeSqe nvmeAdmIdentify cid 0 prp cdw10 0)⟩ := by
  have hdec := nvmeSqe_decodes nvmeAdmIdentify cid 0 prp cdw10 0
  refine ⟨by rw [hdec.opcode]; decide, fun a ha => ?_⟩
  have hprp : (BitVec.ofNat 64 prp).toNat = prp := by
    rw [BitVec.toNat_ofNat, Nat.mod_eq_of_lt]
    simp only [page] at hhigh
    omega
  have hfirst : prpFirst (BitVec.ofNat 64 prp) kvssdPageSize = kvssdPageSize := by
    rw [prpFirst_eq, hprp, show kvssdPageSize = page from rfl, hpage]
    simp
  simp only [dataBuffer, if_true, hdec.opcode, prpAddrs, hdec.prp1, hfirst, Nat.sub_self,
    span_zero, List.append_nil] at ha
  rw [show kvssdPageSize = page from rfl, mem_span_ofNat hhigh] at ha
  omega

/-- Every other command that the client submits moves no data. -/
theorem harmless_other {opcode : Byte} (hid : opcode ≠ nvmeAdmIdentify)
    (haer : opcode ≠ nvmeAdmAsyncEvent) (cid : BitVec 16) (prp1 : ℕ) (cdw10 cdw11 : BitVec 32) :
    Harmless ⟨Buffer.ofBytes (nvmeSqe opcode cid 0 prp1 cdw10 cdw11)⟩ := by
  have hop := (nvmeSqe_decodes opcode cid 0 prp1 cdw10 cdw11).opcode
  refine ⟨by rwa [hop], fun a ha => ?_⟩
  rw [dataBuffer, if_pos rfl, if_neg (by rwa [hop])] at ha
  cases ha

theorem identifySqe_length (cid : BitVec 16) : (identifySqe cid).length = 64 := nvmeSqe_length ..

theorem identifySqe_decodes (cid : BitVec 16) :
    SqeDecodes ⟨Buffer.ofBytes (identifySqe cid)⟩ nvmeAdmIdentify cid dataIova 0x01 0 :=
  nvmeSqe_decodes ..

theorem identifySqe_harmless (cid : BitVec 16) : Harmless ⟨Buffer.ofBytes (identifySqe cid)⟩ :=
  harmless_identify le_rfl (by decide) (by decide)

theorem identifySqe_identifies (cid : BitVec 16) :
    IdentifiesCtrl ⟨Buffer.ofBytes (identifySqe cid)⟩ := by
  have hdec := identifySqe_decodes cid
  exact ⟨hdec.opcode, by rw [hdec.cdw10]; decide, hdec.prp1⟩

end Entries

/-! ## Submitting and draining -/

section Submit
variable {maxNumKeys : BitVec 32} {k m : ℕ} {M : Memory → Prop}

theorem Up.setMemory {d : Device} (h : Up maxNumKeys k d) (mem : Memory) :
    Up maxNumKeys k (d.setMemory mem) := by
  obtain ⟨h₁, h₂, h₃, h₄, h₅, h₆, h₇, h₈, h₉, h₁₀, h₁₁⟩ := h.rings
  have hs : d.step (.hostMemory mem) = some (d.setMemory mem) := rfl
  exact ⟨h.reachable.next hs, h.idle, ⟨h₁, h₂, h₃, h₄, h₅, h₆, h₇, h₈, h₉, h₁₀, h₁₁⟩, h.caughtUp⟩

theorem runs_poke_up {iova : ℕ} {bytes : List Byte} {N : Memory → Prop}
    (h : ∀ mem, M mem → N (stored mem iova bytes)) :
    Runs (On fun d => Up maxNumKeys k d ∧ M d.n.world.mem) (poke iova bytes)
      fun _ => On fun d => Up maxNumKeys k d ∧ N d.n.world.mem :=
  runs_poke fun _ hd => ⟨hd.1.setMemory _, h _ hd.2⟩

theorem toNat_setWidth_doorbell (v : BitVec 16) : (v.setWidth 32).toNat = v.toNat := by
  have hv := v.isLt
  rw [BitVec.toNat_setWidth, Nat.mod_eq_of_lt (by omega)]

theorem runs_asqTail {t : BitVec 16} (hm : m ≤ 15) (htail : t.toNat = (k + m) % 16)
    (hsqe : ∀ mem, M mem → ∀ j < m, Harmless (asqEntry mem ((k + j) % 16))) :
    Runs (On fun d => Up maxNumKeys k d ∧ M d.n.world.mem)
      (regWr32 dbAsqTail (t.setWidth 32)) fun _ => On fun d => Up maxNumKeys (k + m) d ∧
        ∃ mem, M mem ∧ AdminBatch k m mem d.n.world.mem := by
  have hinput : Input.bar0 true dbAsqTail (leBytes 4 (t.setWidth 32).toNat) =
      sqTailWrite 0 t := by
    rw [toNat_setWidth_doorbell]
    rfl
  refine runs_regWr32 (by decide) fun d hd => ?_
  obtain ⟨d', d'', hs, hset, hup, hbatch⟩ := hd.1.ring hm htail (hsqe _ hd.2)
  exact ⟨d', d'', by rw [hinput, hs], hset, hup, _, hd.2, hbatch⟩

theorem runs_acqHead (v : BitVec 16) :
    Runs (On fun d => Up maxNumKeys k d ∧ M d.n.world.mem) (regWr32 dbAcqHead (v.setWidth 32))
      fun _ => On fun d => Up maxNumKeys k d ∧ M d.n.world.mem := by
  have hinput : Input.bar0 true dbAcqHead (leBytes 4 (v.setWidth 32).toNat) = cqHeadWrite 0 v := by
    rw [toNat_setWidth_doorbell]
    rfl
  refine runs_regWr32 (by decide) fun d hd => ?_
  obtain ⟨d', d'', hs, hset, hup, hmem⟩ := hd.1.release v
  exact ⟨d', d'', by rw [hinput, hs], hset, hup, hmem ▸ hd.2⟩

theorem NvmeCqe.status_and_one (cqe : NvmeCqe) : cqe.status &&& 1 = if cqe.tag then 1 else 0 := by
  have h := @BitVec.and_one_eq_setWidth_ofBool_getLsbD 16 cqe.status
  rw [tag]
  cases hb : cqe.status.getLsbD 0 <;> rw [hb] at h <;> exact h

theorem runs_sanityIdentify (cid : BitVec 16) :
    Runs (On (Up maxNumKeys 0)) (sanityIdentify cid) fun _ => On (AtRest maxNumKeys) := by
  have hring : Runs (On fun d => Up maxNumKeys 0 d ∧
        asqEntry d.n.world.mem 0 = ⟨Buffer.ofBytes (identifySqe cid)⟩)
      (regWr32 dbAsqTail 1) fun _ => On fun d => Up maxNumKeys 1 d ∧
        AdminDone 0 ⟨Buffer.ofBytes (identifySqe cid)⟩ (acqEntry d.n.world.mem 0) := by
    refine (runs_asqTail (k := 0) (m := 1) (t := 1) (by norm_num) rfl
      (M := fun mem => asqEntry mem 0 = ⟨Buffer.ofBytes (identifySqe cid)⟩) ?_).post ?_
    · intro mem hmem j hj
      obtain rfl : j = 0 := by omega
      exact hmem ▸ identifySqe_harmless cid
    · rintro - c ⟨hup, mem, hmem, hbatch⟩
      exact ⟨hup, hmem ▸ hbatch.done 0 (by norm_num)⟩
  refine (runs_poke_up (M := fun _ => True) (N := fun _ => True) fun _ _ => trivial).pre
    (fun c h => ⟨h, trivial⟩) |>.seq ?_
  refine (runs_poke_up (M := fun _ => True)
    (N := fun mem => asqEntry mem 0 = ⟨Buffer.ofBytes (identifySqe cid)⟩) fun mem _ =>
      asqEntry_stored_self mem (identifySqe_length cid) 0).seq ?_
  refine hring.seq ((runs_peekCqe _).bind fun cqe => ?_)
  refine Runs.seq (R := fun c => Up maxNumKeys 1 c.dev ∧ cqe.cid = cid) (Runs.ensure ?_) ?_
  · rintro c ⟨⟨hup, hdone⟩, rfl⟩
    have hst := hdone.identified (identifySqe_identifies cid)
    have htag := (acqEntry c.dev.n.world.mem 0).status_and_one
    rw [hdone.tag] at htag
    exact ⟨Bool.and_eq_true_iff.mpr ⟨beq_iff_eq.mpr htag, beq_iff_eq.mpr hst⟩, hup,
      hdone.cid.trans (identifySqe_decodes cid).cid⟩
  refine Runs.seq (R := On fun d => Up maxNumKeys 1 d ∧ True) (Runs.ensure ?_) ?_
  · rintro c ⟨hup, hcid⟩
    exact ⟨beq_iff_eq.mpr hcid, hup, trivial⟩
  · exact (runs_acqHead (M := fun _ => True) 1).post fun _ c h => h.1.atRest

/-- The client's head and phase stand at command number `k`. -/
structure RingVars (k : ℕ) (head phase : BitVec 16) : Prop where
  head : head.toNat = k % 16
  phase : phase = if (ringPos 16 k).phase then 1 else 0

theorem nextSlot_toNat {slot : BitVec 16} {k : ℕ} (h : slot.toNat = k % 16) :
    (nextSlot slot).toNat = (k + 1) % 16 := by
  rw [nextSlot, BitVec.toNat_ofNat, h, qDepth]
  omega

theorem RingVars.next {head phase : BitVec 16} (h : RingVars k head phase) :
    RingVars (k + 1) (nextSlot head) (if nextSlot head = 0 then phase ^^^ 1 else phase) := by
  have hslot := nextSlot_toNat h.head
  refine ⟨hslot, ?_⟩
  have hpos := ringPos_next (n := 16) (by norm_num) k
  have hzero : nextSlot head = 0 ↔ k % 16 + 1 = 16 := by
    rw [← BitVec.toNat_inj, hslot]
    change (k + 1) % 16 = 0 ↔ _
    omega
  rw [← hpos, Cursor.next, h.phase]
  by_cases hw : k % 16 + 1 = 16
  · rw [if_pos (hzero.mpr hw), if_pos (show (ringPos 16 k).head + 1 = 16 from hw)]
    cases (ringPos 16 k).phase <;> rfl
  · rw [if_neg (mt hzero.mp hw), if_neg (show ¬ (ringPos 16 k).head + 1 = 16 from hw)]

theorem AdminDone.phase {sqe : NvmeSqe} {cqe : NvmeCqe} (h : AdminDone k sqe cqe)
    {head phase : BitVec 16} (hv : RingVars k head phase) : cqe.status &&& 1 = phase := by
  rw [cqe.status_and_one, h.tag, hv.phase]

/-- One command through the rings, whatever its outcome. -/
theorem runs_submitDrainAdmin {v : DrainVars} {cmd : List Byte} (hv : RingVars k v.head v.phase)
    (hlen : cmd.length = 64) (hcmd : Harmless ⟨Buffer.ofBytes cmd⟩) :
    Runs (On (Up maxNumKeys k)) (submitDrainAdmin v cmd) fun r c =>
      RingVars (k + 1) r.2.head r.2.phase ∧ Up maxNumKeys (k + 1) c.dev := by
  have hk : k % 16 < 16 := Nat.mod_lt k (by norm_num)
  have hring : Runs (On fun d => Up maxNumKeys k d ∧
        asqEntry d.n.world.mem (k % 16) = ⟨Buffer.ofBytes cmd⟩)
      (regWr32 dbAsqTail ((nextSlot v.head).setWidth 32)) fun _ => On fun d =>
        Up maxNumKeys (k + 1) d ∧
        AdminDone k ⟨Buffer.ofBytes cmd⟩ (acqEntry d.n.world.mem (k % 16)) := by
    refine (runs_asqTail (m := 1) (by norm_num) (nextSlot_toNat hv.head)
      (M := fun mem => asqEntry mem (k % 16) = ⟨Buffer.ofBytes cmd⟩) ?_).post ?_
    · intro mem hmem j hj
      obtain rfl : j = 0 := by omega
      exact hmem ▸ hcmd
    · rintro - c ⟨hup, mem, hmem, hbatch⟩
      exact ⟨hup, hmem ▸ hbatch.done 0 (by norm_num)⟩
  rw [submitDrainAdmin, hv.head]
  refine (runs_poke_up (M := fun _ => True)
    (N := fun mem => asqEntry mem (k % 16) = ⟨Buffer.ofBytes cmd⟩) fun mem _ =>
      asqEntry_stored_self mem hlen _).pre (fun c h => ⟨h, trivial⟩) |>.seq ?_
  refine hring.seq ((runs_peekCqe _).bind fun cqe => ?_)
  refine Runs.seq (R := On fun d => Up maxNumKeys (k + 1) d ∧ True) (Runs.ensure ?_) ?_
  · rintro c ⟨⟨hup, hdone⟩, rfl⟩
    exact ⟨beq_iff_eq.mpr (hdone.phase hv), hup, trivial⟩
  · exact (runs_acqHead (M := fun _ => True) _).seq (Runs.pure fun c h => ⟨hv.next, h.1⟩)

end Submit

/-! ## The modes -/

section Modes
variable {maxNumKeys : BitVec 32}

theorem runs_modeFlr (iters : BitVec 32) :
    Runs (On (Down maxNumKeys)) (modeFlr iters) fun _ => On (Down maxNumKeys) := by
  refine Runs.forLoop (I := fun _ _ => On (Down maxNumKeys)) fun j _ _ => ?_
  have hreset : Runs (On (Down maxNumKeys)) deviceReset fun ok c =>
      ok = true ∧ Down maxNumKeys c.dev := by
    intro c hc
    have hs : c.dev.step .reset = some ⟨nvmeCtrlReset c.dev.n, none⟩ := by
      simp only [Device.step, show c.dev.busy = none from hc.idle]
    refine ⟨true, { c with dev := ⟨nvmeCtrlReset c.dev.n, none⟩ }, ?_, rfl,
      ⟨hc.reachable.next hs, rfl, hc.mapped, rfl⟩⟩
    rw [StateT.run, deviceReset, hs]
  refine hreset.bind fun ok => ?_
  refine Runs.seq (R := On (Down maxNumKeys)) (Runs.ensure fun c h => h) ?_
  exact runs_countOps 1

theorem runs_modeCc (iters : BitVec 32) :
    Runs (On (Down maxNumKeys)) (modeCc iters) fun _ => On (Down maxNumKeys) := by
  refine Runs.forLoop (I := fun _ _ => On (Down maxNumKeys)) fun j _ _ => ?_
  refine (runs_controllerEnable.post fun _ c h => ?_).seq
    (runs_controllerDisable.seq (runs_countOps 2))
  exact Up.atRest h

theorem runs_modeShn (iters : BitVec 32) :
    Runs (On (Down maxNumKeys)) (modeShn iters) fun _ => On (Down maxNumKeys) := by
  refine Runs.forLoop (I := fun _ _ => On (Down maxNumKeys)) fun j _ _ => ?_
  have hshut : Runs (On (Up maxNumKeys 0)) (regWr32 nvmeRegCc (ccEnable ||| ccShnNormal))
      fun _ => On fun d => AtRest maxNumKeys d ∧
        d.n.csts = nvmeCstsRdy ||| nvmeCstsShstComplete := by
    refine runs_store32 (by decide) (fun d h => h.idle) fun d h => ?_
    have hs := Device.step_store32 h.idle (o := nvmeRegCc) (by decide) (ccEnable ||| ccShnNormal)
    refine ⟨⟨h.reachable.next hs, rfl, ?_⟩, ?_⟩
    · change (nvmeCcWrite d.n _).world.vfu.MapsBelow memSize
      rw [nvmeCcWrite_world]
      split
      · exact h.rings.mapped
      · exact h.rings.mapped
    · change (nvmeCcWrite d.n (BitVec.setWidth 32
        (BitVec.setWidth 64 (ccEnable ||| ccShnNormal)))).csts = _
      rw [show BitVec.setWidth 32 (BitVec.setWidth 64 (ccEnable ||| ccShnNormal)) =
        ccEnable ||| ccShnNormal by decide, nvmeCcWrite_shutdown h.rings.cc, h.rings.csts]
      decide
  have hread : Runs (On fun d => AtRest maxNumKeys d ∧
        d.n.csts = nvmeCstsRdy ||| nvmeCstsShstComplete) (regRd32 nvmeRegCsts)
      fun v c => v = c.dev.n.csts ∧ AtRest maxNumKeys c.dev ∧
        c.dev.n.csts = nvmeCstsRdy ||| nvmeCstsShstComplete := by
    refine runs_rdCsts (Q := fun d => AtRest maxNumKeys d ∧
      d.n.csts = nvmeCstsRdy ||| nvmeCstsShstComplete) (fun d h => h.1.idle)
      fun d d' bytes h hs hd => ⟨⟨h.1.reachable.next hs, hd ▸ rfl, ?_⟩, ?_⟩
    · exact hd ▸ h.1.mapped
    · exact hd ▸ h.2
  refine runs_controllerEnable.seq (hshut.seq (hread.bind fun v => ?_))
  refine Runs.seq (R := On (AtRest maxNumKeys)) (Runs.ensure ?_)
    (runs_controllerDisable.seq (runs_countOps 3))
  rintro c ⟨rfl, h, hcsts⟩
  exact ⟨by rw [hcsts]; decide, h⟩

/-- The Identify commands of a batch are in their slots. -/
def BatchAt (k j : ℕ) (mem : Memory) : Prop :=
  ∀ i < j, ∃ cid, asqEntry mem ((k + i) % 16) = ⟨Buffer.ofBytes (identifySqe cid)⟩

theorem runs_fillEntry {k j : ℕ} (hj : j < 15) {v : DoorbellVars}
    (hv : v.tail.toNat = (k + j) % 16) :
    Runs (On fun d => Up maxNumKeys k d ∧ BatchAt k j d.n.world.mem) (fillEntry v)
      fun v' c => (v'.tail.toNat = (k + (j + 1)) % 16 ∧ v'.head = v.head ∧ v'.phase = v.phase) ∧
        Up maxNumKeys k c.dev ∧ BatchAt k (j + 1) c.dev.n.world.mem := by
  refine (runs_poke_up (N := BatchAt k (j + 1)) fun mem hmem i hi => ?_).seq
    (Runs.pure fun c h => ⟨⟨nextSlot_toNat hv, rfl, rfl⟩, h⟩)
  rw [hv]
  by_cases hij : i = j
  · subst hij
    exact ⟨v.cid, asqEntry_stored_self mem (identifySqe_length _) _⟩
  · rw [asqEntry_stored_other mem (identifySqe_length _) (Nat.mod_lt _ (by norm_num))
      (Nat.mod_lt _ (by norm_num)) (by omega)]
    exact hmem i (by omega)

theorem runs_drainEntry {k j m : ℕ} (hj : j < m) {v : DoorbellVars}
    (hv : RingVars (k + j) v.head v.phase) :
    Runs (On fun d => Up maxNumKeys (k + m) d ∧ ∃ mem, BatchAt k m mem ∧
        AdminBatch k m mem d.n.world.mem) (drainEntry v)
      fun v' c => (RingVars (k + (j + 1)) v'.head v'.phase ∧ v'.tail = v.tail) ∧
        Up maxNumKeys (k + m) c.dev ∧ ∃ mem, BatchAt k m mem ∧
          AdminBatch k m mem c.dev.n.world.mem := by
  rw [drainEntry, hv.head]
  refine (runs_peekCqe _).bind fun cqe => ?_
  refine Runs.seq (R := fun c => cqe.status >>> 1 = 0 ∧ Up maxNumKeys (k + m) c.dev ∧
    ∃ mem, BatchAt k m mem ∧ AdminBatch k m mem c.dev.n.world.mem) (Runs.ensure ?_) ?_
  · rintro c ⟨⟨hup, mem, hfill, hbatch⟩, rfl⟩
    obtain ⟨cid, hcid⟩ := hfill j hj
    have hdone := hbatch.done j hj
    exact ⟨beq_iff_eq.mpr (hdone.phase hv), hdone.identified (hcid ▸ identifySqe_identifies cid),
      hup, mem, hfill, hbatch⟩
  refine Runs.seq (R := On fun d => Up maxNumKeys (k + m) d ∧ ∃ mem, BatchAt k m mem ∧
    AdminBatch k m mem d.n.world.mem) (Runs.ensure ?_) ?_
  · rintro c ⟨hst, h⟩
    exact ⟨beq_iff_eq.mpr hst, h⟩
  · exact Runs.pure fun c h => ⟨⟨hv.next, rfl⟩, h⟩

/-- The variables of `mode_doorbell` between two rounds. -/
def DoorbellVars.At (v : DoorbellVars) (k : ℕ) : Prop :=
  RingVars k v.head v.phase ∧ v.tail = v.head

theorem runs_doorbellRound {k : ℕ} {v : DoorbellVars} (hv : v.At k) :
    Runs (On (Up maxNumKeys k)) (doorbellRound v)
      fun v' c => ∃ k', v'.At k' ∧ Up maxNumKeys k' c.dev := by
  refine runs_xrand.bind fun r => ?_
  have hbatch : r % (qDepth - 1) + 1 ≤ 15 := by
    have := Nat.mod_lt r (show qDepth - 1 > 0 by decide)
    rw [show qDepth - 1 = 15 from rfl] at this ⊢
    omega
  generalize r % (qDepth - 1) + 1 = m at hbatch
  have hfill : Runs (On (Up maxNumKeys k)) (forLoop m (fun _ => fillEntry) v)
      fun v' c => (v'.tail.toNat = (k + m) % 16 ∧ v'.head = v.head ∧ v'.phase = v.phase) ∧
        Up maxNumKeys k c.dev ∧ BatchAt k m c.dev.n.world.mem := by
    refine (Runs.forLoop (I := fun j (v' : DoorbellVars) (c : Ctx) =>
      (v'.tail.toNat = (k + j) % 16 ∧ v'.head = v.head ∧ v'.phase = v.phase) ∧
        Up maxNumKeys k c.dev ∧ BatchAt k j c.dev.n.world.mem) fun j v' hj => ?_).pre fun c h => ?_
    · refine Runs.assume fun hv' => (runs_fillEntry (by omega) hv'.1).post ?_
      rintro v'' c ⟨⟨h₁, h₂, h₃⟩, h₄⟩
      exact ⟨⟨h₁, h₂.trans hv'.2.1, h₃.trans hv'.2.2⟩, h₄⟩
    · exact ⟨⟨by rw [hv.2, hv.1.head]; rfl, rfl, rfl⟩, h, fun i hi => absurd hi (by omega)⟩
  refine hfill.bind fun v₁ => Runs.assume fun hv₁ => ?_
  refine (runs_asqTail (M := BatchAt k m) hbatch hv₁.1 fun mem hmem j hj => ?_).seq ?_
  · obtain ⟨cid, hcid⟩ := hmem j hj
    exact hcid ▸ identifySqe_harmless cid
  have hdrain : Runs (On fun d => Up maxNumKeys (k + m) d ∧ ∃ mem, BatchAt k m mem ∧
        AdminBatch k m mem d.n.world.mem)
      (whileLoop (fun v : DoorbellVars => v.head != v.tail) drainEntry .stuck qDepth v₁)
      fun v' c => (RingVars (k + m) v'.head v'.phase ∧ v'.tail = v₁.tail) ∧
        Up maxNumKeys (k + m) c.dev ∧ ∃ mem, BatchAt k m mem ∧
          AdminBatch k m mem c.dev.n.world.mem := by
    refine (Runs.whileLoop (I := fun j (v' : DoorbellVars) (c : Ctx) =>
      (RingVars (k + j) v'.head v'.phase ∧ v'.tail = v₁.tail) ∧ Up maxNumKeys (k + m) c.dev ∧
        ∃ mem, BatchAt k m mem ∧ AdminBatch k m mem c.dev.n.world.mem)
      (show m ≤ qDepth by rw [qDepth]; omega) ?_ ?_ ?_).pre fun c h => ?_
    · rintro j v' c hj ⟨⟨hr, ht⟩, -⟩
      refine bne_iff_ne.mpr fun he => ?_
      have := congrArg BitVec.toNat he
      rw [hr.head, ht, hv₁.1] at this
      omega
    · rintro v' c ⟨⟨hr, ht⟩, -⟩
      refine bne_eq_false_iff_eq.mpr (BitVec.eq_of_toNat_eq ?_)
      rw [hr.head, ht, hv₁.1]
    · refine fun j v' hj => Runs.assume fun hv' => (runs_drainEntry hj hv'.1).post ?_
      rintro v'' c ⟨⟨h₁, h₂⟩, h₃⟩
      exact ⟨⟨h₁, h₂.trans hv'.2⟩, h₃⟩
    · exact ⟨⟨by rw [hv₁.2.1, hv₁.2.2]; exact hv.1, rfl⟩, h⟩
  refine hdrain.bind fun v₂ => Runs.assume fun hv₂ => ?_
  refine ((runs_acqHead (M := fun _ => True) _).pre fun c h => ⟨h.1, trivial⟩).seq
    ((runs_countOps m).seq (Runs.pure fun c h => ⟨k + m, ⟨hv₂.1, ?_⟩, h.1⟩))
  exact BitVec.eq_of_toNat_eq (by rw [hv₂.2, hv₁.1, hv₂.1.head])

theorem runs_modeDoorbell (iters : BitVec 32) :
    Runs (On (Down maxNumKeys)) (modeDoorbell iters) fun _ => On (Down maxNumKeys) := by
  refine runs_controllerEnable.seq ?_
  refine ((runs_poke_up (M := fun _ => True) (N := fun _ => True) fun _ _ => trivial).pre
    fun c h => ⟨h, trivial⟩).seq ?_
  refine ((Runs.forLoop (I := fun _ (v : DoorbellVars) (c : Ctx) => ∃ k, v.At k ∧ Up maxNumKeys k c.dev)
    fun j v _ => ?_).pre fun c h => ⟨0, ⟨⟨rfl, rfl⟩, rfl⟩, h.1⟩).bind fun v =>
      runs_controllerDisable.pre fun c h => ?_
  · rintro c ⟨k, hv, hup⟩
    exact runs_doorbellRound hv c hup
  · obtain ⟨k, -, hup⟩ := h
    exact hup.atRest

/-- A write past the doorbells of the last queue changes nothing. -/
theorem Device.step_noQueue {d : Device} (hb : d.busy = none) {off : ℕ} {buf : List Byte}
    (ho : nvmeRegDoorbell ≤ off) (hq : nvmeMaxQueues ≤ (off - nvmeRegDoorbell) / 4 / 2 % 2 ^ 16)
    (hlen : buf.length ≤ 8) : d.step (.bar0 true off buf) = some d := by
  obtain ⟨n, busy⟩ := d
  obtain rfl : busy = none := hb
  have hv : rdLe buf = some (BitVec.ofNat 64 (leNat buf)) := if_pos hlen
  simp only [step, nvmeBar0Access, hv]
  rw [if_pos ho, if_pos trivial, dif_neg (not_lt.mpr hq)]
  rfl

theorem runs_ignored {P : Device → Prop} {off : ℕ} {data : List Byte}
    (ho : off + data.length ≤ nvmeBar0Size) (hidle : ∀ d, P d → d.busy = none)
    (h : ∀ d, P d → d.step (.bar0 true off data) = some d) :
    Runs (On P) (accessRegion true off data) fun _ => On P :=
  (runs_accessRegion ho fun d hd => ⟨d, d, h d hd, settle_idle (hidle d hd) _, hd⟩).post
    fun _ _ hq => hq.2

theorem runs_modeGarbage (iters : BitVec 32) :
    Runs (On (Down maxNumKeys)) (modeGarbage iters) fun _ => On (Down maxNumKeys) := by
  have hreg (off : ℕ) (data : List Byte) (ho : off < nvmeRegDoorbell) (hlen : data.length ≤ 8)
      (hw : off ∉ writableOffsets) :
      Runs (On (Down maxNumKeys)) (accessRegion true off data) fun _ => On (Down maxNumKeys) := by
    refine runs_ignored ?_ (fun d h => h.idle) fun d h => Device.step_other h.idle ho hlen hw
    rw [show nvmeRegDoorbell = 0x1000 from rfl] at ho
    rw [show nvmeBar0Size = 0x4000 from rfl]
    omega
  have hread : Runs (On (Down maxNumKeys)) (accessRegion false 0x1f00 (leBytes 4 0xdeadbeef))
      fun _ => On (Down maxNumKeys) := by
    refine (runs_accessRegion (Q := Down maxNumKeys) (by decide) fun d h => ?_).post
      fun _ _ hq => hq.2
    have hs : d.step (.bar0 false 0x1f00 (leBytes 4 0xdeadbeef)) =
        some (d.replies (List.replicate 4 0)) := by
      simp only [Device.step, show d.busy = none from h.idle]
      rfl
    exact ⟨_, _, hs, settle_register _, h.next hs rfl rfl rfl⟩
  refine Runs.seq (R := On (Down maxNumKeys)) ?_ ?_
  · refine Runs.forLoop (I := fun _ _ => On (Down maxNumKeys)) fun j _ _ => ?_
    refine (hreg _ _ (by decide) (by simp) (by decide)).bind fun _ => ?_
    refine (hreg _ _ (by decide) (by simp) (by decide)).bind fun _ => ?_
    refine (runs_ignored (by decide) (fun d h => h.idle) fun d h =>
      Device.step_noQueue h.idle (by decide) (by decide) (by simp)).bind fun _ => ?_
    refine (hreg _ _ (by decide) (by simp) (by decide)).bind fun _ => ?_
    exact hread.bind fun _ => runs_countOps 5
  · exact runs_controllerEnable.seq ((runs_sanityIdentify _).seq runs_controllerDisable)

/-- Enable, rounds that each submit some commands, and disable. -/
theorem runs_drainLoop {iters : BitVec 32} {body : ℕ → DrainVars → Client DrainVars}
    (h : ∀ i k v, i < iters.toNat → RingVars k v.head v.phase →
      Runs (On (Up maxNumKeys k)) (body i v)
        fun v' c => ∃ k', RingVars k' v'.head v'.phase ∧ Up maxNumKeys k' c.dev) :
    Runs (On (Down maxNumKeys)) (do
      controllerEnable
      poke acqIova (List.replicate (qDepth * 16) 0)
      let _ ← forLoop iters.toNat body ⟨0, 1⟩
      controllerDisable) fun _ => On (Down maxNumKeys) := by
  refine runs_controllerEnable.seq ?_
  refine ((runs_poke_up (M := fun _ => True) (N := fun _ => True) fun _ _ => trivial).pre
    fun c h => ⟨h, trivial⟩).seq ?_
  refine ((Runs.forLoop (I := fun _ (v : DrainVars) (c : Ctx) =>
    ∃ k, RingVars k v.head v.phase ∧ Up maxNumKeys k c.dev) fun j v hj => ?_).pre
      fun c h => ⟨0, ⟨rfl, rfl⟩, h.1⟩).bind fun v => runs_controllerDisable.pre fun c h => ?_
  · rintro c ⟨k, hv, hup⟩
    exact h j k v hj hv c hup
  · obtain ⟨k, -, hup⟩ := h
    exact hup.atRest

theorem runs_modeBadDma (iters : BitVec 32) :
    Runs (On (Down maxNumKeys)) (modeBadDma iters) fun _ => On (Down maxNumKeys) := by
  refine runs_drainLoop fun i k v hi hv => ?_
  have hlt := iters.isLt
  have hcmd : Harmless ⟨Buffer.ofBytes (nvmeSqe nvmeAdmIdentify (cidOf 0xb000 i) 0
      (0xdeadbeef0000 + i * 0x1000) 0x01 0)⟩ := by
    apply harmless_identify <;> simp only [dataIova, page] <;> omega
  refine (runs_submitDrainAdmin hv (nvmeSqe_length ..) hcmd).bind fun r => ?_
  refine Runs.assume fun hr => ?_
  exact (runs_countOps (P := Up maxNumKeys (k + 1)) 1).seq (Runs.pure fun c h => ⟨k + 1, hr, h⟩)

theorem runs_modeBadQueue (iters : BitVec 32) :
    Runs (On (Down maxNumKeys)) (modeBadQueue iters) fun _ => On (Down maxNumKeys) := by
  refine runs_drainLoop fun i k v _ hv => ?_
  refine (runs_ignored (P := Up maxNumKeys k) (by decide) (fun d h => h.idle) fun d h =>
    Device.step_noQueue h.idle (by decide) (by decide) (by simp)).bind fun _ => ?_
  refine (runs_submitDrainAdmin hv (nvmeSqe_length ..)
    (harmless_other (by decide) (by decide) ..)).bind fun r => Runs.assume fun hr => ?_
  refine (@runs_submitDrainAdmin maxNumKeys _ _ _ hr (nvmeSqe_length ..)
    (harmless_other (by decide) (by decide) ..)).bind fun r' => Runs.assume fun hr' => ?_
  exact (runs_countOps (P := Up maxNumKeys (k + 1 + 1)) 3).seq
    (Runs.pure fun c h => ⟨k + 1 + 1, hr', h⟩)

theorem runs_mode (m : Mode) (iters : BitVec 32) :
    Runs (On (Down maxNumKeys)) (m.fn iters) fun _ => On (Down maxNumKeys) := by
  cases m with
  | flr => exact runs_modeFlr iters
  | cc => exact runs_modeCc iters
  | shn => exact runs_modeShn iters
  | doorbell => exact runs_modeDoorbell iters
  | garbage => exact runs_modeGarbage iters
  | badDma => exact runs_modeBadDma iters
  | badQueue => exact runs_modeBadQueue iters

end Modes

/-- On every reachable device that is idle and disabled, with the client's memory mapped and
allocations that succeed, any sequence of these modes, each with any number of rounds, any seed and
the round trip of an Identify command after it, runs to its end: the device has an outcome for every
request and comes back from it, every check of the client passes, and the device is idle and
disabled again. -/
theorem hammer_passes (maxNumKeys : BitVec 32) (jobs : List (Mode × BitVec 32 × BitVec 16)) :
    Runs (On (Down maxNumKeys)) (hammer jobs) fun _ => On (Down maxNumKeys) := by
  induction jobs with
  | nil => exact Runs.pure fun _ h => h
  | cons job jobs ih =>
    obtain ⟨m, iters, cid⟩ := job
    refine Runs.seq (R := On (Down maxNumKeys)) ?_ ih
    exact (runs_mode m iters).seq
      (runs_controllerEnable.seq ((runs_sanityIdentify cid).seq runs_controllerDisable))

theorem hammer_passes_booted : ∃ d, Down 1 d ∧ ∃ c,
    (hammer [(.doorbell, 3, 0xc001), (.badDma, 2, 7)]).run ⟨d, 1, 0⟩ = .ok ((), c) ∧
      Down 1 c.dev := by
  have hrun : (bootRun 1 (fun _ _ => true) []).map (fun d => (d.busy.isNone, d.n.cc)) =
      some (true, 0) := by decide +kernel
  obtain ⟨d, hd, hobs⟩ := Option.map_eq_some_iff.mp hrun
  obtain ⟨hidle, hcc⟩ := Prod.mk.inj hobs
  have hdown : Down 1 { d with n := d.n.withWorld { d.n.world with vfu := .flat } } :=
    ⟨(reachable_of_bootRun hd).next (i := .dmaRegions .flat) rfl, Option.isNone_iff_eq_none.mp hidle,
      Vfu.flat_mapsBelow memSize, hcc⟩
  obtain ⟨_, c, hpass, hc⟩ :=
    hammer_passes 1 [(.doorbell, 3, 0xc001), (.badDma, 2, 7)] ⟨_, 1, 0⟩ hdown
  exact ⟨_, hdown, c, hpass, hc⟩

end VfuKvssd
