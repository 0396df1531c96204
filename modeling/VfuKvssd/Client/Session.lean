import VfuKvssd.Client.QueuePair
import VfuKvssd.Controller.KeyIsolation

/-! # Key-value sessions over the wire

The client keeps one queue pair and one value page, in the layout of its harness.
For each request it fills the value page and a submission entry, rings, checks
the completion and reads the value page back. Whatever the requests, it sees the
replies of a plain map.
-/
namespace VfuKvssd.Harness
open Foundations

def npages : ℕ := 16
def memSize : ℕ := npages * page
def asqIova : ℕ := 0 * page
def acqIova : ℕ := 1 * page
def iosqIova : ℕ := 2 * page
def iocqIova : ℕ := 3 * page
def dataIova : ℕ := 4 * page
def valIova : ℕ := 5 * page
def qDepth : ℕ := 8

def adminPair : QueuePair := ⟨0, 0, qDepth, asqIova, acqIova⟩
def ioPair : QueuePair := ⟨1, 1, qDepth, iosqIova, iocqIova⟩

/-- `n` bytes of a zeroed field after a copy of the key from an offset on. -/
def keyField (key : List Byte) (off n : ℕ) : List Byte :=
  (List.range n).map fun i => key.getD (off + i) 0

/-- A KV command with one PRP. The first 8 bytes of the key go to `key` and the rest to `key_hi`. -/
def kvCmd (opcode : Byte) (cid : BitVec 16) (key : List Byte) (prp1 : Addr) (hbs : BitVec 32)
    (ro : Byte) : List Byte :=
  [opcode, 0] ++ leBytes 2 cid.toNat ++ leBytes 4 1 ++ keyField key 0 8 ++ List.replicate 8 0 ++
    leBytes 8 prp1.toNat ++ List.replicate 8 0 ++ leBytes 4 hbs.toNat ++
    [BitVec.ofNat 8 key.length, ro, 0, 0] ++ List.replicate 8 0 ++ keyField key 8 8

/-- A request on one key. `value` is what the client puts into its value page. -/
structure KvRequest where
  op : KvOp
  cid : BitVec 16
  key : List Byte
  hbs : BitVec 32
  ro : Byte
  value : List Byte

def KvRequest.opcode (r : KvRequest) : Byte :=
  match r.op with
  | .store => nvmeCmdKvStore
  | .retrieve => nvmeCmdKvRetrieve
  | .delete => nvmeCmdKvDelete
  | .exist => nvmeCmdKvExist
  | .list => nvmeCmdKvList

def KvRequest.entry (r : KvRequest) : List Byte :=
  kvCmd r.opcode r.cid r.key (BitVec.ofNat 64 valIova) r.hbs r.ro

/-- The value page: the value, then zeros. -/
def KvRequest.page (r : KvRequest) : List Byte :=
  r.value ++ List.replicate (VfuKvssd.page - r.value.length) 0

/-- What a client can ask for: an operation on one key that fits, and a value that fits. -/
structure KvRequest.Fits (r : KvRequest) : Prop where
  op : r.op ≠ .list
  key : r.key.length ≤ 16
  value : r.value.length ≤ VfuKvssd.page

/-- What the client sees of a request: the status and its value page. -/
structure KvReply where
  status : Status
  page : List Byte

def kvRequest (v : Cursor) (r : KvRequest) : Client KvReply := do
  poke valIova r.page
  let cqe ← ioPair.exchange v r.entry
  ensure (cqe.tag == v.phase) (.errx "%s: phase bit not set (status=%#x)")
  ensure (cqe.cid == r.cid) (.errx "%s: cid mismatch %u != %u")
  ioPair.release v
  let page ← peek valIova VfuKvssd.page
  return ⟨cqe.status >>> 1, page⟩

/-- One request after the other, from a position of the client in both rings on. -/
def kvSession (v : Cursor) : List KvRequest → Client (List KvReply)
  | [] => return []
  | r :: rs => do
    let reply ← kvRequest v r
    let replies ← kvSession (v.next qDepth) rs
    return reply :: replies

/-! ## The map that a session talks to -/

/-- The reply of a map of capacity `cap`, and the map after it. -/
noncomputable def answer (cap : ℕ) (ednek : Bool) (m : KvMap) (r : KvRequest) : KvReply × KvMap :=
  match r.op, m r.key with
  | .store, some v =>
    if 4096 < r.hbs.toNat then (⟨nvmeKvInvalidValSize, r.page⟩, m)
    else if r.ro &&& 0x02 != 0 then (⟨nvmeKvKeyExists, r.page⟩, m)
    else (⟨nvmeSuccess, r.page⟩,
      Function.update m r.key (some (v.copy 0 (r.page.take r.hbs.toNat))))
  | .store, none =>
    if 4096 < r.hbs.toNat then (⟨nvmeKvInvalidValSize, r.page⟩, m)
    else if r.ro &&& 0x01 != 0 then (⟨nvmeKvKeyNotExists, r.page⟩, m)
    else if cap ≤ m.card then (⟨nvmeCapExceeded, r.page⟩, m)
    else (⟨nvmeSuccess, r.page⟩,
      Function.update m r.key (some (Buffer.copy (fun _ => 0) 0 (r.page.take r.hbs.toNat))))
  | .retrieve, some v =>
    (⟨nvmeSuccess, v.bytes.take r.hbs.toNat ++ r.page.drop r.hbs.toNat⟩, m)
  | .delete, some _ => (⟨nvmeSuccess, r.page⟩, Function.update m r.key none)
  | .delete, none => (⟨if ednek then nvmeKvKeyNotExists else nvmeSuccess, r.page⟩, m)
  | .exist, some _ => (⟨nvmeSuccess, r.page⟩, m)
  | _, _ => (⟨nvmeKvKeyNotExists, r.page⟩, m)

/-- The replies of a map to one request after the other. -/
noncomputable def answers (cap : ℕ) (ednek : Bool) (m : KvMap) :
    List KvRequest → List KvReply × KvMap
  | [] => ([], m)
  | r :: rs =>
    ((answer cap ednek m r).1 :: (answers cap ednek (answer cap ednek m r).2 rs).1,
      (answers cap ednek (answer cap ednek m r).2 rs).2)

/-! ## Entries -/

section Decode

theorem key_bytes (cmd : NvmeKVCmd) : cmd.key.bytes = Entry.field cmd.raw 8 8 := by
  apply List.ext_getElem (by simp [Entry.field])
  intro i h₁ h₂
  have hi : i < 8 := by simpa using h₁
  simp [Entry.field, NvmeKVCmd.key, Buffer.getElem_bytes, List.getD_eq_getElem?_getD,
    show 8 + i < 64 by omega]

theorem keyHi_bytes (cmd : NvmeKVCmd) : cmd.keyHi.bytes = Entry.field cmd.raw 56 8 := by
  apply List.ext_getElem (by simp [Entry.field])
  intro i h₁ h₂
  have hi : i < 8 := by simpa using h₁
  simp [Entry.field, NvmeKVCmd.keyHi, Buffer.getElem_bytes, List.getD_eq_getElem?_getD,
    show 56 + i < 64 by omega]

theorem keyField_take (key : List Byte) (h : key.length ≤ 16) :
    (keyField key 0 8 ++ keyField key 8 8).take key.length = key := by
  apply List.ext_getElem (by simp [keyField]; omega)
  intro i h₁ h₂
  rw [List.getElem_take, List.getElem_append]
  split
  · simp [keyField, h₂]
  · rename_i hi
    have hi : 8 ≤ i := by simpa [keyField] using hi
    simp [keyField, show 8 + (i - 8) = i by omega, h₂]

/-- What the device reads back from an entry. -/
structure Decodes (cmd : NvmeKVCmd) (opcode : Byte) (key : List Byte) (prp1 : Addr)
    (hbs : BitVec 32) (ro : Byte) : Prop where
  opcode : cmd.opcode = opcode
  prp1 : cmd.prp1 = prp1
  hbs : cmd.hbs = hbs.toNat
  kl : cmd.kl = key.length
  ro : cmd.ro = ro
  key : cmd.keyBytes = key

variable (opcode : Byte) (cid : BitVec 16) (key : List Byte) (prp1 : Addr) (hbs : BitVec 32)
  (ro : Byte)

theorem kvCmd_length : (kvCmd opcode cid key prp1 hbs ro).length = 64 := by
  simp [kvCmd, keyField]

theorem kvCmd_cid :
    (⟨Buffer.ofBytes (kvCmd opcode cid key prp1 hbs ro)⟩ : NvmeSqe).cid = cid := by
  have hb : ((kvCmd opcode cid key prp1 hbs ro).drop 2).take 2 = leBytes 2 cid.toNat := rfl
  exact number_ofBytes (kvCmd_length ..) (by norm_num) (by norm_num) hb

theorem kvCmd_decodes (hk : key.length ≤ 16) :
    Decodes ⟨Buffer.ofBytes (kvCmd opcode cid key prp1 hbs ro)⟩ opcode key prp1 hbs ro := by
  have hlen := kvCmd_length opcode cid key prp1 hbs ro
  have hprp : ((kvCmd opcode cid key prp1 hbs ro).drop 24).take 8 = leBytes 8 prp1.toNat := rfl
  have hhbs : ((kvCmd opcode cid key prp1 hbs ro).drop 40).take 4 = leBytes 4 hbs.toNat := rfl
  have hlo : ((kvCmd opcode cid key prp1 hbs ro).drop 8).take 8 = keyField key 0 8 := rfl
  have hhi : ((kvCmd opcode cid key prp1 hbs ro).drop 56).take 8 = keyField key 8 8 := rfl
  have hkl : (⟨Buffer.ofBytes (kvCmd opcode cid key prp1 hbs ro)⟩ : NvmeKVCmd).kl = key.length := by
    change (BitVec.ofNat 8 key.length).toNat = _
    rw [BitVec.toNat_ofNat, Nat.mod_eq_of_lt (by omega)]
  refine ⟨rfl, ?_, ?_, hkl, rfl, ?_⟩
  · exact number_ofBytes hlen (by norm_num) (by norm_num) hprp
  · rw [NvmeKVCmd.hbs, field_ofBytes hlen (by norm_num), hhbs, leNat_toNat (w := 32) (by norm_num)]
  · rw [NvmeKVCmd.keyBytes, hkl, key_bytes, keyHi_bytes, field_ofBytes hlen (by norm_num), hlo,
      field_ofBytes hlen (by norm_num), hhi, keyField_take key hk]

end Decode

/-! ## One command on the value page -/

/-- Data that moved through a page: nothing, or all of it. -/
inductive PageIo (a : Addr) (hbs : ℕ) (mem : Memory) : KvIo → Memory → Prop
  | none : PageIo a hbs mem .none mem
  | received : PageIo a hbs mem (.received true ((span a hbs).map mem)) mem
  | sent {bytes : List Byte} (hl : bytes.length ≤ kvssdPageSize) :
      PageIo a hbs mem (.sent true bytes) (writeAll mem (span a bytes.length) bytes)

section OnePage
variable {ns ns' : KvNs} {cmd : NvmeKVCmd} {w w' : World} {st : Status} {size : ℕ}

theorem kvStore_tooBig (h : ns.Valid) (hk : cmd.kl ≤ 16) (hv : nvmeKvMaxValSize < cmd.hbs)
    {dma : KvDma World} {heap : Heap} (hh : kvStore ns cmd dma w heap = some (st, ns', w')) :
    st = nvmeKvInvalidValSize ∧ ns' = ns ∧ w' = w := by
  have ho := kvStore_outcome h cmd dma w heap
  rw [hh] at ho
  cases ho with
  | keySize hbig => exact absurd hk (not_le.mpr hbig)
  | valSize => exact ⟨rfl, rfl, rfl⟩
  | keyExists hc | overwrite hc | keyNotExists hc | full hc => exact absurd hc.2 (not_le.mpr hv)
  | noMemory hn | insert hn => exact absurd hn.storable.2 (not_le.mpr hv)

theorem kvdmaH2c_page (hm : w.vfu.MapsBelow size) (hp : cmd.prp1.toNat % kvssdPageSize = 0)
    (hlt : cmd.prp1.toNat + kvssdPageSize ≤ size) {dst bytes : List Byte}
    (hl : dst.length ≤ kvssdPageSize) {ok : Bool}
    (hx : kvdmaH2c (fun _ => true) w cmd dst = (ok, bytes, w')) :
    ok = true ∧ bytes = (span cmd.prp1 dst.length).map w.mem ∧ w'.mem = w.mem := by
  obtain ⟨buf', w₁, hxfer, hmoved⟩ :=
    hm.xfer (a := cmd.prp1) (b := dst) (by omega) (by omega) cmd.prp2 false
  simp only [kvdmaH2c, hxfer, Prod.mk.injEq] at hx
  obtain ⟨rfl, rfl, rfl⟩ := hx
  exact ⟨rfl, hmoved.buf, hmoved.mem⟩

theorem kvdmaC2h_page (hm : w.vfu.MapsBelow size) (hp : cmd.prp1.toNat % kvssdPageSize = 0)
    (hlt : cmd.prp1.toNat + kvssdPageSize ≤ size) {src : List Byte}
    (hl : src.length ≤ kvssdPageSize) {ok : Bool}
    (hx : kvdmaC2h (fun _ => true) w cmd src = (ok, w')) :
    ok = true ∧ w'.mem = writeAll w.mem (span cmd.prp1 src.length) src := by
  obtain ⟨buf', w₁, hxfer, hmoved⟩ :=
    hm.xfer (a := cmd.prp1) (b := src) (by omega) (by omega) cmd.prp2 true
  simp only [kvdmaC2h, hxfer, Prod.mk.injEq] at hx
  obtain ⟨rfl, rfl⟩ := hx
  exact ⟨rfl, hmoved.mem⟩

theorem KvSpec.received_store {cap : ℕ} {ednek : Bool} {m m' : KvMap} {op : KvOp} {ok : Bool}
    {bytes : List Byte} (h : KvSpec cap ednek m cmd op (.received ok bytes) st m') :
    op = .store := by
  cases h with
  | storeOverwrite | storeInsert => rfl

theorem KvSpec.sent_length {cap : ℕ} {ednek : Bool} {m m' : KvMap} {op : KvOp} {ok : Bool}
    {bytes : List Byte} (h : KvSpec cap ednek m cmd op (.sent ok bytes) st m') (hop : op ≠ .list) :
    bytes.length ≤ kvssdPageSize := by
  cases h with
  | retrieve =>
    rw [List.length_take, Buffer.bytes_length]
    exact min_le_right ..
  | list => exact absurd rfl hop

/-- Only a Store takes data in. -/
theorem kvHandle_reads {op : KvOp} (hs : op ≠ .store) (hl : op ≠ .list) {dma dma' : KvDma World}
    (hc : dma.c2h = dma'.c2h) {heap : Heap} :
    kvHandle op ns cmd dma w heap = kvHandle op ns cmd dma' w heap := by
  cases op with
  | store => exact absurd rfl hs
  | list => exact absurd rfl hl
  | retrieve => simp only [kvHandle, kvRetrieve, hc]
  | delete | exist => simp only [kvHandle]

/-- A command on a mapped page follows the map, and moves its data in whole. -/
theorem kvHandle_page {op : KvOp} (h : ns.Valid) (hop : op ≠ .list) (hk : cmd.kl ≤ 16)
    (hm : w.vfu.MapsBelow size) (hp : cmd.prp1.toNat % kvssdPageSize = 0)
    (hlt : cmd.prp1.toNat + kvssdPageSize ≤ size)
    (hh : kvHandle op ns cmd (kvdma fun _ => true) w (fun _ => true) = some (st, ns', w')) :
    ∃ io, KvSpec ns.maxNumKeys.toNat (ns.ednek &&& 0x01 != 0) ns.contents cmd op io st
        ns'.contents ∧ PageIo cmd.prp1 cmd.hbs w.mem io w'.mem := by
  have hsent {src : List Byte} {ok : Bool} (hx : kvdmaC2h (fun _ => true) w cmd src = (ok, w'))
      (hspec : KvSpec ns.maxNumKeys.toNat (ns.ednek &&& 0x01 != 0) ns.contents cmd op
        (.sent ok src) st ns'.contents) : PageIo cmd.prp1 cmd.hbs w.mem (.sent ok src) w'.mem := by
    have hl := KvSpec.sent_length hspec hop
    obtain ⟨rfl, hmem⟩ := kvdmaC2h_page hm hp hlt hl hx
    rw [hmem]
    exact .sent hl
  by_cases hstore : op = .store
  · subst hstore
    by_cases hv : nvmeKvMaxValSize < cmd.hbs
    · obtain ⟨rfl, rfl, rfl⟩ := kvStore_tooBig h hk hv hh
      exact ⟨.none, .storeValSize hk hv, .none⟩
    obtain ⟨io, hio, hspec⟩ := kvHandle_spec h (fun _ => rfl) (fun ctx dst => kvdmaH2c_length ..) hh
    cases hio with
    | none => exact ⟨.none, hspec (by simp), .none⟩
    | @received dst bytes ok _ hl hx =>
      obtain ⟨rfl, rfl, hmem⟩ := kvdmaH2c_page hm hp hlt (hl ▸ not_lt.mp hv) hx
      refine ⟨_, hspec (by simp), ?_⟩
      rw [hmem, hl]
      exact .received
    | sent hx => exact ⟨_, hspec (by simp), hsent hx (hspec (by simp))⟩
  · -- the other handlers run alike over a transfer in that never fails
    have hc : (kvdma fun _ => true).c2h =
        (⟨fun ctx _ dst => (true, dst, ctx), kvdmaC2h fun _ => true⟩ : KvDma World).c2h := by
      rw [kvdma_c2h]
    rw [kvHandle_reads hstore hop hc] at hh
    obtain ⟨io, hio, hspec⟩ := kvHandle_spec h (fun _ => rfl) (fun ctx dst => rfl) hh
    cases hio with
    | none => exact ⟨.none, hspec (by simp), .none⟩
    | received hl hx =>
      cases hx
      exact absurd (KvSpec.received_store (hspec (by simp))) hstore
    | sent hx => exact ⟨_, hspec (by simp), hsent hx (hspec (by simp))⟩

end OnePage

/-! ## The device's reply is the map's -/

theorem KvRequest.page_length {r : KvRequest} (h : r.Fits) : r.page.length = VfuKvssd.page := by
  have := h.value
  rw [KvRequest.page, List.length_append, List.length_replicate]
  omega

def pageAfter (bytes : List Byte) : KvIo → List Byte
  | .sent _ out => out ++ bytes.drop out.length
  | .none => bytes
  | .received _ _ => bytes

theorem PageIo.page {a : Addr} {hbs : ℕ} {mem mem' : Memory} {io : KvIo} {bytes : List Byte}
    (h : PageIo a hbs mem io mem') (hp : (span a kvssdPageSize).map mem = bytes) :
    (span a kvssdPageSize).map mem' = pageAfter bytes io := by
  cases h with
  | none | received => exact hp
  | sent hl =>
    rw [← span_take a hl, map_writeAll_take (span_nodup (by decide)) (by simpa using hl), hp,
      pageAfter]

theorem PageIo.received_page {a : Addr} {hbs : ℕ} {mem mem' : Memory} {ok : Bool}
    {bytes bytes' : List Byte} (h : PageIo a hbs mem (.received ok bytes) mem')
    (hp : (span a kvssdPageSize).map mem = bytes') (hl : hbs ≤ kvssdPageSize) :
    bytes = bytes'.take hbs := by
  cases h with
  | received => rw [← hp, ← List.map_take, span_take a hl]

section Answer
variable {cap : ℕ} {ednek : Bool} {m m' : KvMap} {r : KvRequest} {cmd : NvmeKVCmd} {a : Addr}
  {v : Buffer 4096}

/-- The map's reply to a Store of a key it holds, in terms of the command. -/
theorem answer_store_present (hop : r.op = .store) (hd : Decodes cmd r.opcode r.key a r.hbs r.ro)
    (hp : m cmd.keyBytes = some v) :
    answer cap ednek m r =
      if 4096 < cmd.hbs then (⟨nvmeKvInvalidValSize, r.page⟩, m)
      else if cmd.dontStoreIfKeyExists then (⟨nvmeKvKeyExists, r.page⟩, m)
      else (⟨nvmeSuccess, r.page⟩,
        Function.update m cmd.keyBytes (some (v.copy 0 (r.page.take cmd.hbs)))) := by
  rw [hd.key] at hp ⊢
  rw [hd.hbs, NvmeKVCmd.dontStoreIfKeyExists, hd.ro]
  simp only [answer, hop, hp]

theorem answer_store_absent (hop : r.op = .store) (hd : Decodes cmd r.opcode r.key a r.hbs r.ro)
    (hp : m cmd.keyBytes = none) :
    answer cap ednek m r =
      if 4096 < cmd.hbs then (⟨nvmeKvInvalidValSize, r.page⟩, m)
      else if cmd.dontStoreIfKeyNotExists then (⟨nvmeKvKeyNotExists, r.page⟩, m)
      else if cap ≤ m.card then (⟨nvmeCapExceeded, r.page⟩, m)
      else (⟨nvmeSuccess, r.page⟩, Function.update m cmd.keyBytes
        (some (Buffer.copy (fun _ => 0) 0 (r.page.take cmd.hbs)))) := by
  rw [hd.key] at hp ⊢
  rw [hd.hbs, NvmeKVCmd.dontStoreIfKeyNotExists, hd.ro]
  simp only [answer, hop, hp]

/-- A Retrieve leaves what the value does not cover. -/
theorem answer_retrieve_present (hr : r.Fits) (hop : r.op = .retrieve)
    (hd : Decodes cmd r.opcode r.key a r.hbs r.ro) (hp : m cmd.keyBytes = some v) :
    answer cap ednek m r =
      (⟨nvmeSuccess, pageAfter r.page (.sent true (v.bytes.take (min cmd.hbs 4096)))⟩, m) := by
  have hout : v.bytes.take (min cmd.hbs 4096) = v.bytes.take r.hbs.toNat := by
    rw [hd.hbs, List.take_eq_take_iff, Buffer.bytes_length]
    omega
  have hrest : r.page.drop (v.bytes.take r.hbs.toNat).length = r.page.drop r.hbs.toNat := by
    rw [List.drop_eq_drop_iff, r.page_length hr, List.length_take, Buffer.bytes_length]
    change min (min r.hbs.toNat 4096) 4096 = min r.hbs.toNat 4096
    omega
  rw [hd.key] at hp
  simp only [answer, hop, hp, pageAfter]
  rw [hout, hrest]

/-- A command that follows the map on the value page is answered as the map answers. -/
theorem answer_eq {io : KvIo} {st : Status} {mem mem' : Memory} (hr : r.Fits)
    (hd : Decodes cmd r.opcode r.key a r.hbs r.ro)
    (hspec : KvSpec cap ednek m cmd r.op io st m') (hio : PageIo a cmd.hbs mem io mem')
    (hpage : (span a kvssdPageSize).map mem = r.page) :
    answer cap ednek m r = (⟨st, (span a kvssdPageSize).map mem'⟩, m') := by
  have hk : cmd.kl ≤ 16 := hd.kl.trans_le hr.key
  have hlist := hr.op
  rw [hio.page hpage]
  generalize hop : r.op = op at hspec hlist
  cases hspec with
  | storeKeySize hbig | retrieveKeySize hbig | deleteKeySize hbig | existKeySize hbig
  | listKeySize hbig => exact absurd hk (not_le.mpr hbig)
  | list => exact absurd rfl hlist
  | storeValSize _ hv =>
    cases hm : m cmd.keyBytes with
    | none => rw [answer_store_absent hop hd hm, if_pos hv, pageAfter]
    | some v => rw [answer_store_present hop hd hm, if_pos hv, pageAfter]
  | storeExists _ hv hp ho =>
    rw [answer_store_present hop hd hp, if_neg (not_lt.mpr hv), if_pos ho, pageAfter]
  | storeOverwrite _ hv hp ho =>
    rw [hio.received_page hpage hv, answer_store_present hop hd hp, if_neg (not_lt.mpr hv),
      if_neg (ne_true_of_eq_false ho), pageAfter]
  | storeNotExists _ hv hp ho =>
    rw [answer_store_absent hop hd hp, if_neg (not_lt.mpr hv), if_pos ho, pageAfter]
  | storeFull _ hv hp ho hf =>
    rw [answer_store_absent hop hd hp, if_neg (not_lt.mpr hv), if_neg (ne_true_of_eq_false ho),
      if_pos hf, pageAfter]
  | storeInsert _ hv hp ho hf =>
    rw [hio.received_page hpage hv, answer_store_absent hop hd hp, if_neg (not_lt.mpr hv),
      if_neg (ne_true_of_eq_false ho), if_neg (not_le.mpr hf), pageAfter]
  | @retrieve _ v hp ok =>
    obtain rfl : ok = true := by cases hio; rfl
    exact answer_retrieve_present hr hop hd hp
  | retrieveAbsent _ hp | existAbsent _ hp | deleteAbsent _ hp | exist _ hp =>
    rw [hd.key] at hp
    simp only [answer, hop, hp, pageAfter]
  | delete _ hp =>
    rw [hd.key] at hp ⊢
    simp only [answer, hop, hp, pageAfter]

end Answer

/-! ## Sessions -/

/-- The I/O pair is ready for command number `k`, and the namespace holds `m`. -/
structure Live (maxNumKeys : BitVec 32) (ednek : Bool) (k : ℕ) (m : KvMap) (d : Device) : Prop where
  ready : ioPair.Ready memSize maxNumKeys k d
  setting : (d.n.ns.ednek &&& 0x01 != 0) = ednek
  contents : d.n.ns.contents = m

theorem ioPair_within : ioPair.Within memSize := by
  refine ⟨?_, ?_, ?_, ?_, ?_⟩ <;> decide

/-- A capacity below 2^30 keeps the table within the range of `int`. -/
theorem entriesAllocated_lt {maxNumKeys : BitVec 32} {d : Device} (h : d.Reachable maxNumKeys)
    (hcap : maxNumKeys.toNat < 2 ^ 30) : d.n.ns.entriesAllocated < 2 ^ 31 := by
  obtain ⟨hv, hmax⟩ := h.ns_valid
  have hle := hv.allocated_le
  rw [hmax, show kvInitialEntries = 16 from rfl] at hle
  omega

section Requests
variable {maxNumKeys : BitVec 32} {ednek : Bool} {k : ℕ} {m : KvMap} {d : Device} {r : KvRequest}

theorem kvOpOf_opcode (r : KvRequest) : kvOpOf r.opcode = some r.op := by
  rw [KvRequest.opcode]
  cases r.op <;> decide

theorem valPage_cqSpan {a : Addr} (ha : a ∈ span (BitVec.ofNat 64 valIova) kvssdPageSize) (j : ℕ) :
    a ∉ ioPair.cqSpan (j % ioPair.depth) := by
  have hj := ioPair_within.slot_lt j
  rw [mem_span_ofNat (by decide)] at ha
  have hd : ioPair.depth = 8 := rfl
  have hc : ioPair.cqSlot (j % ioPair.depth) = 12288 + 16 * (j % ioPair.depth) := rfl
  rw [QueuePair.cqSpan, mem_span_ofNat (by rw [hc]; omega), hc]
  have hv : valIova = 20480 := rfl
  omega

theorem valPage_stored (mem : Memory) (j : ℕ) {entry : List Byte} (hl : entry.length = 64) :
    (span (BitVec.ofNat 64 valIova) kvssdPageSize).map
      (stored mem (ioPair.sqSlot (j % ioPair.depth)) entry) =
    (span (BitVec.ofNat 64 valIova) kvssdPageSize).map mem := by
  apply List.map_congr_left
  intro a ha
  have hj := ioPair_within.slot_lt j
  rw [mem_span_ofNat (by decide)] at ha
  have hd : ioPair.depth = 8 := rfl
  have hs : ioPair.sqSlot (j % ioPair.depth) = 8192 + 64 * (j % ioPair.depth) := rfl
  have hv : valIova = 20480 := rfl
  apply writeAll_outside
  rw [hl, mem_span_ofNat (by rw [hs]; omega), hs]
  omega

theorem nvmeExecute_kv {n n₀ : NvmeCtrl} {heap : Heap} {q : QueueId} {sqe : NvmeSqe} {op : KvOp}
    {st : Status} {cdw0 : BitVec 32} (hq : q ≠ 0) (ho : kvOpOf sqe.opcode = some op)
    (hx : nvmeExecute n heap q sqe = some (st, cdw0, n₀)) :
    kvHandle op n.ns (.ofSqe sqe) (kvdma heap) n.world heap = some (st, n₀.ns, n₀.world) := by
  rw [nvmeExecute, if_neg hq] at hx
  obtain ⟨⟨st', n'⟩, hio, hx⟩ := Option.map_eq_some_iff.mp hx
  obtain ⟨rfl, -, rfl⟩ : st' = st ∧ 0 = cdw0 ∧ n' = n₀ := by simpa using hx
  have ho' : kvOpOf (NvmeKVCmd.ofSqe sqe).opcode = some op := ho
  simp only [nvmeIoKv, ho'] at hio
  obtain ⟨⟨s, ns', w'⟩, hh, hio⟩ := Option.map_eq_some_iff.mp hio
  obtain ⟨rfl, rfl⟩ : s = st' ∧ { n.withWorld w' with ns := ns' } = n' := by simpa using hio
  exact hh

/-- The answer to a request that the device has executed. -/
theorem Answered_kv {d₁ d' : Device} {st : Status} {cdw0 : BitVec 32} {n₀ : NvmeCtrl}
    (h₁ : Live maxNumKeys ednek k m d₁) (hr : r.Fits) (hans : ioPair.Answered k d₁ st cdw0 n₀ d')
    (hentry : ioPair.sqEntry d₁.n.world.mem (k % ioPair.depth) = ⟨Buffer.ofBytes r.entry⟩)
    (hpage : (span (BitVec.ofNat 64 valIova) kvssdPageSize).map d₁.n.world.mem = r.page) :
    answer maxNumKeys.toNat ednek m r =
        (⟨st &&& 0x7fff, (span (BitVec.ofNat 64 valIova) kvssdPageSize).map d'.n.world.mem⟩,
          d'.n.ns.contents) ∧
      (d'.n.ns.ednek &&& 0x01 != 0) = ednek := by
  obtain ⟨n, hmem, hvfu, hns, -, -, hx⟩ := hans.ran
  rw [hentry] at hx
  have hdec : Decodes (.ofSqe ⟨Buffer.ofBytes r.entry⟩) r.opcode r.key (BitVec.ofNat 64 valIova)
      r.hbs r.ro := kvCmd_decodes r.opcode r.cid r.key (BitVec.ofNat 64 valIova) r.hbs r.ro hr.key
  obtain ⟨hvalid, hmax⟩ := h₁.ready.reachable.ns_valid
  have hop : kvOpOf (⟨Buffer.ofBytes r.entry⟩ : NvmeSqe).opcode = some r.op := kvOpOf_opcode r
  generalize (⟨Buffer.ofBytes r.entry⟩ : NvmeSqe) = sqe at hx hdec hop
  have hh := nvmeExecute_kv (by decide) hop hx
  have hkl : (NvmeKVCmd.ofSqe sqe).kl ≤ 16 := hdec.kl.trans_le hr.key
  have hmapped : n.world.vfu.MapsBelow memSize := hvfu ▸ h₁.ready.mapped
  have hvalid' : n.ns.Valid := hns ▸ hvalid
  have hprp : (NvmeKVCmd.ofSqe sqe).prp1.toNat = valIova := by rw [hdec.prp1]; rfl
  have haligned : (NvmeKVCmd.ofSqe sqe).prp1.toNat % kvssdPageSize = 0 := by rw [hprp]; rfl
  have hwithin : (NvmeKVCmd.ofSqe sqe).prp1.toNat + kvssdPageSize ≤ memSize := by
    rw [hprp]
    decide
  obtain ⟨io, hspec, hio⟩ := kvHandle_page hvalid' hr.op hkl hmapped haligned hwithin hh
  have hstatus : st &&& 0x7fff = st := by
    have hall : kvStatuses.all (fun s => s &&& 0x7fff == s) = true := by decide
    exact eq_of_beq (List.all_eq_true.mp hall st (kvHandle_context hh).1)
  have hednek := (kvHandle_valid hvalid' hh).2.2
  have hafter : (span (BitVec.ofNat 64 valIova) kvssdPageSize).map d'.n.world.mem =
      (span (BitVec.ofNat 64 valIova) kvssdPageSize).map n₀.world.mem :=
    List.map_congr_left fun a ha => hans.outside a (valPage_cqSpan ha k)
  rw [hns, hmax, h₁.setting, h₁.contents] at hspec
  refine ⟨?_, ?_⟩
  · rw [hstatus, hafter, hans.ns]
    rw [hdec.prp1] at hio
    exact answer_eq hr hdec hspec hio (by rw [hmem, hpage])
  · rw [hans.ns, hednek, hns, h₁.setting]

theorem Live.setMemory (h : Live maxNumKeys ednek k m d) (mem : Memory) :
    Live maxNumKeys ednek k m (d.setMemory mem) :=
  ⟨h.ready.setMemory mem, h.setting, h.contents⟩

theorem Live.fill (h : Live maxNumKeys ednek k m d) (hr : r.Fits) {d₀ : Device}
    (hd₀ : d₀ = d.setMemory (stored d.n.world.mem valIova r.page)) :
    Live maxNumKeys ednek k m d₀ ∧
      (span (BitVec.ofNat 64 valIova) kvssdPageSize).map d₀.n.world.mem = r.page := by
  have hlen : r.page.length = kvssdPageSize := r.page_length hr
  have hmem : d₀.n.world.mem = stored d.n.world.mem valIova r.page := by rw [hd₀, Device.setMemory_mem]
  refine ⟨hd₀ ▸ h.setMemory _, ?_⟩
  rw [hmem, stored, hlen, map_writeAll (span_nodup (by decide)) (by rw [span_length, hlen])]

/-- One request is answered as the map answers it, and the admin queues are left alone. -/
theorem runs_kvRequest (hcap : maxNumKeys.toNat < 2 ^ 30) (hr : r.Fits)
    (h : Live maxNumKeys ednek k m d) :
    Runs (On (· = d)) (kvRequest (ringPos qDepth k) r) fun reply c =>
      reply = (answer maxNumKeys.toNat ednek m r).1 ∧
        Live maxNumKeys ednek (k + 1) (answer maxNumKeys.toNat ednek m r).2 c.dev ∧
        c.dev.n.sq 0 = d.n.sq 0 ∧ c.dev.n.cq 0 = d.n.cq 0 := by
  have hentry : r.entry.length = 64 := kvCmd_length ..
  obtain ⟨d₀, hd₀⟩ : ∃ d₀, d₀ = d.setMemory (stored d.n.world.mem valIova r.page) := ⟨_, rfl⟩
  obtain ⟨h₀, hpage₀⟩ := h.fill hr hd₀
  obtain ⟨d₁, hd₁⟩ : ∃ d₁, d₁ = d₀.setMemory
    (stored d₀.n.world.mem (ioPair.sqSlot (k % ioPair.depth)) r.entry) := ⟨_, rfl⟩
  have h₁ : Live maxNumKeys ednek k m d₁ := hd₁ ▸ h₀.setMemory _
  obtain ⟨d₂, st, cdw0, n₀, hready₂, hans, hexchange⟩ := QueuePair.runs_exchange ioPair_within
    h₀.ready (.inr (entriesAllocated_lt h₀.ready.reachable hcap)) hentry
    (fun hq => absurd hq (by decide)) hd₁
  have hmem₁ : d₁.n.world.mem =
      stored d₀.n.world.mem (ioPair.sqSlot (k % ioPair.depth)) r.entry := by rw [hd₁, Device.setMemory_mem]
  have hentry₁ : ioPair.sqEntry d₁.n.world.mem (k % ioPair.depth) = ⟨Buffer.ofBytes r.entry⟩ := by
    rw [hmem₁, QueuePair.sqEntry_stored _ _ hentry]
  obtain ⟨hanswer, hednek⟩ := Answered_kv h₁ hr hans hentry₁
    (by rw [hmem₁, valPage_stored _ _ hentry, hpage₀])
  obtain ⟨d₃, hready₃, hns₃, hmem₃, hsq₃, hcq₃, hrelease⟩ :=
    QueuePair.runs_release ioPair_within hready₂ k
  obtain ⟨hsq, hcq⟩ := hans.others (by decide)
  rw [hanswer]
  refine (runs_poke_to hd₀).seq (hexchange.bind fun cqe => ?_)
  refine Runs.seq (R := fun c => c.dev = d₂ ∧
    cqe = ioPair.cqEntry d₂.n.world.mem (k % ioPair.depth)) (Runs.ensure ?_) ?_
  · rintro c ⟨rfl, rfl⟩
    exact ⟨by rw [hans.tag]; exact beq_self_eq_true _, rfl, rfl⟩
  refine Runs.seq (R := fun c => cqe = ioPair.cqEntry d₂.n.world.mem (k % ioPair.depth) ∧
    On (· = d₂) c) (Runs.ensure ?_) (Runs.assume fun hcqe => ?_)
  · rintro c ⟨rfl, rfl⟩
    refine ⟨?_, rfl, rfl⟩
    rw [hans.cid, hentry₁, KvRequest.entry, kvCmd_cid]
    exact beq_self_eq_true _
  refine hrelease.seq ((runs_peek valIova VfuKvssd.page).bind fun bytes => Runs.pure ?_)
  rintro c ⟨rfl, hbytes⟩
  refine ⟨?_, ⟨hready₃, by rw [hns₃, hednek], by rw [hns₃]⟩, ?_, ?_⟩
  · rw [hcqe, hans.status, hbytes, hmem₃, show VfuKvssd.page = kvssdPageSize from rfl]
  · rw [hsq₃, hsq 0 (by decide), hd₁, Device.setMemory_sq, hd₀, Device.setMemory_sq]
  · rw [hcq₃ 0 (by decide), hcq 0 (by decide), hd₁, Device.setMemory_cq, hd₀, Device.setMemory_cq]

end Requests

/-- Whatever a client asks for, over any number of laps of its rings, the replies that it finds in
its own memory are those of a map with the capacity of the device, and the device ends up with what
the map ends up with. Allocations succeed, and the capacity keeps the table within the range of
`int`. -/
theorem kvSession_refines_map {maxNumKeys : BitVec 32} (hcap : maxNumKeys.toNat < 2 ^ 30)
    (ednek : Bool) {rs : List KvRequest} (hrs : ∀ r ∈ rs, r.Fits) (k : ℕ) (m : KvMap) :
    Runs (On (Live maxNumKeys ednek k m)) (kvSession (ringPos qDepth k) rs) fun replies c =>
      replies = (answers maxNumKeys.toNat ednek m rs).1 ∧
        Live maxNumKeys ednek (k + rs.length) (answers maxNumKeys.toNat ednek m rs).2 c.dev := by
  induction rs generalizing k m with
  | nil => exact Runs.pure fun c hc => ⟨rfl, hc⟩
  | cons r rs ih =>
    have hfirst : Runs (On (Live maxNumKeys ednek k m)) (kvRequest (ringPos qDepth k) r)
        fun reply c => reply = (answer maxNumKeys.toNat ednek m r).1 ∧
          Live maxNumKeys ednek (k + 1) (answer maxNumKeys.toNat ednek m r).2 c.dev :=
      runs_of_each fun d hd => (runs_kvRequest hcap (hrs r List.mem_cons_self) hd).post
        fun _ _ h => ⟨h.1, h.2.1⟩
    refine hfirst.bind fun reply => Runs.assume fun hreply => ?_
    have hrest := ih (fun x hx => hrs x (List.mem_cons_of_mem _ hx)) (k + 1)
      (answer maxNumKeys.toNat ednek m r).2
    rw [← ringPos_next (by decide)] at hrest
    refine hrest.bind fun replies => Runs.pure ?_
    rintro c ⟨rfl, hlive⟩
    refine ⟨by rw [hreply]; rfl, ?_⟩
    rw [List.length_cons, show k + (rs.length + 1) = k + 1 + rs.length by omega]
    exact hlive

/-- Entries that create the I/O pair. -/
def pairMemory : Memory :=
  memoryOf [(0, 5), (25, 0x30), (40, 1), (42, 7), (44, 1), (64, 1), (89, 0x20), (104, 1), (106, 7),
    (108, 1), (110, 1)]

def pairInputs : List Input :=
  enableAdmin ++ [.hostMemory pairMemory, sqTailWrite 0 2] ++ iterations 3

def storeRetrieve : List KvRequest :=
  [⟨.store, 10, asciiBytes "abc", 15, 0, asciiBytes "hello-kv-value"⟩,
    ⟨.retrieve, 11, asciiBytes "abc", 4096, 0, []⟩]

theorem storeRetrieve_fits : ∀ r ∈ storeRetrieve, r.Fits := by
  intro r hr
  simp only [storeRetrieve, List.mem_cons, List.not_mem_nil, or_false] at hr
  rcases hr with rfl | rfl <;> exact ⟨by decide, by decide, by decide⟩

theorem kvSession_refines_map_storeRetrieve : ∃ d m, Live 2 false 0 m d ∧ ∃ c,
    (kvSession (ringPos qDepth 0) storeRetrieve).run ⟨d, 1, 0⟩ =
      .ok ((answers 2 false m storeRetrieve).1, c) := by
  have hrun : (bootRun 2 (fun _ _ => true) pairInputs).map (fun d => decide (
      d.busy = none ∧ d.n.sq 1 = ⟨0x2000, 8, 1, 1, 0, 0, true⟩ ∧
      (d.n.cq 1).enabled = true ∧ (d.n.cq 1).dma = 0x3000 ∧ (d.n.cq 1).size = 8 ∧
      (d.n.cq 1).tail = 0 ∧ (d.n.cq 1).phase = 1 ∧ (d.n.ns.ednek &&& 0x01 != 0) = false)) =
      some true := by decide +kernel
  obtain ⟨d, hd, hobs⟩ := Option.map_eq_some_iff.mp hrun
  obtain ⟨hidle, hsq, hon, hdma, hsize, htail, hphase, hednek⟩ := of_decide_eq_true hobs
  have hrings : ioPair.At 0 d.n := by
    have hsq' : d.n.sq ioPair.q = _ := hsq
    refine ⟨by rw [hsq'], by rw [hsq']; rfl, by rw [hsq']; rfl, by rw [hsq']; rfl, by rw [hsq']; rfl,
      hon, hdma, (congrArg BitVec.toNat hsize : _), ?_, hphase⟩
    exact congrArg BitVec.toNat htail
  have hlive : Live 2 false 0 d.n.ns.contents
      { d with n := d.n.withWorld { d.n.world with vfu := .flat } } :=
    ⟨⟨(reachable_of_bootRun hd).next (i := .dmaRegions .flat) rfl, hidle,
      Vfu.flat_mapsBelow memSize, hrings.congr rfl rfl, by
        change (d.n.sq 1).tail = (d.n.sq 1).head
        rw [hsq]⟩, hednek, rfl⟩
  have hcap : (2 : BitVec 32).toNat < 2 ^ 30 := by decide
  obtain ⟨_, c, hpass, rfl, -⟩ :=
    kvSession_refines_map hcap false storeRetrieve_fits 0 _ ⟨_, 1, 0⟩ hlive
  exact ⟨_, _, hlive, c, hpass⟩

end VfuKvssd.Harness
