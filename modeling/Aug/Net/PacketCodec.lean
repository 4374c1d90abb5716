import Aug.Net.Packet
import Aug.Sys.Endian

/-!
# Packets on the wire

The codec of `packet.c` on a buffer. The fields lie at the offsets of `packet.h`, each behind the one
before it, so that an encoded buffer is the concatenation of its fields and decoding takes it apart
again. A buffer from the wire need not be an encoded one: its size is clamped and its node cut at the
width of the field, and what a reader sees of the packet survives another encoding.
-/

namespace Aug.Net

open Aug.Lib Aug.Sys

/-- A host: its byte order, and the bytes of its `unsigned long`. -/
structure Host where
  endian : Endian
  long : ℕ
  long_le : long ≤ 8

/-- The longest `unsigned long`. -/
theorem long_le_eight : 8 ≤ 8 := le_rfl

/-- `AUG_PKTNODELEN` and `AUG_PKTDATASIZE`. -/
def pktnodelen : ℕ := 128
def pktdatasize : ℕ := 366

/-- `AUG_PKTMAGICOFF` to `AUG_PKTDATAOFF`. -/
def pktmagicoff : ℕ := 0
def pktprotooff : ℕ := pktmagicoff + 4
def pktnodeoff : ℕ := pktprotooff + 2
def pktinstoff : ℕ := pktnodeoff + pktnodelen
def pkttypeoff : ℕ := pktinstoff + 4
def pktseqnooff : ℕ := pkttypeoff + 2
def pktsizeoff : ℕ := pktseqnooff + 8
def pktdataoff : ℕ := pktsizeoff + 2

/-- `AUG_PACKETSIZE`. -/
def packetsize : ℕ := 516

/-- `MAGIC_` with its terminator. -/
def pktmagic : List UInt8 := [97, 117, 103, 0]

/-- The string in an array, up to its terminator. -/
def cstring (src : List UInt8) : List UInt8 := src.takeWhile (· ≠ 0)

/-- `packstring_`; a string above the size makes the length of the padding wrap. -/
def packstring (src : List UInt8) (size : ℕ) : Option (List UInt8) :=
  let len := (cstring src).length
  if len ≤ size then some (cstring src ++ List.replicate (size - len) 0) else none

/-- `aug_encodepacket`; undefined where the buffer or the packet is too short. -/
def encodepacket (host : Host) (pkt : Packet) (buf : List UInt8) : Option (List UInt8) := do
  let buf ← store buf pktmagicoff pktmagic
  let buf ← encode16 host.endian (.ofNat pkt.proto) buf pktprotooff
  let buf ← store buf pktnodeoff (← packstring pkt.node pktnodelen)
  let buf ← encode32 host.endian (.ofNat pkt.inst) buf pktinstoff
  let buf ← encode16 host.endian (.ofNat pkt.type) buf pkttypeoff
  let buf ← encode64 host.endian (.ofNat pkt.seqno) buf pktseqnooff
  let size := min pkt.size pktdatasize
  let buf ← encode16 host.endian (.ofNat size) buf pktsizeoff
  let buf ← store buf pktdataoff (← load pkt.data 0 size)
  if size < pktdatasize then store buf (pktdataoff + size) (List.replicate (pktdatasize - size) 0)
  else some buf

/-- Why a buffer is refused. -/
inductive PacketError where
  | einval
deriving DecidableEq

/-- `aug_decodepacket`; undefined where the buffer is too short. -/
def decodepacket (host : Host) (buf : List UInt8) : Option (Except PacketError Packet) := do
  let magic ← load buf pktmagicoff 4
  if magic ≠ pktmagic then return .error .einval
  let proto ← decode16 host.endian buf pktprotooff
  let node ← load buf pktnodeoff pktnodelen
  let inst ← decode32 host.endian buf pktinstoff
  let type ← decode16 host.endian buf pkttypeoff
  let seqno ← decode64 host.endian buf pktseqnooff
  let size ← decode16 host.endian buf pktsizeoff
  let data ← load buf pktdataoff pktdatasize
  return .ok
    { proto := proto.toNat
      node := node ++ [0]
      inst := inst.toNat
      type := type.toNat
      seqno := seqno.toNat % 256 ^ host.long
      size := min size.toNat pktdatasize
      data := data }

section Fields

/-- The fields of a buffer of `AUG_PACKETSIZE` bytes. -/
structure Fields where
  magic : List UInt8
  proto : List UInt8
  node : List UInt8
  inst : List UInt8
  type : List UInt8
  seqno : List UInt8
  size : List UInt8
  data : List UInt8
  magic_length : magic.length = 4
  proto_length : proto.length = 2
  node_length : node.length = 128
  inst_length : inst.length = 4
  type_length : type.length = 2
  seqno_length : seqno.length = 8
  size_length : size.length = 2
  data_length : data.length = 366

attribute [simp] Fields.magic_length Fields.proto_length Fields.node_length Fields.inst_length
  Fields.type_length Fields.seqno_length Fields.size_length Fields.data_length

/-- The fields in the order of the buffer. -/
def Fields.list (f : Fields) : List (List UInt8) :=
  [f.magic, f.proto, f.node, f.inst, f.type, f.seqno, f.size, f.data]

/-- The fields one behind the other, and what follows them. -/
def Fields.buffer (f : Fields) (rest : List UInt8) : List UInt8 := (f.list ++ [rest]).flatten

/-- The offset of a field, by its place in the buffer. -/
def fieldOffset (k : ℕ) : ℕ := ([4, 2, 128, 4, 2, 8, 2, 366].take k).sum

/-- A buffer of which the first fields have been overwritten. -/
def mixedBuffer (g f : Fields) (rest : List UInt8) (k : ℕ) : List UInt8 :=
  (g.list.take k ++ f.list.drop k ++ [rest]).flatten

/-- The fields of a packet. -/
def Packet.fields (pkt : Packet) (hnode : (cstring pkt.node).length ≤ 128)
    (hdata : min pkt.size 366 ≤ pkt.data.length) : Fields where
  magic := pktmagic
  proto := encodeBE 2 pkt.proto
  node := cstring pkt.node ++ List.replicate (128 - (cstring pkt.node).length) 0
  inst := encodeBE 4 pkt.inst
  type := encodeBE 2 pkt.type
  seqno := encodeBE 8 pkt.seqno
  size := encodeBE 2 (min pkt.size 366)
  data := pkt.data.take (min pkt.size 366) ++ List.replicate (366 - min pkt.size 366) 0
  magic_length := rfl
  proto_length := by simp
  node_length := by simp; omega
  inst_length := by simp
  type_length := by simp
  seqno_length := by simp
  size_length := by simp
  data_length := by simp; omega

/-- The packet that is read from the fields. -/
def Fields.packet (f : Fields) (host : Host) : Packet where
  proto := valueBE f.proto
  node := f.node ++ [0]
  inst := valueBE f.inst
  type := valueBE f.type
  seqno := valueBE f.seqno % 256 ^ host.long
  size := min (valueBE f.size) 366
  data := f.data

/-- A buffer is its fields and what follows them. -/
theorem exists_fields {buf : List UInt8} (hbuf : packetsize ≤ buf.length) :
    ∃ (f : Fields) (rest : List UInt8), buf = f.buffer rest := by
  have hlen : 516 ≤ buf.length := hbuf
  let f : Fields :=
    { magic := buf.take 4
      proto := (buf.drop 4).take 2
      node := (buf.drop 6).take 128
      inst := (buf.drop 134).take 4
      type := (buf.drop 138).take 2
      seqno := (buf.drop 140).take 8
      size := (buf.drop 148).take 2
      data := (buf.drop 150).take 366
      magic_length := by simp; omega
      proto_length := by simp; omega
      node_length := by simp; omega
      inst_length := by simp; omega
      type_length := by simp; omega
      seqno_length := by simp; omega
      size_length := by simp; omega
      data_length := by simp; omega }
  have hcut (i n : ℕ) : (buf.drop i).take n ++ buf.drop (i + n) = buf.drop i := by
    rw [← List.drop_drop, List.take_append_drop]
  refine ⟨f, buf.drop 516, ?_⟩
  simp only [Fields.buffer, Fields.list, f, List.cons_append, List.nil_append, List.flatten_cons,
    List.flatten_nil, List.append_nil]
  rw [hcut 150 366, hcut 148 2, hcut 140 8, hcut 138 2, hcut 134 4, hcut 6 128, hcut 4 2,
    List.take_append_drop]

/-- The fields before a place end at its offset. -/
theorem Fields.length_take (f : Fields) (k : ℕ) : (f.list.take k).flatten.length = fieldOffset k := by
  have hlengths : f.list.map List.length = [4, 2, 128, 4, 2, 8, 2, 366] := by simp [Fields.list]
  rw [List.length_flatten, List.map_take, hlengths, fieldOffset]

/-- A field is read at its offset. -/
theorem Fields.load_field (f : Fields) (rest : List UInt8) {k n : ℕ} {field : List UInt8}
    (hfield : f.list[k]? = some field) (hn : field.length = n) :
    load (f.buffer rest) (fieldOffset k) n = some field := by
  obtain ⟨hk, rfl⟩ := List.getElem?_eq_some_iff.mp hfield
  have hcut : f.list ++ [rest] = f.list.take k ++ f.list[k] :: (f.list.drop (k + 1) ++ [rest]) := by
    rw [← List.cons_append, List.getElem_cons_drop, ← List.append_assoc, List.take_append_drop]
  rw [Fields.buffer, hcut]
  exact load_segment _ _ (f.length_take k).symm hn.symm

/-- Writing a field at its offset leaves the fields behind it. -/
theorem store_field (g f : Fields) (rest : List UInt8) {k : ℕ} {field : List UInt8}
    (hfield : g.list[k]? = some field) :
    store (mixedBuffer g f rest k) (fieldOffset k) field = some (mixedBuffer g f rest (k + 1)) := by
  obtain ⟨hk, rfl⟩ := List.getElem?_eq_some_iff.mp hfield
  have hf : k < f.list.length := hk
  have hlength : g.list[k].length = f.list[k].length := by
    have hlengths : g.list.map List.length = f.list.map List.length := by simp [Fields.list]
    have hplace := congrArg (·[k]?) hlengths
    simp only [List.getElem?_map, List.getElem?_eq_getElem hk, List.getElem?_eq_getElem hf,
      Option.map_some, Option.some.injEq] at hplace
    exact hplace
  have hnext : g.list.take (k + 1) = g.list.take k ++ [g.list[k]] := (List.take_append_getElem hk).symm
  simp only [mixedBuffer, hnext, List.append_assoc, List.cons_append, List.nil_append]
  rw [← List.getElem_cons_drop hf, List.cons_append]
  exact store_segment _ _ (g.length_take k).symm hlength

/-- Decoding reads the packet from the fields. -/
theorem decodepacket_buffer (host : Host) (f : Fields) (rest : List UInt8) (hmagic : f.magic = pktmagic) :
    decodepacket host (f.buffer rest) = some (.ok (f.packet host)) := by
  have hmagic' : load (f.buffer rest) pktmagicoff 4 = some f.magic :=
    f.load_field rest (k := 0) rfl f.magic_length
  have hproto : load (f.buffer rest) pktprotooff 2 = some f.proto :=
    f.load_field rest (k := 1) rfl f.proto_length
  have hnode : load (f.buffer rest) pktnodeoff pktnodelen = some f.node :=
    f.load_field rest (k := 2) rfl f.node_length
  have hinst : load (f.buffer rest) pktinstoff 4 = some f.inst :=
    f.load_field rest (k := 3) rfl f.inst_length
  have htype : load (f.buffer rest) pkttypeoff 2 = some f.type :=
    f.load_field rest (k := 4) rfl f.type_length
  have hseqno : load (f.buffer rest) pktseqnooff 8 = some f.seqno :=
    f.load_field rest (k := 5) rfl f.seqno_length
  have hsize : load (f.buffer rest) pktsizeoff 2 = some f.size :=
    f.load_field rest (k := 6) rfl f.size_length
  have hdata : load (f.buffer rest) pktdataoff pktdatasize = some f.data :=
    f.load_field rest (k := 7) rfl f.data_length
  have hlt (bytes : List UInt8) (width n : ℕ) (hlen : bytes.length = width) (hn : n = 256 ^ width) :
      valueBE bytes % n = valueBE bytes := by
    rw [hn, ← hlen, Nat.mod_eq_of_lt (valueBE_lt bytes)]
  have hsizes : pktdatasize = 366 := rfl
  rw [hsizes] at hdata
  simp [decodepacket, decode16_eq, decode32_eq, decode64_eq, hmagic, hmagic', hproto, hnode, hinst, htype,
    hseqno, hsize, hdata, Fields.packet, hsizes, hlt _ 2 65536 f.proto_length,
    hlt _ 4 4294967296 f.inst_length, hlt _ 2 65536 f.type_length, hlt _ 2 65536 f.size_length,
    hlt _ 8 18446744073709551616 f.seqno_length]

/-- Data that is written and padded fills its field. -/
theorem store_padded (front rest : List UInt8) {old xs : List UInt8} {i n : ℕ} (hi : i = front.length)
    (hold : old.length = n) (hxs : xs.length ≤ n) :
    ((store (front ++ (old ++ rest)) i xs).bind fun buf =>
        if xs.length < n then store buf (i + xs.length) (List.replicate (n - xs.length) 0) else some buf) =
      some (front ++ (xs ++ List.replicate (n - xs.length) 0 ++ rest)) := by
  have hcut : old ++ rest = old.take xs.length ++ (old.drop xs.length ++ rest) := by
    rw [← List.append_assoc, List.take_append_drop]
  have hlen : xs.length = (old.take xs.length).length := by
    rw [List.length_take, hold, Nat.min_eq_left hxs]
  have hdrop : (List.replicate (n - xs.length) (0 : UInt8)).length = (old.drop xs.length).length := by
    rw [List.length_replicate, List.length_drop, hold]
  rw [hcut, store_append hi hlen, Option.bind_some]
  split
  next hlt =>
    have hmid : front ++ (xs ++ (old.drop xs.length ++ rest)) =
        front ++ xs ++ (old.drop xs.length ++ rest) := (List.append_assoc _ _ _).symm
    rw [hmid, store_append (by rw [List.length_append, hi]) hdrop]
    simp
  next hge =>
    have hfull : n - xs.length = 0 := by omega
    have hempty : old.drop xs.length = [] := List.drop_of_length_le (by omega)
    simp [hfull, hempty]

/-- Encoding overwrites the fields of the buffer. -/
theorem encodepacket_buffer (host : Host) (pkt : Packet) (f : Fields) (rest : List UInt8)
    (hnode : (cstring pkt.node).length ≤ 128) (hdata : min pkt.size 366 ≤ pkt.data.length) :
    encodepacket host pkt (f.buffer rest) = some ((pkt.fields hnode hdata).buffer rest) := by
  let g := pkt.fields hnode hdata
  have hpack : packstring pkt.node pktnodelen = some g.node := if_pos hnode
  have hread : load pkt.data 0 (min pkt.size pktdatasize) = some (pkt.data.take (min pkt.size 366)) := by
    rw [load, if_pos (by simpa [pktdatasize] using hdata), List.drop_zero]
    rfl
  have hmagic : store (f.buffer rest) pktmagicoff pktmagic = some (mixedBuffer g f rest 1) :=
    store_field g f rest (k := 0) rfl
  have hproto : store (mixedBuffer g f rest 1) pktprotooff g.proto = some (mixedBuffer g f rest 2) :=
    store_field g f rest rfl
  have hnode' : store (mixedBuffer g f rest 2) pktnodeoff g.node = some (mixedBuffer g f rest 3) :=
    store_field g f rest rfl
  have hinst : store (mixedBuffer g f rest 3) pktinstoff g.inst = some (mixedBuffer g f rest 4) :=
    store_field g f rest rfl
  have htype : store (mixedBuffer g f rest 4) pkttypeoff g.type = some (mixedBuffer g f rest 5) :=
    store_field g f rest rfl
  have hseqno : store (mixedBuffer g f rest 5) pktseqnooff g.seqno = some (mixedBuffer g f rest 6) :=
    store_field g f rest rfl
  have hsize : store (mixedBuffer g f rest 6) pktsizeoff g.size = some (mixedBuffer g f rest 7) :=
    store_field g f rest rfl
  have hxs : (pkt.data.take (min pkt.size 366)).length = min pkt.size 366 := by
    rw [List.length_take, Nat.min_eq_left hdata]
  have hoff : pktdataoff = (g.list.take 7).flatten.length := (g.length_take 7).symm
  have hpadded := store_padded _ rest hoff f.data_length (hxs.trans_le (Nat.min_le_right _ _))
  have h16 (n : ℕ) : encodeBE 2 (UInt16.ofNat n).toNat = encodeBE 2 n := by
    rw [UInt16.toNat_ofNat', ← encodeBE_mod 2 n]
    rfl
  have h32 (n : ℕ) : encodeBE 4 (UInt32.ofNat n).toNat = encodeBE 4 n := by
    rw [UInt32.toNat_ofNat', ← encodeBE_mod 4 n]
    rfl
  have h64 (n : ℕ) : encodeBE 8 (UInt64.ofNat n).toNat = encodeBE 8 n := by
    rw [UInt64.toNat_ofNat', ← encodeBE_mod 8 n]
    rfl
  have hgoal : encodepacket host pkt (f.buffer rest) =
      (store (mixedBuffer g f rest 7) pktdataoff (pkt.data.take (min pkt.size 366))).bind fun buf =>
          if min pkt.size 366 < 366 then
            store buf (pktdataoff + min pkt.size 366) (List.replicate (366 - min pkt.size 366) 0)
          else some buf := by
    simp only [encodepacket, encode16_eq, encode32_eq, encode64_eq, h16, h32, h64, Option.bind_eq_bind,
      hmagic, hpack, hread, Option.bind_some]
    rw [show encodeBE 2 pkt.proto = g.proto from rfl, hproto, Option.bind_some, hnode', Option.bind_some,
      show encodeBE 4 pkt.inst = g.inst from rfl, hinst, Option.bind_some,
      show encodeBE 2 pkt.type = g.type from rfl, htype, Option.bind_some,
      show encodeBE 8 pkt.seqno = g.seqno from rfl, hseqno, Option.bind_some,
      show encodeBE 2 (min pkt.size pktdatasize) = g.size from rfl, hsize, Option.bind_some]
    rfl
  rw [hxs] at hpadded
  rw [hgoal]
  simpa [g, mixedBuffer, Fields.buffer, Fields.list, Packet.fields] using hpadded

end Fields

section RoundTrip

/-- The fields of a packet are within their widths, and the data up to its size is set. -/
structure Packet.Fits (host : Host) (pkt : Packet) : Prop where
  proto : pkt.proto < 2 ^ 16
  node : (cstring pkt.node).length ≤ pktnodelen
  inst : pkt.inst < 2 ^ 32
  type : pkt.type < 2 ^ 16
  seqno : pkt.seqno < 256 ^ host.long
  size : pkt.size ≤ pktdatasize
  data : pkt.size ≤ pkt.data.length

/-- The packet with its arrays filled up with zeros. -/
def Packet.padded (pkt : Packet) : Packet :=
  { pkt with
    node := cstring pkt.node ++ List.replicate (pktnodelen + 1 - (cstring pkt.node).length) 0
    data := pkt.data.take pkt.size ++ List.replicate (pktdatasize - pkt.size) 0 }

/-- What a reader sees of a packet: the node as a string, and the data up to the size. -/
def Packet.observe (pkt : Packet) : Packet :=
  { pkt with node := cstring pkt.node, data := pkt.data.take pkt.size }

/-- Zeros behind a string do not change it. -/
theorem cstring_padded (src : List UInt8) (n : ℕ) :
    cstring (cstring src ++ List.replicate n 0) = cstring src := by
  have hall : ∀ b ∈ cstring src, decide (b ≠ 0) = true := by
    exact List.all_eq_true.mp List.all_takeWhile
  have hzeros : (List.replicate n (0 : UInt8)).takeWhile (· ≠ 0) = [] := by
    cases n <;> simp [List.replicate_succ]
  rw [cstring, List.takeWhile_append_of_pos hall, hzeros, List.append_nil]

/-- A terminator ends a string. -/
theorem cstring_terminated (src : List UInt8) : cstring (src ++ [0]) = cstring src := by
  induction src with
  | nil => rfl
  | cons b src ih =>
    unfold cstring at ih ⊢
    simp only [List.cons_append, List.takeWhile_cons, ih]

/-- The padding is not seen. -/
theorem Packet.observe_padded {pkt : Packet} (hdata : pkt.size ≤ pkt.data.length) :
    pkt.padded.observe = pkt.observe := by
  have hlen : (pkt.data.take pkt.size).length = pkt.size := by
    rw [List.length_take, Nat.min_eq_left hdata]
  have htake : (pkt.data.take pkt.size ++ List.replicate (pktdatasize - pkt.size) 0).take pkt.size =
      pkt.data.take pkt.size := List.take_left' hlen
  simp [Packet.padded, Packet.observe, cstring_padded, htake]

/-- The fields of a packet within their widths read as the padded packet. -/
theorem Packet.Fits.packet_fields {host : Host} {pkt : Packet} (hfits : pkt.Fits host)
    (hdata : min pkt.size 366 ≤ pkt.data.length) :
    (pkt.fields hfits.node hdata).packet host = pkt.padded := by
  have hsize : min pkt.size 366 = pkt.size := Nat.min_eq_left hfits.size
  have hsmall : pkt.size < 256 ^ 2 := lt_of_le_of_lt hfits.size (by decide)
  have hproto : pkt.proto % 256 ^ 2 = pkt.proto := Nat.mod_eq_of_lt hfits.proto
  have hinst : pkt.inst % 256 ^ 4 = pkt.inst := Nat.mod_eq_of_lt hfits.inst
  have htype : pkt.type % 256 ^ 2 = pkt.type := Nat.mod_eq_of_lt hfits.type
  have hwire : pkt.seqno < 256 ^ 8 :=
    lt_of_lt_of_le hfits.seqno (Nat.pow_le_pow_right (by decide) host.long_le)
  have hpad : 128 - (cstring pkt.node).length + 1 = pktnodelen + 1 - (cstring pkt.node).length :=
    (Nat.sub_add_comm hfits.node).symm
  simp only [Fields.packet, Packet.fields, Packet.padded, valueBE_encodeBE, hsize, hproto, hinst, htype,
    Nat.mod_eq_of_lt hwire, Nat.mod_eq_of_lt hfits.seqno, Nat.mod_eq_of_lt hsmall, List.append_assoc,
    ← List.replicate_succ', hpad]
  rfl

/-- A packet that is read from the wire is within its widths, and its node is terminated. -/
theorem Fields.packet_fits (f : Fields) (host : Host) : (f.packet host).Fits host where
  proto := by simpa [Fields.packet] using valueBE_lt f.proto
  node := by
    have hlen : (cstring f.node).length ≤ f.node.length := (List.takeWhile_prefix _).length_le
    rw [Fields.packet, cstring_terminated]
    exact hlen.trans_eq f.node_length
  inst := by simpa [Fields.packet] using valueBE_lt f.inst
  type := by simpa [Fields.packet] using valueBE_lt f.type
  seqno := Nat.mod_lt _ (by positivity)
  size := Nat.min_le_right _ _
  data := (Nat.min_le_right _ _).trans_eq f.data_length.symm

/-- A packet that fits is decoded from its encoding with its arrays padded, and what is decoded from any
buffer of the right magic fits and is seen unchanged after another encoding, whatever the hosts are. -/
theorem packets_round_trip (a b : Host) :
    (∀ (pkt : Packet) (buf : List UInt8), pkt.Fits b → packetsize ≤ buf.length →
      ∃ wire, encodepacket a pkt buf = some wire ∧ decodepacket b wire = some (.ok pkt.padded)) ∧
    (∀ buf : List UInt8, packetsize ≤ buf.length → load buf pktmagicoff 4 = some pktmagic →
      ∃ pkt, decodepacket a buf = some (.ok pkt) ∧
        pkt.node.length = pktnodelen + 1 ∧ 0 ∈ pkt.node ∧ pkt.size ≤ pktdatasize ∧
        (a.long ≤ b.long → ∀ buf' : List UInt8, packetsize ≤ buf'.length →
          ∃ wire pkt', encodepacket a pkt buf' = some wire ∧ decodepacket b wire = some (.ok pkt') ∧
            pkt'.observe = pkt.observe)) := by
  have hforth (pkt : Packet) (buf : List UInt8) (hfits : pkt.Fits b) (hbuf : packetsize ≤ buf.length) :
      ∃ wire, encodepacket a pkt buf = some wire ∧ decodepacket b wire = some (.ok pkt.padded) := by
    obtain ⟨f, rest, rfl⟩ := exists_fields hbuf
    have hdata : min pkt.size 366 ≤ pkt.data.length := (Nat.min_le_left _ _).trans hfits.data
    exact ⟨_, encodepacket_buffer a pkt f rest hfits.node hdata,
      hfits.packet_fields hdata ▸ decodepacket_buffer b (pkt.fields hfits.node hdata) rest rfl⟩
  constructor
  · exact hforth
  · intro buf hbuf hmagic
    obtain ⟨f, rest, rfl⟩ := exists_fields hbuf
    have hload : load (f.buffer rest) pktmagicoff 4 = some f.magic :=
      f.load_field rest (k := 0) rfl f.magic_length
    have hf : f.magic = pktmagic := Option.some.inj (hload.symm.trans hmagic)
    have hfits := f.packet_fits a
    refine ⟨f.packet a, decodepacket_buffer a f rest hf, by simp [Fields.packet, pktnodelen],
      by simp [Fields.packet], hfits.size, ?_⟩
    intro hlong buf' hbuf'
    have hseqno : (f.packet a).seqno < 256 ^ b.long :=
      lt_of_lt_of_le hfits.seqno (Nat.pow_le_pow_right (by decide) hlong)
    obtain ⟨wire, hencode, hdecode⟩ := hforth (f.packet a) buf' { hfits with seqno := hseqno } hbuf'
    exact ⟨wire, _, hencode, hdecode, Packet.observe_padded hfits.data⟩

/-- A packet with a node of four bytes travels from a little-endian host to a big-endian one. -/
theorem packets_round_trip_sent :
    ∃ wire, encodepacket ⟨.little, 8, le_rfl⟩ (setpacket [97, 117, 103, 100] 101 202 303 [1, 2, 3])
        (List.replicate packetsize 0) = some wire ∧
      decodepacket ⟨.big, 4, by decide⟩ wire =
        some (.ok (setpacket [97, 117, 103, 100] 101 202 303 [1, 2, 3]).padded) :=
  (packets_round_trip ⟨.little, 8, le_rfl⟩ ⟨.big, 4, by decide⟩).1 _ _
    { proto := by decide
      node := by decide
      inst := by decide
      type := by decide
      seqno := by decide
      size := by decide
      data := by decide } (by rw [List.length_replicate])

end RoundTrip

end Aug.Net
