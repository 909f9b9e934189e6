import HybridPqc.Lib.Endian
import HybridPqc.Prim
import Mathlib.Data.List.TakeDrop

/-!
# Network utilities

`c_dispatch/src/network_utils.c` and its header: Base64, and the frames of the
binary protocol. Headers are in network order; the lengths in `ClientHelloMeta`
and `ServerHelloMeta` are not converted, and are read back by a host of the same
byte order only (`ClientHelloMeta.ofBytes_bytes`, `ServerHelloMeta.ofBytes_bytes`).
-/

namespace HybridPqc

/-! ## Base64 -/

/-- `(int)` of a `size_t`. -/
def sizeToInt (n : ℕ) : ℤ := (n : ℤ).bmod (2 ^ 32)

/-- What `BIO_new_mem_buf` is given of a text: a negative length stands for that of the string. -/
def memBuf (text : CString) : CString :=
  if sizeToInt text.length < 0 then text else text.take (sizeToInt text.length).toNat

/-- `BIO_read` of a text to the buffer `out`, if it is there: neither a null pointer nor a
    negative length is read to. -/
def bioRead (text : CString) (out : Bool) (dlen : ℤ) : Sys (Option (List UInt8)) := do
  if out = false ∨ dlen < 0 then
    return some []
  let data ← call (.bioRead text dlen.toNat)
  return data.map Subtype.val

/-- `b64_decode` to the buffer `out`: the bytes it decodes, or nothing if it returns `-1`. -/
def b64DecodeTo (out : Bool) (b64 : Option CString) (maxLen : ℕ) :
    Sys (Option (List UInt8)) := do
  match b64 with
  | none | some [] => return some []
  | some text =>
    let b64Bio ← call (.bioNewBase64 text)
    let memBio ← call (.bioNewMemBuf (memBuf text))
    if !b64Bio || !memBio then
      return none
    let decoded ← bioRead (memBuf text) out (sizeToInt maxLen)
    call .bioFreeAll
    return decoded

/-- `b64_decode` to a buffer that is there. -/
abbrev b64Decode : Option CString → ℕ → Sys (Option (List UInt8)) := b64DecodeTo true

theorem sizeToInt_of_lt {n : ℕ} (h : n < 2 ^ 31) : sizeToInt n = n := by
  unfold sizeToInt
  exact Int.bmod_eq_of_le_mul_two (by push_cast; omega) (by push_cast; omega)

/-- Of long texts only the beginning is read, unless their length is taken for a negative one. -/
theorem memBuf_eq (text : CString) :
    memBuf text =
      if 2 ^ 31 ≤ text.length % 2 ^ 32 then text else text.take (text.length % 2 ^ 32) := by
  have hint : sizeToInt text.length = _ := Int.bmod_def text.length (2 ^ 32)
  push_cast at hint
  unfold memBuf
  by_cases hsign : 2 ^ 31 ≤ text.length % 2 ^ 32
  · rw [if_neg (by omega)] at hint
    rw [if_pos hsign, if_pos (by omega)]
  · rw [if_pos (by omega)] at hint
    have hlen : (sizeToInt text.length).toNat = text.length % 2 ^ 32 := by omega
    rw [if_neg hsign, if_neg (by omega), hlen]

theorem memBuf_eq_self_iff {text : CString} :
    memBuf text = text ↔ text.length < 2 ^ 32 ∨ 2 ^ 31 ≤ text.length % 2 ^ 32 := by
  rw [memBuf_eq]
  split
  case isTrue hsign => exact iff_of_true rfl (.inr hsign)
  case isFalse hsign =>
    rw [List.take_eq_self_iff]
    omega

theorem memBuf_of_lt {text : CString} (h : text.length < 2 ^ 32) : memBuf text = text :=
  memBuf_eq_self_iff.2 (.inl h)

section Decode

variable {env : PrimEnv} {text : CString} {out : Bool} {maxLen : ℕ}

theorem eval_bioRead {dlen : ℤ} :
    (bioRead text true dlen).eval env =
      if dlen < 0 then some [] else (env (.bioRead text dlen.toNat)).map Subtype.val := by
  rw [bioRead, Prog.eval_ite]
  by_cases hneg : dlen < 0 <;> simp [hneg]

theorem eval_bioRead_of_lt (h : maxLen < 2 ^ 31) :
    (bioRead text true (sizeToInt maxLen)).eval env =
      (env (.bioRead text maxLen)).map Subtype.val := by
  rw [eval_bioRead, sizeToInt_of_lt h, if_neg (by omega), Int.toNat_natCast]

theorem eval_b64DecodeTo_cons {c : UInt8} :
    (b64DecodeTo out (some (c :: text)) maxLen).eval env =
      if env (.bioNewBase64 (c :: text)) = true ∧
          env (.bioNewMemBuf (memBuf (c :: text))) = true then
        (bioRead (memBuf (c :: text)) out (sizeToInt maxLen)).eval env
      else none := by
  simp only [b64DecodeTo, Prog.op_eq, Prog.call_bind, Prog.ret_bind, Prog.pure_eq, Prog.eval_call,
    Prog.eval_ite, Prog.eval_bind, Prog.eval_ret]
  by_cases hb64 : env (.bioNewBase64 (c :: text)) = true <;>
    by_cases hmem : env (.bioNewMemBuf (memBuf (c :: text))) = true <;>
    simp [hb64, hmem]

end Decode

/-! ## Binary frames -/

/-- `WIRE_MAGIC`, i.e., `TLSP`. -/
def wireMagic : ℕ := 0x544C5350

abbrev wireMsgClientHello : ℕ := 0x01
abbrev wireMsgServerHello : ℕ := 0x02
abbrev wireMsgPqcCiphertext : ℕ := 0x03
abbrev wireMsgServerFinished : ℕ := 0x04

/-- `WireHeader`, with its fields as its host sees them. -/
structure WireHeader where
  magic : ℕ
  msgType : ℕ
  comboId : ℕ
  payloadLen : ℕ
  deriving DecidableEq

/-- `ClientHelloMeta`. -/
structure ClientHelloMeta where
  kdfType : ℕ
  dispatchMode : ℕ
  cPubLen : ℕ
  deriving DecidableEq

/-- `ServerHelloMeta`. -/
structure ServerHelloMeta where
  dispatchRoute : ℕ
  reserved : ℕ
  srvPubLen : ℕ
  pqcPkLen : ℕ
  deriving DecidableEq

section Layout

variable (e : Endian)

namespace WireHeader

/-- `sizeof(WireHeader)`. -/
abbrev size : ℕ := 12

/-- A header in memory, its fields converted by `htonl` and `htons`. -/
def bytes (h : WireHeader) : List UInt8 :=
  e.store 4 (e.hton 4 h.magic) ++ e.store 2 (e.hton 2 h.msgType) ++
    e.store 2 (e.hton 2 h.comboId) ++ e.store 4 (e.hton 4 h.payloadLen)

/-- The header in memory, its fields converted by `ntohl` and `ntohs`. -/
def ofBytes (bs : List UInt8) : WireHeader where
  magic := e.hton 4 (e.load (bs.take 4))
  msgType := e.hton 2 (e.load ((bs.drop 4).take 2))
  comboId := e.hton 2 (e.load ((bs.drop 6).take 2))
  payloadLen := e.hton 4 (e.load ((bs.drop 8).take 4))

@[simp] theorem length_bytes (h : WireHeader) : (h.bytes e).length = size := by
  simp [bytes]

/-- The header is in network order. -/
theorem bytes_eq (h : WireHeader) : h.bytes e =
    network 4 h.magic ++ network 2 h.msgType ++ network 2 h.comboId ++ network 4 h.payloadLen := by
  simp [bytes]

/-- Any host reads back what fits in the fields of a header. -/
@[simp] theorem ofBytes_bytes (e' : Endian) (h : WireHeader) : ofBytes e' (h.bytes e) =
    ⟨h.magic % 2 ^ 32, h.msgType % 2 ^ 16, h.comboId % 2 ^ 16, h.payloadLen % 2 ^ 32⟩ := by
  have field {n v : ℕ} : e'.hton n (e'.load (network n v)) = v % 256 ^ n := by
    rw [e'.hton_load (length_network n v), ofNetwork_network]
  rw [bytes_eq, ofBytes]
  simp [List.drop_append, List.drop_eq_nil_of_le, List.take_of_length_le, field]

theorem ofBytes_append (e' : Endian) {bs : List UInt8} (h : bs.length = size) (bs' : List UInt8) :
    ofBytes e' (bs ++ bs') = ofBytes e' bs := by
  simp [ofBytes, List.take_append, List.drop_append, List.take_of_length_le, h, size]

/-- The header of a message. -/
theorem ofBytes_bytes_append (e' : Endian) (h : WireHeader) (bs : List UInt8) :
    ofBytes e' (h.bytes e ++ bs) =
      ⟨h.magic % 2 ^ 32, h.msgType % 2 ^ 16, h.comboId % 2 ^ 16, h.payloadLen % 2 ^ 32⟩ := by
  rw [ofBytes_append e' (h.length_bytes e), ofBytes_bytes]

end WireHeader

namespace ClientHelloMeta

/-- `sizeof(ClientHelloMeta)`. -/
abbrev size : ℕ := 4

def bytes (m : ClientHelloMeta) : List UInt8 :=
  e.store 1 m.kdfType ++ e.store 1 m.dispatchMode ++ e.store 2 m.cPubLen

def ofBytes (bs : List UInt8) : ClientHelloMeta where
  kdfType := e.load (bs.take 1)
  dispatchMode := e.load ((bs.drop 1).take 1)
  cPubLen := e.load ((bs.drop 2).take 2)

@[simp] theorem length_bytes (m : ClientHelloMeta) : (m.bytes e).length = size := by
  simp [bytes]

@[simp] theorem ofBytes_bytes (m : ClientHelloMeta) : ofBytes e (m.bytes e) =
    ⟨m.kdfType % 2 ^ 8, m.dispatchMode % 2 ^ 8, m.cPubLen % 2 ^ 16⟩ := by
  simp [bytes, ofBytes, List.drop_append, List.drop_eq_nil_of_le,
    List.take_of_length_le, e.load_store]

end ClientHelloMeta

namespace ServerHelloMeta

/-- `sizeof(ServerHelloMeta)`. -/
abbrev size : ℕ := 8

def bytes (m : ServerHelloMeta) : List UInt8 :=
  e.store 1 m.dispatchRoute ++ e.store 1 m.reserved ++ e.store 2 m.srvPubLen ++
    e.store 4 m.pqcPkLen

def ofBytes (bs : List UInt8) : ServerHelloMeta where
  dispatchRoute := e.load (bs.take 1)
  reserved := e.load ((bs.drop 1).take 1)
  srvPubLen := e.load ((bs.drop 2).take 2)
  pqcPkLen := e.load ((bs.drop 4).take 4)

@[simp] theorem length_bytes (m : ServerHelloMeta) : (m.bytes e).length = size := by
  simp [bytes]

@[simp] theorem ofBytes_bytes (m : ServerHelloMeta) : ofBytes e (m.bytes e) =
    ⟨m.dispatchRoute % 2 ^ 8, m.reserved % 2 ^ 8, m.srvPubLen % 2 ^ 16, m.pqcPkLen % 2 ^ 32⟩ := by
  simp [bytes, ofBytes, List.drop_append, List.drop_eq_nil_of_le,
    List.take_of_length_le, e.load_store]

end ServerHelloMeta

end Layout

end HybridPqc
