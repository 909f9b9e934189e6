import HybridPqc.Dispatch.Messages

/-!
# The messages of hosts of either byte order

The fields of a `WireHeader` are converted to network order and back, those of
`ClientHelloMeta` and `ServerHelloMeta` are copied as they are. So the messages with
a header only do not depend on the byte order of the hosts, while the others do
unless their lengths read the same in both orders (`orderIndependent_iff`).
-/

namespace HybridPqc

/-- An integer of `n` bytes that reads the same in both byte orders. -/
def Palindromic (n v : ℕ) : Prop := (bytesOf n v).reverse = bytesOf n v

instance (n v : ℕ) : Decidable (Palindromic n v) := inferInstanceAs (Decidable (_ = _))

/-- A byte is stored the same by both hosts. -/
theorem store_one (e : Endian) (v : ℕ) : e.store 1 v = bytesOf 1 v := by
  cases e <;> rfl

/-- So is such an integer. -/
theorem store_eq_iff {n v : ℕ} : Endian.little.store n v = Endian.big.store n v ↔
    Palindromic n v := eq_comm

/-- A message that is the same from hosts of either byte order, and is read the same, as
    `fields`, by hosts of either order. -/
structure OrderIndependent {F : Type} (encode : Endian → List UInt8)
    (decode : Endian → List UInt8 → F) (fields : F) : Prop where
  encode_eq : ∀ e e', encode e = encode e'
  decode_encode : ∀ e e', decode e' (encode e) = fields

/-- A message that hosts of the same order agree on does not depend on it if both encode
    it the same. -/
theorem orderIndependent_iff {F : Type} {encode : Endian → List UInt8}
    {decode : Endian → List UInt8 → F} {fields : F}
    (h : ∀ e, decode e (encode e) = fields) :
    OrderIndependent encode decode fields ↔ encode .little = encode .big := by
  refine ⟨fun hind => hind.encode_eq .little .big, fun heq => ?_⟩
  have hencode : ∀ e e', encode e = encode e' := by
    intro e e'
    cases e <;> cases e' <;> simp [heq]
  exact ⟨hencode, fun e e' => by rw [hencode e e', h e']⟩

namespace Dispatch

variable (e : Endian) (bs : List UInt8)

/-! ## Reading a message -/

/-- A `ClientHello` as the server reads it: the header, the lengths, and the bytes after
    them. -/
def readClientHello : WireHeader × ClientHelloMeta × List UInt8 :=
  (WireHeader.ofBytes e (bs.take WireHeader.size), clientHelloMeta e (bs.drop WireHeader.size),
    (bs.drop WireHeader.size).drop ClientHelloMeta.size)

/-- A `ServerHello` as the client reads it. -/
def readServerHello : WireHeader × ServerHelloMeta × List UInt8 :=
  (serverHelloHeader e bs, serverHelloMeta e bs, afterServerHelloMeta bs)

/-- A message that has a header only, as its receiver reads it. -/
def readHeader : WireHeader × List UInt8 :=
  (WireHeader.ofBytes e (bs.take WireHeader.size), bs.drop WireHeader.size)

variable {e bs} {combo : AlgoCombo} {kdfType dispatchMode : CString} {pub pk ct : List UInt8}

theorem readHeader_bytes (h : WireHeader) (payload : List UInt8) :
    readHeader e (h.bytes e ++ payload) =
      (⟨h.magic % 2 ^ 32, h.msgType % 2 ^ 16, h.comboId % 2 ^ 16, h.payloadLen % 2 ^ 32⟩,
        payload) := by
  rw [readHeader, List.take_left' (WireHeader.length_bytes ..),
    List.drop_left' (WireHeader.length_bytes ..), WireHeader.ofBytes_bytes]

theorem readClientHello_clientHello :
    readClientHello e (clientHello e combo kdfType dispatchMode pub) =
      (⟨wireMagic, wireMsgClientHello, combo.id.toNat % 2 ^ 16,
        (ClientHelloMeta.size + pub.length) % 2 ^ 32⟩,
        ⟨kdfCode kdfType, dmodeCode dispatchMode, pub.length % 2 ^ 16⟩, pub) := by
  rw [readClientHello, clientHello_eq, List.take_left' (WireHeader.length_bytes ..),
    List.drop_left' (WireHeader.length_bytes ..), drop_clientHelloBody, clientHelloMeta,
    clientHelloBody, List.take_left' (ClientHelloMeta.length_bytes ..),
    ClientHelloMeta.ofBytes_bytes, Nat.mod_eq_of_lt kdfCode_lt, Nat.mod_eq_of_lt dmodeCode_lt,
    WireHeader.ofBytes_bytes]
  rfl

theorem readServerHello_serverHello :
    readServerHello e (serverHello e combo pub pk) =
      (⟨wireMagic, wireMsgServerHello, combo.id.toNat % 2 ^ 16,
        (ServerHelloMeta.size + pub.length + pk.length) % 2 ^ 32⟩,
        ⟨0, 0, pub.length % 2 ^ 16, pk.length % 2 ^ 32⟩, pub ++ pk) := by
  rw [readServerHello, serverHelloHeader_serverHello, afterServerHelloMeta_serverHello,
    serverHelloMeta, drop_serverHello, serverHelloBody,
    List.take_left' (ServerHelloMeta.length_bytes ..), ServerHelloMeta.ofBytes_bytes]
  rfl

/-! ## Writing a message -/

theorem clientHello_little_eq_big_iff :
    clientHello .little combo kdfType dispatchMode pub =
        clientHello .big combo kdfType dispatchMode pub ↔ Palindromic 2 pub.length := by
  rw [clientHello_eq, clientHello_eq, WireHeader.bytes_eq, WireHeader.bytes_eq,
    List.append_cancel_left_eq, clientHelloBody, clientHelloBody, List.append_cancel_right_eq,
    ClientHelloMeta.bytes, ClientHelloMeta.bytes]
  simp only [store_one, List.append_cancel_left_eq, store_eq_iff]

theorem serverHello_little_eq_big_iff :
    serverHello .little combo pub pk = serverHello .big combo pub pk ↔
      Palindromic 2 pub.length ∧ Palindromic 4 pk.length := by
  rw [serverHello_eq, serverHello_eq, WireHeader.bytes_eq, WireHeader.bytes_eq,
    List.append_cancel_left_eq, serverHelloBody, serverHelloBody, List.append_cancel_right_eq,
    ServerHelloMeta.bytes, ServerHelloMeta.bytes]
  simp only [store_one, List.append_assoc, List.append_cancel_left_eq]
  constructor
  · intro h
    obtain ⟨hpub, hpk⟩ := List.append_inj h (by simp)
    exact ⟨store_eq_iff.1 hpub, store_eq_iff.1 hpk⟩
  · rintro ⟨hpub, hpk⟩
    rw [store_eq_iff.2 hpub, store_eq_iff.2 hpk]

theorem bytes_little_eq_big (h : WireHeader) : h.bytes .little = h.bytes .big := by
  rw [WireHeader.bytes_eq, WireHeader.bytes_eq]

/-! ## Both hosts -/

/-- **The lengths of the keys are sent as the host stores them.** A ciphertext and a
    `Finished` do not depend on the byte orders of the hosts; a `ClientHello` and a
    `ServerHello` do not exactly if the lengths of their keys read the same in both. -/
theorem messages_order_independent_iff (combo : AlgoCombo) (kdfType dispatchMode : CString)
    (pub pk ct : List UInt8) :
    (OrderIndependent (fun e => clientHello e combo kdfType dispatchMode pub) readClientHello
        (⟨wireMagic, wireMsgClientHello, combo.id.toNat % 2 ^ 16,
          (ClientHelloMeta.size + pub.length) % 2 ^ 32⟩,
          ⟨kdfCode kdfType, dmodeCode dispatchMode, pub.length % 2 ^ 16⟩, pub) ↔
      Palindromic 2 pub.length) ∧
    (OrderIndependent (fun e => serverHello e combo pub pk) readServerHello
        (⟨wireMagic, wireMsgServerHello, combo.id.toNat % 2 ^ 16,
          (ServerHelloMeta.size + pub.length + pk.length) % 2 ^ 32⟩,
          ⟨0, 0, pub.length % 2 ^ 16, pk.length % 2 ^ 32⟩, pub ++ pk) ↔
      Palindromic 2 pub.length ∧ Palindromic 4 pk.length) ∧
    OrderIndependent (fun e => pqcCiphertext e combo ct) readHeader
      (⟨wireMagic, wireMsgPqcCiphertext, combo.id.toNat % 2 ^ 16, ct.length % 2 ^ 32⟩, ct) ∧
    OrderIndependent (fun e => serverFinished e combo) readHeader
      (⟨wireMagic, wireMsgServerFinished, combo.id.toNat % 2 ^ 16, 1⟩, [0]) := by
  refine ⟨?_, ?_, ?_, ?_⟩
  · rw [orderIndependent_iff fun _ => readClientHello_clientHello, clientHello_little_eq_big_iff]
  · rw [orderIndependent_iff fun _ => readServerHello_serverHello, serverHello_little_eq_big_iff]
  · exact (orderIndependent_iff fun e => readHeader_bytes _ ct).2
      (congrArg (· ++ ct) (bytes_little_eq_big _))
  · exact (orderIndependent_iff fun e => readHeader_bytes _ [0]).2
      (congrArg (· ++ [0]) (bytes_little_eq_big _))

/-- A key of X25519: its length is `20 00` from one host, and `00 20` from the other. -/
theorem client_hello_depends_on_byte_order :
    ¬OrderIndependent (fun e => clientHello e x25519Only [] [] (List.replicate 32 0)) readClientHello
      (⟨wireMagic, wireMsgClientHello, x25519Only.id.toNat % 2 ^ 16, (4 + 32) % 2 ^ 32⟩,
        ⟨kdfCode [], dmodeCode [], 32 % 2 ^ 16⟩, List.replicate 32 0) := by
  intro h
  have heq := clientHello_little_eq_big_iff.1 (h.encode_eq .little .big)
  exact absurd heq (by decide)

end Dispatch

end HybridPqc
