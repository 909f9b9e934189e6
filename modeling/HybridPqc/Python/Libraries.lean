import HybridPqc.Baseline.Client
import HybridPqc.Dispatch.Agreement
import HybridPqc.FixedSize
import HybridPqc.Python.Client

/-!
# What the libraries do on both hosts

Where no call fails. The server is in Python; the client is in C, or in Python. The
functions that the libraries compute are the same in both languages (`CryptoLib`).
-/

namespace HybridPqc

open Dispatch (ServerKem)

/-- The key that a KDF derives. -/
def CryptoLib.derive (lib : CryptoLib) (ikm info : List UInt8) : Kdf → Bytes 32
  | .blake3 => lib.blake3 (info ++ ikm)
  | .hkdfSha256 salt => lib.hkdf ikm salt (some info)

/-! ## In C -/

/-- On a host, texts are encoded and decoded. -/
structure CodesBase64 (env : PrimEnv) : Prop where
  reads : ReadsBase64 env
  creates : ∀ text, CreatesBio env text
  newMem : ∀ src, env (.bioNewMem src) = true
  getMem : ∀ src, env (.bioGetMem src) = Base64.encode src

/-- The client encapsulates `ss` to the public key of the server. -/
structure Encapsulating (name : Option CString) (client : PrimEnv) (k : ServerKem)
    (ct : Bytes k.kem.lengthCiphertext) (ss : Bytes k.kem.lengthSharedSecret) : Prop where
  new : client (.oqsKemNew name) = some k.kem
  encaps : client (.oqsKemEncaps k.kem k.pk.1) = ⟨true, ct, ss⟩

/-- No call of the client fails, whatever its profile needs. -/
structure ClientWorks (lib : CryptoLib) (combo : AlgoCombo) (env : PrimEnv) (cKey sKey : EvpPkey)
    (k : ServerKem) (ct : Bytes k.kem.lengthCiphertext) (ss : Bytes k.kem.lengthSharedSecret)
    (host : CString) : Prop where
  works : HostWorks lib env
  codes : CodesBase64 env
  socket : env .socket = true
  connect : env (.connect host) = true
  pthreadCreate : env .pthreadCreate = true
  classical : combo.HasClassical → ClassicalWorks lib combo.classicalCurve env cKey sKey
  kem : combo.HasKem → Encapsulating combo.pqcName env k ct ss

section

variable {lib : CryptoLib} {env : PrimEnv} {bs : List UInt8} {maxLen : ℕ}

theorem eval_b64Encode (hhost : HostWorks lib env) (hcodes : CodesBase64 env)
    (hlt : bs.length < 2 ^ 31) : (b64Encode bs).eval env = some (Base64.encode bs) := by
  have hwritten : bs.take (sizeToInt bs.length).toNat = bs := by
    rw [sizeToInt_of_lt hlt, Int.toNat_natCast, List.take_length]
  simp [b64Encode, (hcodes.creates bs).1, hcodes.newMem, hcodes.getMem, hhost.malloc, hwritten]

/-- What has been encoded, and fits, is decoded. -/
theorem eval_b64Decode_encode (hcodes : CodesBase64 env) (hlen : bs.length ≤ maxLen)
    (hlt : maxLen < 2 ^ 31) :
    (b64Decode (some (Base64.encode bs)) maxLen).eval env = some bs := by
  have hdecode := Base64.decode_encode bs
  have hfits : FitsMemBuf (Base64.encode bs) := by
    have hgroups := Base64.length_of_decode hdecode
    exact .inl (by omega)
  rw [eval_b64Decode_of_fits hcodes.reads hdecode (hcodes.creates _) hfits hlt,
    List.take_of_length_le hlen]

end

/-! ## In Python -/

namespace Python

/-- On a host, no derivation of a session key fails; texts are encoded and decoded. -/
structure PyHostWorks (lib : CryptoLib) (env : PyEnv) : Prop where
  hkdf : ∀ salt info ikm, env (.hkdfDerive salt info ikm) = some (lib.hkdf ikm salt (some info))
  blake3 : ∀ bs, env (.blake3Digest bs) = lib.blake3 bs
  encodes : ∀ bs, env (.b64encode bs) = Base64.encode bs
  decodes : DecodesBase64 env

/-- On the host with the classical key `key`, no call for the key exchange with `peer` fails:
    the public key of the peer, as exported, is imported. -/
structure PyClassicalWorks (lib : CryptoLib) (name : Option CString) (env : PyEnv)
    (key peer : EvpPkey) : Prop where
  generateRaw : name = some (cstr "X25519") → env .x25519Generate = some key
  generateEc : name ≠ some (cstr "X25519") → ∀ curve, env (.ecGenerate curve) = some key
  exportRaw : name = some (cstr "X25519") → env (.publicBytesRaw key) = some (lib.pub key)
  exportDer : name ≠ some (cstr "X25519") → env (.publicBytesDer key) = some (lib.pub key)
  importRaw : name = some (cstr "X25519") → env (.fromPublicBytes (lib.pub peer)) = some peer
  importDer : name ≠ some (cstr "X25519") → env (.loadDerPublicKey (lib.pub peer)) = some peer
  exchangeRaw : name = some (cstr "X25519") →
    env (.x25519Exchange key peer) = some (lib.ecdh key peer)
  exchangeEc : name ≠ some (cstr "X25519") →
    env (.ecdhExchange key peer) = some (lib.ecdh key peer)

/-- The client encapsulates `ss` to the public key of the server. -/
structure PyEncapsulating (name : Option CString) (client : PyEnv) (k : ServerKem)
    (ct : Bytes k.kem.lengthCiphertext) (ss : Bytes k.kem.lengthSharedSecret) : Prop where
  new : client (.keyEncapsulation name) = some k.kem
  encaps : client (.encapSecret k.kem k.pk.1) = some (ct, ss)

/-- The server decapsulates `ss`, as encapsulated to its public key. -/
structure PyDecapsulating (name : Option CString) (server : PyEnv) (k : ServerKem)
    (ct : Bytes k.kem.lengthCiphertext) (ss : Bytes k.kem.lengthSharedSecret) : Prop where
  new : server (.keyEncapsulation name) = some k.kem
  keypair : server (.generateKeypair k.kem) = some (k.pk, k.sk)
  decaps : server (.decapSecret k.kem k.sk.1 ct.1) = some ss
  lengthSharedSecret : 0 < k.kem.lengthSharedSecret ∧ k.kem.lengthSharedSecret ≤ maxSharedSec

section Hosts

variable (lib : CryptoLib) (combo : PyCombo) (env : PyEnv) (cKey sKey : EvpPkey) (k : ServerKem)
  (ct : Bytes k.kem.lengthCiphertext) (ss : Bytes k.kem.lengthSharedSecret)

/-- No call of the server fails, nor of the client: whatever their profile needs. -/
structure PyServerWorks : Prop where
  works : PyHostWorks lib env
  classical : combo.HasClassical → PyClassicalWorks lib combo.classicalName env sKey cKey
  kem : combo.HasKem → PyDecapsulating combo.pqcName env k ct ss

structure PyClientWorks (host : CString) : Prop where
  works : PyHostWorks lib env
  connect : env (.createConnection host) = true
  classical : combo.HasClassical → PyClassicalWorks lib combo.classicalName env cKey sKey
  kem : combo.HasKem → PyEncapsulating combo.pqcName env k ct ss

end Hosts

section Calls

variable {lib : CryptoLib} {env : PyEnv} {bs : List UInt8}

theorem eval_b64e (h : PyHostWorks lib env) : (b64e bs).eval env = Base64.encode bs := by
  rw [b64e, Prog.eval_ite]
  split
  · exact h.encodes bs
  · rename_i hnil
    rw [not_not.1 hnil]
    rfl

theorem eval_b64d_encode (h : DecodesBase64 env) :
    (b64d (.string (Base64.encode bs))).eval env = some bs := by
  have hdecode := Base64.decode_encode bs
  rw [b64d, Prog.eval_ite]
  split
  · rename_i htruthy
    exact h _ bs hdecode (by simpa [truthy] using htruthy)
  · rename_i htruthy
    have hnil : Base64.encode bs = [] := by simpa [truthy] using htruthy
    rw [hnil] at hdecode
    exact hdecode

/-- The names of the curves. -/
def IsCurveName (name : Option CString) : Prop :=
  name = some (cstr "X25519") ∨ name = some (cstr "P256") ∨ name = some (cstr "P384")

section Classical

variable {name : Option CString} {key peer : EvpPkey} (h : PyClassicalWorks lib name env key peer)
  (hname : IsCurveName name)
include h hname

theorem eval_generateClassicalKexKeypair :
    (generateClassicalKexKeypair name).eval env = some (key, lib.pub key) := by
  by_cases hx : name = some (cstr "X25519")
  · simp [generateClassicalKexKeypair, hx, h.generateRaw hx, h.exportRaw hx]
  · have hec : name = some (cstr "P256") ∨ name = some (cstr "P384") := hname.resolve_left hx
    simp [generateClassicalKexKeypair, hx, hec, h.generateEc hx, h.exportDer hx]

theorem eval_deriveClassicalKexSecret :
    (deriveClassicalKexSecret name key (lib.pub peer)).eval env = some (lib.ecdh key peer) := by
  by_cases hx : name = some (cstr "X25519")
  · simp [deriveClassicalKexSecret, hx, h.importRaw hx, h.exchangeRaw hx]
  · have hec : name = some (cstr "P256") ∨ name = some (cstr "P384") := hname.resolve_left hx
    simp [deriveClassicalKexSecret, hx, hec, h.importDer hx, h.exchangeEc hx]

end Classical

theorem eval_deriveSessionKey_works (h : PyHostWorks lib env) {kdf : Kdf}
    {cSecret qSecret : Option (List UInt8)} {ikm info : List UInt8}
    (hikm : combinedInput cSecret qSecret = some ikm) :
    (deriveSessionKey kdf cSecret qSecret info).eval env = some (lib.derive ikm info kdf) := by
  cases kdf with
  | blake3 =>
    simp [deriveSessionKey, deriveHybridSecretBlake3, hikm, h.blake3, CryptoLib.derive]
  | hkdfSha256 salt =>
    simp [deriveSessionKey, deriveHybridSecretSha256, hikm, h.hkdf, CryptoLib.derive]

end Calls

/-! ## The suites -/

section Suites

variable {combo : AlgoCombo} {kdfType : CString}

theorem hasClassical_ofAlgoCombo (h : combo ∈ Baseline.algorithmCombos) :
    (ofAlgoCombo combo).HasClassical ↔ combo.HasClassical := by
  revert combo
  decide

theorem hasKem_ofAlgoCombo (h : combo ∈ Baseline.algorithmCombos) :
    (ofAlgoCombo combo).HasKem ↔ combo.HasKem := by
  revert combo
  decide

/-- A suite has one of the three profiles. -/
theorem profile_of_mem (h : combo ∈ Baseline.algorithmCombos) :
    combo.profile = profileHybrid ∨ combo.profile = profilePureClassical ∨
      combo.profile = profilePureQuantum := by
  revert combo
  decide

/-- Every suite has a secret. -/
theorem hasClassical_or_hasKem (h : combo ∈ Baseline.algorithmCombos) :
    combo.HasClassical ∨ combo.HasKem := by
  revert combo
  decide

theorem getComboById_ofAlgoCombo (h : combo ∈ Baseline.algorithmCombos) :
    getComboById (.number (ofAlgoCombo combo).id) = some (ofAlgoCombo combo) := by
  have hfind : HybridPqc.getComboById Baseline.algorithmCombos (ofAlgoCombo combo).id =
      some combo := by
    revert combo
    decide
  rw [getComboById_int, hfind, Option.map_some]

theorem isCurveName_ofAlgoCombo (h : combo ∈ Baseline.algorithmCombos)
    (hclassical : combo.HasClassical) : IsCurveName (ofAlgoCombo combo).classicalName := by
  revert combo
  simp only [IsCurveName]
  decide

theorem info_ne_nil (h : combo ∈ Baseline.algorithmCombos) : combo.info ≠ [] := by
  revert combo
  decide

theorem profile_ofAlgoCombo (h : combo ∈ Baseline.algorithmCombos) :
    (ofAlgoCombo combo).profile = cstr "hybrid" ↔ combo.profile = profileHybrid := by
  revert combo
  decide

/-- A suite in Python is that in C with the same id. -/
theorem ofAlgoCombo_of_id {pcombo : PyCombo} (hpcombo : pcombo ∈ algorithmCombos)
    (hcombo : HybridPqc.getComboById Baseline.algorithmCombos pcombo.id = some combo) :
    ofAlgoCombo combo = pcombo := by
  have hall : ∀ p ∈ algorithmCombos,
      (HybridPqc.getComboById Baseline.algorithmCombos p.id).map ofAlgoCombo = some p := by decide
  have heq := hall pcombo hpcombo
  rw [hcombo] at heq
  exact Option.some.inj heq

/-- The salt that a client in C uses. -/
theorem currentSalt_ofAlgoCombo (h : combo ∈ Baseline.algorithmCombos) :
    currentSalt (ofAlgoCombo combo) kdfType =
      if Baseline.UseSalt combo kdfType then some staticSalt else none := by
  simp only [currentSalt, Baseline.UseSalt, profile_ofAlgoCombo h]

/-- A client in C derives with the KDF that one in Python chooses. -/
theorem sessionKey_eq_derive {lib : CryptoLib} {ikm : List UInt8}
    (h : combo ∈ Baseline.algorithmCombos) :
    lib.sessionKey kdfType ikm (if Baseline.UseSalt combo kdfType then some staticSalt else none)
      combo.info = lib.derive ikm combo.info (clientKdf (ofAlgoCombo combo) kdfType) := by
  have hsalt : staticSalt ≠ [] := by decide
  rw [CryptoLib.sessionKey, clientKdf, currentSalt_ofAlgoCombo h, if_neg (info_ne_nil h)]
  by_cases hblake3 : kdfType = cstr "blake3"
  · rw [if_pos hblake3, if_pos hblake3, CryptoLib.derive]
  · rw [if_neg hblake3, if_neg hblake3, CryptoLib.derive]
    by_cases huse : Baseline.UseSalt combo kdfType
    · rw [if_pos huse, Option.filter_some, if_pos (by simpa using hsalt)]
    · rw [if_neg huse, Option.filter_none]

end Suites

end Python

end HybridPqc
