import HybridPqc.Json
import HybridPqc.Lib.Base64

/-!
# The engine in Python

`config/algorithms.py` and `core/crypto_engine.py`, which the server and the client
in Python are made of.

A string is the bytes of its encoding. What is `None` or `bytes` is an
`Option (List UInt8)`. A call that raises an exception answers nothing, or `false`;
a part returns nothing where an exception leaves it.
-/

namespace HybridPqc

namespace Python

/-! ## Calls to the libraries -/

/-- The calls: to `cryptography`, `oqs`, `blake3`, `base64`, `socket` and `time`. A call
    names the objects it is made on, such as the secret key in a `KeyEncapsulation`. -/
inductive PyPrim
  | x25519Generate
  | ecGenerate (curve : Nid)
  | publicBytesRaw (priv : EvpPkey)
  | publicBytesDer (priv : EvpPkey)
  | fromPublicBytes (raw : List UInt8)
  | loadDerPublicKey (der : List UInt8)
  | x25519Exchange (priv peer : EvpPkey)
  | ecdhExchange (priv peer : EvpPkey)
  | hkdfDerive (salt : Option (List UInt8)) (info ikm : List UInt8)
  /-- `blake3`, of all that the hasher has been updated with. -/
  | blake3Digest (absorbed : List UInt8)
  | keyEncapsulation (name : Option CString)
  | generateKeypair (kem : OqsKem)
  | encapSecret (kem : OqsKem) (pk : List UInt8)
  | decapSecret (kem : OqsKem) (sk ct : List UInt8)
  | b64encode (bs : List UInt8)
  | b64decode (s : CString)
  | createConnection (host : CString)
  | perfCounter (clock : Clock)

/-- The answers. -/
@[reducible] def PyPrim.Res : PyPrim → Type
  | x25519Generate | ecGenerate _ | fromPublicBytes _ | loadDerPublicKey _ => Option EvpPkey
  | publicBytesRaw _ | publicBytesDer _ | x25519Exchange .. | ecdhExchange .. | b64decode _ =>
    Option (List UInt8)
  | hkdfDerive .. => Option (Bytes 32)
  | blake3Digest _ => Bytes 32
  | keyEncapsulation _ => Option OqsKem
  | generateKeypair kem => Option (Bytes kem.lengthPublicKey × Bytes kem.lengthSecretKey)
  | encapSecret kem _ => Option (Bytes kem.lengthCiphertext × Bytes kem.lengthSharedSecret)
  | decapSecret kem _ _ => Option (Bytes kem.lengthSharedSecret)
  | b64encode _ => CString
  | createConnection _ => Bool
  | perfCounter _ => ℚ

/-- A program calling the libraries. -/
abbrev PySys (α : Type) := Prog PyPrim PyPrim.Res α

/-- One outcome of every call. -/
abbrev PyEnv := Prog.Env PyPrim PyPrim.Res

/-- A program of an end of a connection exchanging lines. -/
abbrev PyNet (α : Type) := Conn (Option Json) PyPrim PyPrim.Res α

/-- A single call. -/
abbrev call (p : PyPrim) : PySys p.Res := Prog.op p

/-- `base64.b64decode` decodes all of a text. -/
def DecodesBase64 (env : PyEnv) : Prop :=
  ∀ s bs, Base64.decode s = some bs → s ≠ [] → env (.b64decode s) = some bs

/-- An outcome of every call where none fails, and texts are encoded and decoded. Keys and
    secrets are all zeros. -/
def PyEnv.sample : PyEnv
  | .x25519Generate | .ecGenerate _ | .fromPublicBytes _ | .loadDerPublicKey _ => some ⟨0⟩
  | .publicBytesRaw _ | .publicBytesDer _ | .x25519Exchange .. | .ecdhExchange .. =>
    some (List.replicate 32 0)
  | .hkdfDerive .. => some (.zero 32)
  | .blake3Digest _ => .zero 32
  | .keyEncapsulation name => some (.mlkem768 (name.getD []))
  | .generateKeypair _ | .encapSecret .. => some (.zero _, .zero _)
  | .decapSecret .. => some (.zero _)
  | .b64encode bs => Base64.encode bs
  | .b64decode s => Base64.decode s
  | .createConnection _ => true
  | .perfCounter _ => 0

theorem decodesBase64_sample : DecodesBase64 PyEnv.sample := fun _ _ h _ => h

/-! ## `config/algorithms.py` -/

/-- A cipher suite. (The label, which is only printed, is left out.) -/
structure PyCombo where
  id : Int
  profile : CString
  pqcName : Option CString
  classicalName : Option CString
  info : List UInt8
  deriving DecidableEq

/-- `ALGORITHM_COMBOS`. -/
def algorithmCombos : List PyCombo :=
  [⟨1, cstr "hybrid", cstr "ML-KEM-768", cstr "X25519", cstr "Hybrid-X25519-MLKEM768-v1"⟩,
    ⟨2, cstr "hybrid", cstr "ML-KEM-768", cstr "P256", cstr "Hybrid-P256-MLKEM768-v1"⟩,
    ⟨3, cstr "hybrid", cstr "ML-KEM-1024", cstr "P384", cstr "Hybrid-P384-MLKEM1024-v1"⟩,
    ⟨4, cstr "pure_classical", none, cstr "X25519", cstr "Pure-Classical-X25519-v1"⟩,
    ⟨5, cstr "pure_classical", none, cstr "P256", cstr "Pure-Classical-P256-v1"⟩,
    ⟨8, cstr "pure_classical", none, cstr "P384", cstr "Pure-Classical-P384-v1"⟩,
    ⟨6, cstr "pure_quantum", cstr "ML-KEM-768", none, cstr "Pure-Quantum-MLKEM768-v1"⟩,
    ⟨7, cstr "pure_quantum", cstr "ML-KEM-1024", none, cstr "Pure-Quantum-MLKEM1024-v1"⟩]

namespace PyCombo

/-- `combo["profile"] in ("hybrid", "pure_classical")`. -/
abbrev HasClassical (combo : PyCombo) : Prop :=
  combo.profile = cstr "hybrid" ∨ combo.profile = cstr "pure_classical"

/-- `combo["profile"] in ("hybrid", "pure_quantum")`. -/
abbrev HasKem (combo : PyCombo) : Prop :=
  combo.profile = cstr "hybrid" ∨ combo.profile = cstr "pure_quantum"

end PyCombo

/-- `n == v`, of an integer: a boolean is one, too. -/
def eqInt (n : Int) : Json → Bool
  | .bool b => n = if b then 1 else 0
  | .number v => (n : ℚ) = v
  | _ => false

/-- `get_combo_by_id`. -/
def getComboById (comboId : Json) : Option PyCombo :=
  algorithmCombos.find? fun c => eqInt c.id comboId

/-! ## Values -/

/-- `bool(v)`. -/
def truthy : Json → Bool
  | .null => false
  | .bool b => b
  | .number v => v ≠ 0
  | .string s => s ≠ []
  | .array items => !items.isEmpty
  | .object fields => !fields.isEmpty

/-- `obj[key]`: the last field with the given name. There is none in what is no object. -/
def item (obj : Json) (key : String) : Option Json :=
  match obj with
  | .object fields => (fields.reverse.find? fun field => field.1 = cstr key).map Prod.snd
  | _ => none

/-! ## `core/crypto_engine.py` -/

/-- `b64e`. -/
def b64e (b : List UInt8) : PySys CString := if b ≠ [] then call (.b64encode b) else return []

/-- `b64d`, of what may be no string. -/
def b64d (s : Json) : PySys (Option (List UInt8)) :=
  if truthy s then
    match s with
    | .string s => call (.b64decode s)
    | _ => return none
  else
    return some []

/-- `send_json`. -/
def sendJson (obj : Json) : PyNet Bool := Conn.send [some obj]

/-- `recv_json`. -/
def recvJson : PyNet (Option Json) := do
  match ← Conn.recv 1 with
  | some [line] => return line
  | _ => return none

/-- `generate_classical_kex_keypair`. -/
def generateClassicalKexKeypair (curveName : Option CString) :
    PySys (Option (EvpPkey × List UInt8)) := do
  if curveName = some (cstr "X25519") then
    let some priv ← call .x25519Generate | return none
    let some pubBytes ← call (.publicBytesRaw priv) | return none
    return some (priv, pubBytes)
  else if curveName = some (cstr "P256") ∨ curveName = some (cstr "P384") then
    let curve := if curveName = some (cstr "P256") then .x962Prime256v1 else .secp384r1
    let some priv ← call (.ecGenerate curve) | return none
    let some pubBytes ← call (.publicBytesDer priv) | return none
    return some (priv, pubBytes)
  else
    return none

/-- `derive_classical_kex_secret`. -/
def deriveClassicalKexSecret (curveName : Option CString) (privKey : EvpPkey)
    (peerPubBytes : List UInt8) : PySys (Option (List UInt8)) := do
  if curveName = some (cstr "X25519") then
    let some peerPub ← call (.fromPublicBytes peerPubBytes) | return none
    call (.x25519Exchange privKey peerPub)
  else if curveName = some (cstr "P256") ∨ curveName = some (cstr "P384") then
    let some peerPub ← call (.loadDerPublicKey peerPubBytes) | return none
    call (.ecdhExchange privKey peerPub)
  else
    return none

/-- The input keying material: the secrets that are there, and not empty, if any. -/
def combinedInput (classicalSecret pqcSecret : Option (List UInt8)) : Option (List UInt8) :=
  match classicalSecret.filter (· ≠ []), pqcSecret.filter (· ≠ []) with
  | some c, some q => some (c ++ q)
  | some c, none => some c
  | none, some q => some q
  | none, none => none

/-- `derive_hybrid_secret_sha256`. -/
def deriveHybridSecretSha256 (classicalSecret pqcSecret : Option (List UInt8))
    (infoLabel : List UInt8) (salt : Option (List UInt8)) : PySys (Option (Bytes 32)) :=
  match combinedInput classicalSecret pqcSecret with
  | none => return none
  | some ikm => call (.hkdfDerive salt infoLabel ikm)

/-- `derive_hybrid_secret_blake3`. -/
def deriveHybridSecretBlake3 (classicalSecret pqcSecret : Option (List UInt8))
    (infoLabel : List UInt8) : PySys (Option (Bytes 32)) :=
  match combinedInput classicalSecret pqcSecret with
  | none => return none
  | some ikm => do
    let key ← call (.blake3Digest (infoLabel ++ ikm))
    return some key

/-! ## The suites in C -/

/-- The name that a profile has in Python. -/
def profileName (profile : Int) : CString :=
  if profile = profileHybrid then cstr "hybrid"
  else if profile = profilePureClassical then cstr "pure_classical"
  else cstr "pure_quantum"

/-- The name that a curve has in Python. -/
def curveName (curveId : Int) : Option CString :=
  if curveId = curveX25519 then some (cstr "X25519")
  else if curveId = curveP256 then some (cstr "P256")
  else if curveId = curveP384 then some (cstr "P384")
  else none

/-- The suite in Python. -/
def ofAlgoCombo (combo : AlgoCombo) : PyCombo :=
  ⟨combo.id, profileName combo.profile, combo.pqcName, curveName combo.classicalCurve, combo.info⟩

/-- The table of `c` is that of Python. -/
theorem map_ofAlgoCombo : Baseline.algorithmCombos.map ofAlgoCombo = algorithmCombos := by decide

/-- An integer is looked up as in C. -/
theorem getComboById_int (n : Int) : getComboById (.number n) =
    (HybridPqc.getComboById Baseline.algorithmCombos n).map ofAlgoCombo := by
  rw [getComboById, ← map_ofAlgoCombo, List.find?_map, HybridPqc.getComboById]
  refine congrArg (Option.map ofAlgoCombo) (congrArg (List.find? · _) (funext fun combo => ?_))
  simp only [Function.comp_apply, eqInt, ofAlgoCombo, Rat.intCast_inj]
  rfl

end Python

end HybridPqc
