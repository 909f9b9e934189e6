import HybridPqc.Prim

/-!
# Classical key exchange and key derivation

`crypto_engine.c`, which `c` and `c_dispatch` have two copies of.

`crypto_derive_ecdh_secret` takes the address of a length that its callers set
to the size of their buffer beforehand; each of its five steps may fail, and
leave another value there (`Ecdh.secretLen`).
-/

namespace HybridPqc

/-! ## Key pairs -/

/-- `crypto_generate_keypair`. -/
def cryptoGenerateKeypair (owner : KeyOwner) (curveId : Int) : Sys (Option EvpPkey) := do
  if !(← call (.evpPkeyCtxNew (.keygen owner))) then
    return none
  if !(← call (.evpPkeyKeygenInit owner)) then
    call (.evpPkeyCtxFree (.keygen owner))
    return none
  if curveId ≠ curveX25519 then
    let nid := if curveId = curveP256 then .x962Prime256v1 else .secp384r1
    if !(← call (.evpPkeyCtxSetEcParamgenCurveNid owner nid)) then
      call (.evpPkeyCtxFree (.keygen owner))
      return none
  let pkey ← call (.evpPkeyGenerate owner)
  call (.evpPkeyCtxFree (.keygen owner))
  return pkey

/-- `crypto_export_x25519_pub_raw` or `crypto_export_ec_pub_der`, as all callers
    choose by the curve. -/
def cryptoExportPub (curveId : Int) (pkey : EvpPkey) : Sys (Option (List UInt8)) :=
  if curveId = curveX25519 then call (.evpPkeyGetRawPublicKey pkey) else call (.i2dPubkey pkey)

/-- `crypto_load_x25519_pub_raw` or `crypto_load_ec_pub_der`. -/
def cryptoLoadPub (curveId : Int) (pub : List UInt8) : Sys (Option EvpPkey) :=
  if curveId = curveX25519 then call (.evpPkeyNewRawPublicKey pub) else call (.d2iPubkey pub)

/-! ## Key agreement -/

/-- What `crypto_derive_ecdh_secret` returns, and leaves in the buffer and the
    length of its caller. -/
structure Ecdh (n : ℕ) where
  rc : Int
  secret : Bytes n
  secretLen : ℕ

/-- The secret: as many bytes of the buffer as the length says. -/
def Ecdh.bytes {n : ℕ} (z : Ecdh n) : List UInt8 := z.secret.1.take z.secretLen

/-- `crypto_derive_ecdh_secret`. -/
def cryptoDeriveEcdhSecret {n : ℕ} (privKey peerPub : EvpPkey) (secret : Bytes n)
    (secretLen : ℕ) : Sys (Ecdh n) := do
  if !(← call (.evpPkeyCtxNew .derive)) then
    return ⟨-1, secret, secretLen⟩
  if !(← call (.evpPkeyDeriveInit privKey)) then
    call (.evpPkeyCtxFree .derive)
    return ⟨-1, secret, secretLen⟩
  if !(← call (.evpPkeyDeriveSetPeer privKey peerPub)) then
    call (.evpPkeyCtxFree .derive)
    return ⟨-1, secret, secretLen⟩
  -- the length, then the secret
  let (ok, secretLen) ← call (.evpPkeyDeriveLength privKey peerPub secretLen)
  if !ok then
    call (.evpPkeyCtxFree .derive)
    return ⟨-1, secret, secretLen⟩
  let r ← call (.evpPkeyDerive privKey peerPub secret secretLen)
  call (.evpPkeyCtxFree .derive)
  return ⟨if r.ok then 0 else -1, r.secret, r.secretLen⟩

/-- Every step of `crypto_derive_ecdh_secret` succeeds. -/
def DeriveSteps (env : PrimEnv) (privKey peerPub : EvpPkey) {n : ℕ} (secret : Bytes n)
    (secretLen : ℕ) : Prop :=
  env (.evpPkeyCtxNew .derive) = true ∧ env (.evpPkeyDeriveInit privKey) = true ∧
    env (.evpPkeyDeriveSetPeer privKey peerPub) = true ∧
    (env (.evpPkeyDeriveLength privKey peerPub secretLen)).1 = true ∧
    (env (.evpPkeyDerive privKey peerPub secret
      (env (.evpPkeyDeriveLength privKey peerPub secretLen)).2)).ok = true

/-- It returns `0` if all of its steps succeed. -/
theorem eval_cryptoDeriveEcdhSecret_rc {env : PrimEnv} {privKey peerPub : EvpPkey} {n : ℕ}
    {secret : Bytes n} {secretLen : ℕ} :
    ((cryptoDeriveEcdhSecret privKey peerPub secret secretLen).eval env).rc = 0 ↔
      DeriveSteps env privKey peerPub secret secretLen := by
  simp only [cryptoDeriveEcdhSecret, Prog.op_eq, Prog.call_bind, Prog.ret_bind, Prog.pure_eq,
    Prog.eval_call, Prog.eval_ite, Prog.eval_ret, DeriveSteps, Bool.not_eq_true']
  split_ifs <;> simp_all

/-- The length is zero when it returns: only the last two steps can leave another one
    than that of the caller. -/
def LeavesNothing (env : PrimEnv) (privKey peerPub : EvpPkey) {n : ℕ} (secret : Bytes n)
    (secretLen : ℕ) : Prop :=
  env (.evpPkeyCtxNew .derive) = true ∧ env (.evpPkeyDeriveInit privKey) = true ∧
    env (.evpPkeyDeriveSetPeer privKey peerPub) = true ∧
    if (env (.evpPkeyDeriveLength privKey peerPub secretLen)).1 then
      (env (.evpPkeyDerive privKey peerPub secret
        (env (.evpPkeyDeriveLength privKey peerPub secretLen)).2)).secretLen = 0
    else (env (.evpPkeyDeriveLength privKey peerPub secretLen)).2 = 0

theorem eval_cryptoDeriveEcdhSecret_secretLen {env : PrimEnv} {privKey peerPub : EvpPkey} {n : ℕ}
    {secret : Bytes n} {secretLen : ℕ} (hlen : secretLen ≠ 0) :
    ((cryptoDeriveEcdhSecret privKey peerPub secret secretLen).eval env).secretLen = 0 ↔
      LeavesNothing env privKey peerPub secret secretLen := by
  simp only [cryptoDeriveEcdhSecret, Prog.op_eq, Prog.call_bind, Prog.ret_bind, Prog.pure_eq,
    Prog.eval_call, Prog.eval_ite, Prog.eval_ret, LeavesNothing, Bool.not_eq_true']
  split_ifs <;> simp_all

/-! ## Key derivation -/

/-- `crypto_hkdf_sha256`: the key derived, or nothing if it returns `-1`. Neither
    an empty salt nor an empty label is passed on. -/
def cryptoHkdfSha256 (ikm : List UInt8) (salt : Option (List UInt8)) (info : List UInt8) :
    Sys (Option (Bytes 32)) := do
  if !(← call .evpKdfFetch) then
    return none
  let ok ← call .evpKdfCtxNew
  call .evpKdfFree
  if !ok then
    return none
  let salt := salt.filter (· ≠ [])
  let info := if info = [] then none else some info
  let out ← call (.evpKdfDerive ikm salt info)
  call .evpKdfCtxFree
  return out

/-- `crypto_blake3_kdf`: the label, then the keying material. -/
def cryptoBlake3Kdf (ikm info : List UInt8) : Sys (Bytes 32) :=
  call (.blake3 (info ++ ikm))

end HybridPqc
