import HybridPqc.Crypto

/-!
# The operations of the engine

The classical and the KEM operations of `c_dispatch/src/engine.c`, and
`execute_sequential`. A role decides which KEM operation is made: the server
encapsulates; the client decapsulates what it has encapsulated itself.

`perform_kem_operation`, on the worker, and `perform_kem_local`, inline, make the
same calls (`kemSecret`), and differ in where they leave the secret.
-/

namespace HybridPqc

/-- The role in a handshake. -/
inductive HandshakeRole
  | client
  | server
  deriving DecidableEq

/-- What the execution of a suite fills in. -/
structure SharedCryptoResult where
  ecdhSecret : Bytes 48
  ecdhSecretLen : ℕ
  kemSharedSecret : Bytes 64
  kemSharedSecretLen : ℕ
  ecdhOk : Bool
  kemOk : Bool

/-- The result cleared by `memset`. -/
def SharedCryptoResult.zero : SharedCryptoResult :=
  ⟨.zero 48, 0, .zero 64, 0, false, false⟩

/-! ## The KEM operation -/

/-- The secret the KEM operation of a role ends with, between the allocation of
    the buffers and their release: nothing if a call fails. -/
def kemAgree (kem : OqsKem) (role : HandshakeRole) : Sys (Option (Bytes kem.lengthSharedSecret)) := do
  match ← call (.oqsKemKeypair kem) with
  | none => return none
  | some (pk, sk) =>
    match role with
    | .server =>
      let e ← call (.oqsKemEncaps kem pk.1)
      return if e.ok then some e.ss else none
    | .client =>
      if !(← call (.malloc .sharedSecretTmp kem.lengthSharedSecret)) then
        return none
      let e ← call (.oqsKemEncaps kem pk.1)
      call (.free .sharedSecretTmp)
      if !e.ok then
        return none
      call (.oqsKemDecaps kem e.ct.1 sk.1)

/-- The first 64 bytes of the secret the KEM operation ends with. -/
def kemSecret (name : Option CString) (role : HandshakeRole) : Sys (Option (List UInt8)) := do
  match ← call (.oqsKemNew name) with
  | none => return none
  | some kem =>
    let pk ← call (.malloc .publicKey kem.lengthPublicKey)
    let sk ← call (.malloc .secretKey kem.lengthSecretKey)
    let ct ← call (.malloc .ciphertext kem.lengthCiphertext)
    let ss ← call (.malloc .sharedSecret kem.lengthSharedSecret)
    let secret ← (if pk && sk && ct && ss then kemAgree kem role else pure none : Sys (Option _))
    freeIf pk .publicKey
    freeIf sk .secretKey
    freeIf ct .ciphertext
    freeIf ss .sharedSecret
    call (.oqsKemFree kem)
    return secret.map fun ss => ss.1.take 64

/-- The secret copied is never longer than the buffer it is copied to. -/
theorem length_kemSecret {env : PrimEnv} {name : Option CString} {role : HandshakeRole}
    {ss : List UInt8} (h : (kemSecret name role).eval env = some ss) : ss.length ≤ 64 := by
  rw [kemSecret, Prog.eval_bind] at h
  split at h
  · cases h
  · simp only [Prog.eval_bind, Prog.pure_eq, Prog.eval_ret, Option.map_eq_some_iff] at h
    obtain ⟨ss', -, rfl⟩ := h
    exact List.length_take_le ..

/-- The part of the shared pool the KEM operation works on: the work descriptor
    and the result. -/
structure WorkerPool where
  kemAlgName : Option CString
  role : HandshakeRole
  kemSharedSecret : Bytes 64
  kemSharedSecretLen : ℕ
  kemOk : Bool

namespace WorkerPool

/-- The pool cleared by `memset`. -/
def zero : WorkerPool := ⟨none, .client, .zero 64, 0, false⟩

/-- No result. Bytes of an earlier secret stay in the buffer. -/
def clearKem (pool : WorkerPool) : WorkerPool :=
  { pool with kemOk := false, kemSharedSecretLen := 0 }

/-- The result of the KEM operation, if it has ended with a secret. -/
def storeKem (pool : WorkerPool) : Option (List UInt8) → WorkerPool
  | none => pool
  | some ss => { pool with
      kemSharedSecret := pool.kemSharedSecret.memcpy ss, kemSharedSecretLen := ss.length
      kemOk := true }

end WorkerPool

/-- `perform_kem_operation`. -/
def performKemOperation (pool : WorkerPool) : Sys WorkerPool := do
  let pool := pool.clearKem
  return pool.storeKem (← kemSecret pool.kemAlgName pool.role)

/-- `perform_kem_local`: the code it returns, and the buffer and the length of
    its caller. -/
def performKemLocal (kemName : Option CString) (role : HandshakeRole) (ssOut : Bytes 64)
    (ssLen : ℕ) : Sys (Int × Bytes 64 × ℕ) := do
  match ← kemSecret kemName role with
  | none => return (-1, ssOut, ssLen)
  | some ss => return (0, ssOut.memcpy ss, ss.length)

/-! ## The classical operation -/

/-- `perform_ecdh`. -/
def performEcdh (curveId : Int) (secret : Bytes 48) (secretLen : ℕ) : Sys (Ecdh 48) := do
  let ourKey ← cryptoGenerateKeypair .our curveId
  let peerKey ← cryptoGenerateKeypair .peer curveId
  match ourKey, peerKey with
  | some ourKey, some peerKey =>
    let z ← cryptoDeriveEcdhSecret ourKey peerKey secret secretLen
    call (.evpPkeyFree ourKey)
    call (.evpPkeyFree peerKey)
    return z
  | some key, none | none, some key =>
    call (.evpPkeyFree key)
    return ⟨-1, secret, secretLen⟩
  | none, none => return ⟨-1, secret, secretLen⟩

/-! ## Sequential execution -/

/-- The classical operation, into the result. -/
def SharedCryptoResult.ecdh (result : SharedCryptoResult) (combo : AlgoCombo) :
    Sys SharedCryptoResult := do
  let z ← performEcdh combo.classicalCurve result.ecdhSecret result.ecdhSecretLen
  return { result with ecdhSecret := z.secret, ecdhSecretLen := z.secretLen, ecdhOk := z.rc == 0 }

/-- The KEM operation, inline, into the result. -/
def SharedCryptoResult.kem (result : SharedCryptoResult) (combo : AlgoCombo)
    (role : HandshakeRole) : Sys SharedCryptoResult := do
  let (rc, ss, len) ← performKemLocal combo.pqcName role result.kemSharedSecret
    result.kemSharedSecretLen
  return { result with kemSharedSecret := ss, kemSharedSecretLen := len, kemOk := rc == 0 }

@[simp] theorem SharedCryptoResult.eval_ecdh (env : PrimEnv) (result : SharedCryptoResult)
    (combo : AlgoCombo) : (result.ecdh combo).eval env =
      let z := (performEcdh combo.classicalCurve result.ecdhSecret result.ecdhSecretLen).eval env
      { result with
        ecdhSecret := z.secret, ecdhSecretLen := z.secretLen, ecdhOk := z.rc == 0 } := by
  simp [ecdh]

/-- The KEM part of a result, given the secret the operation ends with, if any. -/
def SharedCryptoResult.setKem (result : SharedCryptoResult) :
    Option (List UInt8) → SharedCryptoResult
  | none => { result with kemOk := false }
  | some ss => { result with
      kemSharedSecret := result.kemSharedSecret.memcpy ss, kemSharedSecretLen := ss.length
      kemOk := true }

@[simp] theorem SharedCryptoResult.eval_kem (env : PrimEnv) (result : SharedCryptoResult)
    (combo : AlgoCombo) (role : HandshakeRole) : (result.kem combo role).eval env =
      result.setKem ((kemSecret combo.pqcName role).eval env) := by
  rw [kem, performKemLocal, Prog.eval_bind, Prog.eval_bind]
  cases (kemSecret combo.pqcName role).eval env <;> rfl

/-- The classical part of a result depends on the outcome of the operation. -/
theorem SharedCryptoResult.eval_ecdh_congr {env env' : PrimEnv} {combo : AlgoCombo}
    (h : (performEcdh combo.classicalCurve (.zero 48) 0).eval env =
      (performEcdh combo.classicalCurve (.zero 48) 0).eval env') :
    (zero.ecdh combo).eval env = (zero.ecdh combo).eval env' := by
  rw [eval_ecdh, eval_ecdh]
  simp only [zero, h]

/-- `execute_sequential`: the code it returns, and the result. -/
def executeSequential (combo : AlgoCombo) (role : HandshakeRole) :
    Sys (Int × SharedCryptoResult) := do
  let result := SharedCryptoResult.zero
  if combo.profile = profilePureClassical ∨ combo.pqcAlg = pqcNone then
    let result ← result.ecdh combo
    return (if result.ecdhOk then 0 else -1, result)
  else if combo.profile = profilePureQuantum ∨ combo.classicalCurve = curveNone then
    let result ← result.kem combo role
    return (if result.kemOk then 0 else -1, result)
  else
    let result ← result.ecdh combo
    if !result.ecdhOk then
      return (-1, result)
    let result ← result.kem combo role
    return (if result.ecdhOk && result.kemOk then 0 else -1, result)

/-- What `execute_sequential` returns depends on the outcomes of its two operations. -/
theorem eval_executeSequential_congr {env env' : PrimEnv} {combo : AlgoCombo}
    {role : HandshakeRole}
    (hecdh : (performEcdh combo.classicalCurve (.zero 48) 0).eval env =
      (performEcdh combo.classicalCurve (.zero 48) 0).eval env')
    (hkem : (kemSecret combo.pqcName role).eval env = (kemSecret combo.pqcName role).eval env') :
    (executeSequential combo role).eval env = (executeSequential combo role).eval env' := by
  simp [executeSequential, SharedCryptoResult.zero, hecdh, hkem]

/-- A pure classical suite: the classical operation only. -/
theorem eval_executeSequential_classical {env : PrimEnv} {combo : AlgoCombo} {role : HandshakeRole}
    (h : combo.profile = profilePureClassical ∨ combo.pqcAlg = pqcNone) :
    (executeSequential combo role).eval env =
      let result := (SharedCryptoResult.zero.ecdh combo).eval env
      (if result.ecdhOk then 0 else -1, result) := by
  rw [executeSequential, if_pos h]
  simp

/-- A pure quantum suite: the KEM operation only. -/
theorem eval_executeSequential_quantum {env : PrimEnv} {combo : AlgoCombo} {role : HandshakeRole}
    (hclassical : ¬(combo.profile = profilePureClassical ∨ combo.pqcAlg = pqcNone))
    (h : combo.profile = profilePureQuantum ∨ combo.classicalCurve = curveNone) :
    (executeSequential combo role).eval env =
      let result := SharedCryptoResult.zero.setKem ((kemSecret combo.pqcName role).eval env)
      (if result.kemOk then 0 else -1, result) := by
  rw [executeSequential, if_neg hclassical, if_pos h]
  simp

/-- Any other suite: the classical operation, then the KEM operation. -/
theorem eval_executeSequential_hybrid {env : PrimEnv} {combo : AlgoCombo} {role : HandshakeRole}
    (hclassical : ¬(combo.profile = profilePureClassical ∨ combo.pqcAlg = pqcNone))
    (hquantum : ¬(combo.profile = profilePureQuantum ∨ combo.classicalCurve = curveNone)) :
    (executeSequential combo role).eval env =
      let result := (SharedCryptoResult.zero.ecdh combo).eval env
      if result.ecdhOk then
        let result := result.setKem ((kemSecret combo.pqcName role).eval env)
        (if result.ecdhOk && result.kemOk then 0 else -1, result)
      else (-1, result) := by
  rw [executeSequential, if_neg hclassical, if_neg hquantum]
  simp only [Prog.eval_bind, Prog.pure_eq, Prog.eval_ite, Prog.eval_ret,
    SharedCryptoResult.eval_kem]
  cases ((SharedCryptoResult.zero.ecdh combo).eval env).ecdhOk <;> simp

end HybridPqc
