import HybridPqc.Crypto
import HybridPqc.Network

/-!
# What handshakes are made of

Parts common to the clients and the servers of `c` and `c_dispatch`: the
classical secret, from the public key of the peer, and the session key, from
both secrets.

None of them looks at the code that `crypto_derive_ecdh_secret` returns: there is
a classical secret if its length is not zero.
-/

namespace HybridPqc

/-- `MAX_PUB_KEY_BYTES`. -/
abbrev maxPubKeyBytes : ℕ := 300

/-- `MAX_SHARED_SEC`. -/
abbrev maxSharedSec : ℕ := 64

/-- `STATIC_SALT`. -/
def staticSalt : CString := cstr "IEICE-Kyoto-Conference-2026"

/-- A program of an end of a connection. -/
abbrev Net (α : Type) := Conn UInt8 Prim Prim.Res α

/-- An end of a connection alone. -/
abbrev NetEnv := ConnEnv UInt8 Prim.Res

/-- Answers where nothing fails. -/
def NetEnv.sample : NetEnv := .reliable PrimEnv.sample

/-- A buffer for a secret, and a length. -/
structure Secret where
  buf : Bytes maxSharedSec
  len : ℕ

namespace Secret

/-- No secret: the buffer is cleared. -/
def none : Secret := ⟨.zero _, 0⟩

/-- The secret: as many bytes of the buffer as the length says. -/
def bytes (secret : Secret) : List UInt8 := secret.buf.1.take secret.len

@[simp] theorem bytes_none : Secret.none.bytes = [] := rfl

/-- A secret copied to the buffer. -/
def copy (ss : List UInt8) : Secret := ⟨(Bytes.zero _).memcpy ss, ss.length⟩

@[simp] theorem bytes_copy {ss : List UInt8} (h : ss.length ≤ maxSharedSec) :
    (copy ss).bytes = ss :=
  Bytes.take_memcpy _ h

end Secret

/-- The call of `crypto_derive_ecdh_secret` on a cleared buffer, with its length. There
    is no context for a null key. -/
def deriveEcdhSecret (priv : Option EvpPkey) (peerPub : EvpPkey) : Sys (Ecdh maxSharedSec) :=
  match priv with
  | none => return ⟨-1, .zero _, maxSharedSec⟩
  | some priv => cryptoDeriveEcdhSecret priv peerPub (.zero _) maxSharedSec

/-- The classical secret, from the public key of the peer, if any. -/
def classicalSecret (curveId : Int) (priv : Option EvpPkey) (pub : List UInt8) : Sys Secret := do
  if pub.length > 0 then
    match ← cryptoLoadPub curveId pub with
    | none => return .none
    | some peerPub =>
      let z ← deriveEcdhSecret priv peerPub
      call (.evpPkeyFree peerPub)
      return ⟨z.secret, z.secretLen⟩
  else
    return .none

section ClassicalSecret

variable {env : PrimEnv} {curveId : Int} {privKey peerPub : EvpPkey} {pub : List UInt8}

/-- The public key of the peer is there, and can be loaded. -/
def PeerKey (env : PrimEnv) (curveId : Int) (pub : List UInt8) (peerPub : EvpPkey) : Prop :=
  pub ≠ [] ∧ (cryptoLoadPub curveId pub).eval env = some peerPub

/-- The secret is what `crypto_derive_ecdh_secret` leaves, whatever it returns. -/
theorem eval_classicalSecret (h : PeerKey env curveId pub peerPub) :
    (classicalSecret curveId (some privKey) pub).eval env =
      ⟨((cryptoDeriveEcdhSecret privKey peerPub (.zero maxSharedSec) maxSharedSec).eval env).secret,
        ((cryptoDeriveEcdhSecret privKey peerPub (.zero maxSharedSec) maxSharedSec).eval
          env).secretLen⟩ := by
  have hpos : pub.length > 0 := List.length_pos_iff.2 h.1
  simp [classicalSecret, deriveEcdhSecret, hpos, h.2]

theorem eval_classicalSecret_not {priv : Option EvpPkey}
    (h : ∀ peerPub, ¬PeerKey env curveId pub peerPub) :
    (classicalSecret curveId priv pub).eval env = .none := by
  rw [classicalSecret]
  split
  · rename_i hpos
    cases hload : (cryptoLoadPub curveId pub).eval env with
    | none => simp [hload]
    | some peerPub => exact absurd ⟨List.length_pos_iff.1 hpos, hload⟩ (h peerPub)
  · rfl

/-- There is a classical secret, to a client that looks at its length. -/
theorem len_classicalSecret :
    ((classicalSecret curveId (some privKey) pub).eval env).len ≠ 0 ↔
      ∃ peerPub, PeerKey env curveId pub peerPub ∧
        ¬LeavesNothing env privKey peerPub (.zero maxSharedSec) maxSharedSec := by
  have hlen : maxSharedSec ≠ 0 := by decide
  constructor
  · intro h
    by_contra hnot
    refine h ?_
    by_cases hkey : ∃ peerPub, PeerKey env curveId pub peerPub
    · obtain ⟨peerPub, hkey⟩ := hkey
      rw [eval_classicalSecret hkey]
      exact (eval_cryptoDeriveEcdhSecret_secretLen hlen).2
        (not_not.1 fun hleaves => hnot ⟨peerPub, hkey, hleaves⟩)
    · rw [eval_classicalSecret_not fun peerPub hpeer => hkey ⟨peerPub, hpeer⟩]
      rfl
  · rintro ⟨peerPub, hkey, hleaves⟩ hzero
    rw [eval_classicalSecret hkey] at hzero
    exact hleaves ((eval_cryptoDeriveEcdhSecret_secretLen hlen).1 hzero)

end ClassicalSecret

/-- The input keying material: the classical secret, then that of the KEM. -/
def ikmOf (cSecret qSecret : Secret) : List UInt8 := cSecret.bytes ++ qSecret.bytes

/-- The session key, if the derivation succeeds: its code is not looked at. -/
def deriveSessionKey (kdfType : CString) (ikm : List UInt8) (salt : Option (List UInt8))
    (info : CString) : Sys (Option (Bytes 32)) := do
  if kdfType = cstr "blake3" then
    let key ← cryptoBlake3Kdf ikm info
    return some key
  else
    cryptoHkdfSha256 ikm salt info

/-- `if (pkey) EVP_PKEY_free(pkey);`. -/
def freePkey : Option EvpPkey → Sys Unit
  | none => return ()
  | some pkey => call (.evpPkeyFree pkey)

/-! ## Clients -/

/-- What a handshake ends with: a null pointer is followed, `-1` is returned, or the
    time is. The session key is not kept. -/
inductive ClientEnd
  | crashed
  | failed
  | done (ms : ℚ) (sessionKey : Option (Bytes 32))

/-- The value returned, if any. -/
def ClientEnd.ms : ClientEnd → Option ℚ
  | crashed => none
  | failed => some (-1)
  | done ms _ => some ms

/-- What is kept of the `ClientHello`. -/
structure ClientStart where
  tStart : ℚ
  priv : Option EvpPkey

/-- The outcome of the computation of the secrets. -/
inductive ClientSecrets
  | crashed
  | failed
  | ok (cSecret qSecret : Secret)

/-- The classical key pair, for profiles that have one. -/
def clientKeygen (combo : AlgoCombo) : Sys (Option (Option EvpPkey × List UInt8)) := do
  if combo.HasClassical then
    match ← cryptoGenerateKeypair .our combo.classicalCurve with
    | none => return none
    | some priv =>
      let pub ← cryptoExportPub combo.classicalCurve priv
      return some (some priv, pub.getD [])
  else
    return some (none, [])

section Keygen

variable (env : PrimEnv) (combo : AlgoCombo)

/-- The classical key, if the profile has one. -/
def Generate : Option EvpPkey → Prop
  | none => ¬combo.HasClassical
  | some priv => combo.HasClassical ∧
      (cryptoGenerateKeypair .our combo.classicalCurve).eval env = some priv

/-- The public key exported. -/
def exported : Option EvpPkey → List UInt8
  | none => []
  | some priv => ((cryptoExportPub combo.classicalCurve priv).eval env).getD []

variable {env combo}

theorem isSome_of_generate {priv : Option EvpPkey} (h : Generate env combo priv)
    (hclassical : combo.HasClassical) : priv.isSome := by
  cases priv with
  | none => exact absurd hclassical h
  | some _ => rfl

theorem generate_unique {priv priv' : Option EvpPkey} (h : Generate env combo priv)
    (h' : Generate env combo priv') : priv = priv' := by
  cases priv <;>
    cases priv'
  · rfl
  · exact absurd h'.1 h
  · exact absurd h.1 h'
  · exact h.2.symm.trans h'.2

theorem eval_clientKeygen {priv : Option EvpPkey} {pub : List UInt8} :
    (clientKeygen combo).eval env = some (priv, pub) ↔
      Generate env combo priv ∧ pub = exported env combo priv := by
  rw [clientKeygen, Prog.eval_ite]
  split
  · rename_i hclassical
    simp only [Prog.eval_bind]
    cases hgen : (cryptoGenerateKeypair .our combo.classicalCurve).eval env with
    | none => cases priv <;> simp [Generate, hgen, hclassical]
    | some k =>
      cases priv with
      | none => simp [Generate, hclassical]
      | some priv =>
        simp only [Generate, hgen, hclassical, exported, true_and, Prog.pure_eq, Prog.eval_bind,
          Prog.eval_ret, Option.some.injEq, Prod.mk.injEq]
        constructor <;>
          rintro ⟨rfl, rfl⟩ <;>
          exact ⟨rfl, rfl⟩
  · rename_i hclassical
    cases priv <;> simp [Generate, hclassical, exported, eq_comm]

end Keygen

/-! ### Guards -/

section Guards

variable {env : PrimEnv} {Called : EvpPkey → EvpPkey → Prop} {Enc GivesUp : Prop}

/-- A client that calls `crypto_derive_ecdh_secret`, passes over what it returns, and
    gives up if the length is zero (or its KEM operation fails): it gives up whenever
    it has no ECDH secret, exactly if every call that would let it through succeeds or
    leaves a length of zero. -/
theorem ecdh_guard_iff
    (hunique : ∀ {k p k' p'}, Called k p → Called k' p' → k = k' ∧ p = p')
    (hgoesOn : ∀ {k p}, Called k p → Enc →
      ¬LeavesNothing env k p (.zero maxSharedSec) maxSharedSec → ¬GivesUp)
    (hgivesUp : (∀ k p, Called k p → Enc →
      LeavesNothing env k p (.zero maxSharedSec) maxSharedSec) → GivesUp) :
    ((¬∃ k p, Called k p ∧
      ((cryptoDeriveEcdhSecret k p (.zero maxSharedSec) maxSharedSec).eval env).rc = 0) →
        GivesUp) ↔
      ∀ k p, Called k p → Enc → DeriveSteps env k p (.zero maxSharedSec) maxSharedSec ∨
        LeavesNothing env k p (.zero maxSharedSec) maxSharedSec := by
  constructor
  · intro h k p hcalled henc
    by_contra! hnot
    obtain ⟨hsteps, hleaves⟩ := hnot
    refine hgoesOn hcalled henc hleaves (h ?_)
    rintro ⟨k', p', hcalled', hrc⟩
    obtain ⟨rfl, rfl⟩ := hunique hcalled' hcalled
    exact hsteps (eval_cryptoDeriveEcdhSecret_rc.1 hrc)
  · intro h hecdh
    refine hgivesUp fun k p hcalled henc => ?_
    rcases h k p hcalled henc with hsteps | hleaves
    · exact absurd ⟨k, p, hcalled, eval_cryptoDeriveEcdhSecret_rc.2 hsteps⟩ hecdh
    · exact hleaves

variable {Waits : Option EvpPkey → Prop} {Received Good : Prop} {o : ClientEnd} {tStart tStop : ℚ}

/-- A client that returns the time once it has waited for the `Finished`, whatever comes:
    if it returns one it has received the message, exactly if there is a good one
    wherever it gets to waiting. -/
theorem finished_guard_iff (hwaits : ∀ {priv}, Waits priv →
      (∃ key, o = .done (tStop - tStart) key) ∧ (Received ↔ Good))
    (hnot : (∀ priv, ¬Waits priv) → ∀ ms key, o ≠ .done ms key) :
    (∀ ms, o.ms = some ms → 0 ≤ ms → Received) ↔
      ∀ priv, Waits priv → tStart ≤ tStop → Good := by
  constructor
  · intro h priv hpriv hclock
    obtain ⟨⟨key, rfl⟩, hgood⟩ := hwaits hpriv
    exact hgood.1 (h _ rfl ((Rat.le_iff_sub_nonneg ..).1 hclock))
  · intro h ms hms hpos
    by_cases hpriv : ∃ priv, Waits priv
    · obtain ⟨priv, hpriv⟩ := hpriv
      obtain ⟨⟨key, rfl⟩, hgood⟩ := hwaits hpriv
      obtain rfl : tStop - tStart = ms := Option.some.inj hms
      exact hgood.2 (h priv hpriv ((Rat.le_iff_sub_nonneg ..).2 hpos))
    · cases o with
      | crashed => cases hms
      | failed =>
        obtain rfl : (-1 : ℚ) = ms := Option.some.inj hms
        exact absurd hpos (by decide)
      | done ms' key => exact absurd rfl (hnot (fun priv hw => hpriv ⟨priv, hw⟩) ms' key)

end Guards

end HybridPqc
