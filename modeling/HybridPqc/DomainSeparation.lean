import HybridPqc.Lib.PrefixFree
import HybridPqc.Handshake

/-!
# Domain separation of the BLAKE3 key derivation

`crypto_blake3_kdf` absorbs the label of the suite, then the classical secret and that
of the KEM, with nothing in between. As no label is the beginning of another one
(`prefixFree_info`), the label is known from what is absorbed, and with it the
lengths of the secrets (`blake3_domain_separation`).
-/

namespace HybridPqc

/-- What the hasher absorbs in a run. -/
def absorbed {α : Type} (env : PrimEnv) (p : Sys α) : List (List UInt8) :=
  (p.exec env).trace.filterMap fun
    | ⟨.blake3 bs, _⟩ => some bs
    | _ => none

theorem absorbed_cryptoBlake3Kdf {env : PrimEnv} {ikm info : List UInt8} :
    absorbed env (cryptoBlake3Kdf ikm info) = [info ++ ikm] := rfl

/-- The length of the ECDH secrets of a curve. -/
def ecdhSecretLen (curveId : Int) : ℕ := if curveId = curveP384 then 48 else 32

/-- The secrets have the lengths of those that the algorithms of the suite produce, given
    that of the secrets of each KEM; there is none for a part that the profile has not. -/
structure SuiteSecrets (kemSecretLen : Option CString → ℕ) (combo : AlgoCombo)
    (cSecret qSecret : Secret) : Prop where
  classical : cSecret.bytes.length =
    if combo.HasClassical then ecdhSecretLen combo.classicalCurve else 0
  kem : qSecret.bytes.length = if combo.HasKem then kemSecretLen combo.pqcName else 0

namespace Dispatch

/-- No label of the table is the beginning of another one. -/
theorem prefixFree_info : PrefixFree AlgoCombo.info algorithmCombos := by
  have hdecide : ∀ a ∈ algorithmCombos, ∀ b ∈ algorithmCombos,
      a.info.isPrefixOf b.info = true → a = b := by decide
  intro a ha b hb hprefix
  exact hdecide a ha b hb (List.isPrefixOf_iff_prefix.2 hprefix)

/-- **Domain separation.** Two derivations that absorb the same bytes are of one suite, and
    from the same secrets. -/
theorem blake3_domain_separation (kemSecretLen : Option CString → ℕ) (env env' : PrimEnv)
    (combo combo' : AlgoCombo) (cSecret qSecret cSecret' qSecret' : Secret)
    (hcombo : combo ∈ algorithmCombos) (hcombo' : combo' ∈ algorithmCombos)
    (hsecrets : SuiteSecrets kemSecretLen combo cSecret qSecret)
    (hsecrets' : SuiteSecrets kemSecretLen combo' cSecret' qSecret')
    (h : absorbed env (cryptoBlake3Kdf (ikmOf cSecret qSecret) combo.info) =
      absorbed env' (cryptoBlake3Kdf (ikmOf cSecret' qSecret') combo'.info)) :
    combo = combo' ∧ cSecret.bytes = cSecret'.bytes ∧ qSecret.bytes = qSecret'.bytes := by
  rw [absorbed_cryptoBlake3Kdf, absorbed_cryptoBlake3Kdf, List.cons.injEq] at h
  obtain ⟨rfl, hikm⟩ := prefixFree_info.append_inj hcombo hcombo' h.1
  have hlen : cSecret.bytes.length = cSecret'.bytes.length :=
    hsecrets.classical.trans hsecrets'.classical.symm
  exact ⟨rfl, List.append_inj hikm hlen⟩

/-- Secrets of X25519 and ML-KEM-768. -/
theorem blake3_domain_separation_x25519_mlkem768 :
    x25519Mlkem768 = x25519Mlkem768 ∧
      (Secret.copy (List.replicate 32 1)).bytes = (Secret.copy (List.replicate 32 1)).bytes ∧
      (Secret.copy (List.replicate 32 2)).bytes = (Secret.copy (List.replicate 32 2)).bytes :=
  blake3_domain_separation (fun _ => 32) PrimEnv.sample PrimEnv.sample x25519Mlkem768 x25519Mlkem768
    _ _ _ _ (by decide) (by decide) ⟨by decide, by decide⟩ ⟨by decide, by decide⟩ rfl

end Dispatch

end HybridPqc
