import HybridPqc.JsonServerRuns
import Mathlib.Tactic.TFAE

/-!
# The servers of the JSON protocol, compared

What the JSON path of the server of `c_dispatch` lets through that the server of `c` does not
(`json_path_strict_iff`), and the strings that each of them still reads once they are
released (`negotiated_iff`).
-/

namespace HybridPqc

/-! ## A client -/

/-- An outcome of every call where every text decoded fills the buffer with zeros, what has
    been released is `freed`, and none fails. -/
def PrimEnv.filled (freed : CString) : PrimEnv
  | .readFreed _ => freed
  | .bioRead _ maxLen => some ⟨List.replicate maxLen 0, (List.length_replicate ..).le⟩
  | p => PrimEnv.sample p

theorem eval_b64Decode_filled {freed : CString} {c : UInt8} (cs : CString) {maxLen : ℕ}
    (h : maxLen < 2 ^ 31) :
    (b64Decode (some (c :: cs)) maxLen).eval (PrimEnv.filled freed) =
      some (List.replicate maxLen 0) := by
  rw [eval_b64DecodeTo_cons, if_pos ⟨rfl, rfl⟩, eval_bioRead_of_lt h]
  rfl

theorem hasRoom_filled (freed : CString) : HasRoom (.reliable (PrimEnv.filled freed)) :=
  ⟨fun _ _ => rfl, rfl⟩

/-- A `ProfileSelect`. -/
def profileSelect (comboId : ℕ) (kdfType saltB64 : Option CString) : Json :=
  .object ((cstr "combo_id", .number comboId) ::
    (Json.strField "kdf_type" kdfType ++ Json.strField "salt" saltB64))

/-- A message with a key and a ciphertext. -/
def clientMessage : Json :=
  .object [(cstr "c_pub", .string (cstr "A")), (cstr "ct", .string (cstr "A"))]

/-! ## Rejections -/

section Strict

variable (env : JsonEnv) (s : List (Option Json))

/-- Where the server of `c` closes before its `ServerFinished`, so does the JSON path of
    that of `c_dispatch`. -/
def AsStrict : Prop :=
  (env.obs s Baseline.handleClient).val = .closed →
    (env.obs s Dispatch.handleClientJson).val = .closed

/-- The suite asked for, if it is one of `c_dispatch`, is one of `c` as well. -/
def KnownToBoth : Prop :=
  ∀ sel combo, s.head?.join = some sel →
    getComboById Dispatch.algorithmCombos (sel.getInt "combo_id" (-1)) = some combo →
      getComboById Baseline.algorithmCombos (sel.getInt "combo_id" (-1)) = some combo

/-- **The JSON path has lost checks.** It is as strict as the server of `c` exactly if,
    wherever a client that has asked for a suite sends its messages and the key pairs are
    generated, the classical exchange works and the ciphertext has the right length. -/
theorem json_path_strict_iff (hroom : HasRoom env) (hknown : KnownToBoth s) :
    AsStrict env s ↔ ∀ sel rest combo, s = some sel :: rest →
      getComboById Baseline.algorithmCombos (sel.getInt "combo_id" (-1)) = some combo →
        GoesThrough env combo rest → PassesChecks env combo rest := by
  rw [AsStrict]
  constructor
  · rintro h sel rest combo rfl hcombo hgoes
    rw [Baseline.val_handleClient hcombo,
      Dispatch.val_handleClientJson (getComboById_dispatch_of_baseline hcombo)] at h
    by_contra hchecks
    obtain ⟨ikm, key, hfinished⟩ := Dispatch.val_serveJson hroom hgoes
    have hclosed := h (Baseline.val_serve_not hroom fun hboth => hchecks hboth.2)
    exact absurd (hfinished.symm.trans hclosed) nofun
  · intro h
    match s with
    | [] => exact fun _ => Dispatch.val_handleClientJson_nil
    | none :: rest => exact fun _ => Dispatch.val_handleClientJson_none
    | some sel :: rest =>
      cases hcombo : getComboById Dispatch.algorithmCombos (sel.getInt "combo_id" (-1)) with
      | none => exact fun _ => Dispatch.val_handleClientJson_unknown hcombo
      | some combo =>
        have hbaseline := hknown sel combo rfl hcombo
        rw [Baseline.val_handleClient hbaseline, Dispatch.val_handleClientJson hcombo]
        intro hclosed
        refine Dispatch.val_serveJson_not fun hgoes => ?_
        obtain ⟨ikm, key, hfinished⟩ :=
          Baseline.val_serve hroom hgoes (h sel rest combo rfl hbaseline hgoes)
        exact absurd (hfinished.symm.trans hclosed) nofun

end Strict

theorem passesChecks_filled {freed : CString} {rest : List (Option Json)} :
    PassesChecks (.reliable (PrimEnv.filled freed)) x25519Mlkem768
      (some clientMessage :: some clientMessage :: rest) where
  classical := fun _ _ _ _ _ => ⟨_, _, rfl, rfl, rfl, rfl, rfl, rfl, rfl⟩
  kem := by
    rintro - k ctMsg hworker ⟨⟩
    exact ⟨_, eval_b64Decode_filled _ k.kem.lengthCiphertext_lt, List.length_replicate⟩

/-- A client whose ciphertext has the right length. -/
theorem json_path_strict_filled :
    AsStrict (.reliable (PrimEnv.filled []))
      [some (profileSelect 1 none none), some clientMessage, some clientMessage] := by
  refine (json_path_strict_iff _ _ (hasRoom_filled []) ?_).2 ?_
  · rintro sel combo ⟨⟩ hcombo
    exact hcombo
  · rintro sel rest combo heq hcombo -
    obtain ⟨⟨rfl⟩, rfl⟩ := List.cons.inj heq
    obtain rfl : x25519Mlkem768 = combo := Option.some.inj hcombo
    exact passesChecks_filled

/-- A message without a ciphertext, for a pure quantum profile: the JSON path ends with a
    key derived from nothing. -/
theorem json_path_not_strict :
    ∃ env s, HasRoom env ∧ KnownToBoth s ∧ ¬AsStrict env s ∧
      ∃ key, (env.obs s Dispatch.handleClientJson).val = .finished (.hkdfSha256 none) [] key := by
  refine ⟨.reliable (PrimEnv.filled []),
    [some (profileSelect 6 none none), some (.object [])], hasRoom_filled [], ?_, fun h => ?_, _, rfl⟩
  · rintro sel combo ⟨⟩ hcombo
    exact hcombo
  · have hclosed := h rfl
    exact absurd hclosed nofun

/-! ## What is negotiated -/

/-- The KDF and the salt that a message asks for. -/
def sentKdf (env : PrimEnv) (kdfType saltB64 : Option CString) : Kdf :=
  if kdfType = some (cstr "blake3") then .blake3
  else .hkdfSha256 ((decodeSalt ⟨.null, false⟩ saltB64).eval env)

section Negotiated

variable (server : JsonNet JsonServerEnd) (kdfType saltB64 : Option CString)

/-- Whatever a message with these fields has in others, whatever follows and whatever the
    calls answer, the KDF and the salt used are those that the message asks for. -/
def NegotiatedAsSent : Prop :=
  ∀ (env : JsonEnv) (sel : Json) (rest : List (Option Json)), sel.getStr "kdf_type" = kdfType →
    sel.getStr "salt" = saltB64 →
      UsesKdf (sentKdf env.sys kdfType saltB64) (env.obs (some sel :: rest) server).val

/-- The answers are the same, but for what there is in memory that has been released. -/
def SameButFreed (env env' : PrimEnv) : Prop :=
  ∀ p, (∀ use, p ≠ .readFreed use) → env p = env' p

/-- Messages with these fields lead to the same KDF and salt, whatever there is in memory
    that has been released. -/
def NegotiatedAlone : Prop :=
  ∀ (env env' : JsonEnv) (sel sel' : Json) (rest rest' : List (Option Json)),
    SameButFreed env.sys env'.sys → sel.getStr "kdf_type" = kdfType →
      sel.getStr "salt" = saltB64 → sel'.getStr "kdf_type" = kdfType →
        sel'.getStr "salt" = saltB64 → ∀ kdf ikm key kdf' ikm' key',
          (env.obs (some sel :: rest) server).val = .finished kdf ikm key →
            (env'.obs (some sel' :: rest') server).val = .finished kdf' ikm' key' → kdf = kdf'

end Negotiated

section Negotiated

variable {kdfType saltB64 : Option CString}

theorem sentKdf_congr {env env' : PrimEnv} (h : SameButFreed env env') :
    sentKdf env kdfType saltB64 = sentKdf env' kdfType saltB64 := by
  have hsalt : (decodeSalt ⟨.null, false⟩ saltB64).eval env =
      (decodeSalt ⟨.null, false⟩ saltB64).eval env' := by
    cases saltB64 with
    | none => rfl
    | some text =>
      cases text with
      | nil => rfl
      | cons c cs =>
        simp [decodeSalt, Parsed.load, eval_b64DecodeTo_cons, eval_bioRead,
          h (.bioNewBase64 _) nofun, h (.bioNewMemBuf _) nofun, h (.bioRead _ _) nofun]
  rw [sentKdf, hsalt, sentKdf]

theorem negotiatedAlone_of_asSent {server : JsonNet JsonServerEnd}
    (h : NegotiatedAsSent server kdfType saltB64) : NegotiatedAlone server kdfType saltB64 := by
  intro env env' sel sel' rest rest' hsame hkdf hsalt hkdf' hsalt' kdf ikm key kdf' ikm' key'
    hrun hrun'
  rw [h env sel rest hkdf hsalt kdf ikm key hrun,
    h env' sel' rest' hkdf' hsalt' kdf' ikm' key' hrun', sentKdf_congr hsame]

/-! ### Released memory -/

variable {freed : CString}

theorem getStr_kdfType : (profileSelect 4 kdfType saltB64).getStr "kdf_type" = kdfType := by
  cases kdfType <;> cases saltB64 <;> rfl

theorem getStr_salt : (profileSelect 4 kdfType saltB64).getStr "salt" = saltB64 := by
  cases kdfType <;> cases saltB64 <;> rfl

theorem clientPub_filled {rest : List (Option Json)} :
    clientPub (.reliable (PrimEnv.filled freed)) (some clientMessage :: rest) =
      some (List.replicate maxPubKeyBytes 0) := by
  have hpub : clientMessage.getStr "c_pub" = some (cstr "A") := rfl
  have hdecode : (b64Decode (some (cstr "A")) maxPubKeyBytes).eval (PrimEnv.filled freed) = _ :=
    eval_b64Decode_filled _ (by decide)
  rw [clientPub, List.head?_cons, Option.join_some, Option.bind_some, hpub]
  exact (congrArg _ hdecode).trans (by simp [Option.filter])

theorem goesThrough_filled_x25519 : GoesThrough (.reliable (PrimEnv.filled freed)) x25519Only
      [some clientMessage] where
  classical := fun _ => ⟨_, _, clientPub_filled, rfl⟩
  kem := nofun

theorem passesChecks_filled_x25519 :
    PassesChecks (.reliable (PrimEnv.filled freed)) x25519Only [some clientMessage] where
  classical := fun _ _ _ _ _ => ⟨_, _, rfl, rfl, rfl, rfl, rfl, rfl, rfl⟩
  kem := nofun

theorem sameButFreed_filled {freed' : CString} :
    SameButFreed (PrimEnv.filled freed) (PrimEnv.filled freed') := by
  intro p hp
  cases p with
  | readFreed use => exact absurd rfl (hp use)
  | _ => rfl

theorem decodeSalt_filled_nil {sel : Json} :
    (decodeSalt (Parsed.delete ⟨sel, false⟩) saltB64).eval (PrimEnv.filled []) = none := by
  cases saltB64 <;> rfl

theorem decodeSalt_filled {sel : Json} {text : CString} {c : UInt8} {cs : CString} :
    (decodeSalt (Parsed.delete ⟨sel, false⟩) (some text)).eval (PrimEnv.filled (c :: cs)) =
      some (List.replicate maxSalt 0) := by
  have hdecode := @eval_b64Decode_filled (c :: cs) c cs maxSalt (by decide)
  simp only [decodeSalt, Parsed.load, Parsed.delete, if_true, Prog.op_eq, Prog.call_bind,
    Prog.ret_bind, Prog.eval_call, PrimEnv.filled, List.length_cons, Nat.succ_pos, gt_iff_lt,
    Prog.eval_bind, hdecode, Prog.pure_eq, Prog.eval_ret]
  simp [Option.filter]

/-! ### The servers -/

namespace Baseline

theorem val_filled : ∃ ikm key, (ConnEnv.obs (.reliable (PrimEnv.filled freed))
    [some (HybridPqc.profileSelect 4 kdfType saltB64), some clientMessage] handleClient).val =
      .finished (kdfUsed (.reliable (PrimEnv.filled freed))
        (Parsed.delete ⟨HybridPqc.profileSelect 4 kdfType saltB64, false⟩) kdfType saltB64) ikm
        key := by
  have hcombo : getComboById Baseline.algorithmCombos
    ((HybridPqc.profileSelect 4 kdfType saltB64).getInt "combo_id" (-1)) = some x25519Only := rfl
  rw [Baseline.val_handleClient hcombo, getStr_kdfType, getStr_salt]
  exact Baseline.val_serve (hasRoom_filled freed) goesThrough_filled_x25519 passesChecks_filled_x25519

theorem kdfUsed_filled_nil {sel : Json} :
    kdfUsed (.reliable (PrimEnv.filled [])) (Parsed.delete ⟨sel, false⟩) kdfType saltB64 =
      .hkdfSha256 none := by
  rw [kdfUsed]
  simp only [ConnEnv.reliable, decodeSalt_filled_nil]
  cases kdfType <;> rfl

theorem kdfUsed_filled_blake3 {sel : Json}
    (h : kdfUsed (.reliable (PrimEnv.filled (cstr "blake3"))) (Parsed.delete ⟨sel, false⟩) kdfType
      saltB64 = .hkdfSha256 none) : kdfType = none ∧ saltB64 = none := by
  cases kdfType with
  | some _ => exact absurd h nofun
  | none =>
    cases saltB64 with
    | none => exact ⟨rfl, rfl⟩
    | some text =>
      have hsalt : (decodeSalt (Parsed.delete ⟨sel, false⟩) (some text)).eval
          (PrimEnv.filled (cstr "blake3")) = _ := decodeSalt_filled
      rw [kdfUsed] at h
      simp only [ConnEnv.reliable, hsalt] at h
      exact absurd h nofun

theorem negotiatedAsSent : NegotiatedAsSent handleClient none none := by
  intro env sel rest hkdf hsalt
  cases hcombo : getComboById algorithmCombos (sel.getInt "combo_id" (-1)) with
  | none =>
    rw [val_handleClient_unknown hcombo]
    exact nofun
  | some combo =>
    rw [val_handleClient hcombo, hkdf, hsalt]
    exact yields_serve rest

theorem nothing_of_negotiatedAlone (h : NegotiatedAlone handleClient kdfType saltB64) :
    kdfType = none ∧ saltB64 = none := by
  obtain ⟨ikm, key, hrun⟩ := @val_filled kdfType saltB64 []
  obtain ⟨ikm', key', hrun'⟩ := @val_filled kdfType saltB64 (cstr "blake3")
  have heq := h _ _ _ _ _ _ sameButFreed_filled getStr_kdfType getStr_salt getStr_kdfType
    getStr_salt _ _ _ _ _ _ hrun hrun'
  rw [kdfUsed_filled_nil] at heq
  exact kdfUsed_filled_blake3 heq.symm

end Baseline

namespace Dispatch

theorem kdfBuf_eq_blake3 :
    kdfBuf kdfType = cstr "blake3" ↔ kdfType = some (cstr "blake3") := by
  cases kdfType with
  | none => simp [kdfBuf]; decide
  | some s =>
    rw [kdfBuf, Option.some.injEq]
    constructor
    · intro h
      have hlen : (s.take 15).length = 6 := by rw [h]; rfl
      rw [List.length_take] at hlen
      rwa [List.take_of_length_le (by omega)] at h
    · rintro rfl
      rfl

theorem val_filled : ∃ ikm key, (ConnEnv.obs (.reliable (PrimEnv.filled freed))
    [some (profileSelect 4 kdfType saltB64), some clientMessage] handleClientJson).val =
      .finished (chooseKdfJson (kdfBuf kdfType)
        ((decodeSalt (Parsed.delete ⟨profileSelect 4 kdfType saltB64, false⟩) saltB64).eval
          (PrimEnv.filled freed))) ikm key := by
  have hcombo : getComboById algorithmCombos
      ((profileSelect 4 kdfType saltB64).getInt "combo_id" (-1)) = some x25519Only := rfl
  rw [val_handleClientJson hcombo, getStr_kdfType, getStr_salt]
  exact val_serveJson (hasRoom_filled freed) goesThrough_filled_x25519

theorem negotiatedAsSent (h : saltB64 = none ∨ kdfType = some (cstr "blake3")) :
    NegotiatedAsSent handleClientJson kdfType saltB64 := by
  intro env sel rest hkdf hsalt
  cases hcombo : getComboById algorithmCombos (sel.getInt "combo_id" (-1)) with
  | none =>
    rw [val_handleClientJson_unknown hcombo]
    exact nofun
  | some combo =>
    have hsent : sentKdf env.sys kdfType saltB64 = chooseKdfJson (kdfBuf kdfType)
        ((decodeSalt (Parsed.delete ⟨sel, false⟩) saltB64).eval env.sys) := by
      rw [sentKdf, chooseKdfJson]
      by_cases hblake : kdfType = some (cstr "blake3")
      · rw [if_pos hblake, if_pos (kdfBuf_eq_blake3.2 hblake)]
      · rw [if_neg hblake, if_neg (mt kdfBuf_eq_blake3.1 hblake), h.resolve_right hblake]
        rfl
    rw [val_handleClientJson hcombo, hkdf, hsalt, hsent]
    exact yields_serveJson rest

theorem noSalt_of_negotiatedAlone (h : NegotiatedAlone handleClientJson kdfType saltB64) :
    saltB64 = none ∨ kdfType = some (cstr "blake3") := by
  by_contra! hnot
  obtain ⟨text, rfl⟩ := Option.ne_none_iff_exists'.1 hnot.1
  obtain ⟨ikm, key, hrun⟩ := @val_filled kdfType (some text) []
  obtain ⟨ikm', key', hrun'⟩ := @val_filled kdfType (some text) (cstr "blake3")
  have heq := h _ _ _ _ _ _ sameButFreed_filled getStr_kdfType getStr_salt getStr_kdfType
    getStr_salt _ _ _ _ _ _ hrun hrun'
  have hsalt : (decodeSalt (Parsed.delete ⟨profileSelect 4 kdfType (some text), false⟩)
      (some text)).eval (PrimEnv.filled (cstr "blake3")) = _ := decodeSalt_filled
  rw [decodeSalt_filled_nil, hsalt, chooseKdfJson, chooseKdfJson,
    if_neg (mt kdfBuf_eq_blake3.1 hnot.2), if_neg (mt kdfBuf_eq_blake3.1 hnot.2)] at heq
  exact absurd heq nofun

end Dispatch

end Negotiated

/-- **The servers read strings that they have released.** The KDF and the salt are those
    asked for, and they are a function of the message, exactly if it has neither string, for
    the server of `c`; for the JSON path, exactly if it has no salt or the KDF takes none. -/
theorem negotiated_iff (kdfType saltB64 : Option CString) :
    [NegotiatedAsSent Baseline.handleClient kdfType saltB64,
      NegotiatedAlone Baseline.handleClient kdfType saltB64,
      kdfType = none ∧ saltB64 = none].TFAE ∧
    [NegotiatedAsSent Dispatch.handleClientJson kdfType saltB64,
      NegotiatedAlone Dispatch.handleClientJson kdfType saltB64,
      saltB64 = none ∨ kdfType = some (cstr "blake3")].TFAE := by
  refine ⟨?_, ?_⟩
  · tfae_have 1 → 2 := negotiatedAlone_of_asSent
    tfae_have 2 → 3 := Baseline.nothing_of_negotiatedAlone
    tfae_have 3 → 1 := by
      rintro ⟨rfl, rfl⟩
      exact Baseline.negotiatedAsSent
    tfae_finish
  · tfae_have 1 → 2 := negotiatedAlone_of_asSent
    tfae_have 2 → 3 := Dispatch.noSalt_of_negotiatedAlone
    tfae_have 3 → 1 := Dispatch.negotiatedAsSent
    tfae_finish

/-- The released name of the KDF, and the released salt, are taken for other ones. -/
theorem negotiated_changes :
    ¬NegotiatedAlone Baseline.handleClient (cstr "sha256") none ∧
      ¬NegotiatedAlone Dispatch.handleClientJson (cstr "sha256") (cstr "c2FsdA==") :=
  ⟨fun h => absurd (Baseline.nothing_of_negotiatedAlone h).1 nofun,
    fun h => absurd (Dispatch.noSalt_of_negotiatedAlone h) (by decide)⟩

end HybridPqc
