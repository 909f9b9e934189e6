import HybridPqc.Dispatch.Messages
import HybridPqc.Dispatch.ClientSecrets
import HybridPqc.Baseline.ClientSecrets

/-!
# Failed handshakes

What the clients of both protocols make of a failure: of the key derivation
(`hybrid_clients_check_ecdh_iff`), and of the server, after the secrets
(`clients_check_finished_iff`).
-/

namespace HybridPqc

/-! ## A server that sends zeros -/

section Samples

/-- A key of zeros. -/
def zeros (n : ℕ) : List UInt8 := List.replicate n 0

theorem length_zeros (n : ℕ) : (zeros n).length = n := List.length_replicate

/-- A text in Base64 of zeros, which ends with one character of padding. -/
def zerosB64 (chars : ℕ) : CString := List.replicate chars 65 ++ cstr "="

/-- An outcome of every call where the texts decoded are those of zeros, and none fails but
    the derivation of the ECDH secret, if `derives` is not set. -/
def PrimEnv.zeros (derives : Bool) : PrimEnv
  | .bioRead text maxLen =>
    some ⟨(HybridPqc.zeros (text.count 65 * 3 / 4)).take maxLen, List.length_take_le ..⟩
  | .evpPkeyDerive _ _ secret _ => ⟨derives, secret, 32⟩
  | p => PrimEnv.sample p

/-- A `ServerHello` with keys of X25519 and ML-KEM-768, of zeros. -/
def zerosServerHello : List UInt8 :=
  Dispatch.serverHello .little x25519Mlkem768 (zeros 32) (zeros 1184)

/-- The same as an object. -/
def zerosObject : Json :=
  .object [(cstr "type", .string (cstr "ServerHello")), (cstr "c_pub", .string (zerosB64 43)),
    (cstr "q_pk", .string (zerosB64 1579))]

/-- The same as a line. -/
def zerosLine : List UInt8 :=
  cstr "\x7b\"type\":\"ServerHello\",\"c_pub\":\"" ++ zerosB64 43 ++ cstr "\",\"q_pk\":\"" ++
    zerosB64 1579 ++ cstr "\"\x7d\n"

/-- A text that is part of a line. -/
def InLine (l : List UInt8) : Prop := ∀ c ∈ l, c ≠ 10 ∧ c ≠ 0

theorem inLine_of_all {l : List UInt8} (h : l.all fun c => c ≠ 10 ∧ c ≠ 0) : InLine l :=
  List.all_iff_forall_prop.1 h

theorem InLine.append {l l' : List UInt8} (h : InLine l) (h' : InLine l') : InLine (l ++ l') :=
  List.forall_mem_append.2 ⟨h, h'⟩

theorem inLine_zerosB64 (chars : ℕ) : InLine (zerosB64 chars) :=
  .append (fun c hc => by rw [List.eq_of_mem_replicate hc]; decide) (inLine_of_all (by decide))

theorem jsonLines_zerosLine :
    jsonLines (fun _ => some zerosObject) zerosLine = [some zerosObject] := by
  have hline : zerosLine = cstr "\x7b\"type\":\"ServerHello\",\"c_pub\":\"" ++ zerosB64 43 ++
      cstr "\",\"q_pk\":\"" ++ zerosB64 1579 ++ cstr "\"\x7d" ++ 10 :: [] := by
    simp [zerosLine, cstr]
  have htext : InLine (cstr "\x7b\"type\":\"ServerHello\",\"c_pub\":\"" ++ zerosB64 43 ++
      cstr "\",\"q_pk\":\"" ++ zerosB64 1579 ++ cstr "\"\x7d") :=
    ((((inLine_of_all (by decide)).append (inLine_zerosB64 _)).append
      (inLine_of_all (by decide))).append (inLine_zerosB64 _)).append (inLine_of_all (by decide))
  rw [hline, jsonLines_append _ htext]
  rfl

variable {derives : Bool}

/-- A text of zeros is decoded to as many of them as fit. -/
theorem eval_b64Decode_zerosB64 {chars maxLen : ℕ} (hchars : chars < 2 ^ 31)
    (hlen : maxLen < 2 ^ 31) :
    (b64Decode (some (zerosB64 chars)) maxLen).eval (PrimEnv.zeros derives) =
      some (zeros (min maxLen (chars * 3 / 4))) := by
  have hcount : (zerosB64 chars).count 65 = chars := by simp [zerosB64, cstr]
  have hread : (PrimEnv.zeros derives (.bioRead (zerosB64 chars) maxLen)).map Subtype.val =
      some (zeros (min maxLen (chars * 3 / 4))) := by
    simp [PrimEnv.zeros, hcount, zeros, List.take_replicate]
  have hbuf : memBuf (zerosB64 chars) = zerosB64 chars := by
    refine memBuf_of_lt ?_
    simp only [zerosB64, cstr, List.length_append, List.length_replicate]
    exact Nat.lt_trans (Nat.add_lt_add_right hchars 1) (by decide)
  rw [← hread, ← eval_bioRead_of_lt hlen]
  have hne : zerosB64 chars ≠ [] := by simp [zerosB64, cstr]
  obtain ⟨c, text, htext⟩ := List.exists_cons_of_ne_nil hne
  rw [htext] at hbuf ⊢
  rw [eval_b64DecodeTo_cons, if_pos ⟨rfl, rfl⟩, hbuf]

theorem serverHelloOf_zerosServerHello :
    Dispatch.serverHelloOf .little zerosServerHello = ⟨zeros 32, some (zeros 1184)⟩ := by
  rw [zerosServerHello, Dispatch.serverHelloOf_serverHello, length_zeros, if_pos (by decide)] <;>
    rw [length_zeros] <;>
    decide

theorem serverHelloComplete_zerosServerHello :
    Dispatch.ServerHelloComplete .little (.reliable (PrimEnv.zeros derives)) zerosServerHello := by
  refine Dispatch.serverHelloComplete_serverHello ?_ ?_ rfl <;>
    rw [length_zeros] <;>
    decide

theorem afterServerHello_zerosServerHello :
    Dispatch.afterServerHello .little zerosServerHello = [] := by
  refine Dispatch.afterServerHello_serverHello ?_ ?_ <;>
    rw [length_zeros] <;>
    decide

/-- The client of the binary protocol gets to the derivation, -/
theorem ecdhCalled_zeros :
    Dispatch.EcdhCalled .little (.reliable (PrimEnv.zeros derives)) x25519Mlkem768 zerosServerHello
      [] [] [] ⟨0⟩ ⟨0⟩ where
  starts := ⟨rfl, rfl, ⟨.inl rfl, rfl⟩, rfl, rfl⟩
  hello := serverHelloComplete_zerosServerHello
  key := by
    rw [serverHelloOf_zerosServerHello]
    exact ⟨by decide, rfl⟩

/-- and its KEM operation succeeds. -/
theorem encapsulates_zeros :
    Dispatch.Encapsulates (.reliable (PrimEnv.zeros derives)) x25519Mlkem768
      (Dispatch.serverHelloOf .little zerosServerHello).pqcPk := by
  rw [serverHelloOf_zerosServerHello]
  exact ⟨.mlkem768 oqsMlkem768Name, _, rfl, rfl, rfl, rfl, length_zeros _, rfl⟩

/-- So does the client of the JSON protocol, -/
theorem serverPub_zerosObject :
    Baseline.serverPub (.reliable (PrimEnv.zeros derives)) zerosObject = zeros 32 :=
  congrArg (Option.getD · [])
    (@eval_b64Decode_zerosB64 derives 43 maxPubKeyBytes (by decide) (by decide))

theorem jsonEcdhCalled_zeros :
    Baseline.EcdhCalled (.reliable (PrimEnv.zeros derives)) x25519Mlkem768 [some zerosObject] []
      ⟨0⟩ ⟨0⟩ where
  starts := ⟨rfl, rfl, .inl rfl, rfl⟩
  message := ⟨_, _, rfl, rfl, by rw [serverPub_zerosObject]; exact ⟨by decide, rfl⟩⟩

/-- and its KEM operation succeeds. -/
theorem encapsulatesTo_zerosObject :
    Baseline.EncapsulatesTo (.reliable (PrimEnv.zeros derives)) x25519Mlkem768 zerosObject := by
  exact ⟨_, rfl, rfl, .mlkem768 oqsMlkem768Name, zeros 1184, rfl, rfl, rfl, rfl,
    eval_b64Decode_zerosB64 (by decide) (by decide), length_zeros _, rfl⟩

theorem not_leavesNothing_zeros {privKey peerPub : EvpPkey} :
    ¬LeavesNothing (PrimEnv.zeros derives) privKey peerPub (.zero maxSharedSec) maxSharedSec := by
  simp [LeavesNothing, PrimEnv.zeros, PrimEnv.sample]

theorem deriveSteps_zeros_iff {privKey peerPub : EvpPkey} :
    DeriveSteps (PrimEnv.zeros derives) privKey peerPub (.zero maxSharedSec) maxSharedSec ↔
      derives = true := by
  simp [DeriveSteps, PrimEnv.zeros, PrimEnv.sample]

end Samples

/-! ## Failed key derivations -/

/-- **The hybrid clients pass over a failed ECDH.** They never go on without ECDH exactly
    if, wherever one gets to the derivation and its KEM operation succeeds, the derivation
    succeeds or leaves a length of zero: the code that it returns is not looked at. -/
theorem hybrid_clients_check_ecdh_iff (e : Endian) (env : NetEnv) (jsonEnv : JsonEnv)
    (parse : CString → Option Json) (combo : AlgoCombo) (host kdfType dispatchMode : CString)
    (route : DispatchRoute) (ready : Bool) (stream jsonStream : List UInt8)
    (hprofile : combo.profile = profileHybrid) :
    (Dispatch.EcdhChecked e env combo stream host kdfType dispatchMode route ready ↔
      ∀ privKey peerPub,
        Dispatch.EcdhCalled e env combo stream host kdfType dispatchMode privKey peerPub →
        Dispatch.Encapsulates env combo (Dispatch.serverHelloOf e stream).pqcPk →
        DeriveSteps env.sys privKey peerPub (.zero maxSharedSec) maxSharedSec ∨
          LeavesNothing env.sys privKey peerPub (.zero maxSharedSec) maxSharedSec) ∧
    (Baseline.EcdhChecked jsonEnv combo (jsonLines parse jsonStream) host kdfType ↔
      ∀ privKey peerPub,
        Baseline.EcdhCalled jsonEnv combo (jsonLines parse jsonStream) host privKey peerPub →
        Baseline.KemSucceeds jsonEnv combo (jsonLines parse jsonStream) →
        DeriveSteps jsonEnv.sys privKey peerPub (.zero maxSharedSec) maxSharedSec ∨
          LeavesNothing jsonEnv.sys privKey peerPub (.zero maxSharedSec) maxSharedSec) :=
  ⟨Dispatch.ecdh_checked_iff hprofile, Baseline.ecdh_checked_iff hprofile⟩

/-- With keys that lead to a secret. -/
theorem hybrid_clients_check_ecdh_zeros :
    Dispatch.EcdhChecked .little (.reliable (PrimEnv.zeros true)) x25519Mlkem768 zerosServerHello
        [] [] [] .parallel false ∧
      Baseline.EcdhChecked (.reliable (PrimEnv.zeros true)) x25519Mlkem768
        (jsonLines (fun _ => some zerosObject) zerosLine) [] [] := by
  have h := hybrid_clients_check_ecdh_iff .little (.reliable (PrimEnv.zeros true))
    (.reliable (PrimEnv.zeros true)) (fun _ => some zerosObject) x25519Mlkem768 [] [] [] .parallel
    false zerosServerHello zerosLine rfl
  exact ⟨h.1.2 fun _ _ _ _ => .inl (deriveSteps_zeros_iff.2 rfl),
    h.2.2 fun _ _ _ _ => .inl (deriveSteps_zeros_iff.2 rfl)⟩

/-- The keys are points of low order: the derivation fails, leaving a length of `32`. -/
theorem hybrid_clients_go_on_without_ecdh :
    ¬Dispatch.EcdhChecked .little (.reliable (PrimEnv.zeros false)) x25519Mlkem768 zerosServerHello
        [] [] [] .parallel false ∧
      ¬Baseline.EcdhChecked (.reliable (PrimEnv.zeros false)) x25519Mlkem768
        (jsonLines (fun _ => some zerosObject) zerosLine) [] [] := by
  rw [Dispatch.ecdh_checked_iff rfl, Baseline.ecdh_checked_iff rfl, jsonLines_zerosLine]
  refine ⟨fun h => ?_, fun h => ?_⟩
  · rcases h _ _ ecdhCalled_zeros encapsulates_zeros with hsteps | hleaves
    · exact absurd (deriveSteps_zeros_iff.1 hsteps) nofun
    · exact not_leavesNothing_zeros hleaves
  · rcases h _ _ jsonEcdhCalled_zeros ⟨_, _, rfl, encapsulatesTo_zerosObject⟩ with hsteps | hleaves
    · exact absurd (deriveSteps_zeros_iff.1 hsteps) nofun
    · exact not_leavesNothing_zeros hleaves

/-! ## Unfinished handshakes -/

/-- **The clients return a time whatever comes for the `Finished`.** If one returns a time
    it has received the message, exactly if a good one comes wherever the client gets to
    waiting for it (and the clock does not go back). -/
theorem clients_check_finished_iff (e : Endian) (env : NetEnv) (jsonEnv : JsonEnv)
    (parse : CString → Option Json) (combo : AlgoCombo) (host kdfType dispatchMode : CString)
    (route : DispatchRoute) (ready : Bool) (stream jsonStream : List UInt8) :
    (Dispatch.FinishedChecked e env combo stream host kdfType dispatchMode route ready ↔
      ∀ priv, Dispatch.Waits e env combo stream host kdfType dispatchMode priv →
        env.sys (.nowMs .start) ≤ env.sys (.nowMs .stop) →
        Dispatch.FinishedGood e (Dispatch.afterServerHello e stream)) ∧
    (Baseline.FinishedChecked jsonEnv combo (jsonLines parse jsonStream) host kdfType ↔
      ∀ priv, Baseline.Waits jsonEnv combo (jsonLines parse jsonStream) host priv →
        jsonEnv.sys (.nowMs .start) ≤ jsonEnv.sys (.nowMs .stop) →
        Baseline.FinishedGood (jsonLines parse jsonStream).tail) :=
  ⟨Dispatch.finished_checked_iff, Baseline.finished_checked_iff⟩

/-- The server closes after its first message. -/
theorem clients_return_time_of_unfinished :
    ¬Dispatch.FinishedChecked .little (.reliable (PrimEnv.zeros true)) x25519Mlkem768
        zerosServerHello [] [] [] .parallel false ∧
      ¬Baseline.FinishedChecked (.reliable (PrimEnv.zeros true)) x25519Mlkem768
        (jsonLines (fun _ => some zerosObject) zerosLine) [] [] := by
  rw [Dispatch.finished_checked_iff, Baseline.finished_checked_iff, jsonLines_zerosLine]
  refine ⟨fun h => ?_, fun h => ?_⟩
  · have hgood := h (some ⟨0⟩) ⟨ecdhCalled_zeros.starts, ecdhCalled_zeros.hello,
      fun _ => ⟨encapsulates_zeros, _, _, rfl, ecdhCalled_zeros.key, not_leavesNothing_zeros⟩,
      nofun⟩ (by decide)
    rw [afterServerHello_zerosServerHello] at hgood
    exact absurd hgood.1 (by decide)
  · obtain ⟨resp, rest, heq, -, hkey⟩ := (@jsonEcdhCalled_zeros true).message
    obtain ⟨⟨rfl⟩, rfl⟩ := List.cons.inj heq
    obtain ⟨line, rest, hline, -⟩ := h (some ⟨0⟩) ⟨jsonEcdhCalled_zeros.starts, _, _, rfl,
      fun _ => ⟨encapsulatesTo_zerosObject, _, _, rfl, hkey, not_leavesNothing_zeros⟩, nofun⟩
      (by decide)
    cases hline

end HybridPqc
