import HybridPqc.Dispatch.Messages

/-!
# The frames that are accepted

Which messages the ends of the binary protocol accept from a stream, and how much of it
they take (`frames_accepted_iff`). The lengths of the keys say where a `ClientHello`
and a `ServerHello` end, and the length in the header where a ciphertext does; the
length in the other headers is not looked at, nor is the suite in any but the first, where it
has to be known.
-/

namespace HybridPqc

namespace Dispatch

variable (e : Endian) (env : NetEnv) (s : List UInt8)

/-! ## Accepting -/

/-- The header at the beginning of a stream. -/
abbrev headerOf : WireHeader := WireHeader.ofBytes e (s.take WireHeader.size)

/-- The lengths after it, in a `ClientHello`. -/
abbrev helloMetaOf : ClientHelloMeta := clientHelloMeta e (s.drop WireHeader.size)

/-- The server accepts a `ClientHello`: it has found the magic number, has the header, knows
    the suite, and has the rest. -/
def AcceptsClientHello : Prop :=
  (headerOf e s).magic = wireMagic ∧ WireHeader.size ≤ s.length ∧
    (getComboById algorithmCombos (headerOf e s).comboId).isSome ∧
    (env.obs (s.drop WireHeader.size) (recvClientHello e)).val.isSome

/-- The server accepts a ciphertext. -/
def AcceptsCiphertext (k : ServerKem) : Prop :=
  (env.obs s (recvCiphertext e (some k))).val.isSome

/-- The client accepts a `ServerHello`. -/
def AcceptsServerHello : Prop := (env.obs s (recvServerHello e)).val.isSome

/-- The client accepts a `Finished`: it reads its status. -/
def AcceptsFinished : Prop :=
  ∃ status, (1, some [status]) ∈ (env.obs s (awaitFinished e)).received

/-- Every message accepted is consistent with its header, which has the suite negotiated
    and the length that is then read. -/
structure WellFramed (combo : AlgoCombo) (k : ServerKem) : Prop where
  clientHello : AcceptsClientHello e env s → (headerOf e s).msgType = wireMsgClientHello ∧
    (headerOf e s).payloadLen = ClientHelloMeta.size + (helloMetaOf e s).cPubLen
  ciphertext : AcceptsCiphertext e env s k → (headerOf e s).comboId = combo.id ∧
    (headerOf e s).payloadLen = k.kem.lengthCiphertext
  serverHello : AcceptsServerHello e env s → (headerOf e s).comboId = combo.id ∧
    (headerOf e s).payloadLen = ServerHelloMeta.size + (serverHelloMeta e s).srvPubLen +
      (serverHelloMeta e s).pqcPkLen
  finished : AcceptsFinished e env s → (headerOf e s).payloadLen = 1

section Accepts

variable {e env s} {k : ServerKem}

theorem acceptsClientHello_iff : AcceptsClientHello e env s ↔
    (headerOf e s).magic = wireMagic ∧
      (getComboById algorithmCombos (headerOf e s).comboId).isSome ∧
      WireHeader.size + ClientHelloMeta.size + (helloMetaOf e s).cPubLen ≤ s.length ∧
      (helloMetaOf e s).cPubLen ≤ maxPubKeyBytes := by
  have hval : (env.obs (s.drop WireHeader.size) (recvClientHello e)).val.isSome ↔
      ClientHelloComplete e (s.drop WireHeader.size) := by
    by_cases hhello : ClientHelloComplete e (s.drop WireHeader.size)
    · obtain ⟨reads, -, hobs⟩ := obs_recvClientHello env hhello
      simp [hobs, hhello]
    · simp [(obs_recvClientHello_not env hhello).1, hhello]
  rw [AcceptsClientHello, hval, ClientHelloComplete, List.length_drop]
  refine and_congr_right fun _ => ?_
  rw [and_left_comm]
  refine and_congr_right fun _ => ?_
  simp only [helloMetaOf]
  omega

/-- Otherwise it closes the connection. -/
theorem val_handleClientHeader_of_not (hmagic : (headerOf e s).magic = wireMagic)
    (h : ¬AcceptsClientHello e env s) : (env.obs s (handleClientHeader e)).val = .closed := by
  rw [handleClientHeader, Conn.recv_eq, Prog.call_bind, ConnEnv.obs_call_recv]
  split_ifs with hsize
  · cases hcombo : getComboById algorithmCombos (headerOf e s).comboId with
    | none =>
      simp [handleClientBinary, hcombo, obs_serverClose]
    | some combo =>
      have hnone : (env.obs (s.drop WireHeader.size) (recvClientHello e)).val = none := by
        rw [← Option.not_isSome_iff_eq_none]
        exact fun hhello => h ⟨hmagic, hsize, by rw [hcombo]; rfl, hhello⟩
      simp [handleClientBinary, hcombo, ConnEnv.obs_bind, hnone, obs_serverClose]
  · simp [obs_serverClose]

/-- What is taken of the stream. -/
theorem rest_recvClientHello (h : AcceptsClientHello e env s) :
    (env.obs (s.drop WireHeader.size) (recvClientHello e)).rest =
      s.drop (WireHeader.size + (ClientHelloMeta.size + (helloMetaOf e s).cPubLen)) := by
  obtain ⟨-, -, hlen, hmax⟩ := acceptsClientHello_iff.1 h
  have hhello : ClientHelloComplete e (s.drop WireHeader.size) := by
    refine ⟨?_, hmax⟩
    simp only [helloMetaOf] at hlen
    rw [List.length_drop]
    omega
  obtain ⟨reads, -, hobs⟩ := obs_recvClientHello env hhello
  rw [hobs, afterClientHello, List.drop_drop, List.drop_drop]

theorem acceptsCiphertext_iff : AcceptsCiphertext e env s k ↔
    CiphertextComplete e s ∧ env.sys (.malloc .ciphertext (headerOf e s).payloadLen) = true := by
  by_cases h : CiphertextComplete e s ∧
      env.sys (.malloc .ciphertext (ciphertextHeader e s).payloadLen) = true
  · simp [AcceptsCiphertext, obs_recvCiphertext h.1 h.2, h.1]
    exact h.2
  · rw [AcceptsCiphertext, obs_recvCiphertext_not h]
    exact ⟨nofun, fun hct => absurd hct h⟩

theorem rest_recvCiphertext (h : AcceptsCiphertext e env s k) :
    (env.obs s (recvCiphertext e (some k))).rest =
      s.drop (WireHeader.size + (headerOf e s).payloadLen) := by
  obtain ⟨hct, halloc⟩ := acceptsCiphertext_iff.1 h
  rw [obs_recvCiphertext hct halloc, List.drop_drop]
  rfl

theorem acceptsServerHello_iff : AcceptsServerHello e env s ↔ ServerHelloComplete e env s := by
  rw [AcceptsServerHello]
  by_cases hhello : ServerHelloComplete e env s
  · obtain ⟨reads, -, hobs⟩ := obs_recvServerHello hhello
    simp [hobs, hhello]
  · simp [(obs_recvServerHello_not hhello).1, hhello]

theorem rest_recvServerHello (h : AcceptsServerHello e env s) :
    (env.obs s (recvServerHello e)).rest =
      s.drop (WireHeader.size + (ServerHelloMeta.size + (serverHelloMeta e s).srvPubLen +
        (serverHelloMeta e s).pqcPkLen)) := by
  obtain ⟨reads, -, hobs⟩ := obs_recvServerHello (acceptsServerHello_iff.1 h)
  rw [hobs, afterServerHello, afterServerPub, afterServerHelloMeta, List.drop_drop, List.drop_drop,
    List.drop_drop, ← Nat.add_assoc (ServerHelloMeta.size)]

theorem acceptsFinished_iff : AcceptsFinished e env s ↔ WireHeader.size + 1 ≤ s.length ∧
    (headerOf e s).magic = wireMagic ∧ (headerOf e s).msgType = wireMsgServerFinished := by
  simp only [AcceptsFinished, awaitFinished, Conn.recv_eq, Prog.call_bind, Prog.ret_bind,
    Prog.pure_eq, ConnEnv.obs_ite, ConnEnv.obs_call_recv, ConnEnv.obs_ret]
  by_cases hsize : WireHeader.size ≤ s.length
  swap
  · rw [if_neg hsize]
    simp only [Obs.recvd_received, List.mem_singleton, Prod.mk.injEq]
    refine ⟨by rintro ⟨status, hlen, -⟩; exact absurd hlen (by decide), fun h => ?_⟩
    exact absurd (Nat.le_of_add_right_le h.1) hsize
  rw [if_pos hsize]
  by_cases hhdr : (headerOf e s).magic = wireMagic ∧ (headerOf e s).msgType = wireMsgServerFinished
  swap
  · rw [if_neg hhdr]
    simp only [Obs.recvd_received, List.mem_singleton, Prod.mk.injEq]
    exact ⟨by rintro ⟨status, hlen, -⟩; exact absurd hlen (by decide), fun h => absurd h.2 hhdr⟩
  rw [if_pos hhdr, List.length_drop]
  by_cases hone : 1 ≤ s.length - WireHeader.size
  · rw [if_pos hone]
    obtain ⟨status, hstatus⟩ := List.length_eq_one_iff.1
      (show ((s.drop WireHeader.size).take 1).length = 1 by simp; omega)
    refine iff_of_true ⟨status, by simp [hstatus]⟩ ⟨by omega, hhdr⟩
  · rw [if_neg hone]
    refine iff_of_false ?_ fun h => by omega
    rintro ⟨status, hmem⟩
    simp at hmem

theorem rest_awaitFinished (h : AcceptsFinished e env s) :
    (env.obs s (awaitFinished e)).rest = s.drop (WireHeader.size + 1) := by
  obtain ⟨hlen, hhdr⟩ := acceptsFinished_iff.1 h
  have hone : 1 ≤ (s.drop WireHeader.size).length := by
    rw [List.length_drop]
    omega
  simp only [awaitFinished, Conn.recv_eq, Prog.call_bind, Prog.ret_bind, Prog.pure_eq,
    ConnEnv.obs_ite, ConnEnv.obs_call_recv, ConnEnv.obs_ret]
  rw [if_pos (Nat.le_of_add_right_le hlen), if_pos hhdr, if_pos hone]
  simp

end Accepts

/-- **The frames that are accepted.** A `ClientHello` for a known suite and a `ServerHello` are
    accepted whenever they are complete, as the lengths of their keys say, and a ciphertext and
    a `Finished` whenever what their header, or their type, announces is there. So many
    bytes are taken after the header. -/
theorem frames_accepted_iff (e : Endian) (env : NetEnv) (s : List UInt8) (k : ServerKem) :
    -- a `ClientHello`
    ((headerOf e s).msgType = wireMsgClientHello → (AcceptsClientHello e env s ↔
      (headerOf e s).magic = wireMagic ∧
        (getComboById algorithmCombos (headerOf e s).comboId).isSome ∧
        WireHeader.size + ClientHelloMeta.size + (helloMetaOf e s).cPubLen ≤ s.length ∧
        (helloMetaOf e s).cPubLen ≤ maxPubKeyBytes)) ∧
    (AcceptsClientHello e env s → (env.obs (s.drop WireHeader.size) (recvClientHello e)).rest =
      s.drop (WireHeader.size + (ClientHelloMeta.size + (helloMetaOf e s).cPubLen))) ∧
    -- a ciphertext
    ((headerOf e s).payloadLen = k.kem.lengthCiphertext → (AcceptsCiphertext e env s k ↔
      CiphertextComplete e s ∧
        env.sys (.malloc .ciphertext (headerOf e s).payloadLen) = true)) ∧
    (AcceptsCiphertext e env s k → (env.obs s (recvCiphertext e (some k))).rest =
      s.drop (WireHeader.size + (headerOf e s).payloadLen)) ∧
    -- a `ServerHello`
    (AcceptsServerHello e env s ↔ ServerHelloComplete e env s) ∧
    (AcceptsServerHello e env s → (env.obs s (recvServerHello e)).rest =
      s.drop (WireHeader.size + (ServerHelloMeta.size + (serverHelloMeta e s).srvPubLen +
        (serverHelloMeta e s).pqcPkLen))) ∧
    -- a `Finished`
    (AcceptsFinished e env s ↔ WireHeader.size + 1 ≤ s.length ∧
      (headerOf e s).magic = wireMagic ∧ (headerOf e s).msgType = wireMsgServerFinished) ∧
    (AcceptsFinished e env s → (env.obs s (awaitFinished e)).rest = s.drop (WireHeader.size + 1)) :=
  ⟨fun _ => acceptsClientHello_iff, rest_recvClientHello, fun _ => acceptsCiphertext_iff,
    rest_recvCiphertext, acceptsServerHello_iff, rest_recvServerHello, acceptsFinished_iff,
    rest_awaitFinished⟩

/-- A `ClientHello` without a key that announces 99 bytes after its header. -/
theorem frames_accepted_out_of_step :
    ¬WellFramed .little (.reliable PrimEnv.sample)
      (WireHeader.bytes .little ⟨wireMagic, wireMsgClientHello, 6, 99⟩ ++ [0, 0, 0, 0]) mlkem768Only
      ⟨.mlkem768 oqsMlkem768Name, .zero _, .zero _⟩ := by
  intro h
  have hlen := (h.clientHello (acceptsClientHello_iff.2 (by decide))).2
  exact absurd hlen (by decide)

end Dispatch

end HybridPqc
