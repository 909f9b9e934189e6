import HybridPqc.Lib.Faults
import HybridPqc.Dispatch.Messages

/-!
# Where the ends of the binary handshake wait

What each end has put on the connection when it waits in a read, whichever calls fail. The
client waits for a complete `ServerHello`, having put its `ClientHello`, or for the
`Finished` (`stalls_dispatchHandshake`); the server waits for a complete `ClientHello`, or
for a complete ciphertext, having put its `ServerHello` (`stalls_handleClientHeader`). A
message is complete once it has the size that it announces.

The client may wait for the `Finished` without having put its ciphertext, unless there is
room for the message and it is sent (`CiphertextGoes`).
-/

namespace HybridPqc

open Handoff

/-- A call answers what it may: the public keys exported fit in the buffers of the code. -/
def Sized : Conn.Event UInt8 Prim Prim.Res → Prop
  | ⟨.sys (.evpPkeyGetRawPublicKey _), pub⟩ => ∀ bs ∈ pub, bs.length ≤ maxPubKeyBytes
  | ⟨.sys (.i2dPubkey _), pub⟩ => ∀ bs ∈ pub, bs.length ≤ maxPubKeyBytes
  | _ => True

namespace Dispatch

variable {ok : Conn.Event UInt8 Prim Prim.Res → Prop} {e : Endian} {combo : AlgoCombo}
  {i o : List UInt8}

/-! ## Messages -/

section ServerHello

theorem stalls_recvSrvPub {n : ℕ} (h : Conn.Stalls ok (recvSrvPub n) i o) :
    o = [] ∧ i.length < n := by
  rw [recvSrvPub] at h
  split_ifs at h with hpos hmax
  · exact absurd h Conn.not_stalls_ret
  · rcases Conn.Stalls.of_recv_ret h rfl with h | ⟨bs, i', -, -, h⟩
    · exact ⟨h.2, h.1⟩
    · exact absurd h Conn.not_stalls_ret
  · exact absurd h Conn.not_stalls_ret

theorem returns_recvSrvPub {n : ℕ} {pub : List UInt8}
    (h : Conn.Returns ok (recvSrvPub n) i o (some pub)) : o = [] ∧ i.length = n := by
  rw [recvSrvPub] at h
  split_ifs at h with hpos hmax
  · cases h.2.2
  · obtain ⟨bs, i', hlen, rfl, rfl, rfl, -⟩ := Conn.Returns.of_recv_ret h rfl (by simp)
    exact ⟨rfl, by simpa using hlen⟩
  · obtain ⟨rfl, rfl, -⟩ := h
    exact ⟨rfl, (Nat.eq_zero_of_not_pos hpos).symm⟩

theorem stalls_recvPqcPk {n : ℕ} (h : Conn.Stalls ok (recvPqcPk n) i o) :
    o = [] ∧ i.length < n := by
  rw [recvPqcPk] at h
  split_ifs at h with hpos
  · obtain ⟨allocated, -, h⟩ := h
    cases allocated with
    | false => exact absurd h Conn.not_stalls_ret
    | true =>
      rcases Conn.Stalls.of_recv h fun _ _ h => Conn.not_stalls_ret h.choose_spec.2 with
        h | ⟨bs, i', -, -, h⟩
      · exact ⟨h.2, h.1⟩
      · exact absurd h Conn.not_stalls_ret
  · exact absurd h Conn.not_stalls_ret

theorem returns_recvPqcPk {n : ℕ} {pk : Option (List UInt8)}
    (h : Conn.Returns ok (recvPqcPk n) i o (some pk)) : o = [] ∧ i.length = n := by
  rw [recvPqcPk] at h
  split_ifs at h with hpos
  · obtain ⟨allocated, -, h⟩ := h
    cases allocated with
    | false => cases h.2.2
    | true =>
      obtain ⟨bs, i', hlen, rfl, rfl, rfl, -⟩ := Conn.Returns.of_recv h fun _ _ h =>
        Conn.not_returns_ret (by simp) h.choose_spec.2
      exact ⟨rfl, by simpa using hlen⟩
  · obtain ⟨rfl, rfl, -⟩ := h
    exact ⟨rfl, (Nat.eq_zero_of_not_pos hpos).symm⟩

/-- The length of a `ServerHello`, as it announces it. -/
def serverHelloSize (e : Endian) (s : List UInt8) : ℕ :=
  WireHeader.size + ServerHelloMeta.size + (serverHelloMeta e s).srvPubLen +
    (serverHelloMeta e s).pqcPkLen

variable {hdr shMeta rest : List UInt8}

theorem serverHelloSize_append (hhdr : hdr.length = WireHeader.size)
    (hmeta : shMeta.length = ServerHelloMeta.size) :
    serverHelloSize e (hdr ++ (shMeta ++ rest)) = WireHeader.size + ServerHelloMeta.size +
      (ServerHelloMeta.ofBytes e shMeta).srvPubLen + (ServerHelloMeta.ofBytes e shMeta).pqcPkLen := by
  rw [serverHelloSize, serverHelloMeta, List.drop_left' hhdr, List.take_left' hmeta]

/-- The client waits for a `ServerHello` that is not complete, -/
theorem stalls_recvServerHello (h : Conn.Stalls ok (recvServerHello e) i o) :
    o = [] ∧ i.length < serverHelloSize e i := by
  simp only [recvServerHello, Conn.recv_eq, Prog.call_bind, Prog.ret_bind] at h
  rcases Conn.Stalls.of_recv_ret h rfl with ⟨hlen, ho⟩ | ⟨hdr, i, hhdr, rfl, hafter⟩
  · exact ⟨ho, by rw [serverHelloSize]; omega⟩
  dsimp only at hafter
  split_ifs at hafter
  · exact absurd hafter Conn.not_stalls_ret
  rcases Conn.Stalls.of_recv_ret hafter rfl with ⟨hlen, ho⟩ | ⟨shMeta, i, hmeta, rfl, hkeys⟩
  · exact ⟨ho, by rw [serverHelloSize, List.length_append]; omega⟩
  rw [serverHelloSize_append hhdr hmeta, List.length_append, List.length_append]
  rcases hkeys.of_bind with hpub | ⟨srvPub, i₁, i₂, o₁, o₂, rfl, rfl, hpub, hrest⟩
  · obtain ⟨ho, hlen⟩ := stalls_recvSrvPub hpub
    exact ⟨ho, by omega⟩
  cases srvPub with
  | none => exact absurd hrest Conn.not_stalls_ret
  | some srvPub =>
    obtain ⟨rfl, hlen⟩ := returns_recvSrvPub hpub
    rcases hrest.of_bind with hpk | ⟨pqcPk, _, _, _, _, -, -, -, hret⟩
    · obtain ⟨ho, hlen'⟩ := stalls_recvPqcPk hpk
      exact ⟨ho, by rw [List.length_append]; omega⟩
    · cases pqcPk <;> exact absurd hret Conn.not_stalls_ret

/-- and has taken all of it once it has one. -/
theorem returns_recvServerHello {hello : ServerHello}
    (h : Conn.Returns ok (recvServerHello e) i o (some hello)) :
    o = [] ∧ i.length = serverHelloSize e i := by
  simp only [recvServerHello, Conn.recv_eq, Prog.call_bind, Prog.ret_bind] at h
  obtain ⟨hdr, i, hhdr, rfl, hafter⟩ := Conn.Returns.of_recv_ret h rfl (by simp)
  dsimp only at hafter
  split_ifs at hafter
  · cases hafter.2.2
  obtain ⟨shMeta, i, hmeta, rfl, hkeys⟩ := Conn.Returns.of_recv_ret hafter rfl (by simp)
  rw [serverHelloSize_append hhdr hmeta, List.length_append, List.length_append]
  obtain ⟨srvPub, i₁, i₂, o₁, o₂, rfl, rfl, hpub, hrest⟩ := hkeys.of_bind
  cases srvPub with
  | none => cases hrest.2.2
  | some srvPub =>
    obtain ⟨rfl, hlen⟩ := returns_recvSrvPub hpub
    obtain ⟨pqcPk, i₂, i₃, o₂, o₃, rfl, rfl, hpk, hret⟩ := hrest.of_bind
    cases pqcPk with
    | none => cases hret.2.2
    | some pqcPk =>
      obtain ⟨rfl, hlen'⟩ := returns_recvPqcPk hpk
      obtain ⟨rfl, rfl, -⟩ := hret
      exact ⟨rfl, by simp only [List.length_append, List.length_nil]; omega⟩

end ServerHello

section ClientHello

/-- The length of a `ClientHello`, as it announces it. -/
def clientHelloSize (e : Endian) (s : List UInt8) : ℕ :=
  WireHeader.size + ClientHelloMeta.size + (clientHelloMeta e (s.drop WireHeader.size)).cPubLen

variable {hdr chMeta rest : List UInt8}

theorem clientHelloSize_append (hhdr : hdr.length = WireHeader.size)
    (hmeta : chMeta.length = ClientHelloMeta.size) :
    clientHelloSize e (hdr ++ (chMeta ++ rest)) = WireHeader.size + ClientHelloMeta.size +
      (ClientHelloMeta.ofBytes e chMeta).cPubLen := by
  rw [clientHelloSize, clientHelloMeta, List.drop_left' hhdr, List.take_left' hmeta]

/-- The server waits for a `ClientHello` that is not complete, -/
theorem stalls_recvClientHello (hhdr : hdr.length = WireHeader.size)
    (h : Conn.Stalls ok (recvClientHello e) i o) :
    o = [] ∧ (hdr ++ i).length < clientHelloSize e (hdr ++ i) := by
  simp only [recvClientHello, Conn.recv_eq, Prog.call_bind, Prog.ret_bind] at h
  rcases Conn.Stalls.of_recv_ret h rfl with ⟨hlen, ho⟩ | ⟨chMeta, i, hmeta, rfl, hpub⟩
  · exact ⟨ho, by rw [clientHelloSize, List.length_append]; omega⟩
  rw [clientHelloSize_append hhdr hmeta, List.length_append, List.length_append]
  dsimp only at hpub
  split_ifs at hpub
  · exact absurd hpub Conn.not_stalls_ret
  · rcases Conn.Stalls.of_recv_ret hpub rfl with ⟨hlen, ho⟩ | ⟨pub, i, hlen, rfl, hret⟩
    · exact ⟨ho, by omega⟩
    · exact absurd hret Conn.not_stalls_ret
  · exact absurd hpub Conn.not_stalls_ret

/-- and has taken all of it once it has one. -/
theorem returns_recvClientHello {hello : ClientHello} (hhdr : hdr.length = WireHeader.size)
    (h : Conn.Returns ok (recvClientHello e) i o (some hello)) :
    o = [] ∧ (hdr ++ i).length = clientHelloSize e (hdr ++ i) := by
  simp only [recvClientHello, Conn.recv_eq, Prog.call_bind, Prog.ret_bind] at h
  obtain ⟨chMeta, i, hmeta, rfl, hpub⟩ := Conn.Returns.of_recv_ret h rfl (by simp)
  rw [clientHelloSize_append hhdr hmeta, List.length_append, List.length_append]
  dsimp only at hpub
  split_ifs at hpub
  · cases hpub.2.2
  · obtain ⟨pub, i, hlen, rfl, rfl, rfl, -⟩ := Conn.Returns.of_recv_ret hpub rfl (by simp)
    exact ⟨rfl, by simp only [List.length_append, List.length_nil]; omega⟩
  · obtain ⟨rfl, rfl, -⟩ := hpub
    exact ⟨rfl, by simp only [List.length_nil]; omega⟩

end ClientHello

/-- The server waits for a ciphertext that is not complete. -/
theorem stalls_recvCiphertext {kem : Option ServerKem}
    (h : Conn.Stalls ok (recvCiphertext e kem) i o) : kem.isSome ∧ o = [] ∧
      i.length < WireHeader.size + (ciphertextHeader e i).payloadLen := by
  cases kem with
  | none => exact absurd h Conn.not_stalls_ret
  | some k =>
    have hfree {i o} : ¬Conn.Stalls ok (Conn.lift (freeSecretKey (some k)) >>= fun _ =>
        Prog.ret (none : Option Secret)) i o :=
      Conn.not_stalls_of_all (by simp [freeSecretKey])
    simp only [recvCiphertext, Conn.recv_eq, Prog.call_bind, Prog.ret_bind, Conn.monadLift_eq,
      Conn.sys_eq, Prog.pure_eq] at h
    refine ⟨rfl, ?_⟩
    rcases Conn.Stalls.of_recv h fun _ _ => hfree with ⟨hlen, ho⟩ | ⟨hdr, i, hhdr, rfl, hafter⟩
    · exact ⟨ho, by omega⟩
    rw [ciphertextHeader, List.take_left' hhdr, List.length_append]
    dsimp only at hafter
    split_ifs at hafter
    · exact absurd hafter hfree
    obtain ⟨allocated, -, hct⟩ := hafter
    dsimp only at hct
    split_ifs at hct
    · exact absurd hct hfree
    rcases Conn.Stalls.of_recv hct fun _ _ h => hfree h.choose_spec.2 with
      ⟨hlen, ho⟩ | ⟨ct, i, hlen, rfl, hrest⟩
    · exact ⟨ho, by omega⟩
    · refine absurd hrest (Conn.not_stalls_of_all ?_)
      exact .bind (Conn.ne_recv_lift) fun secret => by simp [freeSecretKey]

/-! ## The client -/

section Client

variable {host kdfType dispatchMode : CString} {route : DispatchRoute} {ready : Bool}

/-- The ciphertext is put on the connection: there is room for the message, and it is sent. -/
def CiphertextGoes (e : Endian) (combo : AlgoCombo) : Conn.Event UInt8 Prim Prim.Res → Prop
  | ⟨.sys (.malloc .ciphertextPacket _), allocated⟩ => allocated = true
  | ⟨.send bs, sent⟩ => (∃ ct, bs = pqcCiphertext e combo ct) → sent = true
  | _ => True

theorem gives_cryptoExportPub {pkey : EvpPkey} {curveId : Int} {pub : Option (List UInt8)}
    (hok : ∀ ev, ok ev → Sized ev)
    (h : (cryptoExportPub curveId pkey).Gives (fun ev => ok ⟨.sys ev.1, ev.2⟩) pub) :
    (pub.getD []).length ≤ maxPubKeyBytes := by
  cases pub with
  | none => exact Nat.zero_le _
  | some pub =>
    rw [cryptoExportPub, Prog.gives_ite] at h
    split at h
    · obtain ⟨_, hr, rfl⟩ := h
      exact hok _ hr pub rfl
    · obtain ⟨_, hr, rfl⟩ := h
      exact hok _ hr pub rfl

theorem gives_clientKeygen (hok : ∀ ev, ok ev → Sized ev) {priv : Option EvpPkey}
    {pub : List UInt8}
    (h : (clientKeygen combo).Gives (fun ev => ok ⟨.sys ev.1, ev.2⟩) (some (priv, pub))) :
    pub.length ≤ maxPubKeyBytes := by
  rw [clientKeygen, Prog.gives_ite] at h
  split at h
  · obtain ⟨key, -, h⟩ := (Prog.gives_bind ..).1 h
    cases key with
    | none => cases h
    | some key =>
      obtain ⟨pub, hpub, h⟩ := (Prog.gives_bind ..).1 h
      cases h
      exact gives_cryptoExportPub hok hpub
  · cases h
    exact Nat.zero_le _

/-- What the client puts before it reads is its `ClientHello`. -/
theorem returns_sendClientHello (hok : ∀ ev, ok ev → Sized ev) {start : ClientStart}
    (h : Conn.Returns ok (sendClientHello e host combo kdfType dispatchMode) i o (some start)) :
    i = [] ∧ ∃ pub, pub.length ≤ maxPubKeyBytes ∧
      o = clientHello e combo kdfType dispatchMode pub := by
  simp only [sendClientHello, Conn.sys_eq, Conn.send_eq, Conn.close_eq, Prog.call_bind,
    Prog.ret_bind, Prog.pure_eq, Conn.monadLift_eq] at h
  obtain ⟨socket, -, hconnect⟩ := h
  dsimp only at hconnect
  split_ifs at hconnect
  · cases hconnect.2.2
  obtain ⟨connected, -, hstart⟩ := hconnect
  dsimp only at hstart
  split_ifs at hstart
  · exact absurd hstart Conn.not_returns_call_close
  obtain ⟨tStart, -, hkeygen⟩ := hstart
  obtain ⟨key, i₁, i₂, o₁, o₂, rfl, rfl, hkey, hsend⟩ := hkeygen.of_bind
  obtain ⟨rfl, rfl, hgives⟩ := hkey.of_lift
  cases key with
  | none => exact absurd hsend Conn.not_returns_call_close
  | some key =>
    obtain ⟨priv, pub⟩ := key
    have hpub := gives_clientKeygen hok hgives
    obtain ⟨allocated, -, hsend⟩ := hsend
    dsimp only at hsend
    split_ifs at hsend
    · obtain ⟨_, _, _, _, _, -, -, -, hclose⟩ := hsend.of_bind
      exact absurd hclose Conn.not_returns_call_close
    rcases hsend with ⟨o', rfl, _, -, hsent⟩ | ⟨-, part, o', rfl, _, -, hsent⟩
    · obtain ⟨rfl, rfl, -⟩ := hsent
      exact ⟨rfl, pub, hpub, by simp⟩
    · obtain ⟨_, _, _, _, _, -, -, -, hclose⟩ := Conn.Returns.of_bind hsent
      exact absurd hclose Conn.not_returns_call_close

theorem not_stalls_sendClientHello :
    ¬Conn.Stalls ok (sendClientHello e host combo kdfType dispatchMode) i o := by
  refine Conn.not_stalls_of_all ?_
  have hfree {priv} : Prog.All (fun op => ∀ n, op ≠ ConnOp.recv n)
      (Conn.lift (freePkey priv) >>= fun _ => Prog.call ConnOp.close fun _ =>
        Prog.ret (none : Option ClientStart) : Net _) :=
    .bind (Conn.ne_recv_lift) fun _ => by simp
  simp only [sendClientHello, Conn.sys_eq, Conn.send_eq, Conn.close_eq, Prog.call_bind,
    Prog.ret_bind, Prog.pure_eq, Conn.monadLift_eq, Prog.all_call]
  refine ⟨by simp, fun socket => ?_⟩
  cases socket with
  | false => trivial
  | true =>
    refine ⟨by simp, fun connected => ?_⟩
    cases connected with
    | false => exact ⟨by simp, fun _ => trivial⟩
    | true =>
      refine ⟨by simp, fun tStart => .bind (Conn.ne_recv_lift) fun key => ?_⟩
      cases key with
      | none => exact ⟨by simp, fun _ => trivial⟩
      | some key =>
        refine ⟨by simp, fun allocated => ?_⟩
        cases allocated with
        | false => exact hfree
        | true =>
          refine ⟨by simp, fun sent => ⟨by simp, fun _ => ?_⟩⟩
          cases sent with
          | false => exact hfree
          | true => trivial

variable {ct : List UInt8}

theorem returns_sendCiphertext {u : Unit} (hok : ∀ ev, ok ev → CiphertextGoes e combo ev)
    (h : Conn.Returns ok (sendCiphertext e combo ct) i o u) :
    i = [] ∧ o = pqcCiphertext e combo ct := by
  simp only [sendCiphertext, Conn.sys_eq, Conn.send_eq, Prog.call_bind, Prog.ret_bind] at h
  obtain ⟨allocated, hallocated, h⟩ := h
  obtain rfl : allocated = true := hok _ hallocated
  rcases h with ⟨o', rfl, _, -, _, -, rfl, rfl, -⟩ | ⟨hfails, -⟩
  · exact ⟨rfl, List.append_nil _⟩
  · exact absurd (hok _ hfails ⟨ct, rfl⟩) Bool.false_ne_true

theorem all_sendCiphertext :
    Prog.All (fun op => ∀ n, op ≠ ConnOp.recv n) (sendCiphertext e combo ct) := by
  simp [sendCiphertext]

variable {hello : ServerHello} {cSecret qSecret cSecret' : Secret} {out : EncapsResult}

theorem returns_finishHybrid (hok : ∀ ev, ok ev → CiphertextGoes e combo ev)
    (h : Conn.Returns ok (finishHybrid e combo hello cSecret' out) i o (.ok cSecret qSecret)) :
    i = [] ∧ o = pqcCiphertext e combo (out.ct.getD []) := by
  simp only [finishHybrid, Conn.monadLift_eq, Conn.close_eq, Prog.call_bind, Prog.ret_bind] at h
  obtain ⟨_, -, h⟩ := h.of_lift_bind
  split_ifs at h
  · obtain ⟨_, -, hclose⟩ := h.of_lift_bind
    exact absurd hclose Conn.not_returns_call_close
  · obtain ⟨_, i₁, i₂, o₁, o₂, rfl, rfl, hsend, rfl, rfl, -⟩ := h.of_bind
    obtain ⟨rfl, rfl⟩ := returns_sendCiphertext hok hsend
    exact ⟨rfl, List.append_nil _⟩

theorem all_finishHybrid :
    Prog.All (fun op => ∀ n, op ≠ ConnOp.recv n) (finishHybrid e combo hello cSecret' out) := by
  refine .bind (Conn.ne_recv_lift) fun _ => ?_
  rw [Prog.all_ite]
  split
  · exact .bind (Conn.ne_recv_lift) fun _ => by simp
  · exact all_sendCiphertext.bind fun _ => trivial

/-- The ciphertext of the worker has the length of those of the KEM. -/
theorem gives_clientPqcEncapsWorker {args : PQCEncapsArgs}
    (h : (clientPqcEncapsWorker args .init).Gives (fun ev => ok ⟨.sys ev.1, ev.2⟩) out) :
    (out.ct.getD []).length < 2 ^ 32 := by
  simp only [clientPqcEncapsWorker, Prog.op_eq, Prog.call_bind, Prog.ret_bind, Prog.pure_eq,
    Prog.gives_call] at h
  obtain ⟨kem, -, h⟩ := h
  cases kem with
  | none =>
    cases h
    decide
  | some kem =>
    simp only [Prog.gives_call, Prog.gives_ite, Prog.gives_bind, Prog.gives_ret] at h
    obtain ⟨allocated, -, allocated', -, h⟩ := h
    split_ifs at h
    · obtain ⟨_, -, _, -, _, -, rfl⟩ := h
      decide
    obtain ⟨key, -, h⟩ := h
    cases key with
    | none =>
      obtain ⟨_, -, _, -, _, -, rfl⟩ := h
      decide
    | some key =>
      simp only [Prog.gives_call, Prog.gives_ite, Prog.gives_bind, Prog.gives_ret] at h
      obtain ⟨r, -, h⟩ := h
      split_ifs at h
      · obtain ⟨_, -, _, -, _, -, _, -, rfl⟩ := h
        decide
      · obtain ⟨_, -, _, -, _, -, rfl⟩ := h
        exact r.ct.2.trans_lt kem.lengthCiphertext_lt_uint32

/-- What the client puts while it computes the secrets. -/
def SendsCiphertext (e : Endian) (combo : AlgoCombo) (o : List UInt8) : Prop :=
  if combo.HasKem then ∃ ct, ct.length < 2 ^ 32 ∧ o = pqcCiphertext e combo ct else o = []

theorem returns_quantumSecrets (hok : ∀ ev, ok ev → Sized ev ∧ CiphertextGoes e combo ev)
    (h : Conn.Returns ok (quantumSecrets e combo hello) i o (.ok cSecret qSecret)) :
    i = [] ∧ ∃ ct, ct.length < 2 ^ 32 ∧ o = pqcCiphertext e combo ct := by
  simp only [quantumSecrets, Conn.sys_eq, Prog.call_bind, Prog.ret_bind, Conn.monadLift_eq,
    Conn.close_eq] at h
  obtain ⟨kem, -, h⟩ := h
  have habort {i o} : ¬Conn.Returns ok (Conn.lift (freeIf hello.pqcPk.isSome .publicKey) >>=
      fun _ => Prog.call ConnOp.close fun _ => pure ClientSecrets.failed : Net _) i o
      (.ok cSecret qSecret) := fun h => by
    obtain ⟨_, -, hclose⟩ := h.of_lift_bind
    exact Conn.not_returns_call_close hclose
  cases kem with
  | none => exact absurd h habort
  | some kem =>
    cases hpk : hello.pqcPk with
    | none =>
      rw [hpk] at h
      exact absurd (by rwa [hpk]) habort
    | some pqcPk =>
      rw [hpk] at h
      obtain ⟨ctBuf, -, ssBuf, -, h⟩ := h
      dsimp only at h
      split_ifs at h
      · cases h.2.2
      obtain ⟨r, -, _, -, _, -, h⟩ := h
      obtain ⟨_, i₁, i₂, o₁, o₂, rfl, rfl, hsend, _, -, rfl, rfl, -⟩ := h.of_bind
      obtain ⟨rfl, rfl⟩ := returns_sendCiphertext (fun ev hev => (hok ev hev).2) hsend
      exact ⟨rfl, _, r.ct.2.trans_lt kem.lengthCiphertext_lt_uint32, List.append_nil _⟩

variable {priv : Option EvpPkey} {pool : Bool × Option PQCEncapsArgs}

theorem returns_inline_hybridSecrets (hok : ∀ ev, ok ev → Sized ev ∧ CiphertextGoes e combo ev)
    (h : Conn.Returns ok (PoolProg.inline encapsInline (hybridSecrets e combo route priv hello)
      ready none) i o (.ok cSecret qSecret, pool)) :
    i = [] ∧ ∃ ct, ct.length < 2 ^ 32 ∧ o = pqcCiphertext e combo ct := by
  have hfinish {cSecret' out pool' i o}
      (hout : (clientPqcEncapsWorker ⟨combo.pqcName, none, hello.pqcPk⟩ .init).Gives
        (fun ev => ok ⟨.sys ev.1, ev.2⟩) out)
      (h : Conn.Returns ok (finishHybrid e combo hello cSecret' out >>= fun secrets =>
        pure (secrets, pool')) i o (.ok cSecret qSecret, pool)) :
      i = [] ∧ ∃ ct, ct.length < 2 ^ 32 ∧ o = pqcCiphertext e combo ct := by
    obtain ⟨secrets, i₁, i₂, o₁, o₂, rfl, rfl, hsecrets, rfl, rfl, heq⟩ := h.of_bind
    obtain ⟨rfl, -⟩ := Prod.mk.inj heq
    obtain ⟨rfl, rfl⟩ := returns_finishHybrid (fun ev hev => (hok ev hev).2) hsecrets
    exact ⟨rfl, _, gives_clientPqcEncapsWorker hout, List.append_nil _⟩
  revert i o
  refine inline_hybridSecrets_cases
    (M := fun p => ∀ {i o}, Conn.Returns ok p i o (.ok cSecret qSecret, pool) →
      i = [] ∧ ∃ ct, ct.length < 2 ^ 32 ∧ o = pqcCiphertext e combo ct)
    (fun k hk => ?_) (fun pool' => ?_) fun pool' => ?_
  · rintro i o ⟨created, -, h⟩
    exact hk created h
  · intro i o h
    obtain ⟨cSecret', -, h⟩ := Conn.Returns.of_lift_bind h
    obtain ⟨out, hout, h⟩ := Conn.Returns.of_lift_bind h
    exact hfinish hout h
  · intro i o h
    obtain ⟨out, hout, h⟩ := Conn.Returns.of_lift_bind h
    obtain ⟨cSecret', -, h⟩ := Conn.Returns.of_lift_bind h
    exact hfinish hout h

/-- The client puts its ciphertext before it goes on with its secrets. -/
theorem returns_inline_clientSecrets (hok : ∀ ev, ok ev → Sized ev ∧ CiphertextGoes e combo ev)
    (h : Conn.Returns ok (PoolProg.inline encapsInline (clientSecrets e combo route priv hello)
      ready none) i o (.ok cSecret qSecret, pool)) : i = [] ∧ SendsCiphertext e combo o := by
  simp only [clientSecrets, PoolProg.inline_ite] at h
  rw [SendsCiphertext]
  split_ifs at h with hhybrid hclassical hquantum
  · rw [if_pos (.inl hhybrid)]
    exact returns_inline_hybridSecrets hok h
  · rw [if_neg (by rw [AlgoCombo.HasKem, hclassical]; decide)]
    simp only [PoolProg.inline_bind, PoolProg.inline_lift, Prog.bind_assoc, Prog.ret_bind] at h
    obtain ⟨_, -, rfl, rfl, -⟩ := h.of_lift_bind
    exact ⟨rfl, rfl⟩
  · rw [if_pos (.inr hquantum)]
    rw [PoolProg.inline_lift] at h
    obtain ⟨secrets, i₁, i₂, o₁, o₂, rfl, rfl, hsecrets, rfl, rfl, heq⟩ := h.of_bind
    obtain ⟨rfl, -⟩ := Prod.mk.inj heq
    rw [List.append_nil, List.append_nil]
    exact returns_quantumSecrets hok hsecrets
  · obtain ⟨rfl, rfl, -⟩ := h
    rw [if_neg (by simp [AlgoCombo.HasKem, hhybrid, hquantum])]
    exact ⟨rfl, rfl⟩

theorem all_inline_clientSecrets :
    Prog.All (fun op => ∀ n, op ≠ ConnOp.recv n)
      (PoolProg.inline encapsInline (clientSecrets e combo route priv hello) ready none) := by
  simp only [clientSecrets, PoolProg.inline_ite, Prog.all_ite]
  split_ifs
  · refine inline_hybridSecrets_cases (fun k hk => ⟨by simp, hk⟩) (fun pool => ?_) fun pool => ?_
    · exact .bind (Conn.ne_recv_lift) fun _ => .bind (Conn.ne_recv_lift) fun _ =>
        all_finishHybrid.bind fun _ => trivial
    · exact .bind (Conn.ne_recv_lift) fun _ => .bind (Conn.ne_recv_lift) fun _ =>
        all_finishHybrid.bind fun _ => trivial
  · simp only [PoolProg.inline_bind, PoolProg.inline_lift, Prog.bind_assoc, Prog.ret_bind]
    exact .bind (Conn.ne_recv_lift) fun _ => trivial
  · rw [PoolProg.inline_lift]
    refine .bind ?_ fun _ => trivial
    simp only [quantumSecrets, Conn.sys_eq, Prog.call_bind, Prog.ret_bind]
    refine ⟨by simp, fun kem => ?_⟩
    cases kem with
    | none => exact .bind (Conn.ne_recv_lift) fun _ => by simp
    | some kem =>
      cases hello.pqcPk with
      | none => exact .bind (Conn.ne_recv_lift) fun _ => by simp
      | some pqcPk => 
        refine ⟨by simp, fun ctBuf => ⟨by simp, fun ssBuf => ?_⟩⟩
        dsimp only
        rw [Prog.all_ite]
        split
        · trivial
        · exact ⟨by simp, fun _ => ⟨by simp, fun _ => ⟨by simp, fun _ => all_sendCiphertext.bind fun _ =>
            by simp⟩⟩⟩
  · trivial

theorem stalls_awaitFinished (h : Conn.Stalls ok (awaitFinished e) i o) : o = [] := by
  simp only [awaitFinished, Conn.recv_eq, Prog.call_bind, Prog.ret_bind] at h
  rcases Conn.Stalls.of_recv_ret h rfl with ⟨-, ho⟩ | ⟨hdr, i, -, rfl, hafter⟩
  · exact ho
  dsimp only at hafter
  split_ifs at hafter
  · rcases Conn.Stalls.of_recv_ret hafter rfl with ⟨-, ho⟩ | ⟨_, _, -, -, hret⟩
    · exact ho
    · exact absurd hret Conn.not_stalls_ret
  · exact absurd hafter Conn.not_stalls_ret

/-- The client puts nothing after its ciphertext. -/
theorem stalls_finishHandshake {tStart : ℚ}
    (h : Conn.Stalls ok (finishHandshake e combo kdfType tStart cSecret qSecret) i o) : o = [] := by
  obtain ⟨key, -, hafter⟩ := h.of_lift_bind
  rcases hafter.of_bind with hawait | ⟨_, _, _, _, _, -, -, -, hret⟩
  · exact stalls_awaitFinished hawait
  · exact absurd hret (Conn.not_stalls_of_all (by simp))

/-- The client waits for the `ServerHello`, having put its `ClientHello`, or for the
    `Finished`, having put its ciphertext as well. -/
theorem stalls_dispatchHandshake (hok : ∀ ev, ok ev → Sized ev ∧ CiphertextGoes e combo ev)
    (h : Conn.Stalls ok (dispatchHandshake e host combo kdfType dispatchMode route ready) i o) :
    ∃ pub, pub.length ≤ maxPubKeyBytes ∧
      ((o = clientHello e combo kdfType dispatchMode pub ∧ i.length < serverHelloSize e i) ∨
        ∃ i₁ i₂ ct, i = i₁ ++ i₂ ∧ i₁.length = serverHelloSize e i₁ ∧
          o = clientHello e combo kdfType dispatchMode pub ++ ct ∧ SendsCiphertext e combo ct) := by
  rw [dispatchHandshake_eq] at h
  rcases h.of_bind with hhello | ⟨start, i₀, i, o₀, o, rfl, rfl, hhello, hstarted⟩
  · exact absurd hhello not_stalls_sendClientHello
  cases start with
  | none => exact absurd hstarted Conn.not_stalls_ret
  | some start =>
    obtain ⟨rfl, pub, hpub, rfl⟩ := returns_sendClientHello (fun ev hev => (hok ev hev).1) hhello
    refine ⟨pub, hpub, ?_⟩
    -- the `ClientHello` is out: the client waits in one of its two reads from here on
    rcases hstarted.of_bind with hrecv | ⟨hello, i₁, i, o₁, o, rfl, rfl, hrecv, hgreeted⟩
    · obtain ⟨rfl, hlen⟩ := stalls_recvServerHello hrecv
      exact .inl ⟨List.append_nil _, hlen⟩
    cases hello with
    | none =>
      refine absurd hgreeted (Conn.not_stalls_of_all ?_)
      exact .bind (Conn.ne_recv_lift) fun _ => by simp
    | some hello =>
      obtain ⟨rfl, hlen⟩ := returns_recvServerHello hrecv
      rcases hgreeted.of_bind with hsecrets | ⟨secrets, i₂, i, o₂, o, rfl, rfl, hsecrets, hfinish⟩
      -- the secrets read nothing
      · exact absurd hsecrets (Conn.not_stalls_of_all all_inline_clientSecrets)
      obtain ⟨secrets, pool⟩ := secrets
      cases secrets with
      | crashed => exact absurd hfinish Conn.not_stalls_ret
      | failed => exact absurd hfinish Conn.not_stalls_ret
      | ok cSecret qSecret =>
        obtain ⟨rfl, hct⟩ := returns_inline_clientSecrets hok hsecrets
        obtain rfl := stalls_finishHandshake hfinish
        exact .inr ⟨i₁, i, o₂, rfl, hlen, by simp, hct⟩

end Client

/-! ## The server -/

section Server

theorem not_stalls_serverClose : ¬Conn.Stalls ok serverClose i o := id

theorem gives_serverKeygen {kem : Option ServerKem}
    (h : (serverKeygen combo).Gives (fun ev => ok ⟨.sys ev.1, ev.2⟩) (some kem)) :
    (kemPk kem).length < 2 ^ 32 ∧ (kem.isSome → combo.HasKem) := by
  simp only [serverKeygen, Prog.gives_ite, Prog.op_eq, Prog.call_bind, Prog.ret_bind] at h
  split at h
  · rename_i hkem
    refine ⟨?_, fun _ => hkem⟩
    obtain ⟨kem', -, h⟩ := h
    cases kem' with
    | none => cases h
    | some kem' =>
      obtain ⟨pk, -, sk, -, h⟩ := h
      obtain ⟨pair, -, h⟩ := (Prog.gives_bind ..).1 h
      cases pair with
      | none =>
        obtain ⟨_, -, h⟩ := (Prog.gives_bind ..).1 h
        obtain ⟨_, -, h⟩ := (Prog.gives_bind ..).1 h
        obtain ⟨_, -, h⟩ := h
        cases h
      | some pair =>
        cases h
        exact pair.1.2.trans_lt kem'.lengthPublicKey_lt_uint32
  · cases h
    exact ⟨by decide, by simp⟩

theorem gives_serverExchange (hok : ∀ ev, ok ev → Sized ev) {kem : Option ServerKem}
    {cliPub : List UInt8} {classical : ServerClassical}
    (h : (serverExchange combo kem cliPub).Gives (fun ev => ok ⟨.sys ev.1, ev.2⟩)
      (some classical)) : classical.pub.length ≤ maxPubKeyBytes := by
  rw [serverExchange, Prog.gives_ite] at h
  split at h
  · obtain ⟨srvPriv, -, h⟩ := (Prog.gives_bind ..).1 h
    cases srvPriv with
    | none =>
      obtain ⟨_, -, h⟩ := (Prog.gives_bind ..).1 h
      obtain ⟨_, -, h⟩ := (Prog.gives_bind ..).1 h
      cases h
    | some srvPriv =>
      obtain ⟨pub, hpub, h⟩ := (Prog.gives_bind ..).1 h
      obtain ⟨secret, -, h⟩ := (Prog.gives_bind ..).1 h
      cases h
      exact gives_cryptoExportPub hok hpub
  · cases h
    exact Nat.zero_le _

theorem not_stalls_sendServerHello {kem : Option ServerKem} {classical : ServerClassical} :
    ¬Conn.Stalls ok (sendServerHello e combo kem classical) i o := by
  refine Conn.not_stalls_of_all ?_
  simp only [sendServerHello, Conn.sys_eq, Conn.send_eq, Prog.call_bind, Prog.ret_bind]
  refine ⟨by simp, fun allocated => ?_⟩
  cases allocated with
  | false =>
    exact .bind (Conn.ne_recv_lift) fun _ => .bind (Conn.ne_recv_lift) fun _ =>
      .bind (Conn.ne_recv_lift) fun _ => trivial
  | true =>
    refine ⟨by simp, fun sent => ⟨by simp, fun _ => .bind (Conn.ne_recv_lift) fun _ =>
      .bind (Conn.ne_recv_lift) fun _ => ?_⟩⟩
    cases sent with
    | false => exact .bind (Conn.ne_recv_lift) fun _ => trivial
    | true => trivial

theorem returns_sendServerHello {kem : Option ServerKem} {classical : ServerClassical}
    (h : Conn.Returns ok (sendServerHello e combo kem classical) i o (some ())) :
    i = [] ∧ o = serverHello e combo classical.pub (kemPk kem) := by
  simp only [sendServerHello, Conn.sys_eq, Conn.send_eq, Prog.call_bind, Prog.ret_bind,
    Conn.monadLift_eq] at h
  obtain ⟨allocated, -, h⟩ := h
  dsimp only at h
  split_ifs at h
  · obtain ⟨_, -, h⟩ := h.of_lift_bind
    obtain ⟨_, -, h⟩ := h.of_lift_bind
    obtain ⟨_, -, h⟩ := h.of_lift_bind
    cases h.2.2
  rcases h with ⟨o', rfl, _, -, h⟩ | ⟨-, part, o', rfl, _, -, h⟩
  · obtain ⟨_, -, h⟩ := Conn.Returns.of_lift_bind h
    obtain ⟨_, -, h⟩ := Conn.Returns.of_lift_bind h
    obtain ⟨rfl, rfl, -⟩ := h
    exact ⟨rfl, List.append_nil _⟩
  · obtain ⟨_, -, h⟩ := Conn.Returns.of_lift_bind h
    obtain ⟨_, -, h⟩ := Conn.Returns.of_lift_bind h
    obtain ⟨_, -, h⟩ := Conn.Returns.of_lift_bind h
    cases h.2.2

/-- The server waits for the `ClientHello`, or for the ciphertext, having put its
    `ServerHello`. -/
theorem stalls_handleClientHeader (hok : ∀ ev, ok ev → Sized ev)
    (h : Conn.Stalls ok (handleClientHeader e) i o) :
    (o = [] ∧ i.length < clientHelloSize e i) ∨
      ∃ combo pub pk i₁ i₂,
        getComboById algorithmCombos (WireHeader.ofBytes e (i.take WireHeader.size)).comboId =
          some combo ∧ combo.HasKem ∧ pub.length ≤ maxPubKeyBytes ∧ pk.length < 2 ^ 32 ∧
        i = i₁ ++ i₂ ∧ i₁.length = clientHelloSize e i₁ ∧ o = serverHello e combo pub pk ∧
        i₂.length < WireHeader.size + (ciphertextHeader e i₂).payloadLen := by
  simp only [handleClientHeader, Conn.recv_eq, Prog.call_bind, Prog.ret_bind] at h
  rcases Conn.Stalls.of_recv h fun _ _ => not_stalls_serverClose with
    ⟨hlen, rfl⟩ | ⟨hdr, i, hhdr, rfl, hbinary⟩
  · exact .inl ⟨rfl, by rw [clientHelloSize]; omega⟩
  rw [List.take_left' hhdr]
  cases hcombo : getComboById algorithmCombos (WireHeader.ofBytes e hdr).comboId with
  | none =>
    simp only [handleClientBinary, hcombo] at hbinary
    exact absurd hbinary not_stalls_serverClose
  | some combo =>
    simp only [handleClientBinary, hcombo, Conn.monadLift_eq] at hbinary
    rcases hbinary.of_bind with hhello | ⟨hello, i₁, i, o₁, o, rfl, rfl, hhello, hkeygen⟩
    · exact .inl (stalls_recvClientHello hhdr hhello)
    cases hello with
    | none => exact absurd hkeygen not_stalls_serverClose
    | some hello =>
      obtain ⟨rfl, hsize⟩ := returns_recvClientHello hhdr hhello
      obtain ⟨kem, hkem, hexchange⟩ := hkeygen.of_lift_bind
      cases kem with
      | none => exact absurd hexchange not_stalls_serverClose
      | some kem =>
        obtain ⟨hpk, hhasKem⟩ := gives_serverKeygen hkem
        obtain ⟨classical, hclassical, hsend⟩ := hexchange.of_lift_bind
        cases classical with
        | none => exact absurd hsend not_stalls_serverClose
        | some classical =>
          -- the `ClientHello` is in: only the ciphertext is left to wait for
          rcases hsend.of_bind with hsend | ⟨sent, _, i, o₁, o, rfl, rfl, hsent, hrecv⟩
          · exact absurd hsend not_stalls_sendServerHello
          cases sent with
          | none => exact absurd hrecv not_stalls_serverClose
          | some sent =>
            obtain ⟨rfl, rfl⟩ := returns_sendServerHello hsent
            rcases hrecv.of_bind with hrecv | ⟨qSecret, _, _, _, _, -, -, -, hfinish⟩
            · obtain ⟨hisSome, rfl, hlen⟩ := stalls_recvCiphertext hrecv
              exact .inr ⟨combo, _, _, hdr ++ i₁, i, rfl, hhasKem hisSome,
                gives_serverExchange hok hclassical, hpk, by simp, hsize, by simp, hlen⟩
            · cases qSecret with
              | none => exact absurd hfinish not_stalls_serverClose
              | some qSecret =>
                refine absurd hfinish (Conn.not_stalls_of_all ?_)
                exact .bind (Conn.ne_recv_lift) fun _ => by simp

end Server

end Dispatch

end HybridPqc
