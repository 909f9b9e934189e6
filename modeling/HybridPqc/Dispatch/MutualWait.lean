import HybridPqc.Dispatch.Agreement
import HybridPqc.Dispatch.Stalls

/-!
# No mutual wait

Whichever calls fail, `execute_dispatch_handshake` and `handle_client_binary` do not both
wait in a read, if the client puts its ciphertext on the connection (`no_mutual_wait`).
Where it cannot, it waits for the `Finished` all the same, and the server for the
ciphertext (`mutual_wait_no_packet`).

Both ends of a connection that is not closed wait for more than has been put on it. What
each of them has put is a sequence of complete messages (`Dispatch.Stalls`), so that one of
them has what it waits for.
-/

namespace HybridPqc

open Handoff

namespace Dispatch

/-! ## Closing -/

/-- The socket is created. -/
def SocketCreated (ev : Conn.Event UInt8 Prim Prim.Res) : Prop := ev ≠ ⟨.sys .socket, false⟩

section Closing

variable {e : Endian} {combo : AlgoCombo} {host kdfType dispatchMode : CString}
  {route : DispatchRoute} {ready : Bool} {ok : Conn.Event UInt8 Prim Prim.Res → Prop}

theorem unlessClosed_abortHandshake {φ : ClientEnd → Prop} {priv : Option EvpPkey} :
    Conn.UnlessClosed ok φ (abortHandshake priv) :=
  .after fun _ => trivial

theorem unlessClosed_finishHandshake {φ : ClientEnd → Prop} {tStart : ℚ}
    {cSecret qSecret : Secret} :
    Conn.UnlessClosed ok φ (finishHandshake e combo kdfType tStart cSecret qSecret) :=
  .after fun _ => .after fun _ => .after fun _ => trivial

/-- A client that does not get to its `ServerHello` has closed, -/
theorem unlessClosed_sendClientHello :
    Conn.UnlessClosed SocketCreated (fun start => start.isSome = true)
      (sendClientHello e host combo kdfType dispatchMode) := by
  simp only [sendClientHello, Conn.sys_eq, Conn.send_eq, Conn.close_eq, Prog.call_bind,
    Prog.ret_bind, Prog.pure_eq, Conn.monadLift_eq, Conn.unlessClosed_call_sys]
  intro socket hsocket
  obtain rfl : socket = true := by
    cases socket with
    | false => exact absurd rfl hsocket
    | true => rfl
  refine fun connected _ => ?_
  cases connected with
  | false => trivial
  | true =>
    refine fun tStart _ => .after fun key => ?_
    cases key with
    | none => trivial
    | some key =>
      refine fun allocated _ => ?_
      cases allocated with
      | false => exact .after fun _ => trivial
      | true =>
        refine fun sent _ _ => ?_
        cases sent with
        | false => exact .after fun _ => trivial
        | true => rfl

theorem unlessClosed_finishHybrid {hello : ServerHello} {cSecret : Secret} {out : EncapsResult} :
    Conn.UnlessClosed ok (fun secrets => secrets ≠ .failed)
      (finishHybrid e combo hello cSecret out) := by
  refine .after fun _ => ?_
  rw [Conn.unlessClosed_ite]
  split
  · exact .after fun _ => trivial
  · exact .after fun _ => nofun

theorem unlessClosed_quantumSecrets {hello : ServerHello} :
    Conn.UnlessClosed ok (fun secrets => secrets ≠ .failed) (quantumSecrets e combo hello) := by
  refine .after fun kem => ?_
  cases kem with
  | none => exact .after fun _ => trivial
  | some kem =>
    cases hello.pqcPk with
    | none => exact .after fun _ => trivial
    | some pqcPk =>
      refine .after fun ctBuf => .after fun ssBuf => ?_
      rw [Conn.unlessClosed_ite]
      split
      · exact nofun
      · exact .after fun _ => .after fun _ => .after fun _ => .after fun _ => .after fun _ => nofun

/-- and so has one that gives up on the secrets. -/
theorem unlessClosed_inline_clientSecrets {priv : Option EvpPkey} {hello : ServerHello} :
    Conn.UnlessClosed ok (fun secrets => secrets.1 ≠ .failed)
      (PoolProg.inline encapsInline (clientSecrets e combo route priv hello) ready none) := by
  simp only [clientSecrets, PoolProg.inline_ite]
  split_ifs
  · refine inline_hybridSecrets_cases (fun k hk created _ => hk created) (fun pool => ?_)
      fun pool => ?_
    · exact .after fun _ => .after fun _ => Conn.unlessClosed_bind.2 unlessClosed_finishHybrid
    · exact .after fun _ => .after fun _ => Conn.unlessClosed_bind.2 unlessClosed_finishHybrid
  · simp only [PoolProg.inline_bind, PoolProg.inline_lift, Prog.bind_assoc, Prog.ret_bind]
    exact .after fun _ => by simp
  · rw [PoolProg.inline_lift]
    exact Conn.unlessClosed_bind.2 unlessClosed_quantumSecrets
  · simp

theorem unlessClosed_dispatchHandshake : Conn.UnlessClosed SocketCreated (· = .crashed)
    (dispatchHandshake e host combo kdfType dispatchMode route ready) := by
  rw [dispatchHandshake_eq]
  refine Conn.unlessClosed_bind.2 (unlessClosed_sendClientHello.mono fun start hstart => ?_)
  cases start with
  | none => cases hstart
  | some start =>
    refine .after fun hello => ?_
    cases hello with
    | none => exact unlessClosed_abortHandshake
    | some hello =>
      refine Conn.unlessClosed_bind.2 (unlessClosed_inline_clientSecrets.mono fun secrets hne => ?_)
      obtain ⟨secrets, pool⟩ := secrets
      cases secrets with
      | crashed => rfl
      | failed => exact absurd rfl hne
      | ok cSecret qSecret => exact unlessClosed_finishHandshake

/-- The server closes in any case. -/
theorem unlessClosed_handleClientHeader : Conn.UnlessClosed ok (fun _ => False)
    (handleClientHeader e) := by
  have hclose : Conn.UnlessClosed ok (fun _ => False) serverClose := trivial
  refine .after fun hdr => ?_
  cases hdr with
  | none => exact hclose
  | some bs =>
    cases hcombo : getComboById algorithmCombos (WireHeader.ofBytes e bs).comboId with
    | none => simpa only [handleClientBinary, hcombo] using hclose
    | some combo =>
      simp only [handleClientBinary, hcombo]
      refine .after fun hello => ?_
      cases hello with
      | none => exact hclose
      | some hello =>
        refine .after fun kem => ?_
        cases kem with
        | none => exact hclose
        | some kem =>
          refine .after fun classical => ?_
          cases classical with
          | none => exact hclose
          | some classical =>
            refine .after fun sent => ?_
            cases sent with
            | none => exact hclose
            | some sent =>
              refine .after fun qSecret => ?_
              cases qSecret with
              | none => exact hclose
              | some qSecret => exact .after fun _ => .after fun _ => trivial

end Closing

/-! ## Waiting for one another -/

section Sizes

variable {e : Endian} {combo : AlgoCombo} {kdfType dispatchMode : CString} {pub pk ct : List UInt8}

theorem clientHelloSize_clientHello (hpub : pub.length ≤ maxPubKeyBytes) (rest : List UInt8) :
    clientHelloSize e (clientHello e combo kdfType dispatchMode pub ++ rest) =
      (clientHello e combo kdfType dispatchMode pub).length := by
  have hlt : pub.length < 2 ^ 16 := hpub.trans_lt (by decide)
  rw [clientHello_eq, clientHelloBody, List.append_assoc, List.append_assoc,
    clientHelloSize_append (WireHeader.length_bytes ..) (ClientHelloMeta.length_bytes ..),
    ClientHelloMeta.ofBytes_bytes, List.length_append, List.length_append,
    WireHeader.length_bytes, ClientHelloMeta.length_bytes, Nat.mod_eq_of_lt hlt, Nat.add_assoc]

theorem serverHelloSize_serverHello (hpub : pub.length ≤ maxPubKeyBytes)
    (hpk : pk.length < 2 ^ 32) :
    serverHelloSize e (serverHello e combo pub pk) = (serverHello e combo pub pk).length := by
  rw [serverHelloSize, serverHelloMeta_serverHello hpub hpk, serverHello_eq, serverHelloBody]
  simp only [List.length_append, WireHeader.length_bytes, ServerHelloMeta.length_bytes]
  omega

/-- The size of a `ClientHello` is in its first bytes. -/
theorem clientHelloSize_of_append {i₁ i₂ : List UInt8} (h : i₁.length = clientHelloSize e i₁) :
    clientHelloSize e (i₁ ++ i₂) = clientHelloSize e i₁ := by
  have hlen : WireHeader.size + ClientHelloMeta.size ≤ i₁.length := by
    rw [h, clientHelloSize]
    omega
  rw [clientHelloSize, clientHelloSize, clientHelloMeta, clientHelloMeta,
    List.drop_append_of_le_length (by omega), List.take_append_of_le_length]
  rw [List.length_drop]
  omega

/-- The server takes the `ClientHello` of the client, and no more, for one. -/
theorem eq_clientHello {i₁ i₂ rest : List UInt8} (hpub : pub.length ≤ maxPubKeyBytes)
    (h : clientHello e combo kdfType dispatchMode pub ++ rest = i₁ ++ i₂)
    (hsize : i₁.length = clientHelloSize e i₁) :
    i₁ = clientHello e combo kdfType dispatchMode pub ∧ i₂ = rest := by
  have hlen : i₁.length = (clientHello e combo kdfType dispatchMode pub).length := by
    rw [hsize, ← clientHelloSize_of_append hsize, ← h, clientHelloSize_clientHello hpub]
  obtain ⟨h₁, h₂⟩ := List.append_inj h hlen.symm
  exact ⟨h₁.symm, h₂.symm⟩

end Sizes

section MutualWait

variable {e : Endian} {combo : AlgoCombo} {host kdfType dispatchMode : CString}
  {route : DispatchRoute} {ready : Bool} {okL okR : Conn.Event UInt8 Prim Prim.Res → Prop}
  {i o : List UInt8}

/-- The server does not wait for what the client has not put. -/
theorem not_stalls_both (hcombo : combo ∈ algorithmCombos)
    (hokL : ∀ ev, okL ev → Sized ev ∧ CiphertextGoes e combo ev) (hokR : ∀ ev, okR ev → Sized ev)
    (hl : Conn.Stalls okL (dispatchHandshake e host combo kdfType dispatchMode route ready) i o) :
    ¬Conn.Stalls okR (handleClientHeader e) o i := by
  intro hr
  obtain ⟨pub, hpub, hclient⟩ := stalls_dispatchHandshake hokL hl
  rcases stalls_handleClientHeader hokR hr with
    ⟨rfl, hlen⟩ | ⟨combo', srvPub, pk, i₁, i₂, hcombo', hkem, hsrvPub, hpk, rfl, hsize, rfl, hlen⟩
  · rcases hclient with ⟨rfl, -⟩ | ⟨i₁, i₂, ct, hi, hsize, -, -⟩
    · have hwhole := @clientHelloSize_clientHello e combo kdfType dispatchMode pub hpub []
      rw [List.append_nil] at hwhole
      omega
    · obtain ⟨rfl, -⟩ := List.append_eq_nil_iff.1 hi.symm
      have hpos : 0 < WireHeader.size := by decide
      rw [serverHelloSize, List.length_nil] at hsize
      omega
  · rcases hclient with ⟨hi, hshort⟩ | ⟨j₁, j₂, ct, -, -, ho, hct⟩
    · rw [serverHelloSize_serverHello hsrvPub hpk] at hshort
      exact absurd hshort (lt_irrefl _)
    · obtain ⟨rfl, rfl⟩ := eq_clientHello hpub ho.symm hsize
      rw [← ho, clientHello_eq, List.append_assoc, List.take_left' (WireHeader.length_bytes ..),
        getComboById_clientHelloHeader (getComboById_of_mem hcombo)] at hcombo'
      obtain rfl := Option.some.inj hcombo'
      rw [SendsCiphertext, if_pos hkem] at hct
      obtain ⟨ct', hct', rfl⟩ := hct
      rw [ciphertextHeader_pqcCiphertext hct', pqcCiphertext, List.length_append,
        WireHeader.length_bytes] at hlen
      exact absurd hlen (lt_irrefl _)

/-- **No mutual wait, where the ciphertext is put on the connection.** Whatever else fails,
    and whatever the interleaving, the ends never wait for one another: the client only waits
    for the `Finished` after a complete `ServerHello` and with its ciphertext put whole, and
    whoever returns has closed (a crash, and a socket that is not created, apart). -/
theorem no_mutual_wait (e : Endian) (host : CString) (combo : AlgoCombo)
    (kdfType dispatchMode : CString) (route : DispatchRoute) (ready : Bool)
    (hcombo : combo ∈ algorithmCombos) :
    let start := handshakeStart e host combo kdfType dispatchMode route ready
    (∀ s, Duplex.Faults (fun ev => Sized ev ∧ CiphertextGoes e combo ev) Sized start s →
      ¬s.Deadlock) ∧
    (∀ i o l, End.FaultRun (fun ev => Sized ev ∧ CiphertextGoes e combo ev) start.left i o l →
      l.Blocked [] → l.closed = false → serverHelloSize e i ≤ i.length →
        ∃ pub ct, o = clientHello e combo kdfType dispatchMode pub ++ ct ∧
          SendsCiphertext e combo ct) ∧
    (∀ i o l v, End.FaultRun SocketCreated start.left i o l → l.prog = .ret v →
      l.closed = true ∨ v = .crashed) ∧
    ∀ i o r v, End.FaultRun (fun _ => True) start.right i o r → r.prog = .ret v →
      r.closed = true := by
  refine ⟨fun s hs => ?_, fun i o l hrun hb hopen hwhole => ?_, fun i o l v hrun hret => ?_,
    fun i o r v hrun hret => ?_⟩
  · exact Duplex.not_deadlock_of_stalls
      (fun i o => not_stalls_both hcombo (fun ev => id) fun ev => id) hs
  · have hstalls := hrun.stalls hb hopen
    rw [handshakeStart, End.taken_nil, End.put_nil] at hstalls
    obtain ⟨pub, -, ⟨-, hshort⟩ | ⟨i₁, i₂, ct, -, -, ho, hct⟩⟩ :=
      stalls_dispatchHandshake (fun ev => id) hstalls
    · exact absurd hshort (not_lt.2 hwhole)
    · exact ⟨pub, ct, ho, hct⟩
  · exact hrun.closed_or (φ := (· = .crashed)) hret unlessClosed_dispatchHandshake
  · exact (hrun.closed_or hret unlessClosed_handleClientHeader).resolve_right id

end MutualWait

/-- A hybrid suite. -/
theorem no_mutual_wait_x25519_mlkem768 : x25519Mlkem768.HasKem ∧
    ∀ s, Duplex.Faults (fun ev => Sized ev ∧ CiphertextGoes .little x25519Mlkem768 ev) Sized
      (handshakeStart .little (cstr "127.0.0.1") x25519Mlkem768 (cstr "blake3") (cstr "auto")
        .parallel false) s → ¬s.Deadlock :=
  ⟨by decide, (no_mutual_wait .little (cstr "127.0.0.1") x25519Mlkem768 (cstr "blake3")
    (cstr "auto") .parallel false (by decide)).1⟩

/-! ### A mutual wait -/

/-- An outcome of every call where none fails, but for the allocation of the message with the
    ciphertext. -/
def PrimEnv.noPacket : PrimEnv
  | .malloc .ciphertextPacket _ => false
  | p => PrimEnv.sample p

theorem sized_sample (p : Prim) : Sized ⟨.sys p, PrimEnv.sample p⟩ := by
  cases p with
  | evpPkeyGetRawPublicKey | i2dPubkey =>
    rintro bs ⟨⟩
    decide
  | _ => trivial

theorem sized_noPacket (p : Prim) : Sized ⟨.sys p, PrimEnv.noPacket p⟩ := by
  cases p with
  | malloc => trivial
  | _ => exact sized_sample _

section Sample

variable {pk : List UInt8}

theorem obs_sequentialSecrets_noPacket :
    (ConnEnv.reliable PrimEnv.noPacket).obs []
      (sequentialSecrets .little mlkem768Only none ⟨[], some pk⟩) =
      ⟨.ok .none (.copy (Bytes.zero 32).1), [], [], [], false⟩ := by
  rw [sequentialSecrets, if_neg (by decide), if_neg (by decide), if_pos (by decide),
    obs_quantumSecrets rfl rfl rfl rfl, obs_sendCiphertext]
  rfl

/-- The client gets to waiting for the `Finished` without having put a ciphertext. -/
theorem client_waits (hpos : 0 < pk.length) (hpk : pk.length < 2 ^ 32) :
    ∃ p₁ reads k,
      End.Runs PrimEnv.noPacket (dispatchHandshake .little [] mlkem768Only [] [] .sequential false)
        [] [] [] p₁ [] (clientHello .little mlkem768Only [] [] []) ∧
      End.Runs PrimEnv.noPacket p₁ (serverHello .little mlkem768Only [] pk) [] reads
        (awaitFinished .little >>= k) [] [] := by
  have hstarts : Starts .little (.reliable PrimEnv.noPacket) mlkem768Only [] [] [] none :=
    ⟨rfl, rfl, show ¬mlkem768Only.HasClassical by decide, rfl, rfl⟩
  obtain ⟨reads, hreads, hrecv⟩ := obs_recvServerHello (@serverHelloComplete_serverHello .little
    mlkem768Only [] pk (.reliable PrimEnv.noPacket) (Nat.zero_le _) hpk rfl)
  rw [serverHelloOf_serverHello (Nat.zero_le _) hpk, if_pos hpos,
    afterServerHello_serverHello (Nat.zero_le _) hpk] at hrecv
  obtain ⟨⟨_, _, _⟩, rfl, hsecrets⟩ := @End.Runs.of_obs_map _ _ _ _ ClientEnd _ PrimEnv.noPacket _
    Prod.fst _ _ _ [] _ _ _ ((@obs_inline_clientSecrets _ _ _ _ .sequential false _ _).trans
      (@obs_sequentialSecrets_noPacket pk)) Obs.allRead_nil rfl
  rw [dispatchHandshake_eq]
  refine ⟨?greeted, reads ++ ([] ++ []), ?afterwards, ?greets, ?waits⟩
  case greets => exact .of_obs (obs_sendClientHello hstarts) Obs.allRead_nil rfl
  case waits =>
    refine (End.Runs.of_obs hrecv hreads rfl).trans ((hsecrets _).trans ?_)
    simp only [finishHandshake, Conn.monadLift_eq]
    exact .of_obs (ConnEnv.obs_lift ..) Obs.allRead_nil rfl

/-- The message with the ciphertext cannot be allocated: the client goes on to wait for the
    `Finished`, and the server for the ciphertext. -/
theorem mutual_wait_no_packet :
    ∃ s, Duplex.Faults Sized Sized
      (handshakeStart .little [] mlkem768Only [] [] .sequential false) s ∧ s.Deadlock := by
  have hkem : ∀ _ : mlkem768Only.HasKem, KemWorks mlkem768Only.pqcName PrimEnv.sample PrimEnv.sample
      ⟨.mlkem768 oqsMlkem768Name, .zero _, .zero _⟩ (.zero _) (.zero _) :=
    fun _ => kemWorks_sample
  have hclassical : mlkem768Only.HasClassical → ClassicalWorks CryptoLib.sample
      mlkem768Only.classicalCurve PrimEnv.sample ⟨0⟩ ⟨0⟩ :=
    fun h => absurd h (by decide)
  have hlen : (Bytes.zero 1184).1.length = 1184 := (Bytes.zero 1184).2
  obtain ⟨p₁, reads, k, hhello, hwaits⟩ :=
    @client_waits (Bytes.zero 1184).1 (by rw [hlen]; decide) (by rw [hlen]; decide)
  obtain ⟨reads', hgreets⟩ := @server_greets .little mlkem768Only [] [] CryptoLib.sample _ _ _ _ _ _ _
    rfl hostWorks_sample hclassical hkem
  obtain ⟨t₁, -, hsteps₁⟩ := hhello false []
  obtain ⟨u₁, -, hstepsₛ⟩ := hgreets false []
  obtain ⟨t₂, -, hsteps₂⟩ := hwaits false ([] ++ t₁)
  refine ⟨_, Duplex.Reaches.faults ((Duplex.reaches_left hsteps₁).trans <|
    (Duplex.reaches_right hstepsₛ).trans (Duplex.reaches_left hsteps₂)) sized_noPacket sized_sample,
    ⟨_, _, rfl, Nat.succ_pos _, rfl⟩, ⟨_, _, rfl, Nat.succ_pos _, rfl⟩, rfl, rfl⟩

end Sample

end Dispatch

end HybridPqc
