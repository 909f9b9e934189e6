import HybridPqc.Dispatch.Server
import HybridPqc.Lib.Uses
import HybridPqc.Resources

/-!
# What the server of the binary protocol releases

`handle_client_binary`, with what it uses without calling anything: the fields of its KEM, and
the buffers it reads and writes (`InMemory.handleClientBinary`). Without these uses it is the
handler as before (`erase_handleClientBinary`), whose calls settle as those with uses do
(`settles_handleClientBinary`).

Whatever the client sends and whatever the calls answer, it uses nothing it has released, and
releases the socket and all it has acquired, once (`handle_client_binary_releases`).
-/

namespace HybridPqc

namespace Dispatch

/-- A program of an end of a connection, with its uses of resources. -/
abbrev MemNet (α : Type) :=
  Prog (UseOp (ConnOp UInt8 Prim) Resource) (UseOp.Res (ConnOp.Res Prim.Res)) α

namespace InMemory

/-- A use of a resource. -/
def use (r : Resource) : MemNet Unit := Prog.op (UseOp.use r)

/-- A part that uses nothing itself. -/
abbrev net {α : Type} (p : Net α) : MemNet α := UseOp.lift p

/-- A call. -/
abbrev sys (q : Prim) : MemNet q.Res := net (Conn.sys q)

/-! ## The handler -/

/-- The KEM key pair, for profiles that have one. The lengths are fields of the KEM. -/
def serverKeygen (combo : AlgoCombo) : MemNet (Option (Option ServerKem)) := do
  if combo.HasKem then
    match ← sys (.oqsKemNew combo.pqcName) with
    | none => return none
    | some kem =>
      use (.kem kem)
      let pk ← sys (.malloc .publicKey kem.lengthPublicKey)
      use (.kem kem)
      let sk ← sys (.malloc .secretKey kem.lengthSecretKey)
      let pair ← (if pk && sk then sys (.oqsKemKeypair kem) else pure none : MemNet _)
      match pair with
      | some (qPk, qSk) =>
        use (.kem kem)
        return some (some ⟨kem, qPk, qSk⟩)
      | none =>
        net (freeIf pk .publicKey)
        net (freeIf sk .secretKey)
        sys (.oqsKemFree kem)
        return none
  else
    return some none

/-- The public key, copied to the packet. -/
def copyPublicKey (kem : Option ServerKem) : MemNet Unit :=
  if (kemPk kem).length > 0 then use (.buf .publicKey) else return ()

/-- Sending the `ServerHello`, in one piece: the packet is filled, then sent. -/
def sendServerHello (e : Endian) (combo : AlgoCombo) (kem : Option ServerKem)
    (classical : ServerClassical) : MemNet (Option Unit) := do
  let pkt := serverHello e combo classical.pub (kemPk kem)
  if !(← sys (.malloc .helloPacket pkt.length)) then
    net (freePublicKey kem)
    net (freeSecretKey kem)
    net (freePkey classical.priv)
    return none
  use (.buf .helloPacket)
  copyPublicKey kem
  use (.buf .helloPacket)
  let sent ← net (Conn.send pkt)
  sys (.free .helloPacket)
  net (freePublicKey kem)
  net (freePkey classical.priv)
  if !sent then
    net (freeSecretKey kem)
    return none
  return some ()

/-- The KEM secret, copied from its buffer. -/
def decapsSecret (k : ServerKem) (ct : List UInt8) : MemNet Secret := do
  use (.kem k.kem)
  if ct.length = k.kem.lengthCiphertext then
    use (.kem k.kem)
    let ok ← sys (.malloc .sharedSecret k.kem.lengthSharedSecret)
    let ss ← (if ok then sys (.oqsKemDecaps k.kem ct k.sk.1) else pure none : MemNet _)
    if ss.isSome then
      use (.kem k.kem)
      use (.buf .sharedSecret)
    net (freeIf ok .sharedSecret)
    return match ss with
      | some ss => .copy ss.1
      | none => .none
  else
    return .none

/-- The ciphertext, for profiles that have a KEM, and the KEM secret. The ciphertext is received
    into its buffer. -/
def recvCiphertext (e : Endian) (kem : Option ServerKem) : MemNet (Option Secret) := do
  match kem with
  | none => return some .none
  | some k =>
    match ← net (Conn.recv WireHeader.size) with
    | none =>
      net (freeSecretKey kem)
      return none
    | some bs =>
      let ctHdr := WireHeader.ofBytes e bs
      if ctHdr.magic ≠ wireMagic ∨ ctHdr.msgType ≠ wireMsgPqcCiphertext then
        net (freeSecretKey kem)
        return none
      if !(← sys (.malloc .ciphertext ctHdr.payloadLen)) then
        net (freeSecretKey kem)
        return none
      use (.buf .ciphertext)
      match ← net (Conn.recv ctHdr.payloadLen) with
      | none =>
        sys (.free .ciphertext)
        net (freeSecretKey kem)
        return none
      | some ct =>
        let secret ← decapsSecret k ct
        sys (.free .ciphertext)
        net (freeSecretKey kem)
        return some secret

/-- `handle_client_binary`. -/
def handleClientBinary (e : Endian) (hdrFirst : WireHeader) : MemNet ServerEnd := do
  match getComboById algorithmCombos hdrFirst.comboId with
  | none => net serverClose
  | some combo =>
    let some hello ← net (recvClientHello e) | net serverClose
    let some kem ← serverKeygen combo | net serverClose
    let some classical ← net (serverExchange combo kem hello.pub) | net serverClose
    let some () ← sendServerHello e combo kem classical | net serverClose
    let some qSecret ← recvCiphertext e kem | net serverClose
    net (serverFinish e combo hello classical.secret qSecret)

/-! ## Without the uses -/

section Erase

variable {e : Endian} {combo : AlgoCombo} {kem : Option ServerKem}

theorem erase_serverKeygen :
    UseOp.erase (serverKeygen combo) = Conn.lift (Dispatch.serverKeygen combo) := by
  rw [serverKeygen, Dispatch.serverKeygen]
  split
  · refine congrArg (Prog.call _) (funext fun kem => ?_)
    cases kem with
    | none => rfl
    | some kem =>
      refine congrArg (Prog.call _) (funext fun pk => congrArg (Prog.call _) (funext fun sk => ?_))
      cases pk with
      | false => cases sk <;> rfl
      | true =>
        cases sk with
        | false => rfl
        | true =>
          refine congrArg (Prog.call _) (funext fun pair => ?_)
          cases pair <;> rfl
  · rfl

theorem erase_copyPublicKey : UseOp.erase (copyPublicKey kem) = .ret () := by
  rw [copyPublicKey]
  split <;> rfl

theorem erase_sendServerHello {classical : ServerClassical} :
    UseOp.erase (sendServerHello e combo kem classical) =
      Dispatch.sendServerHello e combo kem classical := by
  simp [sendServerHello, Dispatch.sendServerHello, erase_copyPublicKey, use, Conn.monadLift_eq]

theorem erase_decapsSecret {k : ServerKem} {ct : List UInt8} :
    UseOp.erase (decapsSecret k ct) = Conn.lift (Dispatch.decapsSecret k ct) := by
  rw [decapsSecret, Dispatch.decapsSecret]
  split
  · refine congrArg (Prog.call _) (funext fun ok => ?_)
    cases ok with
    | false => rfl
    | true =>
      refine congrArg (Prog.call _) (funext fun ss => ?_)
      cases ss <;> rfl
  · rfl

theorem erase_recvCiphertext :
    UseOp.erase (recvCiphertext e kem) = Dispatch.recvCiphertext e kem := by
  cases kem with
  | none => rfl
  | some k =>
    refine congrArg (Prog.call _) (funext fun bs => ?_)
    cases bs with
    | none => rfl
    | some bs =>
      change UseOp.erase (if _ then _ else _) = if _ then _ else _
      by_cases hhdr : (WireHeader.ofBytes e bs).magic ≠ wireMagic ∨
          (WireHeader.ofBytes e bs).msgType ≠ wireMsgPqcCiphertext
      · simp only [if_pos hhdr]
        rfl
      · simp only [if_neg hhdr]
        refine congrArg (Prog.call _) (funext fun room => ?_)
        cases room with
        | false => rfl
        | true =>
          refine congrArg (Prog.call _) (funext fun ct => ?_)
          cases ct with
          | none => rfl
          | some ct =>
            refine (UseOp.erase_bind (decapsSecret k ct) _).trans ?_
            rw [erase_decapsSecret]
            rfl

/-- The handler without its uses. -/
theorem erase_handleClientBinary {hdrFirst : WireHeader} :
    UseOp.erase (handleClientBinary e hdrFirst) = Dispatch.handleClientBinary e hdrFirst := by
  rw [handleClientBinary, Dispatch.handleClientBinary]
  cases getComboById algorithmCombos hdrFirst.comboId with
  | none => rfl
  | some combo =>
    refine (UseOp.erase_bind _ _).trans ?_
    rw [UseOp.erase_lift]
    refine congrArg (_ >>= ·) (funext fun hello => ?_)
    obtain _ | hello := hello
    · rfl
    refine (UseOp.erase_bind _ _).trans ?_
    rw [erase_serverKeygen]
    refine congrArg (_ >>= ·) (funext fun kem => ?_)
    obtain _ | kem := kem
    · rfl
    refine (UseOp.erase_bind _ _).trans ?_
    rw [UseOp.erase_lift]
    refine congrArg (_ >>= ·) (funext fun classical => ?_)
    obtain _ | classical := classical
    · rfl
    refine (UseOp.erase_bind _ _).trans ?_
    rw [erase_sendServerHello]
    refine congrArg (_ >>= ·) (funext fun sent => ?_)
    obtain _ | sent := sent
    · rfl
    refine (UseOp.erase_bind _ _).trans ?_
    rw [erase_recvCiphertext]
    refine congrArg (_ >>= ·) (funext fun qSecret => ?_)
    obtain _ | qSecret := qSecret
    · rfl
    exact UseOp.erase_lift _

end Erase

/-! ## What is held -/

/-- The secret key and the KEM, if there are any. -/
def skOf : Option ServerKem → Multiset Resource
  | none => 0
  | some k => .kem k.kem ::ₘ {.buf .secretKey}

section Keeps

variable
  {ok : Prog.Event (UseOp (ConnOp UInt8 Prim) Resource) (UseOp.Res (ConnOp.Res Prim.Res)) → Prop}
  {ok' : Conn.Event UInt8 Prim Prim.Res → Prop} {ok'' : Prog.Event Prim Prim.Res → Prop}
  {held : Multiset Resource} {e : Endian} {combo : AlgoCombo} {kem : Option ServerKem}

attribute [local simp] primLedger Prim.uses Prim.releases Prim.acquires Ledger.Permits Ledger.next
  Ledger.Leaves freeIf use Conn.monadLift_eq

theorem keeps_recvClientHello (hsocket : .socket ∈ held) :
    netLedger.Keeps ok' (recvClientHello e) held fun _ held' => held' = held := by
  refine .of_all ?_ fun _ _ => rfl
  simp only [recvClientHello, Conn.recv_eq, Prog.call_bind, Prog.ret_bind, Prog.all_call]
  refine ⟨by simp [hsocket], fun bs => ?_⟩
  cases bs with
  | none => trivial
  | some bs =>
    simp only [Prog.all_ite]
    split
    · split
      · trivial
      · refine ⟨by simp [hsocket], fun pub => ?_⟩
        cases pub <;> trivial
    · trivial

theorem keeps_serverKeygen :
    netLedger.withUses.Keeps ok (serverKeygen combo) held fun r held' =>
      held' = r.elim 0 kemOf + held := by
  rw [serverKeygen, Ledger.keeps_ite]
  split
  · simp only [sys, net, Conn.sys_eq, UseOp.lift_call, UseOp.lift_ret, Prog.call_bind, Prog.ret_bind,
      Ledger.keeps_call]
    refine ⟨by simp, fun r _ => ?_⟩
    cases r with
    | none => simp
    | some kem =>
      simp only [use, Prog.op_eq, Prog.call_bind, Prog.ret_bind, Ledger.keeps_call]
      refine ⟨by simp, fun _ _ => ⟨by simp, fun pk _ => ⟨by simp, fun _ _ =>
        ⟨by simp, fun sk _ => ?_⟩⟩⟩⟩
      cases pk <;>
        cases sk
      case true.true =>
        simp only [Bool.and_self, if_true, Prog.call_bind, Prog.ret_bind, Ledger.keeps_call]
        refine ⟨by simp, fun pair _ => ?_⟩
        cases pair <;> simp [kemOf]
      all_goals simp
  · simp [kemOf]

/-- If there is no classical key, the KEM key pair is released. -/
theorem keeps_serverExchange {cliPub : List UInt8} :
    primLedger.Keeps ok'' (serverExchange combo kem cliPub) (kemOf kem + held) fun r held' =>
      held' = r.elim held fun c => pkeyOf c.priv + (kemOf kem + held) := by
  rw [serverExchange, Ledger.keeps_ite]
  split
  · refine keeps_cryptoGenerateKeypair.seq fun priv => ?_
    cases priv with
    | none => cases kem <;> simp [freePublicKey, freeSecretKey, kemOf]
    | some priv =>
      refine (keeps_cryptoExportPub (by simp)).seq fun pub => ?_
      refine (keeps_classicalSecret (by simp)).seq fun secret => ?_
      simp
  · simp

theorem keeps_copyPublicKey (h : ∀ k, kem = some k → .buf .publicKey ∈ held) :
    netLedger.withUses.Keeps ok (copyPublicKey kem) held fun _ held' => held' = held := by
  cases kem with
  | none => simp [copyPublicKey, kemPk]
  | some k => simp [copyPublicKey, h k rfl]

theorem keeps_sendServerHello {classical : ServerClassical} (hsocket : .socket ∈ held) :
    netLedger.withUses.Keeps ok (sendServerHello e combo kem classical)
      (pkeyOf classical.priv + (kemOf kem + held)) fun r held' =>
        held' = r.elim held fun _ => skOf kem + held := by
  simp only [sendServerHello, sys, net, Conn.sys_eq, UseOp.lift_call, UseOp.lift_ret,
    Prog.call_bind, Prog.ret_bind, Ledger.keeps_call]
  refine ⟨by simp, fun packet _ => ?_⟩
  obtain ⟨priv, pub, secret⟩ := classical
  cases packet with
  | false => cases kem <;> cases priv <;> simp [freePublicKey, freeSecretKey, freePkey, kemOf, skOf]
  | true =>
    simp only [use, Prog.op_eq, Bool.not_true, Bool.false_eq_true, if_false, Prog.call_bind,
      Prog.ret_bind, Ledger.keeps_call]
    refine ⟨by simp, fun _ _ => ?_⟩
    refine (keeps_copyPublicKey ?_).bind ?_
    · rintro k rfl
      simp [kemOf]
    rintro _ _ rfl
    cases kem <;>
      cases priv <;>
        simp [freePublicKey, freeSecretKey, freePkey, kemOf, skOf, hsocket]

theorem keeps_decapsSecret {k : ServerKem} {ct : List UInt8} (hkem : .kem k.kem ∈ held)
    (hsk : .buf .secretKey ∈ held) (hct : .buf .ciphertext ∈ held) :
    netLedger.withUses.Keeps ok (decapsSecret k ct) held fun _ held' => held' = held := by
  simp only [decapsSecret, use, Prog.op_eq, Prog.call_bind, Prog.ret_bind, Ledger.keeps_call]
  refine ⟨by simp [hkem], fun _ _ => ?_⟩
  rw [Ledger.keeps_ite]
  split
  · simp only [sys, net, Conn.sys_eq, UseOp.lift_call, UseOp.lift_ret, Prog.call_bind,
      Prog.ret_bind, Ledger.keeps_call]
    refine ⟨by simp [hkem], fun _ _ => ⟨by simp, fun room _ => ?_⟩⟩
    cases room with
    | false => simp
    | true =>
      simp only [if_true, Prog.call_bind, Prog.ret_bind, Ledger.keeps_call]
      refine ⟨by simp [hkem, hsk, hct], fun ss _ => ?_⟩
      cases ss <;> simp [hkem]
  · simp

theorem keeps_recvCiphertext (hsocket : .socket ∈ held) :
    netLedger.withUses.Keeps ok (recvCiphertext e kem) (skOf kem + held) fun _ held' =>
      held' = held := by
  cases kem with
  | none => simp [recvCiphertext, skOf]
  | some k =>
    simp only [recvCiphertext, sys, net, Conn.recv_eq, Conn.sys_eq, UseOp.lift_call, UseOp.lift_ret,
      Prog.call_bind, Prog.ret_bind, Ledger.keeps_call]
    refine ⟨by simp [hsocket], fun bs _ => ?_⟩
    cases bs with
    | none => simp [freeSecretKey, skOf]
    | some bs =>
      simp only [Ledger.keeps_ite]
      split
      · simp [freeSecretKey, skOf]
      · simp only [Ledger.keeps_call]
        refine ⟨by simp, fun room _ => ?_⟩
        cases room with
        | false => simp [freeSecretKey, skOf]
        | true =>
          simp only [use, Prog.op_eq, Bool.not_true, Bool.false_eq_true, if_false, Prog.call_bind,
            Prog.ret_bind, Ledger.keeps_call]
          refine ⟨by simp, fun _ _ => ⟨by simp [hsocket], fun ct _ => ?_⟩⟩
          cases ct with
          | none => simp [freeSecretKey, skOf]
          | some ct =>
            refine (keeps_decapsSecret (by simp [skOf]) (by simp [skOf]) (by simp [skOf])).seq
              fun secret => ?_
            simp [freeSecretKey, skOf]

theorem keeps_serverClose :
    netLedger.Keeps ok' serverClose (.socket ::ₘ held) fun _ held' => held' = held := by
  simp [serverClose]

theorem keeps_serverFinish {hello : ClientHello} {cSecret qSecret : Secret} :
    netLedger.Keeps ok' (serverFinish e combo hello cSecret qSecret) (.socket ::ₘ held)
      fun _ held' => held' = held := by
  refine keeps_deriveSessionKey.lift.seq fun key => ?_
  simp

/-- The handler releases the socket, and all it acquires. -/
theorem keeps_handleClientBinary {hdrFirst : WireHeader} :
    netLedger.withUses.Keeps ok (handleClientBinary e hdrFirst) {.socket}
      fun _ held' => held' = 0 := by
  have hclose : netLedger.withUses.Keeps ok (net serverClose) {.socket} fun _ held' => held' = 0 :=
    keeps_serverClose.withUses
  rw [handleClientBinary]
  cases getComboById algorithmCombos hdrFirst.comboId with
  | none => exact hclose
  | some combo =>
    refine (keeps_recvClientHello (by simp)).withUses.seq fun hello => ?_
    obtain _ | hello := hello
    · exact hclose
    refine keeps_serverKeygen.seq fun kem => ?_
    obtain _ | kem := kem
    · exact hclose
    refine keeps_serverExchange.lift.withUses.seq fun classical => ?_
    obtain _ | classical := classical
    · exact hclose
    refine (keeps_sendServerHello (by simp)).seq fun sent => ?_
    obtain _ | sent := sent
    · exact hclose
    refine (keeps_recvCiphertext (by simp)).seq fun qSecret => ?_
    obtain _ | qSecret := qSecret
    · exact hclose
    exact keeps_serverFinish.withUses

end Keeps

end InMemory

/-- The handler, with its uses, settles: it holds the socket at first, and nothing in the end. -/
theorem InMemory.settles_handleClientBinary {W : Type} (e : Endian) (hdrFirst : WireHeader)
    (h : Prog.Handler (ConnOp UInt8 Prim) (ConnOp.Res Prim.Res) W) (w : W) :
    netLedger.withUses.Settles {.socket}
      ((InMemory.handleClientBinary e hdrFirst).run (UseOp.handler h) w).trace 0 := by
  have hkeeps : netLedger.withUses.Keeps (fun _ => True)
      (InMemory.handleClientBinary e hdrFirst) {.socket} fun _ held' => held' = 0 :=
    InMemory.keeps_handleClientBinary
  obtain ⟨held, hsettles, rfl⟩ := hkeeps.run (h := UseOp.handler h) (fun _ _ => trivial) w
  exact hsettles

/-- The calls of the handler settle too, as it makes them without its uses. -/
theorem settles_handleClientBinary {W : Type} (e : Endian) (hdrFirst : WireHeader)
    (h : Prog.Handler (ConnOp UInt8 Prim) (ConnOp.Res Prim.Res) W) (w : W) :
    netLedger.Settles {.socket} ((handleClientBinary e hdrFirst).run h w).trace 0 := by
  rw [← InMemory.erase_handleClientBinary, UseOp.run_erase]
  exact (InMemory.settles_handleClientBinary e hdrFirst h w).called

/-- **The server releases all.** Whatever the client sends, wherever its stream is cut, and
    whatever each call answers, the handler uses nothing it has released, and has in the end
    released the socket and all it has acquired, each once. -/
theorem handle_client_binary_releases {W : Type} (e : Endian) (hdrFirst : WireHeader)
    (h : Prog.Handler (ConnOp UInt8 Prim) (ConnOp.Res Prim.Res) W) (w : W) :
    netLedger.withUses.Settles {.socket}
        ((InMemory.handleClientBinary e hdrFirst).run (UseOp.handler h) w).trace 0 ∧
      netLedger.withUses.released
          ((InMemory.handleClientBinary e hdrFirst).run (UseOp.handler h) w).trace =
        {.socket} + netLedger.withUses.acquired
          ((InMemory.handleClientBinary e hdrFirst).run (UseOp.handler h) w).trace := by
  have hsettles := InMemory.settles_handleClientBinary e hdrFirst h w
  exact ⟨hsettles, (add_zero _).symm.trans hsettles.conserve.symm⟩

end Dispatch

end HybridPqc
