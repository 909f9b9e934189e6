import HybridPqc.Lib.Fork
import HybridPqc.Lib.Uses
import HybridPqc.Baseline.Server
import HybridPqc.Resources

/-!
# The server of the JSON protocol and its keygen worker

`handle_client` of `c/server.c` forks a thread for the KEM key pair, and joins it at every
exit after that. Here is the handler with this thread, and with what it uses without calling
anything: the fields of its KEM, and the buffers it reads and writes
(`Threaded.handleClient`). The thread runs `server_pqc_keygen_worker`
(`serverPqcKeygenWorker`).

With the thread where it is joined, and without these uses, it is the handler as before
(`inline_handleClient`).
-/

namespace HybridPqc

open Dispatch (ServerKem ServerClassical)

namespace Baseline

/-- A program of the worker, with its uses of resources. -/
abbrev MemSys (α : Type) := Prog (UseOp Prim Resource) (UseOp.Res Prim.Res) α

/-- The operations of the handler, with its worker and its uses of resources. -/
abbrev ForkNetOp := ForkOp (Option CString) (UseOp (ConnOp (Option Json) Prim) Resource)

/-- The answers to them: the worker leaves the KEM key pair, if it succeeds. -/
abbrev ForkNetOp.Res : ForkNetOp → Type :=
  ForkOp.Res (UseOp.Res (ConnOp.Res Prim.Res)) (Option ServerKem)

/-- A program of the handler. -/
abbrev ForkNet (α : Type) := Prog ForkNetOp ForkNetOp.Res α

namespace Threaded

/-! ## The worker -/

/-- A call of the worker. -/
abbrev workerCall (q : Prim) : MemSys q.Res := UseOp.lift (call q)

/-- `server_pqc_keygen_worker`. The lengths are fields of the KEM. -/
def serverPqcKeygenWorker (pqcName : Option CString) : MemSys (Option ServerKem) := do
  match ← workerCall (.oqsKemNew pqcName) with
  | none => return none
  | some kem =>
    Prog.op (UseOp.use (.kem kem))
    let pk ← workerCall (.malloc .publicKey kem.lengthPublicKey)
    Prog.op (UseOp.use (.kem kem))
    let sk ← workerCall (.malloc .secretKey kem.lengthSecretKey)
    if !pk || !sk then
      UseOp.lift (freeIf pk .publicKey)
      UseOp.lift (freeIf sk .secretKey)
      workerCall (.oqsKemFree kem)
      return none
    match ← workerCall (.oqsKemKeypair kem) with
    | none =>
      workerCall (.free .publicKey)
      workerCall (.free .secretKey)
      workerCall (.oqsKemFree kem)
      return none
    | some (qPk, qSk) => return some ⟨kem, qPk, qSk⟩

/-! ## The handler -/

/-- A use of a resource. -/
def use (r : Resource) : ForkNet Unit := Prog.op (ForkOp.op (UseOp.use r))

/-- A part that uses nothing itself, and leaves the worker alone. -/
abbrev net {α : Type} (p : JsonNet α) : ForkNet α := Fork.lift (UseOp.lift p)

/-- Such a part that leaves the connection alone. -/
abbrev sys {α : Type} (p : Sys α) : ForkNet α := net (Conn.lift p)

/-- `pthread_join` of the worker, with what it has left. -/
def pthreadJoin (pqcName : Option CString) : ForkNet (Option ServerKem) :=
  Prog.op (ForkOp.join pqcName)

/-- Creating the worker, for profiles that have a KEM. -/
def spawnKeygen (combo : AlgoCombo) : ForkNet Bool :=
  if combo.HasKem then Prog.op (ForkOp.fork combo.pqcName) else return false

/-- Joining the worker, if there is one: the KEM key pair, unless it has failed. -/
def joinKeygen (combo : AlgoCombo) (spawned : Bool) : ForkNet (Option (Option ServerKem)) := do
  if spawned then
    match ← pthreadJoin combo.pqcName with
    | none => return none
    | some k => return some (some k)
  else
    return some none

/-- Joining the worker, if there is one, when nothing is to be kept of it. -/
def discardKeygen (combo : AlgoCombo) (spawned : Bool) : ForkNet Unit := do
  if spawned then
    match ← pthreadJoin combo.pqcName with
    | none => return ()
    | some k => sys (freeKem k)

/-- `OQS_KEM_decaps`: what is then in the buffer, also if it fails. -/
def oqsKemDecaps (k : ServerKem) (ct : List UInt8) : Sys (Bytes k.kem.lengthSharedSecret) := do
  match ← call (.oqsKemDecaps k.kem ct k.sk.1) with
  | some ss => return ss
  | none => call (.contents .sharedSecret k.kem.lengthSharedSecret)

/-- The KEM secret, copied from its buffer, if there is memory for it. -/
def decapsUnchecked (k : ServerKem) (ct : List UInt8) : ForkNet (Option Secret) := do
  use (.kem k.kem)
  if !(← sys (call (.malloc .sharedSecret k.kem.lengthSharedSecret))) then
    return none
  let ss ← sys (oqsKemDecaps k ct)
  use (.kem k.kem)
  use (.buf .sharedSecret)
  sys (call (.free .sharedSecret))
  return some (.copy ss.1)

/-- The ciphertext, decoded to its buffer, and the KEM secret. -/
def recvCiphertext (k : ServerKem) : ForkNet KemOutcome := do
  match ← net recvJsonLine with
  | none =>
    sys (freeKem k)
    return .closed
  | some ctMsg =>
    use (.kem k.kem)
    let room ← sys (call (.malloc .ciphertext k.kem.lengthCiphertext))
    use (.kem k.kem)
    (if room then use (.buf .ciphertext) else pure () : ForkNet Unit)
    let ct ← sys (decodeCiphertext room k ctMsg)
    use (.kem k.kem)
    match ct with
    | none =>
      sys (freeIf room .ciphertext)
      sys (freeKem k)
      return .closed
    | some ct =>
      match ← decapsUnchecked k ct with
      | none => return .crashed
      | some qSecret =>
        sys (freeIf room .ciphertext)
        sys (freeKem k)
        return .ok qSecret

/-- Sending the keys, and the KEM part, for profiles that have one. The public key and its
    length are read even where there was no worker to make them. -/
def exchangeKeys (combo : AlgoCombo) (srvPub : List UInt8) (kem : Option ServerKem) :
    ForkNet KemOutcome := do
  if combo.HasKem then
    match kem with
    | none => return .crashed
    | some k =>
      use (.kem k.kem)
      use (.buf .publicKey)
      net (sendKeys srvPub k [])
      recvCiphertext k
  else
    net (sendClassicalKey srvPub [])
    return .ok .none

/-- The handshake of a known suite, once the `ProfileSelect` is deleted. -/
def serve (combo : AlgoCombo) (sel : Parsed) (kdfType saltB64 : Option CString) :
    ForkNet JsonServerEnd := do
  let salt ← sys (decodeSalt sel saltB64)
  let spawned ← spawnKeygen combo
  match ← net (recvClassical combo) with
  | none =>
    discardKeygen combo spawned
    net jsonServerClose
  | some classical =>
    match ← joinKeygen combo spawned with
    | none =>
      sys (freePkey classical.priv)
      net jsonServerClose
    | some kem =>
      match ← exchangeKeys combo classical.pub kem with
      | .crashed => return .crashed
      | .closed =>
        sys (freePkey classical.priv)
        net jsonServerClose
      | .ok qSecret =>
        sys (freePkey classical.priv)
        net (serverFinish combo sel kdfType salt classical.secret qSecret)

/-- `handle_client`. -/
def handleClient : ForkNet JsonServerEnd := do
  match ← net recvJsonLine with
  | none => net jsonServerClose
  | some sel =>
    let comboId := sel.getInt "combo_id" (-1)
    let kdfType := sel.getStr "kdf_type"
    let saltB64 := sel.getStr "salt"
    -- the strings are still pointed to
    let sel := Parsed.delete ⟨sel, false⟩
    match getComboById algorithmCombos comboId with
    | none => net jsonServerClose
    | some combo => serve combo sel kdfType saltB64

/-! ## With the worker where it is joined -/

/-- The program with the worker where it is joined, and without its uses. -/
def inline {α : Type} (p : ForkNet α) : JsonNet α :=
  p.subst fun
    | .op (.op o) => Prog.op o
    | .op (.use _) => pure ()
    | .fork _ => Conn.sys Prim.pthreadCreate
    | .join pqcName => Conn.lift (pqcKeygenWorker pqcName)

section Inline

variable {α β : Type} {combo : AlgoCombo} {k : ServerKem}

@[simp] theorem inline_ret (a : α) : inline (.ret a : ForkNet α) = .ret a := rfl

@[simp] theorem inline_bind (p : ForkNet α) (f : α → ForkNet β) :
    inline (p >>= f) = inline p >>= fun a => inline (f a) := Prog.subst_bind _ p f

@[simp] theorem inline_ite {c : Prop} [Decidable c] (p q : ForkNet α) :
    inline (if c then p else q) = if c then inline p else inline q := apply_ite inline c p q

@[simp] theorem inline_use (r : Resource) : inline (use r) = .ret () := rfl

@[simp] theorem inline_net (p : JsonNet α) : inline (net p) = p := by
  induction p with
  | ret a => rfl
  | call o k ih => exact congrArg (Prog.call o) (funext ih)

theorem inline_spawnKeygen :
    inline (spawnKeygen combo) = Conn.lift (Baseline.spawnKeygen combo) := by
  rw [spawnKeygen, Baseline.spawnKeygen]
  split <;> rfl

theorem inline_joinKeygen (spawned : Bool) :
    inline (joinKeygen combo spawned) = Conn.lift (Baseline.joinKeygen combo spawned) := by
  cases spawned with
  | false => rfl
  | true =>
    refine Eq.trans ?_ (Conn.lift_bind _ _).symm
    refine congrArg (_ >>= ·) (funext fun kem => ?_)
    cases kem <;> rfl

theorem inline_discardKeygen (spawned : Bool) :
    inline (discardKeygen combo spawned) = Conn.lift (Baseline.discardKeygen combo spawned) := by
  cases spawned with
  | false => rfl
  | true =>
    refine Eq.trans ?_ (Conn.lift_bind _ _).symm
    refine congrArg (_ >>= ·) (funext fun kem => ?_)
    cases kem with
    | none => rfl
    | some k => exact inline_net _

theorem inline_decapsUnchecked (ct : List UInt8) :
    inline (decapsUnchecked k ct) = Conn.lift (HybridPqc.decapsUnchecked k ct) := by
  refine congrArg (Prog.call _) (funext fun room => ?_)
  cases room with
  | false => rfl
  | true =>
    refine congrArg (Prog.call _) (funext fun ss => ?_)
    cases ss <;> rfl

theorem inline_free {room : Bool} (outcome : KemOutcome) :
    inline (do
      sys (freeIf room .ciphertext)
      sys (freeKem k)
      return outcome) = (do
        (freeIf room .ciphertext : Sys _)
        (freeKem k : Sys _)
        return outcome : JsonNet KemOutcome) := by
  rw [inline_bind, inline_net]
  refine congrArg (_ >>= ·) (funext fun _ => ?_)
  rw [inline_bind, inline_net]
  rfl

theorem inline_recvCiphertext :
    inline (recvCiphertext k) = Baseline.recvCiphertext k := by
  rw [recvCiphertext, Baseline.recvCiphertext, inline_bind, inline_net]
  refine congrArg (_ >>= ·) (funext fun ctMsg => ?_)
  cases ctMsg with
  | none => rfl
  | some ctMsg =>
    refine congrArg (Prog.call _) (funext fun room => ?_)
    have hroom : inline (if room then use (.buf .ciphertext) else pure ()) = .ret () := by
      cases room <;> rfl
    refine (inline_bind (if room then use (.buf .ciphertext) else pure ()) _).trans ?_
    rw [hroom, Prog.ret_bind]
    refine (inline_bind (sys (decodeCiphertext room k ctMsg)) _).trans ?_
    rw [inline_net]
    refine congrArg (_ >>= ·) (funext fun ct => ?_)
    cases ct with
    | none => exact inline_free .closed
    | some ct =>
      refine (inline_bind (decapsUnchecked k ct) _).trans ?_
      rw [inline_decapsUnchecked]
      refine congrArg (_ >>= ·) (funext fun qSecret => ?_)
      cases qSecret with
      | none => rfl
      | some qSecret => exact inline_free (.ok qSecret)

theorem inline_exchangeKeys {srvPub : List UInt8} {kem : Option ServerKem} :
    inline (exchangeKeys combo srvPub kem) = Baseline.exchangeKeys combo srvPub kem := by
  unfold exchangeKeys Baseline.exchangeKeys
  split
  · cases kem with
    | none => rfl
    | some k =>
      refine (inline_bind (net (sendKeys srvPub k [])) _).trans ?_
      rw [inline_net, inline_recvCiphertext]
  · exact (inline_bind (net (sendClassicalKey srvPub [])) _).trans (by rw [inline_net]; rfl)

theorem inline_serve {sel : Parsed} {kdfType saltB64 : Option CString} :
    inline (serve combo sel kdfType saltB64) = Baseline.serve combo sel kdfType saltB64 := by
  rw [serve, Baseline.serve, inline_bind, inline_net]
  refine congrArg (_ >>= ·) (funext fun salt => ?_)
  rw [inline_bind, inline_spawnKeygen]
  refine congrArg (_ >>= ·) (funext fun spawned => ?_)
  rw [inline_bind, inline_net]
  refine congrArg (_ >>= ·) (funext fun classical => ?_)
  cases classical with
  | none => rw [inline_bind, inline_discardKeygen, inline_net]; rfl
  | some classical =>
    rw [inline_bind, inline_joinKeygen]
    refine congrArg (_ >>= ·) (funext fun kem => ?_)
    cases kem with
    | none => rw [inline_bind, inline_net, inline_net]; rfl
    | some kem =>
      rw [inline_bind, inline_exchangeKeys]
      refine congrArg (_ >>= ·) (funext fun outcome => ?_)
      cases outcome with
      | crashed => rfl
      | closed => rw [inline_bind, inline_net, inline_net]; rfl
      | ok qSecret => rw [inline_bind, inline_net, inline_net]; rfl

/-- With the worker where it is joined, it is the handler as before. -/
theorem inline_handleClient : inline handleClient = Baseline.handleClient := by
  rw [handleClient, Baseline.handleClient, inline_bind, inline_net]
  refine congrArg (_ >>= ·) (funext fun sel => ?_)
  cases sel with
  | none => exact inline_net _
  | some sel =>
    dsimp only
    cases getComboById algorithmCombos (sel.getInt "combo_id" (-1)) with
    | none => exact inline_net _
    | some combo => exact inline_serve

/-- The worker without its uses. -/
theorem erase_serverPqcKeygenWorker (pqcName : Option CString) :
    UseOp.erase (serverPqcKeygenWorker pqcName) = pqcKeygenWorker pqcName := by
  refine congrArg (Prog.call _) (funext fun kem => ?_)
  cases kem with
  | none => rfl
  | some kem =>
    refine congrArg (Prog.call _) (funext fun pk => congrArg (Prog.call _) (funext fun sk => ?_))
    cases pk with
    | false => cases sk <;> rfl
    | true =>
      cases sk with
      | false => rfl
      | true =>
        refine congrArg (Prog.call _) (funext fun pair => ?_)
        cases pair <;> rfl

end Inline

end Threaded

end Baseline

end HybridPqc
