import HybridPqc.Lib.Base64
import HybridPqc.KemCalls
import HybridPqc.JsonServerRuns
import HybridPqc.Dispatch.Client

/-!
# Fields of a fixed size

`b64_decode` returns no more than the size of the buffer it is given, so that a caller that
compares what it returns with that size takes longer texts, cut off
(`fixed_size_fields_iff`).
-/

namespace HybridPqc

open Dispatch (ServerKem ServerClassical)

/-! ## Decoding -/

/-- The BIOs that read a text are created. -/
def CreatesBio (env : PrimEnv) (text : CString) : Prop :=
  env (.bioNewBase64 text) = true ∧ env (.bioNewMemBuf (memBuf text)) = true

instance (env : PrimEnv) (text : CString) : Decidable (CreatesBio env text) :=
  inferInstanceAs (Decidable (_ ∧ _))

/-- `BIO_read` returns the first bytes of what a text is decoded to. -/
def ReadsBase64 (env : PrimEnv) : Prop :=
  ∀ text bs maxLen, Base64.decode text = some bs → text ≠ [] →
    (env (.bioRead text maxLen)).map Subtype.val = some (bs.take maxLen)

/-- Where there is no text, it returns no bytes. -/
def ReadsEmpty (env : PrimEnv) : Prop :=
  ∀ maxLen, (env (.bioRead [] maxLen)).map Subtype.val = some []

/-- If `b64_decode` returns a length, it is that of all the bytes of the text. -/
def DecodesWhole (env : PrimEnv) (text : CString) (maxLen : ℕ) : Prop :=
  ∀ bs, (b64Decode text maxLen).eval env = some bs → Base64.decode text = some bs

/-- As an `int`, the length of a text is that of all of it, or negative. -/
def FitsMemBuf (text : CString) : Prop := text.length < 2 ^ 32 ∨ 2 ^ 31 ≤ text.length % 2 ^ 32

/-- The bytes of what is read of a text. -/
def heldBytes (text : CString) : List UInt8 := (Base64.decode (memBuf text)).getD []

section Decode

variable {env : PrimEnv} {text : CString} {bs : List UInt8} {maxLen : ℕ}

theorem decode_memBuf (hdecode : Base64.decode text = some bs) :
    Base64.decode (memBuf text) = some (heldBytes text) := by
  rw [heldBytes, memBuf_eq]
  split
  · rw [hdecode]
    rfl
  · have hgroups := (Base64.length_of_decode hdecode).1
    obtain ⟨n, hn⟩ : ∃ n, text.length % 2 ^ 32 = 4 * n := ⟨text.length % 2 ^ 32 / 4, by omega⟩
    rw [hn, Base64.decode_take hdecode n]
    rfl

theorem heldBytes_eq (hdecode : Base64.decode text = some bs) (hfits : FitsMemBuf text) :
    heldBytes text = bs := by
  rw [heldBytes, memBuf_eq_self_iff.2 hfits, hdecode, Option.getD_some]

/-- What is read only in part is decoded to fewer bytes, and is longer than any buffer. -/
theorem length_heldBytes_lt (hdecode : Base64.decode text = some bs) (hfits : ¬FitsMemBuf text) :
    (heldBytes text).length < bs.length ∧ 2 ^ 31 ≤ bs.length := by
  have hlen := Base64.length_of_decode hdecode
  have hheld := Base64.length_of_decode (decode_memBuf hdecode)
  rw [FitsMemBuf] at hfits
  rw [memBuf_eq, if_neg (fun h => hfits (.inr h)), List.length_take] at hheld
  omega

theorem eval_b64Decode_cons {c : UInt8} :
    (b64Decode (some (c :: text)) maxLen).eval env =
      if CreatesBio env (c :: text) then
        (bioRead (memBuf (c :: text)) true (sizeToInt maxLen)).eval env
      else none := eval_b64DecodeTo_cons

theorem eval_b64Decode_of_reads (hbio : CreatesBio env text) (hnil : text = [] → bs = [])
    (hread : text ≠ [] → ∀ n, (env (.bioRead (memBuf text) n)).map Subtype.val =
      some (bs.take n)) :
    (b64Decode text maxLen).eval env = some (bs.take (sizeToInt maxLen).toNat) := by
  cases text with
  | nil =>
    rw [hnil rfl, List.take_nil]
    rfl
  | cons c text =>
    rw [eval_b64Decode_cons, if_pos hbio, eval_bioRead]
    split
    case isTrue hneg => rw [Int.toNat_of_nonpos hneg.le, List.take_zero]
    case isFalse => exact hread nofun _

theorem eval_b64Decode (hreads : ReadsBase64 env) (hempty : ReadsEmpty env)
    (hdecode : Base64.decode text = some bs) (hbio : CreatesBio env text) :
    (b64Decode text maxLen).eval env =
      some ((heldBytes text).take (sizeToInt maxLen).toNat) := by
  refine eval_b64Decode_of_reads hbio (fun hnil => by rw [hnil]; rfl) fun _ n => ?_
  have hheld := decode_memBuf hdecode
  by_cases hnil : memBuf text = []
  · rw [hnil] at hheld ⊢
    rw [← Option.some.inj hheld, List.take_nil, hempty n]
  · exact hreads _ _ n hheld hnil

theorem eval_b64Decode_of_fits (hreads : ReadsBase64 env) (hdecode : Base64.decode text = some bs)
    (hbio : CreatesBio env text) (hfits : FitsMemBuf text) (hlen : maxLen < 2 ^ 31) :
    (b64Decode text maxLen).eval env = some (bs.take maxLen) := by
  have hbuf := memBuf_eq_self_iff.2 hfits
  rw [eval_b64Decode_of_reads hbio, sizeToInt_of_lt hlen, Int.toNat_natCast]
  · rintro rfl
    exact (Option.some.inj hdecode).symm
  · intro hne n
    rw [hbuf]
    exact hreads _ _ n hdecode hne

/-- No more bytes are decoded than fit. -/
theorem length_b64Decode_le {b64 : Option CString} (hlen : maxLen < 2 ^ 31)
    (h : (b64Decode b64 maxLen).eval env = some bs) : bs.length ≤ maxLen := by
  match b64 with
  | none | some [] =>
    obtain rfl : [] = bs := Option.some.inj h
    exact Nat.zero_le _
  | some (c :: text) =>
    rw [eval_b64Decode_cons] at h
    split at h
    · rw [eval_bioRead_of_lt hlen] at h
      obtain ⟨data, -, rfl⟩ := Option.map_eq_some_iff.1 h
      exact data.2
    · cases h

/-- The bytes are all there exactly if the text is read to its end, and there are not more of
    them than fit. -/
theorem decodesWhole_iff (hreads : ReadsBase64 env) (hempty : ReadsEmpty env)
    (hdecode : Base64.decode text = some bs) :
    DecodesWhole env text maxLen ↔
      (CreatesBio env text → FitsMemBuf text ∧ bs.length ≤ (sizeToInt maxLen).toNat) := by
  rw [DecodesWhole, hdecode]
  constructor
  · intro h hbio
    have hwhole := h _ (eval_b64Decode hreads hempty hdecode hbio)
    have hlen := congrArg List.length (Option.some.inj hwhole)
    rw [List.length_take] at hlen
    have hfits : FitsMemBuf text := by
      by_contra hfits
      have hlt := (length_heldBytes_lt hdecode hfits).1
      omega
    rw [heldBytes_eq hdecode hfits] at hlen
    exact ⟨hfits, by omega⟩
  · intro h bs' heval
    by_cases hbio : CreatesBio env text
    · obtain ⟨hfits, hlen⟩ := h hbio
      rwa [eval_b64Decode hreads hempty hdecode hbio, heldBytes_eq hdecode hfits,
        List.take_of_length_le hlen] at heval
    · cases text with
      | nil =>
        obtain rfl : [] = bs := Option.some.inj hdecode
        exact heval
      | cons c text =>
        rw [eval_b64Decode_cons, if_neg hbio] at heval
        cases heval

/-- A length is compared with `n` in what is decoded as in the bytes of the text, exactly if
    these are not more, or those are fewer. -/
theorem compare_heldBytes_iff {n : ℕ} (hdecode : Base64.decode text = some bs) (hn : n < 2 ^ 31) :
    ((n ≤ (heldBytes text).length) ↔ bs.length = n) ↔
      bs.length ≤ n ∨ (heldBytes text).length < n := by
  by_cases hfits : FitsMemBuf text
  · rw [heldBytes_eq hdecode hfits]
    omega
  · have hlt := length_heldBytes_lt hdecode hfits
    omega

end Decode

/-! ## What decapsulates -/

section Only

variable {env : JsonEnv} {combo : AlgoCombo} {k : ServerKem} {sel : Parsed}
  {saltB64 : Option CString}

theorem all_load {s : CString} {use : StringUse} : (sel.load s use).All NotKem := by
  rw [Parsed.load, Prog.all_ite]
  split
  · simp [NotKem]
  · trivial

theorem all_decodeSalt : (decodeSalt sel saltB64).All NotKem := by
  cases saltB64 with
  | none => trivial
  | some s =>
    refine .bind all_load fun text => ?_
    rw [Prog.all_ite]
    split
    · exact .bind all_load fun text => .bind all_b64Decode fun salt => trivial
    · trivial

theorem all_pqcKeygenWorker {name : Option CString} : (pqcKeygenWorker name).All NotKem := by
  simp [pqcKeygenWorker, freeIf, NotKem, Option.forall]

theorem only_jsonServerClose : Conn.Only NotKem jsonServerClose := by simp [jsonServerClose]

theorem only_recvClientPub : Conn.Only NotKem recvClientPub := by
  refine .bind only_recvJsonLine fun hello => ?_
  cases hello with
  | none => trivial
  | some hello => exact .bind (Conn.only_lift.2 all_b64Decode) fun _ => trivial

theorem only_sendKeys {srvPub : List UInt8} {more : List (CString × Json)} :
    Conn.Only NotKem (sendKeys srvPub k more) := by
  refine .bind (Conn.only_lift.2 ?_) fun _ => .bind (Conn.only_lift.2 all_b64Encode) fun _ =>
    .bind only_sendJsonLine fun _ => .bind (Conn.only_lift.2 all_freeIf) fun _ =>
      Conn.only_lift.2 all_freeIf
  change Prog.All NotKem (if srvPub.length > 0 then b64Encode srvPub else pure none)
  rw [Prog.all_ite]
  split
  · exact all_b64Encode
  · trivial

theorem all_derive {kdf : Kdf} {ikm : List UInt8} {info : CString} :
    (kdf.derive ikm info).All NotKem := by
  cases kdf <;> simp [Kdf.derive, cryptoBlake3Kdf, cryptoHkdfSha256, NotKem]

namespace Baseline

theorem only_recvClassical : Conn.Only NotKem (recvClassical combo) := by
  rw [recvClassical, Conn.only_ite]
  split
  swap
  · trivial
  refine .bind only_recvClientPub fun cliPub => ?_
  cases cliPub with
  | none => trivial
  | some cliPub =>
    refine Conn.only_lift.2 (.bind all_cryptoGenerateKeypair fun srvPriv => ?_)
    cases srvPriv with
    | none => trivial
    | some srvPriv =>
      refine .bind all_cryptoExportPub fun srvPub => ?_
      cases srvPub with
      | none => simp [NotKem]
      | some srvPub =>
        refine .bind all_cryptoLoadPub fun peerPub => ?_
        cases peerPub with
        | none => simp [NotKem]
        | some peerPub =>
          refine .bind all_cryptoDeriveEcdhSecret fun z => ?_
          simp [NotKem]

theorem all_spawnKeygen : (spawnKeygen combo).All NotKem := by
  simp [spawnKeygen, NotKem]

theorem all_joinKeygen {spawned : Bool} : (joinKeygen combo spawned).All NotKem := by
  rw [joinKeygen, Prog.all_ite]
  split
  · refine .bind all_pqcKeygenWorker fun k => ?_
    cases k <;> trivial
  · trivial

theorem only_serverFinish {kdfType : Option CString} {salt : Option (List UInt8)}
    {cSecret qSecret : Secret} :
    Conn.Only NotKem (serverFinish combo sel kdfType salt cSecret qSecret) := by
  refine .bind (Conn.only_lift.2 ?_) fun kdf => .bind (Conn.only_lift.2 all_derive) fun _ =>
    .bind only_sendJsonLine fun _ => by simp
  cases kdfType with
  | none => trivial
  | some s => exact .bind all_load fun _ => trivial

end Baseline

namespace Dispatch

theorem all_freePublicKey {kem : Option ServerKem} : (freePublicKey kem).All NotKem := by
  cases kem <;> simp [freePublicKey, NotKem]

theorem all_freeSecretKey {kem : Option ServerKem} : (freeSecretKey kem).All NotKem := by
  cases kem <;> simp [freeSecretKey, NotKem]

theorem all_serverKeygen : (serverKeygen combo).All NotKem := by
  simp [serverKeygen, freeIf, NotKem, Option.forall]

theorem all_serverExchange {kem : Option ServerKem} {cliPub : List UInt8} :
    (serverExchange combo kem cliPub).All NotKem := by
  rw [serverExchange, Prog.all_ite]
  split
  swap
  · trivial
  refine .bind all_cryptoGenerateKeypair fun srvPriv => ?_
  cases srvPriv with
  | none => exact .bind all_freePublicKey fun _ => .bind all_freeSecretKey fun _ => trivial
  | some srvPriv => exact .bind all_cryptoExportPub fun _ => .bind all_classicalSecret fun _ => trivial

theorem only_recvClassicalJson {kem : Option ServerKem} :
    Conn.Only NotKem (recvClassicalJson combo kem) := by
  rw [recvClassicalJson, Conn.only_ite]
  split
  swap
  · trivial
  refine .bind only_recvClientPub fun cliPub => ?_
  cases cliPub with
  | none =>
    exact .bind (Conn.only_lift.2 all_freePublicKey) fun _ =>
      .bind (Conn.only_lift.2 all_freeSecretKey) fun _ => trivial
  | some cliPub => exact Conn.only_lift.2 all_serverExchange

theorem only_serverFinishJson {dmode : DispatchMode} {t₀ : ℚ} {kdf : Kdf}
    {cSecret qSecret : Secret} :
    Conn.Only NotKem (serverFinishJson combo dmode t₀ kdf cSecret qSecret) := by
  refine .bind (Conn.only_lift.2 all_derive) fun _ => ?_
  simp only [Conn.sys_eq, Prog.call_bind, Prog.ret_bind, Conn.only_call_sys]
  exact ⟨by simp [NotKem], fun _ => .bind only_sendJsonLine fun _ => by simp⟩

end Dispatch

end Only

/-! ## The servers of the JSON protocol -/

variable (env : JsonEnv) (combo : AlgoCombo) (rest : List (Option Json)) (k : ServerKem)
  (text : CString)

/-- The server decapsulates a ciphertext. -/
def Decapsulates (server : JsonNet JsonServerEnd) (s : List (Option Json)) : Prop :=
  ∃ kem ct sk, env.Called s server (.oqsKemDecaps kem ct sk)

/-- The server gets to a message with a ciphertext for its KEM key pair. -/
structure SendsCiphertext : Prop where
  goes : GoesThrough env combo rest
  kem : combo.HasKem
  worker : (pqcKeygenWorker combo.pqcName).eval env.sys = some k
  message : ∃ ctMsg, ciphertextMessage combo rest = some ctMsg ∧ ctMsg.getStr "ct" = some text

/-- The classical exchange works, as the server of `c` asks. -/
def ExchangeChecked : Prop :=
  combo.HasClassical → ∀ cliPub srvPriv, clientPub env rest = some cliPub →
    (cryptoGenerateKeypair .our combo.classicalCurve).eval env.sys = some srvPriv →
      ExchangeWorks env combo cliPub srvPriv

/-- `b64_decode` returns the length of the ciphertexts of the KEM. -/
def DecodesTo : Prop :=
  ∃ ct, (b64Decode text k.kem.lengthCiphertext).eval env.sys = some ct ∧
    ct.length = k.kem.lengthCiphertext

section Servers

variable {env combo rest k text} {ctMsg : Json} {s : List (Option Json)}

theorem ciphertextDecodes_iff (hct : ctMsg.getStr "ct" = some text) :
    CiphertextDecodes env k ctMsg ↔ DecodesTo env k text := by
  rw [CiphertextDecodes, hct, DecodesTo]

/-- A part that makes no KEM operation does not decapsulate. -/
theorem not_called_of_notKem {α : Type} {p : JsonNet α} (hp : Conn.Only NotKem p) {kem : OqsKem}
    {ct sk : List UInt8} : ¬env.Called s p (.oqsKemDecaps kem ct sk) :=
  fun h => (h.of_only _ _ hp).2 kem ct sk rfl

theorem called_bind_of_notKem {α β : Type} {p : JsonNet α} {f : α → JsonNet β}
    (hp : Conn.Only NotKem p) {kem : OqsKem} {ct sk : List UInt8} :
    env.Called s (p >>= f) (.oqsKemDecaps kem ct sk) ↔
      env.Called (env.obs s p).rest (f (env.obs s p).val) (.oqsKemDecaps kem ct sk) := by
  rw [ConnEnv.called_bind, or_iff_right (not_called_of_notKem hp)]

theorem not_called_of_all {α : Type} {p : Sys α} (hp : p.All NotKem) {kem : OqsKem}
    {ct sk : List UInt8} : ¬p.Called env.sys (.oqsKemDecaps kem ct sk) :=
  fun h => (h.of_all hp).2 kem ct sk rfl

theorem called_decapsUnchecked (h : HasRoom env) (ct : List UInt8) :
    (decapsUnchecked k ct).Called env.sys (.oqsKemDecaps k.kem ct k.sk.1) := by
  simp [decapsUnchecked, h.malloc]

theorem all_freeKem : (freeKem k).All NotKem := by simp [freeKem, NotKem]

theorem all_decodeCiphertext {room : Bool} : (decodeCiphertext room k ctMsg).All NotKem :=
  .bind all_b64Decode fun _ => trivial

/-- The part of the server of `c` that decapsulates does so if the text is decoded to the
    length of the ciphertexts of the KEM. -/
theorem Baseline.called_recvCiphertext (h : HasRoom env) (hmsg : s.head?.join = some ctMsg) :
    (∃ kem ct sk, env.Called s (recvCiphertext k) (.oqsKemDecaps kem ct sk)) ↔
      CiphertextDecodes env k ctMsg := by
  obtain ⟨reads, hobs⟩ := @obs_recvJsonLine env s
  rw [← eval_decodeCiphertext]
  simp only [recvCiphertext, ConnEnv.called_bind, hobs, hmsg, Conn.monadLift_eq, Conn.sys_eq,
    Prog.call_bind, Prog.ret_bind, ConnEnv.called_call_sys, ConnEnv.obs_lift, h.malloc,
    not_called_of_notKem only_recvJsonLine, reduceCtorEq, false_or]
  cases hct : (decodeCiphertext true k ctMsg).eval env.sys with
  | none =>
    simp [not_called_of_all all_decodeCiphertext, not_called_of_all all_freeIf,
      not_called_of_all all_freeKem]
  | some ct =>
    simp only [ConnEnv.called_bind, ConnEnv.called_lift]
    exact ⟨fun _ => rfl, fun _ => ⟨_, _, _, .inr (.inl (called_decapsUnchecked h ct))⟩⟩

/-- So does that of the JSON path. -/
theorem Dispatch.called_recvCiphertextJson (h : HasRoom env) (hmsg : s.head?.join = some ctMsg) :
    (∃ kem ct sk, env.Called s (recvCiphertextJson k) (.oqsKemDecaps kem ct sk)) ↔
      CiphertextDecodes env k ctMsg := by
  obtain ⟨reads, hobs⟩ := @obs_recvJsonLine env s
  rw [← eval_decodeCiphertext]
  simp only [recvCiphertextJson, ConnEnv.called_bind, hobs, hmsg, Conn.monadLift_eq, Conn.sys_eq,
    Prog.call_bind, Prog.ret_bind, ConnEnv.called_call_sys, ConnEnv.obs_lift, h.malloc,
    not_called_of_notKem only_recvJsonLine, reduceCtorEq, false_or]
  cases hct : (decodeCiphertext true k ctMsg).eval env.sys with
  | none =>
    simp [not_called_of_all all_decodeCiphertext, not_called_of_all all_freeIf,
      not_called_of_all all_freeKem]
  | some ct =>
    simp only [ConnEnv.called_bind, ConnEnv.called_lift]
    exact ⟨fun _ => rfl, fun _ => ⟨_, _, _, .inr (.inl (called_decapsUnchecked h ct))⟩⟩

variable {sel : Json}

namespace Baseline

theorem called_serve (h : HasRoom env) (hsends : SendsCiphertext env combo rest k text)
    (hclassical : ExchangeChecked env combo rest) {sel : Parsed} {kdfType saltB64 : Option CString}
    {kem : OqsKem} {ct sk : List UInt8} :
    env.Called rest (serve combo sel kdfType saltB64) (.oqsKemDecaps kem ct sk) ↔
      env.Called (afterClassical combo rest) (recvCiphertext k) (.oqsKemDecaps kem ct sk) := by
  have hparts : (env.obs rest (recvClassical combo)).val.isSome := by
    refine isSome_recvClassical.2 fun hc => ?_
    obtain ⟨cliPub, srvPriv, hpub, hgen⟩ := hsends.goes.classical hc
    exact ⟨cliPub, srvPriv, hpub, hgen, hclassical hc cliPub srvPriv hpub hgen⟩
  obtain ⟨reads, hrecv⟩ := @obs_recvClassical env combo rest
  have hjoin := @eval_joinKeygen_of_room env combo h
  rw [if_pos hsends.kem, hsends.worker] at hjoin
  obtain ⟨classical, hval⟩ := Option.isSome_iff_exists.1 hparts
  have hrest : (env.obs rest (recvClassical combo)).rest = afterClassical combo rest := by rw [hrecv]
  obtain ⟨sent, hsent⟩ := @obs_sendKeys env (afterClassical combo rest) k classical.pub []
  simp only [serve, Conn.monadLift_eq]
  rw [called_bind_of_notKem (Conn.only_lift.2 all_decodeSalt), ConnEnv.obs_lift,
    called_bind_of_notKem (Conn.only_lift.2 all_spawnKeygen), ConnEnv.obs_lift,
    called_bind_of_notKem only_recvClassical, hval, hrest]
  dsimp only
  rw [called_bind_of_notKem (Conn.only_lift.2 all_joinKeygen), ConnEnv.obs_lift, hjoin]
  dsimp only [Option.map_some]
  rw [ConnEnv.called_bind, exchangeKeys, if_pos hsends.kem, called_bind_of_notKem only_sendKeys,
    hsent, or_iff_left]
  -- nothing after the ciphertext decapsulates
  generalize (env.obs _ _).val = outcome
  refine not_called_of_notKem ?_
  cases outcome with
  | crashed => trivial
  | closed => exact .bind (Conn.only_lift.2 all_freePkey) fun _ => only_jsonServerClose
  | ok qSecret => exact .bind (Conn.only_lift.2 all_freePkey) fun _ => only_serverFinish

/-- The server of `c` decapsulates a ciphertext that is decoded to the right length. -/
theorem decapsulates_iff (h : HasRoom env)
    (hcombo : getComboById algorithmCombos (sel.getInt "combo_id" (-1)) = some combo)
    (hsends : SendsCiphertext env combo rest k text) (hclassical : ExchangeChecked env combo rest) :
    Decapsulates env handleClient (some sel :: rest) ↔ DecodesTo env k text := by
  obtain ⟨ctMsg, hmsg, hct⟩ := hsends.message
  rw [← ciphertextDecodes_iff hct, ← called_recvCiphertext h hmsg, Decapsulates, handleClient]
  simp only [called_bind_of_notKem only_recvJsonLine, obs_recvJsonLine_cons, hcombo,
    called_serve h hsends hclassical]

end Baseline

namespace Dispatch

theorem called_serveJson (hsends : HybridPqc.SendsCiphertext env combo rest k text) {sel : Parsed}
    {kdfType : CString} {saltB64 : Option CString} {dmode : DispatchMode} {t₀ : ℚ}
    {kem : OqsKem} {ct sk : List UInt8} :
    env.Called rest (serveJson combo sel kdfType saltB64 dmode t₀) (.oqsKemDecaps kem ct sk) ↔
      env.Called (afterClassical combo rest) (recvCiphertextJson k) (.oqsKemDecaps kem ct sk) := by
  have hkeygen : (serverKeygen combo).eval env.sys = some (some k) := by
    rw [eval_serverKeygen_eq, if_pos hsends.kem, hsends.worker, Option.map_some]
  have hparts : (env.obs rest (recvClassicalJson combo (some k))).val.isSome :=
    isSome_recvClassicalJson.2 hsends.goes.classical
  obtain ⟨reads, hrecv⟩ := @obs_recvClassicalJson env combo rest (some k)
  obtain ⟨classical, hval⟩ := Option.isSome_iff_exists.1 hparts
  have hrest : (env.obs rest (recvClassicalJson combo (some k))).rest = afterClassical combo rest := by
    rw [hrecv]
  obtain ⟨sent, hsent⟩ :=
    @obs_sendKeys env (afterClassical combo rest) k classical.pub [routeField]
  simp only [serveJson, Conn.monadLift_eq]
  rw [called_bind_of_notKem (Conn.only_lift.2 all_decodeSalt), ConnEnv.obs_lift,
    called_bind_of_notKem (Conn.only_lift.2 all_serverKeygen), ConnEnv.obs_lift, hkeygen]
  dsimp only
  rw [called_bind_of_notKem only_recvClassicalJson, hval, hrest]
  dsimp only
  rw [ConnEnv.called_bind, exchangeKeysJson, called_bind_of_notKem only_sendKeys, hsent,
    or_iff_left]
  -- nothing after the ciphertext decapsulates
  generalize (env.obs _ _).val = outcome
  refine not_called_of_notKem ?_
  cases outcome with
  | crashed => trivial
  | closed => exact .bind (Conn.only_lift.2 all_freePkey) fun _ => only_jsonServerClose
  | ok qSecret => exact .bind (Conn.only_lift.2 all_freePkey) fun _ => only_serverFinishJson

/-- The JSON path decapsulates a ciphertext that is decoded to the right length. -/
theorem decapsulates_iff (h : HasRoom env)
    (hcombo : getComboById algorithmCombos (sel.getInt "combo_id" (-1)) = some combo)
    (hsends : HybridPqc.SendsCiphertext env combo rest k text) :
    HybridPqc.Decapsulates env handleClientJson (some sel :: rest) ↔ DecodesTo env k text := by
  obtain ⟨ctMsg, hmsg, hct⟩ := hsends.message
  rw [← ciphertextDecodes_iff hct, ← called_recvCiphertextJson h hmsg, HybridPqc.Decapsulates,
    handleClientJson]
  simp only [Conn.sys_eq, Prog.call_bind, Prog.ret_bind, ConnEnv.called_call_sys, reduceCtorEq,
    false_or, called_bind_of_notKem only_recvJsonLine, obs_recvJsonLine_cons, hcombo,
    called_serveJson hsends]

end Dispatch

end Servers

/-! ## The worker of the client -/

/-- The worker encapsulates, to whatever key. -/
def AcceptsKey (env : PrimEnv) (args : PQCEncapsArgs) : Prop :=
  ∃ kem pk, (Dispatch.clientPqcEncapsWorker args .init).Called env (.oqsKemEncaps kem pk)

section Worker

variable {env : PrimEnv} {args : PQCEncapsArgs} {kem : OqsKem}

theorem all_encapsKey : (Dispatch.encapsKey kem args).All NotKem := by
  rw [Dispatch.encapsKey]
  cases args.qPkRaw.filter (·.length = kem.lengthPublicKey) with
  | some pk => trivial
  | none =>
    cases args.qPkB64 with
    | none => trivial
    | some b64 =>
      simp only [Prog.op_eq, Prog.call_bind, Prog.ret_bind, Prog.all_call, Prog.all_ite]
      refine ⟨by simp [NotKem], fun allocated => ?_⟩
      split
      · trivial
      · refine .bind all_b64Decode fun pk => ?_
        cases pk.filter (·.length = kem.lengthPublicKey) <;> simp [NotKem]

/-- The worker encapsulates if it has a key. -/
theorem acceptsKey_iff (hmalloc : ∀ buf size, env (.malloc buf size) = true)
    (hnew : env (.oqsKemNew args.pqcName) = some kem) :
    AcceptsKey env args ↔ ((Dispatch.encapsKey kem args).eval env).isSome := by
  have hkey (kem' pk) : ¬(Dispatch.encapsKey kem args).Called env (.oqsKemEncaps kem' pk) :=
    fun h => (h.of_all all_encapsKey).1 kem' pk rfl
  simp only [AcceptsKey, Dispatch.clientPqcEncapsWorker, Prog.op_eq, Prog.call_bind, Prog.ret_bind,
    Prog.called_call, hnew, hmalloc, Bool.not_true, Bool.or_self, Bool.false_eq_true, if_false,
    Prog.called_bind, reduceCtorEq, hkey, false_or]
  cases (Dispatch.encapsKey kem args).eval env with
  | none => simp
  | some key => simpa using ⟨kem, key.1, .inl ⟨rfl, rfl⟩⟩

variable {name : Option CString} {text : CString} {bs : List UInt8}

/-- A raw key has to have the length of the public keys. -/
theorem acceptsKey_raw (hmalloc : ∀ buf size, env (.malloc buf size) = true)
    (hnew : env (.oqsKemNew name) = some kem) :
    AcceptsKey env ⟨name, none, some bs⟩ ↔ bs.length = kem.lengthPublicKey := by
  rw [acceptsKey_iff hmalloc hnew]
  by_cases hlen : bs.length = kem.lengthPublicKey <;>
    simp [Dispatch.encapsKey, Option.filter, hlen]

/-- A key in Base64 has to be decoded to no fewer bytes. -/
theorem acceptsKey_base64 (hreads : ReadsBase64 env) (hempty : ReadsEmpty env)
    (hdecode : Base64.decode text = some bs) (hbio : CreatesBio env text)
    (hmalloc : ∀ buf size, env (.malloc buf size) = true)
    (hnew : env (.oqsKemNew name) = some kem) :
    AcceptsKey env ⟨name, some text, none⟩ ↔ kem.lengthPublicKey ≤ (heldBytes text).length := by
  rw [acceptsKey_iff hmalloc hnew]
  simp only [Dispatch.encapsKey, Option.filter_none, Prog.op_eq, Prog.call_bind, Prog.ret_bind,
    Prog.eval_call, hmalloc, Bool.not_true, Bool.false_eq_true, if_false, Prog.eval_bind,
    eval_b64Decode hreads hempty hdecode hbio, sizeToInt_of_lt kem.lengthPublicKey_lt,
    Int.toNat_natCast]
  by_cases hlen : kem.lengthPublicKey ≤ (heldBytes text).length <;> simp [Option.filter, hlen]

end Worker

/-! ## At their size -/

section FixedSize

variable {env : JsonEnv} {combo : AlgoCombo} {rest : List (Option Json)} {k : ServerKem}
  {text : CString} {bs : List UInt8}

/-- Texts of no fewer bytes are decoded to the length of the ciphertexts. -/
theorem decodesTo_iff (hreads : ReadsBase64 env.sys) (hempty : ReadsEmpty env.sys)
    (hdecode : Base64.decode text = some bs) (hbio : CreatesBio env.sys text) :
    DecodesTo env k text ↔ k.kem.lengthCiphertext ≤ (heldBytes text).length := by
  rw [DecodesTo, eval_b64Decode hreads hempty hdecode hbio,
    sizeToInt_of_lt k.kem.lengthCiphertext_lt, Int.toNat_natCast]
  simp

/-- A server of the JSON protocol decapsulates a `ct` that is decoded to `bs` exactly if
    these have the length of the ciphertexts. -/
def TakesCiphertext (env : JsonEnv) (server : JsonNet JsonServerEnd) (s : List (Option Json))
    (k : ServerKem) (bs : List UInt8) : Prop :=
  Decapsulates env server s ↔ bs.length = k.kem.lengthCiphertext

/-- **Fields of a fixed size are cut off, not refused.** What `b64_decode` returns is all the
    text is decoded to exactly if that is not longer than the buffer, both lengths being those
    of the calls, as an `int`. Hence the servers decide on a `ct`, and the worker on a key, by its
    length exactly if it is not too long, or too little of it is read. -/
theorem fixed_size_fields_iff (hreads : ReadsBase64 env.sys) (hempty : ReadsEmpty env.sys)
    (hdecode : Base64.decode text = some bs) :
    (∀ maxLen, DecodesWhole env.sys text maxLen ↔
      (CreatesBio env.sys text → FitsMemBuf text ∧ bs.length ≤ (sizeToInt maxLen).toNat)) ∧
    (HasRoom env → CreatesBio env.sys text →
      (∀ sel combo rest k, SendsCiphertext env combo rest k text →
        (getComboById Baseline.algorithmCombos (sel.getInt "combo_id" (-1)) = some combo →
          ExchangeChecked env combo rest →
            (TakesCiphertext env Baseline.handleClient (some sel :: rest) k bs ↔
              bs.length ≤ k.kem.lengthCiphertext ∨
                (heldBytes text).length < k.kem.lengthCiphertext)) ∧
        (getComboById Dispatch.algorithmCombos (sel.getInt "combo_id" (-1)) = some combo →
          (TakesCiphertext env Dispatch.handleClientJson (some sel :: rest) k bs ↔
            bs.length ≤ k.kem.lengthCiphertext ∨
              (heldBytes text).length < k.kem.lengthCiphertext))) ∧
      ∀ name kem, env.sys (.oqsKemNew name) = some kem →
        ((AcceptsKey env.sys ⟨name, some text, none⟩ ↔
            AcceptsKey env.sys ⟨name, none, some bs⟩) ↔
          bs.length ≤ kem.lengthPublicKey ∨ (heldBytes text).length < kem.lengthPublicKey)) := by
  refine ⟨fun maxLen => decodesWhole_iff hreads hempty hdecode, fun hroom hbio => ⟨?_, ?_⟩⟩
  · intro sel combo rest k hsends
    have hcompare := compare_heldBytes_iff hdecode k.kem.lengthCiphertext_lt
    refine ⟨fun hcombo hchecked => ?_, fun hcombo => ?_⟩
    · rw [TakesCiphertext, Baseline.decapsulates_iff hroom hcombo hsends hchecked,
        decodesTo_iff hreads hempty hdecode hbio, hcompare]
    · rw [TakesCiphertext, Dispatch.decapsulates_iff hroom hcombo hsends,
        decodesTo_iff hreads hempty hdecode hbio, hcompare]
  · intro name kem hnew
    rw [acceptsKey_base64 hreads hempty hdecode hbio hroom.malloc hnew,
      acceptsKey_raw hroom.malloc hnew, compare_heldBytes_iff hdecode kem.lengthPublicKey_lt]

end FixedSize

/-- An outcome of every call where texts are decoded, and none fails. -/
def PrimEnv.decoding : PrimEnv
  | .bioRead text maxLen =>
    (Base64.decode text).map fun bs => ⟨bs.take maxLen, List.length_take_le ..⟩
  | p => PrimEnv.sample p

theorem readsBase64_decoding : ReadsBase64 PrimEnv.decoding := by
  intro text bs maxLen hdecode hne
  simp [PrimEnv.decoding, hdecode]

theorem readsEmpty_decoding : ReadsEmpty PrimEnv.decoding := fun _ => by
  simp [PrimEnv.decoding, Base64.decode]

theorem hasRoom_decoding : HasRoom (.reliable PrimEnv.decoding) := ⟨fun _ _ => rfl, rfl⟩

/-- A `ProfileSelect` for a pure quantum profile, and a ciphertext. -/
def selectKem : Json := .object [(cstr "combo_id", .number 6)]
def ctMessage (text : CString) : Json := .object [(cstr "ct", .string text)]

/-- The key pair of zeros of the suite. -/
def decodingKem : ServerKem := ⟨.mlkem768 oqsMlkem768Name, .zero _, .zero _⟩

theorem sendsCiphertext_decoding (text : CString) :
    SendsCiphertext (.reliable PrimEnv.decoding) mlkem768Only [some (ctMessage text)] decodingKem
      text where
  goes := ⟨nofun, fun _ => ⟨_, _, rfl, rfl⟩⟩
  kem := .inr rfl
  worker := rfl
  message := ⟨_, rfl, rfl⟩

/-- A ciphertext of the right length. -/
theorem fixed_size_fields_zeros :
    TakesCiphertext (.reliable PrimEnv.decoding) Dispatch.handleClientJson
      [some selectKem, some (ctMessage (Base64.encode (List.replicate 1088 0)))] decodingKem
      (List.replicate 1088 0) :=
  ((((fixed_size_fields_iff readsBase64_decoding readsEmpty_decoding
    (Base64.decode_encode _)).2 hasRoom_decoding ⟨rfl, rfl⟩).1 _ _ _ _
      (sendsCiphertext_decoding _)).2 rfl).2 (.inl List.length_replicate.le)

/-- A text of a byte more than a KEM key of the suite has: the servers take it for a
    ciphertext, and the worker for a key. A buffer of `2 ^ 32 + 1` bytes is taken for one of a
    byte. -/
theorem fixed_size_fields_cut_off :
    ∃ env text bs, ReadsBase64 env.sys ∧ ReadsEmpty env.sys ∧ Base64.decode text = some bs ∧
      HasRoom env ∧ ¬DecodesWhole env.sys text 1184 ∧ ¬DecodesWhole env.sys text (2 ^ 32 + 1) ∧
      ¬TakesCiphertext env Baseline.handleClient [some selectKem, some (ctMessage text)]
        decodingKem bs ∧
      ¬TakesCiphertext env Dispatch.handleClientJson [some selectKem, some (ctMessage text)]
        decodingKem bs ∧
      ¬(AcceptsKey env.sys ⟨oqsMlkem768Name, some text, none⟩ ↔
        AcceptsKey env.sys ⟨oqsMlkem768Name, none, some bs⟩) := by
  have hlen : (List.replicate 1185 (0 : UInt8)).length = 1185 := List.length_replicate
  generalize List.replicate 1185 (0 : UInt8) = bs at hlen
  have hdecode := Base64.decode_encode bs
  have hreads := readsBase64_decoding
  have hempty := readsEmpty_decoding
  have hmalloc : ∀ buf size, PrimEnv.decoding (.malloc buf size) = true := fun _ _ => rfl
  have hbio : CreatesBio PrimEnv.decoding (Base64.encode bs) := ⟨rfl, rfl⟩
  have hsends := sendsCiphertext_decoding (Base64.encode bs)
  have hfits : FitsMemBuf (Base64.encode bs) := by
    have hgroups := Base64.length_of_decode hdecode
    exact .inl (by omega)
  have hheld : (heldBytes (Base64.encode bs)).length = 1185 := by
    rw [heldBytes_eq hdecode hfits, hlen]
  have htaken : DecodesTo (.reliable PrimEnv.decoding) decodingKem (Base64.encode bs) :=
    (decodesTo_iff hreads hempty hdecode hbio).2 (by rw [hheld]; decide)
  have hne : bs.length ≠ decodingKem.kem.lengthCiphertext := by rw [hlen]; decide
  have hcut : ∀ n, (sizeToInt n).toNat < 1185 →
      ¬DecodesWhole PrimEnv.decoding (Base64.encode bs) n := by
    intro n hn hwhole
    have hshort := ((decodesWhole_iff hreads hempty hdecode).1 hwhole hbio).2
    omega
  refine ⟨.reliable PrimEnv.decoding, Base64.encode bs, bs, hreads, hempty, hdecode,
    hasRoom_decoding, hcut 1184 (by decide), hcut (2 ^ 32 + 1) (by decide), ?_, ?_, ?_⟩
  · rw [TakesCiphertext, Baseline.decapsulates_iff hasRoom_decoding rfl hsends nofun]
    exact fun h => hne (h.1 htaken)
  · rw [TakesCiphertext, Dispatch.decapsulates_iff hasRoom_decoding rfl hsends]
    exact fun h => hne (h.1 htaken)
  · intro halike
    -- as text the key is taken, cut off; as bytes it is too long
    have hraw := halike.1
      ((acceptsKey_base64 hreads hempty hdecode hbio hmalloc rfl).2 (by rw [hheld]; decide))
    have hshort := (acceptsKey_raw hmalloc rfl).1 hraw
    rw [hlen] at hshort
    exact absurd hshort (by decide)

end HybridPqc
