import HybridPqc.Handshake
import Mathlib.Data.Bool.AllAny
import Mathlib.Data.List.TakeWhile

/-!
# The JSON protocol

Messages are JSON objects, one a line. A line is a symbol of the connection: what
`cJSON_Parse` makes of it, or nothing. A stream of bytes is thus one of lines
(`jsonLines`, given what `cJSON_Parse` makes of a text).

The strings of an object stay with it: they are not to be read once it has been
deleted (`Parsed.load`).
-/

namespace HybridPqc

/-- A JSON value. -/
inductive Json
  | null
  | bool (b : Bool)
  | number (v : ℚ)
  | string (s : CString)
  | array (items : List Json)
  | object (fields : List (CString × Json))

namespace Json

/-- `cJSON_GetObjectItemCaseSensitive`: the first field with the given name. -/
def item (obj : Json) (key : String) : Option Json :=
  match obj with
  | object fields => (fields.find? fun field => field.1 = cstr key).map Prod.snd
  | _ => none

/-- `json_get_str`. -/
def getStr (obj : Json) (key : String) : Option CString :=
  match obj.item key with
  | some (string s) => some s
  | _ => none

/-- A number cast to an `int`: it is truncated. One that is out of the range of an `int` becomes
    the least one, as the processor has it (the language leaves it undefined). -/
def toInt (v : ℚ) : Int :=
  if -2 ^ 31 ≤ v.num.tdiv v.den ∧ v.num.tdiv v.den < 2 ^ 31 then v.num.tdiv v.den else -2 ^ 31

/-- `json_get_int`. -/
def getInt (obj : Json) (key : String) (default : Int) : Int :=
  match obj.item key with
  | some (number v) => toInt v
  | _ => default

/-- The field that `cJSON_AddStringToObject` adds: none for a null pointer. -/
def strField (key : String) : Option CString → List (CString × Json)
  | none => []
  | some s => [(cstr key, .string s)]

end Json

/-! ## Objects in memory -/

/-- An object that has been parsed, and whether it has been deleted. -/
structure Parsed where
  json : Json
  deleted : Bool := false

namespace Parsed

/-- `cJSON_Delete`. -/
def delete (obj : Parsed) : Parsed := { obj with deleted := true }

/-- Reading the string `s` of an object: once the object has been deleted, it may be
    anything. -/
def load (obj : Parsed) (s : CString) (use : StringUse) : Sys CString :=
  if obj.deleted then call (.readFreed use) else return s

end Parsed

/-! ## Base64 -/

/-- `b64_encode`. `BIO_write` writes nothing if its length is negative. -/
def b64Encode (src : List UInt8) : Sys (Option CString) := do
  let b64Bio ← call (.bioNewBase64 src)
  let memBio ← call (.bioNewMem src)
  if !b64Bio || !memBio then
    return none
  let text ← call (.bioGetMem (src.take (sizeToInt src.length).toNat))
  let result ← call (.malloc .base64 (text.length + 1))
  call .bioFreeAll
  return if result then some text else none

/-! ## Lines -/

/-- The lines of a stream, as read one byte at a time: what comes after the last newline
    is lost. -/
def linesFrom (line : List UInt8) : List UInt8 → List (List UInt8)
  | [] => []
  | c :: s => if c = 10 then line.reverse :: linesFrom [] s else linesFrom (c :: line) s

/-- The lines of a stream, as C strings, and what the parser makes of them. -/
def jsonLines (parse : CString → Option Json) (stream : List UInt8) : List (Option Json) :=
  (linesFrom [] stream).map fun line => parse (line.takeWhile (· ≠ 0))

theorem linesFrom_append {l : List UInt8} (h : ∀ c ∈ l, c ≠ 10) (line s : List UInt8) :
    linesFrom line (l ++ 10 :: s) = (line.reverse ++ l) :: linesFrom [] s := by
  induction l generalizing line with
  | nil => simp [linesFrom]
  | cons c l ih =>
    rw [List.forall_mem_cons] at h
    simp [linesFrom, h.1, ih h.2]

/-- A line of text, then the other ones. -/
theorem jsonLines_append (parse : CString → Option Json) {l : List UInt8}
    (h : ∀ c ∈ l, c ≠ 10 ∧ c ≠ 0) (s : List UInt8) :
    jsonLines parse (l ++ 10 :: s) = parse l :: jsonLines parse s := by
  rw [jsonLines, linesFrom_append (fun c hc => (h c hc).1), List.map_cons, List.reverse_nil,
    List.nil_append, List.takeWhile_eq_self_iff.2 fun c hc => by simpa using (h c hc).2, jsonLines]

/-- A program of an end of a connection exchanging lines. -/
abbrev JsonNet (α : Type) := Conn (Option Json) Prim Prim.Res α

/-- An end of such a connection alone. -/
abbrev JsonEnv := ConnEnv (Option Json) Prim.Res

/-- `recv_json_line`. It also returns a null pointer if it has no memory for the line,
    as if the stream had ended. -/
def recvJsonLine : JsonNet (Option Json) := do
  match ← Conn.recv 1 with
  | some [line] => return line
  | _ => return none

/-- `send_json_line`, whose code is never looked at. -/
def sendJsonLine (obj : Json) : JsonNet Unit := do
  let _ ← Conn.send [some obj]

section

variable (env : JsonEnv) (s : List (Option Json))

/-- A line is received. -/
theorem obs_recvJsonLine_cons (line : Option Json) :
    env.obs (line :: s) recvJsonLine = ⟨line, s, [(1, some [line])], [], false⟩ := by
  rw [recvJsonLine, Conn.recv_eq, Prog.call_bind, ConnEnv.obs_call_recv, if_pos (by simp)]
  rfl

/-- The stream has ended. -/
theorem obs_recvJsonLine_nil :
    env.obs [] recvJsonLine = ⟨none, [], [(1, none)], [], false⟩ := by
  rw [recvJsonLine, Conn.recv_eq, Prog.call_bind, ConnEnv.obs_call_recv, if_neg (by simp)]
  rfl

theorem obs_sendJsonLine (obj : Json) :
    env.obs s (sendJsonLine obj) = ⟨(), s, [], [[some obj]], false⟩ := by
  simp [sendJsonLine, Obs.wrote]

end

/-! ## Key derivation -/

/-- A KDF, with its salt. -/
inductive Kdf
  | blake3
  | hkdfSha256 (salt : Option (List UInt8))
  deriving DecidableEq

/-- The session key, if the derivation succeeds: its code is not looked at. -/
def Kdf.derive (ikm : List UInt8) (info : CString) : Kdf → Sys (Option (Bytes 32))
  | blake3 => do
    let key ← cryptoBlake3Kdf ikm info
    return some key
  | hkdfSha256 salt => cryptoHkdfSha256 ikm salt info

end HybridPqc
