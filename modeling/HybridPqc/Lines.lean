import HybridPqc.Json

/-!
# Lines on a socket

`send_json_line` and `recv_json_line` of `c_dispatch/src/network_utils.c`, byte by
byte. A line is handed to a single `write`, which may accept only a part of it:
the code then returns `-1`, and the part stays in the stream, where the next line
comes after it. `send_all` goes on with the rest, `send_json_line` does not.

All the messages arrive whole or not at all, exactly if no `write` is short
(`messages_arrive_whole_iff`). Then the peer reads the messages sent
(`jsonLines_stream`), as the other modules have it.
-/

namespace HybridPqc

namespace Lines

/-! ## Sending -/

/-- The calls of `send_json_line`. -/
inductive LineOp
  | printUnformatted (obj : Json)
  | malloc (size : ℕ)
  | write (bs : List UInt8)

/-- The answers: the text, unless there is no memory for it; whether there is memory; how
    many bytes are accepted, unless the call fails. -/
@[reducible] def LineOp.Res : LineOp → Type
  | printUnformatted _ => Option CString
  | malloc _ => Bool
  | write _ => Option ℕ

/-- A call. -/
abbrev call (o : LineOp) : Prog LineOp LineOp.Res o.Res := Prog.op o

/-- `send_json_line`. -/
def sendJsonLine (obj : Json) : Prog LineOp LineOp.Res Int := do
  match ← call (.printUnformatted obj) with
  | none => return -1
  | some str =>
    let len := str.length
    if !(← call (.malloc (len + 2))) then
      return -1
    -- the line, with its newline, in a single `write`
    let sent ← call (.write (str ++ [10]))
    return if sent = some (len + 1) then 0 else -1

/-- What the calls of a trace leave in the stream. -/
def written (trace : List (Prog.Event LineOp LineOp.Res)) : List UInt8 :=
  trace.flatMap fun
    | ⟨.write bs, some n⟩ => bs.take n
    | _ => []

/-- A message sent: the answers to the calls made for it. The text of a message has no
    newline, and a `write` accepts some bytes, if it does not fail. -/
structure Sending where
  obj : Json
  env : Prog.Env LineOp LineOp.Res
  text_ok : ∀ str, env (.printUnformatted obj) = some str → ∀ c ∈ str, c ≠ 10 ∧ c ≠ 0
  write_ok : ∀ bs n, bs ≠ [] → env (.write bs) = some n → 0 < n ∧ n ≤ bs.length

namespace Sending

variable (m : Sending)

/-- The serialisation. -/
def text : Option CString := m.env (.printUnformatted m.obj)

/-- What `send_json_line` returns. -/
def rc : Int := (sendJsonLine m.obj).eval m.env

/-- What it leaves in the stream. -/
def written : List UInt8 := Lines.written ((sendJsonLine m.obj).exec m.env).trace

/-- The `write` is short: it accepts some bytes of the line, but not all. -/
def Short : Prop :=
  ∃ str n, m.text = some str ∧ m.env (.malloc (str.length + 2)) = true ∧
    m.env (.write (str ++ [10])) = some n ∧ n < str.length + 1

variable {m} {str : CString}

/-- There is no text. -/
theorem no_text (h : m.text = none) : m.rc = -1 ∧ m.written = [] := by
  simp only [text] at h
  simp [rc, written, sendJsonLine, Prog.exec, h, Lines.written]

/-- There is no memory for the line. -/
theorem no_memory (h : m.text = some str) (hmem : m.env (.malloc (str.length + 2)) = false) :
    m.rc = -1 ∧ m.written = [] := by
  simp only [text] at h
  simp [rc, written, sendJsonLine, Prog.exec, h, hmem, Lines.written]

/-- The `write` fails. -/
theorem write_fails (h : m.text = some str) (hmem : m.env (.malloc (str.length + 2)) = true)
    (hwrite : m.env (.write (str ++ [10])) = none) : m.rc = -1 ∧ m.written = [] := by
  simp only [text] at h
  simp [rc, written, sendJsonLine, Prog.exec, h, hmem, hwrite, Lines.written]

/-- The `write` accepts `n` bytes. -/
theorem write_accepts {n : ℕ} (h : m.text = some str)
    (hmem : m.env (.malloc (str.length + 2)) = true)
    (hwrite : m.env (.write (str ++ [10])) = some n) :
    m.rc = (if n = str.length + 1 then 0 else -1) ∧ m.written = (str ++ [10]).take n := by
  simp only [text] at h
  simp [rc, written, sendJsonLine, Prog.exec, h, hmem, hwrite, Lines.written]

/-- A message is sent whole, or it is reported as failed. Then nothing is left of it, unless
    the `write` is short. -/
theorem cases (m : Sending) :
    (∃ str, m.text = some str ∧ m.rc = 0 ∧ m.written = str ++ [10] ∧ ¬m.Short) ∨
    (m.rc = -1 ∧ m.written = [] ∧ ¬m.Short) ∨ (m.rc = -1 ∧ m.written ≠ [] ∧ m.Short) := by
  cases h : m.text with
  | none => exact .inr (.inl ⟨(no_text h).1, (no_text h).2, by simp [Short, h]⟩)
  | some str =>
    cases hmem : m.env (.malloc (str.length + 2)) with
    | false =>
      exact .inr (.inl ⟨(no_memory h hmem).1, (no_memory h hmem).2, by simp [Short, h, hmem]⟩)
    | true =>
      cases hwrite : m.env (.write (str ++ [10])) with
      | none =>
        exact .inr (.inl ⟨(write_fails h hmem hwrite).1, (write_fails h hmem hwrite).2,
          by simp [Short, h, hwrite]⟩)
      | some n =>
        obtain ⟨hrc, hwritten⟩ := write_accepts h hmem hwrite
        obtain ⟨hpos, hle⟩ := m.write_ok _ _ (by simp) hwrite
        rw [List.length_append, List.length_singleton] at hle
        obtain rfl | hlt := hle.eq_or_lt
        · refine .inl ⟨str, rfl, by simpa using hrc, ?_, by simp [Short, h, hwrite]⟩
          rw [hwritten, List.take_of_length_le (by simp)]
        · refine .inr (.inr ⟨by simpa [hlt.ne] using hrc, ?_, str, n, h, hmem, hwrite, hlt⟩)
          rw [hwritten, Ne, List.take_eq_nil_iff]
          simp [hpos.ne']

end Sending

/-! ## Receiving -/

/-- The loop of `recv_json_line`, which reads one byte at a time up to a newline: the buffer,
    and what is left of the stream. There is memory for the buffer. -/
def recvLine (buf : List UInt8) : List UInt8 → Option (List UInt8 × List UInt8)
  | [] => none
  | c :: stream => if c = 10 then some (buf, stream) else recvLine (buf ++ [c]) stream

/-- Calls of `recv_json_line`, up to one that fails, read the lines of the stream. -/
theorem linesFrom_eq (line stream : List UInt8) : linesFrom line stream =
    match recvLine line.reverse stream with
    | none => []
    | some (buf, stream) => buf :: linesFrom [] stream := by
  induction stream generalizing line with
  | nil => rfl
  | cons c stream ih =>
    rw [linesFrom, recvLine]
    split
    · rfl
    · rw [ih, List.reverse_cons]

/-- The strings that a peer gets with `recv_json_line`, before they are parsed. -/
def received (stream : List UInt8) : List CString :=
  (linesFrom [] stream).map fun line => line.takeWhile (· ≠ 0)

theorem received_line {str : CString} (h : ∀ c ∈ str, c ≠ 10 ∧ c ≠ 0) (stream : List UInt8) :
    received (str ++ 10 :: stream) = str :: received stream := by
  rw [received, linesFrom_append (fun c hc => (h c hc).1), List.map_cons, List.reverse_nil,
    List.nil_append, List.takeWhile_eq_self_iff.2 fun c hc => by simpa using (h c hc).2, received]

/-! ## Whole messages -/

/-- What the messages sent leave in the stream: the caller goes on whatever is returned. -/
def stream (sent : List Sending) : List UInt8 := sent.flatMap Sending.written

/-- The serialisations of the messages reported as sent. -/
def delivered (sent : List Sending) : List CString :=
  (sent.filter (·.rc = 0)).filterMap Sending.text

/-- The peer gets exactly the messages reported as sent, in order, and those reported as
    failed leave no part of themselves. -/
def ArriveWhole (sent : List Sending) : Prop :=
  received (stream sent) = delivered sent ∧ ∀ m ∈ sent, m.rc ≠ 0 → m.written = []

/-- Without short writes, the peer gets the messages reported as sent. -/
theorem received_stream {sent : List Sending} (h : ∀ m ∈ sent, ¬m.Short) :
    received (stream sent) = delivered sent := by
  induction sent with
  | nil => rfl
  | cons m sent ih =>
    rw [List.forall_mem_cons] at h
    obtain ⟨str, htext, hrc, hwritten, -⟩ | ⟨hrc, hwritten, -⟩ | ⟨-, -, hshort⟩ := m.cases
    · rw [stream, List.flatMap_cons, hwritten, List.append_assoc, List.singleton_append,
        received_line (m.text_ok str htext)]
      simpa [delivered, stream, hrc, htext] using ih h.2
    · rw [stream, List.flatMap_cons, hwritten, List.nil_append]
      simpa [delivered, stream, hrc] using ih h.2
    · exact absurd hshort h.1

/-- Nor are there other lines than those of the messages, to a peer that parses back what is
    printed. -/
theorem jsonLines_stream {sent : List Sending} (h : ∀ m ∈ sent, ¬m.Short)
    {parse : CString → Option Json}
    (hparse : ∀ m ∈ sent, ∀ str, m.text = some str → parse str = some m.obj) :
    jsonLines parse (stream sent) = (sent.filter (·.rc = 0)).map fun m => some m.obj := by
  have hlines : jsonLines parse (stream sent) = (received (stream sent)).map parse := by
    rw [jsonLines, received, List.map_map]
    rfl
  rw [hlines, received_stream h, delivered, List.map_filterMap, ← List.filterMap_eq_map]
  refine List.filterMap_congr fun m hm => ?_
  obtain ⟨hm, hrc⟩ := List.mem_filter.1 hm
  obtain ⟨str, htext, -⟩ | ⟨hfail, -⟩ | ⟨hfail, -⟩ := m.cases
  · rw [htext, Option.map_some, hparse m hm str htext]
    rfl
  all_goals
    rw [hfail] at hrc
    cases hrc

/-- **Messages arrive whole or not at all**, exactly if no `write` is short. -/
theorem messages_arrive_whole_iff (sent : List Sending) :
    ArriveWhole sent ↔ ∀ m ∈ sent, ¬m.Short := by
  constructor
  · rintro ⟨-, hnothing⟩ m hm hshort
    obtain ⟨-, -, -, -, hnot⟩ | ⟨-, -, hnot⟩ | ⟨hrc, hpart, -⟩ := m.cases
    · exact hnot hshort
    · exact hnot hshort
    · exact hpart (hnothing m hm (by rw [hrc]; decide))
  · refine fun h => ⟨received_stream h, fun m hm hrc => ?_⟩
    obtain ⟨-, -, hzero, -⟩ | ⟨-, hwritten, -⟩ | ⟨-, -, hshort⟩ := m.cases
    · exact absurd hzero hrc
    · exact hwritten
    · exact absurd hshort (h m hm)

/-- A message whose `write` accepts as many bytes as `accept` says. -/
def emptyObject (accept : ℕ → ℕ) (h : ∀ len, len ≠ 0 → 0 < accept len ∧ accept len ≤ len) :
    Sending where
  obj := .object []
  env
    | .printUnformatted _ => some (cstr "\x7b\x7d")
    | .malloc _ => true
    | .write bs => some (accept bs.length)
  text_ok := by
    rintro str ⟨⟩
    exact List.all_iff_forall_prop.1 (by decide)
  write_ok := by
    rintro bs n hbs ⟨⟩
    exact h _ (List.length_eq_zero_iff.not.2 hbs)

/-- After a short write, the next message does not arrive: the peer reads the part of the
    first one before it. -/
theorem short_write_spoils_the_next : ¬∀ sent, ArriveWhole sent := by
  intro h
  have hline := (h [emptyObject (fun _ => 1) (by omega), emptyObject id (by simp; omega)]).1
  exact absurd hline (by decide)

end Lines

end HybridPqc
