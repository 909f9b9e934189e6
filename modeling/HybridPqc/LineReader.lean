import HybridPqc.Lines
import HybridPqc.Lib.Memory

/-!
# The buffer of a line

`recv_json_line` of `c_dispatch/src/network_utils.c`, and of `c/src/network_utils.c`, with
its buffer: a line is read one byte at a time, and the buffer is doubled whenever one more byte
would leave no room for the terminator.

No store is outside the buffer, however often it is doubled (`loop_spec`). So the calls
hand the lines of the stream to the parser in turn, and consume them with their newlines
(`recvJsonLine_exact`), as `Lines.recvLine` has it, where the buffer is a list.
-/

namespace HybridPqc

namespace LineReader

/-! ## Sockets -/

/-- What a socket has to read, as it arrives in segments. -/
abbrev Socket := List (List UInt8)

/-- `read` of a single byte, which fails at the end of the stream. -/
def read : Socket → Option (UInt8 × Socket)
  | [] => none
  | [] :: segments => read segments
  | (c :: segment) :: segments => some (c, segment :: segments)

/-- The bytes are read in turn, however they are cut. -/
theorem read_eq (s : Socket) :
    match read s with
    | none => s.flatten = []
    | some (c, s') => s.flatten = c :: s'.flatten := by
  fun_induction read s with
  | case1 => rfl
  | case2 segments ih => exact ih
  | case3 c segment segments => rfl

theorem flatten_eq_nil {s : Socket} (h : read s = none) : s.flatten = [] := by
  have := read_eq s
  rwa [h] at this

theorem flatten_eq_cons {s s' : Socket} {c : UInt8} (h : read s = some (c, s')) :
    s.flatten = c :: s'.flatten := by
  have := read_eq s
  rwa [h] at this

/-! ## A call -/

/-- What becomes of a call: there is no memory; the stream ends; the buffer is handed to the
    parser; a store is outside the buffer. -/
inductive Result
  | noMemory
  | ended
  | parsed (buf : Block UInt8)
  | fault

/-- A call, once it is done: its result, what it has not read, and the index and the capacity in
    each iteration, after the growth test. -/
structure Call where
  result : Result
  socket : Socket
  log : List (ℕ × ℕ)

/-- The growth test, which keeps a place for the terminator. -/
def grow (a : Allocator) (cap used : ℕ) (buf : Block UInt8) : Option (ℕ × Block UInt8) :=
  if cap ≤ word (used + 1) then
    let cap := word (cap * 2)
    if a.grants cap then some (cap, buf.resize cap) else none
  else
    some (cap, buf)

/-- The loop of `recv_json_line`. -/
def loop (a : Allocator) (cap used : ℕ) (buf : Block UInt8) (s : Socket) : Call :=
  match grow a cap used buf with
  | none => ⟨.noMemory, s, []⟩
  | some (cap, buf) =>
    match _h : read s with
    | none => ⟨.ended, [], [(used, cap)]⟩
    | some (c, s') =>
      if c = 10 then
        match buf.store used 0 with
        | none => ⟨.fault, s', [(used, cap)]⟩
        | some buf => ⟨.parsed buf, s', [(used, cap)]⟩
      else
        match buf.store used c with
        | none => ⟨.fault, s', [(used, cap)]⟩
        | some buf =>
          let r := loop a cap (word (used + 1)) buf s'
          ⟨r.result, r.socket, (used, cap) :: r.log⟩
termination_by s.flatten.length
decreasing_by rw [flatten_eq_cons _h, List.length_cons]; omega

/-- `recv_json_line`. -/
def recvJsonLine (a : Allocator) (s : Socket) : Call :=
  if a.grants 4096 then loop a 4096 0 (.uninit 4096) s else ⟨.noMemory, s, []⟩

/-! ## The loop -/

/-- The buffer has the capacity `cap`, and holds the line read so far, with a place left. -/
structure Reading (cap : ℕ) (buf : Block UInt8) (line : List UInt8) : Prop where
  length : buf.length = cap
  holds : buf.Holds line
  room : line.length < cap
  cap_lt : cap < 2 ^ 63

/-- After the growth test, there is room for a byte and a terminator. -/
theorem Reading.grow {a : Allocator} {cap cap' : ℕ} {buf buf' : Block UInt8} {line : List UInt8}
    (h : Reading cap buf line) (hgrow : grow a cap line.length buf = some (cap', buf')) :
    Reading cap' buf' line ∧ line.length + 1 < cap' := by
  have hroom := h.room
  have hcap := h.cap_lt
  rw [LineReader.grow, word_of_lt (by omega), word_of_lt (by omega)] at hgrow
  by_cases hle : cap ≤ line.length + 1
  · rw [if_pos hle] at hgrow
    obtain ⟨hgrants, heq⟩ := Option.ite_none_right_eq_some.1 hgrow
    obtain ⟨rfl, rfl⟩ := Prod.mk.inj (Option.some.inj heq)
    have hbuf : buf.length ≤ cap * 2 := by rw [h.length]; omega
    exact ⟨⟨Block.length_resize hbuf, h.holds.resize hbuf, by omega, a.lt_of_grants _ hgrants⟩,
      by omega⟩
  · rw [if_neg hle] at hgrow
    obtain ⟨rfl, rfl⟩ := Prod.mk.inj (Option.some.inj hgrow)
    exact ⟨h, by omega⟩

/-- A byte is stored at the end of the line. -/
theorem Reading.store {cap : ℕ} {buf : Block UInt8} {line : List UInt8}
    (h : Reading cap buf line) (hroom : line.length + 1 < cap) (c : UInt8) :
    ∃ buf', buf.store line.length c = some buf' ∧ Reading cap buf' (line ++ [c]) := by
  obtain ⟨buf', hstore, hholds, hlength⟩ := h.holds.store (h.length ▸ h.room) c
  exact ⟨buf', hstore, hlength.trans h.length, hholds, by simpa using hroom, h.cap_lt⟩

/-- What a call does, once it has read `line`, with `stream` left: it reads up to the newline, or
    to the end of the stream, unless there is no memory. -/
structure Spec (line stream : List UInt8) (r : Call) : Prop where
  not_fault : r.result ≠ .fault
  log_lt : ∀ i ∈ r.log, i.1 + 1 < i.2
  exact : r.result ≠ .noMemory →
    match Lines.recvLine line stream with
    | none => r.result = .ended ∧ r.socket.flatten = []
    | some (line, stream) =>
      r.socket.flatten = stream ∧ ∃ buf, r.result = .parsed buf ∧ buf.Holds (line ++ [0])

/-- The invariant carries through the loop. -/
theorem loop_spec (a : Allocator) (cap used : ℕ) (buf : Block UInt8) (s : Socket)
    (line : List UInt8) (h : Reading cap buf line) (hused : used = line.length) :
    Spec line s.flatten (loop a cap used buf s) := by
  fun_induction loop a cap used buf s generalizing line with
  | case1 cap used buf s hgrow => exact ⟨by simp, by simp, fun hmem => absurd rfl hmem⟩
  | case2 cap used buf s cap' buf' hgrow hread =>
    subst hused
    refine ⟨by simp, ?_, fun _ => ?_⟩
    · simpa using (h.grow hgrow).2
    · rw [flatten_eq_nil hread]
      exact ⟨rfl, rfl⟩
  | case3 cap used buf s cap' buf' hgrow s' hstore =>
    -- the terminator is in the buffer
    subst hused
    obtain ⟨hreading, hroom⟩ := h.grow hgrow
    obtain ⟨_, hstore', -⟩ := hreading.store hroom 0
    rw [hstore] at hstore'
    cases hstore'
  | case4 cap used buf s cap' buf' hgrow s' buf'' hstore hread =>
    subst hused
    obtain ⟨hreading, hroom⟩ := h.grow hgrow
    obtain ⟨_, hstore', hreading'⟩ := hreading.store hroom 0
    obtain rfl := Option.some.inj (hstore.symm.trans hstore')
    refine ⟨by simp, by simpa using hroom, fun _ => ?_⟩
    rw [flatten_eq_cons hread, Lines.recvLine, if_pos rfl]
    exact ⟨rfl, buf'', rfl, hreading'.holds⟩
  | case5 cap used buf s cap' buf' hgrow c s' hread hne hstore =>
    -- the byte is in the buffer
    subst hused
    obtain ⟨hreading, hroom⟩ := h.grow hgrow
    obtain ⟨_, hstore', -⟩ := hreading.store hroom c
    rw [hstore] at hstore'
    cases hstore'
  | case6 cap used buf s cap' buf' hgrow c s' hread hne buf'' hstore r ih =>
    subst hused
    obtain ⟨hreading, hroom⟩ := h.grow hgrow
    obtain ⟨_, hstore', hreading'⟩ := hreading.store hroom c
    obtain rfl := Option.some.inj (hstore.symm.trans hstore')
    have hword : word (line.length + 1) = (line ++ [c]).length := by
      have hcap := hreading.cap_lt
      rw [word_of_lt (by omega), List.length_append, List.length_singleton]
    obtain ⟨hfault, hlog, hexact⟩ := ih (line ++ [c]) hreading' hword
    refine ⟨hfault, ?_, ?_⟩
    · rintro i hi
      rcases List.mem_cons.1 hi with rfl | hi
      · exact hroom
      · exact hlog i hi
    · rw [flatten_eq_cons hread, Lines.recvLine, if_neg hne]
      exact hexact

/-- A call, in terms of its stream. -/
theorem recvJsonLine_spec (a : Allocator) (s : Socket) : Spec [] s.flatten (recvJsonLine a s) := by
  rw [recvJsonLine]
  split
  · exact loop_spec a 4096 0 _ s [] ⟨Block.length_uninit, Block.holds_nil, by decide, by decide⟩ rfl
  · exact ⟨by simp, by simp, fun hmem => absurd rfl hmem⟩

/-! ## The calls in turn -/

/-- What is left after earlier calls, each with its own allocator. -/
def after (s : Socket) : List Allocator → Socket
  | [] => s
  | a :: earlier => after (recvJsonLine a s).socket earlier

/-- No allocation of the calls fails. -/
def Enough (s : Socket) : List Allocator → Prop
  | [] => True
  | a :: earlier =>
    (recvJsonLine a s).result ≠ .noMemory ∧ Enough (recvJsonLine a s).socket earlier

/-- A line that is read is the part of the stream before its first newline. -/
theorem recvLine_eq (line stream : List UInt8) :
    match Lines.recvLine line stream with
    | none => 10 ∉ stream
    | some (buf, rest) => ∃ l, 10 ∉ l ∧ buf = line ++ l ∧ stream = l ++ 10 :: rest := by
  induction stream generalizing line with
  | nil => exact List.not_mem_nil
  | cons c stream ih =>
    rw [Lines.recvLine]
    split_ifs with hc
    · exact ⟨[], List.not_mem_nil, by simp, by simp [hc]⟩
    · specialize ih (line ++ [c])
      generalize Lines.recvLine (line ++ [c]) stream = r at ih ⊢
      obtain _ | ⟨buf, rest⟩ := r
      · exact fun hmem => (List.mem_cons.1 hmem).elim (fun heq => hc heq.symm) ih
      · obtain ⟨l, hl, rfl, rfl⟩ := ih
        exact ⟨c :: l, by simp [hl, Ne.symm hc], by simp, by simp⟩

/-- The lines of a stream are its first line and those of what is left. -/
theorem linesFrom_nil_eq (stream : List UInt8) : linesFrom [] stream =
    match Lines.recvLine [] stream with
    | none => []
    | some (line, stream) => line :: linesFrom [] stream :=
  Lines.linesFrom_eq [] stream

/-- Each of the earlier calls has taken a line. -/
theorem linesFrom_after (s : Socket) (earlier : List Allocator) (h : Enough s earlier) :
    linesFrom [] (after s earlier).flatten = (linesFrom [] s.flatten).drop earlier.length := by
  induction earlier generalizing s with
  | nil => rfl
  | cons a earlier ih =>
    obtain ⟨hmem, hrest⟩ := h
    have hexact := (recvJsonLine_spec a s).exact hmem
    rw [after, ih _ hrest, linesFrom_nil_eq s.flatten, List.length_cons]
    generalize Lines.recvLine [] s.flatten = r at hexact ⊢
    obtain _ | ⟨line, rest⟩ := r
    · rw [hexact.2]
      simp [linesFrom]
    · rw [hexact.1, List.drop_succ_cons]

/-- The line of the stream that a call reads. -/
theorem getElem?_linesFrom (s : Socket) (earlier : List Allocator) (h : Enough s earlier) :
    (linesFrom [] s.flatten)[earlier.length]? =
      (Lines.recvLine [] (after s earlier).flatten).map Prod.fst := by
  rw [← List.head?_drop, ← linesFrom_after s earlier h, linesFrom_nil_eq]
  cases Lines.recvLine [] (after s earlier).flatten <;> rfl

/-- What a call makes of the line that is its own, if there is one: it hands it to the parser, with
    a terminator, and consumes it with its newline; or the stream ends. -/
def Hands (before : Socket) (r : Call) : Option (List UInt8) → Prop
  | some line => before.flatten = line ++ 10 :: r.socket.flatten ∧
      ∃ buf, r.result = .parsed buf ∧ buf.Holds (line ++ [0])
  | none => 10 ∉ before.flatten ∧ r.result = .ended ∧ r.socket.flatten = []

theorem hands_of_enough {s : Socket} {earlier : List Allocator} {a : Allocator}
    (hbefore : Enough s earlier) (hmem : (recvJsonLine a (after s earlier)).result ≠ .noMemory) :
    Hands (after s earlier) (recvJsonLine a (after s earlier))
      (linesFrom [] s.flatten)[earlier.length]? := by
  have hline := recvLine_eq [] (after s earlier).flatten
  have hexact := (recvJsonLine_spec a (after s earlier)).exact hmem
  rw [getElem?_linesFrom s earlier hbefore]
  generalize Lines.recvLine [] (after s earlier).flatten = line at hline hexact ⊢
  obtain _ | ⟨line, rest⟩ := line
  · exact ⟨hline, hexact⟩
  · obtain ⟨l, -, rfl, hstream⟩ := hline
    refine ⟨?_, hexact.2⟩
    rw [hexact.1]
    exact hstream

/-- Where all that can be granted is, there is memory for a line. -/
theorem loop_ne_noMemory {a : Allocator} (ha : ∀ size < 2 ^ 63, a.grants size) {cap used : ℕ}
    {buf : Block UInt8} {s : Socket} (line : List UInt8) (h : Reading cap buf line)
    (hused : used = line.length) (hs : line.length + s.flatten.length + 1 < 2 ^ 62) :
    (loop a cap used buf s).result ≠ .noMemory := by
  fun_induction loop a cap used buf s generalizing line with
  | case1 cap used buf s hgrow =>
    subst hused
    have hcap := h.cap_lt
    rw [grow, word_of_lt (by omega)] at hgrow
    split at hgrow
    · rw [word_of_lt (by omega)] at hgrow
      have hgrants := ha (cap * 2) (by omega)
      simp [hgrants] at hgrow
    · cases hgrow
  | case6 cap used buf s cap' buf' hgrow c s' hread hne buf'' hstore r ih =>
    subst hused
    obtain ⟨hreading, hroom⟩ := h.grow hgrow
    obtain ⟨_, hstore', hreading'⟩ := hreading.store hroom c
    obtain rfl := Option.some.inj (hstore.symm.trans hstore')
    have hcap := hreading.cap_lt
    rw [flatten_eq_cons hread, List.length_cons] at hs
    refine ih (line ++ [c]) hreading' ?_ ?_
    · rw [word_of_lt (by omega), List.length_append, List.length_singleton]
    · rw [List.length_append, List.length_singleton]
      omega
  | _ => simp

theorem recvJsonLine_ne_noMemory {a : Allocator} (ha : ∀ size < 2 ^ 63, a.grants size) {s : Socket}
    (hs : s.flatten.length + 1 < 2 ^ 62) : (recvJsonLine a s).result ≠ .noMemory := by
  rw [recvJsonLine, if_pos (ha 4096 (by decide))]
  have hreading : Reading 4096 (.uninit 4096) [] :=
    ⟨Block.length_uninit, Block.holds_nil, by decide, by decide⟩
  refine loop_ne_noMemory ha [] hreading rfl ?_
  rwa [List.length_nil, Nat.zero_add]

theorem recvJsonLine_largest {s : Socket} (hs : s.flatten.length + 1 < 2 ^ 62) :
    (recvJsonLine .largest s).result ≠ .noMemory :=
  recvJsonLine_ne_noMemory (fun size hsize => by simpa [Allocator.largest] using hsize) hs

/-- **Line reader exactness**: if no allocation has failed, a call hands the next line of the
    stream, with a terminator, to the parser, and consumes it with its newline; if there is no
    other line, it returns a null pointer. In each iteration, both the index of the byte and
    that of a terminator after it are below the capacity. -/
theorem recvJsonLine_exact (s : Socket) (earlier : List Allocator) (a : Allocator) :
    let before := after s earlier
    let r := recvJsonLine a before
    r.result ≠ .fault ∧ (∀ i ∈ r.log, i.1 + 1 < i.2) ∧
      (Enough s earlier → r.result ≠ .noMemory →
        match (linesFrom [] s.flatten)[earlier.length]? with
        | some line => before.flatten = line ++ 10 :: r.socket.flatten ∧
          ∃ buf, r.result = .parsed buf ∧ buf.Holds (line ++ [0])
        | none => 10 ∉ before.flatten ∧ r.result = .ended ∧ r.socket.flatten = []) := by
  intro before r
  obtain ⟨hfault, hlog, -⟩ := recvJsonLine_spec a before
  refine ⟨hfault, hlog, fun hbefore hmem => ?_⟩
  have hhands : Hands before r _ := hands_of_enough hbefore hmem
  cases hline : (linesFrom [] s.flatten)[earlier.length]? with
  | none =>
    rw [hline] at hhands
    exact hhands
  | some line =>
    rw [hline] at hhands
    exact hhands

/-- The second line of a stream, cut within the first one. -/
theorem recvJsonLine_exact_second :
    ∃ buf, (recvJsonLine .largest (after [[97], [98, 10, 99, 10]] [.largest])).result =
      .parsed buf ∧ buf.Holds [99, 0] := by
  have hfirst : (after [[97], [98, 10, 99, 10]] [.largest]).flatten = [99, 10] := by
    have hexact := (recvJsonLine_spec .largest [[97], [98, 10, 99, 10]]).exact
      (recvJsonLine_largest (by decide))
    exact hexact.1
  exact ((recvJsonLine_exact [[97], [98, 10, 99, 10]] [.largest] .largest).2.2
    ⟨recvJsonLine_largest (by decide), trivial⟩
    (recvJsonLine_largest (by rw [hfirst]; decide))).2

/-- A call leaves no more of a stream than there was. -/
theorem length_socket_le {a : Allocator} {s : Socket}
    (hmem : (recvJsonLine a s).result ≠ .noMemory) :
    (recvJsonLine a s).socket.flatten.length ≤ s.flatten.length := by
  have hhands : Hands s (recvJsonLine a s) _ := @hands_of_enough s [] a trivial hmem
  cases hline : (linesFrom [] s.flatten)[([] : List Allocator).length]? with
  | none =>
    rw [hline] at hhands
    rw [hhands.2.2]
    exact Nat.zero_le _
  | some line =>
    rw [hline] at hhands
    rw [hhands.1, List.length_append, List.length_cons]
    omega

theorem enough_of_grants {s : Socket} {earlier : List Allocator}
    (hall : ∀ b ∈ earlier, ∀ size < 2 ^ 63, b.grants size) (hs : s.flatten.length + 1 < 2 ^ 62) :
    Enough s earlier ∧ (after s earlier).flatten.length + 1 < 2 ^ 62 := by
  induction earlier generalizing s with
  | nil => exact ⟨trivial, hs⟩
  | cons b earlier ih =>
    rw [List.forall_mem_cons] at hall
    have hmem := recvJsonLine_ne_noMemory hall.1 hs
    have hle := length_socket_le hmem
    obtain ⟨henough, hafter⟩ := ih (s := (recvJsonLine b s).socket) hall.2 (by omega)
    exact ⟨⟨hmem, henough⟩, hafter⟩

/-- **With every request granted**, the calls hand the lines of the stream to the parser in turn. -/
theorem recvJsonLine_granted {s : Socket} {earlier : List Allocator} {a : Allocator}
    (hall : ∀ b ∈ a :: earlier, ∀ size < 2 ^ 63, b.grants size)
    (hs : s.flatten.length + 1 < 2 ^ 62) :
    Hands (after s earlier) (recvJsonLine a (after s earlier))
      (linesFrom [] s.flatten)[earlier.length]? := by
  rw [List.forall_mem_cons] at hall
  obtain ⟨henough, hafter⟩ := enough_of_grants hall.2 hs
  exact hands_of_enough henough (recvJsonLine_ne_noMemory hall.1 hafter)

/-! ## The lines as they are parsed -/

/-- The C string in a buffer. -/
def cString (buf : Block UInt8) : CString := (buf.map fun v => v.getD 0).takeWhile (· ≠ 0)

theorem cString_eq {buf : Block UInt8} {line : List UInt8} (h : buf.Holds (line ++ [0])) :
    cString buf = line.takeWhile (· ≠ 0) := by
  obtain ⟨rest, rfl⟩ := h
  induction line with
  | nil => simp [cString]
  | cons c line ih => by_cases hc : c = 0 <;> simp_all [cString]

/-- What `recv_json_line` returns. -/
def Call.value (parse : CString → Option Json) (r : Call) : Option Json :=
  match r.result with
  | .parsed buf => parse (cString buf)
  | _ => none

/-- The calls return the lines of the stream, as they are parsed, and then a null pointer. -/
theorem value_eq (parse : CString → Option Json) (s : Socket) (earlier : List Allocator)
    (a : Allocator) (h : Enough s earlier)
    (hmem : (recvJsonLine a (after s earlier)).result ≠ .noMemory) :
    (recvJsonLine a (after s earlier)).value parse =
      ((jsonLines parse s.flatten)[earlier.length]?).join := by
  have hexact := (recvJsonLine_spec a (after s earlier)).exact hmem
  rw [jsonLines, List.getElem?_map, getElem?_linesFrom s earlier h, Call.value]
  generalize Lines.recvLine [] (after s earlier).flatten = line at hexact ⊢
  obtain _ | ⟨line, rest⟩ := line
  · rw [hexact.1]
    rfl
  · obtain ⟨-, buf, hresult, hholds⟩ := hexact
    rw [hresult]
    exact congrArg parse (cString_eq hholds)

end LineReader

end HybridPqc
