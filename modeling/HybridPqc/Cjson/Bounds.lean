import HybridPqc.Cjson.Parse

/-!
# The parser stays inside its buffers

Whatever the text and whichever allocations fail, `cJSON_Parse` returns (`parse_spec`): it has
read nothing outside the text, and stored nothing outside the blocks it has allocated. What it
returns is well-formed; the blocks of the item, or none if there is no item, are all that is left.

A string needs an argument of its own, as an escape sequence can be read otherwise than the loop
that looks for the end of the string has it: that loop takes `\x` to be two bytes, whereas the
other one takes six for `\u`, whichever they are. What the first one skips is thus compared with
what the second one leaves out (`Ahead`).
-/

namespace HybridPqc.Cjson

variable {hooks : Hooks} {content : List UInt8} {b : ParseBuffer}

/-! ## The buffer -/

@[simp] theorem skipWhitespace_depth : (skipWhitespace content b).depth = b.depth := by
  rw [skipWhitespace]
  split_ifs <;> rfl

@[simp] theorem skipWhitespace_heap : (skipWhitespace content b).heap = b.heap := by
  rw [skipWhitespace]
  split_ifs <;> rfl

variable (content) in
/-- White space is skipped inside the text. -/
theorem skipWhitespace_offset (h : b.offset ≤ content.length) :
    b.offset ≤ (skipWhitespace content b).offset ∧
      (skipWhitespace content b).offset ≤ content.length ∧
      (b.offset < content.length → (skipWhitespace content b).offset < content.length) := by
  have hle : ((content.drop b.offset).takeWhile (· ≤ 32)).length ≤ content.length - b.offset := by
    rw [← List.length_drop]
    exact (List.takeWhile_prefix _).length_le
  rw [skipWhitespace]
  split_ifs with hend
  · omega
  · simp only
    split_ifs <;> omega

variable (content) in
theorem skipUtf8Bom_offset (h : b.offset ≤ content.length) :
    (skipUtf8Bom content b).offset ≤ content.length := by
  rw [skipUtf8Bom]
  split_ifs with hbom
  · simp only
    omega
  · exact h

@[simp] theorem skipUtf8Bom_depth : (skipUtf8Bom content b).depth = b.depth := by
  rw [skipUtf8Bom]
  split_ifs <;> rfl

@[simp] theorem skipUtf8Bom_heap : (skipUtf8Bom content b).heap = b.heap := by
  rw [skipUtf8Bom]
  split_ifs <;> rfl

/-- What the text goes on with is in it. -/
theorem le_length_of_startsWith {s : List UInt8} (h : startsWith content b s)
    (hne : 0 < s.length) : b.offset + s.length ≤ content.length := by
  have := (List.isPrefixOf_iff_prefix.1 h).length_le
  rw [List.length_drop] at this
  omega

theorem lt_length_of_startsWith {c : UInt8} (h : startsWith content b [c]) :
    b.offset < content.length :=
  le_length_of_startsWith h (by simp)

/-! ## Outcomes -/

/-- What may become of a parser: if it fails, it leaves no block; otherwise it leaves those of
    what it returns, which is good, and has read something. -/
def Spec {α : Type} (content : List UInt8) (size : α → ℕ) (good : α → Prop) (b : ParseBuffer)
    (r : Outcome α) : Prop :=
  (∃ b', r = .ok (none, b') ∧ b'.heap.blocks = b.heap.blocks ∧ b'.offset ≤ content.length) ∨
  ∃ a b', r = .ok (some a, b') ∧ b'.heap.blocks = b.heap.blocks + size a ∧
    b.offset < b'.offset ∧ b'.offset ≤ content.length ∧ b'.depth = b.depth ∧ good a

/-! ## Numbers -/

theorem parseNumber_spec (n : ℕ) (h : b.offset ≤ content.length) :
    Spec content Item.inner (Item.WellFormed n) b (parseNumber hooks content b) := by
  generalize hs : (content.drop b.offset).takeWhile isNumberChar = s
  have hle : s.length ≤ content.length - b.offset := by
    rw [← hs, ← List.length_drop]
    exact (List.takeWhile_prefix _).length_le
  simp only [parseNumber, hs]
  split
  case _ heap halloc =>
    have hblocks := Hooks.blocks_allocate halloc
    exact .inl ⟨_, rfl, hblocks, h⟩
  case _ heap halloc =>
    have hblocks := Hooks.blocks_allocate halloc
    rw [Bool.toNat_true] at hblocks
    split
    case _ hnone => exact .inl ⟨_, rfl, by simp [hblocks], h⟩
    case _ number k hsome =>
      obtain ⟨⟨v, k'⟩, hread, heq⟩ := Option.map_eq_some_iff.1 hsome
      obtain ⟨rfl, rfl⟩ := Prod.mk.inj heq
      have hbounds := Decimal.read_bounds hread
      refine .inr ⟨_, _, rfl, by simp [hblocks, Item.inner], ?_, ?_, rfl,
        .number (Double.isDouble_ofSigned _ v)⟩
      · simp only
        omega
      · simp only
        omega

/-! ## Strings -/

theorem ofHexDigit_lt {c : UInt8} {d : ℕ} (h : ofHexDigit c = some d) : d < 16 := by
  simp only [ofHexDigit, UInt8.le_iff_toNat_le] at h
  split_ifs at h <;>
    · simp only [UInt8.reduceToNat] at *
      have := Option.some.inj h
      omega

/-- The digits are in the text. -/
theorem parseHex4_spec (content : List UInt8) (n i h : ℕ) (hle : i + n ≤ content.length) :
    ∃ k, parseHex4 content i n h = some k ∧ k < (h + 1) * 16 ^ n := by
  induction n generalizing i h with
  | zero => exact ⟨h, rfl, by simp⟩
  | succ n ih =>
    have hget : content[i]? = some content[i] := List.getElem?_eq_getElem (by omega)
    cases hd : ofHexDigit content[i] with
    | none => exact ⟨0, by simp only [parseHex4, hget, hd], by positivity⟩
    | some d =>
      have hlt := ofHexDigit_lt hd
      obtain ⟨k, hk, hbound⟩ := ih (i + 1) (16 * h + d) (by omega)
      refine ⟨k, by simp only [parseHex4, hget, hd, hk], hbound.trans_le ?_⟩
      rw [pow_succ, mul_comm (16 ^ n), ← mul_assoc]
      exact Nat.mul_le_mul_right _ (by omega)

/-- The length of the encoding of a code point. -/
theorem length_utf8 (codepoint : ℕ) :
    (utf8 codepoint).length ≤ 4 ∧ (codepoint < 0x10000 → (utf8 codepoint).length ≤ 3) := by
  rw [utf8]
  split_ifs <;> simp; omega

/-- Bytes that are written for others that are read, in the string: two for each one, if there
    is a backslash. -/
def StepBound (content : List UInt8) (i inputEnd : ℕ) (bytes : List UInt8) (n : ℕ) : Prop :=
  n = 0 ∨ (n = 1 ∧ bytes.length = 1 ∧ content[i]? ≠ some 92) ∨ (n = 2 ∧ bytes.length = 1) ∨
    (i + n ≤ inputEnd ∧ ∃ k, n = 2 * k ∧ bytes.length ≤ k)

/-- A literal takes twice as many bytes as its encoding. -/
theorem stepBound_encodeLiteral {i inputEnd codepoint k : ℕ}
    (hlen : (utf8 codepoint).length ≤ k) (hin : i + 2 * k ≤ inputEnd) :
    StepBound content i inputEnd (encodeLiteral codepoint (2 * k)).1
      (encodeLiteral codepoint (2 * k)).2 := by
  rw [encodeLiteral]
  split_ifs
  · exact .inl rfl
  · exact .inr (.inr (.inr ⟨hin, k, rfl, hlen⟩))

/-- A literal takes six bytes for three, or twelve for four. -/
theorem utf16LiteralToUtf8_spec {i inputEnd : ℕ} (hend : inputEnd ≤ content.length) :
    ∃ r, utf16LiteralToUtf8 content i inputEnd = some r ∧
      StepBound content i inputEnd r.1 r.2 := by
  have hfail : ∃ r, some (([] : List UInt8), 0) = some r ∧ StepBound content i inputEnd r.1 r.2 :=
    ⟨([], 0), rfl, .inl rfl⟩
  rw [utf16LiteralToUtf8]
  by_cases hshort : inputEnd < i + 6
  · rw [if_pos hshort]
    exact hfail
  obtain ⟨first, hfirst, hlt⟩ := parseHex4_spec content 4 (i + 2) 0 (by omega)
  rw [if_neg hshort, hfirst, Option.bind_eq_bind, Option.bind_some]
  by_cases hlow : 0xDC00 ≤ first ∧ first ≤ 0xDFFF
  · rw [if_pos hlow]
    exact hfail
  rw [if_neg hlow]
  by_cases hhigh : 0xD800 ≤ first ∧ first ≤ 0xDBFF
  swap
  · rw [if_neg hhigh]
    exact ⟨_, rfl, stepBound_encodeLiteral (k := 3) ((length_utf8 _).2 (by omega)) (by omega)⟩
  rw [if_pos hhigh]
  dsimp only
  by_cases hshort' : inputEnd < i + 6 + 6
  · rw [if_pos hshort']
    exact hfail
  obtain ⟨code, hcode, -⟩ := parseHex4_spec content 4 (i + 6 + 2) 0 (by omega)
  rw [if_neg hshort', List.getElem?_eq_getElem (by omega), Option.bind_eq_bind, Option.bind_some]
  by_cases hbackslash : content[i + 6] ≠ 92
  · rw [if_pos hbackslash]
    exact hfail
  rw [if_neg hbackslash, List.getElem?_eq_getElem (by omega), Option.bind_some]
  by_cases hu : content[i + 6 + 1] ≠ 117
  · rw [if_pos hu]
    exact hfail
  rw [if_neg hu, hcode, Option.bind_some]
  by_cases hrange : code < 0xDC00 ∨ 0xDFFF < code
  · rw [if_pos hrange]
    exact hfail
  rw [if_neg hrange]
  exact ⟨_, rfl,
    stepBound_encodeLiteral (k := 6) ((length_utf8 _).1.trans (by norm_num)) (by omega)⟩

/-- Nothing is read outside the text. -/
theorem decodeStep_spec {i inputEnd : ℕ} (hi : i < inputEnd) (hend : inputEnd < content.length) :
    ∃ bytes n, decodeStep content i inputEnd = some (bytes, n) ∧
      StepBound content i inputEnd bytes n := by
  have hc : content[i]? = some content[i] := List.getElem?_eq_getElem (by omega)
  have he : content[i + 1]? = some content[i + 1] := List.getElem?_eq_getElem (by omega)
  simp only [decodeStep, hc, he, Option.pure_def, Option.bind_eq_bind, Option.bind_some]
  by_cases hplain : content[i] ≠ 92
  · rw [if_pos hplain]
    exact ⟨_, 1, rfl, .inr (.inl ⟨rfl, rfl, by simpa [hc] using hplain⟩)⟩
  rw [if_neg hplain]
  cases unescape content[i + 1] with
  | some c => exact ⟨_, 2, rfl, .inr (.inr (.inl ⟨rfl, rfl⟩))⟩
  | none =>
    dsimp only
    split_ifs
    · obtain ⟨r, hr, hstep⟩ := utf16LiteralToUtf8_spec hend.le
      exact ⟨r.1, r.2, hr, hstep⟩
    · exact ⟨[], 0, rfl, .inl rfl⟩

/-- What is left of a string: how many bytes there are before the quote, and how many of them are
    skipped. It may start in the middle of an escape sequence. -/
def Ahead (s : List UInt8) (left skipped : ℕ) : Prop :=
  findEnd s = some (left, skipped) ∨
    ∃ c t l, s = c :: t ∧ left = l + 1 ∧ findEnd t = some (l, skipped)

/-- The quote comes next, or a backslash and something else, or another byte. -/
theorem findEnd_cases {s : List UInt8} {n k : ℕ} (h : findEnd s = some (n, k)) :
    (n = 0 ∧ k = 0 ∧ ∃ t, s = 34 :: t) ∨
    (∃ d t n' k', s = 92 :: d :: t ∧ n = n' + 2 ∧ k = k' + 1 ∧ findEnd t = some (n', k')) ∨
    ∃ c t n', s = c :: t ∧ c ≠ 34 ∧ c ≠ 92 ∧ n = n' + 1 ∧ findEnd t = some (n', k) := by
  rcases s with _ | ⟨c, _ | ⟨d, t⟩⟩
  · cases h
  · rw [findEnd] at h
    split_ifs at h with hquote
    obtain ⟨rfl, rfl⟩ := Prod.mk.inj (Option.some.inj h)
    exact .inl ⟨rfl, rfl, [], by rw [hquote]⟩
  · rw [findEnd] at h
    split_ifs at h with hquote hescape
    · obtain ⟨rfl, rfl⟩ := Prod.mk.inj (Option.some.inj h)
      exact .inl ⟨rfl, rfl, d :: t, by rw [hquote]⟩
    · obtain ⟨⟨n', k'⟩, hend, heq⟩ := Option.map_eq_some_iff.1 h
      obtain ⟨rfl, rfl⟩ := Prod.mk.inj heq
      exact .inr (.inl ⟨d, t, n', k', by rw [hescape], rfl, rfl, hend⟩)
    · obtain ⟨⟨n', k'⟩, hend, heq⟩ := Option.map_eq_some_iff.1 h
      obtain ⟨rfl, rfl⟩ := Prod.mk.inj heq
      exact .inr (.inr ⟨c, d :: t, n', rfl, hquote, hescape, rfl, hend⟩)

/-- What is left after a byte: a sequence only starts at a backslash. -/
theorem Ahead.tail {s : List UInt8} {left skipped : ℕ} (h : Ahead s (left + 1) skipped) :
    ∃ c t, s = c :: t ∧ (findEnd t = some (left, skipped) ∨ c = 92 ∧
      ∃ d t' l k, t = d :: t' ∧ left = l + 1 ∧ skipped = k + 1 ∧ findEnd t' = some (l, k)) := by
  obtain hend | ⟨c, t, _, rfl, hleft, hend⟩ := h
  · obtain ⟨hzero, -⟩ | ⟨d, t, l, k, rfl, hleft, rfl, hrest⟩ | ⟨c, t, _, rfl, -, -, hleft, hrest⟩ :=
      findEnd_cases hend
    · cases hzero
    · exact ⟨92, d :: t, rfl, .inr ⟨rfl, d, t, l, k, rfl, Nat.succ.inj hleft, rfl, hrest⟩⟩
    · obtain rfl := Nat.succ.inj hleft
      exact ⟨c, t, rfl, .inl hrest⟩
  · obtain rfl := Nat.succ.inj hleft
    exact ⟨c, t, rfl, .inl hend⟩

/-- A byte other than a backslash is not skipped. -/
theorem Ahead.step {c : UInt8} {s : List UInt8} {left skipped : ℕ}
    (h : Ahead (c :: s) (left + 1) skipped) (hc : c ≠ 92) : Ahead s left skipped := by
  obtain ⟨_, _, heq, hend | ⟨rfl, -⟩⟩ := h.tail
  · obtain ⟨rfl, rfl⟩ := List.cons.inj heq
    exact .inl hend
  · exact absurd (List.cons.inj heq).1 hc

/-- At most one of two bytes is skipped. -/
theorem Ahead.step_two {s : List UInt8} {left skipped : ℕ} (h : Ahead s (left + 2) skipped) :
    ∃ skipped', Ahead (s.drop 2) left skipped' ∧ skipped ≤ skipped' + 1 := by
  obtain ⟨c, t, rfl, hend | ⟨-, d, t', l, k, rfl, hleft, rfl, hend⟩⟩ := h.tail
  · have hahead : Ahead t (left + 1) skipped := .inl hend
    obtain ⟨d, t', rfl, hend' | ⟨-, e, t, l, k, rfl, rfl, rfl, hend'⟩⟩ := hahead.tail
    · exact ⟨skipped, .inl hend', by omega⟩
    · exact ⟨k, .inr ⟨e, t, l, rfl, rfl, hend'⟩, le_rfl⟩
  · obtain rfl := Nat.succ.inj hleft
    exact ⟨k, .inl hend, le_rfl⟩

/-- At most half of the bytes are skipped. -/
theorem Ahead.step_even {s : List UInt8} {left skipped : ℕ} (k : ℕ)
    (h : Ahead s (left + 2 * k) skipped) :
    ∃ skipped', Ahead (s.drop (2 * k)) left skipped' ∧ skipped ≤ skipped' + k := by
  induction k generalizing s skipped with
  | zero => exact ⟨skipped, h, le_rfl⟩
  | succ k ih =>
    have hstep : Ahead s (left + 2 * k + 2) skipped := h
    obtain ⟨skipped₁, h₁, hle₁⟩ := hstep.step_two
    obtain ⟨skipped₂, h₂, hle₂⟩ := ih h₁
    rw [List.drop_drop] at h₂
    exact ⟨skipped₂, by rwa [show 2 * (k + 1) = 2 + 2 * k by ring], by omega⟩

/-- There are as many bytes as are skipped. -/
theorem Ahead.skipped_le {s : List UInt8} {left skipped : ℕ} (h : Ahead s left skipped) :
    skipped ≤ left := by
  induction left using Nat.twoStepInduction generalizing s skipped with
  | zero =>
    obtain hend | ⟨_, _, _, _, hleft, -⟩ := h
    · obtain ⟨-, rfl, -⟩ | ⟨_, _, _, _, _, hleft, -⟩ | ⟨_, _, _, _, _, _, hleft, -⟩ :=
        findEnd_cases hend
      · rfl
      · omega
      · omega
    · omega
  | one =>
    obtain ⟨c, t, rfl, hend | ⟨-, d, t', l, k, rfl, hleft, rfl, hend⟩⟩ := h.tail
    · obtain ⟨-, rfl, -⟩ | ⟨_, _, _, _, _, hleft, -⟩ | ⟨_, _, _, _, _, _, hleft, -⟩ :=
        findEnd_cases hend
      · omega
      · omega
      · omega
    · omega
  | more left ih _ =>
    obtain ⟨skipped', h', hle⟩ := h.step_two
    have := ih h'
    omega

/-! ### The output -/

/-- There is room for what is left of a string, once `length` bytes have been written, and for a
    zero. -/
def Room (content : List UInt8) (inputEnd size i length : ℕ) : Prop :=
  ∃ skipped, Ahead (content.drop i) (inputEnd - i) skipped ∧
    length + (inputEnd - i) + 2 ≤ size + skipped

theorem Room.lt {inputEnd size i length : ℕ} (h : Room content inputEnd size i length) :
    length + 1 < size := by
  obtain ⟨skipped, hahead, hle⟩ := h
  have := hahead.skipped_le
  omega

/-- An iteration leaves room for the other ones, unless it reads the quote. -/
theorem Room.step {inputEnd size i length n : ℕ} {bytes : List UInt8}
    (h : Room content inputEnd size i length) (hi : i < inputEnd) (hend : inputEnd < content.length)
    (hstep : StepBound content i inputEnd bytes n) (hn : n ≠ 0) :
    (i + n ≤ inputEnd ∧ Room content inputEnd size (i + n) (length + bytes.length)) ∨
    (inputEnd < i + n ∧ bytes.length = 1) := by
  have hlt := h.lt
  obtain ⟨skipped, hahead, hle⟩ := h
  have hnext : ∀ k, 2 * k ≤ inputEnd - i → bytes.length ≤ k →
      Room content inputEnd size (i + 2 * k) (length + bytes.length) := fun k hk hlen => by
    rw [show inputEnd - i = inputEnd - (i + 2 * k) + 2 * k by omega] at hahead
    obtain ⟨skipped', hahead', hle'⟩ := hahead.step_even k
    rw [List.drop_drop] at hahead'
    exact ⟨skipped', hahead', by omega⟩
  obtain rfl | ⟨rfl, hlen, hplain⟩ | ⟨rfl, hlen⟩ | ⟨hin, k, rfl, hlen⟩ := hstep
  · exact absurd rfl hn
  · refine .inl ⟨hi, skipped, ?_, by omega⟩
    rw [List.drop_eq_getElem_cons (by omega : i < content.length),
      show inputEnd - i = inputEnd - (i + 1) + 1 by omega] at hahead
    refine hahead.step fun heq => hplain ?_
    rw [List.getElem?_eq_getElem (by omega), heq]
  · by_cases hlast : i + 2 ≤ inputEnd
    · exact .inl ⟨hlast, hnext 1 (by omega) hlen.le⟩
    · exact .inr ⟨by omega, hlen⟩
  · exact .inl ⟨hin, hnext k (by omega) hlen⟩

/-- **The loop stays inside the output**, and leaves room for a zero. -/
theorem decode_spec {inputEnd size i : ℕ} {output : Block UInt8} (bytes : List UInt8)
    (hi : i ≤ inputEnd) (hend : inputEnd < content.length) (hsize : output.length = size)
    (hholds : output.Holds bytes) (hroom : Room content inputEnd size i bytes.length) :
    (∃ j ≤ inputEnd, decode content i inputEnd output bytes.length = .ok (j, none)) ∨
    ∃ j output' bytes', decode content i inputEnd output bytes.length =
      .ok (j, some (output', bytes'.length)) ∧ output'.Holds bytes' ∧
      bytes'.length < output'.length := by
  induction hleft : inputEnd - i using Nat.strong_induction_on generalizing i output bytes with
  | _ left ih =>
    have hlt := hroom.lt
    rw [decode]
    by_cases hlast : i < inputEnd
    · obtain ⟨written, n, hdecode, hstep⟩ := decodeStep_spec hlast hend
      rw [if_pos hlast, hdecode]
      dsimp only
      by_cases hn : n = 0
      · rw [if_pos hn]
        exact .inl ⟨i, hi, rfl⟩
      rw [if_neg hn]
      have hnext := hroom.step hlast hend hstep hn
      have hfit : bytes.length + written.length < size := by
        obtain ⟨-, hroom'⟩ | ⟨-, hlen⟩ := hnext
        · have := hroom'.lt
          omega
        · omega
      obtain ⟨output', hstore, hholds', hlength⟩ := hholds.storeAll written (by omega)
      rw [hstore]
      dsimp only
      rw [← List.length_append]
      obtain ⟨hle, hroom'⟩ | ⟨hgt, -⟩ := hnext
      · refine ih _ (by omega) _ hle (hlength.trans hsize) hholds' ?_ rfl
        rwa [List.length_append]
      · refine .inr ⟨i + n, output', _, ?_, hholds', ?_⟩
        · rw [decode, if_neg hgt.not_gt]
        · rw [List.length_append]
          omega
    · rw [if_neg hlast]
      exact .inr ⟨i, output, bytes, rfl, hholds, by omega⟩

/-- The quote is in the text. -/
theorem findEnd_lt {s : List UInt8} {n k : ℕ} (h : findEnd s = some (n, k)) : n < s.length := by
  induction n using Nat.strong_induction_on generalizing s k with
  | _ n ih =>
    obtain ⟨rfl, -, t, rfl⟩ | ⟨d, t, n', k', rfl, rfl, -, hend⟩ |
      ⟨c, t, n', rfl, -, -, rfl, hend⟩ := findEnd_cases h
    · simp
    · have := ih n' (by omega) hend
      simp only [List.length_cons]
      omega
    · have := ih n' (by omega) hend
      simp only [List.length_cons]
      omega

variable (hooks) in
/-- **A string** has no zero in it. -/
theorem parseString_spec (h : b.offset < content.length) :
    Spec content (fun _ => 1) (fun s => 0 ∉ s) b (parseString hooks content b) := by
  have hget : content[b.offset]? = some content[b.offset] := List.getElem?_eq_getElem h
  simp only [parseString, hget]
  by_cases hquote : content[b.offset] ≠ 34
  · rw [if_pos hquote]
    exact .inl ⟨_, rfl, rfl, h⟩
  rw [if_neg hquote]
  cases hfind : findEnd (content.drop (b.offset + 1)) with
  | none => exact .inl ⟨_, rfl, rfl, h⟩
  | some r =>
    obtain ⟨n, skipped⟩ := r
    have hn := findEnd_lt hfind
    rw [List.length_drop] at hn
    dsimp only
    split
    case _ heap halloc => exact .inl ⟨_, rfl, Hooks.blocks_allocate halloc, h⟩
    case _ heap halloc =>
      have hblocks := Hooks.blocks_allocate halloc
      rw [Bool.toNat_true] at hblocks
      generalize hsize : b.offset + 1 + n - b.offset - skipped + 1 = size
      have hroom : Room content (b.offset + 1 + n) size (b.offset + 1) 0 := by
        have hahead : Ahead (content.drop (b.offset + 1)) n skipped := .inl hfind
        have hle := hahead.skipped_le
        exact ⟨skipped, by rwa [Nat.add_sub_cancel_left], by omega⟩
      obtain ⟨j, hj, hdecode⟩ | ⟨j, output, bytes, hdecode, hholds, hlt⟩ :=
        decode_spec [] (by omega) (by omega) Block.length_uninit Block.holds_nil hroom
      · rw [List.length_nil] at hdecode
        rw [hdecode]
        exact .inl ⟨_, rfl, by simp [hblocks], by dsimp only; omega⟩
      · obtain ⟨output', hstore, hholds', -⟩ := hholds.store hlt 0
        rw [List.length_nil] at hdecode
        rw [hdecode]
        simp only [hstore, Option.bind_some, hholds'.cString]
        refine .inr ⟨_, _, rfl, hblocks, by dsimp only; omega, by dsimp only; omega, rfl, ?_⟩
        intro hzero
        simpa using List.mem_takeWhile_imp hzero

/-! ## Arrays and objects -/

section

variable {parse : ParseBuffer → Outcome Item} {n depth : ℕ}

/-- What is parsed inside an array or object. -/
def Parses (content : List UInt8) (parse : ParseBuffer → Outcome Item) (n depth : ℕ) : Prop :=
  ∀ b : ParseBuffer, b.offset ≤ content.length → b.depth = depth →
    Spec content Item.inner (Item.WellFormed n) b (parse b)

/-- The loop over the elements of an array, each of which takes some of the text. -/
theorem parseItems_spec (hooks : Hooks) (hparse : Parses content parse n depth) (fuel : ℕ)
    (head : List Item) (blocks : ℕ) (hoffset : b.offset < content.length)
    (hfuel : content.length ≤ fuel + b.offset)
    (hdepth : b.depth = depth) (hblocks : b.heap.blocks = blocks + Item.blocksItems head)
    (hhead : ∀ v ∈ head, v.WellFormed n) :
    (∃ b', parseItems hooks content parse fuel head b = .ok (none, b') ∧
      b'.heap.blocks = blocks ∧ b'.offset ≤ content.length) ∨
    ∃ items b', parseItems hooks content parse fuel head b = .ok (some items, b') ∧
      b'.heap.blocks = blocks + Item.blocksItems items ∧ b.offset < b'.offset ∧
      b'.offset < content.length ∧ b'.depth = depth ∧ ∀ v ∈ items, v.WellFormed n := by
  induction fuel generalizing head b with
  | zero => omega
  | succ fuel ih =>
    rw [parseItems]
    split
    case _ heap halloc =>
      have hheap := Hooks.blocks_allocate halloc
      exact .inl ⟨_, rfl, by simp [hheap, hblocks], hoffset.le⟩
    case _ heap halloc =>
      have hheap := Hooks.blocks_allocate halloc
      rw [Bool.toNat_true] at hheap
      have hskip := skipWhitespace_offset content
        (b := { b with offset := b.offset + 1, heap := heap }) hoffset
      obtain ⟨b', hr, hb', ho'⟩ | ⟨v, b', hr, hb', hlt, ho', hd', hv⟩ :=
        hparse (skipWhitespace content { b with offset := b.offset + 1, heap := heap }) hskip.2.1
          (by rw [skipWhitespace_depth, ← hdepth])
      all_goals
        rw [skipWhitespace_heap] at hb'
        dsimp only at hb' hskip
        rw [hr]
        dsimp only
      · exact .inl ⟨_, rfl, by simp only [Heap.blocks_deallocate]; omega, ho'⟩
      have hskip' := skipWhitespace_offset content (b := b') ho'
      have hblocks' : (skipWhitespace content b').heap.blocks =
          blocks + Item.blocksItems (head ++ [v]) := by
        rw [skipWhitespace_heap, Item.blocksItems_append]
        omega
      have hdepth' : (skipWhitespace content b').depth = depth := by
        rw [skipWhitespace_depth, hd', skipWhitespace_depth, ← hdepth]
      have hhead' : ∀ w ∈ head ++ [v], w.WellFormed n := by
        intro w hw
        obtain hw | hw := List.mem_append.1 hw
        · exact hhead w hw
        · rwa [List.mem_singleton.1 hw]
      by_cases hcomma : startsWith content (skipWhitespace content b') [44]
      · rw [if_pos hcomma]
        have hlt' := lt_length_of_startsWith hcomma
        obtain hfail | ⟨items, b'', hr', hblocks'', ho'', hrest⟩ :=
          ih _ hlt' (by omega) hdepth' hblocks' hhead'
        · exact .inl hfail
        · exact .inr ⟨items, b'', hr', hblocks'', by omega, hrest⟩
      rw [if_neg hcomma]
      split_ifs with hbracket
      · exact .inr ⟨_, _, rfl, hblocks', by omega, lt_length_of_startsWith hbracket, hdepth',
          hhead'⟩
      · exact .inl ⟨_, rfl, by simp only [Heap.blocks_deallocate]; omega, hskip'.2.1⟩

/-- **An array.** -/
theorem parseArray_spec (hparse : Parses content parse n (b.depth + 1))
    (h : b.offset < content.length) :
    Spec content Item.inner (Item.WellFormed (n + 1)) b (parseArray hooks content parse b) := by
  have hget : content[b.offset]? = some content[b.offset] := List.getElem?_eq_getElem h
  have hskip := skipWhitespace_offset content
    (b := { b with offset := b.offset + 1, depth := b.depth + 1 }) h
  dsimp only at hskip
  rw [parseArray]
  by_cases hdeep : nestingLimit ≤ b.depth
  · rw [if_pos hdeep]
    exact .inl ⟨_, rfl, rfl, h.le⟩
  rw [if_neg hdeep]
  dsimp only
  rw [hget]
  dsimp only
  by_cases hbracket : content[b.offset] ≠ 91
  · rw [if_pos hbracket]
    exact .inl ⟨_, rfl, rfl, h.le⟩
  rw [if_neg hbracket]
  split_ifs with hempty hshort
  · have hlt := lt_length_of_startsWith hempty
    refine .inr ⟨_, _, rfl, by simp [Item.inner, Item.blocksItems], by dsimp only; omega, hlt, ?_,
      ?_⟩
    · simp
    · exact .array (by simp)
  · exact .inl ⟨_, rfl, by simp, by dsimp only; omega⟩
  · generalize hstart : skipWhitespace content
      { b with offset := b.offset + 1, depth := b.depth + 1 } = start at *
    have hdepth : start.depth = b.depth + 1 := by rw [← hstart, skipWhitespace_depth]
    have hheap : start.heap = b.heap := by rw [← hstart, skipWhitespace_heap]
    obtain ⟨b', hr, hblocks, ho⟩ | ⟨items, b', hr, hblocks, hlt, ho, hd, hitems⟩ :=
      parseItems_spec (b := { start with offset := start.offset - 1 }) hooks hparse
        content.length [] b.heap.blocks (by dsimp only; omega)
        (by omega) hdepth (by simp [hheap, Item.blocksItems]) (by simp)
    · rw [hr]
      exact .inl ⟨_, rfl, hblocks, ho⟩
    · rw [hr]
      dsimp only at hlt
      exact .inr ⟨_, _, rfl, hblocks, by dsimp only; omega, ho, by simp [hd], .array hitems⟩

/-- The loop over the fields of an object. -/
theorem parseFields_spec (hooks : Hooks) (hparse : Parses content parse n depth) (fuel : ℕ)
    (head : List (CString × Item)) (blocks : ℕ) (hoffset : b.offset < content.length)
    (hfuel : content.length ≤ fuel + b.offset) (hdepth : b.depth = depth)
    (hblocks : b.heap.blocks = blocks + Item.blocksFields head)
    (hnames : ∀ f ∈ head, 0 ∉ f.1) (hhead : ∀ f ∈ head, f.2.WellFormed n) :
    (∃ b', parseFields hooks content parse fuel head b = .ok (none, b') ∧
      b'.heap.blocks = blocks ∧ b'.offset ≤ content.length) ∨
    ∃ fields b', parseFields hooks content parse fuel head b = .ok (some fields, b') ∧
      b'.heap.blocks = blocks + Item.blocksFields fields ∧ b.offset < b'.offset ∧
      b'.offset < content.length ∧ b'.depth = depth ∧ (∀ f ∈ fields, 0 ∉ f.1) ∧
      ∀ f ∈ fields, f.2.WellFormed n := by
  induction fuel generalizing head b with
  | zero => omega
  | succ fuel ih =>
    rw [parseFields]
    dsimp only
    split
    case _ heap halloc =>
      have hheap := Hooks.blocks_allocate halloc
      exact .inl ⟨_, rfl, by simp [hheap, hblocks], hoffset.le⟩
    case _ heap halloc =>
      have hheap := Hooks.blocks_allocate halloc
      rw [Bool.toNat_true] at hheap
      by_cases hshort : content.length ≤ b.offset + 1
      · rw [if_pos hshort]
        exact .inl ⟨_, rfl, by simp only [Heap.blocks_deallocate]; omega, hoffset.le⟩
      rw [if_neg hshort]
      have hskip := skipWhitespace_offset content
        (b := { b with offset := b.offset + 1, heap := heap }) hoffset
      dsimp only at hskip
      obtain ⟨b₁, hr, hb₁, ho₁⟩ | ⟨name, b₁, hr, hb₁, hlt₁, ho₁, hd₁, hname⟩ :=
        parseString_spec hooks (hskip.2.2 (by omega))
      all_goals
        rw [skipWhitespace_heap] at hb₁
        dsimp only at hb₁
        rw [hr]
        dsimp only
      · exact .inl ⟨_, rfl, by simp only [Heap.blocks_deallocate]; omega, ho₁⟩
      have hskip₁ := skipWhitespace_offset content (b := b₁) ho₁
      by_cases hcolon : startsWith content (skipWhitespace content b₁) [58]
      swap
      · rw [if_pos (by simpa using hcolon)]
        exact .inl ⟨_, rfl,
          by simp only [Heap.blocks_deallocate, skipWhitespace_heap]; omega, hskip₁.2.1⟩
      rw [if_neg (by simpa using hcolon)]
      have hcolon' := lt_length_of_startsWith hcolon
      generalize hstart : skipWhitespace content b₁ = b₂ at *
      have hd₂ : b₂.depth = depth := by
        rw [← hstart, skipWhitespace_depth, hd₁, skipWhitespace_depth, ← hdepth]
      have hh₂ : b₂.heap.blocks = b₁.heap.blocks := by rw [← hstart, skipWhitespace_heap]
      have hskip₂ := skipWhitespace_offset content
        (b := { b₂ with offset := b₂.offset + 1 }) hcolon'
      dsimp only at hskip₂
      obtain ⟨b₃, hr₃, hb₃, ho₃⟩ | ⟨v, b₃, hr₃, hb₃, hlt₃, ho₃, hd₃, hv⟩ :=
        hparse (skipWhitespace content { b₂ with offset := b₂.offset + 1 }) hskip₂.2.1
          (by rw [skipWhitespace_depth, ← hd₂])
      all_goals
        rw [skipWhitespace_heap] at hb₃
        dsimp only at hb₃
        rw [hr₃]
        dsimp only
      · exact .inl ⟨_, rfl, by simp only [Heap.blocks_deallocate]; omega, ho₃⟩
      have hskip₃ := skipWhitespace_offset content (b := b₃) ho₃
      have hblocks' : (skipWhitespace content b₃).heap.blocks =
          blocks + Item.blocksFields (head ++ [(name, v)]) := by
        rw [skipWhitespace_heap, Item.blocksFields_append]
        omega
      have hdepth' : (skipWhitespace content b₃).depth = depth := by
        rw [skipWhitespace_depth, hd₃, skipWhitespace_depth, ← hd₂]
      have hnames' : ∀ f ∈ head ++ [(name, v)], 0 ∉ f.1 := by
        intro f hf
        obtain hf | hf := List.mem_append.1 hf
        · exact hnames f hf
        · rwa [List.mem_singleton.1 hf]
      have hhead' : ∀ f ∈ head ++ [(name, v)], f.2.WellFormed n := by
        intro f hf
        obtain hf | hf := List.mem_append.1 hf
        · exact hhead f hf
        · rwa [List.mem_singleton.1 hf]
      by_cases hcomma : startsWith content (skipWhitespace content b₃) [44]
      · rw [if_pos hcomma]
        have hlt' := lt_length_of_startsWith hcomma
        obtain hfail | ⟨fields, b₄, hr₄, hblocks₄, ho₄, hrest⟩ :=
          ih _ hlt' (by omega) hdepth' hblocks' hnames' hhead'
        · exact .inl hfail
        · exact .inr ⟨fields, b₄, hr₄, hblocks₄, by omega, hrest⟩
      rw [if_neg hcomma]
      split_ifs with hbrace
      · exact .inr ⟨_, _, rfl, hblocks', by omega, lt_length_of_startsWith hbrace, hdepth',
          hnames', hhead'⟩
      · exact .inl ⟨_, rfl, by simp only [Heap.blocks_deallocate]; omega, hskip₃.2.1⟩

/-- **An object.** -/
theorem parseObject_spec (hparse : Parses content parse n (b.depth + 1))
    (h : b.offset < content.length) :
    Spec content Item.inner (Item.WellFormed (n + 1)) b (parseObject hooks content parse b) := by
  have hskip := skipWhitespace_offset content
    (b := { b with offset := b.offset + 1, depth := b.depth + 1 }) h
  dsimp only at hskip
  rw [parseObject]
  by_cases hdeep : nestingLimit ≤ b.depth
  · rw [if_pos hdeep]
    exact .inl ⟨_, rfl, rfl, h.le⟩
  rw [if_neg hdeep]
  dsimp only
  split_ifs with hbrace hempty hshort
  · exact .inl ⟨_, rfl, rfl, h.le⟩
  · have hlt := lt_length_of_startsWith hempty
    refine .inr ⟨_, _, rfl, by simp [Item.inner, Item.blocksFields], by dsimp only; omega, hlt, ?_,
      ?_⟩
    · simp
    · exact .object (by simp) (by simp)
  · exact .inl ⟨_, rfl, by simp, by dsimp only; omega⟩
  · generalize hstart : skipWhitespace content
      { b with offset := b.offset + 1, depth := b.depth + 1 } = start at *
    have hdepth : start.depth = b.depth + 1 := by rw [← hstart, skipWhitespace_depth]
    have hheap : start.heap = b.heap := by rw [← hstart, skipWhitespace_heap]
    obtain ⟨b', hr, hblocks, ho⟩ | ⟨fields, b', hr, hblocks, hlt, ho, hd, hnames, hfields⟩ :=
      parseFields_spec (b := { start with offset := start.offset - 1 }) hooks hparse
        content.length [] b.heap.blocks
        (by dsimp only; omega) (by omega) hdepth (by simp [hheap, Item.blocksFields]) (by simp)
        (by simp)
    · rw [hr]
      exact .inl ⟨_, rfl, hblocks, ho⟩
    · rw [hr]
      dsimp only at hlt
      exact .inr ⟨_, _, rfl, hblocks, by dsimp only; omega, ho, by simp [hd],
        .object hnames hfields⟩

end

/-! ## Values -/

/-- A literal. -/
theorem spec_literal {v : Item} {n : ℕ} {s : List UInt8} (h : startsWith content b s)
    (hpos : 0 < s.length) (hinner : v.inner = 0) (hv : v.WellFormed n) :
    Spec content Item.inner (Item.WellFormed n) b
      (.ok (some v, { b with offset := b.offset + s.length })) :=
  .inr ⟨_, _, rfl, by rw [hinner]; rfl, Nat.lt_add_of_pos_right hpos,
    le_length_of_startsWith h hpos, rfl, hv⟩

/-- A value, given the ones inside. -/
theorem parseValue_spec_of {n fuel : ℕ} (h : b.offset ≤ content.length)
    (harray : b.offset < content.length → Spec content Item.inner (Item.WellFormed n) b
      (parseArray hooks content (parseValue hooks content fuel) b))
    (hobject : b.offset < content.length → Spec content Item.inner (Item.WellFormed n) b
      (parseObject hooks content (parseValue hooks content fuel) b)) :
    Spec content Item.inner (Item.WellFormed n) b (parseValue hooks content (fuel + 1) b) := by
  rw [parseValue]
  by_cases hnull : startsWith content b (cstr "null")
  · rw [if_pos hnull]
    exact spec_literal hnull (by decide) rfl .null
  by_cases hfalse : startsWith content b (cstr "false")
  · rw [if_neg hnull, if_pos hfalse]
    exact spec_literal hfalse (by decide) rfl (.bool false)
  by_cases htrue : startsWith content b (cstr "true")
  · rw [if_neg hnull, if_neg hfalse, if_pos htrue]
    exact spec_literal htrue (by decide) rfl (.bool true)
  rw [if_neg hnull, if_neg hfalse, if_neg htrue]
  split
  case _ hend => exact .inl ⟨_, rfl, rfl, h⟩
  case _ c hc =>
    have hlt : b.offset < content.length := (List.getElem?_eq_some_iff.1 hc).1
    split_ifs
    · obtain ⟨b', hr, hfail⟩ | ⟨s, b', hr, hblocks, hlt', ho, hd, hs⟩ :=
        parseString_spec hooks hlt
      · rw [hr]
        exact .inl ⟨_, rfl, hfail⟩
      · rw [hr]
        exact .inr ⟨_, _, rfl, hblocks, hlt', ho, hd, .string hs⟩
    · exact parseNumber_spec n h
    · exact harray hlt
    · exact hobject hlt
    · exact .inl ⟨_, rfl, rfl, h⟩

/-- **A value**, from inside as many arrays and objects as leave `n` more. -/
theorem parseValue_spec (hooks : Hooks) {n : ℕ} (h : b.offset ≤ content.length)
    (hdepth : b.depth + n = nestingLimit) :
    Spec content Item.inner (Item.WellFormed n) b (parseValue hooks content (n + 1) b) := by
  induction n generalizing b with
  | zero =>
    have hdeep : nestingLimit ≤ b.depth := hdepth.ge
    refine parseValue_spec_of h (fun hlt => ?_) fun hlt => ?_
    · rw [parseArray, if_pos hdeep]
      exact .inl ⟨_, rfl, rfl, h⟩
    · rw [parseObject, if_pos hdeep]
      exact .inl ⟨_, rfl, rfl, h⟩
  | succ n ih =>
    have hparse : Parses content (parseValue hooks content (n + 1)) n (b.depth + 1) :=
      fun b' hb' hd => ih hb' (by omega)
    exact parseValue_spec_of h (parseArray_spec hparse) (parseObject_spec hparse)

theorem errorPosition_le (content : List UInt8) (offset : ℕ) :
    errorPosition content offset ≤ content.length := by
  rw [errorPosition]
  split_ifs <;> omega

/-- What is left of a text of so many bytes, once it is parsed: the blocks of the item, which is
    well-formed, if there is one. -/
structure Leaves (length : ℕ) (heap : Heap) (item : Option Item) (position : ℕ) (heap' : Heap) :
    Prop where
  position_le : position ≤ length
  blocks : heap'.blocks = heap.blocks + (item.map Item.blocks).getD 0
  wellFormed : ∀ v ∈ item, v.WellFormed nestingLimit

theorem parseWithLengthOpts_leaves (hooks : Hooks) (content : List UInt8)
    (requireNullTerminated : Bool) (heap : Heap) :
    ∃ item position heap', parseWithLengthOpts hooks content requireNullTerminated heap =
        .ok (item, position, heap') ∧ Leaves content.length heap item position heap' := by
  have herror := errorPosition_le content
  by_cases hnil : content = []
  · exact ⟨none, 0, heap, by rw [parseWithLengthOpts, if_pos hnil], ⟨Nat.zero_le _, rfl, by simp⟩⟩
  rw [parseWithLengthOpts, if_neg hnil]
  split
  case _ heap' halloc => exact ⟨none, _, _, rfl, herror 0, Hooks.blocks_allocate halloc, by simp⟩
  case _ heap' halloc =>
    have hheap := Hooks.blocks_allocate halloc
    rw [Bool.toNat_true] at hheap
    have hskip := skipWhitespace_offset content
      (skipUtf8Bom_offset content (b := ⟨0, 0, heap'⟩) (Nat.zero_le _))
    obtain ⟨b, hr, hblocks, ho⟩ | ⟨v, b, hr, hblocks, -, ho, -, hv⟩ :=
      parseValue_spec hooks (n := nestingLimit) hskip.2.1 (by simp)
    all_goals
      rw [skipWhitespace_heap, skipUtf8Bom_heap] at hblocks
      dsimp only at hblocks
      rw [hr]
      dsimp only
    · exact ⟨none, _, _, rfl, herror _, by simp [hblocks, hheap], by simp⟩
    have hskip' := skipWhitespace_offset content ho
    have hitem : b.heap.blocks = heap.blocks + v.blocks := by
      rw [hblocks, hheap, Item.blocks]
      omega
    split_ifs with hrequire hzero
    · exact ⟨some v, _, _, rfl, hskip'.2.1, by simp [hitem], by simpa using hv⟩
    · exact ⟨none, _, _, rfl, herror _, by simp [hitem], by simp⟩
    · exact ⟨some v, _, _, rfl, ho, by simp [hitem], by simpa using hv⟩

/-- **A text** is parsed inside its buffer, and without a leak: whatever it is, and whichever
    allocations fail, `cJSON_Parse` returns; then it has left the blocks of the item, which is
    well-formed, or none if there is no item. -/
theorem parse_spec (hooks : Hooks) (content : List UInt8) (requireNullTerminated : Bool)
    (heap : Heap) :
    ∃ item position heap', parseWithLengthOpts hooks content requireNullTerminated heap =
        .ok (item, position, heap') ∧
      position ≤ content.length ∧
      heap'.blocks = heap.blocks + (item.map Item.blocks).getD 0 ∧
      ∀ v ∈ item, v.WellFormed nestingLimit := by
  obtain ⟨item, position, heap', hparse, hleaves⟩ :=
    parseWithLengthOpts_leaves hooks content requireNullTerminated heap
  exact ⟨item, position, heap', hparse, hleaves.position_le, hleaves.blocks, hleaves.wellFormed⟩

end HybridPqc.Cjson
