import HybridPqc.Cjson.Bounds
import HybridPqc.Cjson.Unicode

/-!
# Strings that are read

A text between quotes *spells* a string: with the bytes of the string, except control characters,
escape sequences, and literals for characters (`Spells`). `parse_string` makes the string of the
text, whatever comes after it, up to its first zero (`parseString_spells`). What `print_string_ptr`
writes spells the string it is given (`spells_text`).
-/

namespace HybridPqc.Cjson

variable {hooks : Hooks} {content : List UInt8} {b : ParseBuffer}

/-- A text spells a string. The characters of literals are encoded as UTF-8. -/
inductive Spells : List UInt8 → List UInt8 → Prop
  | nil : Spells [] []
  | byte {c : UInt8} {t s : List UInt8} (hc : isPlain c) (h : Spells t s) :
      Spells (c :: t) (c :: s)
  | escape {e c : UInt8} {t s : List UInt8} (he : unescape e = some c) (h : Spells t s) :
      Spells (92 :: e :: t) (c :: s)
  | unit {cs t s : List UInt8} {c : Char} (hlen : cs.length = 4)
      (hcs : hexValue 0 cs = some c.toNat) (hc : c.toNat < 0x10000) (h : Spells t s) :
      Spells (92 :: 117 :: (cs ++ t)) (String.utf8EncodeChar c ++ s)
  | pair {cs cs' t s : List UInt8} {c : Char} (hlen : cs.length = 4) (hlen' : cs'.length = 4)
      (hcs : hexValue 0 cs = some (highSurrogate c.toNat))
      (hcs' : hexValue 0 cs' = some (lowSurrogate c.toNat)) (hc : 0x10000 ≤ c.toNat)
      (h : Spells t s) :
      Spells (92 :: 117 :: (cs ++ 92 :: 117 :: (cs' ++ t))) (String.utf8EncodeChar c ++ s)

/-! ## The end -/

theorem findEnd_quote (s : List UInt8) : findEnd (34 :: s) = some (0, 0) := by
  cases s <;> rfl

theorem findEnd_escape (d : UInt8) (s : List UInt8) :
    findEnd (92 :: d :: s) = (findEnd s).map fun r => (r.1 + 2, r.2 + 1) := rfl

theorem findEnd_byte {c : UInt8} (hc : c ≠ 34 ∧ c ≠ 92) (s : List UInt8) :
    findEnd (c :: s) = (findEnd s).map fun r => (r.1 + 1, r.2) := by
  cases s with
  | nil => simp [findEnd, hc.1]
  | cons d s => rw [findEnd, if_neg hc.1, if_neg hc.2]

theorem findEnd_bytes {cs : List UInt8} (h : ∀ c ∈ cs, c ≠ 34 ∧ c ≠ 92) (s : List UInt8) :
    findEnd (cs ++ s) = (findEnd s).map fun r => (r.1 + cs.length, r.2) := by
  induction cs with
  | nil => simp
  | cons c cs ih =>
    rw [List.forall_mem_cons] at h
    rw [List.cons_append, findEnd_byte h.1, ih h.2, Option.map_map]
    rfl

/-- Hexadecimal digits are neither quotes nor backslashes. -/
theorem ne_of_hexValue {cs : List UInt8} {h n : ℕ} (hcs : hexValue h cs = some n) :
    ∀ c ∈ cs, c ≠ 34 ∧ c ≠ 92 := by
  induction cs generalizing h with
  | nil => simp
  | cons c cs ih =>
    obtain ⟨d, hd, hcs⟩ := Option.bind_eq_some_iff.1 hcs
    rw [List.forall_mem_cons]
    refine ⟨⟨?_, ?_⟩, ih hcs⟩
    · rintro rfl
      cases hd
    · rintro rfl
      cases hd

/-- The digits of a literal come after its backslash. -/
theorem findEnd_literal {cs : List UInt8} {n : ℕ} (hlen : cs.length = 4)
    (hcs : hexValue 0 cs = some n) (s : List UInt8) :
    findEnd (92 :: 117 :: (cs ++ s)) = (findEnd s).map fun r => (r.1 + 6, r.2 + 1) := by
  rw [findEnd_escape, findEnd_bytes (ne_of_hexValue hcs), Option.map_map, hlen]
  rfl

/-- **The text ends** at its quote, and there are at least as many bytes that are not skipped as
    there are in the string. -/
theorem Spells.findEnd {t s : List UInt8} (h : Spells t s) (rest : List UInt8) :
    ∃ k, s.length + k ≤ t.length ∧ findEnd (t ++ 34 :: rest) = some (t.length, k) := by
  induction h with
  | nil => exact ⟨0, le_rfl, findEnd_quote rest⟩
  | byte hc h ih =>
    obtain ⟨k, hle, hend⟩ := ih
    refine ⟨k, by simp; omega, ?_⟩
    rw [List.cons_append, findEnd_byte (isPlain_iff.1 hc).2, hend]
    rfl
  | escape he h ih =>
    obtain ⟨k, hle, hend⟩ := ih
    refine ⟨k + 1, by simp; omega, ?_⟩
    rw [List.cons_append, List.cons_append, findEnd_escape, hend]
    rfl
  | @unit cs t s c hlen hcs hc h ih =>
    obtain ⟨k, hle, hend⟩ := ih
    have hsize := c.utf8Size_le_four
    refine ⟨k + 1, by simp; omega, ?_⟩
    rw [List.cons_append, List.cons_append, List.append_assoc, findEnd_literal hlen hcs, hend]
    simp [hlen]
    omega
  | @pair cs cs' t s c hlen hlen' hcs hcs' hc h ih =>
    obtain ⟨k, hle, hend⟩ := ih
    have hsize := c.utf8Size_le_four
    refine ⟨k + 2, by simp; omega, ?_⟩
    rw [List.cons_append, List.cons_append, List.append_assoc, findEnd_literal hlen hcs,
      List.cons_append, List.cons_append, List.append_assoc, findEnd_literal hlen' hcs', hend]
    simp [hlen, hlen']
    omega

/-! ## The loop -/

/-- What an iteration reads and writes, then the other ones. -/
theorem decode_eq {i n inputEnd : ℕ} {s s' bytes : List UInt8} {output : Block UInt8}
    (hstep : decodeStep content i inputEnd = some (s, n)) (hn : 0 < n) (hend : i + n ≤ inputEnd)
    (hholds : output.Holds bytes) (hroom : bytes.length + (s ++ s').length ≤ output.length)
    (hrest : ∀ output₁ : Block UInt8, output₁.Holds (bytes ++ s) →
      (bytes ++ s).length + s'.length ≤ output₁.length →
      ∃ output', decode content (i + n) inputEnd output₁ (bytes ++ s).length =
          .ok (inputEnd, some (output', (bytes ++ s).length + s'.length)) ∧
        output'.Holds (bytes ++ s ++ s') ∧ output'.length = output₁.length) :
    ∃ output', decode content i inputEnd output bytes.length =
        .ok (inputEnd, some (output', bytes.length + (s ++ s').length)) ∧
      output'.Holds (bytes ++ (s ++ s')) ∧ output'.length = output.length := by
  rw [List.length_append] at hroom
  obtain ⟨output₁, hstore, hholds₁, hlength₁⟩ := hholds.storeAll s (by omega)
  obtain ⟨output', hdecode, hholds', hlength'⟩ := hrest output₁ hholds₁ (by
    rw [List.length_append]
    omega)
  refine ⟨output', ?_, by rwa [← List.append_assoc], hlength'.trans hlength₁⟩
  rw [List.length_append, add_assoc] at hdecode
  rw [decode, if_pos (by omega), hstep]
  dsimp only
  rw [if_neg hn.ne', hstore, List.length_append]
  exact hdecode

/-- An iteration at a literal. -/
theorem decodeStep_literal {i inputEnd : ℕ} {s : List UInt8}
    (hdrop : content.drop i = 92 :: 117 :: s) :
    decodeStep content i inputEnd = utf16LiteralToUtf8 content i inputEnd := by
  have hu : content[i + 1]? = some 117 := getElem?_of_drop hdrop 1
  simp [decodeStep, getElem?_of_drop_cons hdrop, hu, unescape]

/-- **The loop over a string literal** writes the string. -/
theorem Spells.decode {t s : List UInt8} (h : Spells t s) {i inputEnd : ℕ} {rest : List UInt8}
    {output : Block UInt8} {bytes : List UInt8} (hdrop : content.drop i = t ++ rest)
    (hend : inputEnd = i + t.length) (hholds : output.Holds bytes)
    (hroom : bytes.length + s.length ≤ output.length) :
    ∃ output', Cjson.decode content i inputEnd output bytes.length =
        .ok (inputEnd, some (output', bytes.length + s.length)) ∧
      output'.Holds (bytes ++ s) ∧ output'.length = output.length := by
  induction h generalizing i output bytes with
  | nil =>
    refine ⟨output, ?_, by rwa [List.append_nil], rfl⟩
    rw [Cjson.decode, if_neg (by simp [hend]), hend]
    rfl
  | @byte c t s hc h ih =>
    rw [List.length_cons] at hend
    have hstep : decodeStep content i inputEnd = some ([c], 1) := by
      simp [decodeStep, getElem?_of_drop_cons hdrop, (isPlain_iff.1 hc).2.2]
    exact decode_eq hstep one_pos (by omega) hholds hroom fun output₁ hholds₁ hroom₁ =>
      ih (drop_add_of_drop (s := [c]) hdrop) (by omega) hholds₁ hroom₁
  | @escape e c t s he h ih =>
    rw [List.length_cons, List.length_cons] at hend
    have hstep : decodeStep content i inputEnd = some ([c], 2) := by
      have hsecond : content[i + 1]? = some e := getElem?_of_drop hdrop 1
      simp [decodeStep, getElem?_of_drop_cons hdrop, hsecond, he]
    exact decode_eq hstep two_pos (by omega) hholds hroom fun output₁ hholds₁ hroom₁ =>
      ih (drop_add_of_drop (s := [92, e]) hdrop) (by omega) hholds₁ hroom₁
  | @unit cs t s c hlen hcs hc h ih =>
    have hlength : (92 :: 117 :: (cs ++ t)).length = 6 + t.length := by
      rw [List.length_cons, List.length_cons, List.length_append, hlen]
      omega
    rw [hlength] at hend
    have htext : 92 :: 117 :: (cs ++ t) ++ rest = 92 :: 117 :: (cs ++ (t ++ rest)) := by
      rw [List.cons_append, List.cons_append, List.append_assoc]
    rw [htext] at hdrop
    have hstep : decodeStep content i inputEnd = some (String.utf8EncodeChar c, 6) := by
      rw [decodeStep_literal hdrop]
      exact utf16LiteralToUtf8_unit hlen hcs hdrop (by omega) hc
    have hnext : content.drop (i + 6) = t ++ rest := by
      have hdigits := drop_add_of_drop (s := 92 :: 117 :: cs) hdrop
      rwa [List.length_cons, List.length_cons, hlen] at hdigits
    exact decode_eq hstep (by norm_num) (by omega) hholds hroom fun output₁ hholds₁ hroom₁ =>
      ih hnext (by omega) hholds₁ hroom₁
  | @pair cs cs' t s c hlen hlen' hcs hcs' hc h ih =>
    have hlength : (92 :: 117 :: (cs ++ 92 :: 117 :: (cs' ++ t))).length = 12 + t.length := by
      rw [List.length_cons, List.length_cons, List.length_append, List.length_cons,
        List.length_cons, List.length_append, hlen, hlen']
      omega
    rw [hlength] at hend
    have htext : 92 :: 117 :: (cs ++ 92 :: 117 :: (cs' ++ t)) ++ rest =
        92 :: 117 :: (cs ++ 92 :: 117 :: (cs' ++ (t ++ rest))) := by
      simp
    rw [htext] at hdrop
    have hstep : decodeStep content i inputEnd = some (String.utf8EncodeChar c, 12) := by
      rw [decodeStep_literal hdrop]
      exact utf16LiteralToUtf8_pair hlen hlen' hc hcs hcs' hdrop (by omega)
    have hnext : content.drop (i + 12) = t ++ rest := by
      have hfirst := drop_add_of_drop (s := 92 :: 117 :: cs) hdrop
      have hdigits := drop_add_of_drop (s := 92 :: 117 :: cs') hfirst
      rwa [List.length_cons, List.length_cons, List.length_cons, List.length_cons, hlen, hlen',
        add_assoc] at hdigits
    exact decode_eq hstep (by norm_num) (by omega) hholds hroom fun output₁ hholds₁ hroom₁ =>
      ih hnext (by omega) hholds₁ hroom₁

/-! ## Strings -/

/-- **A text between quotes** is read as the string that it spells, up to its first zero. -/
theorem parseString_spells (hall : ∀ n size, hooks.grants n size = true) {t s rest : List UInt8}
    (h : Spells t s) (hdrop : content.drop b.offset = 34 :: (t ++ 34 :: rest)) :
    ∃ heap, parseString hooks content b =
      .ok (some (s.takeWhile (· ≠ 0)), ⟨b.offset + (t.length + 2), b.depth, heap⟩) := by
  have hquote := getElem?_of_drop_cons hdrop
  have hrest : content.drop (b.offset + 1) = t ++ 34 :: rest :=
    drop_add_of_drop (s := [34]) hdrop
  obtain ⟨k, hk, hend⟩ := h.findEnd rest
  rw [← hrest] at hend
  generalize hsize : b.offset + 1 + t.length - b.offset - k + 1 = size
  have hroom : s.length < size := by omega
  obtain ⟨output, hdecode, hholds, hlength⟩ := h.decode hrest rfl
    (Block.holds_nil (b := .uninit size)) (by
      rw [Block.length_uninit, List.length_nil, zero_add]
      exact hroom.le)
  rw [Block.length_uninit] at hlength
  rw [List.nil_append] at hholds
  rw [List.length_nil, zero_add] at hdecode
  obtain ⟨output', hstore, hholds', -⟩ := hholds.store (by rwa [hlength]) 0
  have halloc : hooks.allocate size b.heap = (true, ⟨b.heap.calls + 1, b.heap.blocks + 1⟩) := by
    simp [Hooks.allocate, hall]
  refine ⟨⟨b.heap.calls + 1, b.heap.blocks + 1⟩, ?_⟩
  rw [parseString, hquote]
  dsimp only
  rw [if_neg (by simp), hend]
  dsimp only
  rw [hsize, halloc]
  dsimp only
  rw [hdecode]
  dsimp only
  rw [hstore, Option.bind_some, hholds'.cString,
    show b.offset + 1 + t.length + 1 = b.offset + (t.length + 2) by omega]

/-- What is after a backslash stands for the byte. -/
theorem unescape_of_shortEscape {c e : UInt8} (h : shortEscape c = some e) :
    unescape e = some c := by
  rw [shortEscape] at h
  split_ifs at h with h₁ h₂ h₃ h₄ h₅ h₆ h₇
  all_goals
    obtain rfl := Option.some.inj h
    simp_all [unescape]

theorem ofHexDigit_hexDigit : ∀ n < 16, ofHexDigit (hexDigit n) = some n := by decide

/-- The digits that are written have the value. -/
theorem hexValue_unicodeEscape {n : ℕ} (h : n < 65536) :
    hexValue 0 (unicodeEscape n).tail = some n := by
  have hlt : ∀ m : ℕ, m % 16 < 16 := fun m => Nat.mod_lt _ (by norm_num)
  simp only [unicodeEscape, List.tail_cons, hexValue, ofHexDigit_hexDigit _ (hlt _),
    Option.bind_some, Option.some.injEq]
  omega

/-- **What is written** for a string spells it. -/
theorem spells_text (s : CString) : Spells (s.flatMap escape) s := by
  induction s with
  | nil => exact .nil
  | cons c s ih =>
    rw [List.flatMap_cons, escape]
    by_cases hplain : isPlain c
    · rw [if_pos hplain]
      exact .byte hplain ih
    rw [if_neg hplain]
    cases hshort : shortEscape c with
    | some e => exact .escape (unescape_of_shortEscape hshort) ih
    | none =>
      -- a control character
      have hlt := lt_of_shortEscape (by simpa using hplain) hshort
      have hchar : (Char.ofUInt8 c).toNat = c.toNat := c.toNat_toUInt32
      have hutf8 : String.utf8EncodeChar (Char.ofUInt8 c) = [c] := by
        rw [String.utf8EncodeChar, if_pos (by change (Char.ofUInt8 c).toNat ≤ 127; omega)]
        exact congrArg ([·]) (UInt8.ofNat_toNat)
      have hvalue : hexValue 0 (unicodeEscape c.toNat).tail = some (Char.ofUInt8 c).toNat := by
        rw [hchar, hexValue_unicodeEscape (by omega)]
      have hspells := Spells.unit rfl hvalue (by rw [hchar]; omega) ih
      rwa [hutf8] at hspells

end HybridPqc.Cjson
