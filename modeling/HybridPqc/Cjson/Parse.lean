import HybridPqc.Cjson.Heap

/-!
# The parser of cJSON

`cJSON_Parse` of `c/cjson/cJSON.c`. A parser has an offset in the text, and the number of the
arrays and objects around it; those of arrays and objects have loops over what is inside, and call
`parse_value` for it, which calls them in turn.
-/

namespace HybridPqc.Cjson

/-- The state of a parser, besides the text. -/
structure ParseBuffer where
  offset : ℕ
  depth : ℕ
  heap : Heap

/-- What a parser returns, and its state, if nothing goes wrong. -/
abbrev Outcome (α : Type) := Except Fault (Option α × ParseBuffer)

/-- `sizeof(cJSON)`. -/
abbrev sizeofItem : ℕ := 64

section

variable (hooks : Hooks) (content : List UInt8)

/-! ## The buffer -/

/-- Whether the text goes on with `s`. -/
def startsWith (b : ParseBuffer) (s : List UInt8) : Bool := s.isPrefixOf (content.drop b.offset)

/-- `buffer_skip_whitespace`: at the end of the text, the last byte is not skipped. -/
def skipWhitespace (b : ParseBuffer) : ParseBuffer :=
  if content.length ≤ b.offset then b
  else
    let offset := b.offset + ((content.drop b.offset).takeWhile (· ≤ 32)).length
    { b with offset := if offset = content.length then offset - 1 else offset }

/-- `skip_utf8_bom`. -/
def skipUtf8Bom (b : ParseBuffer) : ParseBuffer :=
  if b.offset + 4 < content.length ∧ startsWith content b [0xEF, 0xBB, 0xBF] then
    { b with offset := b.offset + 3 }
  else b

/-! ## Numbers -/

/-- The characters that are handed to `strtod`. -/
def isNumberChar (c : UInt8) : Bool :=
  Decimal.isDigit c || c == 43 || c == 45 || c == 46 || c == 69 || c == 101

/-- `parse_number`. The decimal point of the locale is a point. -/
def parseNumber (b : ParseBuffer) : Outcome Item :=
  let numberString := (content.drop b.offset).takeWhile isNumberChar
  match hooks.allocate (numberString.length + 1) b.heap with
  | (false, heap) => .ok (none, { b with heap := heap })
  | (true, heap) =>
    let heap := heap.deallocate 1
    match strtod numberString with
    | none => .ok (none, { b with heap := heap })
    | some (number, n) =>
      .ok (some (.number number), { b with offset := b.offset + n, heap := heap })

/-! ## Strings -/

/-- The value of a hexadecimal digit. -/
def ofHexDigit (c : UInt8) : Option ℕ :=
  if 48 ≤ c ∧ c ≤ 57 then some (c.toNat - 48)
  else if 65 ≤ c ∧ c ≤ 70 then some (c.toNat - 55)
  else if 97 ≤ c ∧ c ≤ 102 then some (c.toNat - 87)
  else none

/-- `parse_hex4`, at an index of the text: `0` for what is not hexadecimal. The digits after
    the first one that is not are not read. -/
def parseHex4 (i : ℕ) : ℕ → ℕ → Option ℕ
  | 0, h => some h
  | n + 1, h =>
    match content[i]? with
    | none => none
    | some c =>
      match ofHexDigit c with
      | none => some 0
      | some d => parseHex4 (i + 1) n (16 * h + d)

/-- The encoding of a code point as UTF-8; there is none if it is too large. -/
def utf8 (codepoint : ℕ) : List UInt8 :=
  let byte (mark shift : ℕ) : UInt8 := UInt8.ofNat (mark ||| codepoint / 2 ^ shift)
  let next (shift : ℕ) : UInt8 := UInt8.ofNat ((codepoint / 2 ^ shift ||| 0x80) &&& 0xBF)
  if codepoint < 0x80 then [UInt8.ofNat (codepoint &&& 0x7F)]
  else if codepoint < 0x800 then [byte 0xC0 6, next 0]
  else if codepoint < 0x10000 then [byte 0xE0 12, next 6, next 0]
  else if codepoint ≤ 0x10FFFF then [byte 0xF0 18, next 12, next 6, next 0]
  else []

/-- The end of `utf16_literal_to_utf8`: the bytes for a code point, and the length of the literal,
    which is `0` if there is an error. -/
def encodeLiteral (codepoint sequenceLength : ℕ) : List UInt8 × ℕ :=
  if utf8 codepoint = [] then ([], 0) else (utf8 codepoint, sequenceLength)

/-- `utf16_literal_to_utf8`, of a literal with one code unit, or two. -/
def utf16LiteralToUtf8 (inputPointer inputEnd : ℕ) : Option (List UInt8 × ℕ) := do
  if inputEnd < inputPointer + 6 then
    return ([], 0)
  let first ← parseHex4 content (inputPointer + 2) 4 0
  if 0xDC00 ≤ first ∧ first ≤ 0xDFFF then
    return ([], 0)
  if 0xD800 ≤ first ∧ first ≤ 0xDBFF then
    let second := inputPointer + 6
    if inputEnd < second + 6 then
      return ([], 0)
    let backslash ← content[second]?
    if backslash ≠ 92 then
      return ([], 0)
    let u ← content[second + 1]?
    if u ≠ 117 then
      return ([], 0)
    let code ← parseHex4 content (second + 2) 4 0
    if code < 0xDC00 ∨ 0xDFFF < code then
      return ([], 0)
    return encodeLiteral (0x10000 + (((first &&& 0x3FF) <<< 10) ||| (code &&& 0x3FF))) 12
  return encodeLiteral first 6

/-- The byte for a character after a backslash, if it is a single one. -/
def unescape (c : UInt8) : Option UInt8 :=
  if c = 98 then some 8
  else if c = 102 then some 12
  else if c = 110 then some 10
  else if c = 114 then some 13
  else if c = 116 then some 9
  else if c = 34 ∨ c = 92 ∨ c = 47 then some c
  else none

/-- An iteration of the loop over a string literal: the bytes that are written, and how many are
    read, which is `0` if there is an error. -/
def decodeStep (inputPointer inputEnd : ℕ) : Option (List UInt8 × ℕ) := do
  let c ← content[inputPointer]?
  if c ≠ 92 then
    return ([c], 1)
  let e ← content[inputPointer + 1]?
  match unescape e with
  | some c => return ([c], 2)
  | none => if e = 117 then utf16LiteralToUtf8 content inputPointer inputEnd else return ([], 0)

/-- The loop: where it ends, and, unless there is an error, the output and its length. -/
def decode (inputPointer inputEnd : ℕ) (output : Block UInt8) (length : ℕ) :
    Except Fault (ℕ × Option (Block UInt8 × ℕ)) :=
  if inputPointer < inputEnd then
    match decodeStep content inputPointer inputEnd with
    | none => .error .overrun
    | some (bytes, n) =>
      if n = 0 then .ok (inputPointer, none)
      else
        match output.storeAll length bytes with
        | none => .error .overrun
        | some output => decode (inputPointer + n) inputEnd output (length + bytes.length)
  else .ok (inputPointer, some (output, length))
termination_by inputEnd - inputPointer

/-- The end of a string: how many bytes there are before the quote, and how many of them
    are skipped. -/
def findEnd : List UInt8 → Option (ℕ × ℕ)
  | [] => none
  | [c] => if c = 34 then some (0, 0) else none
  | c :: d :: s =>
    if c = 34 then some (0, 0)
    else if c = 92 then (findEnd s).map fun r => (r.1 + 2, r.2 + 1)
    else (findEnd (d :: s)).map fun r => (r.1 + 1, r.2)

/-- `parse_string`. -/
def parseString (b : ParseBuffer) : Outcome CString :=
  match content[b.offset]? with
  | none => .error .overrun
  | some c =>
    let inputPointer := b.offset + 1
    if c ≠ 34 then .ok (none, { b with offset := inputPointer })
    else
      match findEnd (content.drop inputPointer) with
      | none => .ok (none, { b with offset := inputPointer })
      | some (n, skipped) =>
        let inputEnd := inputPointer + n
        let size := inputEnd - b.offset - skipped + 1
        match hooks.allocate size b.heap with
        | (false, heap) => .ok (none, { b with offset := inputPointer, heap := heap })
        | (true, heap) =>
          match decode content inputPointer inputEnd (.uninit size) 0 with
          | .error e => .error e
          | .ok (inputPointer, none) =>
            .ok (none, { b with offset := inputPointer, heap := heap.deallocate 1 })
          | .ok (_, some (output, length)) =>
            match (output.store length 0).bind Block.cString with
            | none => .error .overrun
            | some s => .ok (some s, { b with offset := inputEnd + 1, heap := heap })

/-! ## Arrays and objects -/

/-- The loop of `parse_array`: the elements so far, with `fuel` for the ones to come. If it fails,
    they are deleted, along with the one that is being parsed. -/
def parseItems (parseValue : ParseBuffer → Outcome Item) :
    ℕ → List Item → ParseBuffer → Outcome (List Item)
  | 0, _, _ => .error .outOfFuel
  | fuel + 1, head, b =>
    match hooks.allocate sizeofItem b.heap with
    | (false, heap) => .ok (none, { b with heap := heap.deallocate (Item.blocksItems head) })
    | (true, heap) =>
      match parseValue (skipWhitespace content { b with offset := b.offset + 1, heap := heap }) with
      | .error e => .error e
      | .ok (none, b) =>
        .ok (none, { b with heap := b.heap.deallocate (Item.blocksItems head + 1) })
      | .ok (some v, b) =>
        let b := skipWhitespace content b
        let head := head ++ [v]
        if startsWith content b [44] then parseItems parseValue fuel head b
        else if startsWith content b [93] then .ok (some head, b)
        else .ok (none, { b with heap := b.heap.deallocate (Item.blocksItems head) })

/-- `parse_array`. -/
def parseArray (parseValue : ParseBuffer → Outcome Item) (b : ParseBuffer) : Outcome Item :=
  if nestingLimit ≤ b.depth then .ok (none, b)
  else
    let b := { b with depth := b.depth + 1 }
    match content[b.offset]? with
    | none => .error .overrun
    | some c =>
      if c ≠ 91 then .ok (none, b)
      else
        let b := skipWhitespace content { b with offset := b.offset + 1 }
        if startsWith content b [93] then
          .ok (some (.array []), { b with offset := b.offset + 1, depth := b.depth - 1 })
        else
          let b := { b with offset := b.offset - 1 }
          if content.length ≤ b.offset + 1 then .ok (none, b)
          else
            match parseItems hooks content parseValue content.length [] b with
            | .error e => .error e
            | .ok (none, b) => .ok (none, b)
            | .ok (some items, b) =>
              .ok (some (.array items), { b with offset := b.offset + 1, depth := b.depth - 1 })

/-- The loop of `parse_object`. -/
def parseFields (parseValue : ParseBuffer → Outcome Item) :
    ℕ → List (CString × Item) → ParseBuffer → Outcome (List (CString × Item))
  | 0, _, _ => .error .outOfFuel
  | fuel + 1, head, b =>
    let release (b : ParseBuffer) (n : ℕ) : ParseBuffer :=
      { b with heap := b.heap.deallocate (Item.blocksFields head + n) }
    match hooks.allocate sizeofItem b.heap with
    | (false, heap) => .ok (none, release { b with heap := heap } 0)
    | (true, heap) =>
      let b := { b with heap := heap }
      if content.length ≤ b.offset + 1 then .ok (none, release b 1)
      else
        match parseString hooks content
            (skipWhitespace content { b with offset := b.offset + 1 }) with
        | .error e => .error e
        | .ok (none, b) => .ok (none, release b 1)
        | .ok (some name, b) =>
          let b := skipWhitespace content b
          if !startsWith content b [58] then .ok (none, release b 2)
          else
            match parseValue (skipWhitespace content { b with offset := b.offset + 1 }) with
            | .error e => .error e
            | .ok (none, b) => .ok (none, release b 2)
            | .ok (some v, b) =>
              let b := skipWhitespace content b
              let head := head ++ [(name, v)]
              if startsWith content b [44] then parseFields parseValue fuel head b
              else if startsWith content b [125] then .ok (some head, b)
              else .ok (none, { b with heap := b.heap.deallocate (Item.blocksFields head) })

/-- `parse_object`. -/
def parseObject (parseValue : ParseBuffer → Outcome Item) (b : ParseBuffer) : Outcome Item :=
  if nestingLimit ≤ b.depth then .ok (none, b)
  else
    let b := { b with depth := b.depth + 1 }
    if !startsWith content b [123] then .ok (none, b)
    else
      let b := skipWhitespace content { b with offset := b.offset + 1 }
      if startsWith content b [125] then
        .ok (some (.object []), { b with offset := b.offset + 1, depth := b.depth - 1 })
      else
        let b := { b with offset := b.offset - 1 }
        if content.length ≤ b.offset + 1 then .ok (none, b)
        else
          match parseFields hooks content parseValue content.length [] b with
          | .error e => .error e
          | .ok (none, b) => .ok (none, b)
          | .ok (some fields, b) =>
            .ok (some (.object fields), { b with offset := b.offset + 1, depth := b.depth - 1 })

/-! ## Values -/

/-- `parse_value`, for at most as many arrays and objects inside each other as `fuel`. -/
def parseValue : ℕ → ParseBuffer → Outcome Item
  | 0, _ => .error .outOfFuel
  | fuel + 1, b =>
    if startsWith content b (cstr "null") then
      .ok (some .null, { b with offset := b.offset + 4 })
    else if startsWith content b (cstr "false") then
      .ok (some (.bool false), { b with offset := b.offset + 5 })
    else if startsWith content b (cstr "true") then
      .ok (some (.bool true), { b with offset := b.offset + 4 })
    else
      match content[b.offset]? with
      | none => .ok (none, b)
      | some c =>
        if c = 34 then
          match parseString hooks content b with
          | .error e => .error e
          | .ok (s, b) => .ok (s.map .string, b)
        else if c = 45 ∨ Decimal.isDigit c then parseNumber hooks content b
        else if c = 91 then parseArray hooks content (parseValue fuel) b
        else if c = 123 then parseObject hooks content (parseValue fuel) b
        else .ok (none, b)

/-- The position of an error. -/
def errorPosition (offset : ℕ) : ℕ :=
  if offset < content.length then offset else content.length - 1

/-- `cJSON_ParseWithLengthOpts`: the item, if any, and the position where the parser has ended, or
    that of the error. -/
def parseWithLengthOpts (requireNullTerminated : Bool) (heap : Heap) :
    Except Fault (Option Item × ℕ × Heap) :=
  if content = [] then .ok (none, 0, heap)
  else
    match hooks.allocate sizeofItem heap with
    | (false, heap) => .ok (none, errorPosition content 0, heap)
    | (true, heap) =>
      match parseValue hooks content (nestingLimit + 1)
          (skipWhitespace content (skipUtf8Bom content ⟨0, 0, heap⟩)) with
      | .error e => .error e
      | .ok (none, b) => .ok (none, errorPosition content b.offset, b.heap.deallocate 1)
      | .ok (some v, b) =>
        if requireNullTerminated then
          let b := skipWhitespace content b
          if startsWith content b [0] then .ok (some v, b.offset, b.heap)
          else .ok (none, errorPosition content b.offset, b.heap.deallocate v.blocks)
        else .ok (some v, b.offset, b.heap)

end

/-- `cJSON_Parse`, of a string: its text ends with a zero. -/
def cJSONParse (hooks : Hooks) (value : CString) (heap : Heap) :
    Except Fault (Option Item × ℕ × Heap) :=
  parseWithLengthOpts hooks (value ++ [0]) false heap

end HybridPqc.Cjson
