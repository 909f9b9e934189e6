import HybridPqc.Cjson.Heap
import HybridPqc.Lib.Attempt

/-!
# The printer of cJSON

`cJSON_PrintUnformatted` of `c/cjson/cJSON.c`. The text is written to a buffer that is reallocated
whenever it is too small for what comes next (`ensure`).

What is written ends with a zero, which the next text overwrites: `update_offset` looks for it. So
some of the functions do not count what they have written.
-/

namespace HybridPqc.Cjson

/-- `INT_MAX`. -/
abbrev intMax : ℕ := 2147483647

/-- A `printbuffer`: there is none once it could not be reallocated. Its `length` is that of the
    block. -/
structure PrintBuffer where
  buffer : Option (Block UInt8)
  offset : ℕ
  depth : ℕ
  heap : Heap

/-- A function that prints, and returns whether it was able to. -/
abbrev Printer := Attempt Fault PrintBuffer

section

variable (hooks : Hooks)

/-! ## The buffer -/

/-- `hooks->reallocate`: the block is released if another one is allocated. -/
def Hooks.realloc (size : ℕ) (heap : Heap) : Bool × Heap :=
  (hooks.grants heap.calls size, ⟨heap.calls + 1, heap.blocks⟩)

/-- What `ensure` does to have a buffer of another size: if there is no memory, the buffer is
    released. -/
def reallocate (p : PrintBuffer) (buffer : Block UInt8) (newsize : ℕ) : Bool × PrintBuffer :=
  if hooks.reallocate then
    match hooks.realloc newsize p.heap with
    | (false, heap) => (false, { p with buffer := none, heap := heap.deallocate 1 })
    | (true, heap) => (true, { p with buffer := some (buffer.resize newsize), heap := heap })
  else
    match hooks.allocate newsize p.heap with
    | (false, heap) => (false, { p with buffer := none, heap := heap.deallocate 1 })
    | (true, heap) =>
      (true, { p with
        buffer := some (Block.resize (buffer.take (p.offset + 1)) newsize)
        heap := heap.deallocate 1 })

/-- `ensure`. -/
def ensure (p : PrintBuffer) (needed : ℕ) : Bool × PrintBuffer :=
  match p.buffer with
  | none => (false, p)
  | some buffer =>
    if 0 < buffer.length ∧ buffer.length ≤ p.offset then (false, p)
    else if intMax < needed then (false, p)
    else
      let needed := needed + p.offset + 1
      if needed ≤ buffer.length then (true, p)
      else if intMax / 2 < needed then
        if needed ≤ intMax then reallocate hooks p buffer intMax else (false, p)
      else reallocate hooks p buffer (needed * 2)

/-- Bytes stored in the buffer, from an index after the offset on. -/
def store (i : ℕ) (bytes : List UInt8) : Printer := fun p =>
  match p.buffer.bind fun buffer => buffer.storeAll (p.offset + i) bytes with
  | none => .error .overrun
  | some buffer => .ok (true, { p with buffer := some buffer })

/-- Space for bytes. -/
def reserve (needed : ℕ) : Printer := fun p => .ok (ensure hooks p needed)

/-- The offset moves on. -/
def advance (n : ℕ) : Printer := Attempt.modify fun p => { p with offset := p.offset + n }

/-- Bytes, with as much space as is asked for, some of which are counted. -/
def emit (needed : ℕ) (bytes : List UInt8) (counted : ℕ) : Printer :=
  (reserve hooks needed).andThen <| (store 0 bytes).andThen (advance counted)

/-- `update_offset`. -/
def updateOffset : Printer := fun p =>
  match p.buffer with
  | none => .ok (true, p)
  | some buffer =>
    match Block.cString (buffer.drop p.offset) with
    | none => .error .overrun
    | some s => .ok (true, { p with offset := p.offset + s.length })

/-! ## Numbers and strings -/

/-- `sprintf`, to a buffer of the given size. -/
def sprintf (size : ℕ) (text : List UInt8) : Except Fault (List UInt8) :=
  if text.length < size then .ok text else .error .overrun

/-- What `print_number` leaves in its buffer of `26` bytes. -/
def numberBuffer : Double → Except Fault (List UInt8)
  | .nan | .infinite _ => sprintf 26 (cstr "null")
  -- it equals its `valueint`
  | .negZero => sprintf 26 (Decimal.ofInt 0).text
  | .finite v =>
    if v = Double.valueint v then sprintf 26 (Decimal.ofInt (Double.valueint v)).text
    else
      match sprintf 26 (Decimal.numeral 15 v).text with
      | .error e => .error e
      | .ok text =>
        match strtod text with
        | none => sprintf 26 (Decimal.numeral 17 v).text
        | some (test, _) =>
          if test.compare (.finite v) then .ok text else sprintf 26 (Decimal.numeral 17 v).text

/-- `print_number`. -/
def printNumber (d : Double) : Printer := fun p =>
  match numberBuffer d with
  | .error e => .error e
  | .ok text =>
    if 25 < text.length then .ok (false, p)
    else emit hooks (text.length + 1) (text ++ [0]) text.length p

/-- How many bytes a byte takes besides itself. -/
def escapeCharacters (c : UInt8) : ℕ :=
  if (shortEscape c).isSome then 1 else if c < 32 then 5 else 0

/-- The loop that copies a string, to an index after the offset. `sprintf` also writes a zero. -/
def copyEscaped (i : ℕ) : CString → Printer
  | [] => .skip
  | c :: s =>
    if isPlain c then (store i [c]).andThen (copyEscaped (i + 1) s)
    else
      (store i [92]).andThen <|
        match shortEscape c with
        | some e => (store (i + 1) [e]).andThen (copyEscaped (i + 2) s)
        | none => (store (i + 1) (unicodeEscape c.toNat ++ [0])).andThen (copyEscaped (i + 6) s)

/-- `print_string_ptr`, of a pointer that is not null. -/
def printStringPtr (input : CString) : Printer :=
  let escapes := (input.map escapeCharacters).sum
  let outputLength := input.length + escapes
  (reserve hooks (outputLength + 3)).andThen <|
    if escapes = 0 then store 0 (34 :: (input ++ [34, 0]))
    else
      (store 0 [34]).andThen <|
        (copyEscaped 1 input).andThen (store (outputLength + 1) [34, 0])

/-! ## Values -/

/-- Whether there may be one more array or object around what is printed. -/
def checkDepth : Printer := Attempt.check fun p => decide (p.depth < nestingLimit)

/-- An array or object is entered, -/
def enter : Printer := Attempt.modify fun p => { p with depth := p.depth + 1 }

/-- and left. -/
def leave : Printer := Attempt.modify fun p => { p with depth := p.depth - 1 }

/-- A literal of `print_value`. -/
def printLiteral (s : List UInt8) : Printer := emit hooks (s.length + 1) (s ++ [0]) 0

mutual

/-- `print_value`, with `print_array` and `print_object`. -/
def printValue : Item → Printer
  | .null => printLiteral hooks (cstr "null")
  | .bool false => printLiteral hooks (cstr "false")
  | .bool true => printLiteral hooks (cstr "true")
  | .number d => printNumber hooks d
  | .string s => printStringPtr hooks s
  | .array items =>
    checkDepth.andThen <| (emit hooks 1 [91] 1).andThen <| enter.andThen <|
      (printItems items).andThen <| (emit hooks 2 [93, 0] 0).andThen leave
  | .object fields =>
    checkDepth.andThen <| (emit hooks 2 [123] 1).andThen <| enter.andThen <|
      (printFields fields).andThen <| (emit hooks 2 [125, 0] 0).andThen leave

/-- The loop of `print_array`. -/
def printItems : List Item → Printer
  | [] => .skip
  | v :: items =>
    (printValue v).andThen <| updateOffset.andThen <|
      (if items.isEmpty then .skip else emit hooks 2 [44, 0] 1).andThen (printItems items)

/-- The loop of `print_object`. -/
def printFields : List (CString × Item) → Printer
  | [] => .skip
  | (name, v) :: fields =>
    (printStringPtr hooks name).andThen <| updateOffset.andThen <|
      (emit hooks 1 [58] 1).andThen <| (printValue v).andThen <| updateOffset.andThen <|
        (if fields.isEmpty then emit hooks 1 [0] 0 else emit hooks 2 [44, 0] 1).andThen
          (printFields fields)

end

/-- The end of `print`: the text goes to a block of its size. -/
def trim (p : PrintBuffer) (buffer : Block UInt8) : Except Fault (Option (Block UInt8) × Heap) :=
  if hooks.reallocate then
    match hooks.realloc (p.offset + 1) p.heap with
    | (false, heap) => .ok (none, heap.deallocate 1)
    | (true, heap) => .ok (some (buffer.resize (p.offset + 1)), heap)
  else
    match hooks.allocate (p.offset + 1) p.heap with
    | (false, heap) => .ok (none, heap.deallocate 1)
    | (true, heap) =>
      let printed : Block UInt8 :=
        Block.resize (buffer.take (min buffer.length (p.offset + 1))) (p.offset + 1)
      match printed.store p.offset 0 with
      | none => .error .overrun
      | some printed => .ok (some printed, heap.deallocate 1)

/-- `print`, unformatted: the text, if there is one. -/
def print (item : Item) (heap : Heap) : Except Fault (Option (Block UInt8) × Heap) :=
  match hooks.allocate 256 heap with
  | (false, heap) => .ok (none, heap)
  | (true, heap) =>
    match (printValue hooks item).andThen updateOffset ⟨some (.uninit 256), 0, 0, heap⟩ with
    | .error e => .error e
    | .ok (false, p) => .ok (none, if p.buffer.isSome then p.heap.deallocate 1 else p.heap)
    | .ok (true, p) =>
      match p.buffer with
      | none => .error .overrun
      | some buffer => trim hooks p buffer

end

end HybridPqc.Cjson
