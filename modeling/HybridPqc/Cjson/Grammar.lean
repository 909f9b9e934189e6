import HybridPqc.Cjson.Strings

/-!
# The texts of JSON

Which texts *denote* an item (`Denotes`): those of JSON, with any white space, any spelling of
strings, and any numeral for a number, which is rounded to a double. A string may not contain a
zero, at which a C string ends.

`cJSON_Parse` makes of such a text the item that it denotes, unless there are more arrays and
objects inside each other than the library allows (`parse_denotes`).
-/

namespace HybridPqc.Cjson

variable {hooks : Hooks} {content : List UInt8} {b : ParseBuffer}

/-! ## Texts -/

/-- White space. -/
def IsSpace (w : List UInt8) : Prop := ∀ c ∈ w, c = 32 ∨ c = 9 ∨ c = 10 ∨ c = 13

/-- An item, with a text for it, and the white space around it. -/
structure Element where
  before : List UInt8
  value : List UInt8
  after : List UInt8
  item : Item

/-- The text, with the white space. -/
def Element.text (e : Element) : List UInt8 := e.before ++ (e.value ++ e.after)

/-- An element, without the white space before it. -/
def Element.trim (e : Element) : Element := ⟨[], e.value, e.after, e.item⟩

/-- A field: the name, and a text for it, with white space around, and the value. -/
structure Member where
  before : List UInt8
  name : List UInt8
  after : List UInt8
  string : CString
  element : Element

namespace Member

/-- The text of a field. -/
def text (f : Member) : List UInt8 :=
  f.before ++ 34 :: (f.name ++ 34 :: (f.after ++ 58 :: f.element.text))

/-- The field. -/
def field (f : Member) : CString × Item := (f.string, f.element.item)

/-- White space, and a name that is spelled. -/
structure IsNamed (f : Member) : Prop where
  before : IsSpace f.before
  after : IsSpace f.after
  spells : Spells f.name f.string
  nonzero : 0 ∉ f.string

end Member

/-- A field, without the white space before it. -/
def Member.trim (f : Member) : Member := { f with before := [] }

theorem Member.IsNamed.trim {f : Member} (h : f.IsNamed) : f.trim.IsNamed :=
  ⟨List.forall_mem_nil _, h.after, h.spells, h.nonzero⟩

/-- A text denotes an item, with at most `n` arrays and objects inside each other. -/
inductive Denotes : ℕ → List UInt8 → Item → Prop
  | null {n : ℕ} : Denotes n (cstr "null") .null
  | bool {n : ℕ} (b : Bool) : Denotes n (Item.bool b).text (.bool b)
  | number {n : ℕ} {x : Decimal.Numeral} {t : List UInt8} (hx : x.WellFormed) (ht : x.IsText t) :
      Denotes n t (.number (.ofNumeral x))
  | string {n : ℕ} {t : List UInt8} {s : CString} (h : Spells t s) (hs : 0 ∉ s) :
      Denotes n (34 :: (t ++ [34])) (.string s)
  | emptyArray {n : ℕ} {w : List UInt8} (hw : IsSpace w) :
      Denotes (n + 1) (91 :: (w ++ [93])) (.array [])
  | array {n : ℕ} {es : List Element} (hne : es ≠ [])
      (hspace : ∀ e ∈ es, IsSpace e.before ∧ IsSpace e.after)
      (h : ∀ e ∈ es, Denotes n e.value e.item) :
      Denotes (n + 1) (91 :: (commas (es.map Element.text) ++ [93])) (.array (es.map Element.item))
  | emptyObject {n : ℕ} {w : List UInt8} (hw : IsSpace w) :
      Denotes (n + 1) (123 :: (w ++ [125])) (.object [])
  | object {n : ℕ} {fs : List Member} (hne : fs ≠ []) (hname : ∀ f ∈ fs, f.IsNamed)
      (hspace : ∀ f ∈ fs, IsSpace f.element.before ∧ IsSpace f.element.after)
      (h : ∀ f ∈ fs, Denotes n f.element.value f.element.item) :
      Denotes (n + 1) (123 :: (commas (fs.map Member.text) ++ [125]))
        (.object (fs.map Member.field))

/-! ## What comes next -/

/-- What may come after a number. -/
def Ends (rest : List UInt8) : Prop := ∃ c s, rest = c :: s ∧ isNumberChar c = false

theorem ends_cons {c : UInt8} (h : isNumberChar c = false) (s : List UInt8) : Ends (c :: s) :=
  ⟨c, s, rfl, h⟩

theorem isNumberChar_of_space {c : UInt8} (h : c = 32 ∨ c = 9 ∨ c = 10 ∨ c = 13) :
    isNumberChar c = false := by
  obtain rfl | rfl | rfl | rfl := h <;> rfl

theorem le_of_space {c : UInt8} (h : c = 32 ∨ c = 9 ∨ c = 10 ∨ c = 13) : c ≤ 32 := by
  obtain rfl | rfl | rfl | rfl := h <;> decide

/-- A number also ends at white space. -/
theorem ends_append {w s : List UInt8} (hw : IsSpace w) (hs : Ends s) : Ends (w ++ s) := by
  cases w with
  | nil => exact hs
  | cons c w => exact ends_cons (isNumberChar_of_space (hw c List.mem_cons_self)) _

theorem startsWith_cons {c : UInt8} {s : List UInt8} (h : content.drop b.offset = c :: s) :
    startsWith content b [c] := by
  simp [startsWith, h]

theorem not_startsWith {c d : UInt8} {s t : List UInt8} (h : content.drop b.offset = c :: s)
    (hne : d ≠ c) : ¬startsWith content b (d :: t) := by
  simp [startsWith, h, hne]

theorem startsWith_append {s t : List UInt8} (h : content.drop b.offset = s ++ t) :
    startsWith content b s := by
  rw [startsWith, h, List.isPrefixOf_iff_prefix]
  exact List.prefix_append s t

/-- White space is skipped. -/
theorem skipWhitespace_eq {w s : List UInt8} {c : UInt8} (hw : IsSpace w) (hc : 32 < c)
    (h : content.drop b.offset = w ++ c :: s) :
    skipWhitespace content b = ⟨b.offset + w.length, b.depth, b.heap⟩ := by
  have hlt := lt_length_of_drop_cons (drop_add_of_drop h)
  have htake : (content.drop b.offset).takeWhile (· ≤ 32) = w := by
    rw [h, List.takeWhile_append_of_pos fun d hd => decide_eq_true (le_of_space (hw d hd)),
      List.takeWhile_cons_of_neg (by simpa using hc), List.append_nil]
  rw [skipWhitespace, if_neg (by omega), htake]
  dsimp only
  rw [if_neg hlt.ne]

/-- What a text starts with: neither white space nor the end of an array or object, nor a mark
    of the byte order. -/
abbrev IsStart (c : UInt8) : Prop := 32 < c ∧ c ≠ 93 ∧ c ≠ 125 ∧ c ≠ 239

/-- What a number starts with is between these. -/
theorem bounds_of_isDigit {c : UInt8} (h : c = 45 ∨ Decimal.isDigit c) : 45 ≤ c ∧ c ≤ 57 := by
  obtain rfl | h := h
  · decide
  · rw [Decimal.isDigit, decide_eq_true_iff] at h
    exact ⟨UInt8.le_trans (by decide) h.1, h.2⟩

theorem ne_of_isDigit {c d : UInt8} (h : c = 45 ∨ Decimal.isDigit c) (hd : d < 45 ∨ 57 < d) :
    c ≠ d := by
  rintro rfl
  obtain hlow | hhigh := hd
  · exact UInt8.not_le.2 hlow (bounds_of_isDigit h).1
  · exact UInt8.not_le.2 hhigh (bounds_of_isDigit h).2

theorem isStart_of_isDigit {c : UInt8} (h : c = 45 ∨ Decimal.isDigit c) : IsStart c :=
  ⟨UInt8.lt_of_lt_of_le (by decide) (bounds_of_isDigit h).1, ne_of_isDigit h (.inr (by decide)),
    ne_of_isDigit h (.inr (by decide)), ne_of_isDigit h (.inr (by decide))⟩

theorem Denotes.exists_eq {n : ℕ} {t : List UInt8} {v : Item} (h : Denotes n t v) :
    ∃ c s, t = c :: s ∧ IsStart c := by
  cases h with
  | null => exact ⟨_, _, rfl, by decide⟩
  | bool b => cases b <;> exact ⟨_, _, rfl, by decide⟩
  | number hx ht =>
    obtain ⟨c, s, htext, hc⟩ := Decimal.Numeral.exists_isText_eq hx ht
    exact ⟨c, s, htext, isStart_of_isDigit hc⟩
  | string h hs => exact ⟨_, _, rfl, by decide⟩
  | emptyArray hw => exact ⟨_, _, rfl, by decide⟩
  | array hne hspace h => exact ⟨_, _, rfl, by decide⟩
  | emptyObject hw => exact ⟨_, _, rfl, by decide⟩
  | object hne hname hspace h => exact ⟨_, _, rfl, by decide⟩

/-- A text is parsed, whatever comes after it. -/
def Reads (content : List UInt8) (parse : ParseBuffer → Outcome Item) (depth : ℕ) (t : List UInt8)
    (v : Item) : Prop :=
  ∀ (b : ParseBuffer) (rest : List UInt8), b.depth = depth → content.drop b.offset = t ++ rest →
    Ends rest → ∃ heap, parse b = .ok (some v, ⟨b.offset + t.length, depth, heap⟩)

/-! ## Numbers -/

/-- **A number.** -/
theorem parseNumber_eq (hall : ∀ n size, hooks.grants n size = true) {x : Decimal.Numeral}
    {t rest : List UInt8} (hx : x.WellFormed) (ht : x.IsText t)
    (hdrop : content.drop b.offset = t ++ rest) (hrest : Ends rest) :
    ∃ heap, parseNumber hooks content b =
      .ok (some (.number (.ofNumeral x)), ⟨b.offset + t.length, b.depth, heap⟩) := by
  have hchars : ∀ c ∈ t, isNumberChar c := fun c hc => by
    obtain h | rfl | rfl | rfl | rfl | rfl := Decimal.Numeral.isChar_of_isText hx ht c hc
    · simp [isNumberChar, h]
    all_goals rfl
  have htake : (content.drop b.offset).takeWhile isNumberChar = t := by
    obtain ⟨c, s, rfl, hc⟩ := hrest
    rw [hdrop, List.takeWhile_append_of_pos hchars, List.takeWhile_cons, hc, if_neg (by decide),
      List.append_nil]
  have halloc : hooks.allocate (t.length + 1) b.heap =
      (true, ⟨b.heap.calls + 1, b.heap.blocks + 1⟩) := by simp [Hooks.allocate, hall]
  refine ⟨Heap.deallocate ⟨b.heap.calls + 1, b.heap.blocks + 1⟩ 1, ?_⟩
  rw [parseNumber, htake, halloc]
  dsimp only
  rw [strtod_eq hx ht]

/-! ## Arrays -/

section

variable {parse : ParseBuffer → Outcome Item} {depth : ℕ}

/-- An element whose text is parsed. -/
structure Element.IsRead (content : List UInt8) (parse : ParseBuffer → Outcome Item) (depth : ℕ)
    (e : Element) : Prop where
  before : IsSpace e.before
  after : IsSpace e.after
  start : ∃ c s, e.value = c :: s ∧ IsStart c
  reads : Reads content parse depth e.value e.item

theorem Element.IsRead.trim {e : Element} (h : e.IsRead content parse depth) :
    e.trim.IsRead content parse depth :=
  ⟨List.forall_mem_nil _, h.after, h.start, h.reads⟩

theorem Element.IsRead.text_ne_nil {e : Element} (h : e.IsRead content parse depth) :
    e.text ≠ [] := by
  obtain ⟨c, s, htext, -⟩ := h.start
  simp [Element.text, htext]

/-- What may come after an element. -/
abbrev IsEnd (c : UInt8) : Prop := 32 < c ∧ isNumberChar c = false

/-- A value, with the white space around it. -/
theorem parse_element {e : Element} (he : e.IsRead content parse depth) {offset : ℕ} {c : UInt8}
    {s : List UInt8} (hc : IsEnd c) (hdrop : content.drop offset = e.text ++ c :: s) (heap : Heap) :
    ∃ b', parse (skipWhitespace content ⟨offset, depth, heap⟩) = .ok (some e.item, b') ∧
      ∃ heap', skipWhitespace content b' = ⟨offset + e.text.length, depth, heap'⟩ := by
  obtain ⟨d, t, htext, hstart⟩ := he.start
  rw [Element.text, List.append_assoc, List.append_assoc] at hdrop
  have hvalue : content.drop (offset + e.before.length) = e.value ++ (e.after ++ c :: s) :=
    drop_add_of_drop hdrop
  have hafter := drop_add_of_drop hvalue
  have hskip : skipWhitespace content ⟨offset, depth, heap⟩ = _ :=
    skipWhitespace_eq (c := d) he.before hstart.1 (by rw [hdrop, htext]; rfl)
  obtain ⟨heap', hr⟩ := he.reads ⟨offset + e.before.length, depth, heap⟩ _ rfl hvalue
    (ends_append he.after (ends_cons hc.2 s))
  refine ⟨_, by rw [hskip, hr], heap', ?_⟩
  have hskip' : skipWhitespace content
      ⟨offset + e.before.length + e.value.length, depth, heap'⟩ = _ :=
    skipWhitespace_eq he.after hc.1 hafter
  rw [hskip', Element.text, List.length_append, List.length_append, add_assoc, add_assoc]

/-- An element, and a comma, or the end of the array. -/
theorem parseItems_step (hall : ∀ n size, hooks.grants n size = true) {e : Element}
    (head : List Item) (fuel : ℕ) {c : UInt8} {s : List UInt8}
    (he : e.IsRead content parse depth) (hdepth : b.depth = depth) (hc : c = 44 ∨ c = 93)
    (hdrop : content.drop (b.offset + 1) = e.text ++ c :: s) :
    ∃ heap, content.drop (b.offset + 1 + e.text.length) = c :: s ∧
      parseItems hooks content parse (fuel + 1) head b =
        if c = 44 then
          parseItems hooks content parse fuel (head ++ [e.item])
            ⟨b.offset + 1 + e.text.length, depth, heap⟩
        else .ok (some (head ++ [e.item]), ⟨b.offset + 1 + e.text.length, depth, heap⟩) := by
  subst hdepth
  have halloc : hooks.allocate sizeofItem b.heap =
      (true, ⟨b.heap.calls + 1, b.heap.blocks + 1⟩) := by simp [Hooks.allocate, hall]
  have hnext : content.drop (b.offset + 1 + e.text.length) = c :: s := drop_add_of_drop hdrop
  have hend : IsEnd c := by obtain rfl | rfl := hc <;> decide
  obtain ⟨b', hparse, heap, hskip⟩ := parse_element he hend hdrop
    ⟨b.heap.calls + 1, b.heap.blocks + 1⟩
  refine ⟨heap, hnext, ?_⟩
  rw [parseItems, halloc]
  dsimp only
  rw [hparse]
  dsimp only
  rw [hskip]
  obtain rfl | rfl := hc
  · rw [if_pos (startsWith_cons hnext), if_pos rfl]
  · rw [if_neg (not_startsWith hnext (by decide)), if_pos (startsWith_cons hnext),
      if_neg (by decide)]

/-- The elements that are left, and the end of the array. -/
theorem parseItems_eq (hall : ∀ n size, hooks.grants n size = true) {e : Element}
    {es : List Element} (head : List Item) (fuel : ℕ) {rest : List UInt8}
    (hread : ∀ e' ∈ e :: es, e'.IsRead content parse depth) (hdepth : b.depth = depth)
    (hfuel : es.length < fuel)
    (hdrop : content.drop (b.offset + 1) = commas ((e :: es).map Element.text) ++ 93 :: rest) :
    ∃ heap, parseItems hooks content parse fuel head b =
      .ok (some (head ++ (e :: es).map Element.item),
        ⟨b.offset + 1 + (commas ((e :: es).map Element.text)).length, depth, heap⟩) := by
  induction es generalizing e head fuel b with
  | nil =>
    obtain ⟨fuel, rfl⟩ := Nat.exists_eq_succ_of_ne_zero hfuel.ne_bot
    obtain ⟨heap, -, hstep⟩ := parseItems_step hall head fuel
      (hread e List.mem_cons_self) hdepth (.inr rfl) hdrop
    exact ⟨heap, hstep⟩
  | cons e' es ih =>
    obtain ⟨fuel, rfl⟩ := Nat.exists_eq_succ_of_ne_zero hfuel.ne_bot
    rw [List.length_cons] at hfuel
    rw [List.forall_mem_cons] at hread
    have hcommas : commas ((e :: e' :: es).map Element.text) =
        e.text ++ 44 :: commas ((e' :: es).map Element.text) := rfl
    rw [hcommas, List.append_assoc, List.cons_append] at hdrop
    obtain ⟨heap, hnext, hstep⟩ := parseItems_step hall head fuel hread.1
      hdepth (.inl rfl) hdrop
    obtain ⟨heap', hrest⟩ := ih (b := ⟨b.offset + 1 + e.text.length, depth, heap⟩)
      (head ++ [e.item]) fuel hread.2 rfl (by omega)
      (drop_add_of_drop (s := [44]) hnext)
    refine ⟨heap', ?_⟩
    have hlen : b.offset + 1 + (e.text ++ 44 :: commas ((e' :: es).map Element.text)).length =
        b.offset + 1 + e.text.length + 1 + (commas ((e' :: es).map Element.text)).length := by
      rw [List.length_append, List.length_cons]
      omega
    rw [hstep, if_pos rfl, hrest, hcommas, hlen, List.append_assoc]
    rfl

/-- The white space before the first text. -/
theorem commas_append (w t : List UInt8) (ts : List (List UInt8)) :
    commas ((w ++ t) :: ts) = w ++ commas (t :: ts) := by
  cases ts with
  | nil => rfl
  | cons t' ts => exact List.append_assoc ..

/-- A list of texts is as long as there are texts, at least. -/
theorem length_le_commas (texts : List (List UInt8)) (h : ∀ t ∈ texts, t ≠ []) :
    texts.length ≤ (commas texts).length := by
  fun_induction commas texts with
  | case1 => exact le_rfl
  | case2 t => exact List.length_pos_iff.2 (h t List.mem_cons_self)
  | case3 t ts hne ih =>
    have := ih fun t' ht' => h t' (List.mem_cons_of_mem _ ht')
    rw [List.length_append, List.length_cons, List.length_cons]
    omega

/-- **An array.** -/
theorem parseArray_eq (hall : ∀ n size, hooks.grants n size = true) {e : Element}
    {es : List Element} {rest : List UInt8}
    (hread : ∀ e' ∈ e :: es, e'.IsRead content parse (b.depth + 1))
    (hdepth : b.depth < nestingLimit)
    (hdrop : content.drop b.offset =
      91 :: (commas ((e :: es).map Element.text) ++ [93]) ++ rest) :
    ∃ heap, parseArray hooks content parse b = .ok (some (.array ((e :: es).map Element.item)),
      ⟨b.offset + (91 :: (commas ((e :: es).map Element.text) ++ [93])).length, b.depth,
        heap⟩) := by
  rw [List.cons_append, List.append_assoc, List.singleton_append] at hdrop
  rw [List.forall_mem_cons] at hread
  obtain ⟨c, t, htext, hstart⟩ := hread.1.start
  have hbracket := getElem?_of_drop_cons hdrop
  have hrest : content.drop (b.offset + 1) = commas ((e :: es).map Element.text) ++ 93 :: rest :=
    drop_add_of_drop (s := [91]) hdrop
  -- the white space before the first element is skipped before the loop
  have hcommas : commas ((e :: es).map Element.text) = e.before ++ commas ((e.trim :: es).map
      Element.text) := by
    rw [List.map_cons, List.map_cons, ← commas_append]
    rfl
  have htrim : commas ((e.trim :: es).map Element.text) =
      c :: (t ++ commas (e.after :: es.map Element.text)) := by
    rw [List.map_cons, ← List.cons_append, ← htext, ← commas_append]
    rfl
  have hlen : b.offset + (91 :: (commas ((e :: es).map Element.text) ++ [93])).length =
      b.offset + e.before.length + 1 + (commas ((e.trim :: es).map Element.text)).length + 1 := by
    rw [hcommas, List.length_cons, List.length_append, List.length_append, List.length_singleton]
    omega
  rw [hcommas, List.append_assoc] at hrest
  have hfirst : content.drop (b.offset + 1 + e.before.length) = _ := drop_add_of_drop hrest
  rw [add_right_comm] at hfirst
  have hskip : skipWhitespace content ⟨b.offset + 1, b.depth + 1, b.heap⟩ = _ :=
    skipWhitespace_eq hread.1.before hstart.1 (by rw [hrest, htrim]; rfl)
  have hhead : content.drop (b.offset + 1 + e.before.length) =
      c :: (t ++ commas (e.after :: es.map Element.text) ++ 93 :: rest) := by
    rw [add_right_comm, hfirst, htrim, List.cons_append]
  have hlt := lt_length_of_drop_cons hhead
  have hfuel : es.length < content.length := by
    have hle := length_le_commas ((e :: es).map Element.text) (by
      rw [List.forall_mem_map]
      exact List.forall_mem_cons.2
        ⟨hread.1.text_ne_nil, fun e' he' => (hread.2 e' he').text_ne_nil⟩)
    have hlength := congrArg List.length hrest
    rw [← List.append_assoc, ← hcommas, List.length_drop, List.length_append, List.length_cons]
      at hlength
    rw [List.length_map, List.length_cons] at hle
    omega
  obtain ⟨heap, hr⟩ := parseItems_eq (b := ⟨b.offset + e.before.length, b.depth + 1, b.heap⟩)
    hall [] content.length (List.forall_mem_cons.2 ⟨hread.1.trim, hread.2⟩) rfl hfuel hfirst
  refine ⟨heap, ?_⟩
  rw [hlen, parseArray, if_neg (by omega)]
  dsimp only
  rw [hbracket]
  dsimp only
  rw [if_neg (by simp), hskip, if_neg (not_startsWith hhead hstart.2.1.symm)]
  dsimp only
  rw [show b.offset + 1 + e.before.length - 1 = b.offset + e.before.length by omega,
    if_neg (by omega), hr]
  rfl

/-! ## Objects -/

/-- A field, and a comma, or the end of the object. -/
theorem parseFields_step (hall : ∀ n size, hooks.grants n size = true) {f : Member}
    (head : List (CString × Item)) (fuel : ℕ) {c : UInt8} {s : List UInt8} (hname : f.IsNamed)
    (he : f.element.IsRead content parse depth) (hdepth : b.depth = depth) (hc : c = 44 ∨ c = 125)
    (hdrop : content.drop (b.offset + 1) = f.text ++ c :: s) :
    ∃ heap, content.drop (b.offset + 1 + f.text.length) = c :: s ∧
      parseFields hooks content parse (fuel + 1) head b =
        if c = 44 then
          parseFields hooks content parse fuel (head ++ [f.field])
            ⟨b.offset + 1 + f.text.length, depth, heap⟩
        else .ok (some (head ++ [f.field]), ⟨b.offset + 1 + f.text.length, depth, heap⟩) := by
  subst hdepth
  have halloc : hooks.allocate sizeofItem b.heap =
      (true, ⟨b.heap.calls + 1, b.heap.blocks + 1⟩) := by simp [Hooks.allocate, hall]
  have hend : IsEnd c := by obtain rfl | rfl := hc <;> decide
  have hnext : content.drop (b.offset + 1 + f.text.length) = c :: s := drop_add_of_drop hdrop
  have hlt : b.offset + 1 < content.length := by
    have hlength := congrArg List.length hdrop
    rw [List.length_drop, List.length_append, List.length_cons] at hlength
    omega
  -- the name, the colon and the value
  have htext : f.text ++ c :: s =
      f.before ++ 34 :: (f.name ++ 34 :: (f.after ++ 58 :: (f.element.text ++ c :: s))) := by
    simp [Member.text]
  rw [htext] at hdrop
  have hstring : content.drop (b.offset + 1 + f.before.length) =
      34 :: (f.name ++ 34 :: (f.after ++ 58 :: (f.element.text ++ c :: s))) :=
    drop_add_of_drop hdrop
  obtain ⟨heap₁, hr₁⟩ := parseString_spells
    (b := ⟨b.offset + 1 + f.before.length, b.depth, ⟨b.heap.calls + 1, b.heap.blocks + 1⟩⟩) hall
    hname.spells hstring
  have hafter : content.drop (b.offset + 1 + f.before.length + (f.name.length + 2)) =
      f.after ++ 58 :: (f.element.text ++ c :: s) := by
    have hquoted := drop_add_of_drop (s := 34 :: (f.name ++ [34]))
      (t := f.after ++ 58 :: (f.element.text ++ c :: s)) (by rw [hstring]; simp)
    rwa [List.length_cons, List.length_append, List.length_singleton] at hquoted
  generalize hoffset : b.offset + 1 + f.before.length + (f.name.length + 2) = offset at hafter hr₁
  have hcolon := drop_add_of_drop hafter
  have hvalue : content.drop (offset + f.after.length + 1) = f.element.text ++ c :: s :=
    drop_add_of_drop (s := [58]) hcolon
  obtain ⟨b', hparse, heap, hskip⟩ := parse_element he hend hvalue heap₁
  have hlen : offset + f.after.length + 1 + f.element.text.length =
      b.offset + 1 + f.text.length := by
    simp only [Member.text, List.length_append, List.length_cons]
    omega
  rw [hlen] at hskip
  have hskip₁ : skipWhitespace content
      ⟨b.offset + 1, b.depth, ⟨b.heap.calls + 1, b.heap.blocks + 1⟩⟩ = _ :=
    skipWhitespace_eq (c := 34) hname.before (by decide) hdrop
  have hskip₂ : skipWhitespace content ⟨offset, b.depth, heap₁⟩ = _ :=
    skipWhitespace_eq hname.after (by decide) hafter
  refine ⟨heap, hnext, ?_⟩
  rw [parseFields]
  dsimp only
  rw [halloc]
  dsimp only
  rw [if_neg (by omega), hskip₁, hr₁]
  dsimp only
  rw [hskip₂, startsWith_cons hcolon, Bool.not_true, if_neg (by decide), hparse]
  dsimp only
  rw [hskip, List.takeWhile_eq_self_iff.2 fun d hd => by
    simpa using ne_of_mem_of_not_mem hd hname.nonzero]
  obtain rfl | rfl := hc
  · rw [if_pos (startsWith_cons hnext), if_pos rfl]
    rfl
  · rw [if_neg (not_startsWith hnext (by decide)), if_pos (startsWith_cons hnext),
      if_neg (by decide)]
    rfl

/-- The fields that are left, and the end of the object. -/
theorem parseFields_eq (hall : ∀ n size, hooks.grants n size = true) {f : Member}
    {fs : List Member} (head : List (CString × Item)) (fuel : ℕ) {rest : List UInt8}
    (hname : ∀ g ∈ f :: fs, g.IsNamed)
    (hread : ∀ g ∈ f :: fs, g.element.IsRead content parse depth) (hdepth : b.depth = depth)
    (hfuel : fs.length < fuel)
    (hdrop : content.drop (b.offset + 1) = commas ((f :: fs).map Member.text) ++ 125 :: rest) :
    ∃ heap, parseFields hooks content parse fuel head b =
      .ok (some (head ++ (f :: fs).map Member.field),
        ⟨b.offset + 1 + (commas ((f :: fs).map Member.text)).length, depth, heap⟩) := by
  induction fs generalizing f head fuel b with
  | nil =>
    obtain ⟨fuel, rfl⟩ := Nat.exists_eq_succ_of_ne_zero hfuel.ne_bot
    obtain ⟨heap, -, hstep⟩ := parseFields_step hall head fuel
      (hname f List.mem_cons_self) (hread f List.mem_cons_self) hdepth (.inr rfl) hdrop
    exact ⟨heap, hstep⟩
  | cons g fs ih =>
    obtain ⟨fuel, rfl⟩ := Nat.exists_eq_succ_of_ne_zero hfuel.ne_bot
    rw [List.length_cons] at hfuel
    rw [List.forall_mem_cons] at hread hname
    have hcommas : commas ((f :: g :: fs).map Member.text) =
        f.text ++ 44 :: commas ((g :: fs).map Member.text) := rfl
    rw [hcommas, List.append_assoc, List.cons_append] at hdrop
    obtain ⟨heap, hnext, hstep⟩ := parseFields_step hall head fuel hname.1
      hread.1 hdepth (.inl rfl) hdrop
    obtain ⟨heap', hrest⟩ := ih (b := ⟨b.offset + 1 + f.text.length, depth, heap⟩)
      (head ++ [f.field]) fuel hname.2 hread.2 rfl (by omega)
      (drop_add_of_drop (s := [44]) hnext)
    refine ⟨heap', ?_⟩
    have hlen : b.offset + 1 + (f.text ++ 44 :: commas ((g :: fs).map Member.text)).length =
        b.offset + 1 + f.text.length + 1 + (commas ((g :: fs).map Member.text)).length := by
      rw [List.length_append, List.length_cons]
      omega
    rw [hstep, if_pos rfl, hrest, hcommas, hlen, List.append_assoc]
    rfl

/-- **An object.** -/
theorem parseObject_eq (hall : ∀ n size, hooks.grants n size = true) {f : Member}
    {fs : List Member} {rest : List UInt8} (hname : ∀ g ∈ f :: fs, g.IsNamed)
    (hread : ∀ g ∈ f :: fs, g.element.IsRead content parse (b.depth + 1))
    (hdepth : b.depth < nestingLimit)
    (hdrop : content.drop b.offset =
      123 :: (commas ((f :: fs).map Member.text) ++ [125]) ++ rest) :
    ∃ heap, parseObject hooks content parse b = .ok (some (.object ((f :: fs).map Member.field)),
      ⟨b.offset + (123 :: (commas ((f :: fs).map Member.text) ++ [125])).length, b.depth,
        heap⟩) := by
  rw [List.cons_append, List.append_assoc, List.singleton_append] at hdrop
  rw [List.forall_mem_cons] at hname hread
  have hrest : content.drop (b.offset + 1) = commas ((f :: fs).map Member.text) ++ 125 :: rest :=
    drop_add_of_drop (s := [123]) hdrop
  -- the white space before the first field is skipped before the loop
  have hcommas : commas ((f :: fs).map Member.text) = f.before ++ commas ((f.trim :: fs).map
      Member.text) := by
    rw [List.map_cons, List.map_cons, ← commas_append]
    rfl
  obtain ⟨t, htrim⟩ : ∃ t, commas ((f.trim :: fs).map Member.text) = 34 :: t := by
    rw [List.map_cons]
    exact ⟨_, commas_append [34] (f.name ++ 34 :: (f.after ++ 58 :: f.element.text)) _⟩
  have hlen : b.offset + (123 :: (commas ((f :: fs).map Member.text) ++ [125])).length =
      b.offset + f.before.length + 1 + (commas ((f.trim :: fs).map Member.text)).length + 1 := by
    rw [hcommas, List.length_cons, List.length_append, List.length_append, List.length_singleton]
    omega
  have hfuel : fs.length < content.length := by
    have hle := length_le_commas ((f :: fs).map Member.text) (by
      rw [List.forall_mem_map]
      intro g hg
      simp [Member.text])
    have hlength := congrArg List.length hrest
    rw [List.length_drop, List.length_append, List.length_cons] at hlength
    rw [List.length_map, List.length_cons] at hle
    omega
  rw [hcommas, List.append_assoc] at hrest
  have hfirst : content.drop (b.offset + 1 + f.before.length) = _ := drop_add_of_drop hrest
  rw [add_right_comm] at hfirst
  have hskip : skipWhitespace content ⟨b.offset + 1, b.depth + 1, b.heap⟩ = _ :=
    skipWhitespace_eq (c := 34) hname.1.before (by decide) (by rw [hrest, htrim]; rfl)
  have hhead : content.drop (b.offset + 1 + f.before.length) = 34 :: (t ++ 125 :: rest) := by
    rw [add_right_comm, hfirst, htrim, List.cons_append]
  have hlt := lt_length_of_drop_cons hhead
  obtain ⟨heap, hr⟩ := parseFields_eq (b := ⟨b.offset + f.before.length, b.depth + 1, b.heap⟩)
    hall [] content.length (List.forall_mem_cons.2 ⟨hname.1.trim, hname.2⟩)
    (List.forall_mem_cons.2 hread) rfl hfuel hfirst
  have hbrace : startsWith content ⟨b.offset, b.depth + 1, b.heap⟩ [123] := startsWith_cons hdrop
  refine ⟨heap, ?_⟩
  rw [hlen, parseObject, if_neg (by omega)]
  dsimp only
  rw [hbrace, Bool.not_true, if_neg (by decide), hskip, if_neg (not_startsWith hhead (by decide))]
  dsimp only
  rw [show b.offset + 1 + f.before.length - 1 = b.offset + f.before.length by omega,
    if_neg (by omega), hr]
  rfl

end

/-! ## Values -/

/-- A literal is none of the others. -/
theorem parseValue_of_start {fuel : ℕ} {c : UInt8} {s : List UInt8}
    (hdrop : content.drop b.offset = c :: s) (hc : c ≠ 110 ∧ c ≠ 102 ∧ c ≠ 116) :
    parseValue hooks content (fuel + 1) b =
      if c = 34 then (parseString hooks content b).map fun p => (p.1.map .string, p.2)
      else if c = 45 ∨ Decimal.isDigit c then parseNumber hooks content b
      else if c = 91 then parseArray hooks content (parseValue hooks content fuel) b
      else if c = 123 then parseObject hooks content (parseValue hooks content fuel) b
      else .ok (none, b) := by
  have hnull : ¬startsWith content b (cstr "null") := not_startsWith hdrop hc.1.symm
  have hfalse : ¬startsWith content b (cstr "false") := not_startsWith hdrop hc.2.1.symm
  have htrue : ¬startsWith content b (cstr "true") := not_startsWith hdrop hc.2.2.symm
  rw [parseValue, if_neg hnull, if_neg hfalse, if_neg htrue, getElem?_of_drop_cons hdrop]
  dsimp only
  congr 1
  cases parseString hooks content b <;> rfl

/-- `null`. -/
theorem parseValue_null {fuel : ℕ} {rest : List UInt8}
    (hdrop : content.drop b.offset = cstr "null" ++ rest) :
    parseValue hooks content (fuel + 1) b =
      .ok (some .null, ⟨b.offset + 4, b.depth, b.heap⟩) := by
  rw [parseValue, if_pos (startsWith_append hdrop)]

/-- `false`, or `true`. -/
theorem parseValue_bool {fuel : ℕ} {rest : List UInt8} (t : Bool)
    (hdrop : content.drop b.offset = (Item.bool t).text ++ rest) :
    parseValue hooks content (fuel + 1) b =
      .ok (some (.bool t), ⟨b.offset + (Item.bool t).text.length, b.depth, b.heap⟩) := by
  cases t with
  | false =>
    have hnull : ¬startsWith content b (cstr "null") := not_startsWith hdrop (by decide)
    have hfalse : startsWith content b (cstr "false") := startsWith_append hdrop
    rw [parseValue, if_neg hnull, if_pos hfalse]
    rfl
  | true =>
    have hnull : ¬startsWith content b (cstr "null") := not_startsWith hdrop (by decide)
    have hfalse : ¬startsWith content b (cstr "false") := not_startsWith hdrop (by decide)
    have htrue : startsWith content b (cstr "true") := startsWith_append hdrop
    rw [parseValue, if_neg hnull, if_neg hfalse, if_pos htrue]
    rfl

/-- An array or object with nothing inside. -/
theorem parse_empty {w rest : List UInt8} {c : UInt8} (hw : IsSpace w) (hc : c = 93 ∨ c = 125)
    {d : UInt8} (hdrop : content.drop b.offset = d :: (w ++ [c]) ++ rest) :
    content.drop b.offset = d :: (w ++ c :: rest) ∧
      content.drop (b.offset + 1 + w.length) = c :: rest ∧
      skipWhitespace content ⟨b.offset + 1, b.depth + 1, b.heap⟩ =
        ⟨b.offset + 1 + w.length, b.depth + 1, b.heap⟩ := by
  rw [List.cons_append, List.append_assoc, List.singleton_append] at hdrop
  have hrest : content.drop (b.offset + 1) = w ++ c :: rest := drop_add_of_drop (s := [d]) hdrop
  refine ⟨hdrop, drop_add_of_drop hrest, skipWhitespace_eq hw ?_ hrest⟩
  obtain rfl | rfl := hc <;> decide

/-- **A text that denotes an item** is parsed, whatever comes after it. -/
theorem Denotes.reads (hall : ∀ n size, hooks.grants n size = true) {n : ℕ} {t : List UInt8}
    {v : Item} (h : Denotes n t v) (fuel depth : ℕ) (hfuel : n ≤ fuel)
    (hdepth : depth + n ≤ nestingLimit) :
    Reads content (parseValue hooks content (fuel + 1)) depth t v := by
  induction h generalizing fuel depth with
  | null =>
    rintro b rest rfl hdrop -
    exact ⟨b.heap, parseValue_null hdrop⟩
  | bool t =>
    rintro b rest rfl hdrop -
    exact ⟨b.heap, parseValue_bool t hdrop⟩
  | @number n x t hx ht =>
    rintro b rest rfl hdrop hrest
    obtain ⟨c, s, htext, hc⟩ := Decimal.Numeral.exists_isText_eq hx ht
    have hdrop' : content.drop b.offset = c :: (s ++ rest) := by
      rw [hdrop, htext]
      rfl
    obtain ⟨heap, hr⟩ := parseNumber_eq hall hx ht hdrop hrest
    refine ⟨heap, ?_⟩
    have hne : c ≠ 110 ∧ c ≠ 102 ∧ c ≠ 116 :=
      ⟨ne_of_isDigit hc (.inr (by decide)), ne_of_isDigit hc (.inr (by decide)),
        ne_of_isDigit hc (.inr (by decide))⟩
    rw [parseValue_of_start hdrop' hne, if_neg (ne_of_isDigit hc (.inl (by decide))), if_pos hc, hr]
  | @string n t s h hs =>
    rintro b rest rfl hdrop -
    rw [List.cons_append, List.append_assoc, List.singleton_append] at hdrop
    obtain ⟨heap, hr⟩ := parseString_spells hall h hdrop
    refine ⟨heap, ?_⟩
    rw [parseValue_of_start hdrop (by decide), if_pos rfl, hr,
      List.takeWhile_eq_self_iff.2 fun d hd => by simpa using ne_of_mem_of_not_mem hd hs]
    simp [Except.map]
  | @emptyArray n w hw =>
    rintro b rest rfl hdrop -
    obtain ⟨hdrop, hend, hskip⟩ := parse_empty hw (.inl rfl) hdrop
    refine ⟨b.heap, ?_⟩
    rw [parseValue_of_start hdrop (by decide), if_neg (by decide), if_neg (by decide), if_pos rfl,
      parseArray, if_neg (by omega)]
    dsimp only
    rw [getElem?_of_drop_cons hdrop]
    dsimp only
    rw [if_neg (by simp), hskip, if_pos (startsWith_cons hend)]
    simp
    omega
  | @array n es hne hspace h ih =>
    rintro b rest rfl hdrop -
    obtain ⟨fuel, rfl⟩ := Nat.exists_eq_add_one_of_ne_zero (n := fuel) (by omega)
    obtain ⟨e, es, rfl⟩ := List.exists_cons_of_ne_nil hne
    obtain ⟨heap, hr⟩ := parseArray_eq hall (b := b)
      (fun e' he' => ⟨(hspace e' he').1, (hspace e' he').2, (h e' he').exists_eq,
        ih e' he' fuel _ (by omega) (by omega)⟩) (by omega) hdrop
    refine ⟨heap, ?_⟩
    rw [List.cons_append] at hdrop
    rw [parseValue_of_start hdrop (by decide), if_neg (by decide), if_neg (by decide), if_pos rfl,
      hr]
  | @emptyObject n w hw =>
    rintro b rest rfl hdrop -
    obtain ⟨hdrop, hend, hskip⟩ := parse_empty hw (.inr rfl) hdrop
    have hbrace : startsWith content ⟨b.offset, b.depth + 1, b.heap⟩ [123] := startsWith_cons hdrop
    refine ⟨b.heap, ?_⟩
    rw [parseValue_of_start hdrop (by decide), if_neg (by decide), if_neg (by decide),
      if_neg (by decide), if_pos rfl, parseObject, if_neg (by omega)]
    dsimp only
    rw [hbrace, Bool.not_true, if_neg (by decide), hskip, if_pos (startsWith_cons hend)]
    simp
    omega
  | @object n fs hne hname hspace h ih =>
    rintro b rest rfl hdrop -
    obtain ⟨fuel, rfl⟩ := Nat.exists_eq_add_one_of_ne_zero (n := fuel) (by omega)
    obtain ⟨f, fs, rfl⟩ := List.exists_cons_of_ne_nil hne
    obtain ⟨heap, hr⟩ := parseObject_eq hall (b := b)
      hname (fun g hg => ⟨(hspace g hg).1, (hspace g hg).2, (h g hg).exists_eq,
        ih g hg fuel _ (by omega) (by omega)⟩) (by omega) hdrop
    refine ⟨heap, ?_⟩
    rw [List.cons_append] at hdrop
    rw [parseValue_of_start hdrop (by decide), if_neg (by decide), if_neg (by decide),
      if_neg (by decide), if_pos rfl, hr]

/-! ## Documents -/

/-- The mark of the byte order, if any. -/
def IsMark (m : List UInt8) : Prop := m = [] ∨ m = [0xEF, 0xBB, 0xBF]

/-- The mark is skipped. -/
theorem skipUtf8Bom_eq {m s : List UInt8} {c : UInt8} {depth : ℕ} {heap : Heap} (hm : IsMark m)
    (hc : c ≠ 239) (hs : s ≠ []) (hcontent : content = m ++ c :: s) :
    skipUtf8Bom content ⟨0, depth, heap⟩ = ⟨m.length, depth, heap⟩ := by
  have hpos := List.length_pos_iff.2 hs
  obtain rfl | rfl := hm
  · have hnot : ¬startsWith content ⟨0, depth, heap⟩ [0xEF, 0xBB, 0xBF] :=
      not_startsWith (s := s) hcontent hc.symm
    rw [skipUtf8Bom, if_neg (fun h => hnot h.2)]
    rfl
  · have hstarts : startsWith content ⟨0, depth, heap⟩ [0xEF, 0xBB, 0xBF] :=
      startsWith_append (t := c :: s) hcontent
    have hlength : 0 + 4 < content.length := by
      rw [hcontent]
      simp
      omega
    rw [skipUtf8Bom, if_pos ⟨hlength, hstarts⟩]
    rfl

theorem cJSONParse_of_denotes (hall : ∀ n size, hooks.grants n size = true)
    {text m w t u : List UInt8} {v : Item} (htext : text = m ++ (w ++ (t ++ u))) (hm : IsMark m)
    (hw : IsSpace w) (h : Denotes nestingLimit t v) (hu : IsSpace u) (heap : Heap) :
    ∃ heap', cJSONParse hooks text heap =
      .ok (some v, m.length + w.length + t.length, heap') := by
  have hcontent : text ++ [0] = m ++ (w ++ (t ++ (u ++ [0]))) := by
    simp only [htext, List.append_assoc]
  rw [cJSONParse, hcontent]
  generalize hcontent : m ++ (w ++ (t ++ (u ++ [0]))) = content
  obtain ⟨c, s, ht, hstart⟩ := h.exists_eq
  have hdrop : content.drop m.length = w ++ (t ++ (u ++ [0])) := by
    rw [← hcontent, List.drop_left]
  have hdrop' : content.drop (m.length + w.length) = t ++ (u ++ [0]) := drop_add_of_drop hdrop
  have halloc : hooks.allocate sizeofItem heap = (true, ⟨heap.calls + 1, heap.blocks + 1⟩) := by
    simp [Hooks.allocate, hall]
  have hbom : skipUtf8Bom content ⟨0, 0, ⟨heap.calls + 1, heap.blocks + 1⟩⟩ =
      ⟨m.length, 0, ⟨heap.calls + 1, heap.blocks + 1⟩⟩ := by
    cases w with
    | nil =>
      refine skipUtf8Bom_eq hm hstart.2.2.2 (s := s ++ (u ++ [0])) (by simp) ?_
      rw [← hcontent, ht]
      rfl
    | cons d w =>
      rw [List.cons_append] at hcontent
      refine skipUtf8Bom_eq hm ?_ (s := w ++ (t ++ (u ++ [0]))) (by simp) hcontent.symm
      obtain rfl | rfl | rfl | rfl := hw d List.mem_cons_self <;> decide
  have hskip : skipWhitespace content ⟨m.length, 0, ⟨heap.calls + 1, heap.blocks + 1⟩⟩ = _ :=
    skipWhitespace_eq hw hstart.1 (by rw [hdrop, ht]; rfl)
  obtain ⟨heap', hr⟩ := h.reads hall nestingLimit 0 le_rfl (by omega)
    ⟨m.length + w.length, 0, ⟨heap.calls + 1, heap.blocks + 1⟩⟩ (u ++ [0]) rfl hdrop'
    (ends_append hu (ends_cons rfl []))
  have hne : content ≠ [] := by
    rintro rfl
    simp at hcontent
  refine ⟨heap', ?_⟩
  rw [parseWithLengthOpts, if_neg hne, halloc]
  dsimp only
  rw [hbom, hskip, hr]
  dsimp only
  rw [if_neg (by decide)]

/-- **The texts of JSON are accepted**, and parsed to what they denote. -/
theorem parse_denotes (hall : ∀ n size, hooks.grants n size = true) {m w t u : List UInt8}
    {v : Item} (hm : IsMark m) (hw : IsSpace w) (h : Denotes nestingLimit t v) (hu : IsSpace u)
    (heap : Heap) :
    ∃ heap', cJSONParse hooks (m ++ (w ++ (t ++ u))) heap =
      .ok (some v, m.length + w.length + t.length, heap') :=
  cJSONParse_of_denotes hall rfl hm hw h hu heap

/-- `é`, and a character that takes two code units. -/
theorem parse_denotes_characters :
    ∃ heap', cJSONParse .all (cstr " [ -1.5E+1 ,\"\\u00e9\\ud83d\\uDE00\"]") ⟨0, 0⟩ =
      .ok (some (.array [.number (.ofRat (-15)), .string [195, 169, 240, 159, 152, 128]]), 33,
        heap') := by
  have hnumber : Denotes 999 (cstr "-1.5E+1") (.number (.ofRat (-15))) := by
    have hone : ∀ d ∈ cstr "1", Decimal.isDigit d := List.forall_mem_singleton.2 rfl
    have hfive : ∀ d ∈ cstr "5", Decimal.isDigit d := List.forall_mem_singleton.2 rfl
    have hx : Decimal.Numeral.WellFormed ⟨true, cstr "1", cstr "5", some 1⟩ :=
      ⟨by decide, hone, hfive⟩
    have hexp : Decimal.IsExp (some 1) (cstr "E+1") :=
      Decimal.IsExp.plus (.inr rfl) (by decide : cstr "1" ≠ []) hone
    have hvalue : Decimal.Numeral.value ⟨true, cstr "1", cstr "5", some 1⟩ = -15 := by
      have hdigits : Decimal.value (cstr "1" ++ cstr "5") = 15 := by decide
      have hlength : (cstr "5").length = 1 := rfl
      rw [Decimal.Numeral.value, hdigits, hlength]
      norm_num [Decimal.sign]
    have hsign : decide ((-15 : ℚ) < 0) = true := by norm_num
    rw [Double.ofRat, hsign, ← hvalue]
    exact .number hx ⟨_, hexp, rfl⟩
  have hstring : Denotes 999 (cstr "\"\\u00e9\\ud83d\\uDE00\"")
      (.string [195, 169, 240, 159, 152, 128]) := by
    have hpair : Spells (cstr "\\ud83d\\uDE00") [240, 159, 152, 128] :=
      @Spells.pair (cstr "d83d") (cstr "DE00") [] [] (Char.ofNat 0x1F600) rfl rfl (by decide)
        (by decide) (by decide) .nil
    have hspells := @Spells.unit (cstr "00e9") _ _ (Char.ofNat 0xE9) rfl (by decide) (by decide)
      hpair
    exact .string hspells (by decide)
  have hall : ∀ n size, Hooks.all.grants n size = true := fun _ _ => rfl
  have harray : Denotes nestingLimit (cstr "[ -1.5E+1 ,\"\\u00e9\\ud83d\\uDE00\"]") _ :=
    @Denotes.array 999 [⟨[32], cstr "-1.5E+1", [32], _⟩,
      ⟨[], cstr "\"\\u00e9\\ud83d\\uDE00\"", [], _⟩] (by simp)
      (by simp [IsSpace]) (by simpa using ⟨hnumber, hstring⟩)
  exact parse_denotes hall (.inl rfl) (by simp [IsSpace] : IsSpace [32]) harray
    (List.forall_mem_nil _) ⟨0, 0⟩

end HybridPqc.Cjson
