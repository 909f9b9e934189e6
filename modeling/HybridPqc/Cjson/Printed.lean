import HybridPqc.Cjson.Print

/-!
# What is printed

Whatever the item and whichever allocations fail, `cJSON_PrintUnformatted` stores nothing outside
its buffer, and looks for no zero where there is none (`print_spec`). If it is successful, it
returns the text for the item; otherwise no block is left.
-/

namespace HybridPqc.Cjson

variable {hooks : Hooks} {blocks depth offset n : ℕ} {t : List UInt8} {p : PrintBuffer}

/-! ## The buffer -/

/-- The buffer holds `t`, with `n` more places; `blocks` other blocks are in use. -/
def Filled (blocks depth offset : ℕ) (t : List UInt8) (n : ℕ) (p : PrintBuffer) : Prop :=
  ∃ buffer, p.buffer = some buffer ∧ buffer.Holds t ∧ t.length + n ≤ buffer.length ∧
    p.offset = offset ∧ p.depth = depth ∧ p.heap.blocks = blocks + 1

/-- A text has been written up to the offset. -/
def Ready (blocks depth : ℕ) (t : List UInt8) : PrintBuffer → Prop :=
  Filled blocks depth t.length t 1

/-- A text has been written, and a zero; the offset is still before some of it. -/
def Pending (blocks depth : ℕ) (t : List UInt8) (p : PrintBuffer) : Prop :=
  ∃ offset, Filled blocks depth offset (t ++ [0]) 0 p ∧ offset ≤ t.length ∧ 0 ∉ t.drop offset

/-- Why nothing is printed: there are too many arrays and objects inside each other, or there is
    no memory, or the text is too long. -/
def Excuse (hooks : Hooks) (deep length : ℕ) : Prop :=
  nestingLimit < deep ∨ (∃ k size, hooks.grants k size = false) ∨ intMax < length + 2

/-- Nothing is printed: there is the buffer, or it has been released. -/
def Failed (hooks : Hooks) (blocks deep length : ℕ) (p : PrintBuffer) : Prop :=
  p.heap.blocks = blocks + p.buffer.isSome.toNat ∧ Excuse hooks deep length

theorem Excuse.mono {deep deep' length length' : ℕ} (h : Excuse hooks deep length)
    (hdeep : deep ≤ deep') (hlength : length ≤ length') : Excuse hooks deep' length' := by
  obtain h | h | h := h
  · exact .inl (by omega)
  · exact .inr (.inl h)
  · exact .inr (.inr (by omega))

theorem Failed.mono {deep deep' length length' : ℕ} (h : Failed hooks blocks deep length p)
    (hdeep : deep ≤ deep') (hlength : length ≤ length') :
    Failed hooks blocks deep' length' p :=
  ⟨h.1, h.2.mono hdeep hlength⟩

/-- The last bytes need not be kept. -/
theorem Filled.weaken {w : List UInt8} (h : Filled blocks depth offset (t ++ w) n p) :
    Filled blocks depth offset t (n + w.length) p := by
  obtain ⟨buffer, hbuffer, hholds, hlen, hrest⟩ := h
  rw [List.length_append] at hlen
  exact ⟨buffer, hbuffer, hholds.of_append, by omega, hrest⟩

theorem Filled.le {n' : ℕ} (h : Filled blocks depth offset t n p) (hle : n' ≤ n) :
    Filled blocks depth offset t n' p := by
  obtain ⟨buffer, hbuffer, hholds, hlen, hrest⟩ := h
  exact ⟨buffer, hbuffer, hholds, by omega, hrest⟩

/-- Another buffer holds what the one before held. -/
theorem reallocate_spec (hooks : Hooks) {buffer : Block UInt8} (deep length : ℕ) {newsize : ℕ}
    (hholds : buffer.Holds t) (hoffset : p.offset = t.length) (hheap : p.heap.blocks = blocks + 1)
    (hsize : buffer.length ≤ newsize) (hroom : t.length + n ≤ newsize) :
    (∃ p', reallocate hooks p buffer newsize = (false, p') ∧
      Failed hooks blocks deep length p') ∨
    ∃ p', reallocate hooks p buffer newsize = (true, p') ∧
      Filled blocks p.depth t.length t n p' := by
  rw [reallocate]
  by_cases hrealloc : hooks.reallocate
  · rw [if_pos hrealloc]
    cases hgrant : hooks.grants p.heap.calls newsize with
    | false =>
      simp only [Hooks.realloc, hgrant]
      exact .inl ⟨_, rfl, by simp [hheap], .inr (.inl ⟨_, _, hgrant⟩)⟩
    | true =>
      simp only [Hooks.realloc, hgrant]
      exact .inr ⟨_, rfl, _, rfl, hholds.resize hsize,
        by rwa [Block.length_resize hsize], hoffset, rfl, hheap⟩
  · rw [if_neg hrealloc]
    cases hgrant : hooks.grants p.heap.calls newsize with
    | false =>
      simp only [Hooks.allocate, hgrant]
      exact .inl ⟨_, rfl, by simp [hheap], .inr (.inl ⟨_, _, hgrant⟩)⟩
    | true =>
      have hle : (buffer.take (p.offset + 1)).length ≤ newsize :=
        (List.length_take_le' _ _).trans hsize
      simp only [Hooks.allocate, hgrant]
      exact .inr ⟨_, rfl, _, rfl, (hholds.take (by omega)).resize hle,
        by rwa [Block.length_resize hle], hoffset, rfl, by simp [hheap]⟩

/-- **Space** for what is needed, and a zero. -/
theorem reserve_spec {deep length needed : ℕ} (hlength : needed + t.length ≤ length + 1) :
    (reserve hooks needed).Spec (Ready blocks depth t) (Failed hooks blocks deep length)
      (Filled blocks depth t.length t (needed + 1)) := by
  rintro p ⟨buffer, hbuffer, hholds, hlen, hoffset, rfl, hheap⟩
  have hfail : intMax < needed + p.offset + 1 → Failed hooks blocks deep length p := fun hlong =>
    ⟨by rw [hheap, hbuffer]; rfl, .inr (.inr (by omega))⟩
  rw [reserve, ensure, hbuffer]
  dsimp only
  rw [if_neg (by omega)]
  by_cases hneeded : intMax < needed
  · rw [if_pos hneeded]
    exact .inl ⟨p, rfl, hfail (by omega)⟩
  rw [if_neg hneeded]
  by_cases hfits : needed + p.offset + 1 ≤ buffer.length
  · rw [if_pos hfits]
    exact .inr ⟨p, rfl, buffer, hbuffer, hholds, by omega, hoffset, rfl, hheap⟩
  rw [if_neg hfits]
  have hnew : ∀ newsize, needed + p.offset + 1 ≤ newsize →
      (∃ p', (Except.ok (reallocate hooks p buffer newsize) : Except Fault _) = .ok (false, p') ∧
        Failed hooks blocks deep length p') ∨
      ∃ p', (Except.ok (reallocate hooks p buffer newsize) : Except Fault _) = .ok (true, p') ∧
        Filled blocks p.depth t.length t (needed + 1) p' := fun newsize hsize => by
    obtain ⟨p', hr, h⟩ | ⟨p', hr, h⟩ := reallocate_spec (n := needed + 1) hooks deep length hholds
      hoffset hheap (by omega) (by omega : _ ≤ newsize)
    · exact .inl ⟨p', by rw [hr], h⟩
    · exact .inr ⟨p', by rw [hr], h⟩
  by_cases hhalf : intMax / 2 < needed + p.offset + 1
  · rw [if_pos hhalf]
    by_cases hmax : needed + p.offset + 1 ≤ intMax
    · rw [if_pos hmax]
      exact hnew _ hmax
    · rw [if_neg hmax]
      exact .inl ⟨p, rfl, hfail (by omega)⟩
  · rw [if_neg hhalf]
    exact hnew _ (by omega)

/-- **A store** inside the buffer. -/
theorem store_spec {E : PrintBuffer → Prop} {i m : ℕ} {bytes : List UInt8}
    (hi : offset + i = t.length) (hm : n + bytes.length ≤ m) :
    (store i bytes).Spec (Filled blocks depth offset t m) E
      (Filled blocks depth offset (t ++ bytes) n) := by
  rintro p ⟨buffer, hbuffer, hholds, hlen, rfl, rfl, hheap⟩
  obtain ⟨buffer', hstore, hholds', hlength⟩ := hholds.storeAll bytes (by omega)
  refine .inr ⟨{ p with buffer := some buffer' }, ?_, buffer', rfl, hholds', ?_, rfl, rfl, hheap⟩
  · rw [store, hbuffer, Option.bind_some, hi, hstore]
  · rw [List.length_append, hlength]
    omega

theorem advance_spec {E : PrintBuffer → Prop} (k : ℕ) :
    (advance k).Spec (Filled blocks depth offset t n) E (Filled blocks depth (offset + k) t n) := by
  refine Attempt.Spec.modify ?_
  rintro p ⟨buffer, hbuffer, hholds, hlen, rfl, hdepth, hheap⟩
  exact ⟨buffer, hbuffer, hholds, hlen, rfl, hdepth, hheap⟩

/-- Bytes after a text. -/
theorem emit_spec {deep length needed counted : ℕ} {bytes : List UInt8}
    (hlength : needed + t.length ≤ length + 1) (hbytes : n + bytes.length ≤ needed + 1) :
    (emit hooks needed bytes counted).Spec (Ready blocks depth t)
      (Failed hooks blocks deep length)
      (Filled blocks depth (t.length + counted) (t ++ bytes) n) :=
  (reserve_spec hlength).andThen
    ((store_spec (Nat.add_zero _) hbytes).andThen (advance_spec counted))

/-- Bytes that are counted, but for a zero. -/
theorem emit_ready {deep length needed counted : ℕ} (bytes zeros : List UInt8)
    (hlength : needed + t.length ≤ length + 1) (hbytes : bytes.length + 1 ≤ needed + 1)
    (hzeros : zeros.length ≤ 1) (hcounted : counted = bytes.length) :
    (emit hooks needed (bytes ++ zeros) counted).Spec (Ready blocks depth t)
      (Failed hooks blocks deep length) (Ready blocks depth (t ++ bytes)) := by
  subst hcounted
  refine (emit_spec (n := 1 - zeros.length) hlength ?_).mono (fun _ hp => hp) (fun _ hp => hp)
    fun p hp => ?_
  · rw [List.length_append]
    omega
  · rw [← List.append_assoc] at hp
    have hp' := hp.weaken
    rw [Nat.sub_add_cancel hzeros, ← List.length_append] at hp'
    exact hp'

/-- A zero that has been written after the text. -/
theorem Pending.of_filled {w : List UInt8}
    (h : Filled blocks depth offset (t ++ (w ++ [0])) n p)
    (hoffset : t.length ≤ offset ∧ offset ≤ t.length + w.length) (hzero : 0 ∉ w) :
    Pending blocks depth (t ++ w) p := by
  rw [← List.append_assoc] at h
  refine ⟨offset, h.le (Nat.zero_le n), by rw [List.length_append]; exact hoffset.2, ?_⟩
  rw [List.drop_append, List.drop_of_length_le hoffset.1, List.nil_append]
  exact fun hmem => hzero (List.mem_of_mem_drop hmem)

/-- Bytes and a zero. -/
theorem emit_pending {deep length needed counted : ℕ} {w : List UInt8}
    (hlength : needed + t.length ≤ length + 1) (hw : w.length ≤ needed)
    (hcounted : counted ≤ w.length) (hzero : 0 ∉ w) :
    (emit hooks needed (w ++ [0]) counted).Spec (Ready blocks depth t)
      (Failed hooks blocks deep length) (Pending blocks depth (t ++ w)) := by
  refine (emit_spec (n := 0) hlength ?_).mono (fun _ hp => hp) (fun _ hp => hp) fun p hp =>
    .of_filled hp ⟨by omega, by omega⟩ hzero
  rw [List.length_append, List.length_singleton]
  omega

/-- **The zero** after the text is found. -/
theorem updateOffset_spec {E : PrintBuffer → Prop} :
    updateOffset.Spec (Pending blocks depth t) E
      (Filled blocks depth t.length (t ++ [0]) 0) := by
  rintro p ⟨offset, ⟨buffer, hbuffer, hholds, hlen, rfl, rfl, hheap⟩, hle, hzero⟩
  have hsplit : t ++ [0] = t.take p.offset ++ (t.drop p.offset ++ [0]) := by
    rw [← List.append_assoc, List.take_append_drop]
  have hdrop : Block.Holds (buffer.drop p.offset) (t.drop p.offset ++ [0]) := by
    rw [hsplit] at hholds
    simpa only [List.length_take, Nat.min_eq_left hle] using hholds.drop
  refine .inr ⟨{ p with offset := p.offset + (t.drop p.offset).length }, ?_, buffer, hbuffer,
    hholds, hlen, ?_, rfl, hheap⟩
  · rw [updateOffset, hbuffer]
    dsimp only
    rw [hdrop.cString_eq hzero]
  · rw [List.length_drop]
    dsimp only
    omega

theorem updateOffset_ready {E : PrintBuffer → Prop} :
    updateOffset.Spec (Pending blocks depth t) E (Ready blocks depth t) :=
  updateOffset_spec.mono (fun _ h => h) (fun _ h => h) fun _ h => h.weaken

/-! ## Numbers -/

theorem sprintf_eq {size : ℕ} (h : t.length < size) : sprintf size t = .ok t := if_pos h

theorem length_numberText_le {d : Double} (h : d.IsDouble) : (numberText d).length ≤ 25 := by
  cases d with
  | infinite _ | nan => exact (by decide : (cstr "null").length ≤ 25)
  | finite v => exact length_numeral_le h
  | negZero => exact length_numeral_le mem_zero

/-- **The buffer of `print_number`** is large enough, whatever the number. -/
theorem numberBuffer_eq {d : Double} (h : d.IsDouble) : numberBuffer d = .ok (numberText d) := by
  cases d with
  | infinite _ | nan => rfl
  | negZero =>
    rw [numberBuffer, numberText, ← numeral_zero]
    exact sprintf_eq (Nat.lt_succ_of_le (length_numeral_le mem_zero))
  | finite v =>
    have hlen := length_numeral_le h
    rw [numberBuffer, numberText]
    rw [numeral] at hlen ⊢
    by_cases hint : v = Double.valueint v
    · rw [if_pos hint] at hlen ⊢
      rw [if_pos hint, sprintf_eq (Nat.lt_succ_of_le hlen)]
    rw [if_neg hint] at hlen ⊢
    rw [if_neg hint]
    have hlen' := length_numeral_digits_le (p := 15) (by norm_num) (by norm_num) h hint
    rw [sprintf_eq (Nat.lt_succ_of_le hlen')]
    dsimp only
    rw [strtod_text (Decimal.wellFormed_numeral (by norm_num) v)] at hlen ⊢
    dsimp only at hlen ⊢
    split_ifs at hlen ⊢ with hcompare
    · rfl
    · exact sprintf_eq (Nat.lt_succ_of_le hlen)

/-- `compare_double` has no sign for a zero. -/
theorem compare_zero_negZero : (Double.finite 0).compare .negZero = true := by
  refine decide_eq_true ?_
  simp [Double.toRat]

/-- **A finite number** is printed to the buffer of `print_number`, and `strtod` reads it to the
    end of its text: it gets the number back, or one that `compare_double` cannot tell from it. If
    the number is the value of an `int`, it gets just that, so a zero loses its sign. -/
theorem numberBuffer_reread {d : Double} (h : d.IsDouble) {v : ℚ} (hv : d.toRat = some v) :
    ∃ text r, numberBuffer d = .ok text ∧ text.length < 26 ∧
      strtod text = some (r, text.length) ∧ (r = d ∨ r.compare d = true) ∧
      ((Double.valueint v : ℚ) = v → r = .finite v) := by
  refine ⟨numberText d, rereadNumber v, numberBuffer_eq h,
    Nat.lt_succ_of_le (length_numberText_le h), ?_⟩
  cases d with
  | finite w =>
    obtain rfl := Option.some.inj hv
    exact ⟨strtod_text (wellFormed_numeral w), rereadNumber_eq h,
      fun hint => rereadNumber_of_valueint h hint.symm⟩
  | negZero =>
    obtain rfl := Option.some.inj hv
    have hread := rereadNumber_of_valueint mem_zero (by rw [valueint_zero, Int.cast_zero])
    refine ⟨strtod_text (wellFormed_numeral 0), .inr ?_, fun _ => hread⟩
    rw [hread]
    exact compare_zero_negZero
  | infinite _ | nan => cases hv

/-- One half is no integer. -/
theorem numberBuffer_reread_half :
    ∃ text r, numberBuffer (.finite (1 / 2)) = .ok text ∧ text.length < 26 ∧
      strtod text = some (r, text.length) ∧
      (r = .finite (1 / 2) ∨ r.compare (.finite (1 / 2)) = true) ∧
      ((Double.valueint (1 / 2) : ℚ) = 1 / 2 → r = .finite (1 / 2)) := by
  have hmem : double.Mem (1 / 2) := by
    refine ⟨1, -1, by norm_num, by norm_num [double], by decide, ?_⟩
    exact lt_of_lt_of_le (by norm_num) (one_le_zpow₀ one_le_two (by decide))
  exact numberBuffer_reread (d := .finite (1 / 2)) hmem rfl

theorem printNumber_spec {deep length : ℕ} {d : Double} (h : d.IsDouble)
    (hlength : t.length + (numberText d).length ≤ length) :
    (printNumber hooks d).Spec (Ready blocks depth t) (Failed hooks blocks deep length)
      (Pending blocks depth (t ++ numberText d)) := by
  have hle := length_numberText_le h
  have hprint : printNumber hooks d =
      emit hooks ((numberText d).length + 1) (numberText d ++ [0]) (numberText d).length := by
    funext p
    rw [printNumber, numberBuffer_eq h]
    dsimp only
    rw [if_neg (by omega)]
  rw [hprint]
  exact emit_pending (by omega) (by omega) le_rfl (zero_not_mem_of_lt lt_of_mem_numberText)

/-! ## Strings -/

theorem escape_eq_singleton {c : UInt8} (h : isPlain c) : escape c = [c] := if_pos h

theorem isPlain_of_escapeCharacters {c : UInt8} (h : escapeCharacters c = 0) : isPlain c := by
  by_contra hplain
  rw [escapeCharacters] at h
  cases hshort : shortEscape c with
  | some e => simp [hshort] at h
  | none =>
    have hlt := lt_of_shortEscape (by simpa using hplain) hshort
    rw [hshort, if_neg (by simp), if_pos (UInt8.lt_iff_toNat_lt.2 hlt)] at h
    omega

theorem not_lt_of_isPlain {c : UInt8} (h : isPlain c) : ¬ c < 32 := by
  obtain ⟨hlt, -, -⟩ := isPlain_iff.1 h
  rw [UInt8.lt_iff_toNat_lt] at hlt ⊢
  exact not_lt.2 hlt

theorem length_escape (c : UInt8) : (escape c).length = 1 + escapeCharacters c := by
  rw [escape, escapeCharacters]
  by_cases hplain : isPlain c
  · rw [if_pos hplain, shortEscape_of_isPlain hplain, if_neg (by simp),
      if_neg (not_lt_of_isPlain hplain)]
    rfl
  · rw [if_neg hplain]
    cases hshort : shortEscape c with
    | some e => rfl
    | none =>
      have hlt := lt_of_shortEscape (by simpa using hplain) hshort
      rw [if_neg (by simp), if_pos (UInt8.lt_iff_toNat_lt.2 hlt)]
      rfl

theorem length_flatMap_escape (s : CString) :
    (s.flatMap escape).length = s.length + (s.map escapeCharacters).sum := by
  induction s with
  | nil => rfl
  | cons c s ih =>
    rw [List.flatMap_cons, List.length_append, length_escape, ih, List.length_cons, List.map_cons,
      List.sum_cons]
    omega

theorem flatMap_escape_eq_self {s : CString} (h : (s.map escapeCharacters).sum = 0) :
    s.flatMap escape = s := by
  induction s with
  | nil => rfl
  | cons c s ih =>
    rw [List.map_cons, List.sum_cons, Nat.add_eq_zero_iff] at h
    rw [List.flatMap_cons, ih h.2, escape_eq_singleton (isPlain_of_escapeCharacters h.1),
      List.singleton_append]

/-- **The loop over a string.** The place after what it writes may get a zero. -/
theorem copyEscaped_spec {E : PrintBuffer → Prop} {s : CString} {i m : ℕ}
    (hi : offset + i = t.length) (hm : n + 1 + (s.flatMap escape).length ≤ m) :
    (copyEscaped i s).Spec (Filled blocks depth offset t m) E
      (Filled blocks depth offset (t ++ s.flatMap escape) (n + 1)) := by
  induction s generalizing i t m with
  | nil =>
    rw [copyEscaped, List.flatMap_nil, List.append_nil]
    exact Attempt.Spec.skip.mono (fun _ hp => hp.le (by simpa using hm)) (fun _ hp => hp)
      fun _ hp => hp
  | cons c s ih =>
    rw [List.flatMap_cons, List.length_append] at hm
    rw [List.flatMap_cons, ← List.append_assoc]
    have hrest : (copyEscaped (i + (escape c).length) s).Spec
        (Filled blocks depth offset (t ++ escape c) (n + 1 + (s.flatMap escape).length)) E
        (Filled blocks depth offset (t ++ escape c ++ s.flatMap escape) (n + 1)) :=
      ih (by rw [List.length_append]; omega) le_rfl
    rw [copyEscaped]
    by_cases hplain : isPlain c
    · rw [escape_eq_singleton hplain] at hm hrest ⊢
      rw [if_pos hplain]
      exact (store_spec hi (by omega)).andThen hrest
    rw [escape, if_neg hplain] at hm hrest ⊢
    rw [if_neg hplain]
    have hi' : offset + (i + 1) = (t ++ [92]).length := by
      rw [List.length_append, List.length_singleton]
      omega
    -- the backslash, and what stands for the byte
    cases hshort : shortEscape c with
    | some e =>
      rw [hshort] at hm hrest
      dsimp only at hm hrest ⊢
      rw [List.append_cons t] at hrest ⊢
      rw [List.length_cons] at hm
      exact (store_spec hi (by simp at *; omega)).andThen ((store_spec hi' le_rfl).andThen hrest)
    | none =>
      rw [hshort] at hm hrest
      dsimp only at hm hrest ⊢
      rw [List.append_cons t] at hrest ⊢
      rw [List.length_cons] at hm
      -- the zero of `sprintf` is overwritten
      have hzero : ∀ p, Filled blocks depth offset (t ++ [92] ++ (unicodeEscape c.toNat ++ [0]))
          (n + (s.flatMap escape).length) p → Filled blocks depth offset
          (t ++ [92] ++ unicodeEscape c.toNat) (n + 1 + (s.flatMap escape).length) p := by
        intro p hp
        rw [← List.append_assoc] at hp
        exact hp.weaken.le (by rw [List.length_singleton]; omega)
      have hlen : n + (s.flatMap escape).length + (unicodeEscape c.toNat ++ [0]).length +
          [(92 : UInt8)].length ≤ m := by
        rw [List.length_append, List.length_singleton, List.length_singleton]
        omega
      exact (store_spec hi hlen).andThen
        ((store_spec hi' le_rfl).andThen (hrest.mono hzero (fun _ hp => hp) fun _ hp => hp))

/-- **A string is printed** as it stands, or byte after byte. -/
theorem printStringPtr_spec {deep length : ℕ} {s : CString}
    (hlength : t.length + (stringText s).length ≤ length) :
    (printStringPtr hooks s).Spec (Ready blocks depth t) (Failed hooks blocks deep length)
      (Pending blocks depth (t ++ stringText s)) := by
  have hlen := length_flatMap_escape s
  have htext : (stringText s).length = (s.flatMap escape).length + 2 := by
    rw [stringText, List.length_cons, List.length_append, List.length_singleton]
  have hpending : ∀ p, Filled blocks depth t.length (t ++ (stringText s ++ [0])) 0 p →
      Pending blocks depth (t ++ stringText s) p := fun p hp =>
    .of_filled hp ⟨le_rfl, Nat.le_add_right _ _⟩ (zero_not_mem_of_lt lt_of_mem_stringText)
  have htail : t ++ (stringText s ++ [0]) = t ++ [34] ++ s.flatMap escape ++ [34, 0] := by
    rw [stringText]
    simp
  rw [printStringPtr]
  refine (reserve_spec (by omega)).andThen ?_
  by_cases hescapes : (s.map escapeCharacters).sum = 0
  · have hsame : (34 :: (s ++ [34, 0]) : List UInt8) = stringText s ++ [0] := by
      rw [stringText, flatMap_escape_eq_self hescapes]
      simp
    rw [if_pos hescapes, hsame]
    refine (store_spec (Nat.add_zero _) ?_).mono (fun _ hp => hp) (fun _ hp => hp) hpending
    rw [List.length_append, List.length_singleton]
    omega
  · rw [htail] at hpending
    rw [if_neg hescapes]
    have hquote : (t ++ [34]).length = t.length + 1 := by
      rw [List.length_append, List.length_singleton]
    have hend : (t ++ [34] ++ s.flatMap escape).length =
        t.length + (s.length + (s.map escapeCharacters).sum + 1) := by
      rw [List.length_append, hquote]
      omega
    -- the quote, the bytes, and the other quote with a zero
    refine (store_spec (n := (s.flatMap escape).length + 2) (Nat.add_zero _) ?_).andThen
      ((copyEscaped_spec (n := 1) hquote.symm (by omega)).andThen
        ((store_spec hend.symm le_rfl).mono (fun _ hp => hp) (fun _ hp => hp) hpending))
    rw [List.length_singleton]
    omega

/-! ## Values -/

theorem checkDepth_spec {deep length : ℕ} (hdeep : depth < deep) :
    checkDepth.Spec (Ready blocks depth t) (Failed hooks blocks deep length)
      (Ready blocks depth t) := by
  refine (Attempt.Spec.check ?_).mono (fun _ h => h) (fun _ h => h) fun _ h => h.1
  rintro p ⟨buffer, hbuffer, -, -, -, rfl, hheap⟩ hcheck
  have hdepth : ¬ p.depth < nestingLimit := of_decide_eq_false hcheck
  exact ⟨by rw [hheap, hbuffer]; rfl, .inl (by omega)⟩

theorem enter_spec {E : PrintBuffer → Prop} :
    enter.Spec (Ready blocks depth t) E (Ready blocks (depth + 1) t) := by
  refine Attempt.Spec.modify ?_
  rintro p ⟨buffer, hbuffer, hholds, hlen, hoffset, rfl, hheap⟩
  exact ⟨buffer, hbuffer, hholds, hlen, hoffset, rfl, hheap⟩

theorem leave_spec {E : PrintBuffer → Prop} :
    leave.Spec (Pending blocks (depth + 1) t) E (Pending blocks depth t) := by
  refine Attempt.Spec.modify ?_
  rintro p ⟨offset, ⟨buffer, hbuffer, hholds, hlen, hoffset, hdepth, hheap⟩, hpending⟩
  exact ⟨offset, ⟨buffer, hbuffer, hholds, hlen, hoffset, by rw [hdepth]; rfl, hheap⟩, hpending⟩

theorem printLiteral_spec {deep length : ℕ} {w : List UInt8}
    (hlength : t.length + w.length ≤ length) (hzero : 0 ∉ w) :
    (printLiteral hooks w).Spec (Ready blocks depth t) (Failed hooks blocks deep length)
      (Pending blocks depth (t ++ w)) :=
  emit_pending (by omega) (Nat.le_succ _) (Nat.zero_le _) hzero

/-- The item is printed after whatever is in the buffer. -/
def Prints (hooks : Hooks) (blocks n : ℕ) (v : Item) : Prop :=
  ∀ {depth deep length : ℕ} {t : List UInt8}, depth + n ≤ deep →
    t.length + v.text.length ≤ length →
    (printValue hooks v).Spec (Ready blocks depth t) (Failed hooks blocks deep length)
      (Pending blocks depth (t ++ v.text))

theorem commas_cons_cons (w w' : List UInt8) (ws : List (List UInt8)) :
    commas (w :: w' :: ws) = w ++ 44 :: commas (w' :: ws) := rfl

/-- A character between two texts. -/
theorem append_separator (c : UInt8) (t w w' : List UInt8) :
    t ++ (w ++ c :: w') = t ++ w ++ [c] ++ w' := by
  rw [← List.append_assoc, List.append_cons]

theorem printItems_spec {deep length : ℕ} {items : List Item}
    (h : ∀ v ∈ items, Prints hooks blocks n v) (hdeep : depth + n ≤ deep)
    (hlength : t.length + (commas (items.map Item.text)).length ≤ length) :
    (printItems hooks items).Spec (Ready blocks depth t) (Failed hooks blocks deep length)
      (Ready blocks depth (t ++ commas (items.map Item.text))) := by
  induction items generalizing t with
  | nil =>
    rw [printItems, List.map_nil, commas, List.append_nil]
    exact .skip
  | cons v items ih =>
    rw [List.forall_mem_cons] at h
    rw [printItems]
    cases items with
    | nil =>
      rw [List.map_singleton, commas] at hlength ⊢
      exact (h.1 hdeep hlength).andThen (updateOffset_ready.andThen (.andThen .skip .skip))
    | cons v' items =>
      rw [List.map_cons, List.map_cons, commas_cons_cons, ← List.map_cons, append_separator]
      rw [List.map_cons, List.map_cons, commas_cons_cons, ← List.map_cons, List.length_append,
        List.length_cons] at hlength
      refine (h.1 hdeep (by omega)).andThen (updateOffset_ready.andThen
        ((emit_ready [44] [0] ?_ (by decide) le_rfl rfl).andThen
          (ih h.2 ?_)))
      · rw [List.length_append]
        omega
      · rw [List.length_append, List.length_append, List.length_singleton]
        omega

/-- A name, a colon and a value. -/
theorem printField_spec {deep length : ℕ} {name : CString} {v : Item} {b : Printer}
    {Q : PrintBuffer → Prop} (h : Prints hooks blocks n v) (hdeep : depth + n ≤ deep)
    (hlength : t.length + (Item.fieldText (name, v)).length ≤ length)
    (hb : b.Spec (Ready blocks depth (t ++ Item.fieldText (name, v)))
      (Failed hooks blocks deep length) Q) :
    ((printStringPtr hooks name).andThen <| updateOffset.andThen <|
      (emit hooks 1 [58] 1).andThen <| (printValue hooks v).andThen <|
        updateOffset.andThen b).Spec (Ready blocks depth t)
      (Failed hooks blocks deep length) Q := by
  rw [Item.fieldText, append_separator] at hb
  rw [Item.fieldText, List.length_append, List.length_cons] at hlength
  dsimp only at hb hlength
  refine (printStringPtr_spec (by omega)).andThen (updateOffset_ready.andThen
    ((emit_ready [58] [] ?_ (by decide) (Nat.zero_le 1) rfl).andThen
      ((h hdeep ?_).andThen (updateOffset_ready.andThen hb))))
  · rw [List.length_append]
    omega
  · rw [List.length_append, List.length_append, List.length_singleton]
    omega

theorem printFields_spec {deep length : ℕ} {fields : List (CString × Item)}
    (h : ∀ f ∈ fields, Prints hooks blocks n f.2) (hdeep : depth + n ≤ deep)
    (hlength : t.length + (commas (fields.map Item.fieldText)).length ≤ length) :
    (printFields hooks fields).Spec (Ready blocks depth t) (Failed hooks blocks deep length)
      (Ready blocks depth (t ++ commas (fields.map Item.fieldText))) := by
  induction fields generalizing t with
  | nil =>
    rw [printFields, List.map_nil, commas, List.append_nil]
    exact .skip
  | cons f fields ih =>
    obtain ⟨name, v⟩ := f
    rw [List.forall_mem_cons] at h
    rw [printFields]
    cases fields with
    | nil =>
      rw [List.map_singleton, commas] at hlength ⊢
      refine printField_spec h.1 hdeep hlength (.andThen ?_ .skip)
      have hlast : (emit hooks 1 ([] ++ [0]) 0).Spec
          (Ready blocks depth (t ++ Item.fieldText (name, v))) (Failed hooks blocks deep length)
          (Ready blocks depth (t ++ Item.fieldText (name, v) ++ [])) :=
        emit_ready [] [0] (by rw [List.length_append]; omega) (by decide) le_rfl rfl
      rwa [List.append_nil] at hlast
    | cons f' fields =>
      rw [List.map_cons, List.map_cons, commas_cons_cons, ← List.map_cons, append_separator]
      rw [List.map_cons, List.map_cons, commas_cons_cons, ← List.map_cons, List.length_append,
        List.length_cons] at hlength
      refine printField_spec h.1 hdeep (by omega) (.andThen
        (emit_ready [44] [0] ?_ (by decide) le_rfl rfl) (ih h.2 ?_))
      · rw [List.length_append]
        omega
      · rw [List.length_append, List.length_append, List.length_singleton]
        omega

/-- A text between brackets, which is one more array or object. -/
theorem brackets_spec {deep length needed : ℕ} {c c' : UInt8} {w : List UInt8} {a : Printer}
    (hdeep : depth < deep) (hlength : t.length + (c :: (w ++ [c'])).length ≤ length)
    (hneeded : 0 < needed ∧ needed ≤ 2) (hc' : c' ≠ 0)
    (ha : a.Spec (Ready blocks (depth + 1) (t ++ [c])) (Failed hooks blocks deep length)
      (Ready blocks (depth + 1) (t ++ [c] ++ w))) :
    (checkDepth.andThen <| (emit hooks needed [c] 1).andThen <| enter.andThen <|
      a.andThen <| (emit hooks 2 [c', 0] 0).andThen leave).Spec (Ready blocks depth t)
      (Failed hooks blocks deep length) (Pending blocks depth (t ++ c :: (w ++ [c']))) := by
  have htext : t ++ c :: (w ++ [c']) = t ++ [c] ++ w ++ [c'] := by
    rw [List.append_cons t c, List.append_assoc (t ++ [c])]
  rw [List.length_cons, List.length_append, List.length_singleton] at hlength
  rw [htext]
  refine (checkDepth_spec hdeep).andThen
    ((emit_ready [c] [] (by omega) ?_ (Nat.zero_le 1) rfl).andThen
      (enter_spec.andThen (ha.andThen
        ((emit_pending (w := [c']) ?_ one_le_two (Nat.zero_le _) ?_).andThen leave_spec))))
  · rw [List.length_singleton]
    omega
  · rw [List.length_append, List.length_append, List.length_singleton]
    omega
  · simpa using hc'.symm

/-- **Values**, whatever has been printed before them. -/
theorem printValue_spec {v : Item} (hv : v.WellFormed n) : Prints hooks blocks n v := by
  induction hv with
  | null => exact fun _ hlength => printLiteral_spec hlength (by decide)
  | bool b =>
    cases b with
    | false => exact fun _ hlength => printLiteral_spec hlength (by decide)
    | true => exact fun _ hlength => printLiteral_spec hlength (by decide)
  | number h => exact fun _ hlength => printNumber_spec h hlength
  | string h => exact fun _ hlength => printStringPtr_spec hlength
  | array h ih =>
    intro depth deep length t hdeep hlength
    rw [Item.text_array] at hlength ⊢
    rw [printValue]
    refine brackets_spec (by omega) hlength (by decide) (by decide)
      (printItems_spec ih (by omega) ?_)
    rw [List.length_cons, List.length_append, List.length_singleton] at hlength
    rw [List.length_append, List.length_singleton]
    omega
  | object hname h ih =>
    intro depth deep length t hdeep hlength
    rw [Item.text_object] at hlength ⊢
    rw [printValue]
    refine brackets_spec (by omega) hlength (by decide) (by decide)
      (printFields_spec ih (by omega) ?_)
    rw [List.length_cons, List.length_append, List.length_singleton] at hlength
    rw [List.length_append, List.length_singleton]
    omega

/-! ## The block that is returned -/

/-- What becomes of the buffer when a text is in it. -/
theorem trim_spec {deep length : ℕ} {buffer : Block UInt8} (hholds : buffer.Holds (t ++ [0]))
    (hoffset : p.offset = t.length) (hheap : p.heap.blocks = blocks + 1) :
    ∃ r heap', trim hooks p buffer = .ok (r, heap') ∧
      (r = some ((t ++ [0]).map some) ∧ heap'.blocks = blocks + 1 ∨
        r = none ∧ heap'.blocks = blocks ∧ Excuse hooks deep length) := by
  have hsize : p.offset + 1 = (t ++ [0]).length := by
    rw [hoffset, List.length_append, List.length_singleton]
  have hexcuse : hooks.grants p.heap.calls (p.offset + 1) = false → Excuse hooks deep length :=
    fun hgrant => .inr (.inl ⟨_, _, hgrant⟩)
  rw [trim]
  by_cases hrealloc : hooks.reallocate
  · rw [if_pos hrealloc]
    cases hgrant : hooks.grants p.heap.calls (p.offset + 1) with
    | false =>
      simp only [Hooks.realloc, hgrant]
      exact ⟨_, _, rfl, .inr ⟨rfl, by simp [hheap], hexcuse hgrant⟩⟩
    | true =>
      simp only [Hooks.realloc, hgrant]
      exact ⟨_, _, rfl, .inl ⟨by rw [hsize, hholds.resize_eq], hheap⟩⟩
  · rw [if_neg hrealloc]
    cases hgrant : hooks.grants p.heap.calls (p.offset + 1) with
    | false =>
      simp only [Hooks.allocate, hgrant]
      exact ⟨_, _, rfl, .inr ⟨rfl, by simp [hheap], hexcuse hgrant⟩⟩
    | true =>
      simp only [Hooks.allocate, hgrant]
      rw [hsize, Nat.min_eq_right hholds.length_le, hholds.take_eq,
        (Block.holds_map (t ++ [0])).resize_eq]
      have hstore : ((t ++ [0]).map some : Block UInt8).store p.offset 0 =
          some ((t ++ [0]).map some) := by
        rw [hoffset, Block.store, if_pos (by simp), List.map_append,
          List.set_append_right _ _ (by simp)]
        simp
      rw [hstore]
      exact ⟨_, _, rfl, .inl ⟨rfl, by simp [hheap]⟩⟩

/-- What is returned for an item: the text and a zero, or nothing, for a reason. -/
inductive Returns (hooks : Hooks) (n : ℕ) (v : Item) (heap : Heap) :
    Option (Block UInt8) → Heap → Prop
  | text {heap' : Heap} (hblocks : heap'.blocks = heap.blocks + 1) :
      Returns hooks n v heap (some ((v.text ++ [0]).map some)) heap'
  | nothing {heap' : Heap} (hblocks : heap'.blocks = heap.blocks)
      (hexcuse : Excuse hooks n v.text.length) : Returns hooks n v heap none heap'

theorem print_returns (hooks : Hooks) {v : Item} (hv : v.WellFormed n) (heap : Heap) :
    ∃ r heap', print hooks v heap = .ok (r, heap') ∧ Returns hooks n v heap r heap' := by
  rw [print]
  cases hgrant : hooks.grants heap.calls 256 with
  | false =>
    simp only [Hooks.allocate, hgrant]
    exact ⟨_, _, rfl, .nothing rfl (.inr (.inl ⟨_, _, hgrant⟩))⟩
  | true =>
    simp only [Hooks.allocate, hgrant]
    have hready : Ready heap.blocks 0 []
        ⟨some (.uninit 256), 0, 0, ⟨heap.calls + 1, heap.blocks + 1⟩⟩ :=
      ⟨_, rfl, Block.holds_nil, by simp, rfl, rfl, rfl⟩
    have hprints : (printValue hooks v).Spec (Ready heap.blocks 0 [])
        (Failed hooks heap.blocks n v.text.length) (Pending heap.blocks 0 v.text) :=
      printValue_spec hv (zero_add n).le (zero_add _).le
    obtain ⟨p, hrun, hblocks, hexcuse⟩ | ⟨p, hrun, buffer, hbuffer, hholds, -, hoffset, -, hheap⟩ :=
      hprints.andThen updateOffset_spec _ hready
    · simp only [Bool.toNat_true, hrun]
      refine ⟨_, _, rfl, .nothing ?_ hexcuse⟩
      cases hbuffer : p.buffer with
      | none => simp [hblocks, hbuffer]
      | some buffer => simp [hblocks, hbuffer]
    · simp only [Bool.toNat_true, hrun, hbuffer]
      obtain ⟨r, heap', htrim, ⟨rfl, hblocks⟩ | ⟨rfl, hblocks, hexcuse⟩⟩ :=
        trim_spec hholds hoffset hheap
      · exact ⟨_, _, htrim, .text hblocks⟩
      · exact ⟨_, _, htrim, .nothing hblocks hexcuse⟩

/-- **What is returned**: the text and a zero, in a block of their size; or nothing, with no block
    left, for a reason. -/
theorem print_spec (hooks : Hooks) {v : Item} (hv : v.WellFormed n) (heap : Heap) :
    ∃ r heap', print hooks v heap = .ok (r, heap') ∧
      (r = some ((v.text ++ [0]).map some) ∧ heap'.blocks = heap.blocks + 1 ∨
        r = none ∧ heap'.blocks = heap.blocks ∧ Excuse hooks n v.text.length) := by
  obtain ⟨r, heap', hprint, hreturns⟩ := print_returns hooks hv heap
  refine ⟨r, heap', hprint, ?_⟩
  cases hreturns with
  | text hblocks => exact .inl ⟨rfl, hblocks⟩
  | nothing hblocks hexcuse => exact .inr ⟨rfl, hblocks, hexcuse⟩

/-- There is enough memory for six characters. -/
theorem print_spec_array :
    ∃ heap', print .all (.array [.bool true]) ⟨0, 3⟩ =
      .ok (some ((cstr "[true]" ++ [0]).map some), heap') ∧ heap'.blocks = 4 := by
  have hv : Item.WellFormed 1 (.array [.bool true]) := by
    refine .array ?_
    rw [List.forall_mem_singleton]
    exact .bool true
  obtain ⟨r, heap', hprint, ⟨rfl, hblocks⟩ | ⟨-, -, hexcuse⟩⟩ := print_spec .all hv ⟨0, 3⟩
  · exact ⟨heap', hprint, hblocks⟩
  · obtain hdeep | ⟨k, size, hrefused⟩ | hlong := hexcuse
    · exact absurd hdeep (by decide)
    · cases hrefused
    · exact absurd hlong (by decide)

end HybridPqc.Cjson
