import HybridPqc.Cjson.Grammar
import HybridPqc.Cjson.Printed

/-!
# Items that are read back

The text for an item denotes it, but for its numbers (`denotes_text`): a finite one may become
another one that `compare_double` does not tell from it, and what is infinite, or no number, is
written as `null`.
So the item is read back, as far as its numbers can be (`parse_text`).
-/

namespace HybridPqc.Cjson

/-- An element without white space. -/
def Element.of (v : Item) : Element := ⟨[], v.text, [], v.reread⟩

/-- A field without white space. -/
def Member.of (f : CString × Item) : Member := ⟨[], f.1.flatMap escape, [], f.1, .of f.2⟩

theorem Element.text_of (v : Item) : (Element.of v).text = v.text := List.append_nil v.text

theorem Member.text_of (f : CString × Item) : (Member.of f).text = Item.fieldText f := by
  simp [text, of, Element.text_of, Item.fieldText, stringText]

theorem map_text_of (items : List Item) :
    (items.map Element.of).map Element.text = items.map Item.text := by
  rw [List.map_map]
  exact List.map_congr_left fun v _ => Element.text_of v

theorem map_item_of (items : List Item) :
    (items.map Element.of).map Element.item = items.map Item.reread := by
  rw [List.map_map]
  rfl

theorem map_memberText_of (fields : List (CString × Item)) :
    (fields.map Member.of).map Member.text = fields.map Item.fieldText := by
  rw [List.map_map]
  exact List.map_congr_left fun f _ => Member.text_of f

theorem map_field_of (fields : List (CString × Item)) :
    (fields.map Member.of).map Member.field = fields.map Item.rereadField := by
  rw [List.map_map]
  rfl

/-- **What is written** for an item denotes what is read back for it. -/
theorem denotes_text {n : ℕ} {v : Item} (hv : v.WellFormed n) : Denotes n v.text v.reread := by
  induction hv with
  | null => exact .null
  | bool b => exact .bool b
  | @number n d h =>
    cases d with
    | infinite _ | nan => exact .null
    | finite v => exact .number (wellFormed_numeral v) (numeral v).isText_text
    | negZero => exact .number (wellFormed_numeral 0) (numeral 0).isText_text
  | string h => exact .string (spells_text _) h
  | @array n items h ih =>
    rw [Item.text_array, Item.reread_array]
    cases items with
    | nil => exact .emptyArray (List.forall_mem_nil _)
    | cons v items =>
      rw [← map_text_of, ← map_item_of]
      refine .array (by simp) ?_ ?_
      · rw [List.forall_mem_map]
        exact fun v _ => ⟨List.forall_mem_nil _, List.forall_mem_nil _⟩
      · rwa [List.forall_mem_map]
  | @object n fields hname h ih =>
    rw [Item.text_object, Item.reread_object]
    cases fields with
    | nil => exact .emptyObject (List.forall_mem_nil _)
    | cons f fields =>
      rw [← map_memberText_of, ← map_field_of]
      refine .object (by simp) ?_ ?_ ?_
      · rw [List.forall_mem_map]
        exact fun f hf =>
          ⟨List.forall_mem_nil _, List.forall_mem_nil _, spells_text f.1, hname f hf⟩
      · rw [List.forall_mem_map]
        exact fun f _ => ⟨List.forall_mem_nil _, List.forall_mem_nil _⟩
      · rwa [List.forall_mem_map]

namespace Item

/-- An item all the numbers of which are integers that fit an `int`. -/
inductive Whole : Item → Prop
  | null : Whole null
  | bool (b : Bool) : Whole (bool b)
  | number {n : ℤ} (h : -2147483648 ≤ n ∧ n ≤ 2147483647) : Whole (number (.finite n))
  | string (s : CString) : Whole (string s)
  | array {items : List Item} (h : ∀ v ∈ items, Whole v) : Whole (array items)
  | object {fields : List (CString × Item)} (h : ∀ f ∈ fields, Whole f.2) : Whole (object fields)

theorem Whole.reread_eq {v : Item} (h : v.Whole) : v.reread = v := by
  induction h with
  | null => rfl
  | bool b => rfl
  | number h => rw [reread, rereadNumber_intCast h]
  | string s => rfl
  | array h ih => rw [reread_array, List.map_congr_left ih, List.map_id']
  | object h ih =>
    have hfields : ∀ f ∈ _, rereadField f = f := fun f hf => by rw [rereadField, ih f hf]
    rw [reread_object, List.map_congr_left hfields, List.map_id']

end Item

/-- **The text for an item** is parsed to what is read back for it, up to its end. -/
theorem parse_text {hooks : Hooks} (hall : ∀ n size, hooks.grants n size = true) {v : Item}
    (hv : v.WellFormed nestingLimit) (heap : Heap) :
    ∃ heap', cJSONParse hooks v.text heap = .ok (some v.reread, v.text.length, heap') := by
  have htext : v.text = [] ++ ([] ++ (v.text ++ [])) := (List.append_nil _).symm
  obtain ⟨heap', hparse⟩ := cJSONParse_of_denotes hall htext (.inl rfl) (List.forall_mem_nil _)
    (denotes_text hv) (List.forall_mem_nil _) heap
  rw [List.length_nil, zero_add, zero_add] at hparse
  exact ⟨heap', hparse⟩

/-- **An item is printed, and read back** with the same names and strings, in the same order, and
    with the numbers that are made of its own; these are the same if they are integers. -/
theorem print_parse {hooks : Hooks} (hall : ∀ n size, hooks.grants n size = true) {v : Item}
    (hv : v.WellFormed nestingLimit) (hlength : v.text.length + 2 ≤ intMax) (heap : Heap) :
    ∃ text str heap₁ heap₂, print hooks v heap = .ok (some text, heap₁) ∧
      text.cString = some str ∧
      cJSONParse hooks str heap₁ = .ok (some v.reread, str.length, heap₂) ∧
      heap₂.blocks = heap.blocks + 1 + v.reread.blocks ∧ (v.Whole → v.reread = v) := by
  obtain ⟨r, heap₁, hprint, hheap | ⟨-, hexcuse⟩⟩ := print_returns hooks hv heap
  · obtain ⟨heap₂, hparse⟩ := parse_text hall hv heap₁
    obtain ⟨item, _, heap₃, hspec, hleaves⟩ :=
      parseWithLengthOpts_leaves hooks (v.text ++ [0]) false heap₁
    obtain ⟨rfl, hrest⟩ := Prod.mk.inj (Except.ok.inj (hspec.symm.trans hparse))
    obtain ⟨-, rfl⟩ := Prod.mk.inj hrest
    refine ⟨_, v.text, heap₁, heap₃, hprint, ?_, hparse, ?_, Item.Whole.reread_eq⟩
    · exact (Block.holds_map _).cString_eq (zero_not_mem_of_lt hv.lt_of_mem_text)
    · rw [hleaves.blocks, hheap]
      rfl
  · obtain hdeep | ⟨k, size, hrefused⟩ | hlong := hexcuse
    · exact absurd hdeep (lt_irrefl _)
    · cases (hall k size).symm.trans hrefused
    · exact absurd hlong (not_lt.2 hlength)

/-- An array with a string that needs escape sequences. -/
theorem print_parse_array :
    ∃ text str heap₁ heap₂,
      print .all (.array [.null, .string [10, 34, 7, 233]]) ⟨0, 0⟩ = .ok (some text, heap₁) ∧
      text.cString = some str ∧
      cJSONParse .all str heap₁ =
        .ok (some (.array [.null, .string [10, 34, 7, 233]]), str.length, heap₂) ∧
      heap₂.blocks = 5 := by
  have hv : Item.WellFormed nestingLimit (.array [.null, .string [10, 34, 7, 233]]) := by
    refine .array ?_
    rw [List.forall_mem_cons, List.forall_mem_singleton]
    exact ⟨.null, .string (by decide)⟩
  have hall : ∀ n size, Hooks.all.grants n size = true := fun _ _ => rfl
  obtain ⟨text, str, heap₁, heap₂, hprint, hstr, hparse, hblocks, -⟩ :=
    print_parse hall hv (by decide) ⟨0, 0⟩
  exact ⟨text, str, heap₁, heap₂, hprint, hstr, hparse, hblocks⟩

end HybridPqc.Cjson
