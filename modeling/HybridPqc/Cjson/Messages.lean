import HybridPqc.Cjson.RoundTrip
import HybridPqc.LineReader

/-!
# Messages from end to end

A message is printed by cJSON, and written to a socket by `send_json_line`; the peer gets a line
from `recv_json_line`, however its bytes arrive, and hands it to cJSON.

What `Lines` asks of a text holds for those of cJSON (`Message.sending`), and what comes out at the
other end is what was sent, as far as numbers can be read back (`received_message`).
-/

namespace HybridPqc.Cjson

/-! ## Items for values -/

namespace Item

mutual

/-- The item for a JSON value. -/
def ofJson : Json → Item
  | .null => null
  | .bool b => bool b
  | .number v => number (.ofRat v)
  | .string s => string s
  | .array items => array (ofJsonItems items)
  | .object fields => object (ofJsonFields fields)

/-- The items for the elements of an array. -/
def ofJsonItems : List Json → List Item
  | [] => []
  | v :: items => ofJson v :: ofJsonItems items

/-- The items for the fields of an object. -/
def ofJsonFields : List (CString × Json) → List (CString × Item)
  | [] => []
  | (name, v) :: fields => (name, ofJson v) :: ofJsonFields fields

end

end Item

/-! ## Sending -/

/-- A message to be sent: what the calls made for it answer. A `write` accepts some bytes, if it
    does not fail. -/
structure Message where
  obj : Json
  wellFormed : (Item.ofJson obj).WellFormed nestingLimit
  hooks : Hooks
  heap : Heap
  malloc : ℕ → Bool
  write : List UInt8 → Option ℕ
  write_ok : ∀ bs n, bs ≠ [] → write bs = some n → 0 < n ∧ n ≤ bs.length

namespace Message

/-- `cJSON_PrintUnformatted`: the string in the block, if there is one. -/
def printed (m : Message) : Option CString :=
  match print m.hooks (.ofJson m.obj) m.heap with
  | .ok (some text, _) => Block.cString text
  | _ => none

variable (m : Message)

/-- The text, if there is one. -/
theorem printed_eq : m.printed = some (Item.ofJson m.obj).text ∨ m.printed = none := by
  obtain ⟨r, heap', hprint, _ | _⟩ := print_returns m.hooks m.wellFormed m.heap
  · left
    rw [printed, hprint]
    exact (Block.holds_map _).cString_eq (zero_not_mem_of_lt m.wellFormed.lt_of_mem_text)
  · right
    rw [printed, hprint]

/-- There is one, with enough memory, unless it is too long. -/
theorem printed_of_grants (hall : ∀ n size, m.hooks.grants n size = true)
    (hlength : (Item.ofJson m.obj).text.length + 2 ≤ intMax) :
    m.printed = some (Item.ofJson m.obj).text := by
  obtain ⟨r, heap', hprint, _ | ⟨-, hexcuse⟩⟩ := print_returns m.hooks m.wellFormed m.heap
  · rw [printed, hprint]
    exact (Block.holds_map _).cString_eq (zero_not_mem_of_lt m.wellFormed.lt_of_mem_text)
  · obtain hdeep | ⟨k, size, hrefused⟩ | hlong := hexcuse
    · exact absurd hdeep (lt_irrefl _)
    · cases (hall k size).symm.trans hrefused
    · exact absurd hlong (not_lt.2 hlength)

/-- The message, as one that is sent by `send_json_line`. -/
def sending : Lines.Sending where
  obj := m.obj
  env
    | .printUnformatted _ => m.printed
    | .malloc size => m.malloc size
    | .write bs => m.write bs
  text_ok := by
    intro str hstr c hc
    obtain htext | htext := m.printed_eq
    · obtain rfl := Option.some.inj (htext.symm.trans hstr)
      have hlt := m.wellFormed.lt_of_mem_text c hc
      constructor
      · rintro rfl
        exact absurd hlt (by decide)
      · rintro rfl
        exact absurd hlt (by decide)
    · cases htext.symm.trans hstr
  write_ok := m.write_ok

theorem text_sending_eq : m.sending.text = m.printed := rfl

variable {m}

/-- What is reported as sent has a text. -/
theorem text_sending (h : m.sending.rc = 0) :
    m.sending.text = some (Item.ofJson m.obj).text := by
  obtain ⟨str, htext, -⟩ | ⟨hfail, -⟩ | ⟨hfail, -⟩ := m.sending.cases
  · obtain hprinted | hprinted := m.printed_eq
    · exact hprinted
    · cases hprinted.symm.trans htext
  all_goals
    rw [hfail] at h
    cases h

end Message

/-! ## Receiving -/

/-- The messages reported as sent. -/
def reported (sent : List Message) : List Message := sent.filter (·.sending.rc = 0)

/-- The lines of the stream are the texts of the messages reported as sent. -/
theorem received_eq {sent : List Message} (hwhole : ∀ m ∈ sent, ¬m.sending.Short) :
    Lines.received (Lines.stream (sent.map Message.sending)) =
      (reported sent).map fun m => (Item.ofJson m.obj).text := by
  have hshort : ∀ m ∈ sent.map Message.sending, ¬m.Short := by
    rwa [List.forall_mem_map]
  rw [Lines.received_stream hshort, Lines.delivered, List.filter_map, List.filterMap_map,
    ← List.filterMap_eq_map]
  refine List.filterMap_congr fun m hm => ?_
  exact Message.text_sending (of_decide_eq_true (List.mem_filter.1 hm).2)

/-- **Messages from end to end**: if no `write` is short, and there is memory at the other end,
    its calls of `recv_json_line` get what was reported as sent, one message after the other, and
    then nothing. Nothing is lost if the numbers are integers. -/
theorem received_message {sent : List Message} (hwhole : ∀ m ∈ sent, ¬m.sending.Short)
    {s : LineReader.Socket} (hs : s.flatten = Lines.stream (sent.map Message.sending))
    (earlier : List Allocator) (hearlier : LineReader.Enough s earlier) {a : Allocator}
    (ha : (LineReader.recvJsonLine a (LineReader.after s earlier)).result ≠ .noMemory)
    (hooks : Hooks) (hall : ∀ n size, hooks.grants n size = true) (heap : Heap) :
    match (reported sent)[earlier.length]? with
    | some m => ∃ buf str heap',
        (LineReader.recvJsonLine a (LineReader.after s earlier)).result = .parsed buf ∧
        buf.cString = some str ∧
        cJSONParse hooks str heap = .ok (some (Item.ofJson m.obj).reread, str.length, heap') ∧
        ((Item.ofJson m.obj).Whole → (Item.ofJson m.obj).reread = Item.ofJson m.obj)
    | none => (LineReader.recvJsonLine a (LineReader.after s earlier)).result = .ended := by
  have hlines := congrArg (·[earlier.length]?) (received_eq hwhole)
  rw [← hs, Lines.received] at hlines
  simp only [List.getElem?_map] at hlines
  have hexact := LineReader.hands_of_enough hearlier ha
  cases hline : (linesFrom [] s.flatten)[earlier.length]? with
  | none =>
    rw [hline] at hlines hexact
    rw [Option.map_eq_none_iff.1 hlines.symm]
    exact hexact.2.1
  | some line =>
    rw [hline] at hlines hexact
    obtain ⟨m, hm, htext⟩ := Option.map_eq_some_iff.1 hlines.symm
    obtain ⟨-, buf, hbuf, hholds⟩ := hexact
    obtain ⟨heap', hparse⟩ := parse_text hall m.wellFormed heap
    rw [htext] at hparse
    rw [hm]
    exact ⟨buf, _, heap', hbuf, hholds.cString, hparse, Item.Whole.reread_eq⟩

/-- A message of one field, which is sent whole. -/
def hello : Message where
  obj := .object [(cstr "type", .string (cstr "Hello"))]
  wellFormed := .object (by decide) (by
    intro f hf
    rw [List.mem_singleton.1 hf]
    exact .string (by decide))
  hooks := .all
  heap := ⟨0, 0⟩
  malloc _ := true
  write bs := some bs.length
  write_ok := by
    rintro bs n hbs ⟨⟩
    exact ⟨List.length_pos_of_ne_nil hbs, le_rfl⟩

/-- Its bytes may arrive one by one. -/
theorem received_message_hello :
    ∃ buf str heap',
      (LineReader.recvJsonLine .largest ((Lines.stream [hello.sending]).map ([·]))).result =
        .parsed buf ∧ buf.cString = some str ∧
      cJSONParse .all str ⟨0, 0⟩ =
        .ok (some (.object [(cstr "type", .string (cstr "Hello"))]), str.length, heap') := by
  have hitem : (Item.ofJson hello.obj).reread = .object [(cstr "type", .string (cstr "Hello"))] :=
    rfl
  have hlength : (Item.ofJson hello.obj).text.length = 16 := by decide
  have htext : hello.sending.text = some (Item.ofJson hello.obj).text :=
    hello.text_sending_eq.trans
      (hello.printed_of_grants (fun _ _ => rfl) (by rw [hlength]; decide))
  have hmalloc : ∀ size, hello.sending.env (.malloc size) = true := fun _ => rfl
  have hwrite : ∀ bs, hello.sending.env (.write bs) = some bs.length := fun _ => rfl
  -- the other facts do not depend on what the message is
  generalize hello = m at *
  obtain ⟨hrc, hwritten⟩ := Lines.Sending.write_accepts htext (hmalloc _) (hwrite _)
  rw [List.length_append, List.length_singleton, if_pos rfl] at hrc
  have hreported : reported [m] = [m] := by
    rw [reported, List.filter_singleton, hrc]
    rfl
  have hwhole : ∀ m' ∈ [m], ¬m'.sending.Short := by
    rintro m' hm' ⟨str, n, -, -, haccepts, hlt⟩
    rw [List.mem_singleton.1 hm', hwrite] at haccepts
    obtain rfl := Option.some.inj haccepts
    simp at hlt
  have hflatten : ((Lines.stream [m.sending]).map ([·])).flatten =
      Lines.stream ([m].map Message.sending) := by
    rw [← List.flatMap_def, List.flatMap_singleton', List.map_singleton]
  have hmem : (LineReader.recvJsonLine .largest
      (LineReader.after ((Lines.stream [m.sending]).map ([·])) [])).result ≠ .noMemory := by
    refine LineReader.recvJsonLine_largest ?_
    rw [LineReader.after, hflatten, List.map_singleton, Lines.stream, List.flatMap_singleton,
      hwritten, List.length_take, List.length_append, hlength]
    simp
  have h := received_message hwhole hflatten [] True.intro hmem .all (fun _ _ => rfl) ⟨0, 0⟩
  rw [hreported] at h
  obtain ⟨buf, str, heap', hbuf, hstr, hparse, -⟩ := h
  rw [hitem] at hparse
  exact ⟨buf, str, heap', hbuf, hstr, hparse⟩

end HybridPqc.Cjson
