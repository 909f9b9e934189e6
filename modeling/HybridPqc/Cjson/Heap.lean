import HybridPqc.Cjson.Item

/-!
# The memory of cJSON

What the library allocates comes from its hooks, any call of which may fail (`Hooks`). A heap
counts the calls, and the blocks that have not been released (`Heap`). A string in a block
ends before the first byte that is zero (`Block.cString`).
-/

/-! ## Strings in blocks -/

namespace Block

variable {b b' : Block UInt8} {l bs : List UInt8} {i : ℕ}

/-- Values stored one after the other. -/
def storeAll (b : Block UInt8) (i : ℕ) : List UInt8 → Option (Block UInt8)
  | [] => some b
  | c :: bs => do
    let b ← b.store i c
    storeAll b (i + 1) bs

/-- The string in a block, unless it does not end there. -/
def cString : Block UInt8 → Option (List UInt8)
  | some c :: b => if c = 0 then some [] else (cString b).map (c :: ·)
  | _ => none

theorem Holds.of_append (h : b.Holds (l ++ bs)) : b.Holds l := by
  rw [Holds, List.map_append] at h
  exact (List.prefix_append _ _).trans h

/-- Values are stored after those that are held. -/
theorem Holds.storeAll (h : b.Holds l) (bs : List UInt8)
    (hlen : l.length + bs.length ≤ b.length) :
    ∃ b', b.storeAll l.length bs = some b' ∧ b'.Holds (l ++ bs) ∧ b'.length = b.length := by
  induction bs generalizing b l with
  | nil => exact ⟨b, rfl, by rwa [List.append_nil], rfl⟩
  | cons c bs ih =>
    rw [List.length_cons] at hlen
    obtain ⟨b₁, hstore, hholds, hlength⟩ := h.store (by omega) c
    obtain ⟨b₂, hstore', hholds', hlength'⟩ := ih hholds (by simp; omega)
    refine ⟨b₂, ?_, by simpa using hholds', hlength'.trans hlength⟩
    rw [List.length_append, List.length_singleton] at hstore'
    simp [Block.storeAll, hstore, hstore']

theorem Holds.take {n : ℕ} (h : b.Holds l) (hn : l.length ≤ n) : Holds (b.take n) l :=
  List.prefix_take_iff.2 ⟨h, by rwa [List.length_map]⟩

theorem Holds.take_eq (h : b.Holds l) : b.take l.length = l.map some := by
  obtain ⟨rest, rfl⟩ := h
  exact List.take_left' (by simp)

/-- A block that is cut after what it holds. -/
theorem Holds.resize_eq (h : b.Holds l) : b.resize l.length = l.map some := by
  rw [Block.resize, h.take_eq, Nat.sub_eq_zero_of_le h.length_le]
  simp [uninit]

theorem Holds.drop (h : b.Holds (l ++ bs)) : Holds (b.drop l.length) bs := by
  obtain ⟨rest, rfl⟩ := h
  refine ⟨rest, ?_⟩
  rw [List.map_append, List.append_assoc, List.drop_left' (by simp)]

/-- The string is what is held before a zero. -/
theorem Holds.cString (h : b.Holds (l ++ [0])) : b.cString = some (l.takeWhile (· ≠ 0)) := by
  induction l generalizing b with
  | nil =>
    obtain ⟨rest, rfl⟩ := h
    rfl
  | cons c l ih =>
    obtain ⟨rest, rfl⟩ := h
    by_cases hc : c = 0
    · subst hc
      rfl
    · have hrest := ih (b := (l ++ [0]).map some ++ rest) ⟨rest, rfl⟩
      simp only [List.cons_append, List.map_cons, Block.cString, if_neg hc]
      rw [hrest]
      simp [hc]

theorem Holds.cString_eq (h : b.Holds (l ++ [0])) (hzero : 0 ∉ l) : b.cString = some l := by
  rw [h.cString, List.takeWhile_eq_self_iff.2]
  intro c hc
  simpa using ne_of_mem_of_not_mem hc hzero

end Block

namespace HybridPqc.Cjson

/-! ## Hooks -/

/-- The allocator: whether a call is successful, given how many there have been before it and the
    size, and whether `realloc` is used. -/
structure Hooks where
  grants : ℕ → ℕ → Bool
  reallocate : Bool

/-- Hooks that never fail. -/
def Hooks.all : Hooks := ⟨fun _ _ => true, true⟩

/-- The calls of the allocator, and the blocks in use. -/
structure Heap where
  calls : ℕ
  blocks : ℕ

/-- `hooks->allocate`. -/
def Hooks.allocate (hooks : Hooks) (size : ℕ) (heap : Heap) : Bool × Heap :=
  let granted := hooks.grants heap.calls size
  (granted, ⟨heap.calls + 1, heap.blocks + granted.toNat⟩)

/-- `hooks->deallocate`, for `n` blocks. -/
def Heap.deallocate (heap : Heap) (n : ℕ) : Heap := ⟨heap.calls, heap.blocks - n⟩

@[simp] theorem Heap.blocks_deallocate (heap : Heap) (n : ℕ) :
    (heap.deallocate n).blocks = heap.blocks - n := rfl

theorem Hooks.blocks_allocate {hooks : Hooks} {size : ℕ} {heap heap' : Heap} {granted : Bool}
    (h : hooks.allocate size heap = (granted, heap')) :
    heap'.blocks = heap.blocks + granted.toNat := by
  obtain ⟨rfl, rfl⟩ := Prod.mk.inj h
  rfl

/-- What goes wrong in a program: it accesses memory outside a block, or takes too long. -/
inductive Fault
  | overrun
  | outOfFuel
  deriving DecidableEq

namespace Item

mutual

/-- The blocks of an item besides its own. -/
def inner : Item → ℕ
  | string _ => 1
  | array items => blocksItems items
  | object fields => blocksFields fields
  | _ => 0

/-- What `cJSON_Delete` releases for the elements of an array. -/
def blocksItems : List Item → ℕ
  | [] => 0
  | v :: items => inner v + 1 + blocksItems items

/-- What it releases for the fields of an object, with their names. -/
def blocksFields : List (CString × Item) → ℕ
  | [] => 0
  | (_, v) :: fields => inner v + 2 + blocksFields fields

end

/-- What `cJSON_Delete` releases for an item. -/
def blocks (v : Item) : ℕ := v.inner + 1

theorem blocksItems_append (items : List Item) (v : Item) :
    blocksItems (items ++ [v]) = blocksItems items + (v.inner + 1) := by
  induction items with
  | nil => rw [List.nil_append, blocksItems, blocksItems, blocksItems, zero_add, add_zero]
  | cons w items ih =>
    rw [List.cons_append, blocksItems, ih, blocksItems]
    omega

theorem blocksFields_append (fields : List (CString × Item)) (name : CString) (v : Item) :
    blocksFields (fields ++ [(name, v)]) = blocksFields fields + (v.inner + 2) := by
  induction fields with
  | nil => rw [List.nil_append, blocksFields, blocksFields, blocksFields, zero_add, add_zero]
  | cons f fields ih =>
    rw [List.cons_append, blocksFields, ih, blocksFields]
    omega

end Item

end HybridPqc.Cjson
