import Mathlib.Data.List.Basic
import Mathlib.Algebra.Order.Ring.Nat

/-!
# Blocks of memory

A *block* is what an allocator returns: a number of places, each of which holds a value once
one is stored there. A store outside the block, and a load of a place that holds nothing,
have no result (`Block.store`, `Block.load`), so that a program with a result has stayed
inside its blocks.

An *allocator* never grants more than half of the address space (`Allocator.lt_of_grants`).
-/

/-- A number in a word of 64 bits. -/
def word (n : ℕ) : ℕ := n % 2 ^ 64

theorem word_of_lt {n : ℕ} (h : n < 2 ^ 64) : word n = n := Nat.mod_eq_of_lt h

/-- Which sizes, in bytes, are granted. -/
structure Allocator where
  grants : ℕ → Bool
  lt_of_grants : ∀ size, grants size → size < 2 ^ 63

/-- The allocator that grants what it can. -/
def Allocator.largest : Allocator := ⟨fun size => decide (size < 2 ^ 63), by simp⟩

/-- A block of memory with values in `α`. -/
abbrev Block (α : Type) := List (Option α)

namespace Block

variable {α : Type} {b : Block α} {l : List α} {a : α} {n i : ℕ}

/-- A block of which no place holds a value. -/
def uninit (n : ℕ) : Block α := List.replicate n none

/-- The block, with `a` in its place `i`. -/
def store (b : Block α) (i : ℕ) (a : α) : Option (Block α) :=
  if i < b.length then some (b.set i (some a)) else none

/-- The value in the place `i`. -/
def load (b : Block α) (i : ℕ) : Option α := b[i]?.join

/-- The block, moved to one of another size. -/
def resize (b : Block α) (n : ℕ) : Block α := b.take n ++ uninit (n - b.length)

/-- The first places hold the values `l`. -/
def Holds (b : Block α) (l : List α) : Prop := l.map some <+: b

@[simp] theorem length_uninit : (uninit n : Block α).length = n := List.length_replicate

theorem length_resize (h : b.length ≤ n) : (b.resize n).length = n := by
  rw [resize, List.take_of_length_le h, List.length_append, length_uninit]
  omega

theorem holds_nil : b.Holds [] := List.nil_prefix

theorem holds_map (l : List α) : Block.Holds (l.map some) l := List.prefix_refl _

theorem Holds.length_le (h : b.Holds l) : l.length ≤ b.length := by
  simpa using List.IsPrefix.length_le h

theorem Holds.resize (h : b.Holds l) (hn : b.length ≤ n) : (b.resize n).Holds l := by
  rw [Block.resize, List.take_of_length_le hn]
  exact h.trans (List.prefix_append ..)

/-- A value is stored after those that are held. -/
theorem Holds.store (h : b.Holds l) (hlt : l.length < b.length) (a : α) :
    ∃ b', b.store l.length a = some b' ∧ b'.Holds (l ++ [a]) ∧ b'.length = b.length := by
  obtain ⟨rest, rfl⟩ := h
  rw [List.length_append, List.length_map] at hlt
  obtain ⟨c, rest, rfl⟩ := List.exists_cons_of_length_pos (l := rest) (by omega)
  refine ⟨l.map some ++ some a :: rest, ?_, ⟨rest, by simp⟩, by simp⟩
  rw [Block.store, if_pos (by simp), List.set_append_right _ _ (by simp)]
  simp

/-- What is held may be loaded. -/
theorem Holds.load (h : b.Holds l) (hi : l[i]? = some a) : b.load i = some a := by
  obtain ⟨rest, rfl⟩ := h
  have hlt : i < l.length := (List.getElem?_eq_some_iff.1 hi).1
  rw [Block.load, List.getElem?_append_left (by simpa using hlt), List.getElem?_map, hi]
  rfl

end Block
