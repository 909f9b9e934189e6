import Mathlib.Data.List.Infix

/-!
# Prefix-free labels

Labels of different lengths, with bytes after them, are told apart if no label is the
beginning of another one (`PrefixFree.append_inj`).
-/

variable {α B : Type}

/-- No label of an element of `l` is the beginning of the label of another one. -/
def PrefixFree (label : α → List B) (l : List α) : Prop :=
  ∀ a ∈ l, ∀ b ∈ l, label a <+: label b → a = b

namespace PrefixFree

variable {label : α → List B} {l : List α} {a b : α} {x y : List B}

/-- A label is known from any bytes that begin with it, and so is what comes after. -/
theorem append_inj (h : PrefixFree label l) (ha : a ∈ l) (hb : b ∈ l)
    (heq : label a ++ x = label b ++ y) : a = b ∧ x = y := by
  have hab : a = b := by
    have hpre : label a <+: label a ++ x := List.prefix_append ..
    have hpre' : label b <+: label a ++ x := heq ▸ List.prefix_append ..
    rcases List.prefix_or_prefix_of_prefix hpre hpre' with hle | hle
    · exact h a ha b hb hle
    · exact (h b hb a ha hle).symm
  subst hab
  exact ⟨rfl, List.append_cancel_left heq⟩

end PrefixFree
