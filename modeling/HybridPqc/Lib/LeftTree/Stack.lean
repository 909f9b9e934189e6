import HybridPqc.Lib.LeftTree
import Mathlib.Data.Nat.BitIndices
import Mathlib.Data.List.Perm.Subperm

/-!
# Trees on a stack

A left-balanced tree whose leaves come one after the other, the last one not being
known: the leaves so far make up perfect trees, the newest of which, on top of a
stack, is the smallest one. They are *merged* if their sizes are all different. The
root of the whole tree must not be taken for an inner node, so trees are merged before
the next one is added, not after it: the stack is *lazy*, i.e., merged but for its top.

* `Lazy.merge`, `Lazy.bits_le`, `Lazy.merged`: as long as there are more trees than
  binary digits `1` in the number of leaves, the two on top can be joined;
* `Merged.le_of_dvd`: what is a divisor of the number of leaves fits on top;
* `Lazy.length_le`: how high the stack can get;
* `Lazy.rollup`: joining the trees from the top gives the root over all leaves.
-/

namespace LeftTree

variable {A : Type*}

/-- The leaves of the trees on a stack. -/
def leaves : List (List A) → List A
  | [] => []
  | t :: ts => leaves ts ++ t

@[simp] theorem leaves_nil : leaves ([] : List (List A)) = [] := rfl

@[simp] theorem leaves_cons (t : List A) (ts : List (List A)) :
    leaves (t :: ts) = leaves ts ++ t := rfl

/-- Perfect trees, each of them smaller than those below. -/
inductive Merged : List (List A) → Prop
  | nil : Merged []
  | cons {t ts k} : t.length = 2 ^ k → (∀ u ∈ ts, t.length < u.length) → Merged ts →
      Merged (t :: ts)

/-- Trees that are merged, but for the one on top, which can be as large as the next. -/
inductive Lazy : List (List A) → Prop
  | nil : Lazy []
  | cons {t ts k} : t.length = 2 ^ k → (∀ u ∈ ts, t.length ≤ u.length) → Merged ts →
      Lazy (t :: ts)

/-! ## Sizes -/

theorem Merged.perfect {ts : List (List A)} (h : Merged ts) :
    ∀ t ∈ ts, ∃ k, t.length = 2 ^ k := by
  induction h with
  | nil => simp
  | cons ht _ _ ih =>
    intro u hu
    rcases List.mem_cons.1 hu with rfl | hu
    · exact ⟨_, ht⟩
    · exact ih u hu

theorem Merged.lazy {ts : List (List A)} (h : Merged ts) : Lazy ts := by
  cases h with
  | nil => exact .nil
  | cons ht hlt hts => exact .cons ht (fun u hu => (hlt u hu).le) hts

/-- A tree that is smaller than those that are merged can be put on top of them. -/
theorem Merged.twice_le {ts : List (List A)} (h : Merged ts) {k : ℕ}
    (hlt : ∀ u ∈ ts, 2 ^ k < u.length) : ∀ u ∈ ts, 2 ^ (k + 1) ≤ u.length := by
  intro u hu
  obtain ⟨j, hj⟩ := h.perfect u hu
  have := hlt u hu
  rw [hj] at this ⊢
  rw [pow_succ']
  exact two_mul_le this

/-- The sizes of trees that are merged are the binary digits of the number of leaves. -/
theorem Merged.exponents {ts : List (List A)} (h : Merged ts) :
    ∃ ks : List ℕ, ks.SortedLT ∧ ts.map List.length = ks.map (2 ^ ·) ∧
      (leaves ts).length = (ks.map (2 ^ ·)).sum := by
  induction h with
  | nil => exact ⟨[], List.Pairwise.nil.sortedLT, rfl, rfl⟩
  | @cons t ts k ht hlt _ ih =>
    obtain ⟨ks, hks, hmap, hsum⟩ := ih
    refine ⟨k :: ks, (List.pairwise_cons.2 ⟨fun j hj => ?_, hks.pairwise⟩).sortedLT, ?_, ?_⟩
    · -- an exponent of a tree below
      have hmem : 2 ^ j ∈ ts.map List.length := by
        rw [hmap]
        exact List.mem_map.2 ⟨j, hj, rfl⟩
      obtain ⟨u, hu, huj⟩ := List.mem_map.1 hmem
      have := hlt u hu
      rw [ht, huj] at this
      exact (Nat.pow_lt_pow_iff_right (by decide)).1 this
    · rw [List.map_cons, List.map_cons, ht, hmap]
    · rw [leaves_cons, List.length_append, hsum, ht, List.map_cons, List.sum_cons, add_comm]

/-- There are as many trees as binary digits `1` in the number of leaves. -/
theorem Merged.bits {ts : List (List A)} (h : Merged ts) :
    (leaves ts).length.bitIndices.length = ts.length := by
  obtain ⟨ks, hks, hmap, hsum⟩ := h.exponents
  have hlen := congrArg List.length hmap
  rw [List.length_map, List.length_map] at hlen
  rw [hsum, Nat.bitIndices_sum_map_two_pow hks, hlen]

theorem bits_le {n m : ℕ} (h : n < 2 ^ m) : n.bitIndices.length ≤ m := by
  have hsub : n.bitIndices ⊆ List.range m := by
    intro i hi
    have := Nat.two_pow_le_of_mem_bitIndices hi
    exact List.mem_range.2 ((Nat.pow_lt_pow_iff_right (by decide)).1 (this.trans_lt h))
  simpa using (Nat.bitIndices_nodup.subperm hsub).length_le

theorem Merged.length_le {ts : List (List A)} (h : Merged ts) {m : ℕ}
    (hm : (leaves ts).length < 2 ^ m) : ts.length ≤ m := by
  rw [← h.bits]
  exact bits_le hm

/-- A stack that is not merged has at most one tree more. -/
theorem Lazy.length_le {ts : List (List A)} (h : Lazy ts) {m : ℕ}
    (hm : (leaves ts).length < 2 ^ m) : ts.length ≤ m + 1 := by
  cases h with
  | nil => exact Nat.zero_le _
  | cons _ _ hts =>
    rw [leaves_cons, List.length_append] at hm
    have := hts.length_le (m := m) (by omega)
    rw [List.length_cons]
    omega

/-- A power of two that divides the number of leaves is not larger than the tree on top. -/
theorem Merged.le_of_dvd {ts : List (List A)} (h : Merged ts) {j : ℕ}
    (hj : 2 ^ j ∣ (leaves ts).length) : ∀ u ∈ ts, 2 ^ j ≤ u.length := by
  cases h with
  | nil => simp
  | @cons t ts k ht hlt hts =>
    have hge := hts.twice_le (ht ▸ hlt)
    have hrest : 2 ^ (k + 1) ∣ (leaves ts).length := by
      clear hj hlt
      induction hts with
      | nil => exact dvd_zero _
      | @cons u us i hu _ _ ih =>
        have hle := hge u List.mem_cons_self
        rw [hu] at hle
        rw [leaves_cons, List.length_append, hu]
        exact Nat.dvd_add (ih fun v hv => hge v (List.mem_cons_of_mem _ hv))
          (Nat.pow_dvd_pow 2 ((Nat.pow_le_pow_iff_right (by decide)).1 hle))
    have hjk : j ≤ k := by
      by_contra hkj
      rw [leaves_cons, List.length_append, ht] at hj
      have hk : 2 ^ (k + 1) ∣ 2 ^ k :=
        (Nat.dvd_add_right hrest).1 ((Nat.pow_dvd_pow 2 (by omega)).trans hj)
      have := (Nat.pow_dvd_pow_iff_le_right (by decide)).1 hk
      omega
    have hle : 2 ^ j ≤ 2 ^ k := Nat.pow_le_pow_right (by decide) hjk
    intro u hu
    rcases List.mem_cons.1 hu with rfl | hu
    · rwa [ht]
    · exact hle.trans (ht ▸ (hlt u hu).le)

/-! ## Merging -/

/-- Unless it is merged, a stack has two trees of the same size on top. -/
theorem Lazy.merged_or {ts : List (List A)} (h : Lazy ts) :
    Merged ts ∨ ∃ t u us, ts = t :: u :: us ∧ t.length = u.length := by
  cases h with
  | nil => exact .inl .nil
  | @cons t ts k ht hle hts =>
    cases hts with
    | nil => exact .inl (.cons ht (by simp) .nil)
    | @cons u us j hu hlt hus =>
      rcases (hle u List.mem_cons_self).eq_or_lt with heq | hne
      · exact .inr ⟨t, u, us, rfl, heq⟩
      · refine .inl (.cons ht (fun v hv => ?_) (.cons hu hlt hus))
        rcases List.mem_cons.1 hv with rfl | hv
        · exact hne
        · exact hne.trans (hlt v hv)

/-- Two trees of the same size on top can be joined. -/
theorem Lazy.merge {t u : List A} {us : List (List A)} (h : Lazy (t :: u :: us))
    (heq : t.length = u.length) : Lazy ((u ++ t) :: us) := by
  cases h with
  | @cons _ _ k ht _ hts =>
    cases hts with
    | cons hu hlt hus =>
      have hlen : (u ++ t).length = 2 ^ (k + 1) := by
        rw [List.length_append, ← heq, ht, pow_succ']
        omega
      refine .cons hlen (fun v hv => ?_) hus
      rw [hlen]
      exact hus.twice_le (by rwa [← heq, ht] at hlt) v hv

/-- There are never fewer trees than binary digits `1` in the number of leaves, and as
    many only once they are merged. -/
theorem Lazy.bits {ts : List (List A)} (h : Lazy ts) :
    (leaves ts).length.bitIndices.length ≤ ts.length ∧
      ((leaves ts).length.bitIndices.length = ts.length → Merged ts) := by
  induction hn : ts.length generalizing ts with
  | zero =>
    obtain rfl := List.length_eq_zero_iff.1 hn
    exact ⟨by simp, fun _ => .nil⟩
  | succ n ih =>
    rcases h.merged_or with hm | ⟨t, u, us, rfl, heq⟩
    · exact ⟨(hm.bits.trans hn).le, fun _ => hm⟩
    · -- joining the two on top leaves the number of leaves
      have hlt := (ih (h.merge heq) (by simpa using hn)).1
      rw [leaves_cons, ← List.append_assoc] at hlt
      rw [leaves_cons, leaves_cons]
      exact ⟨by omega, fun he => by omega⟩

theorem Lazy.merged {ts : List (List A)} (h : Lazy ts)
    (hle : ts.length ≤ (leaves ts).length.bitIndices.length) : Merged ts :=
  h.bits.2 (Nat.le_antisymm h.bits.1 hle)

/-! ## The root -/

section Root

variable {O C : Type*} [Inhabited O] {cv : O → C} {parent : C → C → O}

/-- The chaining values of the trees on a stack. -/
def stack (cv : O → C) (parent : C → C → O) (ts : List (List O)) : List C :=
  ts.map fun t => cv (root cv parent t)

/-- Joining the trees, from the top, to a last one gives the root over all leaves. -/
theorem Merged.rollup {ts : List (List O)} (h : Merged ts) {bs : List O} (hb : bs ≠ [])
    (hle : ∀ u ∈ ts, bs.length ≤ u.length) :
    (stack cv parent ts).foldl (fun o c => parent c (cv o)) (root cv parent bs) =
      root cv parent (leaves ts ++ bs) := by
  induction h generalizing bs with
  | nil => rfl
  | @cons t ts k ht hlt hts ih =>
    have hbt := hle t List.mem_cons_self
    rw [ht] at hbt
    have hnext : ∀ u ∈ ts, (t ++ bs).length ≤ u.length := by
      intro u hu
      have := hts.twice_le (ht ▸ hlt) u hu
      rw [pow_succ'] at this
      rw [List.length_append, ht]
      omega
    have := ih (List.append_ne_nil_of_right_ne_nil t hb) hnext
    rw [root_append ht hb hbt] at this
    rw [leaves_cons, List.append_assoc, ← this]
    rfl

theorem Lazy.rollup {t : List O} {ts : List (List O)} (h : Lazy (t :: ts)) :
    (stack cv parent ts).foldl (fun o c => parent c (cv o)) (root cv parent t) =
      root cv parent (leaves (t :: ts)) := by
  cases h with
  | cons ht hle hts =>
    exact hts.rollup (List.length_pos_iff.1 (by rw [ht]; exact Nat.two_pow_pos _)) hle

/-- The chaining value of two trees of the same size. -/
theorem cv_root_twins {t u : List O} {k : ℕ} (hu : u.length = 2 ^ k) (heq : t.length = u.length) :
    cv (parent (cv (root cv parent u)) (cv (root cv parent t))) =
      cv (root cv parent (u ++ t)) := by
  have hpos : 0 < t.length := by
    rw [heq, hu]
    exact Nat.two_pow_pos k
  rw [root_append hu (List.length_pos_iff.1 hpos) (by rw [heq, hu])]

end Root

end LeftTree
