import Mathlib.Algebra.Order.Ring.Nat
import Mathlib.Data.Nat.Log

/-!
# Left-balanced trees

A tree over a list of leaves, in which the left half of a node is the largest perfect
tree that leaves at least one leaf to the right half. Its nodes are *outputs* in `O`,
which their parents know by *chaining values* in `C`: the output of a node is
`parent a b`, where `a` and `b` are the chaining values of its halves (`root`).

* `root_append`: what a node consists of, and `rec_append`, the induction along it;
* `cv_root`: the chaining values alone make a tree too (`fold`);
* `fold_parents`, `halves_parents`: joining neighbours, level by level, is another way
  to the top of the tree.
-/

namespace LeftTree

/-! ## Lengths -/

/-- Of two powers of two, the larger one is at least twice as large. -/
theorem two_mul_le {j k : ℕ} (h : 2 ^ j < 2 ^ k) : 2 * 2 ^ j ≤ 2 ^ k := by
  rw [← pow_succ']
  exact Nat.pow_le_pow_right (by decide) ((Nat.pow_lt_pow_iff_right (by decide)).1 h)

/-- The number of leaves in the left half of a tree. -/
def leftLen (n : ℕ) : ℕ := 2 ^ Nat.log2 (n - 1)

theorem leftLen_eq {n k : ℕ} (hk : 2 ^ k < n) (hn : n ≤ 2 ^ (k + 1)) : leftLen n = 2 ^ k := by
  have hpos : 0 < 2 ^ k := Nat.two_pow_pos k
  have hlog : Nat.log2 (n - 1) = k := (Nat.log2_eq_iff (by omega)).2 ⟨by omega, by omega⟩
  rw [leftLen, hlog]

theorem leftLen_add {k m : ℕ} (hm : 0 < m) (hle : m ≤ 2 ^ k) : leftLen (2 ^ k + m) = 2 ^ k :=
  leftLen_eq (by omega) (by rw [pow_succ]; omega)

theorem leftLen_pos (n : ℕ) : 0 < leftLen n := Nat.two_pow_pos _

theorem leftLen_lt {n : ℕ} (h : 2 ≤ n) : leftLen n < n := by
  have := Nat.log2_self_le (n := n - 1) (by omega)
  rw [leftLen]
  omega

/-- The right half is not larger than the left one. -/
theorem sub_leftLen_le {n : ℕ} (h : 2 ≤ n) : n - leftLen n ≤ leftLen n := by
  have := Nat.lt_log2_self (n := n - 1)
  rw [leftLen]
  rw [pow_succ] at this
  omega

/-! ## Trees -/

section Tree

variable {O C : Type*} [Inhabited O] (cv : O → C) (parent : C → C → O)

/-- The output at the root of the tree over some leaves. -/
def root : List O → O
  | [] => default
  | [o] => o
  | o :: p :: os =>
    parent (cv (root ((o :: p :: os).take (leftLen (os.length + 2)))))
      (cv (root ((o :: p :: os).drop (leftLen (os.length + 2)))))
termination_by os => os.length
decreasing_by
  · have := leftLen_lt (n := os.length + 2) (by omega)
    simp only [List.length_take, List.length_cons]
    omega
  · have := leftLen_pos (os.length + 2)
    simp only [List.length_drop, List.length_cons]
    omega

@[simp] theorem root_singleton (o : O) : root cv parent [o] = o := by rw [root]

variable {cv parent}

/-- The halves of a tree. -/
theorem root_split {os : List O} (h : 2 ≤ os.length) :
    root cv parent os = parent (cv (root cv parent (os.take (leftLen os.length))))
      (cv (root cv parent (os.drop (leftLen os.length)))) := by
  obtain _ | ⟨o, _ | ⟨p, os⟩⟩ := os
  · exact absurd h (by simp)
  · exact absurd h (by simp)
  · rw [root]
    rfl

/-- A perfect tree on the left of one that is not larger. -/
theorem root_append {as bs : List O} {k : ℕ} (ha : as.length = 2 ^ k) (hb : bs ≠ [])
    (hle : bs.length ≤ 2 ^ k) :
    root cv parent (as ++ bs) = parent (cv (root cv parent as)) (cv (root cv parent bs)) := by
  have hpos : 0 < 2 ^ k := Nat.two_pow_pos k
  have hbpos : 0 < bs.length := List.length_pos_iff.2 hb
  have hlen : (as ++ bs).length = 2 ^ k + bs.length := by rw [List.length_append, ha]
  rw [root_split (by omega), hlen, leftLen_add hbpos hle, ← ha, List.take_left, List.drop_left]

end Tree

/-- The induction along a tree: over a single leaf, and over a perfect tree on the left
    of one that is not larger. -/
theorem rec_append {A : Type*} {P : ∀ xs : List A, xs ≠ [] → Prop}
    (one : ∀ a, P [a] (List.cons_ne_nil a []))
    (append : ∀ k as bs (has : as ≠ []) (hbs : bs ≠ []), as.length = 2 ^ k → bs.length ≤ 2 ^ k →
      P as has → P bs hbs → P (as ++ bs) (List.append_ne_nil_of_left_ne_nil has bs))
    (xs : List A) (h : xs ≠ []) : P xs h := by
  induction hn : xs.length using Nat.strong_induction_on generalizing xs with
  | _ n ih =>
    subst hn
    obtain _ | ⟨x, _ | ⟨y, zs⟩⟩ := xs
    · exact absurd rfl h
    · exact one x
    · have h2 : 2 ≤ (x :: y :: zs).length := by simp
      generalize x :: y :: zs = xs at h h2 ih
      have hlt := leftLen_lt h2
      have hpos := leftLen_pos xs.length
      have hle := sub_leftLen_le h2
      have htake : (xs.take (leftLen xs.length)).length = leftLen xs.length := by
        rw [List.length_take]
        omega
      have hdrop : (xs.drop (leftLen xs.length)).length = xs.length - leftLen xs.length :=
        List.length_drop
      have has : xs.take (leftLen xs.length) ≠ [] := List.length_pos_iff.1 (by omega)
      have hbs : xs.drop (leftLen xs.length) ≠ [] := List.length_pos_iff.1 (by omega)
      have := append _ _ _ has hbs htake (hdrop.trans_le hle) (ih _ (by omega) _ has rfl)
        (ih _ (by omega) _ hbs rfl)
      simpa only [List.take_append_drop] using this

/-! ## Chaining values -/

section Fold

variable {C : Type*} [Inhabited C]

/-- The chaining value of the tree over leaves that are known by theirs. -/
def fold (node : C → C → C) : List C → C := root id node

variable {node : C → C → C}

@[simp] theorem fold_singleton (c : C) : fold node [c] = c := root_singleton id node c

theorem fold_append {as bs : List C} {k : ℕ} (ha : as.length = 2 ^ k) (hb : bs ≠ [])
    (hle : bs.length ≤ 2 ^ k) : fold node (as ++ bs) = node (fold node as) (fold node bs) :=
  root_append ha hb hle

theorem fold_pair (a b : C) : fold node [a, b] = node a b := by
  rw [← List.singleton_append, fold_append (k := 0) rfl (by simp) (by simp), fold_singleton,
    fold_singleton]

variable {O : Type*} [Inhabited O] {cv : O → C} {parent : C → C → O}

/-- A parent sees no more of a tree than the chaining values of its leaves. -/
theorem cv_root {os : List O} (h : os ≠ []) :
    cv (root cv parent os) = fold (fun a b => cv (parent a b)) (os.map cv) := by
  induction os, h using rec_append with
  | one o => rw [root_singleton, List.map_singleton, fold_singleton]
  | append k as bs _ hb ha hle iha ihb =>
    rw [root_append ha hb hle, List.map_append, fold_append (by rw [List.length_map, ha])
      (by simpa using hb) (by rwa [List.length_map]), iha, ihb]

/-- The chaining values of the two halves of a tree. -/
def halves (node : C → C → C) (cs : List C) : C × C :=
  (fold node (cs.take (leftLen cs.length)), fold node (cs.drop (leftLen cs.length)))

theorem halves_append {as bs : List C} {k : ℕ} (ha : as.length = 2 ^ k) (hb : bs ≠ [])
    (hle : bs.length ≤ 2 ^ k) : halves node (as ++ bs) = (fold node as, fold node bs) := by
  have hbpos : 0 < bs.length := List.length_pos_iff.2 hb
  rw [halves, List.length_append, ha, leftLen_add hbpos hle, ← ha, List.take_left, List.drop_left]

theorem halves_pair (a b : C) : halves node [a, b] = (a, b) := by
  rw [← List.singleton_append, halves_append (k := 0) rfl (by simp) (by simp), fold_singleton,
    fold_singleton]

theorem root_eq_halves {os : List O} (h : 2 ≤ os.length) :
    root cv parent os = parent (halves (fun a b => cv (parent a b)) (os.map cv)).1
      (halves (fun a b => cv (parent a b)) (os.map cv)).2 := by
  have hlt := leftLen_lt h
  have hpos := leftLen_pos os.length
  have has : cv (root cv parent (os.take (leftLen os.length))) = _ :=
    cv_root (List.length_pos_iff.1 (by rw [List.length_take]; omega))
  have hbs : cv (root cv parent (os.drop (leftLen os.length))) = _ :=
    cv_root (List.length_pos_iff.1 (by rw [List.length_drop]; omega))
  rw [root_split h, has, hbs, List.map_take, List.map_drop, halves, List.length_map]

end Fold

/-! ## Level by level -/

section Parents

variable {C : Type*} (node : C → C → C)

/-- The level above: neighbours are joined, an odd one is passed on. -/
def parents : List C → List C
  | a :: b :: cs => node a b :: parents cs
  | cs => cs

@[simp] theorem parents_nil : parents node [] = [] := rfl

@[simp] theorem parents_singleton (c : C) : parents node [c] = [c] := rfl

variable {node}

theorem length_parents (cs : List C) : (parents node cs).length = (cs.length + 1) / 2 := by
  induction cs using parents.induct with
  | case1 a b cs ih =>
    rw [parents, List.length_cons, ih, List.length_cons, List.length_cons]
    omega
  | case2 cs h =>
    obtain _ | ⟨a, _ | ⟨b, cs⟩⟩ := cs
    · simp
    · simp
    · exact absurd rfl (h a b cs)

theorem parents_ne_nil {cs : List C} (h : cs ≠ []) : parents node cs ≠ [] := by
  have := List.length_pos_iff.2 h
  exact List.length_pos_iff.1 (by rw [length_parents]; omega)

/-- An even number of leaves on the left is joined without those on the right. -/
theorem parents_append {as : List C} (bs : List C) (h : as.length % 2 = 0) :
    parents node (as ++ bs) = parents node as ++ parents node bs := by
  induction as using parents.induct with
  | case1 a b cs ih =>
    rw [List.length_cons, List.length_cons] at h
    rw [List.cons_append, List.cons_append, parents, ih (by omega), parents, List.cons_append]
  | case2 cs hcs =>
    obtain _ | ⟨a, _ | ⟨b, cs⟩⟩ := cs
    · rfl
    · exact absurd h (by simp)
    · exact absurd rfl (hcs a b cs)

variable [Inhabited C]

/-- A level has the root of the one below. -/
theorem fold_parents {cs : List C} (h : cs ≠ []) :
    fold node (parents node cs) = fold node cs := by
  induction cs, h using rec_append with
  | one c => rfl
  | append k as bs _ hb ha hle iha ihb =>
    cases k with
    | zero =>
      -- two leaves, whose parent is the root
      obtain ⟨a, rfl⟩ := List.length_eq_one_iff.1 ha
      obtain ⟨b, rfl⟩ := List.length_eq_one_iff.1
        (Nat.le_antisymm hle (List.length_pos_iff.2 hb))
      rw [List.singleton_append, fold_pair]
      exact fold_singleton _
    | succ k =>
      rw [pow_succ] at ha hle
      rw [parents_append _ (by omega), fold_append (k := k) (by rw [length_parents]; omega)
        (parents_ne_nil hb) (by rw [length_parents]; omega), iha, ihb,
        fold_append (k := k + 1) (by rw [pow_succ]; exact ha) hb (by rw [pow_succ]; exact hle)]

/-- The two halves are those of the level below, unless the level is the root. -/
theorem halves_parents {cs : List C} (h : 2 < cs.length) :
    halves node (parents node cs) = halves node cs := by
  have hne : cs ≠ [] := List.length_pos_iff.1 (by omega)
  induction cs, hne using rec_append with
  | one c => exact absurd h (by simp)
  | append k as bs has hb ha hle _ _ =>
    have hbpos : 0 < bs.length := List.length_pos_iff.2 hb
    cases k with
    | zero =>
      rw [List.length_append] at h
      omega
    | succ k =>
      rw [halves_append ha hb hle]
      rw [pow_succ] at ha hle
      rw [parents_append _ (by omega), halves_append (k := k) (by rw [length_parents]; omega)
        (parents_ne_nil hb) (by rw [length_parents]; omega), fold_parents has, fold_parents hb]

end Parents

end LeftTree
