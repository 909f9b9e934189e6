import Mathlib.Data.List.Basic

/-!
# Base64

Bytes as a text in the standard alphabet: four characters for three bytes, the last
ones being padded (`Base64.encode`). A text is decoded if it consists of such groups;
the bits that padding leaves over are not looked at (`Base64.decode`).

* `isChar_of_decode`, `decode_ne_nil`, `length_of_decode`: what the texts that are decoded look
  like;
* `decode_take`: they are decoded group by group;
* `decode_encode`: what is encoded can be decoded.
-/

namespace Base64

/-- The character for a value below `64`. -/
def digit (v : ℕ) : UInt8 :=
  if v < 26 then UInt8.ofNat (65 + v)
  else if v < 52 then UInt8.ofNat (71 + v)
  else if v < 62 then UInt8.ofNat (v - 4)
  else if v = 62 then 43 else 47

/-- The value of a character of the alphabet. -/
def value (c : UInt8) : Option ℕ :=
  if 65 ≤ c ∧ c ≤ 90 then some (c.toNat - 65)
  else if 97 ≤ c ∧ c ≤ 122 then some (c.toNat - 71)
  else if 48 ≤ c ∧ c ≤ 57 then some (c.toNat + 4)
  else if c = 43 then some 62
  else if c = 47 then some 63
  else none

/-- The character of padding. -/
def pad : UInt8 := 61

theorem value_digit : ∀ v < 64, value (digit v) = some v := by decide

theorem digit_ne_pad : ∀ v < 64, digit v ≠ pad := by decide

/-- The text for some bytes. -/
def encode : List UInt8 → List UInt8
  | [] => []
  | [a] => [digit (a.toNat / 4), digit (a.toNat % 4 * 16), pad, pad]
  | [a, b] =>
    [digit (a.toNat / 4), digit (a.toNat % 4 * 16 + b.toNat / 16), digit (b.toNat % 16 * 4), pad]
  | a :: b :: c :: bs =>
    digit (a.toNat / 4) :: digit (a.toNat % 4 * 16 + b.toNat / 16) ::
      digit (b.toNat % 16 * 4 + c.toNat / 64) :: digit (c.toNat % 64) :: encode bs

/-- The bytes that two characters begin with, -/
def firstByte (a b : ℕ) : UInt8 := UInt8.ofNat (a * 4 + b / 16)

/-- those in the middle, -/
def secondByte (b c : ℕ) : UInt8 := UInt8.ofNat (b % 16 * 16 + c / 4)

/-- and those that they end with. -/
def thirdByte (c d : ℕ) : UInt8 := UInt8.ofNat (c % 4 * 64 + d)

/-- The bytes of a text, if it is a Base64 one. -/
def decode : List UInt8 → Option (List UInt8)
  | [] => some []
  | a :: b :: c :: d :: s =>
    if d = pad then
      if s = [] then do
        let a ← value a
        let b ← value b
        if c = pad then
          return [firstByte a b]
        let c ← value c
        return [firstByte a b, secondByte b c]
      else none
    else do
      let a ← value a
      let b ← value b
      let c ← value c
      let d ← value d
      let bs ← decode s
      return firstByte a b :: secondByte b c :: thirdByte c d :: bs
  | _ => none

/-! ## Texts that are decoded -/

/-- A character is of the alphabet, or padding. -/
def IsChar (c : UInt8) : Prop := c = pad ∨ (value c).isSome

theorem IsChar.ne_zero {c : UInt8} (h : IsChar c) : c ≠ 0 := by
  rintro rfl
  obtain h | h := h
  · exact absurd h (by decide)
  · exact absurd h (by decide)

theorem isChar_of_value {c : UInt8} {v : ℕ} (h : value c = some v) : IsChar c := .inr (by simp [h])

theorem isChar_of_decode {s bs : List UInt8} (h : decode s = some bs) : ∀ c ∈ s, IsChar c := by
  induction s using decode.induct generalizing bs with
  | case1 => nofun
  | case2 a b c =>
    rw [decode, if_pos rfl, if_pos rfl] at h
    simp only [Option.bind_eq_bind, Option.bind_eq_some_iff] at h
    obtain ⟨a', ha, b', hb, h⟩ := h
    have hc : IsChar c := by
      split_ifs at h with hpad
      · exact .inl hpad
      · obtain ⟨c', hc, -⟩ := Option.bind_eq_some_iff.1 h
        exact isChar_of_value hc
    simpa using ⟨isChar_of_value ha, isChar_of_value hb, hc, .inl rfl⟩
  | case3 a b c s hs =>
    rw [decode, if_pos rfl, if_neg hs] at h
    cases h
  | case4 a b c d s hd ih =>
    rw [decode, if_neg hd] at h
    simp only [Option.bind_eq_bind, Option.bind_eq_some_iff] at h
    obtain ⟨a', ha, b', hb, c', hc, d', hd, bs', hbs, -⟩ := h
    simpa using ⟨isChar_of_value ha, isChar_of_value hb, isChar_of_value hc, isChar_of_value hd,
      ih hbs⟩
  | case5 s hnil hcons =>
    rw [decode.eq_def] at h
    split at h
    · exact absurd rfl hnil
    · exact absurd rfl (hcons _ _ _ _ _)
    · cases h

/-- Only the empty text has no bytes. -/
theorem decode_ne_nil {s bs : List UInt8} (h : decode s = some bs) (hs : s ≠ []) : bs ≠ [] := by
  rw [decode.eq_def] at h
  split at h
  · exact absurd rfl hs
  · split_ifs at h
    all_goals simp only [Option.bind_eq_bind, Option.bind_eq_some_iff] at h
    · obtain ⟨a', -, b', -, h⟩ := h
      cases h
      nofun
    · obtain ⟨a', -, b', -, c', -, h⟩ := h
      cases h
      nofun
    · obtain ⟨a', -, b', -, c', -, d', -, bs', -, h⟩ := h
      cases h
      nofun
  · cases h

/-- A text has four characters for three bytes, of which padding takes at most two. -/
theorem length_of_decode {s bs : List UInt8} (h : decode s = some bs) :
    s.length % 4 = 0 ∧ 4 * bs.length ≤ 3 * s.length ∧ 3 * s.length ≤ 4 * bs.length + 8 := by
  induction s using decode.induct generalizing bs with
  | case1 =>
    obtain rfl : [] = bs := Option.some.inj h
    simp
  | case2 a b c =>
    rw [decode, if_pos rfl, if_pos rfl] at h
    simp only [Option.bind_eq_bind, Option.bind_eq_some_iff] at h
    obtain ⟨a', -, b', -, h⟩ := h
    split_ifs at h
    · cases h
      simp
    · obtain ⟨c', -, h⟩ := Option.bind_eq_some_iff.1 h
      cases h
      simp
  | case3 a b c s hs =>
    rw [decode, if_pos rfl, if_neg hs] at h
    cases h
  | case4 a b c d s hd ih =>
    rw [decode, if_neg hd] at h
    simp only [Option.bind_eq_bind, Option.bind_eq_some_iff] at h
    obtain ⟨a', -, b', -, c', -, d', -, bs', hbs, h⟩ := h
    cases h
    have hlen := ih hbs
    simp only [List.length_cons]
    omega
  | case5 s hnil hcons =>
    rw [decode.eq_def] at h
    split at h
    · exact absurd rfl hnil
    · exact absurd rfl (hcons _ _ _ _ _)
    · cases h

/-- The first groups of a text are decoded to the first bytes. -/
theorem decode_take {s bs : List UInt8} (h : decode s = some bs) (n : ℕ) :
    decode (s.take (4 * n)) = some (bs.take (3 * n)) := by
  by_cases hall : s.length ≤ 4 * n
  · have hlen := length_of_decode h
    rw [List.take_of_length_le hall, List.take_of_length_le (by omega), h]
  -- there is a group after the first `n`, so that none of these is padded
  induction n generalizing s bs with
  | zero => rfl
  | succ n ih =>
    match s with
    | a :: b :: c :: d :: s =>
      have hrest : ¬s.length ≤ 4 * n := by
        simp only [List.length_cons] at hall
        omega
      have hd : d ≠ pad := by
        rintro rfl
        rw [decode, if_pos rfl, if_neg] at h
        · cases h
        · rintro rfl
          exact hrest (Nat.zero_le _)
      rw [decode, if_neg hd] at h
      simp only [Option.bind_eq_bind, Option.bind_eq_some_iff] at h
      obtain ⟨a', ha, b', hb, c', hc, d', hd', bs', hbs, h⟩ := h
      cases h
      rw [Nat.mul_succ, Nat.mul_succ]
      simp only [List.take_succ_cons]
      rw [decode, if_neg hd, ha, hb, hc, hd', ih hbs hrest]
      rfl
    | [] => simp at hall
    | [_] | [_, _] | [_, _, _] => cases h

/-! ## Round trip -/

section RoundTrip

variable (a b c : UInt8)

theorem firstByte_eq {n : ℕ} (hn : n < 16) : firstByte (a.toNat / 4) (a.toNat % 4 * 16 + n) = a := by
  rw [firstByte, show a.toNat / 4 * 4 + (a.toNat % 4 * 16 + n) / 16 = a.toNat by omega,
    UInt8.ofNat_toNat]

theorem secondByte_eq {m n : ℕ} (hn : n < 4) :
    secondByte (m * 16 + b.toNat / 16) (b.toNat % 16 * 4 + n) = b := by
  have hb := b.toNat_lt
  rw [secondByte,
    show (m * 16 + b.toNat / 16) % 16 * 16 + (b.toNat % 16 * 4 + n) / 4 = b.toNat by omega,
    UInt8.ofNat_toNat]

theorem thirdByte_eq {m : ℕ} : thirdByte (m * 4 + c.toNat / 64) (c.toNat % 64) = c := by
  have hc := c.toNat_lt
  rw [thirdByte, show (m * 4 + c.toNat / 64) % 4 * 64 + c.toNat % 64 = c.toNat by omega,
    UInt8.ofNat_toNat]

end RoundTrip

/-- What is encoded can be decoded. -/
theorem decode_encode (bs : List UInt8) : decode (encode bs) = some bs := by
  induction bs using encode.induct with
  | case1 => rfl
  | case2 a =>
    have ha := a.toNat_lt
    rw [encode, decode, if_pos rfl, if_pos rfl, value_digit _ (by omega), value_digit _ (by omega)]
    simpa using @firstByte_eq a 0 (by decide)
  | case3 a b =>
    have ha := a.toNat_lt
    have hb := b.toNat_lt
    have hne : digit (b.toNat % 16 * 4) ≠ pad := digit_ne_pad _ (by omega)
    have hfirst := @firstByte_eq a (b.toNat / 16) (by omega)
    have hsecond := @secondByte_eq b (a.toNat % 4) 0 (by decide)
    rw [Nat.add_zero] at hsecond
    rw [encode, decode, if_pos rfl, if_pos rfl, value_digit _ (by omega), value_digit _ (by omega)]
    simp only [Option.bind_eq_bind, Option.bind_some, if_neg hne, value_digit _ (show
      b.toNat % 16 * 4 < 64 by omega)]
    rw [hfirst, hsecond]
    rfl
  | case4 a b c bs ih =>
    have ha := a.toNat_lt
    have hb := b.toNat_lt
    have hc := c.toNat_lt
    have hne : digit (c.toNat % 64) ≠ pad := digit_ne_pad _ (by omega)
    rw [encode, decode, if_neg hne, value_digit _ (by omega), value_digit _ (by omega),
      value_digit _ (by omega), value_digit _ (by omega), ih]
    change some (_ :: _ :: _ :: bs) = _
    rw [firstByte_eq a (by omega), secondByte_eq b (by omega), thirdByte_eq]

end Base64
