import HybridPqc.FixedSize
import HybridPqc.Python.Server
import Mathlib.Data.Rat.Floor
import Mathlib.Tactic.IntervalCases

/-!
# Two servers reading a `ProfileSelect`

`c/server.c` is meant to be the equivalent of `server.py`. They read a
`ProfileSelect` in different ways: in C, a number is truncated to an `int`, a string
ends at its first null byte, and a salt is cut off at the size of its buffer; in
Python, `True` is a number, and numbers are compared as they are.

They read it alike exactly if none of this shows (`profile_select_alike_iff`).
-/

namespace HybridPqc

open Baseline (kdfUsed)

/-! ## The message -/

/-- A C string in a buffer: it ends at the first null byte. -/
def cutNul (s : List UInt8) : CString := s.takeWhile (· ≠ 0)

/-- A value, as `cJSON_Parse` leaves it. (What is nested is not looked at.) -/
def Json.cut : Json → Json
  | .string s => .string (cutNul s)
  | v => v

/-- An object where each name has one value, and is a C string. -/
structure Message where
  fields : List (CString × Json)
  nodup : (fields.map Prod.fst).Nodup
  names : ∀ field ∈ fields, ∀ c ∈ field.1, c ≠ 0

namespace Message

variable (m : Message) (key : String)

/-- The value that a field has in the message, if it is there. -/
def field : Option Json := (m.fields.find? fun field => field.1 = cstr key).map Prod.snd

/-- The message in Python, -/
def py : Json := .object m.fields

/-- and in C. -/
def c : Json := .object (m.fields.map fun field => (cutNul field.1, field.2.cut))

variable {m key}

theorem item_c : m.c.item key = (m.field key).map Json.cut := by
  have hnames : ∀ field ∈ m.fields, cutNul field.1 = field.1 := fun field hfield =>
    List.takeWhile_eq_self_iff.2 fun c hc => by simpa using m.names field hfield c hc
  have hfind : ∀ fields : List (CString × Json), (∀ field ∈ fields, cutNul field.1 = field.1) →
      ((fields.map fun field => (cutNul field.1, field.2.cut)).find? fun field =>
        field.1 = cstr key).map Prod.snd =
        ((fields.find? fun field => field.1 = cstr key).map Prod.snd).map Json.cut := by
    intro fields hfields
    induction fields with
    | nil => rfl
    | cons field fields ih =>
      rw [List.forall_mem_cons] at hfields
      by_cases hname : field.1 = cstr key
      · have hkey : cutNul (cstr key) = cstr key := hname ▸ hfields.1
        simp [hname, hkey]
      · simpa [hfields.1, hname] using ih hfields.2
  exact hfind m.fields hnames

theorem item_py : Python.item m.py key = m.field key := by
  have hfind : ∀ fields : List (CString × Json), (fields.map Prod.fst).Nodup →
      (fields.reverse.find? fun field => field.1 = cstr key) =
        fields.find? fun field => field.1 = cstr key := by
    intro fields hnodup
    induction fields with
    | nil => rfl
    | cons field fields ih =>
      rw [List.map_cons, List.nodup_cons] at hnodup
      rw [List.reverse_cons, List.find?_append, ih hnodup.2]
      by_cases hname : field.1 = cstr key
      · have hnone : (fields.find? fun field => field.1 = cstr key) = none := by
          rw [List.find?_eq_none]
          intro f hf hkey
          refine hnodup.1 (List.mem_map.2 ⟨f, hf, ?_⟩)
          rw [hname]
          simpa using hkey
        simp [hnone, hname]
      · simp [hname]
  exact congrArg (Option.map Prod.snd) (hfind m.fields m.nodup)

end Message

/-- The salt is absent, null, or a Base64 text. -/
def SaltEncoded (m : Message) : Prop :=
  m.field "salt" = none ∨ m.field "salt" = some .null ∨
    ∃ s bs, m.field "salt" = some (.string s) ∧ Base64.decode s = some bs

/-! ## What is selected -/

/-- The suite and the KDF that `handle_client` of `c/server.c` goes on with, if any. -/
def cSelection (env : JsonEnv) (sel : Json) : Option (AlgoCombo × Kdf) :=
  (getComboById Baseline.algorithmCombos (sel.getInt "combo_id" (-1))).map fun combo =>
    (combo, kdfUsed env (Parsed.delete ⟨sel, false⟩) (sel.getStr "kdf_type") (sel.getStr "salt"))

/-- The suite and the KDF that `handle_client_connection` goes on with, if any. -/
def pySelection (env : Python.PyEnv) (sel : Json) : Option (Python.PyCombo × Kdf) :=
  ((Python.readProfileSelect sel).eval env).map fun selection => (selection.combo, selection.kdf)

section Selection

variable {env : JsonEnv} {sel : Json} (s : List (Option Json))

/-- Where nothing is selected, the server of `c` gives up; -/
theorem val_handleClient_of_none (h : cSelection env sel = none) :
    (env.obs (some sel :: s) Baseline.handleClient).val = .closed :=
  Baseline.val_handleClient_unknown (Option.map_eq_none_iff.1 h)

/-- otherwise it goes on with the suite, and with the KDF if it gets to one. -/
theorem val_handleClient_of_some {combo : AlgoCombo} {kdf : Kdf}
    (h : cSelection env sel = some (combo, kdf)) :
    ∃ kdfType saltB64, (env.obs (some sel :: s) Baseline.handleClient).val =
        (env.obs s (Baseline.serve combo (Parsed.delete ⟨sel, false⟩) kdfType saltB64)).val ∧
      UsesKdf kdf (env.obs (some sel :: s) Baseline.handleClient).val := by
  obtain ⟨combo', hcombo, heq⟩ := Option.map_eq_some_iff.1 h
  cases heq
  have hval := @Baseline.val_handleClient env combo s sel hcombo
  refine ⟨_, _, hval, ?_⟩
  rw [hval]
  exact Baseline.yields_serve s

end Selection

/-- What has been deleted is still there where it is read. -/
structure Intact (env : PrimEnv) (sel : Json) : Prop where
  salt : ∀ s, sel.getStr "salt" = some s →
    env (.readFreed .strlenSalt) = s ∧ env (.readFreed .decodeSalt) = s
  kdfType : ∀ s, sel.getStr "kdf_type" = some s → env (.readFreed .compareKdf) = s

/-- Both servers refuse the message, or both select the same suite, the same KDF, and the
    same salt for it. -/
def ReadAlike (env : JsonEnv) (pyEnv : Python.PyEnv) (m : Message) : Prop :=
  (cSelection env m.c).map (Prod.map Python.ofAlgoCombo id) = pySelection pyEnv m.py

/-! ## The suite -/

section Combo

/-- The ids of the table are those from `1` to `8`. -/
theorem isSome_getComboById (n : Int) :
    (getComboById Baseline.algorithmCombos n).isSome ↔ 1 ≤ n ∧ n < 9 := by
  constructor
  · intro h
    obtain ⟨combo, hcombo⟩ := Option.isSome_iff_exists.1 h
    have hids : ∀ c ∈ Baseline.algorithmCombos, 1 ≤ c.id ∧ c.id < 9 := by decide
    rw [← id_of_getComboById hcombo]
    exact hids combo (mem_of_getComboById hcombo)
  · rintro ⟨hle, hlt⟩
    interval_cases n <;> rfl

/-- Truncation neither gets to the range of the ids, nor leaves it. -/
theorem toInt_bounds (v : ℚ) : (1 ≤ Json.toInt v ∧ Json.toInt v < 9) ↔ 1 ≤ v ∧ v < 9 := by
  have hint : (1 ≤ Json.toInt v ∧ Json.toInt v < 9) ↔
      1 ≤ v.num.tdiv v.den ∧ v.num.tdiv v.den < 9 := by
    rw [Json.toInt]
    split_ifs <;> omega
  have hden : (0 : Int) < v.den := by exact_mod_cast v.den_pos
  have hle : 1 ≤ v ↔ (v.den : Int) ≤ v.num := by simpa using Rat.le_iff 1 v
  have hlt : v < 9 ↔ v.num < 9 * v.den := by simpa using Rat.lt_iff v 9
  rw [hint, hle, hlt]
  rcases le_or_gt 0 v.num with hnum | hnum
  · rw [Int.tdiv_eq_ediv_of_nonneg hnum, Int.le_ediv_iff_mul_le hden, Int.ediv_lt_iff_lt_mul hden,
      one_mul]
  · have hneg : v.num.tdiv v.den ≤ 0 := by simpa using Int.tdiv_le_tdiv hden hnum.le
    omega

/-- The cast of an integer does not change what is looked up. -/
theorem getComboById_toInt {v : ℚ} (h : v.den = 1) :
    getComboById Baseline.algorithmCombos (Json.toInt v) =
      getComboById Baseline.algorithmCombos v.num := by
  have hnone {n : Int} (hn : ¬(1 ≤ n ∧ n < 9)) :
      getComboById Baseline.algorithmCombos n = none :=
    Option.not_isSome_iff_eq_none.1 (mt (isSome_getComboById n).1 hn)
  rw [Json.toInt, h, Nat.cast_one, Int.tdiv_one]
  split_ifs with hrange
  · rfl
  · rw [hnone (by omega), hnone (by omega)]

/-- The id that a value is, in C. -/
def cComboId : Option Json → Int
  | some (.number v) => Json.toInt v
  | _ => -1

theorem getInt_c {m : Message} : m.c.getInt "combo_id" (-1) = cComboId (m.field "combo_id") := by
  rw [Json.getInt, Message.item_c]
  rcases m.field "combo_id" with _ | (_ | _ | _ | _ | _ | _) <;> rfl

/-- A number that is no integer is not an id in Python. -/
theorem getComboById_not_int {v : ℚ} (h : v.den ≠ 1) : Python.getComboById (.number v) = none := by
  rw [Python.getComboById, List.find?_eq_none]
  intro combo _ heq
  have hv : (combo.id : ℚ) = v := by simpa [Python.eqInt] using heq
  exact h (hv ▸ Rat.den_intCast combo.id)

/-- A value is looked up alike, unless it is true, or a number that is truncated to an id. -/
theorem combo_alike_iff (v : Option Json) :
    (getComboById Baseline.algorithmCombos (cComboId v)).map Python.ofAlgoCombo =
        v.bind Python.getComboById ↔
      v ≠ some (.bool true) ∧ ∀ q, v = some (.number q) → 1 ≤ q → q < 9 → q.den = 1 := by
  rcases v with _ | (_ | b | q | _ | _ | _)
  case some.bool =>
    cases b with
    | false => exact iff_of_true rfl ⟨nofun, nofun⟩
    | true => exact iff_of_false (by decide) fun h => h.1 rfl
  case some.number =>
    rw [Option.bind_some, cComboId]
    by_cases hden : q.den = 1
    · have hq : q = (q.num : ℚ) := (Rat.coe_int_num_of_den_eq_one hden).symm
      refine iff_of_true ?_ ⟨nofun, fun q' hq' _ _ => ?_⟩
      · conv_rhs => rw [hq, Python.getComboById_int]
        rw [getComboById_toInt hden]
      · cases hq'
        exact hden
    · rw [getComboById_not_int hden, Option.map_eq_none_iff, ← Option.not_isSome_iff_eq_none,
        isSome_getComboById, toInt_bounds]
      constructor
      · refine fun h => ⟨nofun, fun q' hq' hle hlt => ?_⟩
        cases hq'
        exact absurd ⟨hle, hlt⟩ h
      · exact fun h hrange => hden (h.2 q rfl hrange.1 hrange.2)
  all_goals exact iff_of_true rfl ⟨nofun, nofun⟩

end Combo

/-! ## The KDF -/

section Kdf

variable {env : JsonEnv} {pyEnv : Python.PyEnv} {m : Message} {sel : Json}

/-- The KDF that the name `name` is, with a salt, given how the name is compared. -/
def kdfOf (compared : CString → CString) (name : Option Json) (salt : Option (List UInt8)) : Kdf :=
  match name with
  | some (.string s) => if compared s = cstr "blake3" then .blake3 else .hkdfSha256 salt
  | _ => .hkdfSha256 salt

/-- The salt that a value is, in C, -/
def cSalt (env : PrimEnv) : Option Json → Option (List UInt8)
  | some (.string s) =>
    if cutNul s = [] then none
    else ((b64Decode (cutNul s) maxSalt).eval env).filter (·.length > 0)
  | _ => none

/-- and in Python, for a Base64 text. -/
def pySalt : Option Json → Option (List UInt8)
  | some (.string s) => if s = [] then none else Base64.decode s
  | _ => none

theorem cutNul_eq_blake3 (s : List UInt8) :
    cutNul s = cstr "blake3" ↔ s = cstr "blake3" ∨ ∃ rest, s = cstr "blake3" ++ 0 :: rest := by
  constructor
  · intro h
    have hsplit : cutNul s ++ s.dropWhile (· ≠ 0) = s := List.takeWhile_append_dropWhile
    rw [h] at hsplit
    cases hrest : s.dropWhile (· ≠ 0) with
    | nil => exact .inl (by rw [← hsplit, hrest, List.append_nil])
    | cons c rest =>
      have hc := List.head?_dropWhile_not (· ≠ (0 : UInt8)) s
      rw [hrest] at hc
      obtain rfl : c = 0 := by simpa using hc
      exact .inr ⟨rest, by rw [← hrest, hsplit]⟩
  · rintro (rfl | ⟨rest, rfl⟩)
    · decide
    · rw [cutNul, List.takeWhile_append_of_pos (List.all_eq_true.1 (by decide)),
        List.takeWhile_cons_of_neg (by decide),
        List.append_nil]

/-- A name is compared alike, unless it is `blake3` and a null byte. -/
theorem kdfOf_alike_iff {name : Option Json} {salt salt' : Option (List UInt8)} :
    kdfOf cutNul name salt = kdfOf id name salt' ↔
      (∀ rest, name ≠ some (.string (cstr "blake3" ++ 0 :: rest))) ∧
        (name ≠ some (.string (cstr "blake3")) → salt = salt') := by
  rcases name with _ | (_ | _ | _ | s | _ | _)
  case some.string =>
    simp only [kdfOf, id, ne_eq, Option.some.injEq, Json.string.injEq]
    by_cases hs : s = cstr "blake3"
    · have hne (rest : List UInt8) : s ≠ cstr "blake3" ++ 0 :: rest := by simp [hs]
      rw [if_pos ((cutNul_eq_blake3 s).2 (.inl hs)), if_pos hs]
      exact iff_of_true rfl ⟨hne, fun h => absurd hs h⟩
    · by_cases hnul : ∃ rest, s = cstr "blake3" ++ 0 :: rest
      · rw [if_pos ((cutNul_eq_blake3 s).2 (.inr hnul)), if_neg hs]
        obtain ⟨rest, hrest⟩ := hnul
        exact iff_of_false nofun fun h => h.1 rest hrest
      · rw [if_neg (mt (cutNul_eq_blake3 s).1 (not_or.2 ⟨hs, hnul⟩)), if_neg hs,
          Kdf.hkdfSha256.injEq]
        exact ⟨fun h => ⟨fun rest hrest => hnul ⟨rest, hrest⟩, fun _ => h⟩, fun h => h.2 hs⟩
  all_goals simp [kdfOf]

/-- A text that is decoded has no null byte. -/
theorem cutNul_of_decode {s bs : List UInt8} (h : Base64.decode s = some bs) : cutNul s = s :=
  List.takeWhile_eq_self_iff.2 fun c hc => by simpa using (Base64.isChar_of_decode h c hc).ne_zero

/-- A salt is read alike, unless it is cut off, or cannot be decoded for want of memory. -/
theorem salt_alike_iff (hreads : ReadsBase64 env.sys) (hsalt : SaltEncoded m) :
    cSalt env.sys (m.field "salt") = pySalt (m.field "salt") ↔
      ∀ s bs, m.field "salt" = some (.string s) → s ≠ [] → Base64.decode s = some bs →
        CreatesBio env.sys s ∧ bs.length ≤ maxSalt := by
  obtain hnone | hnull | ⟨s, bs, hs, hdecode⟩ := hsalt
  · rw [hnone]
    exact iff_of_true rfl nofun
  · rw [hnull]
    exact iff_of_true rfl nofun
  · rw [hs]
    simp only [cSalt, pySalt, cutNul_of_decode hdecode, hdecode, Option.some.injEq,
      Json.string.injEq]
    rcases s with _ | ⟨c, s⟩
    · exact iff_of_true rfl fun s bs h hne => absurd h.symm hne
    · have hne : bs ≠ [] := Base64.decode_ne_nil hdecode nofun
      have hlen := List.length_pos_iff.2 hne
      rw [if_neg nofun, if_neg nofun]
      have hiff : (((b64Decode (some (c :: s)) maxSalt).eval env.sys).filter fun bs =>
          decide (bs.length > 0)) = some bs ↔
            CreatesBio env.sys (c :: s) ∧ bs.length ≤ maxSalt := by
        by_cases hbio : CreatesBio env.sys (c :: s)
        · by_cases hfit : bs.length ≤ maxSalt
          · have hfits : FitsMemBuf (c :: s) := by
              have hgroups := Base64.length_of_decode hdecode
              exact .inl (by rw [maxSalt] at hfit; omega)
            rw [eval_b64Decode_of_fits hreads hdecode hbio hfits (by decide),
              List.take_of_length_le hfit, Option.filter_some, if_pos (by simpa using hlen)]
            exact iff_of_true rfl ⟨hbio, hfit⟩
          -- the decoder cuts the salt off at its buffer
          · refine iff_of_false (fun h => hfit ?_) fun h => hfit h.2
            exact length_b64Decode_le (by decide) (Option.filter_eq_some_iff.1 h).1
        · rw [eval_b64Decode_cons, if_neg hbio]
          exact iff_of_false nofun fun h => hbio h.1
      rw [hiff]
      constructor
      · rintro h s' bs' rfl - hdecode'
        rw [hdecode'] at hdecode
        cases hdecode
        exact h
      · exact fun h => h _ _ rfl nofun hdecode

theorem kdfUsed_eq (hintact : Intact env.sys m.c) :
    kdfUsed env (Parsed.delete ⟨m.c, false⟩) (m.c.getStr "kdf_type") (m.c.getStr "salt") =
      kdfOf cutNul (m.field "kdf_type") (cSalt env.sys (m.field "salt")) := by
  have hload {s : CString} {use : StringUse} (h : env.sys (.readFreed use) = s) :
      ((Parsed.delete ⟨m.c, false⟩).load s use).eval env.sys = s := h
  have hsalt : (decodeSalt (Parsed.delete ⟨m.c, false⟩) (m.c.getStr "salt")).eval env.sys =
      cSalt env.sys (m.field "salt") := by
    have hread := hintact.salt
    revert hread
    rw [Json.getStr, Message.item_c]
    rcases m.field "salt" with _ | (_ | _ | _ | s | _ | _)
    case some.string =>
      intro hread
      obtain ⟨hlen, hdecode⟩ := hread _ rfl
      simp only [Option.map_some, Json.cut, decodeSalt, cSalt, Prog.eval_bind, hload hlen,
        hload hdecode, Prog.eval_ite, Prog.pure_eq, Prog.eval_ret, gt_iff_lt,
        List.length_pos_iff, ite_not]
    all_goals exact fun _ => rfl
  rw [kdfUsed, hsalt]
  have hread := hintact.kdfType
  revert hread
  rw [Json.getStr, Message.item_c]
  rcases m.field "kdf_type" with _ | (_ | _ | _ | s | _ | _)
  case some.string =>
    intro hread
    simp only [Option.map_some, Json.cut, Baseline.chooseKdf, kdfOf, Prog.eval_bind,
      hload (hread _ rfl), Prog.pure_eq, Prog.eval_ret]
  all_goals exact fun _ => rfl

theorem cSelection_eq (hintact : Intact env.sys m.c) :
    cSelection env m.c =
      (getComboById Baseline.algorithmCombos (cComboId (m.field "combo_id"))).map fun combo =>
        (combo, kdfOf cutNul (m.field "kdf_type") (cSalt env.sys (m.field "salt"))) := by
  rw [cSelection, getInt_c, kdfUsed_eq hintact]

theorem eval_clientSalt (hdecodes : Python.DecodesBase64 pyEnv) (hsalt : SaltEncoded m) :
    (Python.clientSalt m.py).eval pyEnv = some (pySalt (m.field "salt")) := by
  rw [Python.clientSalt, Message.item_py]
  obtain hnone | hnull | ⟨s, bs, hs, hdecode⟩ := hsalt
  · rw [hnone]
    rfl
  · rw [hnull]
    rfl
  · rw [hs]
    rcases s with _ | ⟨c, s⟩
    · rfl
    · have hanswer := hdecodes _ bs hdecode nofun
      simp [Python.truthy, Python.b64d, Option.filter, hanswer, pySalt, hdecode]

theorem pySelection_eq (hdecodes : Python.DecodesBase64 pyEnv) (hsalt : SaltEncoded m) :
    pySelection pyEnv m.py = ((m.field "combo_id").bind Python.getComboById).map fun combo =>
      (combo, kdfOf id (m.field "kdf_type") (pySalt (m.field "salt"))) := by
  rw [pySelection, Python.readProfileSelect, Message.item_py]
  cases hid : m.field "combo_id" with
  | none => rfl
  | some comboId =>
    dsimp only [Option.bind_some]
    cases hcombo : Python.getComboById comboId with
    | none => rfl
    | some combo =>
      simp only [Prog.eval_bind, eval_clientSalt hdecodes hsalt, Prog.pure_eq, Prog.eval_ret,
        Option.map_some, Message.item_py]
      rcases m.field "kdf_type" with _ | (_ | _ | _ | s | _ | _) <;> rfl

end Kdf

/-! ## When they read it alike -/

/-- The suite is asked for by a number in the range of the ids. -/
def Message.InRange (m : Message) : Prop :=
  ∃ v, m.field "combo_id" = some (.number v) ∧ 1 ≤ v ∧ v < 9

/-- Nothing shows by which the servers differ: the id is not true, nor a number that is
    truncated to one; where there is a suite, the name of the KDF is not `blake3` and a null
    byte, and the salt, unless it is not used, fits and can be decoded. -/
structure Unambiguous (env : PrimEnv) (m : Message) : Prop where
  notTrue : m.field "combo_id" ≠ some (.bool true)
  whole : ∀ v, m.field "combo_id" = some (.number v) → 1 ≤ v → v < 9 → v.den = 1
  kdfType : m.InRange → ∀ rest, m.field "kdf_type" ≠ some (.string (cstr "blake3" ++ 0 :: rest))
  salt : m.InRange → m.field "kdf_type" ≠ some (.string (cstr "blake3")) →
    ∀ s bs, m.field "salt" = some (.string s) → s ≠ [] → Base64.decode s = some bs →
      CreatesBio env s ∧ bs.length ≤ maxSalt

section Alike

variable {env : JsonEnv} {pyEnv : Python.PyEnv} {m : Message}

theorem inRange_iff (v : Option Json) :
    (getComboById Baseline.algorithmCombos (cComboId v)).isSome ↔
      ∃ q, v = some (.number q) ∧ 1 ≤ q ∧ q < 9 := by
  have hnone : getComboById Baseline.algorithmCombos (-1) = none := rfl
  rcases v with _ | (_ | _ | q | _ | _ | _)
  case some.number =>
    rw [cComboId, isSome_getComboById, toInt_bounds]
    constructor
    · exact fun h => ⟨q, rfl, h⟩
    · rintro ⟨q', ⟨⟩, h⟩
      exact h
  all_goals simp [cComboId, hnone]

/-- The suite and, where there is one, the KDF are compared one after the other. -/
theorem readAlike_iff (hintact : Intact env.sys m.c) (hdecodes : Python.DecodesBase64 pyEnv)
    (hsalt : SaltEncoded m) :
    ReadAlike env pyEnv m ↔
      (getComboById Baseline.algorithmCombos (cComboId (m.field "combo_id"))).map
          Python.ofAlgoCombo = (m.field "combo_id").bind Python.getComboById ∧
        (m.InRange → kdfOf cutNul (m.field "kdf_type") (cSalt env.sys (m.field "salt")) =
          kdfOf id (m.field "kdf_type") (pySalt (m.field "salt"))) := by
  have hrange : _ ↔ m.InRange := inRange_iff (m.field "combo_id")
  rw [ReadAlike, cSelection_eq hintact, pySelection_eq hdecodes hsalt, ← hrange]
  cases getComboById Baseline.algorithmCombos (cComboId (m.field "combo_id")) <;>
    cases (m.field "combo_id").bind Python.getComboById <;>
    simp

/-- **The servers read a message alike exactly if nothing in it shows by which they
    differ.** -/
theorem profile_select_alike_iff (hintact : Intact env.sys m.c) (hreads : ReadsBase64 env.sys)
    (hdecodes : Python.DecodesBase64 pyEnv) (hsalt : SaltEncoded m) :
    ReadAlike env pyEnv m ↔ Unambiguous env.sys m := by
  rw [readAlike_iff hintact hdecodes hsalt, combo_alike_iff, kdfOf_alike_iff,
    salt_alike_iff hreads hsalt]
  constructor
  · rintro ⟨⟨hnot, hwhole⟩, hkdf⟩
    exact ⟨hnot, hwhole, fun hin => (hkdf hin).1, fun hin => (hkdf hin).2⟩
  · intro h
    exact ⟨⟨h.notTrue, h.whole⟩, fun hin => ⟨h.kdfType hin, h.salt hin⟩⟩

end Alike

/-! ### Messages -/

/-- An outcome of every call where texts are decoded, none fails, and what has been deleted is
    still there. -/
def PrimEnv.keeping (kdfType salt : CString) : PrimEnv
  | .readFreed .compareKdf => kdfType
  | .readFreed .strlenSalt | .readFreed .decodeSalt => salt
  | p => PrimEnv.decoding p

theorem readsBase64_keeping {kdfType salt : CString} :
    ReadsBase64 (PrimEnv.keeping kdfType salt) := readsBase64_decoding

/-- A message that asks for a suite, with a salt. -/
def selectSalted (comboId : Json) (salt : CString) : Message where
  fields := [(cstr "combo_id", comboId), (cstr "kdf_type", .string (cstr "sha256")),
    (cstr "salt", .string salt)]
  nodup := by
    change [cstr "combo_id", cstr "kdf_type", cstr "salt"].Nodup
    decide
  names := by
    intro field hfield
    have hname : field.1 ∈ [cstr "combo_id", cstr "kdf_type", cstr "salt"] :=
      List.mem_map_of_mem (f := Prod.fst) hfield
    simp only [List.mem_cons, List.not_mem_nil, or_false] at hname
    rcases hname with hname | hname | hname <;>
      rw [hname] <;>
      exact List.all_iff_forall_prop.1 (by decide)

theorem intact_selectSalted {comboId : Json} {salt bs : List UInt8}
    (hdecode : Base64.decode salt = some bs) :
    Intact (PrimEnv.keeping (cstr "sha256") salt) (selectSalted comboId salt).c := by
  have hsalt : (selectSalted comboId salt).c.getStr "salt" = some (cutNul salt) := rfl
  have hkdf : (selectSalted comboId salt).c.getStr "kdf_type" = some (cstr "sha256") := rfl
  rw [cutNul_of_decode hdecode] at hsalt
  refine ⟨fun s hs => ?_, fun s hs => ?_⟩
  · obtain rfl : salt = s := Option.some.inj (hsalt.symm.trans hs)
    exact ⟨rfl, rfl⟩
  · obtain rfl : cstr "sha256" = s := Option.some.inj (hkdf.symm.trans hs)
    rfl

/-- A salt of a few bytes. -/
theorem profile_select_alike_p256_mlkem768 :
    ReadAlike (.reliable (PrimEnv.keeping (cstr "sha256") (Base64.encode [1, 2, 3])))
      Python.PyEnv.sample (selectSalted (.number 2) (Base64.encode [1, 2, 3])) := by
  have hdecode := Base64.decode_encode [1, 2, 3]
  refine (profile_select_alike_iff (intact_selectSalted hdecode) readsBase64_keeping
    Python.decodesBase64_sample (.inr (.inr ⟨_, _, rfl, hdecode⟩))).2 ⟨nofun, ?_, nofun, ?_⟩
  · rintro v ⟨⟩ - -
    rfl
  · rintro - - s bs ⟨⟩ - hbs
    obtain rfl : [1, 2, 3] = bs := Option.some.inj (hdecode.symm.trans hbs)
    exact ⟨⟨rfl, rfl⟩, by decide⟩

/-- With a salt of `129` bytes both servers go on, but not with the same one; and
    `c/server.c` takes `1.5` for a suite. -/
theorem profile_select_differs :
    (∃ env pyEnv m, Intact env.sys m.c ∧ ReadsBase64 env.sys ∧ Python.DecodesBase64 pyEnv ∧
      SaltEncoded m ∧ m.field "combo_id" = some (.number 2) ∧ ¬ReadAlike env pyEnv m) ∧
    ∃ env pyEnv m, Intact env.sys m.c ∧ ReadsBase64 env.sys ∧ Python.DecodesBase64 pyEnv ∧
      SaltEncoded m ∧ m.field "combo_id" = some (.number (3 / 2)) ∧ ¬ReadAlike env pyEnv m := by
  constructor
  · have hlen : (List.replicate 129 (0 : UInt8)).length = 129 := List.length_replicate
    generalize List.replicate 129 (0 : UInt8) = salt at hlen
    have hdecode := Base64.decode_encode salt
    have hintact := @intact_selectSalted (.number 2) _ _ hdecode
    have hsalt : SaltEncoded (selectSalted (.number 2) (Base64.encode salt)) :=
      .inr (.inr ⟨_, _, rfl, hdecode⟩)
    refine ⟨.reliable (PrimEnv.keeping _ _), Python.PyEnv.sample, _, hintact, readsBase64_keeping,
      Python.decodesBase64_sample, hsalt, rfl, fun halike => ?_⟩
    have hkdf := ((readAlike_iff hintact Python.decodesBase64_sample hsalt).1 halike).2
      ⟨2, rfl, by decide, by decide⟩
    -- were the salt read alike, it would fit the buffer
    have hfits := (salt_alike_iff readsBase64_keeping hsalt).1 ((kdfOf_alike_iff.1 hkdf).2 ?_) _ _
      rfl ?_ hdecode
    · exact absurd hfits.2 (by rw [hlen]; decide)
    · intro h
      exact absurd (Json.string.inj (Option.some.inj h)) (by decide)
    · intro h
      rw [h] at hdecode
      cases hdecode
      exact absurd hlen (by decide)
  · have hintact := @intact_selectSalted (.number (3 / 2)) _ _ (Base64.decode_encode [])
    have hsalt : SaltEncoded (selectSalted (.number (3 / 2)) (Base64.encode [])) :=
      .inr (.inr ⟨_, _, rfl, Base64.decode_encode []⟩)
    refine ⟨.reliable (PrimEnv.keeping _ _), Python.PyEnv.sample, _, hintact, readsBase64_keeping,
      Python.decodesBase64_sample, hsalt, rfl, fun halike => ?_⟩
    -- were the suite read alike, its number would be a whole one
    have hcombo := ((readAlike_iff hintact Python.decodesBase64_sample hsalt).1 halike).1
    have hden := ((combo_alike_iff _).1 hcombo).2 (3 / 2) rfl (by norm_num) (by norm_num)
    have hnum := Rat.coe_int_num_of_den_eq_one hden
    have htwice : (2 * (3 / 2 : ℚ).num : ℚ) = 3 := by rw [hnum]; norm_num
    have hodd : 2 * (3 / 2 : ℚ).num = 3 := by exact_mod_cast htwice
    omega

end HybridPqc
