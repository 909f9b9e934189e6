import Mathlib.Algebra.Ring.Int.Defs
import Mathlib.Data.List.Basic

/-!
# Algorithm combos

The tables `ALGORITHM_COMBOS` of `c_dispatch/include/algo_config.h` and
`c/include/algo_config.h`. An `AlgoCombo` is any value of the C structure, not
only an entry of a table: its fields are unconstrained integers.
-/

namespace HybridPqc

/-- A C string, without the terminating null byte. -/
abbrev CString := List UInt8

/-- A string literal. -/
def cstr (s : String) : CString := s.toList.map fun c => UInt8.ofNat c.toNat

abbrev profileHybrid : Int := 0
abbrev profilePureClassical : Int := 1
abbrev profilePureQuantum : Int := 2

abbrev curveNone : Int := 0
abbrev curveX25519 : Int := 1
abbrev curveP256 : Int := 2
abbrev curveP384 : Int := 3

abbrev pqcNone : Int := 0
abbrev pqcMlkem768 : Int := 1
abbrev pqcMlkem1024 : Int := 2
abbrev pqcFrodokem1344 : Int := 3
abbrev pqcBikeL5 : Int := 4

/-- The names of the algorithms in liboqs. -/
def oqsMlkem768Name : CString := cstr "ML-KEM-768"
def oqsMlkem1024Name : CString := cstr "ML-KEM-1024"
def oqsFrodokem1344Name : CString := cstr "FrodoKEM-1344-AES"
def oqsBikeL5Name : CString := cstr "BIKE-L5"

/-- A cipher suite. `pqcName` may be `NULL`. (The label, which is only printed,
    is left out.) -/
structure AlgoCombo where
  id : Int
  profile : Int
  classicalCurve : Int
  pqcAlg : Int
  pqcName : Option CString
  info : CString
  deriving DecidableEq

namespace AlgoCombo

/-- The profile has a classical part. -/
abbrev HasClassical (combo : AlgoCombo) : Prop :=
  combo.profile = profileHybrid ∨ combo.profile = profilePureClassical

/-- The profile has a KEM part. -/
abbrev HasKem (combo : AlgoCombo) : Prop :=
  combo.profile = profileHybrid ∨ combo.profile = profilePureQuantum

end AlgoCombo

/-- The entries common to both tables, but for their order. -/
def x25519Mlkem768 : AlgoCombo :=
  ⟨1, profileHybrid, curveX25519, pqcMlkem768, oqsMlkem768Name, cstr "Hybrid-X25519-MLKEM768-v1"⟩
def p256Mlkem768 : AlgoCombo :=
  ⟨2, profileHybrid, curveP256, pqcMlkem768, oqsMlkem768Name, cstr "Hybrid-P256-MLKEM768-v1"⟩
def p384Mlkem1024 : AlgoCombo :=
  ⟨3, profileHybrid, curveP384, pqcMlkem1024, oqsMlkem1024Name, cstr "Hybrid-P384-MLKEM1024-v1"⟩
def x25519Only : AlgoCombo :=
  ⟨4, profilePureClassical, curveX25519, pqcNone, none, cstr "Pure-Classical-X25519-v1"⟩
def p256Only : AlgoCombo :=
  ⟨5, profilePureClassical, curveP256, pqcNone, none, cstr "Pure-Classical-P256-v1"⟩
def p384Only : AlgoCombo :=
  ⟨8, profilePureClassical, curveP384, pqcNone, none, cstr "Pure-Classical-P384-v1"⟩
def mlkem768Only : AlgoCombo :=
  ⟨6, profilePureQuantum, curveNone, pqcMlkem768, oqsMlkem768Name, cstr "Pure-Quantum-MLKEM768-v1"⟩
def mlkem1024Only : AlgoCombo :=
  ⟨7, profilePureQuantum, curveNone, pqcMlkem1024, oqsMlkem1024Name,
    cstr "Pure-Quantum-MLKEM1024-v1"⟩

/-- The entries of `c_dispatch` only. -/
def p384Frodokem1344 : AlgoCombo :=
  ⟨9, profileHybrid, curveP384, pqcFrodokem1344, oqsFrodokem1344Name,
    cstr "Hybrid-P384-Frodo1344-v1"⟩
def p384BikeL5 : AlgoCombo :=
  ⟨10, profileHybrid, curveP384, pqcBikeL5, oqsBikeL5Name, cstr "Hybrid-P384-BIKEL5-v1"⟩

/-- The table of `c_dispatch`. -/
def Dispatch.algorithmCombos : List AlgoCombo :=
  [x25519Mlkem768, p256Mlkem768, p384Mlkem1024, p384Frodokem1344, p384BikeL5, x25519Only, p256Only,
    p384Only, mlkem768Only, mlkem1024Only]

/-- The table of `c`. -/
def Baseline.algorithmCombos : List AlgoCombo :=
  [x25519Mlkem768, p256Mlkem768, p384Mlkem1024, x25519Only, p256Only, p384Only, mlkem768Only,
    mlkem1024Only]

/-- The first entry of a table with the given id. -/
def getComboById (table : List AlgoCombo) (comboId : Int) : Option AlgoCombo :=
  table.find? fun combo => combo.id == comboId

theorem mem_of_getComboById {table : List AlgoCombo} {comboId : Int} {combo : AlgoCombo}
    (h : getComboById table comboId = some combo) : combo ∈ table :=
  List.mem_of_find?_eq_some h

theorem id_of_getComboById {table : List AlgoCombo} {comboId : Int} {combo : AlgoCombo}
    (h : getComboById table comboId = some combo) : combo.id = comboId := by
  simpa using List.find?_some h

/-- An entry of the table of `c_dispatch` is found by its id. -/
theorem Dispatch.getComboById_of_mem {combo : AlgoCombo} (h : combo ∈ Dispatch.algorithmCombos) :
    getComboById Dispatch.algorithmCombos combo.id = some combo := by
  simp only [algorithmCombos, List.mem_cons, List.not_mem_nil, or_false] at h
  rcases h with rfl | rfl | rfl | rfl | rfl | rfl | rfl | rfl | rfl | rfl <;> rfl

/-- What is found in the table of `c` is found in that of `c_dispatch`. -/
theorem getComboById_dispatch_of_baseline {comboId : Int} {combo : AlgoCombo}
    (h : getComboById Baseline.algorithmCombos comboId = some combo) :
    getComboById Dispatch.algorithmCombos comboId = some combo := by
  have hsub : ∀ c ∈ Baseline.algorithmCombos, c ∈ Dispatch.algorithmCombos := by decide
  rw [← id_of_getComboById h]
  exact Dispatch.getComboById_of_mem (hsub combo (mem_of_getComboById h))

/-- Ids fit in the 16 bits they have on the wire. -/
theorem Dispatch.id_lt {combo : AlgoCombo} (h : combo ∈ Dispatch.algorithmCombos) :
    0 ≤ combo.id ∧ combo.id < 2 ^ 16 := by
  revert combo
  decide

/-- An entry of the table has one of the three profiles. -/
theorem Dispatch.profile_of_mem {combo : AlgoCombo} (h : combo ∈ Dispatch.algorithmCombos) :
    combo.profile = profileHybrid ∨ combo.profile = profilePureClassical ∨
      combo.profile = profilePureQuantum := by
  revert combo
  decide

end HybridPqc
