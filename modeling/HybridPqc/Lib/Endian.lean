import Mathlib.Data.List.Basic
import Mathlib.Algebra.Order.Ring.Nat

/-!
# Integers in memory

An unsigned integer of `n` bytes is stored in memory in the byte order of its host
(`Endian.store`). On a network it is sent with its most significant byte first
(`network`), for which a host converts it before it is stored, and after it is
loaded (`Endian.hton`).

* `store_hton`, `hton_load`: whatever the host, what is converted and stored is in
  network order, and back;
* `load_store`: what is stored without a conversion is loaded by a host of the
  same byte order.
-/

/-! ## Bytes -/

/-- The `n` least significant bytes of an integer, the least significant one first. -/
def bytesOf : ℕ → ℕ → List UInt8
  | 0, _ => []
  | n + 1, v => UInt8.ofNat v :: bytesOf n (v / 256)

/-- The integer with the given bytes. -/
def ofBytes : List UInt8 → ℕ
  | [] => 0
  | b :: bs => b.toNat + 256 * ofBytes bs

@[simp] theorem length_bytesOf (n v : ℕ) : (bytesOf n v).length = n := by
  induction n generalizing v with
  | zero => rfl
  | succ n ih => rw [bytesOf, List.length_cons, ih]

/-- The bytes of an integer make up what fits in them. -/
theorem ofBytes_bytesOf (n v : ℕ) : ofBytes (bytesOf n v) = v % 256 ^ n := by
  induction n generalizing v with
  | zero => rw [pow_zero, Nat.mod_one]; rfl
  | succ n ih =>
    have hb : (UInt8.ofNat v).toNat = v % 256 := UInt8.toNat_ofNat'
    rw [bytesOf, ofBytes, ih, hb, pow_succ, mul_comm (256 ^ n), Nat.mod_mul]

theorem bytesOf_ofBytes (bs : List UInt8) : bytesOf bs.length (ofBytes bs) = bs := by
  induction bs with
  | nil => rfl
  | cons b bs ih =>
    have hlt : b.toNat < 256 := b.toNat_lt
    have hdiv : (b.toNat + 256 * ofBytes bs) / 256 = ofBytes bs := by omega
    have hb : UInt8.ofNat (b.toNat + 256 * ofBytes bs) = b := by
      apply UInt8.toNat_inj.1
      rw [UInt8.toNat_ofNat']
      omega
    rw [List.length_cons, ofBytes, bytesOf, hdiv, ih, hb]

theorem bytesOf_mod (n v : ℕ) : bytesOf n (v % 256 ^ n) = bytesOf n v := by
  have := bytesOf_ofBytes (bytesOf n v)
  rwa [length_bytesOf, ofBytes_bytesOf] at this

/-! ## Network order -/

/-- An integer of `n` bytes in network order. -/
def network (n v : ℕ) : List UInt8 := (bytesOf n v).reverse

def ofNetwork (bs : List UInt8) : ℕ := ofBytes bs.reverse

@[simp] theorem length_network (n v : ℕ) : (network n v).length = n := by
  rw [network, List.length_reverse, length_bytesOf]

@[simp] theorem ofNetwork_network (n v : ℕ) : ofNetwork (network n v) = v % 256 ^ n := by
  rw [ofNetwork, network, List.reverse_reverse, ofBytes_bytesOf]

theorem network_ofNetwork (bs : List UInt8) : network bs.length (ofNetwork bs) = bs := by
  rw [ofNetwork, network, ← List.length_reverse, bytesOf_ofBytes, List.reverse_reverse]

/-! ## Hosts -/

/-- The byte order of a host. -/
inductive Endian
  | little
  | big
  deriving DecidableEq

namespace Endian

variable (e : Endian)

/-- An integer of `n` bytes in memory. -/
def store (n v : ℕ) : List UInt8 :=
  match e with
  | .little => bytesOf n v
  | .big => (bytesOf n v).reverse

/-- The integer that is in memory. -/
def load (bs : List UInt8) : ℕ :=
  match e with
  | .little => ofBytes bs
  | .big => ofBytes bs.reverse

/-- The conversion of an integer of `n` bytes from the byte order of the host to that
    of the network, or from that of the network to that of the host. -/
def hton (n v : ℕ) : ℕ :=
  match e with
  | .little => ofNetwork (bytesOf n v)
  | .big => v % 256 ^ n

@[simp] theorem length_store (n v : ℕ) : (e.store n v).length = n := by
  cases e <;> simp [store]

theorem load_store (n v : ℕ) : e.load (e.store n v) = v % 256 ^ n := by
  cases e <;> simp [store, load, ofBytes_bytesOf]

@[simp] theorem store_hton (n v : ℕ) : e.store n (e.hton n v) = network n v := by
  cases e with
  | little =>
    have := bytesOf_ofBytes (bytesOf n v).reverse
    rwa [List.length_reverse, length_bytesOf] at this
  | big => rw [store, hton, bytesOf_mod, network]

theorem hton_load {n : ℕ} {bs : List UInt8} (h : bs.length = n) :
    e.hton n (e.load bs) = ofNetwork bs := by
  subst h
  cases e with
  | little => rw [load, hton, bytesOf_ofBytes]
  | big =>
    have := ofBytes_bytesOf bs.length (ofBytes bs.reverse)
    rw [← List.length_reverse, bytesOf_ofBytes, List.length_reverse] at this
    rw [load, hton, ofNetwork, ← this]

end Endian
