import HybridPqc.Network
import Mathlib.Logic.Relation

/-!
# Detection of the protocol

`handle_client` of `c_dispatch/server.c` peeks at the first four bytes that a client
sends, once, and takes the binary path if they are `WIRE_MAGIC`, the JSON path
otherwise.

What the client sends arrives in segments, at any time. A receive that peeks waits
for a byte, or for the end of the stream, and answers with what there is, so that it
may see less than it asks for. `detection_correct_iff` says exactly when the path
taken is the one for the stream. (A receive that fails is left out.)
-/

namespace HybridPqc

namespace Dispatch

open Relation

/-- The path that `handle_client` takes. -/
inductive Path
  | binary
  | json
  deriving DecidableEq

/-- `peek_magic`, which is cleared before the receive. -/
def peekMagic (peeked : List UInt8) : List UInt8 := ((Bytes.zero 4).memcpy peeked).1

/-- The path taken, once the receive has seen the bytes `peeked`. -/
def detect (e : Endian) (peeked : List UInt8) : Path :=
  if peeked.length = 4 ∧ e.hton 4 (e.load (peekMagic peeked)) = wireMagic then .binary else .json

/-- A stream of the binary protocol. -/
def StartsWithMagic (stream : List UInt8) : Prop := stream.take 4 = network 4 wireMagic

instance (stream : List UInt8) : Decidable (StartsWithMagic stream) :=
  inferInstanceAs (Decidable (_ = _))

/-! ## Delivery -/

/-- What has arrived of the stream of a client, what is still to come, whether the end
    of the stream has been noticed, and what the receive has seen. -/
structure Detection where
  arrived : List UInt8 := []
  coming : List UInt8
  shut : Bool := false
  peeked : Option (List UInt8) := none

namespace Detection

/-- A segment arrives, the end of the stream does, or the receive returns. -/
inductive Step : Detection → Detection → Prop
  | segment {arrived now later shut peeked} : now ≠ [] →
      Step ⟨arrived, now ++ later, shut, peeked⟩ ⟨arrived ++ now, later, shut, peeked⟩
  | shut {arrived peeked} : Step ⟨arrived, [], false, peeked⟩ ⟨arrived, [], true, peeked⟩
  | peek {arrived coming shut} : arrived ≠ [] ∨ shut = true →
      Step ⟨arrived, coming, shut, none⟩ ⟨arrived, coming, shut, some (arrived.take 4)⟩

abbrev Reaches : Detection → Detection → Prop := ReflTransGen Step

/-- The path taken, if any. -/
def path (e : Endian) (d : Detection) : Option Path := d.peeked.map (detect e)

/-- The path taken, if any, is the one for the stream. -/
def Correct (e : Endian) (stream : List UInt8) (d : Detection) : Prop :=
  ∀ path, d.path e = some path → (path = .binary ↔ StartsWithMagic stream)

variable {d d' : Detection}

/-- No byte is lost, nor consumed by the receive. -/
theorem Step.unread (h : Step d d') : d'.arrived ++ d'.coming = d.arrived ++ d.coming := by
  cases h with
  | segment => exact List.append_assoc ..
  | shut => rfl
  | peek => rfl

theorem unread_of_reaches (h : Reaches d d') :
    d'.arrived ++ d'.coming = d.arrived ++ d.coming := by
  induction h with
  | refl => rfl
  | tail _ hstep ih => rw [hstep.unread, ih]

/-- The receive is made once. -/
theorem Step.peeked {bs : List UInt8} (h : Step d d') (hd : d.peeked = some bs) :
    d'.peeked = some bs := by
  cases h with
  | segment => exact hd
  | shut => exact hd
  | peek => cases hd

theorem peeked_of_reaches {bs : List UInt8} (h : Reaches d d') (hd : d.peeked = some bs) :
    d'.peeked = some bs := by
  induction h with
  | refl => exact hd
  | tail _ hstep ih => exact hstep.peeked ih

/-- It sees what has arrived. -/
theorem Step.peeked_eq (h : Step d d') (hd : d.peeked = none) (hd' : d'.peeked ≠ none) :
    d'.peeked = some (d.arrived.take 4) := by
  cases h with
  | segment => exact absurd hd hd'
  | shut => exact absurd hd hd'
  | peek => rfl

end Detection

/-! ## The path taken -/

variable {e : Endian} {stream : List UInt8} {bs : List UInt8}

/-- Four bytes tell the path. -/
theorem detect_eq_binary (h : bs.length = 4) : detect e bs = .binary ↔ bs = network 4 wireMagic := by
  have hmagic : peekMagic bs = bs := by
    rw [peekMagic, Bytes.memcpy_val _ h.le, h]
    exact List.append_nil bs
  have hval : ofNetwork bs = wireMagic ↔ bs = network 4 wireMagic := by
    constructor
    · intro hval
      rw [← hval, ← h, network_ofNetwork]
    · rintro rfl
      rfl
  rw [detect, hmagic, e.hton_load h, ← hval]
  split
  · rename_i hbinary
    simp [hbinary.2]
  · rename_i hjson
    simpa [h] using hjson

/-- Fewer do not. -/
theorem detect_eq_json (h : bs.length ≠ 4) : detect e bs = .json := if_neg fun h' => h h'.1

theorem take_four_of_append {arrived coming : List UInt8} (h : 4 ≤ arrived.length)
    (hunread : arrived ++ coming = stream) : arrived.take 4 = stream.take 4 := by
  rw [← hunread, List.take_append_of_le_length h]

/-- **Detection of the protocol.** However a stream is delivered, `handle_client` takes
    the path for it, and never takes another, exactly if at least four bytes have arrived
    when it peeks at them, or the stream is not one of the binary protocol. -/
theorem detection_correct_iff (e : Endian) (stream : List UInt8) (d d' : Detection)
    (hreach : Detection.Reaches { coming := stream } d) (hstep : Detection.Step d d')
    (hd : d.peeked = none) (hd' : d'.peeked ≠ none) :
    (∀ d'', Detection.Reaches d' d'' → d''.Correct e stream) ↔
      4 ≤ d.arrived.length ∨ ¬StartsWithMagic stream := by
  have hpeek := hstep.peeked_eq hd hd'
  have hunread : d.arrived ++ d.coming = stream := Detection.unread_of_reaches hreach
  have hcorrect : (∀ d'', Detection.Reaches d' d'' → d''.Correct e stream) ↔
      (detect e (d.arrived.take 4) = .binary ↔ StartsWithMagic stream) := by
    constructor
    · intro h
      exact h d' .refl _ (by rw [Detection.path, hpeek]; rfl)
    · intro h d'' hreach' path hpath
      rw [Detection.path, Detection.peeked_of_reaches hreach' hpeek] at hpath
      cases hpath
      exact h
  rw [hcorrect]
  by_cases hlen : 4 ≤ d.arrived.length
  · have hfour : (d.arrived.take 4).length = 4 := List.length_take_of_le hlen
    rw [detect_eq_binary hfour, take_four_of_append hlen hunread]
    exact ⟨fun _ => .inl hlen, fun _ => Iff.rfl⟩
  · have hshort : (d.arrived.take 4).length ≠ 4 := by
      rw [List.length_take]
      omega
    simp [detect_eq_json hshort, hlen]

/-- A client of the binary protocol whose first segment has four bytes. -/
theorem detection_correct_four : StartsWithMagic (network 4 wireMagic ++ [0]) ∧
    ∀ d'', Detection.Reaches
      ⟨network 4 wireMagic, [0], false, some (network 4 wireMagic)⟩ d'' →
      d''.Correct .little (network 4 wireMagic ++ [0]) :=
  ⟨by decide, (detection_correct_iff .little (network 4 wireMagic ++ [0])
    ⟨network 4 wireMagic, [0], false, none⟩ _ (.single (.segment (by decide)))
    (.peek (.inl (by decide))) rfl nofun).2 (.inl (by decide))⟩

/-- A client of the binary protocol whose first segment has one byte is taken to the
    JSON path. -/
theorem detection_depends_on_segmentation : ¬∀ d, Detection.Reaches
    { coming := network 4 wireMagic ++ [0] } d → d.Correct .little (network 4 wireMagic ++ [0]) := by
  intro h
  have hreach : Detection.Reaches { coming := network 4 wireMagic ++ [0] }
      ⟨[0x54], [0x4C, 0x53, 0x50, 0], false, some [0x54]⟩ :=
    .tail (.single (@Detection.Step.segment [] [0x54] [0x4C, 0x53, 0x50, 0] _ _ (by decide)))
      (.peek (.inl (by decide)))
  exact absurd ((h _ hreach .json rfl).2 (by decide)) nofun

end Dispatch

end HybridPqc
