import HybridPqc.Handshake

/-!
# Exact transfers

`send_all` and `recv_all` of `c_dispatch/src/network_utils.c`, which go on with the rest
of a buffer for as long as `write` and `read` return a positive number of bytes.

Whatever these return, what is put on the stream is a prefix of the buffer
(`sendFrom_exact`), and what is stored are the next bytes of the stream
(`recvFrom_exact`, `stored_eq`); it is all of it exactly if the function returns `0`. So a
stream may be cut anywhere by its sender, and elsewhere by its receiver
(`transfer_exact`), and the reads of a `Conn` are those of `recv_all`
(`recvAll_eq_handler`).
-/

namespace HybridPqc

namespace Dispatch

/-- A call on a socket, for `count` bytes of a buffer from `start` on. -/
inductive IoOp
  | write (buf : List UInt8) (start count : ℕ)
  | read (start count : ℕ)

namespace IoOp

/-- The answers: an error, or how many bytes are written, or the bytes that are read. -/
@[reducible] def Res : IoOp → Type
  | write _ _ count => Option { n : ℕ // n ≤ count }
  | read _ count => Option { bs : List UInt8 // bs.length ≤ count }

/-- The first byte of the buffer, and how many, that a call is given. -/
def start : IoOp → ℕ
  | write _ start _ | read start _ => start

def count : IoOp → ℕ
  | write _ _ count | read _ count => count

end IoOp

/-- A program calling a socket. -/
abbrev Io (α : Type) := Prog IoOp IoOp.Res α

namespace Io

/-- A call, with its answer. -/
abbrev Event := Prog.Event IoOp IoOp.Res

def write (buf : List UInt8) (start count : ℕ) : Io (Option { n : ℕ // n ≤ count }) :=
  Prog.op (IoOp.write buf start count)

def read (start count : ℕ) : Io (Option { bs : List UInt8 // bs.length ≤ count }) :=
  Prog.op (IoOp.read start count)

/-- The value returned by a call. -/
def amount : Event → Int
  | ⟨.write _ _ _, some n⟩ => n.val
  | ⟨.read _ _, some bs⟩ => bs.val.length
  | _ => -1

/-- The bytes that are put on the stream. -/
def put (t : List Event) : List UInt8 :=
  t.flatMap fun
    | ⟨.write buf start _, some n⟩ => (buf.drop start).take n
    | _ => []

/-- The bytes that are taken from the stream. -/
def taken (t : List Event) : List UInt8 :=
  t.flatMap fun
    | ⟨.read _ _, some bs⟩ => bs
    | _ => []

@[simp] theorem put_append (t t' : List Event) : put (t ++ t') = put t ++ put t' :=
  List.flatMap_append

@[simp] theorem taken_append (t t' : List Event) : taken (t ++ t') = taken t ++ taken t' :=
  List.flatMap_append

theorem taken_read (start count : ℕ) (bs : { bs : List UInt8 // bs.length ≤ count })
    (t : List Event) : taken (⟨.read start count, some bs⟩ :: t) = bs ++ taken t := rfl

/-- A buffer, once the bytes `bs` are stored in it from `start` on. -/
def overwrite (buf : List UInt8) (start : ℕ) (bs : List UInt8) : List UInt8 :=
  buf.take start ++ bs ++ buf.drop (start + bs.length)

/-- A buffer, once the bytes that are taken are stored where they are asked for. -/
def stored (buf : List UInt8) : List Event → List UInt8
  | [] => buf
  | ⟨.read start _, some bs⟩ :: t => stored (overwrite buf start bs) t
  | _ :: t => stored buf t

section Overwrite

variable {buf bs : List UInt8} {start : ℕ}

theorem overwrite_nil : overwrite buf start [] = buf := by
  simp [overwrite]

theorem length_overwrite (h : start + bs.length ≤ buf.length) :
    (overwrite buf start bs).length = buf.length := by
  simp only [overwrite, List.length_append, List.length_take, List.length_drop]
  omega

theorem take_overwrite (h : start + bs.length ≤ buf.length) :
    (overwrite buf start bs).take (start + bs.length) = buf.take start ++ bs := by
  refine List.take_left' ?_
  rw [List.length_append, List.length_take, min_eq_left (by omega)]

theorem drop_overwrite (h : start + bs.length ≤ buf.length) (m : ℕ) :
    (overwrite buf start bs).drop (start + bs.length + m) = buf.drop (start + bs.length + m) := by
  have hlen : (buf.take start ++ bs).length = start + bs.length := by
    rw [List.length_append, List.length_take, min_eq_left (by omega)]
  rw [overwrite, ← hlen, List.drop_append, ← List.drop_drop]
  simp [hlen]

/-- What is stored at the end of a part is stored with the rest. -/
theorem overwrite_overwrite {bs' : List UInt8} (h : start + bs.length ≤ buf.length) :
    overwrite (overwrite buf start bs) (start + bs.length) bs' =
      overwrite buf start (bs ++ bs') := by
  rw [overwrite, take_overwrite h, drop_overwrite h]
  simp [overwrite, Nat.add_assoc]

end Overwrite

end Io

open Io

/-- The loop of `send_all`, once `total` bytes are written. -/
def sendFrom (buf : List UInt8) (len total : ℕ) : Io Int :=
  if total < len then do
    match ← write buf total (len - total) with
    | none | some ⟨0, _⟩ => return -1
    | some ⟨n + 1, _⟩ => sendFrom buf len (total + (n + 1))
  else
    return 0
termination_by len - total

/-- `send_all`, of the first `len` bytes of a buffer. -/
def sendAll (buf : List UInt8) (len : ℕ) : Io Int := sendFrom buf len 0

/-- The loop of `recv_all`, once `total` bytes are read. -/
def recvFrom (len total : ℕ) : Io Int :=
  if total < len then do
    match ← read total (len - total) with
    | none | some ⟨[], _⟩ => return -1
    | some ⟨b :: bs, _⟩ => recvFrom len (total + (b :: bs).length)
  else
    return 0
termination_by len - total
decreasing_by simp only [List.length_cons]; omega

/-- `recv_all`, of `len` bytes. -/
def recvAll (len : ℕ) : Io Int := recvFrom len 0

theorem sendFrom_of_le {buf : List UInt8} {len total : ℕ} (h : len ≤ total) :
    sendFrom buf len total = .ret 0 := by
  rw [sendFrom, if_neg (Nat.not_lt.2 h), Prog.pure_eq]

/-! ## A transfer -/

/-- From `total` bytes on, `moved` bytes are transferred of `len`: all of them if `0` is
    returned, and fewer if `-1` is, where the last call has returned no byte. No call is given a
    byte outside the buffer, and there is at most one for each byte. -/
structure Exact (len total moved : ℕ) (val : Int) (t : List Io.Event) : Prop where
  val_eq : val = 0 ∨ val = -1
  all_iff : val = 0 ↔ total + moved = len
  le : total + moved ≤ len
  stops_iff : val = -1 ↔ ∃ ev ∈ t, amount ev ≤ 0
  range : ∀ ev ∈ t, ev.1.start + ev.1.count ≤ len
  length_le : t.length ≤ len - total

namespace Exact

variable {len total moved n : ℕ} {val : Int} {t : List Io.Event} {ev : Io.Event}

theorem done : Exact len len 0 0 [] := by
  constructor <;> simp

/-- A call that fails. -/
theorem stop (hlt : total < len) (hstart : ev.1.start = total) (hcount : ev.1.count = len - total)
    (hev : amount ev ≤ 0) : Exact len total 0 (-1) [ev] := by
  constructor <;> simp [hstart, hcount, hev] <;> omega

/-- A call that transfers `n` bytes, and the rest. -/
theorem step (hlt : total < len) (hstart : ev.1.start = total) (hcount : ev.1.count = len - total)
    (hev : amount ev = (n + 1 : ℕ)) (h : Exact len (total + (n + 1)) moved val t) :
    Exact len total (n + 1 + moved) val (ev :: t) where
  val_eq := h.val_eq
  all_iff := by rw [h.all_iff, Nat.add_assoc]
  le := by have := h.le; omega
  stops_iff := by
    have hpos : ¬amount ev ≤ 0 := by omega
    simp [h.stops_iff, hpos]
  range := by
    rintro ev' hev'
    rcases List.mem_cons.1 hev' with rfl | hev'
    · omega
    · exact h.range ev' hev'
  length_le := by
    have := h.length_le
    simp only [List.length_cons]
    omega

end Exact

variable {W : Type} (h : Prog.Handler IoOp IoOp.Res W)

/-- What is put on the stream by the loop is the next part of the buffer, up to where it
    stops. -/
theorem sendFrom_exact {buf : List UInt8} {len : ℕ} (hlen : len ≤ buf.length) (total : ℕ)
    (htotal : total ≤ len) (w : W) :
    let r := (sendFrom buf len total).run h w
    ∃ moved, put r.trace = (buf.drop total).take moved ∧ Exact len total moved r.val r.trace := by
  fun_induction sendFrom buf len total generalizing w with
  | case2 total hlt =>
    obtain rfl : total = len := by omega
    exact ⟨0, rfl, .done⟩
  | case1 total hlt ih =>
    simp only [Io.write, Prog.op_eq, Prog.call_bind, Prog.ret_bind, Prog.run_call]
    generalize h (.write buf total (len - total)) w = a
    obtain ⟨_ | ⟨_ | n, hn⟩, w'⟩ := a
    · exact ⟨0, rfl, .stop hlt rfl rfl (by simp [amount])⟩
    · exact ⟨0, rfl, .stop hlt rfl rfl (by simp [amount])⟩
    · obtain ⟨moved, hput, hexact⟩ := ih n hn (by omega) w'
      refine ⟨n + 1 + moved, ?_, .step hlt rfl rfl rfl hexact⟩
      rw [List.take_add, List.drop_drop]
      exact congrArg (_ ++ ·) hput

/-- What is taken from the stream by the loop is stored from `total` on. -/
theorem recvFrom_exact (len total : ℕ) (htotal : total ≤ len) (w : W) :
    let r := (recvFrom len total).run h w
    Exact len total (taken r.trace).length r.val r.trace ∧
      ∀ buf : List UInt8, len ≤ buf.length →
        stored buf r.trace = overwrite buf total (taken r.trace) := by
  fun_induction recvFrom len total generalizing w with
  | case2 total hlt =>
    obtain rfl : total = len := by omega
    exact ⟨.done, fun buf hlen => overwrite_nil.symm⟩
  | case1 total hlt ih =>
    simp only [Io.read, Prog.op_eq, Prog.call_bind, Prog.ret_bind, Prog.run_call]
    generalize h (.read total (len - total)) w = a
    obtain ⟨_ | ⟨_ | ⟨b, bs⟩, hn⟩, w'⟩ := a
    · exact ⟨.stop hlt rfl rfl (by simp [amount]), fun buf hlen => overwrite_nil.symm⟩
    · exact ⟨.stop hlt rfl rfl (by simp [amount]), fun buf hlen => rfl⟩
    · have hle : total + (b :: bs).length ≤ len := by omega
      obtain ⟨hexact, hstored⟩ := ih b bs hle w'
      refine ⟨?_, fun buf hlen => ?_⟩
      · rw [taken_read, List.length_append]
        exact .step hlt rfl rfl rfl hexact
      · have hbuf : total + (b :: bs).length ≤ buf.length := hle.trans hlen
        calc
          _ = overwrite (overwrite buf total (b :: bs)) (total + (b :: bs).length) _ :=
            hstored _ ((length_overwrite hbuf).symm ▸ hlen)
          _ = _ := overwrite_overwrite hbuf

theorem sendAll_exact {buf : List UInt8} {len : ℕ} (hlen : len ≤ buf.length) (w : W) :
    let r := (sendAll buf len).run h w
    ∃ moved, put r.trace = buf.take moved ∧ Exact len 0 moved r.val r.trace :=
  sendFrom_exact h hlen 0 (Nat.zero_le len) w

theorem recvAll_exact (len : ℕ) (w : W) :
    let r := (recvAll len).run h w
    Exact len 0 (taken r.trace).length r.val r.trace ∧
      ∀ buf : List UInt8, len ≤ buf.length →
        stored buf r.trace = overwrite buf 0 (taken r.trace) :=
  recvFrom_exact h len 0 (Nat.zero_le len) w

/-! ## Streams -/

/-- A socket with bytes to read: whatever a read returns are the next of them, and they are
    read no more. -/
structure Stream (W : Type) where
  answer : Prog.Handler IoOp IoOp.Res W
  unread : W → List UInt8
  unread_read (start count : ℕ) (w : W) :
    unread w = taken [⟨.read start count, (answer (.read start count) w).1⟩] ++
      unread (answer (.read start count) w).2

namespace Stream

variable (s : Stream W)

/-- The loop of `recv_all` consumes what it stores, and no more. -/
theorem unread_recvFrom (len total : ℕ) (w : W) :
    let r := (recvFrom len total).run s.answer w
    s.unread w = taken r.trace ++ s.unread r.world := by
  fun_induction recvFrom len total generalizing w with
  | case2 total hlt => rfl
  | case1 total hlt ih =>
    have hread := s.unread_read total (len - total) w
    simp only [Io.read, Prog.op_eq, Prog.call_bind, Prog.ret_bind, Prog.run_call]
    generalize s.answer (.read total (len - total)) w = a at hread ⊢
    obtain ⟨_ | ⟨_ | ⟨b, bs⟩, hn⟩, w'⟩ := a
    · exact hread
    · exact hread
    · rw [hread, taken_read, ih b bs w']
      simp [taken]

/-- A socket where a read fails at the end of the stream only. -/
def Reliable : Prop :=
  ∀ start count w, 0 < count → s.unread w ≠ [] →
    0 < amount ⟨.read start count, (s.answer (.read start count) w).1⟩

/-- The loop of `recv_all` fails at the end of the stream only. -/
theorem unread_eq_nil (hs : s.Reliable) (len total : ℕ) (w : W) :
    let r := (recvFrom len total).run s.answer w
    r.val = -1 → s.unread r.world = [] := by
  fun_induction recvFrom len total generalizing w with
  | case2 total hlt => intro _ hval; cases hval
  | case1 total hlt ih =>
    have hread := s.unread_read total (len - total) w
    have hpos := hs total (len - total) w (by omega)
    simp only [Io.read, Prog.op_eq, Prog.call_bind, Prog.ret_bind, Prog.run_call]
    generalize s.answer (.read total (len - total)) w = a at hread hpos ⊢
    obtain ⟨_ | ⟨_ | ⟨b, bs⟩, hn⟩, w'⟩ := a
    · rintro -
      by_contra hne
      exact absurd (hpos (hread ▸ hne)) (by simp [amount])
    · rintro -
      by_contra hne
      exact absurd (hpos (hread ▸ hne)) (by simp [amount])
    · exact ih b bs w'

/-- `recv_all` returns `0` exactly if the next `len` bytes are stored, and no others are
    consumed. -/
theorem recvAll_eq_zero_iff {buf : List UInt8} {len : ℕ} (hlen : len ≤ buf.length) (w : W) :
    let r := (recvAll len).run s.answer w
    r.val = 0 ↔
      len ≤ (s.unread w).length ∧
        stored buf r.trace = (s.unread w).take len ++ buf.drop len ∧
          s.unread r.world = (s.unread w).drop len := by
  intro r
  have hunread : s.unread w = taken r.trace ++ s.unread r.world := s.unread_recvFrom len 0 w
  have hexact : Exact len 0 (taken r.trace).length r.val r.trace :=
    (recvAll_exact s.answer len w).1
  have hstored : stored buf r.trace = overwrite buf 0 (taken r.trace) :=
    (recvAll_exact s.answer len w).2 buf hlen
  rw [hexact.all_iff, Nat.zero_add, hstored, hunread]
  constructor
  · intro hlength
    simp [overwrite, ← hlength]
  · rintro ⟨hle, -, hdrop⟩
    have hlength := congrArg List.length hdrop
    simp only [List.length_drop, List.length_append] at hle hlength
    omega

/-- Where a read fails at the end of the stream only, `recv_all` returns `0` if the stream is
    long enough. -/
theorem recvAll_reliable (hs : s.Reliable) (len : ℕ) (w : W) :
    let r := (recvAll len).run s.answer w
    if len ≤ (s.unread w).length then r.val = 0 else r.val = -1 ∧ s.unread r.world = [] := by
  intro r
  have hunread : s.unread w = taken r.trace ++ s.unread r.world := s.unread_recvFrom len 0 w
  have hexact : Exact len 0 (taken r.trace).length r.val r.trace :=
    (recvAll_exact s.answer len w).1
  have hle := hexact.le
  have hall := hexact.all_iff
  rw [hunread]
  rcases hexact.val_eq with hval | hval
  · rw [if_pos (by have := hall.1 hval; simp only [List.length_append]; omega)]
    exact hval
  · have hnil : s.unread r.world = [] := s.unread_eq_nil hs len 0 w hval
    have hne : 0 + (taken r.trace).length ≠ len := fun heq => by
      rw [← hall, hval] at heq
      cases heq
    rw [if_neg (by rw [hnil, List.append_nil]; omega)]
    exact ⟨hval, hnil⟩

/-- The reads of a `Conn` are those of `recv_all`. -/
theorem recvAll_eq_handler (hs : s.Reliable) {P : Type} {R : P → Type} (e : ConnEnv UInt8 R)
    (len : ℕ) (w : W) :
    let r := (recvAll len).run s.answer w
    (if r.val = 0 then some (stored (List.replicate len 0) r.trace) else none,
      s.unread r.world) = e.handler (.recv len) (s.unread w) := by
  intro r
  have hreliable := s.recvAll_reliable hs len w
  by_cases hle : len ≤ (s.unread w).length
  · rw [if_pos hle] at hreliable
    obtain ⟨-, hstored, hdrop⟩ :=
      (s.recvAll_eq_zero_iff (List.length_replicate (n := len) (a := 0)).ge w).1 hreliable
    simp [ConnEnv.handler, hle, hreliable, hstored, hdrop, r]
  · rw [if_neg hle] at hreliable
    simp [ConnEnv.handler, hle, hreliable, r]

end Stream

/-! ## Any cuts -/

/-- Calls of `send_all`, one for each buffer. -/
def sendEach (bufs : List (List UInt8)) : Io (List Int) :=
  bufs.mapM fun buf => sendAll buf buf.length

/-- Calls of `recv_all`, one for each buffer: what they return, and the buffers after. -/
def recvEach (s : Stream W) : List (List UInt8) → W → List (Int × List UInt8)
  | [], _ => []
  | buf :: bufs, w =>
    let r := (recvAll buf.length).run s.answer w
    (r.val, stored buf r.trace) :: recvEach s bufs r.world

/-- What is put on the stream by calls that succeed are their buffers. -/
theorem put_sendEach (bufs : List (List UInt8)) (w : W)
    (hall : ∀ val ∈ ((sendEach bufs).run h w).val, val = 0) :
    put ((sendEach bufs).run h w).trace = bufs.flatten := by
  induction bufs generalizing w with
  | nil => rfl
  | cons buf bufs ih =>
    obtain ⟨moved, hput, hexact⟩ := sendAll_exact h (le_refl buf.length) w
    simp only [sendEach, List.mapM_cons, Prog.run_bind, Prog.pure_eq, Prog.run_ret,
      List.mem_cons, forall_eq_or_imp] at hall
    have hmoved : 0 + moved = buf.length := hexact.all_iff.1 hall.1
    have hrest := ih _ hall.2
    simp only [sendEach, List.mapM_cons, Prog.run_bind, Prog.pure_eq, Prog.run_ret, put_append,
      List.append_nil, List.flatten_cons]
    rw [← hrest, hput, ← hmoved, Nat.zero_add, List.take_of_length_le (by omega)]
    rfl

/-- What is stored by calls that succeed are the next bytes of the stream. -/
theorem flatten_recvEach (s : Stream W) (bufs : List (List UInt8)) (w : W)
    (hall : ∀ got ∈ recvEach s bufs w, got.1 = 0) :
    ((recvEach s bufs w).map Prod.snd).flatten = (s.unread w).take bufs.flatten.length := by
  induction bufs generalizing w with
  | nil => simp [recvEach]
  | cons buf bufs ih =>
    simp only [recvEach, List.mem_cons, forall_eq_or_imp] at hall
    obtain ⟨hle, hstored, hdrop⟩ := (s.recvAll_eq_zero_iff (le_refl buf.length) w).1 hall.1
    rw [List.drop_length, List.append_nil] at hstored
    simp only [recvEach, List.map_cons, List.flatten_cons, List.length_append, List.take_add]
    rw [ih _ hall.2, hstored, hdrop]

/-- Where a read fails at the end of the stream only, calls for no more bytes than the stream has
    all succeed. -/
theorem recvEach_reliable {s : Stream W} (hs : s.Reliable) (bufs : List (List UInt8)) (w : W)
    (hlength : bufs.flatten.length ≤ (s.unread w).length) :
    ∀ got ∈ recvEach s bufs w, got.1 = 0 := by
  induction bufs generalizing w with
  | nil => exact fun got hgot => absurd hgot List.not_mem_nil
  | cons buf bufs ih =>
    rw [List.flatten_cons, List.length_append] at hlength
    have hval := s.recvAll_reliable hs buf.length w
    rw [if_pos (by omega)] at hval
    have hdrop := ((s.recvAll_eq_zero_iff (le_refl buf.length) w).1 hval).2.2
    simp only [recvEach, List.mem_cons, forall_eq_or_imp]
    exact ⟨hval, ih _ (by rw [hdrop, List.length_drop]; omega)⟩

/-- `send_all` puts a prefix of its buffer on the stream, all of it exactly if it returns `0`;
    `recv_all` returns `0` exactly if it stores the next bytes of the stream, and consumes no
    others; both return `-1` exactly if a call fails, never go outside the buffer, and call at
    most once for each byte. A stream cut anywhere by its sender, and elsewhere by its receiver,
    is reproduced. -/
theorem transfer_exact {V : Type} (s : Stream V) :
    (∀ (buf : List UInt8) (len : ℕ) (w : W), len ≤ buf.length →
      let r := (sendAll buf len).run h w
      put r.trace <+: buf.take len ∧ (r.val = 0 ↔ put r.trace = buf.take len) ∧
        (r.val = 0 ∨ r.val = -1) ∧ (r.val = -1 ↔ ∃ ev ∈ r.trace, amount ev ≤ 0) ∧
        (∀ ev ∈ r.trace, ev.1.start + ev.1.count ≤ len) ∧ r.trace.length ≤ len) ∧
    (∀ (buf : List UInt8) (len : ℕ) (v : V), len ≤ buf.length →
      let r := (recvAll len).run s.answer v
      (r.val = 0 ↔ len ≤ (s.unread v).length ∧
        stored buf r.trace = (s.unread v).take len ++ buf.drop len ∧
          s.unread r.world = (s.unread v).drop len) ∧
        (r.val = 0 ∨ r.val = -1) ∧ (r.val = -1 ↔ ∃ ev ∈ r.trace, amount ev ≤ 0) ∧
        (∀ ev ∈ r.trace, ev.1.start + ev.1.count ≤ len) ∧ r.trace.length ≤ len) ∧
    ∀ (bufs bufs' : List (List UInt8)) (w : W) (v : V),
      let r := (sendEach bufs).run h w
      bufs'.flatten.length = bufs.flatten.length → put r.trace <+: s.unread v →
        (∀ val ∈ r.val, val = 0) → (∀ got ∈ recvEach s bufs' v, got.1 = 0) →
          ((recvEach s bufs' v).map Prod.snd).flatten = bufs.flatten := by
  refine ⟨fun buf len w hlen => ?_, fun buf len v hlen => ?_, ?_⟩
  · obtain ⟨moved, hput, hexact⟩ := sendAll_exact h hlen w
    have hle := hexact.le
    have hall := hexact.all_iff
    rw [Nat.zero_add] at hle hall
    refine ⟨?_, ?_, hexact.val_eq, hexact.stops_iff, hexact.range, hexact.length_le⟩
    · rw [hput]
      exact List.take_prefix_take_left hle
    · rw [hall, hput]
      refine ⟨fun heq => heq ▸ rfl, fun heq => ?_⟩
      have := congrArg List.length heq
      simp only [List.length_take] at this
      omega
  · obtain ⟨hexact, -⟩ := recvAll_exact s.answer len v
    exact ⟨s.recvAll_eq_zero_iff hlen v, hexact.val_eq, hexact.stops_iff, hexact.range,
      hexact.length_le⟩
  · intro bufs bufs' w v r hlength hprefix hsent hgot
    rw [put_sendEach h bufs w hsent] at hprefix
    rw [flatten_recvEach s bufs' v hgot, hlength]
    exact (List.prefix_iff_eq_take.1 hprefix).symm

/-- A socket that takes and gives one byte at a time. -/
def bytewise : Stream (List UInt8) where
  answer
    | .write _ _ 0, bs => (none, bs)
    | .write _ _ (_ + 1), bs => (some ⟨1, Nat.succ_le_succ (Nat.zero_le _)⟩, bs)
    | .read _ (_ + 1), b :: bs => (some ⟨[b], Nat.succ_le_succ (Nat.zero_le _)⟩, bs)
    | .read _ _, bs => (none, bs)
  unread := id
  unread_read start count bs := by
    rcases count with _ | count
    · rfl
    · rcases bs with _ | ⟨b, bs⟩ <;> rfl

theorem sendEach_bytewise :
    (sendEach [[5], [6]]).run bytewise.answer [] =
      ⟨[0, 0], [], [⟨.write [5] 0 1, some ⟨1, le_rfl⟩⟩, ⟨.write [6] 0 1, some ⟨1, le_rfl⟩⟩]⟩ := by
  simp only [sendEach, List.mapM_cons, List.mapM_nil, sendAll, List.length_cons, List.length_nil]
  rw [sendFrom, sendFrom]
  simp [Io.write, bytewise, sendFrom_of_le]

theorem reliable_bytewise : bytewise.Reliable := by
  intro start count bs hcount hbs
  obtain ⟨count, rfl⟩ := Nat.exists_eq_add_one.2 hcount
  obtain ⟨b, bs, rfl⟩ := List.exists_cons_of_ne_nil hbs
  simp [bytewise, amount]

/-- Two calls that send a byte each, and one that receives both. -/
theorem transfer_exact_bytewise :
    ((recvEach bytewise [[0, 0]] [5, 6]).map Prod.snd).flatten = [[5], [6]].flatten :=
  (transfer_exact bytewise.answer bytewise).2.2 [[5], [6]] [[0, 0]] [] [5, 6] rfl
    (by rw [sendEach_bytewise]; exact List.prefix_refl _)
    (by rw [sendEach_bytewise]; simp)
    (recvEach_reliable reliable_bytewise [[0, 0]] [5, 6] le_rfl)

end Dispatch

end HybridPqc
