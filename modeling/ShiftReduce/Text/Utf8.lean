/-! # Decoding UTF-8

Decoding stops at the first bad sequence and says what is wrong with it. The characters before it
are kept, since a stream delivers them.
-/

namespace ShiftReduce.Text.Utf8

inductive Reason where
  | badStart
  | badContinuation
  | cutOff
deriving DecidableEq, Repr

/-- A bad sequence: the byte it starts with, where it starts, how many bytes of it were good. -/
structure Fault where
  byte : Nat
  position : Nat
  length : Nat
  reason : Reason
deriving DecidableEq, Repr

structure Decoded where
  chars : List Char
  fault : Option Fault
deriving DecidableEq, Repr

/-- What a lead byte announces: its own bits, the number of bytes after it, and the bounds of the
first of these. -/
structure Lead where
  bits : Nat
  tail : Nat
  low : Nat := 0x80
  high : Nat := 0xBF
deriving DecidableEq, Repr

/-- The bounds leave out overlong forms, surrogates and what lies above the last code point. -/
def Lead.of? (b : Nat) : Option Lead :=
  if b < 0x80 then some ⟨b, 0, 0x80, 0xBF⟩
  else if b < 0xC2 then none
  else if b < 0xE0 then some ⟨b - 0xC0, 1, 0x80, 0xBF⟩
  else if b < 0xF0 then
    some ⟨b - 0xE0, 2, if b = 0xE0 then 0xA0 else 0x80, if b = 0xED then 0x9F else 0xBF⟩
  else if b < 0xF5 then
    some ⟨b - 0xF0, 3, if b = 0xF0 then 0x90 else 0x80, if b = 0xF4 then 0x8F else 0xBF⟩
  else none

/-- Reads `n` continuation bytes, the first within `low` and `high`. A failure says how many were
good. -/
def tail (low high bits good : Nat) : Nat → List UInt8 → Except (Nat × Reason) (Nat × List UInt8)
  | 0, bs => .ok (bits, bs)
  | _ + 1, [] => .error (good, .cutOff)
  | n + 1, b :: bs =>
    if low ≤ b.toNat ∧ b.toNat ≤ high then
      tail 0x80 0xBF (bits * 64 + (b.toNat - 0x80)) (good + 1) n bs
    else .error (good, .badContinuation)

theorem tail_length {low high bits good n : Nat} {bs : List UInt8} {r : Nat × List UInt8}
    (h : tail low high bits good n bs = .ok r) : r.2.length + n = bs.length := by
  induction n generalizing low high bits good bs with
  | zero => simp only [tail, Except.ok.injEq] at h; simp [← h]
  | succ n ih =>
    cases bs with
    | nil => simp [tail] at h
    | cons b bs =>
      simp only [tail] at h
      split at h
      · have := ih h
        simp only [List.length_cons]
        omega
      · simp at h

def decodeFrom (position : Nat) (bytes : List UInt8) : Decoded :=
  match bytes with
  | [] => ⟨[], none⟩
  | b :: bs =>
    match Lead.of? b.toNat with
    | none => ⟨[], some ⟨b.toNat, position, 1, .badStart⟩⟩
    | some lead =>
      match h : tail lead.low lead.high lead.bits 1 lead.tail bs with
      | .error (good, reason) => ⟨[], some ⟨b.toNat, position, good, reason⟩⟩
      | .ok (code, rest) =>
        let r := decodeFrom (position + 1 + lead.tail) rest
        { r with chars := Char.ofNat code :: r.chars }
termination_by bytes.length
decreasing_by
  have := tail_length h
  simp only [List.length_cons]
  simp only at this
  omega

def decode (bytes : List UInt8) : Decoded := decodeFrom 0 bytes

/-! ## Bytes that come in pieces -/

/-- Whether a bad sequence waits for the bytes that would complete it. The first two bytes of a
surrogate at the very end do, although no third byte makes a character of them. -/
def isUnfinished (bytes : List UInt8) (f : Fault) : Bool :=
  f.reason = .cutOff ||
    (f.byte = 0xED &&
      match bytes.drop (f.position + 1) with
      | [b] => 0xA0 ≤ b.toNat && b.toNat ≤ 0xBF
      | _ => false)

/-- The characters of bytes that others follow, and the bytes that wait for these. -/
def decodePart (bytes : List UInt8) : Except Fault (List Char × List UInt8) :=
  let d := decode bytes
  match d.fault with
  | none => .ok (d.chars, [])
  | some f => if isUnfinished bytes f then .ok (d.chars, bytes.drop f.position) else .error f

end ShiftReduce.Text.Utf8
