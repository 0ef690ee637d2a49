import PropAccord.Text.Quoted

/-!
# UTF-8

Files hold bytes. This module encodes texts and decodes bytes, one byte at a time: a first byte
fixes the ranges in which its continuation bytes must lie. Decoding either reports the first
sequence that is not UTF-8 or puts the replacement character in the place of each.
-/

namespace PropAccord

set_option autoImplicit false

abbrev Bytes := List UInt8

namespace Utf8

def encode (t : Text) : Bytes := t.flatMap String.utf8EncodeChar

inductive Reason where
  | invalidStart
  | invalidContinuation
  | unexpectedEnd
deriving DecidableEq, Repr

structure Fault where
  position : Nat
  width : Nat
  first : UInt8
  reason : Reason
deriving DecidableEq, Repr

/-- A character of which the first bytes have been read. -/
structure Pending where
  first : UInt8
  width : Nat
  code : Nat
  /-- Bounds of the continuation bytes that are still to come. -/
  expected : List (UInt8 × UInt8)

def continuation : UInt8 × UInt8 := (0x80, 0xBF)

/-- What a first byte announces: the bits it gives and the continuation bytes it asks for. -/
def announce? (b : UInt8) : Option (Nat × List (UInt8 × UInt8)) :=
  if b < 0x80 then some (b.toNat, [])
  else if b < 0xC2 then none
  else if b < 0xE0 then some (b.toNat - 0xC0, [continuation])
  else if b == 0xE0 then some (0, [(0xA0, 0xBF), continuation])
  else if b == 0xED then some (0x0D, [(0x80, 0x9F), continuation])
  else if b < 0xF0 then some (b.toNat - 0xE0, [continuation, continuation])
  else if b == 0xF0 then some (0, [(0x90, 0xBF), continuation, continuation])
  else if b == 0xF4 then some (4, [(0x80, 0x8F), continuation, continuation])
  else if b < 0xF4 then some (b.toNat - 0xF0, [continuation, continuation, continuation])
  else none

abbrev State := Option Pending

/-- One step of decoding: the state after a byte and the character that the byte completes. -/
def step (state : State) (b : UInt8) : Except (Nat × UInt8 × Reason) (State × Option Char) :=
  match state with
  | none =>
    match announce? b with
    | none => .error (1, b, .invalidStart)
    | some (code, []) => .ok (none, some (Char.ofNat code))
    | some (code, expected) => .ok (some ⟨b, 1, code, expected⟩, none)
  | some p =>
    match p.expected with
    | [] => .error (p.width, p.first, .invalidContinuation)
    | (low, high) :: expected =>
      if low ≤ b && b ≤ high then
        let code := p.code * 0x40 + (b.toNat - 0x80)
        if expected.isEmpty then .ok (none, some (Char.ofNat code))
        else .ok (some ⟨p.first, p.width + 1, code, expected⟩, none)
      else .error (p.width, p.first, .invalidContinuation)

def State.width : State → Nat
  | none => 0
  | some p => p.width

def decodeFrom (state : State) (position : Nat) : Bytes → Except Fault Text
  | [] =>
    match state with
    | none => .ok []
    | some p => .error ⟨position - p.width, p.width, p.first, .unexpectedEnd⟩
  | b :: rest =>
    match step state b with
    | .error (width, first, reason) => .error ⟨position - state.width, width, first, reason⟩
    | .ok (state, some c) => (c :: ·) <$> decodeFrom state (position + 1) rest
    | .ok (state, none) => decodeFrom state (position + 1) rest

def decode (bytes : Bytes) : Except Fault Text := decodeFrom none 0 bytes

def replacement : Char := '\ufffd'

/-- Decodes bytes, with a replacement character for each sequence that cannot be decoded. A byte
that fails to continue a character is tried as a first byte. -/
def decodeLossyFrom (state : State) : Bytes → Text
  | [] => if state.isSome then [replacement] else []
  | b :: rest =>
    match step state b with
    | .ok (state, done) => done.toList ++ decodeLossyFrom state rest
    | .error _ =>
      if state.isNone then replacement :: decodeLossyFrom none rest
      else match step none b with
        | .ok (state, done) => replacement :: (done.toList ++ decodeLossyFrom state rest)
        | .error _ => replacement :: replacement :: decodeLossyFrom none rest

def decodeLossy (bytes : Bytes) : Text := decodeLossyFrom none bytes

def Reason.text : Reason → Text
  | .invalidStart => "invalid start byte".toList
  | .invalidContinuation => "invalid continuation byte".toList
  | .unexpectedEnd => "unexpected end of data".toList

def Fault.message (f : Fault) : Text :=
  "'utf-8' codec can't decode ".toList ++
    (if f.width = 1 then
      "byte 0x".toList ++ Text.hex 2 f.first.toNat ++ " in position ".toList ++ Text.ofNat f.position
    else
      "bytes in position ".toList ++ Text.ofNat f.position ++ '-' ::
        Text.ofNat (f.position + f.width - 1)) ++
    ": ".toList ++ f.reason.text

end Utf8

end PropAccord
