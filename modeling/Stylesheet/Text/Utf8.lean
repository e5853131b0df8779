/-
  Stylesheet.Text.Utf8 — texts as bytes, and bytes as texts.

  A character takes one to four bytes. Its first byte says how many more are owed and bounds the second one, so that
  no character has two encodings and no surrogate has any. `decode` reads byte by byte and stops at the first fault,
  which names the bytes it concerns.
-/

import Stylesheet.Text.Hex

namespace Stylesheet.Text.Utf8

/-! ## Writing -/

def encodeChar (c : Char) : List UInt8 :=
  let n := c.toNat
  if n < 0x80 then [.ofNat n]
  else if n < 0x800 then [.ofNat (0xC0 + n / 0x40), .ofNat (0x80 + n % 0x40)]
  else if n < 0x10000 then
    [.ofNat (0xE0 + n / 0x1000), .ofNat (0x80 + n / 0x40 % 0x40), .ofNat (0x80 + n % 0x40)]
  else
    [.ofNat (0xF0 + n / 0x40000), .ofNat (0x80 + n / 0x1000 % 0x40), .ofNat (0x80 + n / 0x40 % 0x40),
      .ofNat (0x80 + n % 0x40)]

def encode (t : Text) : List UInt8 := t.flatMap encodeChar

/-! ## Reading -/

inductive Reason where
  | start
  | continuation
  | truncated
  deriving DecidableEq, Repr

/-- Bytes that are no character: the positions of the first and the last of them, and the first byte itself. -/
structure Fault where
  first : Nat
  last : Nat
  byte : UInt8
  reason : Reason
  deriving DecidableEq, Repr

/-- A character whose first bytes were read: where it starts and with which byte, its bits so far, how many bytes are
    still owed, and the least and the greatest value of the next one. -/
structure Pending where
  start : Nat
  lead : UInt8
  bits : Nat
  owed : Nat
  low : Nat
  high : Nat
  deriving DecidableEq, Repr

/-- What a first byte other than an ASCII character announces. -/
def announce? (start : Nat) (lead : UInt8) : Option Pending :=
  let n := lead.toNat
  if n < 0xC2 then none
  else if n < 0xE0 then some ⟨start, lead, n - 0xC0, 1, 0x80, 0xBF⟩
  else if n < 0xF0 then
    some ⟨start, lead, n - 0xE0, 2, if n = 0xE0 then 0xA0 else 0x80, if n = 0xED then 0x9F else 0xBF⟩
  else if n < 0xF5 then
    some ⟨start, lead, n - 0xF0, 3, if n = 0xF0 then 0x90 else 0x80, if n = 0xF4 then 0x8F else 0xBF⟩
  else none

/-- Reads the bytes from position `pos` on, after the characters of `read` in reverse and a character begun or none. -/
def decodeFrom : Nat → Option Pending → Text → List UInt8 → Except Fault Text
  | _, none, read, [] => .ok read.reverse
  | pos, some p, _, [] => .error ⟨p.start, pos - 1, p.lead, .truncated⟩
  | pos, none, read, b :: rest =>
    if b.toNat < 0x80 then decodeFrom (pos + 1) none (Char.ofNat b.toNat :: read) rest
    else match announce? pos b with
      | some p => decodeFrom (pos + 1) (some p) read rest
      | none => .error ⟨pos, pos, b, .start⟩
  | pos, some p, read, b :: rest =>
    if p.low ≤ b.toNat ∧ b.toNat ≤ p.high then
      let bits := p.bits * 0x40 + (b.toNat - 0x80)
      if p.owed = 1 then decodeFrom (pos + 1) none (Char.ofNat bits :: read) rest
      else decodeFrom (pos + 1) (some ⟨p.start, p.lead, bits, p.owed - 1, 0x80, 0xBF⟩) read rest
    else .error ⟨p.start, pos - 1, p.lead, .continuation⟩

def decode (bytes : List UInt8) : Except Fault Text := decodeFrom 0 none [] bytes

/-! ## Wording -/

def Reason.message : Reason → Text
  | .start => "invalid start byte".toList
  | .continuation => "invalid continuation byte".toList
  | .truncated => "unexpected end of data".toList

def Fault.message (f : Fault) : Text :=
  let subject :=
    if f.first = f.last then
      "byte 0x".toList ++ Hex.lower 2 f.byte.toNat ++ " in position ".toList ++ ofNat f.first
    else "bytes in position ".toList ++ ofNat f.first ++ ['-'] ++ ofNat f.last
  "'utf-8' codec can't decode ".toList ++ subject ++ ": ".toList ++ f.reason.message

end Stylesheet.Text.Utf8
