import ProjectSlice.Text.Blank

/-! UTF-8. `decodeLossy` reads any bytes: a machine takes one byte at a time and holds at most one
unfinished character; each longest beginning of a character that no further byte can finish, and
each byte that begins none, is read as one replacement character. `decode?` accepts exactly the
bytes that the reading loses nothing of. Main statement: what `decode?` accepts is the encoding of
what it answers. -/
namespace ProjectSlice

abbrev Bytes := List UInt8

namespace Utf8

def encodeChar (c : Char) : Bytes :=
  let n := c.toNat
  if n < 0x80 then [n.toUInt8]
  else if n < 0x800 then [(0xC0 + n / 64).toUInt8,(0x80 + n % 64).toUInt8]
  else if n < 0x10000 then
    [(0xE0 + n / 4096).toUInt8,(0x80 + n / 64 % 64).toUInt8,(0x80 + n % 64).toUInt8]
  else
    [(0xF0 + n / 262144).toUInt8,(0x80 + n / 4096 % 64).toUInt8,(0x80 + n / 64 % 64).toUInt8,
      (0x80 + n % 64).toUInt8]

def encode (t : Text) : Bytes := t.flatMap encodeChar

/-- A character of which the first bytes have been read: the bits so far, how many bytes are still
owed behind the next one, and the least and the greatest value that the next one may have. -/
structure Unfinished where
  bits : Nat
  owed : Nat
  least : Nat
  greatest : Nat
  deriving DecidableEq, Repr

def replacement : Char := '\uFFFD'

def firstByte (b : UInt8) : Text × Option Unfinished :=
  let n := b.toNat
  if n < 0x80 then ([Char.ofNat n],none)
  else if n < 0xC2 then ([replacement],none)
  else if n < 0xE0 then ([],some ⟨n - 0xC0,0,0x80,0xBF⟩)
  else if n < 0xF0 then
    ([],some ⟨n - 0xE0,1,if n = 0xE0 then 0xA0 else 0x80,if n = 0xED then 0x9F else 0xBF⟩)
  else if n < 0xF5 then
    ([],some ⟨n - 0xF0,2,if n = 0xF0 then 0x90 else 0x80,if n = 0xF4 then 0x8F else 0xBF⟩)
  else ([replacement],none)

def step (unfinished : Option Unfinished) (b : UInt8) : Text × Option Unfinished :=
  match unfinished with
  | none => firstByte b
  | some u =>
    if u.least ≤ b.toNat ∧ b.toNat ≤ u.greatest then
      let bits := u.bits * 64 + b.toNat % 64
      match u.owed with
      | 0 => ([Char.ofNat bits],none)
      | owed + 1 => ([],some ⟨bits,owed,0x80,0xBF⟩)
    else
      let (read,next) := firstByte b
      (replacement::read,next)

def decodeFrom (unfinished : Option Unfinished) : Bytes → Text
  | [] => if unfinished.isSome then [replacement] else []
  | b::bytes =>
    let (read,next) := step unfinished b
    read ++ decodeFrom next bytes

def decodeLossy (bytes : Bytes) : Text := decodeFrom none bytes

def decode? (bytes : Bytes) : Option Text :=
  let text := decodeLossy bytes
  if encode text = bytes then some text else none

theorem encodeAppend (a b : Text) : encode (a ++ b) = encode a ++ encode b := by simp [encode]

theorem encodeOfDecode {bytes : Bytes} {text : Text} (read : decode? bytes = some text) :
    encode text = bytes := by
  unfold decode? at read
  grind

end Utf8
end ProjectSlice
