/-!
# DocGraph.Text.Utf8

Reading bytes as UTF-8.

* `decode?`     — the text of well-formed bytes.
* `decodeLossy` — the text of any bytes, where each ill-formed part becomes U+FFFD. A part is as
  long as it could still start a well-formed character, and at least one byte.
-/

namespace DocGraph
namespace Text

/-- The text of well-formed UTF-8. -/
def decode? (bytes : ByteArray) : Option String := String.fromUTF8? bytes

/-- Stands for an ill-formed part. -/
def replacement : Char := '\uFFFD'

/-- The range of the second byte after a first byte of three or four. -/
def secondRange (b : UInt8) : UInt8 × UInt8 :=
  if b == 0xE0 then (0xA0, 0xBF)
  else if b == 0xED then (0x80, 0x9F)
  else if b == 0xF0 then (0x90, 0xBF)
  else if b == 0xF4 then (0x80, 0x8F)
  else (0x80, 0xBF)

/-- The payload of a byte in the given range. -/
def payload? (range : UInt8 × UInt8) (b : UInt8) : Option Nat :=
  if range.1 ≤ b && b ≤ range.2 then some (b.toNat % 64) else none

/-- The number of bytes a first byte announces, and its payload. -/
def leading? (b : UInt8) : Option (Nat × Nat) :=
  if b < 0x80 then some (1, b.toNat)
  else if 0xC2 ≤ b && b ≤ 0xDF then some (2, b.toNat % 32)
  else if 0xE0 ≤ b && b ≤ 0xEF then some (3, b.toNat % 16)
  else if 0xF0 ≤ b && b ≤ 0xF4 then some (4, b.toNat % 8)
  else none

/-- Read `n` more bytes of a character; the first of them must lie in `range`. -/
def continued : Nat → UInt8 × UInt8 → Nat → List UInt8 → Char × List UInt8
  | 0, _, acc, bs => (Char.ofNat acc, bs)
  | _ + 1, _, _, [] => (replacement, [])
  | n + 1, range, acc, b :: bs =>
    match payload? range b with
    | some v => continued n (0x80, 0xBF) (acc * 64 + v) bs
    | none => (replacement, b :: bs)

theorem length_continued (n : Nat) (range : UInt8 × UInt8) (acc : Nat) (bs : List UInt8) :
    (continued n range acc bs).2.length ≤ bs.length := by
  induction n generalizing range acc bs with
  | zero => simp [continued]
  | succ n ih =>
    cases bs with
    | nil => simp [continued]
    | cons b bs =>
      unfold continued
      split
      · exact Nat.le_succ_of_le (ih _ _ _)
      · simp

/-- The characters of bytes, with `replacement` for each ill-formed part. -/
def decodeBytes : List UInt8 → List Char
  | [] => []
  | b :: bs =>
    match leading? b with
    | none => replacement :: decodeBytes bs
    | some (n, v) =>
      let next := continued (n - 1) (secondRange b) v bs
      next.1 :: decodeBytes next.2
termination_by bs => bs.length
decreasing_by
  · simp
  · exact Nat.lt_succ_of_le (length_continued _ _ _ _)

/-- The text of any bytes. -/
def decodeLossy (bytes : ByteArray) : String :=
  match decode? bytes with
  | some s => s
  | none => String.ofList (decodeBytes bytes.data.toList)

end Text
end DocGraph
