import Stencil.Text

/-! Texts as bytes of UTF-8. -/
namespace Stencil.Utf8

/-- The rest of a character's bytes: how many are left, the range of the next one, and the bits
read so far. -/
structure Pending where
  left : Nat
  low : Nat
  high : Nat
  bits : Nat

/-- What a byte starts: a character of one byte, or one of several bytes. -/
def begin? (b : UInt8) : Option (Char ⊕ Pending) :=
  let n := b.toNat
  if n < 0x80 then some (.inl (Char.ofNat n))
  else if 0xC2 ≤ n && n ≤ 0xDF then some (.inr ⟨1, 0x80, 0xBF, n - 0xC0⟩)
  else if n = 0xE0 then some (.inr ⟨2, 0xA0, 0xBF, 0⟩)
  else if n = 0xED then some (.inr ⟨2, 0x80, 0x9F, 0xD⟩)
  else if 0xE1 ≤ n && n ≤ 0xEF then some (.inr ⟨2, 0x80, 0xBF, n - 0xE0⟩)
  else if n = 0xF0 then some (.inr ⟨3, 0x90, 0xBF, 0⟩)
  else if n = 0xF4 then some (.inr ⟨3, 0x80, 0x8F, 4⟩)
  else if 0xF1 ≤ n && n ≤ 0xF3 then some (.inr ⟨3, 0x80, 0xBF, n - 0xF0⟩)
  else none

/-- The characters of a byte sequence. A longest run of bytes that starts a character without
completing it, or a byte that starts none, stands as `none`. -/
def charsFrom : Option Pending → List UInt8 → List (Option Char)
  | none, [] => []
  | some _, [] => [none]
  | none, b :: rest =>
    match begin? b with
    | some (.inl c) => some c :: charsFrom none rest
    | some (.inr p) => charsFrom (some p) rest
    | none => none :: charsFrom none rest
  | some p, b :: rest =>
    if p.low ≤ b.toNat && b.toNat ≤ p.high then
      let bits := p.bits * 64 + b.toNat % 64
      if p.left ≤ 1 then some (Char.ofNat bits) :: charsFrom none rest
      else charsFrom (some ⟨p.left - 1, 0x80, 0xBF, bits⟩) rest
    else
      none :: match begin? b with
        | some (.inl c) => some c :: charsFrom none rest
        | some (.inr p) => charsFrom (some p) rest
        | none => none :: charsFrom none rest

def chars (bytes : List UInt8) : List (Option Char) := charsFrom none bytes

/-- The text that the bytes encode, when they encode one. -/
def decode? (bytes : List UInt8) : Option Text := (chars bytes).mapM id

/-- The text with a replacement character for every bad sequence. -/
def decodeLossy (bytes : List UInt8) : Text := (chars bytes).map (·.getD '\ufffd')

def encode (s : Text) : List UInt8 := s.flatMap String.utf8EncodeChar

end Stencil.Utf8
