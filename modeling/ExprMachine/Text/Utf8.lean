/-!
# UTF-8

Reading bytes as characters, one byte at a time. A lead byte fixes how many trailing bytes
must follow and which values the first of them may take; a byte that does not fit ends the
sequence begun before it, and is then read afresh.

* `Lead.ofByte?` — what a lead byte asks for;
* `Decoder.feed` — one byte read;
* `decode` — the characters of a byte sequence, `none` for each maximal ill-formed stretch;
* `decode?` — the characters, if every stretch is well formed;
* `decodeLossy` — the characters with U+FFFD for each ill-formed stretch;
* `encode` — the bytes of a text.
-/

namespace ExprMachine.Text.Utf8

/-! ### Lead bytes -/

/-- A character begun: the trailing bytes it still needs, the range the next of them must lie
in, and the bits read so far. -/
structure Lead where
  missing : Nat
  low : Nat := 0x80
  high : Nat := 0xBF
  code : Nat
  deriving DecidableEq, Repr

/-- What a byte other than an ASCII one begins. The ranges of the second byte leave out overlong
forms, surrogates and everything above U+10FFFF. -/
def Lead.ofByte? (b : Nat) : Option Lead :=
  if 0xC2 ≤ b ∧ b ≤ 0xDF then some { missing := 1, code := b - 0xC0 }
  else if b = 0xE0 then some { missing := 2, low := 0xA0, code := 0 }
  else if b = 0xED then some { missing := 2, high := 0x9F, code := 0xD }
  else if 0xE1 ≤ b ∧ b ≤ 0xEF then some { missing := 2, code := b - 0xE0 }
  else if b = 0xF0 then some { missing := 3, low := 0x90, code := 0 }
  else if 0xF1 ≤ b ∧ b ≤ 0xF3 then some { missing := 3, code := b - 0xF0 }
  else if b = 0xF4 then some { missing := 3, high := 0x8F, code := 4 }
  else none

/-! ### The decoder -/

/-- What has been read, latest first, and the character begun, if one is. -/
structure Decoder where
  done : List (Option Char) := []
  pending : Option Lead := none

/-- Read a byte at the start of a character. -/
def Decoder.begin (done : List (Option Char)) (b : Nat) : Decoder :=
  if b < 0x80 then { done := some (Char.ofNat b) :: done }
  else match Lead.ofByte? b with
    | some lead => { done, pending := some lead }
    | none => { done := none :: done }

/-- Read a byte. -/
def Decoder.feed (d : Decoder) (byte : UInt8) : Decoder :=
  let b := byte.toNat
  match d.pending with
  | none => .begin d.done b
  | some lead =>
    if lead.low ≤ b ∧ b ≤ lead.high then
      let code := lead.code * 64 + (b - 0x80)
      if lead.missing ≤ 1 then { done := some (Char.ofNat code) :: d.done }
      else { done := d.done, pending := some { missing := lead.missing - 1, code } }
    else .begin (none :: d.done) b

/-- Everything read, in order; a character that the input leaves unfinished is ill-formed. -/
def Decoder.finish (d : Decoder) : List (Option Char) :=
  (if d.pending.isSome then none :: d.done else d.done).reverse

/-- The characters of a byte sequence, `none` for each maximal ill-formed stretch. -/
def decode (bytes : List UInt8) : List (Option Char) :=
  (bytes.foldl Decoder.feed {}).finish

/-- The characters of a byte sequence, if it is well formed. -/
def decode? (bytes : List UInt8) : Option (List Char) :=
  let read := decode bytes
  if read.all Option.isSome then some (read.filterMap id) else none

/-- The characters of a byte sequence, U+FFFD standing for each ill-formed stretch. -/
def decodeLossy (bytes : List UInt8) : List Char :=
  (decode bytes).map fun c => c.getD '\uFFFD'

/-! ### The encoder -/

/-- The bytes of a text. -/
def encode (s : List Char) : List UInt8 := s.flatMap String.utf8EncodeChar

@[simp]
theorem encode_nil : encode [] = [] := rfl

@[simp]
theorem encode_append (s t : List Char) : encode (s ++ t) = encode s ++ encode t := by
  simp [encode]

end ExprMachine.Text.Utf8
