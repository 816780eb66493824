/-!
# ScriptIndent.Text.Utf8

Reading bytes as UTF-8, with replacement characters where they are not.

Every maximal stretch of bytes that begins a character but does not finish one
is read as one U+FFFD, and so is every byte that can begin no character.  The
reader goes byte by byte; between bytes it remembers a character begun.
-/

namespace ScriptIndent.Utf8

/-- What stands for bytes that are not UTF-8. -/
def replacement : Char := '\uFFFD'

/-- A character begun: the bits read, the number of bytes to come, and the
range in which the next of them must lie. -/
structure Pending where
  bits : Nat
  left : Nat
  low : UInt8
  high : UInt8

/-- How the first byte of a character goes on. -/
inductive Lead where
  | char (c : Char)
  | more (p : Pending)
  | bad

/-- The kinds of first bytes.  The second byte of some characters is
restricted, so that no character is overlong, a surrogate, or too large. -/
def lead (b : UInt8) : Lead :=
  if b < 0x80 then .char (Char.ofNat b.toNat)
  else if b < 0xC2 then .bad
  else if b < 0xE0 then .more ⟨b.toNat % 0x20, 1, 0x80, 0xBF⟩
  else if b = 0xE0 then .more ⟨0, 2, 0xA0, 0xBF⟩
  else if b = 0xED then .more ⟨0xD, 2, 0x80, 0x9F⟩
  else if b < 0xF0 then .more ⟨b.toNat % 0x10, 2, 0x80, 0xBF⟩
  else if b = 0xF0 then .more ⟨0, 3, 0x90, 0xBF⟩
  else if b < 0xF4 then .more ⟨b.toNat % 8, 3, 0x80, 0xBF⟩
  else if b = 0xF4 then .more ⟨4, 3, 0x80, 0x8F⟩
  else .bad

/-- The byte can come next. -/
def Pending.accepts (p : Pending) (b : UInt8) : Bool := p.low ≤ b && b ≤ p.high

/-- The character begun, with six more bits. -/
def Pending.push (p : Pending) (b : UInt8) : Pending :=
  ⟨p.bits * 64 + b.toNat % 64, p.left - 1, 0x80, 0xBF⟩

/-- What a byte leads to that follows no character begun: characters that are
finished, and a character begun. -/
def fresh (b : UInt8) : List Char × Option Pending :=
  match lead b with
  | .char c => ([c], none)
  | .more p => ([], some p)
  | .bad => ([replacement], none)

/-- What a byte leads to after a character begun, if any. -/
def step : Option Pending → UInt8 → List Char × Option Pending
  | none, b => fresh b
  | some p, b =>
    if p.accepts b then
      let q := p.push b
      if q.left = 0 then ([Char.ofNat q.bits], none) else ([], some q)
    else (replacement :: (fresh b).1, (fresh b).2)

/-- Read bytes after a character begun, if any. -/
def decodeFrom (pending : Option Pending) : List UInt8 → List Char
  | [] => if pending.isSome then [replacement] else []
  | b :: rest => (step pending b).1 ++ decodeFrom (step pending b).2 rest

/-- The text that bytes stand for. -/
def decode (bytes : List UInt8) : String := String.ofList (decodeFrom none bytes)

/-- The bytes of a text. -/
def encode (s : String) : Array UInt8 := s.toUTF8.data

end ScriptIndent.Utf8
