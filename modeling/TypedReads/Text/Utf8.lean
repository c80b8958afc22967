import TypedReads.Text.Surrogate

/-!
# UTF-8

How texts are stored in files and written to standard output. Writing turns an unpaired
surrogate into U+FFFD. Reading accepts any bytes: where the bytes stop following the pattern of
one character, the part read so far becomes one U+FFFD and reading goes on at the byte that
did not fit.
-/

namespace TypedReads

/-- The code point written in place of what has no UTF-8 form. -/
def replacement : Nat := 0xFFFD

/-- The bytes of one code point. -/
def utf8Bytes (n : Nat) : List UInt8 :=
  if n < 0x80 then [n.toUInt8]
  else if n < 0x800 then [(0xC0 + n / 0x40).toUInt8, (0x80 + n % 0x40).toUInt8]
  else if n < 0x10000 then
    [(0xE0 + n / 0x1000).toUInt8, (0x80 + n / 0x40 % 0x40).toUInt8, (0x80 + n % 0x40).toUInt8]
  else
    [(0xF0 + n / 0x40000).toUInt8, (0x80 + n / 0x1000 % 0x40).toUInt8,
      (0x80 + n / 0x40 % 0x40).toUInt8, (0x80 + n % 0x40).toUInt8]

/-- A text as UTF-8, with U+FFFD for each unpaired surrogate. -/
def Text.toUtf8 (t : Text) : List UInt8 :=
  t.scalars.flatMap fun n => utf8Bytes (n.getD replacement)

/-- The code units of a code point. -/
def unitsOfCodePoint (n : Nat) : Text :=
  if n < 0x10000 then [n.toUInt16]
  else [(0xD800 + (n - 0x10000) / 0x400).toUInt16, (0xDC00 + (n - 0x10000) % 0x400).toUInt16]

/-- A text with U+FFFD in place of each unpaired surrogate, which is how UTF-8 keeps it. -/
def Text.wellFormed (t : Text) : Text :=
  t.scalars.flatMap fun n => unitsOfCodePoint (n.getD replacement)

/-- A character whose first bytes have been read: its bits so far, how many bytes are missing,
and the range the next byte has to lie in. -/
structure Utf8Partial where
  /-- The bits read so far. -/
  bits : Nat
  /-- How many bytes are still missing. -/
  missing : Nat
  /-- The least byte that may follow. -/
  least : UInt8
  /-- The greatest byte that may follow. -/
  greatest : UInt8

/-- What one byte adds: the code points it completes and the character it leaves pending. -/
abbrev Utf8Step := List Nat × Option Utf8Partial

/-- Reads a byte with no character pending. The ranges rule out overlong forms, surrogates and
code points above U+10FFFF. -/
def utf8Start (b : UInt8) : Utf8Step :=
  if b < 0x80 then ([b.toNat], none)
  else if b < 0xC2 then ([replacement], none)
  else if b < 0xE0 then ([], some ⟨b.toNat - 0xC0, 1, 0x80, 0xBF⟩)
  else if b < 0xF0 then
    let least := if b = 0xE0 then 0xA0 else 0x80
    let greatest := if b = 0xED then 0x9F else 0xBF
    ([], some ⟨b.toNat - 0xE0, 2, least, greatest⟩)
  else if b < 0xF5 then
    let least := if b = 0xF0 then 0x90 else 0x80
    let greatest := if b = 0xF4 then 0x8F else 0xBF
    ([], some ⟨b.toNat - 0xF0, 3, least, greatest⟩)
  else ([replacement], none)

/-- Reads a byte with a character pending. -/
def Utf8Partial.next (p : Utf8Partial) (b : UInt8) : Utf8Step :=
  if p.least ≤ b ∧ b ≤ p.greatest then
    let bits := p.bits * 0x40 + (b.toNat - 0x80)
    if p.missing ≤ 1 then ([bits], none) else ([], some ⟨bits, p.missing - 1, 0x80, 0xBF⟩)
  else
    -- The part read so far ends here, and the byte starts anew.
    let (read, pending) := utf8Start b
    (replacement :: read, pending)

/-- The code points that bytes spell, with a character pending or none. -/
def utf8CodePoints : Option Utf8Partial → List UInt8 → List Nat
  | none, [] => []
  | some _, [] => [replacement]
  | pending, b :: rest =>
    let (read, pending) := pending.elim (utf8Start b) (·.next b)
    read ++ utf8CodePoints pending rest

/-- The text that bytes hold as UTF-8. -/
def Text.ofUtf8 (bytes : List UInt8) : Text :=
  (utf8CodePoints none bytes).flatMap unitsOfCodePoint

/-- The text of a file: its bytes as UTF-8, without one leading byte order mark. -/
def Text.ofFile (bytes : List UInt8) : Text :=
  match Text.ofUtf8 bytes with
  | 0xFEFF :: rest => rest
  | t => t

end TypedReads
