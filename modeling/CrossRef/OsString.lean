/-
  CrossRef.OsString

  Names and paths as the system keeps them: bytes, which need not encode a
  text. Shown as text, what encodes no character becomes a replacement
  character: one for each row of bytes that could have begun a character, and
  one for each byte that could not.
-/

namespace CrossRef

structure OsString where
  bytes : List UInt8
deriving DecidableEq, Repr, Inhabited

namespace OsString

/-- The bytes that encode a text. -/
def ofText (text : String) : OsString := ⟨text.toList.flatMap String.utf8EncodeChar⟩

instance : Coe String OsString := ⟨ofText⟩

/-! ## Bytes with a meaning in paths -/

def slash : UInt8 := 47

def dot : UInt8 := 46

def hyphen : UInt8 := 45

def empty : OsString := ⟨[]⟩

/-- The current directory. -/
def here : OsString := ⟨[dot]⟩

/-- The directory above. -/
def up : OsString := ⟨[dot, dot]⟩

/-! ## As text -/

/-- A character whose first bytes have been read: its number as far as it is
    known, how many bytes are missing, and the least and greatest the next may be. -/
structure Begun where
  number : Nat
  missing : Nat
  low : Nat
  high : Nat

/-- Reads the first byte of a character: the character if that is all of it, or
    else what it begins. -/
def start (b : Nat) : List Char × Option Begun :=
  if b < 0x80 then ([Char.ofNat b], none)
  else if b < 0xC2 then (['\uFFFD'], none)
  else if b < 0xE0 then ([], some ⟨b % 32, 1, 0x80, 0xBF⟩)
  else if b < 0xF0 then
    ([], some ⟨b % 16, 2, if b = 0xE0 then 0xA0 else 0x80, if b = 0xED then 0x9F else 0xBF⟩)
  else if b < 0xF5 then
    ([], some ⟨b % 8, 3, if b = 0xF0 then 0x90 else 0x80, if b = 0xF4 then 0x8F else 0xBF⟩)
  else (['\uFFFD'], none)

/-- Reads one byte more. What has been begun and cannot go on with it is replaced. -/
def step : Option Begun → Nat → List Char × Option Begun
  | none, b => start b
  | some p, b =>
    if b < p.low ∨ p.high < b then ('\uFFFD' :: (start b).1, (start b).2)
    else if p.missing ≤ 1 then ([Char.ofNat (p.number * 64 + b % 64)], none)
    else ([], some ⟨p.number * 64 + b % 64, p.missing - 1, 0x80, 0xBF⟩)

/-- The characters of a row of bytes, in front of which something may have been begun. -/
def chars : Option Begun → List UInt8 → List Char
  | none, [] => []
  | some _, [] => ['\uFFFD']
  | begun, b :: bs => (step begun b.toNat).1 ++ chars (step begun b.toNat).2 bs

/-- The text that is shown for a name or path. -/
def lossy (s : OsString) : String := String.ofList (chars none s.bytes)

end OsString

end CrossRef
