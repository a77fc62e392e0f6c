import DocIndex.Json.Printer
import DocIndex.Storage.Error

/-! # Encryption keys

A key is 32 bytes, written as 64 hexadecimal digits with blanks around them allowed. It never shows in
texts about it.
-/

namespace DocIndex

structure EncryptionKey where
  bytes : List UInt8
  deriving DecidableEq

namespace EncryptionKey

def size : Nat := 32

/-- Blanks that may surround a key. -/
def isBlank (c : Char) : Bool :=
  let n := c.toNat
  (9 ≤ n && n ≤ 13) || n == 0x20 || n == 0x85 || n == 0xa0 || n == 0x1680 ||
    (0x2000 ≤ n && n ≤ 0x200a) || n == 0x2028 || n == 0x2029 || n == 0x202f || n == 0x205f || n == 0x3000

def trim (cs : List Char) : List Char := ((cs.dropWhile isBlank).reverse.dropWhile isBlank).reverse

def digit? (b : UInt8) : Option UInt8 :=
  if 48 ≤ b ∧ b ≤ 57 then some (b - 48)
  else if 97 ≤ b ∧ b ≤ 102 then some (b - 87)
  else if 65 ≤ b ∧ b ≤ 70 then some (b - 55)
  else none

/-- A byte that is no digit, with its position. -/
def badDigit (b : UInt8) (position : Nat) : String :=
  "Invalid character '" ++ String.ofList (Json.outlineChar '\'' (Char.ofNat b.toNat)) ++ "' at position " ++
    toString position

/-- The bytes that pairs of digits stand for; `position` counts the digits before. -/
def decode (position : Nat) : List UInt8 → Except String (List UInt8)
  | [] => .ok []
  | [_] => .error "Odd number of digits"
  | a :: b :: rest =>
    match digit? a, digit? b with
    | some high, some low => (decode (position + 2) rest).map ((16 * high + low) :: ·)
    | none, _ => .error (badDigit a position)
    | some _, none => .error (badDigit b (position + 1))

/-- Read a key from hexadecimal digits. Their number is checked first, then each of them, then the size. -/
def ofHex? (text : String) : Except StorageError EncryptionKey :=
  let digits := (String.ofList (trim text.toList)).toUTF8.toList
  let bytes := if digits.length % 2 = 1 then .error "Odd number of digits" else decode 0 digits
  match bytes with
  | .error reason => .error (.key ("Key is not valid hex: " ++ reason))
  | .ok bytes =>
    if bytes.length = size then .ok ⟨bytes⟩
    else .error (.key ("Key must be " ++ toString size ++ " bytes, got " ++ toString bytes.length))

def hex (k : EncryptionKey) : String :=
  String.ofList (k.bytes.flatMap fun b => [Json.hexDigit (b.toNat / 16), Json.hexDigit b.toNat])

def shown (_ : EncryptionKey) : String := "EncryptionKey(<redacted>)"

end EncryptionKey

end DocIndex
