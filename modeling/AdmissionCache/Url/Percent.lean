namespace AdmissionCache.Percent

def hexDigit (n : Nat) : Char :=
  if n < 10 then Char.ofNat (0x30 + n) else Char.ofNat (0x41 + (n - 10))

def hexValue? (b : UInt8) : Option Nat :=
  if 0x30 ≤ b && b ≤ 0x39 then some (b.toNat - 0x30)
  else if 0x61 ≤ b && b ≤ 0x66 then some (b.toNat - 0x61 + 10)
  else if 0x41 ≤ b && b ≤ 0x46 then some (b.toNat - 0x41 + 10)
  else none

def ofByte (b : UInt8) : List Char := ['%', hexDigit (b.toNat / 16), hexDigit (b.toNat % 16)]

/-- Control characters and characters beyond ASCII are encoded wherever they stand. -/
def always (c : Char) : Bool := c.toNat < 0x20 || 0x7e < c.toNat

/-- Encodes the characters of a set, byte by byte of their UTF-8 form. -/
def encodeChar (encoded : Char → Bool) (c : Char) : List Char :=
  if always c || encoded c then (String.utf8EncodeChar c).flatMap ofByte else [c]

def encode (encoded : Char → Bool) (cs : List Char) : List Char :=
  cs.flatMap (encodeChar encoded)

/-- Decodes bytes; a percent sign without two hexadecimal digits stays as it is. -/
def decode : List UInt8 → List UInt8
  | 0x25 :: a :: b :: rest =>
    match hexValue? a, hexValue? b with
    | some x, some y => UInt8.ofNat (x * 16 + y) :: decode rest
    | _, _ => 0x25 :: decode (a :: b :: rest)
  | b :: rest => b :: decode rest
  | [] => []
termination_by bytes => bytes.length

end AdmissionCache.Percent
