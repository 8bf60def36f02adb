namespace AdmissionCache.Bits

/-- The bits of a byte, least significant first. -/
def ofByte (b : UInt8) : List Bool := (List.range 8).map b.toNat.testBit

/-- The bits of a byte string, each byte from its least significant bit. -/
def ofBytes (bytes : List UInt8) : List Bool := bytes.flatMap ofByte

/-- The number whose bits are given, least significant first. -/
def toNat : List Bool → Nat
  | [] => 0
  | b :: rest => b.toNat + 2 * toNat rest

/-- Takes `n` bits, least significant first. -/
def take? (n : Nat) (bits : List Bool) : Option (Nat × List Bool) :=
  let front := bits.take n
  if front.length = n then some (toNat front, bits.drop n) else none

/-- Takes `n` bits, most significant first. -/
def takeHigh? (n : Nat) (bits : List Bool) : Option (Nat × List Bool) :=
  let front := bits.take n
  if front.length = n then some (front.foldl (fun acc b => 2 * acc + b.toNat) 0, bits.drop n)
  else none

/-- The bits of a string that is read from its end: the last byte first, each byte from
its most significant bit. The topmost bit set in the last byte marks the start and is no
content; a last byte of zero has none. -/
def reversed? (bytes : List UInt8) : Option (List Bool) :=
  match bytes.reverse with
  | [] => none
  | last :: front =>
    match (ofByte last).reverse.dropWhile (!·) with
    | [] => none
    | _ :: content => some (content ++ front.flatMap fun b => (ofByte b).reverse)

/-- The number that bytes stand for, least significant first. -/
def littleEndian : List UInt8 → Nat
  | [] => 0
  | b :: rest => b.toNat + 256 * littleEndian rest

/-- The `count` lowest bytes of a number, least significant first. -/
def toLittleEndian : Nat → Nat → List UInt8
  | 0, _ => []
  | count + 1, n => UInt8.ofNat n :: toLittleEndian count (n / 256)

/-- Takes `n` bytes off the front. -/
def takeBytes? (n : Nat) (bytes : List UInt8) : Option (List UInt8 × List UInt8) :=
  let front := bytes.take n
  if front.length = n then some (front, bytes.drop n) else none

/-- Takes a little-endian number of `n` bytes off the front. -/
def takeLittleEndian? (n : Nat) (bytes : List UInt8) : Option (Nat × List UInt8) :=
  (takeBytes? n bytes).map fun (front, rest) => (littleEndian front, rest)

/-- Appends `length` bytes, each equal to the byte `distance` back. -/
def copyBack : Nat → Nat → Array UInt8 → Array UInt8
  | 0, _, out => out
  | length + 1, distance, out =>
    copyBack length distance (out.push ((out[out.size - distance]?).getD 0))

end AdmissionCache.Bits
