import AdmissionCache.Compression.Bits

namespace AdmissionCache.Checksum

/-- One bit of a CRC-32 over the reflected polynomial. -/
def crcBit (r : UInt32) : UInt32 := if r &&& 1 = 1 then (r >>> 1) ^^^ 0xedb88320 else r >>> 1

def crcByte (r : UInt32) (b : UInt8) : UInt32 :=
  (List.range 8).foldl (fun r _ => crcBit r) (r ^^^ b.toUInt32)

def crc32 (bytes : List UInt8) : Nat := ((bytes.foldl crcByte 0xffffffff) ^^^ 0xffffffff).toNat

namespace XxHash

def prime1 : UInt64 := 0x9e3779b185ebca87

def prime2 : UInt64 := 0xc2b2ae3d27d4eb4f

def prime3 : UInt64 := 0x165667b19e3779f9

def prime4 : UInt64 := 0x85ebca77c2b2ae63

def prime5 : UInt64 := 0x27d4eb2f165667c5

def rotate (x : UInt64) (n : UInt64) : UInt64 := (x <<< n) ||| (x >>> (64 - n))

def round (acc lane : UInt64) : UInt64 := rotate (acc + lane * prime2) 31 * prime1

def mergeRound (acc lane : UInt64) : UInt64 := (acc ^^^ round 0 lane) * prime1 + prime4

def lane (bytes : List UInt8) : UInt64 := .ofNat (Bits.littleEndian bytes)

/-- The four running sums after all full stripes of 32 bytes, and the bytes left. -/
def stripes (a b c d : UInt64) (bytes : List UInt8) :
    (UInt64 × UInt64 × UInt64 × UInt64) × List UInt8 :=
  if h : 32 ≤ bytes.length then
    let part (i : Nat) := lane ((bytes.drop (8 * i)).take 8)
    stripes (round a (part 0)) (round b (part 1)) (round c (part 2)) (round d (part 3))
      (bytes.drop 32)
  else ((a, b, c, d), bytes)
termination_by bytes.length
decreasing_by simp only [List.length_drop]; omega

def finishBytes (h : UInt64) : List UInt8 → UInt64
  | [] => h
  | b :: rest => finishBytes (rotate (h ^^^ (b.toUInt64 * prime5)) 11 * prime1) rest

def finishWord (h : UInt64) (bytes : List UInt8) : UInt64 :=
  if 4 ≤ bytes.length then
    finishBytes (rotate (h ^^^ (lane (bytes.take 4) * prime1)) 23 * prime2 + prime3) (bytes.drop 4)
  else finishBytes h bytes

def finish (h : UInt64) (bytes : List UInt8) : UInt64 :=
  if _more : 8 ≤ bytes.length then
    finish (rotate (h ^^^ round 0 (lane (bytes.take 8))) 27 * prime1 + prime4) (bytes.drop 8)
  else finishWord h bytes
termination_by bytes.length
decreasing_by simp only [List.length_drop]; omega

def avalanche (h : UInt64) : UInt64 :=
  let h := (h ^^^ (h >>> 33)) * prime2
  let h := (h ^^^ (h >>> 29)) * prime3
  h ^^^ (h >>> 32)

end XxHash

open XxHash in
/-- The 64-bit xxHash with seed zero. -/
def xxHash64 (bytes : List UInt8) : Nat :=
  let size : UInt64 := .ofNat bytes.length
  let (start, rest) :=
    if 32 ≤ bytes.length then
      let ((a, b, c, d), rest) := stripes (prime1 + prime2) prime2 0 (0 - prime1) bytes
      let joined := rotate a 1 + rotate b 7 + rotate c 12 + rotate d 18
      (mergeRound (mergeRound (mergeRound (mergeRound joined a) b) c) d, rest)
    else (prime5, bytes)
  (avalanche (finish (start + size) rest)).toNat

end AdmissionCache.Checksum
