import AdmissionCache.Compression.Gzip
import AdmissionCache.Compression.Zstd.Frame

namespace AdmissionCache

/-- How a payload is compressed, where a level says how much effort to spend on it. -/
inductive Compression
  | plain
  | zstd (level : Int)
  | gzip
  deriving DecidableEq, Repr

/-- Writers and readers of the compressed formats. -/
structure Codecs where
  zstd : Int → List UInt8 → List UInt8
  unzstd? : List UInt8 → Option (List UInt8)
  gzip : List UInt8 → List UInt8
  gunzip? : List UInt8 → Option (List UInt8)

/-- The codecs in use. Their writers store content as it is, at every level. -/
def Codecs.storing : Codecs where
  zstd _ := Zstd.encode
  unzstd? := Zstd.decode?
  gzip := Gzip.encode
  gunzip? := Gzip.decode?

/-- Why a compressed payload cannot be read. -/
inductive CompressionFault
  | badZstd
  | badGzip
  deriving DecidableEq, Repr

namespace Compression

/-- Recognises a payload by its magic bytes. -/
def detect (payload : List UInt8) : Compression :=
  if Zstd.magic.isPrefixOf payload then .zstd 0
  else if Gzip.magic.isPrefixOf payload then .gzip
  else .plain

def encodeWith (codecs : Codecs) : Compression → List UInt8 → List UInt8
  | .plain, content => content
  | .zstd level, content => codecs.zstd level content
  | .gzip, content => codecs.gzip content

/-- The content of a payload; one layer of compression is removed. -/
def decodeWith (codecs : Codecs) (payload : List UInt8) : Except CompressionFault (List UInt8) :=
  match detect payload with
  | .plain => .ok payload
  | .zstd _ =>
    match codecs.unzstd? payload with
    | some content => .ok content
    | none => .error .badZstd
  | .gzip =>
    match codecs.gunzip? payload with
    | some content => .ok content
    | none => .error .badGzip

def encode : Compression → List UInt8 → List UInt8 := encodeWith .storing

def decode : List UInt8 → Except CompressionFault (List UInt8) := decodeWith .storing

end Compression

end AdmissionCache
