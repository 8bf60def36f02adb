import AdmissionCache.Compression.Format
import AdmissionCache.Proofs.Compression.Bits

namespace AdmissionCache

section Pieces
variable {content : List UInt8} {limit k : Nat}

theorem take_of_last (last : (content.drop limit).isEmpty = true) : content.take limit = content :=
  List.take_of_length_le (List.drop_eq_nil_iff.mp (List.isEmpty_iff.mp last))

/-- What is left after a piece is shorter. -/
theorem length_drop_lt (positive : 0 < limit) (enough : content.length < k + 1)
    (more : (content.drop limit).isEmpty = false) : (content.drop limit).length < k := by
  rw [← Bool.not_eq_true, List.isEmpty_iff, List.drop_eq_nil_iff] at more
  rw [List.length_drop]
  omega

end Pieces

namespace Deflate

theorem storedBytes?_append (block rest : List UInt8) (out : Array UInt8) :
    storedBytes? block.length (Bits.ofBytes (block ++ rest)) out = some (Bits.ofBytes rest, ⟨out.toList ++ block⟩) := by
  induction block generalizing out with
  | nil =>
    rw [List.append_nil]
    rfl
  | cons b block ih =>
    have taken : Bits.take? 8 (Bits.ofBytes ([b] ++ (block ++ rest))) = some (b.toNat, Bits.ofBytes (block ++ rest)) :=
      Bits.take?_ofBytes [b] _ rfl
    have added : (out.push (.ofNat b.toNat)).toList ++ block = out.toList ++ b :: block := by
      rw [Array.toList_push, UInt8.ofNat_toNat, List.append_assoc, List.singleton_append]
    rw [List.cons_append, List.length_cons, storedBytes?, ← List.singleton_append, taken]
    exact (ih _).trans (by rw [added])

/-- What follows the kind of a stored block. -/
def storedBody (block : List UInt8) : List UInt8 :=
  Bits.toLittleEndian 2 block.length ++ Bits.toLittleEndian 2 (0xffff - block.length) ++ block

theorem stored?_body {block : List UInt8} (small : block.length ≤ storedLimit) (pad : List Bool) (short : pad.length < 8)
    (more : List UInt8) (out : Array UInt8) :
    stored? (pad ++ Bits.ofBytes (storedBody block ++ more)) out = some (Bits.ofBytes more, ⟨out.toList ++ block⟩) := by
  have padding : (pad ++ Bits.ofBytes (storedBody block ++ more)).length % 8 = pad.length := by
    rw [List.length_append, Bits.length_ofBytes]
    omega
  have bound : block.length ≤ 65535 := small
  have count := Bits.take?_ofBytes _ (Bits.toLittleEndian 2 (0xffff - block.length) ++ (block ++ more))
    (congrArg (8 * ·) (Bits.length_toLittleEndian 2 block.length))
  have check := Bits.take?_ofBytes _ (block ++ more)
    (congrArg (8 * ·) (Bits.length_toLittleEndian 2 (0xffff - block.length)))
  rw [Bits.littleEndian_toLittleEndian, Nat.mod_eq_of_lt (by omega)] at count check
  have whole : block.length + (0xffff - block.length) = 0xffff := by omega
  rw [stored?, padding, List.drop_left, storedBody, List.append_assoc, List.append_assoc]
  simp only [count, check, Option.bind_eq_bind, Option.bind_some, whole, if_true]
  exact storedBytes?_append block more out

/-- A block that is marked as the last one or not. -/
theorem blocks?_block (fuel : Nat) (last : Bool) {block : List UInt8} (small : block.length ≤ storedLimit)
    (more : List UInt8) (out : Array UInt8) :
    blocks? (fuel + 1) (Bits.ofBytes ((if last then 1 else 0) :: storedBody block ++ more)) out =
      if last then some (Bits.ofBytes more, ⟨out.toList ++ block⟩)
      else blocks? fuel (Bits.ofBytes more) ⟨out.toList ++ block⟩ := by
  have split : Bits.ofBytes ((if last then 1 else 0) :: storedBody block ++ more) =
      [last] ++ ([false, false] ++ (List.replicate 5 false ++ Bits.ofBytes (storedBody block ++ more))) := by
    cases last <;> rfl
  have first := Bits.take?_append [last]
    ([false, false] ++ (List.replicate 5 false ++ Bits.ofBytes (storedBody block ++ more))) rfl
  have second := Bits.take?_append [false, false] (List.replicate 5 false ++ Bits.ofBytes (storedBody block ++ more)) rfl
  have stored := stored?_body small (List.replicate 5 false) (by decide) more out
  have zero : Bits.toNat [false, false] = 0 := rfl
  rw [split, blocks?]
  simp only [List.length_cons, List.length_nil] at first second
  simp only [first, second, Option.bind_eq_bind, Option.bind_some, zero, if_true, stored]
  cases last with
  | false => rfl
  | true => rfl

theorem storedBlocks_succ (k : Nat) (content : List UInt8) :
    storedBlocks (k + 1) content =
      (if (content.drop storedLimit).isEmpty then 1 else 0) :: storedBody (content.take storedLimit) ++
        (if (content.drop storedLimit).isEmpty then [] else storedBlocks k (content.drop storedLimit)) := by
  simp only [storedBlocks, storedBody, List.append_assoc, List.nil_append, List.cons_append]

theorem blocks?_storedBlocks {k : Nat} {content : List UInt8} (enough : content.length < k) {fuel : Nat}
    (fuelled : (storedBlocks k content).length < fuel) (tail : List UInt8) (out : Array UInt8) :
    blocks? fuel (Bits.ofBytes (storedBlocks k content ++ tail)) out =
      some (Bits.ofBytes tail, ⟨out.toList ++ content⟩) := by
  induction k generalizing content fuel out with
  | zero => cases enough
  | succ k ih =>
    have small : (content.take storedLimit).length ≤ storedLimit := List.length_take_le ..
    obtain ⟨fuel, rfl⟩ := Nat.exists_eq_add_of_lt (Nat.zero_lt_of_lt fuelled)
    rw [storedBlocks_succ] at fuelled
    rw [Nat.zero_add, storedBlocks_succ, List.append_assoc, blocks?_block _ _ small]
    cases last : (content.drop storedLimit).isEmpty with
    | true => rw [if_pos rfl, if_pos rfl, List.nil_append, take_of_last last]
    | false =>
      have fewer := length_drop_lt (by decide) enough last
      rw [if_neg Bool.false_ne_true, if_neg Bool.false_ne_true, ih fewer ?_]
      · rw [List.append_assoc, List.take_append_drop]
      · rw [last, List.length_append, List.length_cons, if_neg (c := false = true) Bool.false_ne_true] at fuelled
        omega

/-- Content that is written is read back, whatever follows it. -/
theorem decode?_encode (content tail : List UInt8) : decode? (encode content ++ tail) = some (content, tail) := by
  have fuelled : (storedBlocks (content.length + 1) content).length <
      (Bits.ofBytes (encode content ++ tail)).length + 1 := by
    rw [Bits.length_ofBytes, encode, List.length_append]
    omega
  have read := blocks?_storedBlocks (Nat.lt_succ_self content.length) fuelled tail #[]
  have left : (encode content ++ tail).length - (Bits.ofBytes tail).length / 8 = (encode content).length := by
    rw [Bits.length_ofBytes, List.length_append]
    omega
  rw [← encode] at read
  simp only [decode?, read, Option.bind_eq_bind, Option.bind_some, left, List.drop_left]
  rfl

end Deflate

namespace Gzip

theorem crc32_lt (content : List UInt8) : Checksum.crc32 content < 256 ^ 4 := UInt32.toNat_lt _

/-- Content that is written is read back. -/
theorem decode?_encode (content : List UInt8) : decode? (encode content) = some content := by
  have header (rest : List UInt8) : skipHeader? ([0x1f, 0x8b, 0x08, 0, 0, 0, 0, 0, 0, 0xff] ++ rest) = some rest := by
    have fixed : Bits.takeBytes? 10 ([0x1f, 0x8b, 0x08, 0, 0, 0, 0, 0, 0, 0xff] ++ rest) = some (_, rest) :=
      Bits.takeBytes?_append _ rest rfl
    rw [skipHeader?, fixed]
    rfl
  have check := Bits.takeLittleEndian?_append 4 (Checksum.crc32 content) (Bits.toLittleEndian 4 content.length)
  have size := Bits.takeLittleEndian?_append 4 content.length []
  rw [List.append_nil] at size
  rw [Nat.mod_eq_of_lt (crc32_lt content)] at check
  have inside := Deflate.decode?_encode content
    (Bits.toLittleEndian 4 (Checksum.crc32 content) ++ Bits.toLittleEndian 4 content.length)
  rw [decode?, encode, List.append_assoc, List.append_assoc]
  simp only [header, inside, check, size, Option.bind_eq_bind, Option.bind_some]
  exact if_pos ⟨trivial, rfl⟩

end Gzip

namespace Zstd

/-- The header of written frames: blocks may be as large as they ever are. -/
def plainHeader : Header := ⟨blockLimit, none, false⟩

namespace FrameState

/-- A plain block that is marked as the last one or not. -/
theorem blocks?_plain (fuel : Nat) (last : Bool) {block : List UInt8} (small : block.length ≤ blockLimit)
    (more : List UInt8) (s : FrameState) :
    blocks? plainHeader (fuel + 1) s
        (Bits.toLittleEndian 3 (block.length * 8 + if last then 1 else 0) ++ block ++ more) =
      if last then some ({ s with content := s.content ++ block }, more)
      else blocks? plainHeader fuel { s with content := s.content ++ block } more := by
  have bound : block.length ≤ 131072 := small
  have mark : (if last then 1 else 0) < 2 := by cases last <;> decide
  have size := Bits.takeLittleEndian?_append 3 (block.length * 8 + if last then 1 else 0) (block ++ more)
  have kind : (block.length * 8 + if last then 1 else 0) / 2 % 4 = 0 := by omega
  have count : (block.length * 8 + if last then 1 else 0) / 8 = block.length := by omega
  have body : block? plainHeader 0 block.length s (block ++ more) =
      some ({ s with content := s.content ++ block }, more) := by
    simp only [block?, Bits.takeBytes?_append block more rfl, Option.bind_eq_bind, Option.bind_some]
    exact if_neg (Nat.not_lt.mpr small)
  have parity : (block.length * 8 + if last then 1 else 0) % 2 = if last then 1 else 0 := by omega
  rw [Nat.mod_eq_of_lt (by omega)] at size
  rw [List.append_assoc, blocks?]
  simp only [size, kind, count, body, parity, Option.bind_eq_bind, Option.bind_some]
  cases last with
  | false => rfl
  | true => rfl

theorem blocks?_plainBlocks {k : Nat} {content : List UInt8} (enough : content.length < k) {fuel : Nat}
    (fuelled : (plainBlocks k content).length < fuel) (s : FrameState) :
    ∃ s', blocks? plainHeader fuel s (plainBlocks k content) = some (s', []) ∧
      s'.content.toList = s.content.toList ++ content := by
  induction k generalizing content fuel s with
  | zero => cases enough
  | succ k ih =>
    have small : (content.take blockLimit).length ≤ blockLimit := List.length_take_le ..
    obtain ⟨fuel, rfl⟩ := Nat.exists_eq_add_of_lt (Nat.zero_lt_of_lt fuelled)
    rw [plainBlocks] at fuelled
    rw [Nat.zero_add, plainBlocks, blocks?_plain _ _ small]
    cases last : (content.drop blockLimit).isEmpty with
    | true =>
      rw [if_pos rfl, if_pos rfl, take_of_last last]
      exact ⟨_, rfl, Array.toList_appendList⟩
    | false =>
      have fewer := length_drop_lt (by decide) enough last
      have less : (plainBlocks k (content.drop blockLimit)).length < fuel := by
        simp only [last, List.length_append, if_neg Bool.false_ne_true, Bits.length_toLittleEndian] at fuelled
        omega
      rw [if_neg Bool.false_ne_true, if_neg Bool.false_ne_true]
      obtain ⟨s', read, held⟩ := ih fewer less { s with content := s.content ++ content.take blockLimit }
      refine ⟨s', read, ?_⟩
      rw [held, Array.toList_appendList, List.append_assoc, List.take_append_drop]

end FrameState

theorem frame?_plain (content : List UInt8) :
    frame? ([0x00, 0x38] ++ plainBlocks (content.length + 1) content) = some (content, []) := by
  have header (rest : List UInt8) : Header.ofBytes? ([0x00, 0x38] ++ rest) = some (plainHeader, rest) := rfl
  obtain ⟨s, read, held⟩ := FrameState.blocks?_plainBlocks (Nat.lt_succ_self content.length)
    (Nat.lt_succ_self (plainBlocks (content.length + 1) content).length) {}
  simp only [frame?, header, read, Option.bind_eq_bind, Option.bind_some]
  rw [held]
  rfl

/-- A single frame. -/
theorem frames?_frame {rest content : List UInt8} (read : frame? rest = some (content, [])) (fuel : Nat) :
    frames? (fuel + 1) (magic ++ rest) = some content := by
  have start : Bits.takeBytes? 4 (0x28 :: ([0xb5, 0x2f, 0xfd] ++ rest)) = some (magic, rest) :=
    Bits.takeBytes?_append magic rest rfl
  have ending : frames? fuel [] = some [] := by cases fuel <;> rfl
  change frames? (fuel + 1) (0x28 :: ([0xb5, 0x2f, 0xfd] ++ rest)) = _
  rw [frames?]
  · simp only [start, read, ending, if_true, Option.bind_eq_bind, Option.bind_some, List.append_nil]
  · exact nofun

/-- Content that is written is read back. -/
theorem decode?_encode (content : List UInt8) : decode? (encode content) = some content := by
  have long (rest : List UInt8) : (magic ++ rest).length = rest.length + 3 + 1 := by simp [magic]
  rw [decode?, encode, List.append_assoc, long]
  exact frames?_frame (frame?_plain content) _

end Zstd

end AdmissionCache
