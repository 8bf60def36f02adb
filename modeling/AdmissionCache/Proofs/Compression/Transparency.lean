import AdmissionCache.Proofs.Compression.Storing
import AdmissionCache.Shared.Store

namespace AdmissionCache

/-- What the codecs promise: what is written starts with the magic bytes of the format and is read back. -/
structure Codecs.Faithful (codecs : Codecs) : Prop where
  zstd_magic : ∀ level content, Zstd.magic <+: codecs.zstd level content
  unzstd_zstd : ∀ level content, codecs.unzstd? (codecs.zstd level content) = some content
  gzip_magic : ∀ content, Gzip.magic <+: codecs.gzip content
  gunzip_gzip : ∀ content, codecs.gunzip? (codecs.gzip content) = some content

theorem Codecs.storing_faithful : storing.Faithful where
  zstd_magic _ _ := ⟨_, (List.append_assoc ..).symm⟩
  unzstd_zstd _ := Zstd.decode?_encode
  gzip_magic _ := ⟨_, rfl⟩
  gunzip_gzip := Gzip.decode?_encode

namespace Compression

theorem detect_zstd {payload : List UInt8} (starts : Zstd.magic <+: payload) : detect payload = .zstd 0 :=
  if_pos (List.isPrefixOf_iff_prefix.mpr starts)

/-- The two formats have different magic bytes. -/
theorem detect_gzip {payload : List UInt8} (starts : Gzip.magic <+: payload) : detect payload = .gzip := by
  obtain ⟨rest, rfl⟩ := starts
  rfl

theorem detect_plain {first : UInt8} (rest : List UInt8) (noZstd : first ≠ 0x28) (noGzip : first ≠ 0x1f) :
    detect (first :: rest) = .plain := by
  have zstd : Zstd.magic.isPrefixOf (first :: rest) = false := by
    simp [Zstd.magic, List.isPrefixOf, noZstd.symm]
  have gzip : Gzip.magic.isPrefixOf (first :: rest) = false := by
    simp [Gzip.magic, List.isPrefixOf, noGzip.symm]
  rw [detect, zstd, gzip]
  rfl

/-- One layer is removed, and it is the one that was put around the content. -/
theorem decodeWith_encodeWith {codecs : Codecs} (faithful : codecs.Faithful) (c : Compression)
    (packed : c ≠ .plain) (content : List UInt8) : decodeWith codecs (encodeWith codecs c content) = .ok content := by
  cases c with
  | plain => exact absurd rfl packed
  | zstd level =>
    rw [decodeWith, encodeWith, detect_zstd (faithful.zstd_magic level content)]
    simp only [faithful.unzstd_zstd level content]
  | gzip =>
    rw [decodeWith, encodeWith, detect_gzip (faithful.gzip_magic content)]
    simp only [faithful.gunzip_gzip content]

/-- What is written with the codecs in use is read back by them. -/
theorem decode_encode {c : Compression} (packed : c ≠ .plain) (content : List UInt8) :
    decode (c.encode content) = .ok content := decodeWith_encodeWith Codecs.storing_faithful c packed content

end Compression

/-- No JSON text starts with the first byte of one of the magics. -/
theorem Json.ofBytes?_magic (rest : List UInt8) :
    Json.ofBytes? (0x28 :: rest) = none ∧ Json.ofBytes? (0x1f :: rest) = none := ⟨rfl, rfl⟩

theorem ProjectConfig.detect_of_ofBytes {content : List UInt8} {config : ProjectConfig}
    (accepted : ofBytes content = .ok config) : Compression.detect content = .plain := by
  cases content with
  | nil => rfl
  | cons first rest =>
    refine Compression.detect_plain rest ?_ ?_
    · rintro rfl
      rw [ofBytes, (Json.ofBytes?_magic rest).1] at accepted
      cases accepted
    · rintro rfl
      rw [ofBytes, (Json.ofBytes?_magic rest).2] at accepted
      cases accepted

/-- The text of a configuration is decoded to itself, compressed or not. -/
theorem ProjectConfig.decodeWith_encodeWith {codecs : Codecs} (faithful : codecs.Faithful) {content : List UInt8}
    {config : ProjectConfig} (accepted : ofBytes content = .ok config) (c : Compression) :
    Compression.decodeWith codecs (c.encodeWith codecs content) = .ok content := by
  by_cases plain : c = .plain
  · rw [plain, Compression.encodeWith, Compression.decodeWith, detect_of_ofBytes accepted]
  · exact Compression.decodeWith_encodeWith faithful c plain content

/-- Whatever the codecs are, as long as they are faithful: compressed content is read back as it was, and a
configuration is the same whether its text is stored as it is or compressed. -/
theorem compression_transparent (codecs : Codecs) (faithful : codecs.Faithful) :
    (∀ content, Compression.decodeWith codecs (Compression.gzip.encodeWith codecs content) = .ok content) ∧
    (∀ level content,
      Compression.decodeWith codecs ((Compression.zstd level).encodeWith codecs content) = .ok content) ∧
    ∀ (p : List UInt8) (config : ProjectConfig), ProjectConfig.ofBytes p = .ok config →
      ∀ (c : Compression) (s : SharedStore) (content : StoreContent) (key : ProjectKey),
        content (s.payloadEntry key) = .ok (some (c.encodeWith codecs p)) →
        s.configWith codecs content key = .ok (some config) := by
  refine ⟨Compression.decodeWith_encodeWith faithful .gzip nofun,
    fun level => Compression.decodeWith_encodeWith faithful (.zstd level) nofun, ?_⟩
  intro p config accepted c s content key stored
  have decoded := ProjectConfig.decodeWith_encodeWith faithful accepted c
  have read : SharedStore.configOf codecs (c.encodeWith codecs p) = .ok config := by
    simp only [SharedStore.configOf, decoded, accepted]
  rw [SharedStore.configWith, stored]
  exact congrArg (Except.map some) read

/-- Codecs that write one text as the usual encoders do: with a fixed code for gzip, and with a window of
two megabytes for zstd. -/
def Codecs.usual : Codecs where
  zstd level content :=
    if level = 3 ∧ content = [0x7b, 0x7d] then [0x28, 0xb5, 0x2f, 0xfd, 0x00, 0x58, 0x11, 0x00, 0x00, 0x7b, 0x7d]
    else Zstd.encode content
  unzstd? := Zstd.decode?
  gzip content :=
    if content = [0x7b, 0x7d] then
      [0x1f, 0x8b, 0x08, 0, 0, 0, 0, 0, 0, 0xff, 0xab, 0xae, 0x05, 0x00, 0x43, 0xbf, 0xa6, 0xa3, 2, 0, 0, 0]
    else Gzip.encode content
  gunzip? := Gzip.decode?

theorem Codecs.usual_faithful : usual.Faithful where
  zstd_magic level content := by
    simp only [usual]
    split
    · exact ⟨_, rfl⟩
    · exact storing_faithful.zstd_magic level content
  unzstd_zstd level content := by
    simp only [usual]
    split
    · rename_i special
      rw [special.2]
      decide +kernel
    · exact storing_faithful.unzstd_zstd level content
  gzip_magic content := by
    simp only [usual]
    split
    · exact ⟨_, rfl⟩
    · exact storing_faithful.gzip_magic content
  gunzip_gzip content := by
    simp only [usual]
    split
    · rename_i special
      rw [special]
      decide +kernel
    · exact storing_faithful.gunzip_gzip content

/-- The empty configuration, stored compressed in either way. -/
theorem empty_configuration_in_both_formats :
    let store : SharedStore := ⟨"p"⟩
    let holding (payload : List UInt8) : StoreContent := fun _ => .ok (some payload)
    store.configWith .usual (holding [0x1f, 0x8b, 0x08, 0, 0, 0, 0, 0, 0, 0xff, 0xab, 0xae, 0x05, 0x00, 0x43, 0xbf,
      0xa6, 0xa3, 2, 0, 0, 0]) "a" = .ok (some ⟨[]⟩) ∧
      store.configWith .usual (holding [0x28, 0xb5, 0x2f, 0xfd, 0x00, 0x58, 0x11, 0x00, 0x00, 0x7b, 0x7d]) "a" =
        .ok (some ⟨[]⟩) := by
  intro store holding
  obtain ⟨_, _, stored⟩ := compression_transparent .usual Codecs.usual_faithful
  have accepted : ProjectConfig.ofBytes [0x7b, 0x7d] = .ok ⟨[]⟩ := rfl
  exact ⟨stored _ _ accepted .gzip store (holding _) "a" rfl, stored _ _ accepted (.zstd 3) store (holding _) "a" rfl⟩

end AdmissionCache
