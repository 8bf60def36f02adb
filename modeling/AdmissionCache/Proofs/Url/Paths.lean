import AdmissionCache.Url.Address

namespace AdmissionCache

namespace Percent

theorem mem_ofByte {b : UInt8} {x : Char} (member : x ∈ ofByte b) : x = '%' ∨ ∃ n < 16, x = hexDigit n := by
  have bound := b.toNat_lt
  simp only [ofByte, List.mem_cons, List.not_mem_nil, or_false] at member
  rcases member with percent | high | low
  · exact .inl percent
  · exact .inr ⟨_, by omega, high⟩
  · exact .inr ⟨_, by omega, low⟩

theorem mem_encode {encoded : Char → Bool} {cs : List Char} {x : Char} (member : x ∈ encode encoded cs) :
    (x ∈ cs ∧ (always x || encoded x) = false) ∨ x = '%' ∨ ∃ n < 16, x = hexDigit n := by
  obtain ⟨c, source, written⟩ := List.mem_flatMap.mp member
  unfold encodeChar at written
  split at written
  · obtain ⟨b, _, digit⟩ := List.mem_flatMap.mp written
    exact .inr (mem_ofByte digit)
  · rename_i plain
    rw [List.mem_singleton.mp written]
    exact .inl ⟨source, Bool.eq_false_iff.mpr plain⟩

theorem encode_eq_self {encoded : Char → Bool} {cs : List Char} (plain : ∀ c ∈ cs, (always c || encoded c) = false) :
    encode encoded cs = cs := by
  induction cs with
  | nil => rfl
  | cons c cs ih =>
    obtain ⟨first, rest⟩ := List.forall_mem_cons.mp plain
    have kept : encodeChar encoded c = [c] := if_neg (Bool.eq_false_iff.mp first)
    have same : encode encoded (c :: cs) = encodeChar encoded c ++ encode encoded cs := rfl
    rw [same, kept, ih rest, List.singleton_append]

/-- Where nothing was encoded, there is no percent sign. -/
theorem encode_eq_self_of_not_mem {encoded : Char → Bool} {cs : List Char} (none : '%' ∉ encode encoded cs) :
    encode encoded cs = cs := by
  refine encode_eq_self fun c member => Bool.eq_false_iff.mpr fun hit => none ?_
  obtain ⟨b, bytes, first⟩ := List.exists_cons_of_ne_nil (String.utf8EncodeChar_ne_nil (c := c))
  have percent : '%' ∈ encodeChar encoded c := by
    rw [encodeChar, if_pos hit, first]
    exact List.mem_flatMap.mpr ⟨b, List.mem_cons_self .., List.mem_cons_self ..⟩
  exact List.mem_flatMap.mpr ⟨c, member, percent⟩

end Percent

namespace Host

theorem not_mem_of_mem_splitAt {separator : Char → Bool} {cs part : List Char} (member : part ∈ splitAt separator cs) :
    ∀ c ∈ part, separator c = false := by
  induction cs generalizing part with
  | nil =>
    rw [List.mem_singleton.mp member]
    exact nofun
  | cons c cs ih =>
    rw [splitAt] at member
    cases found : separator c with
    | true =>
      rw [found, if_pos rfl] at member
      rcases List.mem_cons.mp member with rfl | later
      · exact nofun
      · exact ih later
    | false =>
      rw [found, if_neg Bool.false_ne_true] at member
      cases parts : splitAt separator cs with
      | nil =>
        rw [parts] at member
        rw [List.mem_singleton.mp member]
        exact List.forall_mem_cons.mpr ⟨found, nofun⟩
      | cons first later =>
        rw [parts] at member ih
        rcases List.mem_cons.mp member with rfl | other
        · exact List.forall_mem_cons.mpr ⟨found, ih (List.mem_cons_self ..)⟩
        · exact ih (List.mem_cons_of_mem _ other)

theorem splitAt_of_free {separator : Char → Bool} {cs : List Char} (free : ∀ c ∈ cs, separator c = false) :
    splitAt separator cs = [cs] := by
  induction cs with
  | nil => rfl
  | cons c cs ih =>
    obtain ⟨first, rest⟩ := List.forall_mem_cons.mp free
    rw [splitAt, first, if_neg Bool.false_ne_true, ih rest]

theorem splitAt_append {separator : Char → Bool} {front : List Char} {c : Char}
    (free : ∀ d ∈ front, separator d = false) (found : separator c = true) (rest : List Char) :
    splitAt separator (front ++ c :: rest) = front :: splitAt separator rest := by
  induction front with
  | nil => rw [List.nil_append, splitAt, found, if_pos rfl]
  | cons d front ih =>
    obtain ⟨first, later⟩ := List.forall_mem_cons.mp free
    rw [List.cons_append, splitAt, first, if_neg Bool.false_ne_true, ih later]

end Host

namespace Url

/-- A segment in its normal form. -/
structure NormalSegment (special : Bool) (segment : String) : Prop where
  encoded : encodeText inPath segment.toList = segment
  whole : ∀ c ∈ segment.toList, isSlash special c = false
  notDot : isDot segment = false
  notDoubleDot : isDoubleDot segment = false

theorem isSlash_slash (special : Bool) : isSlash special '/' = true := by cases special <;> decide

/-- What encoding writes stands for itself in a path. -/
theorem kept_of_mem_encode {cs : List Char} {x : Char} (member : x ∈ Percent.encode inPath cs) :
    (Percent.always x || inPath x) = false := by
  rcases Percent.mem_encode member with ⟨_, kept⟩ | rfl | ⟨n, bound, rfl⟩
  · exact kept
  · decide
  · have digits : ∀ n < 16, (Percent.always (Percent.hexDigit n) || inPath (Percent.hexDigit n)) = false := by decide
    exact digits n bound

/-- Encoding writes no slash. -/
theorem not_slash_of_mem_encode {special : Bool} {cs : List Char} {x : Char} (whole : ∀ c ∈ cs, isSlash special c = false)
    (member : x ∈ Percent.encode inPath cs) : isSlash special x = false := by
  rcases Percent.mem_encode member with ⟨source, _⟩ | rfl | ⟨n, bound, rfl⟩
  · exact whole x source
  · cases special <;> decide
  · have digits : ∀ special, ∀ n < 16, isSlash special (Percent.hexDigit n) = false := by decide
    exact digits special n bound

theorem normalSegment_encodeText {special : Bool} {cs : List Char} (whole : ∀ c ∈ cs, isSlash special c = false)
    (notDot : isDot (encodeText inPath cs) = false) (notDoubleDot : isDoubleDot (encodeText inPath cs) = false) :
    NormalSegment special (encodeText inPath cs) := by
  have written : (encodeText inPath cs).toList = Percent.encode inPath cs := String.toList_ofList
  refine ⟨?_, ?_, notDot, notDoubleDot⟩
  · rw [written, encodeText, Percent.encode_eq_self fun c => kept_of_mem_encode]
    rfl
  · rw [written]
    exact fun c => not_slash_of_mem_encode whole

theorem toList_toLower (s : String) : s.toLower.toList = s.toList.map Char.toLower := String.toList_map

theorem isDot_iff {s : String} :
    isDot s = true ↔ s.toList = ['.'] ∨ s.toList.map Char.toLower = ['%', '2', 'e'] := by
  rw [isDot, Bool.or_eq_true, beq_iff_eq, beq_iff_eq, ← String.toList_inj, ← String.toList_inj, toList_toLower]
  exact Iff.rfl

theorem isDoubleDot_iff {s : String} :
    isDoubleDot s = true ↔ s.toList.map Char.toLower ∈
      [['.', '.'], ['.', '%', '2', 'e'], ['%', '2', 'e', '.'], ['%', '2', 'e', '%', '2', 'e']] := by
  simp only [isDoubleDot, List.contains_iff_mem, List.mem_cons, List.not_mem_nil, ← String.toList_inj, toList_toLower]
  exact Iff.rfl

theorem normalSegment_empty (special : Bool) : NormalSegment special "" where
  encoded := rfl
  whole := nofun
  notDot := Bool.eq_false_iff.mpr (mt isDot_iff.mp (by decide))
  notDoubleDot := Bool.eq_false_iff.mpr (mt isDoubleDot_iff.mp (by decide))

theorem kept_of_isAlpha {a : Char} (letter : a.isAlpha = true) : (Percent.always a || inPath a) = false := by
  have range : 0x41 ≤ a.toNat ∧ a.toNat ≤ 0x7a := by
    have either : (decide (a.val ≥ 'A'.val ∧ a.val ≤ 'Z'.val) ||
        (decide (a.val ≥ 'a'.val) && decide (a.val ≤ 'z'.val))) = true := letter
    simp only [Bool.or_eq_true, Bool.and_eq_true, decide_eq_true_eq, UInt32.le_iff_toNat_le, ge_iff_le] at either
    have ends : 'A'.val.toNat = 0x41 ∧ 'Z'.val.toNat = 0x5a ∧ 'a'.val.toNat = 0x61 ∧ 'z'.val.toNat = 0x7a := by decide
    change 0x41 ≤ a.val.toNat ∧ a.val.toNat ≤ 0x7a
    omega
  have sometimes : Percent.always a = false := by
    simp only [Percent.always, Bool.or_eq_false_iff, decide_eq_false_iff_not]
    omega
  have outside : inPath a = false := by
    refine Bool.eq_false_iff.mpr fun hit => ?_
    simp only [inPath, inFragment, Bool.or_eq_true, List.contains_iff_mem, List.mem_cons, List.not_mem_nil,
      or_false] at hit
    rcases hit with (rfl | rfl | rfl | rfl | rfl) | (rfl | rfl | rfl | rfl) <;> exact absurd letter (by decide)
  rw [sometimes, outside, Bool.or_false]

theorem isSlash_of_isAlpha {special : Bool} {a : Char} (letter : a.isAlpha = true) : isSlash special a = false := by
  refine Bool.eq_false_iff.mpr fun hit => ?_
  simp only [isSlash, Bool.or_eq_true, Bool.and_eq_true, decide_eq_true_eq] at hit
  rcases hit with rfl | ⟨_, rfl⟩ <;> exact absurd letter (by decide)

theorem isDrive_iff {cs : List Char} :
    isDrive cs = true ↔ ∃ a b, cs = [a, b] ∧ a.isAlpha = true ∧ (b = ':' ∨ b = '|') := by
  unfold isDrive
  split
  · rename_i a b
    rw [Bool.and_eq_true, Bool.or_eq_true, decide_eq_true_iff, decide_eq_true_iff]
    exact ⟨fun drive => ⟨a, b, rfl, drive⟩, fun ⟨_, _, same, drive⟩ => by cases same; exact drive⟩
  · rename_i other
    exact ⟨nofun, fun ⟨a, b, same, _⟩ => absurd same (other a b)⟩

/-- The name of a drive, which ends in a colon. -/
def driveName (cs : List Char) : String := String.ofList (cs.take 1 ++ [':'])

theorem driveName_driveName {cs : List Char} (drive : isDrive cs = true) :
    driveName (driveName cs).toList = driveName cs := by
  obtain ⟨a, b, rfl, _⟩ := isDrive_iff.mp drive
  have name : (driveName [a, b]).toList = [a, ':'] := String.toList_ofList
  rw [name]
  rfl

theorem normalSegment_drive {special : Bool} {cs : List Char} (drive : isDrive cs = true) :
    NormalSegment special (driveName cs) := by
  obtain ⟨a, b, rfl, letter, _⟩ := isDrive_iff.mp drive
  have name : (driveName [a, b]).toList = [a, ':'] := String.toList_ofList
  have colon : Char.toLower ':' = ':' := by decide
  refine ⟨?_, ?_, ?_, ?_⟩
  · have kept : ∀ c ∈ [a, ':'], (Percent.always c || inPath c) = false :=
      List.forall_mem_cons.mpr ⟨kept_of_isAlpha letter, List.forall_mem_singleton.mpr (by decide)⟩
    rw [name, encodeText, Percent.encode_eq_self kept]
    rfl
  · rw [name]
    have colon : isSlash special ':' = false := by cases special <;> decide
    exact List.forall_mem_cons.mpr ⟨isSlash_of_isAlpha letter, List.forall_mem_singleton.mpr colon⟩
  · refine Bool.eq_false_iff.mpr (mt isDot_iff.mp ?_)
    rw [name]
    simp
  · refine Bool.eq_false_iff.mpr (mt isDoubleDot_iff.mp ?_)
    rw [name, List.map_cons, List.map_singleton, colon]
    simp

/-- An encoded text is a drive only if it was one before. -/
theorem isDrive_of_isDrive_encodeText {cs : List Char} (drive : isDrive (encodeText inPath cs).toList = true) :
    isDrive cs = true := by
  have written : (encodeText inPath cs).toList = Percent.encode inPath cs := String.toList_ofList
  rw [written] at drive
  obtain ⟨a, b, same, letter, mark⟩ := isDrive_iff.mp drive
  have none : '%' ∉ Percent.encode inPath cs := by
    rw [same, List.mem_cons, List.mem_singleton, not_or]
    refine ⟨?_, ?_⟩
    · rintro rfl
      exact absurd letter (by decide)
    · rintro rfl
      exact absurd mark (by decide)
  rwa [Percent.encode_eq_self_of_not_mem none] at drive

/-- The segments of a path in their normal form. A drive in front of a file path is named with a colon. -/
structure NormalPath (scheme : String) (parts : List String) : Prop where
  each : ∀ p ∈ parts, NormalSegment (isSpecial scheme) p
  drive : scheme = "file" → ∀ p, parts.head? = some p → isDrive p.toList = true → driveName p.toList = p

variable {scheme : String} {parts : List String}

theorem NormalPath.nil (scheme : String) : NormalPath scheme [] := ⟨nofun, fun _ => nofun⟩

theorem NormalPath.front {front : List String} (normal : NormalPath scheme parts) (part : front <+: parts) :
    NormalPath scheme front := by
  obtain ⟨rest, rfl⟩ := part
  refine ⟨fun p member => normal.each p (List.mem_append_left _ member), fun file p first => normal.drive file p ?_⟩
  rw [List.head?_append, first]
  rfl

theorem NormalPath.append {later : List String} (normal : NormalPath scheme parts)
    (segments : ∀ p ∈ later, NormalSegment (isSpecial scheme) p)
    (drive : scheme = "file" → parts = [] → ∀ p ∈ later, isDrive p.toList = true → driveName p.toList = p) :
    NormalPath scheme (parts ++ later) := by
  constructor
  · intro p member
    exact (List.mem_append.mp member).elim (normal.each p) (segments p)
  · intro file p first
    cases parts with
    | nil => exact drive file rfl p (List.mem_of_head? first)
    | cons own rest => exact normal.drive file p first

theorem NormalPath.append_empty (normal : NormalPath scheme parts) : NormalPath scheme (parts ++ [""]) :=
  normal.append (List.forall_mem_singleton.mpr (normalSegment_empty _)) fun _ _ =>
    List.forall_mem_singleton.mpr nofun

theorem front_of_shorten (scheme : String) (parts : List String) : shorten scheme parts <+: parts := by
  unfold shorten
  split
  · split
    · exact List.prefix_refl _
    · exact List.nil_prefix
  · exact List.dropLast_prefix _

theorem addSegments_normal {css : List (List Char)} (normal : NormalPath scheme parts)
    (whole : ∀ cs ∈ css, ∀ c ∈ cs, isSlash (isSpecial scheme) c = false) :
    NormalPath scheme (addSegments scheme css parts) := by
  induction css generalizing parts with
  | nil => exact normal
  | cons cs rest ih =>
    obtain ⟨first, later⟩ := List.forall_mem_cons.mp whole
    have ended {front : List String} (normal : NormalPath scheme front) :
        NormalPath scheme (front ++ if rest.isEmpty then [""] else []) := by
      split
      · exact normal.append_empty
      · rwa [List.append_nil]
    rw [addSegments]
    refine ih ?_ later
    split
    · exact ended (normal.front (front_of_shorten ..))
    rename_i notDoubleDot
    split
    · exact ended normal
    rename_i notDot
    have segment := normalSegment_encodeText first (Bool.eq_false_iff.mpr notDot) (Bool.eq_false_iff.mpr notDoubleDot)
    split
    · rename_i drive
      rw [Bool.and_eq_true] at drive
      exact (NormalPath.nil scheme).append (List.forall_mem_singleton.mpr (normalSegment_drive drive.2)) fun _ _ =>
        List.forall_mem_singleton.mpr fun _ => driveName_driveName drive.2
    · rename_i noDrive
      refine normal.append (List.forall_mem_singleton.mpr segment) fun file empty =>
        List.forall_mem_singleton.mpr fun drive => absurd ?_ noDrive
      rw [file, empty, isDrive_of_isDrive_encodeText drive]
      rfl

/-- The segments of every path that is read are in their normal form. -/
theorem segments_normal (scheme : String) (cs : List Char) : NormalPath scheme (segments scheme cs) := by
  unfold segments
  dsimp only
  split
  · exact NormalPath.nil scheme
  · exact addSegments_normal (NormalPath.nil scheme) fun part member => Host.not_mem_of_mem_splitAt member

/-- Segments in their normal form are added as they are. -/
theorem addSegments_of_normal {later : List String} (normal : NormalPath scheme (parts ++ later)) :
    addSegments scheme (later.map String.toList) parts = parts ++ later := by
  induction later generalizing parts with
  | nil => exact (List.append_nil _).symm
  | cons p later ih =>
    have segment := normal.each p (List.mem_append_right _ (List.mem_cons_self ..))
    rw [List.append_cons] at normal ⊢
    rw [← ih normal, List.map_cons, addSegments, segment.encoded, segment.notDoubleDot, segment.notDot]
    simp only [Bool.false_eq_true, if_false]
    split
    · rename_i drive
      simp only [Bool.and_eq_true, beq_iff_eq, List.isEmpty_iff] at drive
      obtain ⟨⟨file, empty⟩, drive⟩ := drive
      have named : driveName p.toList = p := normal.drive file p (by rw [empty]; rfl) drive
      have same : [String.ofList (p.toList.take 1 ++ [':'])] = parts ++ [p] := by
        rw [empty]
        exact congrArg (fun q => [q]) named
      rw [same]
    · rfl

/-- The text of a path. -/
def written (parts : List String) : String := String.join (parts.map ("/" ++ ·))

theorem pathText_of_segments {u : Url} (path : u.path = .segments parts) : u.pathText = written parts := by
  rw [pathText, path]
  rfl

theorem written_append (parts later : List String) : written (parts ++ later) = written parts ++ written later := by
  rw [written, List.map_append, String.join_append]
  rfl

theorem toList_written_cons (p : String) (parts : List String) :
    (written (p :: parts)).toList = '/' :: (p.toList ++ (written parts).toList) := by
  simp only [written, String.toList_join, List.map_cons, List.flatMap_cons, String.toList_append]
  rfl

theorem splitAt_written {special : Bool} {p : String}
    (whole : ∀ q ∈ p :: parts, ∀ c ∈ q.toList, isSlash special c = false) :
    Host.splitAt (isSlash special) (p.toList ++ (written parts).toList) = (p :: parts).map String.toList := by
  induction parts generalizing p with
  | nil =>
    have empty : (written []).toList = [] := rfl
    rw [empty, List.append_nil, Host.splitAt_of_free (whole p (List.mem_singleton_self _))]
    rfl
  | cons q parts ih =>
    obtain ⟨first, later⟩ := List.forall_mem_cons.mp whole
    rw [toList_written_cons, Host.splitAt_append first (isSlash_slash special), ih later]
    rfl

/-- A path that is not empty is read from its text as it is. -/
theorem segments_written (normal : NormalPath scheme parts) (nonempty : parts ≠ []) :
    segments scheme (written parts).toList = parts := by
  obtain ⟨p, rest, rfl⟩ := List.exists_cons_of_ne_nil nonempty
  rw [toList_written_cons, segments]
  simp only [isSlash_slash, if_true, List.isEmpty_cons, Bool.false_and, Bool.false_eq_true, if_false]
  rw [splitAt_written fun q member => (normal.each q member).whole]
  exact addSegments_of_normal normal

/-- Two paths with the same text are the same. -/
theorem written_inj {others : List String} (normal : NormalPath scheme parts) (otherNormal : NormalPath scheme others)
    (same : written parts = written others) : parts = others := by
  have text := congrArg String.toList same
  cases parts with
  | nil =>
    cases others with
    | nil => rfl
    | cons q others =>
      rw [toList_written_cons] at text
      cases text
  | cons p parts =>
    cases others with
    | nil =>
      rw [toList_written_cons] at text
      cases text
    | cons q others =>
      rw [← segments_written normal (List.cons_ne_nil _ _), same, segments_written otherNormal (List.cons_ne_nil _ _)]

/-- Only an empty segment at the end leaves a slash at the end. -/
theorem written_getLast? (normal : NormalPath scheme parts) :
    (written parts).toList.getLast? = some '/' ↔ parts.getLast? = some "" := by
  rcases parts.eq_nil_or_concat with rfl | ⟨front, p, rfl⟩
  · exact ⟨nofun, nofun⟩
  · have text : (written (front ++ [p])).toList = (written front).toList ++ '/' :: p.toList := by
      rw [written_append, String.toList_append, toList_written_cons]
      exact congrArg (fun cs => (written front).toList ++ '/' :: cs) (List.append_nil _)
    rw [List.concat_eq_append, text, List.getLast?_append, List.getLast?_cons, Option.some_or, List.getLast?_concat]
    cases last : p.toList.getLast? with
    | none =>
      have empty : p = "" := String.toList_inj.mp (List.getLast?_eq_none_iff.mp last)
      exact ⟨fun _ => congrArg some empty, fun _ => rfl⟩
    | some c =>
      have member : c ∈ p.toList := List.mem_of_getLast? last
      constructor
      · intro slash
        have whole := (normal.each p (by rw [List.concat_eq_append]; exact List.mem_concat_self)).whole c member
        rw [Option.getD_some, Option.some.injEq] at slash
        rw [slash, isSlash_slash] at whole
        cases whole
      · intro empty
        rw [Option.some.inj empty] at member
        cases member

theorem withAuthority?_path {cs : List Char} {u : Url} (read : withAuthority? scheme cs = some u) :
    u.scheme = scheme ∧ ∃ text, u.path = .segments (segments scheme text) := by
  unfold withAuthority? at read
  dsimp only at read
  split at read
  · cases read
  split at read
  · cases read
  obtain ⟨host, _, read⟩ := Option.bind_eq_some_iff.mp read
  obtain ⟨portNumber, _, read⟩ := Option.bind_eq_some_iff.mp read
  cases read
  exact ⟨rfl, _, rfl⟩

theorem file?_path {cs : List Char} {u : Url} (read : file? cs = some u) :
    u.scheme = "file" ∧ ∃ text, u.path = .segments (segments "file" text) := by
  unfold file? at read
  dsimp only at read
  split at read
  · split at read
    · split at read
      · cases read
        exact ⟨rfl, _, rfl⟩
      split at read
      · cases read
        exact ⟨rfl, _, rfl⟩
      obtain ⟨host, _, read⟩ := Option.bind_eq_some_iff.mp read
      split at read <;>
        · cases read
          exact ⟨rfl, _, rfl⟩
    · cases read
      exact ⟨rfl, _, rfl⟩
  · cases read
    exact ⟨rfl, _, rfl⟩

theorem parse?_normal {s : String} {u : Url} (parsed : parse? s = some u) {parts : List String}
    (path : u.path = .segments parts) : NormalPath u.scheme parts := by
  have normal {scheme : String} (read : u.scheme = scheme ∧ ∃ text, u.path = .segments (segments scheme text)) :
      NormalPath u.scheme parts := by
    obtain ⟨rfl, text, same⟩ := read
    cases path.symm.trans same
    exact segments_normal ..
  obtain ⟨⟨scheme, rest⟩, _, read⟩ := Option.bind_eq_some_iff.mp parsed
  dsimp only at read
  split at read
  · exact normal (file?_path read)
  split at read
  · exact normal (withAuthority?_path read)
  split at read
  · exact normal (withAuthority?_path read)
  · cases read
    dsimp only at path
    split at path
    · cases path
      exact segments_normal ..
    · cases path

end Url

end AdmissionCache
