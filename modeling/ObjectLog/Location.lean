import ObjectLog.Format.Plan
import ObjectLog.Lib.Paths

/-!
# Where objects are stored

The physical paths of a log, and the classification of listed paths. Paths are those of the
object store: texts of segments between slashes. The texts that the log writes consist of
letters, digits, dots, hyphens and underscores, which the store keeps as they are. What it
reads is parsed by libraries that accept more than the log writes, so each parsed value is
written again and compared.
-/

namespace ObjectLog

/-- The slash. -/
abbrev pathDelimiter : UInt8 := 47

abbrev Location := Paths.Path pathDelimiter

abbrev Segment := Paths.Segment pathDelimiter

/-! ## Hexadecimal texts -/

/-- The lower-case digit of a number below sixteen. -/
def hexDigit (n : Nat) : UInt8 := if n < 10 then UInt8.ofNat (48 + n) else UInt8.ofNat (87 + n)

/-- The value of a digit in either case. -/
def hexValue (b : UInt8) : Option Nat :=
  if 48 ≤ b ∧ b ≤ 57 then some (b.toNat - 48)
  else if 97 ≤ b ∧ b ≤ 102 then some (b.toNat - 87)
  else if 65 ≤ b ∧ b ≤ 70 then some (b.toNat - 55)
  else none

/-- `hex::encode`. -/
def hexEncode (bytes : Bytes) : Bytes :=
  bytes.flatMap fun b => [hexDigit (b.toNat / 16), hexDigit (b.toNat % 16)]

/-- `hex::decode`: pairs of digits in either case. -/
def hexDecode : Bytes → Option Bytes
  | [] => some []
  | [_] => none
  | high :: low :: rest => do
      let h ← hexValue high
      let l ← hexValue low
      return UInt8.ofNat (16 * h + l) :: (← hexDecode rest)

/-- `Digest::fmt`. -/
def Digest.toText (d : Digest) : Bytes := hexEncode d.toBytes

/-- `Digest::from_str`. -/
def Digest.fromStr (value : Bytes) : Except Error Digest := do
  let decoded ← okOr (hexDecode value) .invalidDigest
  if decoded.length = 32 then return ⟨Fin.ofNat _ (Cbor.ofBigEndian decoded)⟩
  else throw .invalidDigest

/-! ## Identities as texts -/

/-- The text of `Uuid::simple`. -/
def Uuid.simple (u : Uuid) : Bytes := hexEncode (Uuid.toBytes u)

/-- `parse_simple` of the UUID library: thirty-two digits. -/
def Uuid.parseDigits (value : Bytes) : Option Uuid := do
  let decoded ← hexDecode value
  if decoded.length = 16 then return Fin.ofNat _ (Cbor.ofBigEndian decoded) else none

/-- `parse_hyphenated` of the UUID library: digits in groups of 8, 4, 4, 4 and 12. -/
def Uuid.parseHyphenated (value : Bytes) : Option Uuid :=
  if value.length = 36 ∧ [8, 13, 18, 23].all fun i => value[i]? = some 45 then
    Uuid.parseDigits (value.take 8 ++ (value.drop 9).take 4 ++ (value.drop 14).take 4 ++
      (value.drop 19).take 4 ++ value.drop 24)
  else none

/-- `Uuid::parse_str`: plain, hyphenated, in braces or as a URN. -/
def Uuid.parseStr (value : Bytes) : Option Uuid :=
  match value.length with
  | 32 => Uuid.parseDigits value
  | 36 => Uuid.parseHyphenated value
  | 38 =>
      if value.head? = some 123 ∧ value.getLast? = some 125 then
        Uuid.parseHyphenated (value.drop 1).dropLast
      else none
  | 45 =>
      if value.take 9 = textBytes "urn:uuid:" then Uuid.parseHyphenated (value.drop 9) else none
  | _ => none

/-- `parse_simple_uuid`. -/
def parseSimpleUuid (value : Bytes) : Option Uuid := do
  let uuid ← Uuid.parseStr value
  if Uuid.simple uuid = value then return uuid else none

/-! ## Segments -/

/-- `ImmutableKind::segment`. -/
def ImmutableKind.segment : ImmutableKind → String
  | .commit => "commits"
  | .blob => "blobs"
  | .node => "nodes"
  | .checkpoint => "checkpoints"
  | .collectionPlan => "collection-plans"

/-- `ImmutableKind::from_segment`. -/
def ImmutableKind.fromSegment (value : Bytes) : Option ImmutableKind :=
  if value = textBytes "commits" then some .commit
  else if value = textBytes "blobs" then some .blob
  else if value = textBytes "nodes" then some .node
  else if value = textBytes "checkpoints" then some .checkpoint
  else if value = textBytes "collection-plans" then some .collectionPlan
  else none

theorem hexDigit_ne_delimiter : ∀ n < 16, hexDigit n ≠ pathDelimiter := by decide

theorem hexEncode_free (bytes : Bytes) : pathDelimiter ∉ hexEncode bytes := by
  intro hmem
  obtain ⟨b, -, hb⟩ := List.mem_flatMap.1 hmem
  have hlt := b.toNat_lt
  simp only [List.mem_cons, List.not_mem_nil, or_false] at hb
  rcases hb with hb | hb
  · exact hexDigit_ne_delimiter _ (by omega) hb.symm
  · exact hexDigit_ne_delimiter _ (by omega) hb.symm

theorem hexEncode_length (bytes : Bytes) : (hexEncode bytes).length = 2 * bytes.length := by
  induction bytes with
  | nil => rfl
  | cons b rest ih =>
      rw [hexEncode, List.flatMap_cons, List.length_append, ← hexEncode, ih, List.length_cons]
      simp only [List.length_cons, List.length_nil]
      omega

theorem hexEncode_ne_nil {bytes : Bytes} (h : 0 < bytes.length) : hexEncode bytes ≠ [] := by
  intro hnil
  have hlen := hexEncode_length bytes
  rw [hnil, List.length_nil] at hlen
  omega

def Uuid.toSegment (u : Uuid) : Segment where
  text := Uuid.simple u
  ne_nil := hexEncode_ne_nil (by simp [Uuid.toBytes])
  free := hexEncode_free _

def Digest.toSegment (d : Digest) : Segment where
  text := d.toText
  ne_nil := hexEncode_ne_nil (by simp [Digest.toBytes])
  free := hexEncode_free _

def ImmutableKind.toSegment (k : ImmutableKind) : Segment where
  text := textBytes k.segment
  ne_nil := by cases k <;> decide
  free := by cases k <;> decide

def LogId.toSegment (l : LogId) : Segment where
  text := l.value
  ne_nil := by
    have h := l.valid
    intro hnil
    simp [logIdValid, hnil] at h
  free := by
    have h := l.valid
    simp only [logIdValid, Bool.and_eq_true, List.all_eq_true] at h
    intro hmem
    exact absurd (h.1.1.2 pathDelimiter hmem) (by decide)

/-- A segment with a fixed text. -/
def textSegment (s : String) (h : textBytes s ≠ [] ∧ pathDelimiter ∉ textBytes s) : Segment :=
  ⟨textBytes s, h.1, h.2⟩

/-! ## Locations -/

/-- The scope of a log (`ScopedStore::unvalidated`). -/
def logScope (root : Location) (logId : LogId) : Location :=
  ((root.join (textSegment "v1" (by decide))).join (textSegment "logs" (by decide))).join
    logId.toSegment

/-- A protocol object of one log. -/
inductive StoreKey
  | head
  | immutable (key : ImmutableKey)

/-- `ScopedStore::immutable_location`. -/
def immutableLocation (scope : Location) (key : ImmutableKey) : Location :=
  ((((scope.join (textSegment "data" (by decide))).join (Uuid.toSegment key.incarnation)).join
    key.kind.toSegment).join (Uuid.toSegment key.storageId.uuid)).join key.digest.toSegment

/-- `ScopedStore::location`. -/
def location (scope : Location) : StoreKey → Location
  | .head => scope.join (textSegment "index.cbor" (by decide))
  | .immutable key => immutableLocation scope key

/-- The next part of a path. -/
def nextPart : List Bytes → Option (Bytes × List Bytes)
  | [] => none
  | part :: parts => some (part, parts)

/-- The parts of a path behind the scope, as `classify_immutable` reads them. -/
def classifyParts (parts : List Bytes) : Option ImmutableKey := do
  let (data, parts) ← nextPart parts
  guard (data = textBytes "data")
  let (incarnation, parts) ← nextPart parts
  let incarnation ← parseSimpleUuid incarnation
  let (kind, parts) ← nextPart parts
  let kind ← ImmutableKind.fromSegment kind
  let (storageId, parts) ← nextPart parts
  let storageId ← parseSimpleUuid storageId
  let (digestText, parts) ← nextPart parts
  guard (parts = [])
  let digest ← (Digest.fromStr digestText).toOption
  guard (digest.toText = digestText)
  return { incarnation, kind, storageId := ⟨storageId⟩, digest }

/-- `classify_immutable`. -/
def classifyImmutable (scope listed : Location) : Option ImmutableKey := do
  classifyParts (← listed.prefixMatch scope)

end ObjectLog
