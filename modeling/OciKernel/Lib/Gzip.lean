import Mathlib.Algebra.Ring.Nat
import Mathlib.Data.List.Basic
import Mathlib.Logic.Function.Iterate

/-!
# Lib.Gzip

The gzip file format of RFC 1952, on bytes, with the compressed data left open.

* `Member`: a member with its optional fields; `bytes`.
* `Member.Valid deflates`: the payload is a deflate stream of the content, and the trailer goes with the
  content.
* `Member.span`: several members as one, from the header of the first to the trailer of the last.
* `storedBlock`: the deflate stream that is one stored block; `inflateStored` reads it back.
-/

namespace Gzip

/-- The field lengths and the trailer are little endian. -/
def le16 (n : Nat) : List UInt8 := [.ofNat n, .ofNat (n / 256)]

def le32 (n : UInt32) : List UInt8 :=
  [n.toUInt8, (n >>> 8).toUInt8, (n >>> 16).toUInt8, (n >>> 24).toUInt8]

def ofLe16 (lo hi : UInt8) : Nat := lo.toNat + 256 * hi.toNat

theorem ofLe16_le16 {n : Nat} (h : n < 2 ^ 16) : ofLe16 (.ofNat n) (.ofNat (n / 256)) = n := by
  simp only [ofLe16, UInt8.toNat_ofNat']
  omega

def crcBit (crc : UInt32) : UInt32 :=
  if crc &&& 1 = 1 then (crc >>> 1) ^^^ 0xEDB88320 else crc >>> 1

def crcByte (crc : UInt32) (b : UInt8) : UInt32 := crcBit^[8] (crc ^^^ b.toUInt32)

def crc32 (bytes : List UInt8) : UInt32 := ~~~ bytes.foldl crcByte 0xFFFFFFFF

/-- The bits of FLG that stand for an optional field. -/
def fhcrc : UInt8 := 0x02
def fextra : UInt8 := 0x04
def fname : UInt8 := 0x08
def fcomment : UInt8 := 0x10

structure Member where
  method : UInt8
  flags : UInt8
  /-- MTIME, XFL and OS. -/
  rest : List UInt8
  extra : Option (List UInt8)
  name : Option (List UInt8)
  comment : Option (List UInt8)
  hcrc : Option (UInt8 × UInt8)
  payload : List UInt8
  trailer : List UInt8
  rest_length : rest.length = 6
  trailer_length : trailer.length = 8
  extra_length : ∀ e ∈ extra, e.length < 2 ^ 16
  name_nonzero : ∀ s ∈ name, 0 ∉ s
  comment_nonzero : ∀ s ∈ comment, 0 ∉ s
  flags_extra : flags &&& fextra ≠ 0 ↔ extra.isSome
  flags_name : flags &&& fname ≠ 0 ↔ name.isSome
  flags_comment : flags &&& fcomment ≠ 0 ↔ comment.isSome
  flags_hcrc : flags &&& fhcrc ≠ 0 ↔ hcrc.isSome

namespace Member

def fixed (m : Member) : List UInt8 := 0x1f :: 0x8b :: m.method :: m.flags :: m.rest

def extraField (extra : Option (List UInt8)) : List UInt8 := extra.elim [] fun e => le16 e.length ++ e

/-- A name or a comment. -/
def stringField (s : Option (List UInt8)) : List UInt8 := s.elim [] (· ++ [0])

def hcrcField (hcrc : Option (UInt8 × UInt8)) : List UInt8 := hcrc.elim [] fun c => [c.1, c.2]

def header (m : Member) : List UInt8 :=
  m.fixed ++ extraField m.extra ++ stringField m.name ++ stringField m.comment ++ hcrcField m.hcrc

def bytes (m : Member) : List UInt8 := m.header ++ m.payload ++ m.trailer

theorem length_fixed (m : Member) : m.fixed.length = 10 := by simp [fixed, m.rest_length]

/-- The payload decompresses to the content. -/
structure Valid (deflates : List UInt8 → List UInt8 → Prop) (m : Member) (content : List UInt8) : Prop where
  payload : deflates m.payload content
  trailer : m.trailer = le32 (crc32 content) ++ le32 (.ofNat content.length)

/-- Both members between the header of `m` and the trailer of `m'`. -/
def before (m m' : Member) : Member where
  __ := m
  payload := m.payload ++ (m.trailer ++ m'.header ++ m'.payload)
  trailer := m'.trailer
  trailer_length := m'.trailer_length

theorem bytes_before (m m' : Member) : (m.before m').bytes = m.bytes ++ m'.bytes := by
  simp only [bytes, before, header, fixed, List.append_assoc]

def span : Member → List Member → Member
  | m, [] => m
  | m, m' :: ms => m.before (span m' ms)

theorem bytes_span (m : Member) (ms : List Member) : (span m ms).bytes = m.bytes ++ ms.flatMap bytes := by
  induction ms generalizing m with
  | nil => rw [List.flatMap_nil, List.append_nil, span]
  | cons m' ms ih => rw [span, bytes_before, ih, List.flatMap_cons]

theorem payload_prefix_span (m : Member) (ms : List Member) : m.payload <+: (span m ms).payload := by
  cases ms with
  | nil => exact List.prefix_rfl
  | cons m' ms => exact List.prefix_append _ _

end Member

/-! ## Stored blocks -/

/-- A last block of type 0: the length, its complement, and the bytes as they are. -/
def storedBlock (content : List UInt8) : List UInt8 :=
  1 :: (le16 content.length ++ le16 (65535 - content.length) ++ content)

/-- `content` fits in one block. -/
def StoredDeflates (stream content : List UInt8) : Prop :=
  content.length < 2 ^ 16 ∧ stream = storedBlock content

/-- The member that `content` is stored in, without optional fields. -/
def storedMember (content : List UInt8) : Member where
  method := 8
  flags := 0
  rest := [0, 0, 0, 0, 0, 255]
  extra := none
  name := none
  comment := none
  hcrc := none
  payload := storedBlock content
  trailer := le32 (crc32 content) ++ le32 (.ofNat content.length)
  rest_length := rfl
  trailer_length := rfl
  extra_length := by simp
  name_nonzero := by simp
  comment_nonzero := by simp
  flags_extra := by decide
  flags_name := by decide
  flags_comment := by decide
  flags_hcrc := by decide

theorem valid_storedMember {content : List UInt8} (h : content.length < 2 ^ 16) :
    (storedMember content).Valid StoredDeflates content := ⟨⟨h, rfl⟩, rfl⟩

/-- The block at the start of the bytes, with the limit on its length. -/
def inflateStored (bytes : List UInt8) (limit : Nat) : Option (List UInt8) :=
  match bytes with
  | 1 :: lo :: hi :: clo :: chi :: rest =>
    let n := ofLe16 lo hi
    if n + ofLe16 clo chi = 65535 ∧ n ≤ rest.length ∧ n ≤ limit then some (rest.take n) else none
  | _ => none

theorem inflateStored_append {stream content : List UInt8} (h : StoredDeflates stream content)
    (rest : List UInt8) {limit : Nat} (hlimit : content.length ≤ limit) :
    inflateStored (stream ++ rest) limit = some content := by
  obtain ⟨hlen, rfl⟩ := h
  have hn := ofLe16_le16 hlen
  have hc : ofLe16 (.ofNat (65535 - content.length)) (.ofNat ((65535 - content.length) / 256)) =
      65535 - content.length := ofLe16_le16 (by omega)
  simp only [storedBlock, le16, List.cons_append, List.nil_append, inflateStored, hn, hc]
  rw [if_pos ⟨by omega, by simp, hlimit⟩, List.take_left]

end Gzip
