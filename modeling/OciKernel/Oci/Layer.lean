import Mathlib.Data.List.Infix
import OciKernel.Lib.Gzip
import OciKernel.Lib.Text

/-!
# Oci.Layer

Decompression of image layers, `oci/layer.rs`. The inflate function of `miniz_oxide` is a parameter.

* `stripGzipHeader_bytes`: the payload of a gzip member is found behind any header.
* `gives_stripGzipHeader`: what happens on other bytes, without a read out of bounds.
* `decompress_members_iff`: which sequences of members are decompressed as a whole.
-/

namespace OciKernel

open Text

inductive LayerError where
  | decompressFailed
  | unsupportedCompression
deriving DecidableEq, Repr

/-- A result, or a panic, which is the outer `none`. -/
abbrev Checked := ExceptT LayerError Option

instance {α : Type} [DecidableEq α] : DecidableEq (Checked α) :=
  inferInstanceAs (DecidableEq (Option (Except LayerError α)))

namespace Layer

/-- `data[i]`. -/
def index (data : List UInt8) (i : Nat) : Checked UInt8 := ExceptT.lift data[i]?

/-- `&data[start..stop]`. -/
def slice (data : List UInt8) (start stop : Nat) : Checked (List UInt8) :=
  ExceptT.lift (if start ≤ stop ∧ stop ≤ data.length then some ((data.take stop).drop start) else none)

/-- FEXTRA: a length and as many bytes. -/
def skipExtra (data : List UInt8) (flags : UInt8) (offset : Nat) : Checked Nat :=
  if flags &&& 0x04 ≠ 0 then
    if offset + 2 > data.length then throw .decompressFailed
    else do
      let lo ← index data offset
      let hi ← index data (offset + 1)
      let xlen := lo.toNat + 256 * hi.toNat
      if offset + 2 + xlen > data.length then throw .decompressFailed else pure (offset + 2 + xlen)
  else pure offset

/-- The loop over the bytes from `offset` on, up to a zero. -/
def zeroFrom : List UInt8 → Nat → Nat
  | [], offset => offset
  | b :: rest, offset => if b ≠ 0 then zeroFrom rest (offset + 1) else offset

/-- FNAME and FCOMMENT: the bytes up to a zero, and the zero. -/
def skipString (mask : UInt8) (data : List UInt8) (flags : UInt8) (offset : Nat) : Checked Nat :=
  if flags &&& mask ≠ 0 then
    if zeroFrom (data.drop offset) offset ≥ data.length then throw .decompressFailed
    else pure (zeroFrom (data.drop offset) offset + 1)
  else pure offset

def skipHcrc (flags : UInt8) (offset : Nat) : Nat := if flags &&& 0x02 ≠ 0 then offset + 2 else offset

/-- What is between the header, which ends at `offset`, and the trailer. -/
def body (data : List UInt8) (offset : Nat) : Checked (List UInt8) :=
  if offset ≥ data.length then throw .decompressFailed
  else if offset > data.length - 8 then throw .decompressFailed
  else slice data offset (data.length - 8)

def stripGzipHeader (data : List UInt8) : Checked (List UInt8) :=
  if data.length < 18 then throw .decompressFailed
  else do
    let id1 ← index data 0
    let id2 ← index data 1
    if id1 ≠ 0x1f ∨ id2 ≠ 0x8b then throw .decompressFailed
    else do
      let flags ← index data 3
      let offset ← skipExtra data flags 10
      let offset ← skipString 0x08 data flags offset
      let offset ← skipString 0x10 data flags offset
      body data (skipHcrc flags offset)

def contains (mediaType : Str) (s : String) : Bool := decide (s.toList <:+: mediaType)

/-- `inflate` is `decompress_to_vec_with_limit`. -/
def decompress (inflate : List UInt8 → Nat → Option (List UInt8)) (data : List UInt8) (mediaType : Str) :
    Checked (List UInt8) :=
  if contains mediaType "gzip" ∨ contains mediaType "gz" then do
    let deflateBytes ← stripGzipHeader data
    match inflate deflateBytes (256 * 1024 * 1024) with
    | none => throw .decompressFailed
    | some inflated => pure inflated
  else if contains mediaType "zstd" then throw .unsupportedCompression
  else if contains mediaType "tar" ∧ ¬ contains mediaType "gz" then pure data
  else throw .unsupportedCompression

/-! ## Any bytes -/

/-- No panic: an error, or a result with `P`. -/
def Gives {α : Type} (P : α → Prop) (r : Checked α) : Prop :=
  r = throw .decompressFailed ∨ ∃ a, r = pure a ∧ P a

section Gives

variable {α β : Type} {P : α → Prop} {Q : β → Prop}

theorem gives_throw : Gives P (throw .decompressFailed) := .inl rfl

theorem gives_pure {a : α} (h : P a) : Gives P (pure a) := .inr ⟨a, rfl, h⟩

theorem Gives.bind {r : Checked α} {f : α → Checked β} (h : Gives P r) (hf : ∀ a, P a → Gives Q (f a)) :
    Gives Q (r >>= f) := by
  rcases h with rfl | ⟨a, rfl, ha⟩
  · exact gives_throw
  · rw [pure_bind]
    exact hf a ha

end Gives

variable {data : List UInt8} {flags : UInt8} {offset : Nat}

theorem gives_index {i : Nat} (h : i < data.length) : Gives (fun b => data[i]? = some b) (index data i) := by
  refine .inr ⟨data[i], ?_, List.getElem?_eq_getElem h⟩
  rw [index, List.getElem?_eq_getElem h]
  rfl

theorem gives_skipExtra (data : List UInt8) (flags : UInt8) (offset : Nat) :
    Gives (fun _ => True) (skipExtra data flags offset) := by
  unfold skipExtra
  split
  · split
    · exact gives_throw
    · refine (gives_index (by omega)).bind fun lo _ => (gives_index (by omega)).bind fun hi _ => ?_
      dsimp only
      split
      · exact gives_throw
      · exact gives_pure trivial
  · exact gives_pure trivial

theorem gives_skipString (mask : UInt8) (data : List UInt8) (flags : UInt8) (offset : Nat) :
    Gives (fun _ => True) (skipString mask data flags offset) := by
  unfold skipString
  split
  · split
    · exact gives_throw
    · exact gives_pure trivial
  · exact gives_pure trivial

theorem gives_body (h : 8 ≤ data.length) (offset : Nat) : Gives (fun payload => ∃ header trailer,
    data = header ++ payload ++ trailer ∧ trailer.length = 8) (body data offset) := by
  unfold body
  split
  · exact gives_throw
  · split
    · exact gives_throw
    · refine .inr ⟨(data.take (data.length - 8)).drop offset, ?_, (data.take (data.length - 8)).take offset,
        data.drop (data.length - 8), ?_, ?_⟩
      · rw [slice, if_pos ⟨by omega, by omega⟩]
        rfl
      · rw [List.take_append_drop, List.take_append_drop]
      · rw [List.length_drop]
        omega

/-- An error, or what is before the last 8 bytes. -/
theorem gives_stripGzipHeader (data : List UInt8) : Gives (fun payload => ∃ header trailer,
    data = header ++ payload ++ trailer ∧ trailer.length = 8) (stripGzipHeader data) := by
  unfold stripGzipHeader
  split
  · exact gives_throw
  · refine (gives_index (by omega)).bind fun id1 _ => (gives_index (by omega)).bind fun id2 _ => ?_
    split
    · exact gives_throw
    · refine (gives_index (by omega)).bind fun flags _ => ?_
      refine (gives_skipExtra data flags 10).bind fun offset _ => ?_
      refine (gives_skipString 0x08 data flags offset).bind fun offset _ => ?_
      refine (gives_skipString 0x10 data flags offset).bind fun offset _ => ?_
      exact gives_body (by omega) _

/-! ## The bytes of a member -/

section Member

variable (pre rest : List UInt8)

theorem index_append (b : UInt8) : index (pre ++ b :: rest) pre.length = pure b := by
  rw [index, List.getElem?_append_right (Nat.le_refl _), Nat.sub_self, List.getElem?_cons_zero]
  rfl

theorem skipExtra_field {extra : Option (List UInt8)} (hflag : flags &&& 0x04 ≠ 0 ↔ extra.isSome)
    (hlen : ∀ e ∈ extra, e.length < 2 ^ 16) :
    skipExtra (pre ++ Gzip.Member.extraField extra ++ rest) flags pre.length =
      pure (pre ++ Gzip.Member.extraField extra).length := by
  unfold skipExtra Gzip.Member.extraField
  cases extra with
  | none =>
    rw [if_neg (by simpa using hflag), Option.elim_none, List.append_nil]
  | some e =>
    have hdata : pre ++ (Gzip.le16 e.length ++ e) ++ rest =
        pre ++ .ofNat e.length :: .ofNat (e.length / 256) :: (e ++ rest) := by
      simp [Gzip.le16]
    have hhi : index (pre ++ .ofNat e.length :: .ofNat (e.length / 256) :: (e ++ rest))
        (pre.length + 1) = pure (.ofNat (e.length / 256)) := by
      have := index_append (pre ++ [.ofNat e.length]) (e ++ rest) (.ofNat (e.length / 256))
      simpa using this
    have hxlen : (UInt8.ofNat e.length).toNat + 256 * (UInt8.ofNat (e.length / 256)).toNat = e.length :=
      Gzip.ofLe16_le16 (hlen e rfl)
    rw [if_pos (hflag.2 rfl), Option.elim_some, hdata, if_neg (by simp), index_append, hhi,
      pure_bind, pure_bind]
    dsimp only
    rw [hxlen, if_neg (by simp; omega)]
    congr 1
    simp [Gzip.le16]
    omega

theorem zeroFrom_append {s : List UInt8} (h : 0 ∉ s) (offset : Nat) :
    zeroFrom (s ++ 0 :: rest) offset = offset + s.length := by
  induction s generalizing offset with
  | nil => simp [zeroFrom]
  | cons b s ih =>
    rw [List.mem_cons, not_or] at h
    rw [List.cons_append, zeroFrom, if_pos (Ne.symm h.1), ih h.2, List.length_cons]
    omega

theorem skipString_field (mask : UInt8) {s : Option (List UInt8)}
    (hflag : flags &&& mask ≠ 0 ↔ s.isSome) (hzero : ∀ t ∈ s, 0 ∉ t) :
    skipString mask (pre ++ Gzip.Member.stringField s ++ rest) flags pre.length =
      pure (pre ++ Gzip.Member.stringField s).length := by
  unfold skipString Gzip.Member.stringField
  cases s with
  | none =>
    rw [if_neg (by simpa using hflag), Option.elim_none, List.append_nil]
  | some t =>
    have hfrom : zeroFrom ((pre ++ (t ++ [0]) ++ rest).drop pre.length) pre.length =
        pre.length + t.length := by
      rw [List.append_assoc, List.drop_left, List.append_assoc]
      exact zeroFrom_append rest (hzero t rfl) _
    rw [if_pos (hflag.2 rfl), Option.elim_some, hfrom, if_neg (by simp)]
    congr 1
    simp
    omega

theorem skipHcrc_field {c : Option (UInt8 × UInt8)} (hflag : flags &&& 0x02 ≠ 0 ↔ c.isSome) :
    skipHcrc flags pre.length = (pre ++ Gzip.Member.hcrcField c).length := by
  unfold skipHcrc Gzip.Member.hcrcField
  cases c with
  | none => rw [if_neg (by simpa using hflag), Option.elim_none, List.append_nil]
  | some c =>
    rw [if_pos (hflag.2 rfl), Option.elim_some, List.length_append]
    rfl

theorem body_append {trailer : List UInt8} (payload : List UInt8) (htrailer : trailer.length = 8) :
    body (pre ++ payload ++ trailer) pre.length = pure payload := by
  have hlen : (pre ++ payload ++ trailer).length = (pre ++ payload).length + 8 := by
    rw [List.length_append, htrailer]
  have hpre : (pre ++ payload).length = pre.length + payload.length := List.length_append
  rw [body, if_neg (by omega), if_neg (by omega), slice, hlen, Nat.add_sub_cancel, List.take_left,
    List.drop_left, if_pos ⟨by omega, by omega⟩]
  rfl

end Member

open Gzip.Member in
/-- The payload is what `strip_gzip_header` returns, with any of the optional fields. -/
theorem stripGzipHeader_bytes (m : Gzip.Member) : stripGzipHeader m.bytes = pure m.payload := by
  -- each field is skipped with the bytes before it as `pre`
  have hextra : skipExtra m.bytes m.flags 10 = pure (m.fixed ++ extraField m.extra).length := by
    have := skipExtra_field m.fixed (stringField m.name ++ stringField m.comment ++ hcrcField m.hcrc ++
      m.payload ++ m.trailer) m.flags_extra m.extra_length
    rw [m.length_fixed] at this
    simpa only [Gzip.Member.bytes, header, List.append_assoc] using this
  have hname : skipString 0x08 m.bytes m.flags (m.fixed ++ extraField m.extra).length =
      pure (m.fixed ++ extraField m.extra ++ stringField m.name).length := by
    have := skipString_field (m.fixed ++ extraField m.extra) (stringField m.comment ++ hcrcField m.hcrc ++
      m.payload ++ m.trailer) 0x08 m.flags_name m.name_nonzero
    simpa only [Gzip.Member.bytes, header, List.append_assoc] using this
  have hcomment : skipString 0x10 m.bytes m.flags
      (m.fixed ++ extraField m.extra ++ stringField m.name).length =
      pure (m.fixed ++ extraField m.extra ++ stringField m.name ++ stringField m.comment).length := by
    have := skipString_field (m.fixed ++ extraField m.extra ++ stringField m.name) (hcrcField m.hcrc ++
      m.payload ++ m.trailer) 0x10 m.flags_comment m.comment_nonzero
    simpa only [Gzip.Member.bytes, header, List.append_assoc] using this
  have hhcrc : skipHcrc m.flags (m.fixed ++ extraField m.extra ++ stringField m.name ++
      stringField m.comment).length = m.header.length := skipHcrc_field _ m.flags_hcrc
  have hbody : body m.bytes m.header.length = pure m.payload :=
    body_append m.header m.payload m.trailer_length
  have hlen : 18 ≤ m.bytes.length := by
    have hfixed := m.length_fixed
    have htrailer := m.trailer_length
    simp only [Gzip.Member.bytes, header, List.length_append]
    omega
  have hid1 : index m.bytes 0 = pure 0x1f := index_append [] _ _
  have hid2 : index m.bytes 1 = pure 0x8b := index_append [0x1f] _ _
  have hflags : index m.bytes 3 = pure m.flags := index_append [0x1f, 0x8b, m.method] _ _
  rw [stripGzipHeader, if_neg (by omega), hid1, hid2, hflags, pure_bind, pure_bind]
  simp only [ne_eq, not_true, or_self, if_false, pure_bind, hextra, hname, hcomment]
  rw [hhcrc, hbody]

/-- Any header and any payload; and without a read out of bounds on any bytes, of which it returns some that
end 8 before the last. -/
theorem stripGzipHeader_spec : (∀ m : Gzip.Member, stripGzipHeader m.bytes = pure m.payload) ∧
    ∀ data, Gives (fun payload => ∃ header trailer, data = header ++ payload ++ trailer ∧
      trailer.length = 8) (stripGzipHeader data) :=
  ⟨stripGzipHeader_bytes, gives_stripGzipHeader⟩

/-! ## Several members -/

/-- From the start of its input, one complete stream. -/
def Inflates (deflates : List UInt8 → List UInt8 → Prop) (inflate : List UInt8 → Nat → Option (List UInt8)) :
    Prop :=
  ∀ stream content rest limit, deflates stream content → content.length ≤ limit →
    inflate (stream ++ rest) limit = some content

theorem inflates_inflateStored : Inflates Gzip.StoredDeflates Gzip.inflateStored :=
  fun _ _ rest _ hstream hlimit => Gzip.inflateStored_append hstream rest hlimit

section Members

variable {deflates : List UInt8 → List UInt8 → Prop} {inflate : List UInt8 → Nat → Option (List UInt8)}
  {mediaType : Str} {m : Gzip.Member} {content : List UInt8}

/-- Whatever follows the first member, its content is the result. -/
theorem decompress_append (hinf : Inflates deflates inflate)
    (hgzip : contains mediaType "gzip" ∨ contains mediaType "gz") (hm : m.Valid deflates content)
    (hlimit : content.length ≤ 256 * 1024 * 1024) (ms : List Gzip.Member) :
    decompress inflate (m.bytes ++ ms.flatMap Gzip.Member.bytes) mediaType = pure content := by
  obtain ⟨rest, hrest⟩ := Gzip.Member.payload_prefix_span m ms
  rw [decompress, if_pos hgzip, ← Gzip.Member.bytes_span, stripGzipHeader_bytes, pure_bind, ← hrest,
    hinf _ _ rest _ hm.payload hlimit]

/-- A sequence of members is decompressed as a whole exactly when only the first has any content. -/
theorem decompress_members_iff (hinf : Inflates deflates inflate)
    (hgzip : contains mediaType "gzip" ∨ contains mediaType "gz")
    {members : List (Gzip.Member × List UInt8)} (hne : members ≠ [])
    (hvalid : ∀ p ∈ members, p.1.Valid deflates p.2)
    (hlimit : (members.flatMap Prod.snd).length ≤ 256 * 1024 * 1024) :
    decompress inflate (members.flatMap fun p => p.1.bytes) mediaType = pure (members.flatMap Prod.snd) ↔
      ∀ p ∈ members.tail, p.2 = [] := by
  obtain ⟨⟨m, content⟩, members, rfl⟩ := List.exists_cons_of_ne_nil hne
  have hm : m.Valid deflates content := hvalid _ List.mem_cons_self
  rw [List.flatMap_cons, List.length_append] at hlimit
  have hfirst := decompress_append hinf hgzip hm (by dsimp only at hlimit; omega) (members.map Prod.fst)
  rw [List.flatMap_map] at hfirst
  rw [List.flatMap_cons, List.flatMap_cons, hfirst, List.tail_cons, ← List.flatMap_eq_nil_iff]
  constructor
  · intro h
    have : content = content ++ members.flatMap Prod.snd := Except.ok.inj (Option.some.inj h)
    exact List.self_eq_append_right.1 this
  · intro h
    rw [h, List.append_nil]

/-- The content of `a`, and an empty member. -/
theorem decompress_members_empty :
    decompress Gzip.inflateStored
        ([(Gzip.storedMember [0x61], [0x61]), (Gzip.storedMember [], [])].flatMap fun p => p.1.bytes)
        "application/vnd.oci.image.layer.v1.tar+gzip".toList =
      pure ([(Gzip.storedMember [0x61], [0x61]), (Gzip.storedMember [], [])].flatMap Prod.snd) := by
  have hgzip : contains "application/vnd.oci.image.layer.v1.tar+gzip".toList "gzip" ∨
      contains "application/vnd.oci.image.layer.v1.tar+gzip".toList "gz" := by decide
  have hvalid : ∀ p ∈ [(Gzip.storedMember [0x61], [0x61]), (Gzip.storedMember [], [])],
      p.1.Valid Gzip.StoredDeflates p.2 := List.forall_mem_cons.2 ⟨Gzip.valid_storedMember (by decide),
    List.forall_mem_singleton.2 (Gzip.valid_storedMember (by decide))⟩
  have hlimit : ([(Gzip.storedMember [0x61], [0x61]), (Gzip.storedMember [], [])].flatMap
      Prod.snd).length ≤ 256 * 1024 * 1024 := by simp
  exact (decompress_members_iff inflates_inflateStored hgzip (List.cons_ne_nil _ _) hvalid hlimit).2
    (List.forall_mem_singleton.2 rfl)

/-- Of a member with `a` and one with `b`, the `b` is lost. -/
theorem decompress_members_lost :
    (Gzip.storedMember [0x61]).Valid Gzip.StoredDeflates [0x61] ∧
      (Gzip.storedMember [0x62]).Valid Gzip.StoredDeflates [0x62] ∧
      decompress Gzip.inflateStored ((Gzip.storedMember [0x61]).bytes ++ (Gzip.storedMember [0x62]).bytes)
        "application/vnd.oci.image.layer.v1.tar+gzip".toList ≠ pure [0x61, 0x62] :=
  ⟨Gzip.valid_storedMember (by decide), Gzip.valid_storedMember (by decide), by decide +kernel⟩

end Members

end Layer

end OciKernel
