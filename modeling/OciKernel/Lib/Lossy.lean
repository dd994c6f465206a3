import OciKernel.Lib.Wire

/-!
# Lib.Lossy

`String::from_utf8_lossy`. Bytes that are no UTF-8 are replaced by U+FFFD, one for each maximal start of a
character: a first byte with as many of the bytes after it as could still continue it.

* `lossy_toUtf8`: the encoding of a text is read back as that text.
* `lossy_eq_latin1_iff`: the text read is the bytes one by one exactly when they are all ASCII.
-/

namespace Text

/-- The first character of the bytes, if they start with one. -/
def firstChar (bytes : List UInt8) : Option Char := bytes.toByteArray.utf8DecodeChar? 0

def isContinuation (b : UInt8) : Bool := b &&& 192 = 128

/-- The second byte can follow the first in a character of three or of four bytes. -/
def continues (lead b : UInt8) : Bool :=
  (lead = 0xE0 ∧ 0xA0 ≤ b ∧ b ≤ 0xBF) ∨ (0xE1 ≤ lead ∧ lead ≤ 0xEC ∧ 0x80 ≤ b ∧ b ≤ 0xBF) ∨
  (lead = 0xED ∧ 0x80 ≤ b ∧ b ≤ 0x9F) ∨ (0xEE ≤ lead ∧ lead ≤ 0xEF ∧ 0x80 ≤ b ∧ b ≤ 0xBF) ∨
  (lead = 0xF0 ∧ 0x90 ≤ b ∧ b ≤ 0xBF) ∨ (0xF1 ≤ lead ∧ lead ≤ 0xF3 ∧ 0x80 ≤ b ∧ b ≤ 0xBF) ∨
  (lead = 0xF4 ∧ 0x80 ≤ b ∧ b ≤ 0x8F)

/-- How many bytes after the first are replaced together with it, where no character starts. -/
def badTail (lead : UInt8) : List UInt8 → Nat
  | [] => 0
  | b :: rest =>
    if continues lead b then
      if lead < 0xF0 then 1 else if rest.head?.any isContinuation then 2 else 1
    else 0

/-- The next piece: its character, and how many more bytes it has. -/
def piece (lead : UInt8) (rest : List UInt8) : Char × Nat :=
  match firstChar (lead :: rest) with
  | some c => (c, c.utf8Size - 1)
  | none => ('\uFFFD', badTail lead rest)

/-- The text of the bytes that follow the `skip` bytes which the last piece has left. -/
def lossyFrom : Nat → List UInt8 → Str
  | _, [] => []
  | skip + 1, _ :: rest => lossyFrom skip rest
  | 0, lead :: rest => (piece lead rest).1 :: lossyFrom (piece lead rest).2 rest

def lossy (bytes : List UInt8) : Str := lossyFrom 0 bytes

/-- Each byte as a character. -/
def latin1 (bytes : List UInt8) : Str := bytes.map fun b => Char.ofNat b.toNat

theorem lossyFrom_skip (skip : Nat) (bytes rest : List UInt8) (h : bytes.length = skip) :
    lossyFrom skip (bytes ++ rest) = lossyFrom 0 rest := by
  induction bytes generalizing skip with
  | nil =>
    subst h
    rfl
  | cons b bytes ih =>
    subst h
    exact ih bytes.length rfl

theorem firstChar_encode (c : Char) (rest : List UInt8) :
    firstChar (String.utf8EncodeChar c ++ rest) = some c := by
  rw [firstChar, List.toByteArray_append]
  exact ByteArray.utf8DecodeChar?_utf8EncodeChar_append

theorem lossy_encode (c : Char) (rest : List UInt8) :
    lossy (String.utf8EncodeChar c ++ rest) = c :: lossy rest := by
  have hfirst := firstChar_encode c rest
  have hlen := String.length_utf8EncodeChar c
  cases hbytes : String.utf8EncodeChar c with
  | nil =>
    have hpos := c.utf8Size_pos
    simp [hbytes] at hlen
    omega
  | cons lead tail =>
    rw [hbytes, List.cons_append] at hfirst
    rw [hbytes, List.length_cons] at hlen
    have hpiece : piece lead (tail ++ rest) = (c, tail.length) := by
      rw [piece, hfirst]
      dsimp only
      rw [← hlen, Nat.add_sub_cancel]
    have hstep : lossy (lead :: tail ++ rest) =
        (piece lead (tail ++ rest)).1 :: lossyFrom (piece lead (tail ++ rest)).2 (tail ++ rest) := rfl
    rw [hstep, hpiece, lossyFrom_skip _ _ _ rfl]
    rfl

theorem lossy_toUtf8 (s : Str) : lossy (toUtf8 s) = s := by
  induction s with
  | nil => rfl
  | cons c s ih => rw [toUtf8, List.flatMap_cons, lossy_encode, ← toUtf8, ih]

/-! ## ASCII -/

theorem encode_ascii {b : UInt8} (h : b < 0x80) :
    String.utf8EncodeChar (Char.ofNat b.toNat) = [b] := by
  have hall : ∀ n < 128, String.utf8EncodeChar (Char.ofNat n) = [UInt8.ofNat n] := by decide
  rw [hall b.toNat h, UInt8.ofNat_toNat]

theorem toUtf8_latin1 {bytes : List UInt8} (h : ∀ b ∈ bytes, b < 0x80) :
    toUtf8 (latin1 bytes) = bytes := by
  induction bytes with
  | nil => rfl
  | cons b bytes ih =>
    obtain ⟨hb, h⟩ := List.forall_mem_cons.1 h
    rw [latin1, List.map_cons, toUtf8, List.flatMap_cons, encode_ascii hb, ← toUtf8, ← latin1, ih h]
    rfl

/-- No character is more than the bytes it is read from. -/
theorem length_lossyFrom_le (skip : Nat) (bytes : List UInt8) :
    (lossyFrom skip bytes).length ≤ bytes.length - skip := by
  induction bytes generalizing skip with
  | nil => exact Nat.zero_le _
  | cons b bytes ih =>
    cases skip with
    | zero =>
      have := ih (piece b bytes).2
      simp only [lossyFrom, List.length_cons]
      omega
    | succ skip =>
      have := ih skip
      simp only [lossyFrom, List.length_cons]
      omega

theorem firstChar_eq_some {bytes : List UInt8} {c : Char} (h : firstChar bytes = some c) :
    ∃ after, bytes = String.utf8EncodeChar c ++ after := by
  obtain ⟨after, hbytes⟩ := ByteArray.exists_of_utf8DecodeChar?_eq_some h
  refine ⟨after.data.toList, ?_⟩
  have hlist := congrArg (fun b : ByteArray => b.data.toList) hbytes
  simpa using hlist

theorem utf8Size_le_of_firstChar {bytes : List UInt8} {c : Char} (h : firstChar bytes = some c) :
    c.utf8Size ≤ bytes.length := by
  obtain ⟨after, rfl⟩ := firstChar_eq_some h
  rw [List.length_append, String.length_utf8EncodeChar]
  exact Nat.le_add_right _ _

/-- A character read is written in the bytes, or replaces some. -/
theorem mem_lossyFrom {skip : Nat} {bytes : List UInt8} {c : Char} (h : c ∈ lossyFrom skip bytes) :
    c = '\uFFFD' ∨ ∀ b ∈ String.utf8EncodeChar c, b ∈ bytes := by
  induction bytes generalizing skip with
  | nil => cases skip <;> cases h
  | cons lead rest ih =>
    have hrest : ∀ skip, c ∈ lossyFrom skip rest →
        c = '\uFFFD' ∨ ∀ b ∈ String.utf8EncodeChar c, b ∈ lead :: rest :=
      fun skip h => (ih h).imp_right fun hall b hb => List.mem_cons_of_mem _ (hall b hb)
    cases skip with
    | succ skip => exact hrest skip h
    | zero =>
      rcases List.mem_cons.1 h with rfl | h
      · cases hfirst : firstChar (lead :: rest) with
        | none => exact .inl (by rw [piece, hfirst])
        | some c =>
          have hpiece : (piece lead rest).1 = c := by rw [piece, hfirst]
          obtain ⟨after, hbytes⟩ := firstChar_eq_some hfirst
          rw [hpiece, hbytes]
          exact .inr fun b hb => List.mem_append_left _ hb
      · exact hrest _ h

/-- A character of one byte is ASCII. -/
theorem ascii_of_firstChar {lead : UInt8} {rest : List UInt8} {c : Char}
    (h : firstChar (lead :: rest) = some c) (hsize : c.utf8Size = 1) : lead < 0x80 := by
  obtain ⟨after, hlist⟩ := firstChar_eq_some h
  rw [String.utf8EncodeChar_eq_singleton hsize, List.singleton_append, List.cons.injEq] at hlist
  have hc : c.val.toNat ≤ 127 := UInt32.le_iff_toNat_le.1 (Char.utf8Size_eq_one_iff.1 hsize)
  rw [hlist.1, UInt8.lt_iff_toNat_lt, UInt32.toNat_toUInt8]
  exact Nat.lt_of_le_of_lt (Nat.mod_le _ _) (Nat.lt_succ_of_le hc)

theorem toNat_latin1 (b : UInt8) : (Char.ofNat b.toNat).toNat = b.toNat := by
  have hvalid : b.toNat.isValidChar := .inl (Nat.lt_of_lt_of_le b.toNat_lt (by decide))
  rw [Char.ofNat, dif_pos hvalid]
  rfl

theorem replacement_ne (b : UInt8) : '\uFFFD' ≠ Char.ofNat b.toNat := by
  intro h
  have hb := b.toNat_lt
  have hcode := toNat_latin1 b
  rw [← h, show '\uFFFD'.toNat = 65533 from rfl] at hcode
  omega

/-- A longer character would leave fewer characters than bytes, and what is replaced is no byte. -/
theorem piece_of_lossy {lead : UInt8} {rest : List UInt8}
    (h : lossy (lead :: rest) = latin1 (lead :: rest)) : lead < 0x80 ∧ lossy rest = latin1 rest := by
  obtain ⟨hchar, htail⟩ : (piece lead rest).1 = Char.ofNat lead.toNat ∧
      lossyFrom (piece lead rest).2 rest = latin1 rest := List.cons.inj h
  cases hfirst : firstChar (lead :: rest) with
  | none =>
    have hpiece : piece lead rest = ('\uFFFD', badTail lead rest) := by rw [piece, hfirst]
    rw [hpiece] at hchar
    exact absurd hchar (replacement_ne lead)
  | some c =>
    have hpiece : piece lead rest = (c, c.utf8Size - 1) := by rw [piece, hfirst]
    rw [hpiece] at htail
    have hsize : c.utf8Size = 1 := by
      have hpos := c.utf8Size_pos
      have hle := utf8Size_le_of_firstChar hfirst
      have hlen := length_lossyFrom_le (c.utf8Size - 1) rest
      rw [htail, latin1, List.length_map] at hlen
      rw [List.length_cons] at hle
      omega
    rw [hsize] at htail
    exact ⟨ascii_of_firstChar hfirst hsize, htail⟩

theorem lossy_eq_latin1_iff (bytes : List UInt8) :
    lossy bytes = latin1 bytes ↔ ∀ b ∈ bytes, b < 0x80 := by
  constructor
  · intro h
    induction bytes with
    | nil => exact List.forall_mem_nil _
    | cons lead rest ih =>
      obtain ⟨hlead, hrest⟩ := piece_of_lossy h
      exact List.forall_mem_cons.2 ⟨hlead, ih hrest⟩
  · intro h
    rw [← lossy_toUtf8 (latin1 bytes), toUtf8_latin1 h]

example : lossy [0xE2, 0x82, 0x41, 0xC3, 0xA9, 0xFF, 0xF0, 0x9F, 0x98] =
    ['\uFFFD', 'A', 'é', '\uFFFD', '\uFFFD'] := by
  decide +kernel

end Text
