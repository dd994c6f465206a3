import OciKernel.Net.HttpRender

/-!
# Net.HttpSound

What `parse_chunked` and `parse_response` accept, over any bytes.

* `Taken`: the chunks as the loop takes them; `Bare`: a size line without sign or blanks.
* `parseChunkedFrom_taken`: the loop ends with `InvalidChunk`, or with the data of taken chunks.
* `Taken.exact`: chunks that are well formed are taken exactly so.
* `parseChunked_sound_iff`, `parseResponse_complete_iff`: when what is accepted is what was sent.
-/

namespace OciKernel

open Text

namespace Http

/-! ## Chunked bodies -/

/-- A body that is written in chunks, up to and with the zero one. -/
structure Chunked (chunks : List Chunk) (last : SizeLine) (data : List UInt8) : Prop where
  valid : ∀ c ∈ chunks, c.Valid
  zero : last.Writes 0
  eq : ∃ trailer, data = chunks.flatMap Chunk.render ++ (toUtf8 last.text ++ (CRLF ++ trailer))

/-- What `parse_chunked` takes for a chunk: the size line, the data and the two bytes after it. -/
structure TakenChunk where
  line : List UInt8
  data : List UInt8
  ending : List UInt8

namespace TakenChunk

def bytes (c : TakenChunk) : List UInt8 := c.line ++ (CRLF ++ (c.data ++ c.ending))

theorem bytes_append (c : TakenChunk) (rest : List UInt8) :
    c.bytes ++ rest = c.line ++ (CRLF ++ (c.data ++ (c.ending ++ rest))) := by
  simp [bytes]

structure Valid (c : TakenChunk) : Prop where
  line : ¬ CRLF <:+: c.line
  size : chunkSize c.line = some c.data.length
  data : c.data ≠ []
  fits : c.data.length + 2 < 2 ^ 64
  ending : c.ending.length = 2

end TakenChunk

/-- The chunks that the loop takes from `data`, and the line it stops at. -/
structure Taken (chunks : List TakenChunk) (last data : List UInt8) : Prop where
  valid : ∀ c ∈ chunks, c.Valid
  line : ¬ CRLF <:+: last
  zero : chunkSize last = some 0
  eq : ∃ rest, data = chunks.flatMap TakenChunk.bytes ++ (last ++ (CRLF ++ rest))

/-- A size line with digits only before the extension. -/
def Bare (line : List UInt8) : Prop :=
  ∃ l : SizeLine, line = toUtf8 l.text ∧ ∀ c ∈ l.size, (toDigit 16 c).isSome

/-- Neither a size line with a sign or blanks around the digits, nor data that is not followed by a line
break. -/
def Exact (chunks : List TakenChunk) (last : List UInt8) : Prop :=
  (∀ c ∈ chunks, Bare c.line ∧ c.ending = CRLF) ∧ Bare last

theorem Taken.cons {c : TakenChunk} {chunks : List TakenChunk} {last data : List UInt8} (hc : c.Valid)
    (h : Taken chunks last data) : Taken (c :: chunks) last (c.bytes ++ data) := by
  obtain ⟨rest, rfl⟩ := h.eq
  refine ⟨?_, h.line, h.zero, rest, by simp⟩
  simpa using ⟨hc, h.valid⟩

/-- What one round takes, where the length suffices. -/
theorem TakenChunk.valid_take {line rest : List UInt8} (hline : ¬ CRLF <:+: line) {size : Nat}
    (hsize : chunkSize line = some size) (hzero : size ≠ 0)
    (hfits : ¬ (2 ^ 64 ≤ size + 2 ∨ rest.length < size + 2)) :
    Valid ⟨line, rest.take size, (rest.drop size).take 2⟩ := by
  have hlen : (rest.take size).length = size := by
    rw [List.length_take]
    omega
  exact
    { line := hline
      size := by rw [hsize, hlen]
      data := fun h => hzero (by rw [← hlen]; exact List.length_eq_zero_iff.2 h)
      fits := by rw [hlen]; omega
      ending := by rw [List.length_take, List.length_drop]; omega }

/-- By induction on the bytes, as the loop goes. -/
theorem parseChunkedFrom_taken (result data : List UInt8) :
    parseChunkedFrom result data = .error .invalidChunk ∨ ∃ chunks last, Taken chunks last data ∧
      parseChunkedFrom result data = .ok (result ++ chunks.flatMap TakenChunk.data) := by
  induction hn : data.length using Nat.strongRecOn generalizing result data with
  | _ n ih =>
    cases hpos : position CRLF data with
    | none =>
      refine .inl ?_
      rw [parseChunkedFrom]
      split
      · rfl
      · rename_i hsome
        rw [hpos] at hsome
        cases hsome
    | some crlf =>
      obtain ⟨line, rest, rfl, -, hline⟩ := append_of_position hpos
      have heq : line ++ (13 :: [10] ++ rest) = line ++ (CRLF ++ rest) := rfl
      rw [heq] at hn ⊢
      cases hsize : chunkSize line with
      | none => exact .inl (by rw [parseChunkedFrom_crlf hline, hsize, Option.elim_none])
      | some size =>
        rw [parseChunkedFrom_line hline result rest hsize]
        by_cases hzero : size = 0
        · subst hzero
          exact .inr ⟨[], line, ⟨nofun, hline, hsize, rest, rfl⟩, by simp⟩
        · rw [if_neg hzero]
          split
          · exact .inl rfl
          · rename_i hfits
            have hvalid := TakenChunk.valid_take hline hsize hzero hfits
            have hsplit : line ++ (CRLF ++ rest) =
                TakenChunk.bytes ⟨line, rest.take size, (rest.drop size).take 2⟩ ++
                  rest.drop (size + 2) := by
              simp [TakenChunk.bytes, ← List.drop_drop]
            have hshort : (rest.drop (size + 2)).length < n := by
              rw [← hn, List.length_append, List.length_append, List.length_drop]
              have : CRLF.length = 2 := rfl
              omega
            rcases ih _ hshort (result ++ rest.take size) _ rfl with herr | ⟨chunks, last, htaken, hok⟩
            · exact .inl herr
            · refine .inr ⟨_ :: chunks, last, hsplit ▸ htaken.cons hvalid, ?_⟩
              rw [hok]
              simp

/-- What is taken is accepted. -/
theorem Taken.parseChunkedFrom {chunks : List TakenChunk} {last data : List UInt8}
    (h : Taken chunks last data) (result : List UInt8) :
    parseChunkedFrom result data = .ok (result ++ chunks.flatMap TakenChunk.data) := by
  obtain ⟨rest, rfl⟩ := h.eq
  have hvalid := h.valid
  induction chunks generalizing result with
  | nil =>
    rw [List.flatMap_nil, List.nil_append, parseChunkedFrom_line h.line _ _ h.zero, if_pos rfl,
      List.flatMap_nil, List.append_nil]
  | cons c chunks ih =>
    obtain ⟨hc, hchunks⟩ := List.forall_mem_cons.1 hvalid
    have hne : c.data.length ≠ 0 := fun h => hc.data (List.length_eq_zero_iff.1 h)
    have hfits := hc.fits
    have hending := hc.ending
    rw [List.flatMap_cons, List.append_assoc, TakenChunk.bytes_append,
      parseChunkedFrom_line hc.line _ _ hc.size, if_neg hne, if_neg (by simp; omega),
      List.take_left, List.drop_length_add_append, List.drop_left' hending,
      ih _ ⟨hchunks, h.line, h.zero, rest, rfl⟩ hchunks]
    simp

/-! ## Against the grammar -/

theorem SizeLine.Writes.bare {line : SizeLine} {n : Nat} (h : line.Writes n) : Bare (toUtf8 line.text) :=
  ⟨line, rfl, h.digits⟩

theorem SizeLine.Writes.unique {line : SizeLine} {n m : Nat} (h : line.Writes n)
    (hsize : chunkSize (toUtf8 line.text) = some m) : m = n := by
  have hparse := h.size.parseRadix (by omega) (by omega)
  rw [chunkSize_digits h.digits] at hsize
  by_cases hne : line.size = []
  · rw [fromStrRadix, hne] at hsize
    cases hsize
  · rw [fromStrRadix_digits _ hne h.digits, hparse] at hsize
    exact (Option.some.inj (Option.filter_eq_some_iff.1 hsize).1).symm

/-- Chunks that are written are taken as such: every size line and every end is the one written. By
induction on the taken chunks. -/
theorem Taken.exact {chunks : List TakenChunk} {last data : List UInt8} (h : Taken chunks last data)
    {written : List Chunk} {zero : SizeLine} (hw : Chunked written zero data) : Exact chunks last := by
  obtain ⟨rest, hdata⟩ := h.eq
  obtain ⟨trailer, hdata'⟩ := hw.eq
  subst hdata
  have hvalid := h.valid
  have hwritten := hw.valid
  induction chunks generalizing written with
  | nil =>
    cases written with
    | nil =>
      obtain ⟨rfl, -⟩ := line_unique h.line hw.zero.no_crlf hdata'
      exact ⟨nofun, hw.zero.bare⟩
    | cons c written =>
      -- a line that gives 0 is not that of a chunk
      have hc := hwritten c (List.mem_cons_self ..)
      rw [List.flatMap_cons, List.append_assoc, Chunk.render_append] at hdata'
      obtain ⟨rfl, -⟩ := line_unique h.line hc.line.no_crlf hdata'
      exact absurd (List.length_eq_zero_iff.1 (hc.line.unique h.zero).symm) hc.data
  | cons t chunks ih =>
    obtain ⟨ht, hchunks⟩ := List.forall_mem_cons.1 hvalid
    rw [List.flatMap_cons, List.append_assoc, TakenChunk.bytes_append] at hdata'
    cases written with
    | nil =>
      obtain ⟨hline, -⟩ := line_unique ht.line hw.zero.no_crlf hdata'
      have hsize := ht.size
      rw [hline] at hsize
      exact absurd (List.length_eq_zero_iff.1 (hw.zero.unique hsize)) ht.data
    | cons c written =>
      obtain ⟨hc, hwritten⟩ := List.forall_mem_cons.1 hwritten
      rw [List.flatMap_cons, List.append_assoc, Chunk.render_append] at hdata'
      obtain ⟨hline, hrest⟩ := line_unique ht.line hc.line.no_crlf hdata'
      have hsize := ht.size
      rw [hline] at hsize
      obtain ⟨-, hrest⟩ := List.append_inj hrest (hc.line.unique hsize)
      obtain ⟨hending, hrest⟩ := List.append_inj hrest ht.ending
      obtain ⟨hexact, hlast⟩ := ih ⟨hchunks, h.line, h.zero, rest, rfl⟩
        ⟨hwritten, hw.zero, trailer, hrest⟩ hrest hchunks hwritten
      exact ⟨List.forall_mem_cons.2 ⟨⟨hline ▸ hc.line.bare, hending⟩, hexact⟩, hlast⟩

/-- A size line with digits only is one that is written. -/
theorem Bare.writes {line : List UInt8} (h : Bare line) (hcrlf : ¬ CRLF <:+: line) {n : Nat}
    (hsize : chunkSize line = some n) : ∃ l : SizeLine, line = toUtf8 l.text ∧ l.Writes n := by
  obtain ⟨l, rfl, hdigits⟩ := h
  rw [chunkSize_digits hdigits] at hsize
  have hne : l.size ≠ [] := by
    intro hnil
    rw [fromStrRadix, hnil] at hsize
    cases hsize
  rw [fromStrRadix_digits _ hne hdigits] at hsize
  have hparse := (Option.filter_eq_some_iff.1 hsize).1
  refine ⟨l, rfl, isNumeral_of_parseRadix (by omega) (by omega) hne hparse, ?_⟩
  intro ext hext hin
  obtain ⟨before, after, rfl⟩ := hin
  refine hcrlf ⟨toUtf8 (l.size ++ ';' :: before), toUtf8 after, ?_⟩
  rw [SizeLine.text, Option.mem_def.1 hext]
  simp [toUtf8, CRLF]
  rfl

theorem Taken.chunked {chunks : List TakenChunk} {last data : List UInt8} (h : Taken chunks last data)
    (hexact : Exact chunks last) : ∃ written zero, Chunked written zero data ∧
      written.flatMap Chunk.data = chunks.flatMap TakenChunk.data := by
  obtain ⟨rest, rfl⟩ := h.eq
  obtain ⟨hexact, hlast⟩ := hexact
  obtain ⟨zero, hzero, hwrites⟩ := hlast.writes h.line h.zero
  have hvalid := h.valid
  suffices ∃ written : List Chunk, (∀ c ∈ written, c.Valid) ∧
      chunks.flatMap TakenChunk.bytes = written.flatMap Chunk.render ∧
      written.flatMap Chunk.data = chunks.flatMap TakenChunk.data by
    obtain ⟨written, hwritten, hbytes, hdata⟩ := this
    exact ⟨written, zero, ⟨hwritten, hwrites, rest, by rw [hbytes, hzero]⟩, hdata⟩
  clear h
  induction chunks with
  | nil => exact ⟨[], nofun, rfl, rfl⟩
  | cons t chunks ih =>
    obtain ⟨ht, hchunks⟩ := List.forall_mem_cons.1 hvalid
    obtain ⟨⟨hbare, hending⟩, hexact⟩ := List.forall_mem_cons.1 hexact
    obtain ⟨line, hline, hwrites⟩ := hbare.writes ht.line ht.size
    obtain ⟨written, hwritten, hbytes, hdata⟩ := ih hexact hchunks
    refine ⟨⟨line, t.data⟩ :: written, List.forall_mem_cons.2 ⟨⟨hwrites, ht.data⟩, hwritten⟩, ?_, ?_⟩
    · rw [List.flatMap_cons, List.flatMap_cons, hbytes]
      simp [TakenChunk.bytes, Chunk.render, hline, hending]
    · rw [List.flatMap_cons, List.flatMap_cons, hdata]

/-- `parse_chunked` accepts only well-formed chunks, and gives their data, if and only if the bytes cannot
be taken with a sign or blanks in a size or with other bytes than a line break after the data. -/
theorem parseChunked_sound_iff (data : List UInt8) :
    (parseChunked data = .error .invalidChunk ∨ ∃ written zero, Chunked written zero data ∧
      parseChunked data = .ok (written.flatMap Chunk.data)) ↔
    ∀ chunks last, Taken chunks last data → Exact chunks last := by
  constructor
  · rintro (herr | ⟨written, zero, hw, -⟩) chunks last h
    · rw [parseChunked, h.parseChunkedFrom] at herr
      cases herr
    · exact h.exact hw
  · intro hall
    rcases parseChunkedFrom_taken [] data with herr | ⟨chunks, last, h, hok⟩
    · exact .inl herr
    · obtain ⟨written, zero, hw, hdata⟩ := h.chunked (hall chunks last h)
      refine .inr ⟨written, zero, hw, ?_⟩
      rw [parseChunked, hok, List.nil_append, hdata]

/-- `1`, one byte, then two bytes other than a line break, then `0`. -/
theorem parseChunked_skips_ending :
    ¬ (parseChunked [49, 13, 10, 65, 120, 120, 48, 13, 10] = .error .invalidChunk ∨
      ∃ written zero, Chunked written zero [49, 13, 10, 65, 120, 120, 48, 13, 10] ∧
        parseChunked [49, 13, 10, 65, 120, 120, 48, 13, 10] = .ok (written.flatMap Chunk.data)) := by
  have hone : SizeLine.Writes ⟨"1".toList, none⟩ 1 := ⟨⟨0, rfl⟩, nofun⟩
  have hzero : SizeLine.Writes ⟨"0".toList, none⟩ 0 := ⟨⟨0, rfl⟩, nofun⟩
  have h : Taken [⟨[49], [65], [120, 120]⟩] [48] [49, 13, 10, 65, 120, 120, 48, 13, 10] := by
    refine ⟨?_, hzero.no_crlf, chunkSize_text hzero (by omega), [], rfl⟩
    intro c hc
    cases List.mem_singleton.1 hc
    exact ⟨hone.no_crlf, chunkSize_text hone (by omega), by simp, by simp, rfl⟩
  rintro (herr | ⟨written, zero, hw, -⟩)
  · rw [parseChunked, h.parseChunkedFrom] at herr
    cases herr
  · obtain ⟨hexact, -⟩ := h.exact hw
    have hending := (hexact _ (List.mem_singleton_self _)).2
    simp [CRLF] at hending

/-! ## Declared lengths -/

/-- The value of the first `Content-Length`, whatever its size. -/
def contentLength (headers : List (Str × Str)) : Option Nat := do
  let (_, v) ← headers.find? fun (k, _) => eqIgnoreAsciiCase k "content-length".toList
  if stripPlus (trim v) = [] then none else parseRadix 10 0 (stripPlus (trim v))

/-- A head that declares a body of `n` bytes, and the bytes that are there after it. -/
structure Declares (raw : List UInt8) (headers : List (Str × Str)) (n : Nat) (rest : List UInt8) :
    Prop where
  head : ∃ status, parseHead raw = .ok (status, headers, rest)
  plain : isChunked headers = false
  length : contentLength headers = some n

theorem parseBody_contentLength {headers : List (Str × Str)} {n : Nat} (hplain : isChunked headers = false)
    (hlength : contentLength headers = some n) (rest : List UInt8) :
    parseBody headers rest = if n < 2 ^ 64 then .ok (rest.take (min n rest.length))
      else .error .invalidResponse := by
  obtain ⟨⟨k, v⟩, hfind, hdigits⟩ := Option.bind_eq_some_iff.1 hlength
  have hparse : parseUnsigned (2 ^ 64) (trim v) = if n < 2 ^ 64 then some n else none := by
    dsimp only at hdigits
    split at hdigits
    · cases hdigits
    · rename_i hne
      rw [parseUnsigned_eq, fromStrRadix, if_neg hne, hdigits, Option.filter_some]
      simp
  rw [parseBody, if_neg (by simp [hplain]), hfind]
  dsimp only
  rw [hparse]
  by_cases hn : n < 2 ^ 64
  · rw [if_pos hn, if_pos hn]
  · rw [if_neg hn, if_neg hn]

section Declares

variable {raw rest : List UInt8} {headers : List (Str × Str)} {n : Nat} (h : Declares raw headers n rest)

include h

theorem Declares.accepted (hn : n < 2 ^ 64) :
    ∃ status, parseResponse raw = .ok ⟨status, headers, rest.take (min n rest.length)⟩ := by
  obtain ⟨status, hhead⟩ := h.head
  refine ⟨status, ?_⟩
  rw [parseResponse_eq, hhead]
  show (parseBody headers rest).map _ = _
  rw [parseBody_contentLength h.plain h.length, if_pos hn]
  rfl

/-- A length that is no `usize`. -/
theorem Declares.too_large (hn : ¬ n < 2 ^ 64) :
    parseResponse raw = .error .invalidResponse := by
  obtain ⟨status, hhead⟩ := h.head
  rw [parseResponse_eq, hhead]
  show (parseBody headers rest).map _ = _
  rw [parseBody_contentLength h.plain h.length, if_neg hn]
  rfl

end Declares

theorem declares_of_ok {raw : List UInt8} {r : HttpResponse} {n : Nat} (hok : parseResponse raw = .ok r)
    (hplain : isChunked r.headers = false) (hlength : contentLength r.headers = some n) :
    ∃ rest, Declares raw r.headers n rest := by
  rw [parseResponse_eq] at hok
  cases hhead : parseHead raw with
  | error e =>
    rw [hhead] at hok
    cases hok
  | ok head =>
    obtain ⟨status, headers, rest⟩ := head
    rw [hhead] at hok
    have hok : (parseBody headers rest).map (fun body => ⟨status, headers, body⟩) = .ok r := hok
    cases hbody : parseBody headers rest with
    | error e =>
      rw [hbody] at hok
      cases hok
    | ok body =>
      rw [hbody] at hok
      cases hok
      exact ⟨rest, ⟨status, hhead⟩, hplain, hlength⟩

/-- A body with a declared length has that length, and is an error where fewer bytes came, if and only if
as many bytes came as are declared by a length that is a `usize`. -/
theorem parseResponse_complete_iff (raw : List UInt8) :
    ((∀ r n, parseResponse raw = .ok r → isChunked r.headers = false →
        contentLength r.headers = some n → r.body.length = n) ∧
      ∀ headers n rest, Declares raw headers n rest → rest.length < n →
        ∃ e, parseResponse raw = .error e) ↔
    ∀ headers n rest, Declares raw headers n rest → n < 2 ^ 64 → n ≤ rest.length := by
  constructor
  · rintro ⟨-, hshort⟩ headers n rest h hn
    by_contra hlt
    obtain ⟨e, herr⟩ := hshort headers n rest h (by omega)
    obtain ⟨status, hok⟩ := h.accepted hn
    rw [hok] at herr
    cases herr
  · intro hall
    constructor
    · intro r n hok hplain hlength
      obtain ⟨rest, h⟩ := declares_of_ok hok hplain hlength
      by_cases hn : n < 2 ^ 64
      · obtain ⟨status, hok'⟩ := h.accepted hn
        rw [hok] at hok'
        have hr : r = ⟨status, r.headers, rest.take (min n rest.length)⟩ := Except.ok.inj hok'
        rw [hr, List.length_take]
        have := hall _ n rest h hn
        omega
      · rw [h.too_large hn] at hok
        cases hok
    · intro headers n rest h hlt
      by_cases hn : n < 2 ^ 64
      · exact absurd (hall headers n rest h hn) (by omega)
      · exact ⟨_, h.too_large hn⟩

/-- Two of five bytes came. -/
theorem parseResponse_reports_truncated :
    ¬ ((∀ r n, parseResponse (renderHead 200 "OK".toList [("Content-Length".toList, "5".toList)] ++
          [97, 98]) = .ok r → isChunked r.headers = false → contentLength r.headers = some n →
        r.body.length = n) ∧
      ∀ headers n rest, Declares (renderHead 200 "OK".toList
          [("Content-Length".toList, "5".toList)] ++ [97, 98]) headers n rest → rest.length < n →
        ∃ e, parseResponse (renderHead 200 "OK".toList [("Content-Length".toList, "5".toList)] ++
          [97, 98]) = .error e) := by
  have hhead : ValidHead "OK".toList [("Content-Length".toList, "5".toList)] :=
    { reason := by simp
      name := by simp [isWhitespace]
      value := by simp
      value_head := by simp [isWhitespace]
      value_last := by simp [isWhitespace] }
  have h : Declares (renderHead 200 "OK".toList [("Content-Length".toList, "5".toList)] ++ [97, 98])
      [("Content-Length".toList, "5".toList)] 5 [97, 98] :=
    ⟨⟨200, parseHead_render hhead 200 _⟩, rfl, rfl⟩
  rintro ⟨hlen, -⟩
  obtain ⟨status, hok⟩ := h.accepted (by omega)
  have := hlen _ 5 hok rfl rfl
  simp at this

end Http
end OciKernel
