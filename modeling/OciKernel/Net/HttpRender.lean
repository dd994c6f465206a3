import OciKernel.Net.Http

/-!
# Net.HttpRender

HTTP/1.1 responses as a server writes them: the head, and the body in one of the three framings.

* `findHeaderEnd_lines`, `parseStatus_statusLine`, `parseHeaders_headerLine`: the head is read back.
* `parseChunkedFrom_chunk`: one chunk; `parseChunkedFrom_render`: all up to the zero chunk.
* `parseResponse_render`: status, headers and body of every response that is written.
-/

namespace OciKernel

open Text

namespace Http

/-! ## What is written -/

def statusLine (status : UInt16) (reason : Str) : Str :=
  "HTTP/1.1 ".toList ++ (Nat.toDigits 10 status.toNat ++ ' ' :: reason)

def headerLine (header : Str × Str) : Str := header.1 ++ ':' :: ' ' :: header.2

/-- The lines and an empty one. -/
def renderHead (status : UInt16) (reason : Str) (headers : List (Str × Str)) : List UInt8 :=
  (statusLine status reason :: headers.map headerLine).flatMap (fun line => toUtf8 line ++ CRLF) ++
    CRLF

structure ValidHead (reason : Str) (headers : List (Str × Str)) : Prop where
  reason : ∀ c ∈ reason, c ≠ '\r' ∧ c ≠ '\n'
  name : ∀ header ∈ headers, ∀ c ∈ header.1, c ≠ ':' ∧ isWhitespace c = false
  value : ∀ header ∈ headers, ∀ c ∈ header.2, c ≠ '\r' ∧ c ≠ '\n'
  value_head : ∀ header ∈ headers, ∀ c ∈ header.2.head?, isWhitespace c = false
  value_last : ∀ header ∈ headers, ∀ c ∈ header.2.getLast?, isWhitespace c = false

/-- A size line with an optional extension. -/
structure SizeLine where
  size : Str
  extension : Option Str

namespace SizeLine

def text (l : SizeLine) : Str := l.size ++ l.extension.elim [] (';' :: ·)

/-- The size is `n`, in hex. -/
structure Writes (l : SizeLine) (n : Nat) : Prop where
  size : IsNumeral 16 l.size n
  extension : ∀ ext ∈ l.extension, ¬ ['\r', '\n'] <:+: ext

end SizeLine

structure Chunk where
  line : SizeLine
  data : List UInt8

def Chunk.render (c : Chunk) : List UInt8 := toUtf8 c.line.text ++ CRLF ++ c.data ++ CRLF

structure Chunk.Valid (c : Chunk) : Prop where
  line : c.line.Writes c.data.length
  data : c.data ≠ []

/-- A header with this name, in any letter case. -/
def Named (name : String) (header : Str × Str) : Prop := header.1.map Char.toLower = name.toList

def SaysChunked (header : Str × Str) : Prop :=
  Named "transfer-encoding" header ∧ header.2.map Char.toLower = "chunked".toList

instance (name : String) : DecidablePred (Named name) := fun _ => inferInstanceAs (Decidable (_ = _))

/-- What may follow the head, for a body. -/
inductive Framed (headers : List (Str × Str)) (body : List UInt8) : List UInt8 → Prop
  | contentLength (header : Str × Str) (extra : List UInt8)
      (hone : headers.filter (Named "content-length") = [header])
      (hvalue : IsNumeral 10 header.2 body.length) (hchunked : ∀ h ∈ headers, ¬ SaysChunked h) :
      Framed headers body (body ++ extra)
  | chunked (chunks : List Chunk) (last : SizeLine) (trailer : List UInt8)
      (hchunked : ∃ h ∈ headers, SaysChunked h) (hchunks : ∀ c ∈ chunks, c.Valid)
      (hbody : chunks.flatMap Chunk.data = body) (hlast : last.Writes 0) :
      Framed headers body (chunks.flatMap Chunk.render ++ toUtf8 last.text ++ CRLF ++ trailer)
  | close (hlength : ∀ h ∈ headers, ¬ Named "content-length" h)
      (hchunked : ∀ h ∈ headers, ¬ SaysChunked h) : Framed headers body body

/-! ## The head -/

/-- The first empty line ends the head. -/
theorem findHeaderEnd_lines {first : List UInt8} {lines : List (List UInt8)} (rest : List UInt8)
    (hfirst : 13 ∉ first) (hne : ∀ l ∈ lines, l ≠ []) (hlines : ∀ l ∈ lines, 13 ∉ l) :
    findHeaderEnd (first ++ lines.flatMap (CRLF ++ ·) ++ (CRLF ++ CRLF ++ rest)) =
      some (first ++ lines.flatMap (CRLF ++ ·)).length := by
  have h : position (CRLF ++ CRLF) (lines.flatMap (CRLF ++ ·) ++ (CRLF ++ CRLF ++ rest)) =
      some (lines.flatMap (CRLF ++ ·)).length := by
    induction lines with
    | nil => exact position_append_self 13 [10, 13, 10] rest
    | cons l lines ih =>
      have ih := ih (fun l hl => hne l (List.mem_cons_of_mem _ hl))
        fun l hl => hlines l (List.mem_cons_of_mem _ hl)
      rw [List.flatMap_cons, List.append_assoc (CRLF ++ l),
        position_blank (hne l (List.mem_cons_self ..)) (hlines l (List.mem_cons_self ..)), ih,
        Option.map_some, Nat.add_comm]
      exact congrArg some List.length_append.symm
  have hskip : ∀ l, position (CRLF ++ CRLF) (first ++ l) =
      (position (CRLF ++ CRLF) l).map (· + first.length) := position_append hfirst
  rw [findHeaderEnd, List.append_assoc, hskip, h, Option.map_some, List.length_append, Nat.add_comm]

theorem parseStatus_statusLine (status : UInt16) (reason : Str) :
    parseStatus (statusLine status reason) = .ok status := by
  have hparse := parseRadix_toDigits (show 1 < 10 by omega) (by omega) status.toNat
  have hspace : ' ' ∉ Nat.toDigits 10 status.toNat :=
    fun hmem => by simpa [toDigit, digitValue] using isSome_of_parseRadix hparse ' ' hmem
  have hversion : ' ' ∉ "HTTP/1.1".toList := by simp
  have hrest : afterFirst ' ' (statusLine status reason) =
      some (Nat.toDigits 10 status.toNat ++ ' ' :: reason) := afterFirst_append hversion _
  have hcode : parseUnsigned (2 ^ 16) (Nat.toDigits 10 status.toNat) = some status.toNat := by
    rw [parseUnsigned_eq]
    exact fromStrRadix_of_parseRadix Nat.toDigits_ne_nil hparse status.toNat_lt
  rw [parseStatus, hrest]
  dsimp only
  rw [takeWhile_ne_append hspace, hcode]
  dsimp only
  rw [UInt16.ofNat_toNat]

/-- A header line is read back as the header. -/
theorem parseHeaders_headerLine {reason : Str} {headers : List (Str × Str)}
    (h : ValidHead reason headers) : parseHeaders (headers.map headerLine) = headers := by
  have hlines : ∀ hs ⊆ headers, parseHeaders (hs.map headerLine) = hs := by
    intro hs hsub
    induction hs with
    | nil => rfl
    | cons header hs ih =>
      obtain ⟨hmem, hsub⟩ := List.cons_subset.1 hsub
      have hcolon : ':' ∉ header.1 := fun hc => (h.name header hmem ':' hc).1 rfl
      have hname : trim header.1 = header.1 :=
        trim_eq_self (fun c hc => (h.name header hmem c (List.mem_of_mem_head? hc)).2)
          fun c hc => (h.name header hmem c (List.mem_of_mem_getLast? hc)).2
      have hvalue : trim (' ' :: header.2) = header.2 := by
        rw [trim_cons rfl, trim_eq_self (h.value_head header hmem) (h.value_last header hmem)]
      have hne : headerLine header ≠ [] := List.append_ne_nil_of_right_ne_nil _ nofun
      have hafter : afterFirst ':' (headerLine header) = some (' ' :: header.2) :=
        afterFirst_append hcolon _
      have hbefore : (headerLine header).takeWhile (· ≠ ':') = header.1 :=
        takeWhile_ne_append hcolon _
      rw [List.map_cons, parseHeaders, if_neg hne, hafter]
      dsimp only
      rw [hbefore, hname, hvalue, ih hsub]
  exact hlines headers (List.Subset.refl _)

/-! ## The body -/

theorem SizeLine.Writes.digits {line : SizeLine} {n : Nat} (h : line.Writes n) :
    ∀ c ∈ line.size, (toDigit 16 c).isSome :=
  isSome_of_parseRadix (h.size.parseRadix (by omega) (by omega))

/-- The extension is cut off, and there is nothing to trim. -/
theorem chunkSize_digits {line : SizeLine} (hdigits : ∀ c ∈ line.size, (toDigit 16 c).isSome) :
    chunkSize (toUtf8 line.text) = fromStrRadix 16 (2 ^ 64) line.size := by
  have hsemi : ';' ∉ line.size := fun hmem => by simpa [toDigit, digitValue] using hdigits ';' hmem
  have htake : line.text.takeWhile (· ≠ ';') = line.size := by
    unfold SizeLine.text
    cases line.extension with
    | none =>
      rw [Option.elim_none, List.append_nil, List.takeWhile_eq_self_iff]
      exact fun c hc => decide_eq_true fun he => hsemi (he ▸ hc)
    | some ext => exact takeWhile_ne_append hsemi ext
  have htrim : trim line.size = line.size := trim_of_digits hdigits
  rw [chunkSize, fromUtf8_toUtf8, Option.bind_eq_bind, Option.bind_some, htake, htrim]

theorem chunkSize_text {line : SizeLine} {n : Nat} (h : line.Writes n) (hn : n < 2 ^ 64) :
    chunkSize (toUtf8 line.text) = some n := by
  rw [chunkSize_digits h.digits]
  exact h.size.fromStrRadix (by omega) (by omega) hn

theorem SizeLine.Writes.no_crlf {line : SizeLine} {n : Nat} (h : line.Writes n) :
    ¬ CRLF <:+: toUtf8 line.text := by
  intro hin
  have hcr : '\r' ∉ line.size := fun hmem => by simpa [toDigit, digitValue] using h.digits '\r' hmem
  have hrest := infix_of_append hcr (crlf_infix_of_toUtf8 hin)
  have hext := h.extension
  cases he : line.extension with
  | none =>
    rw [he] at hrest
    simp at hrest
  | some ext =>
    rw [he] at hrest
    have hsemi : '\r' ∉ [';'] := by simp
    exact hext ext he (infix_of_append hsemi hrest)

/-- One pass of the loop, from the size line on. -/
theorem parseChunkedFrom_crlf {line : List UInt8} (hline : ¬ CRLF <:+: line)
    (result rest : List UInt8) : parseChunkedFrom result (line ++ (CRLF ++ rest)) =
      (chunkSize line).elim (.error .invalidChunk) fun size =>
        if size = 0 then .ok result
        else if 2 ^ 64 ≤ size + 2 ∨ rest.length < size + 2 then .error .invalidChunk
        else parseChunkedFrom (result ++ rest.take size) (rest.drop (size + 2)) := by
  have hpos := position_crlf hline rest
  have htake : (line ++ (CRLF ++ rest)).take line.length = line := List.take_left
  have hdrop : (line ++ (CRLF ++ rest)).drop (line.length + 2) = rest :=
    List.drop_length_add_append 2
  rw [parseChunkedFrom]
  split
  · rename_i hnone
    rw [hpos] at hnone
    cases hnone
  · rename_i crlf hsome
    rw [hpos] at hsome
    cases hsome
    rw [htake, hdrop]
    cases chunkSize line <;> rfl

theorem parseChunkedFrom_line {line : List UInt8} (hline : ¬ CRLF <:+: line)
    (result rest : List UInt8) {size : Nat} (hsize : chunkSize line = some size) :
    parseChunkedFrom result (line ++ (CRLF ++ rest)) =
      if size = 0 then .ok result
      else if 2 ^ 64 ≤ size + 2 ∨ rest.length < size + 2 then .error .invalidChunk
      else parseChunkedFrom (result ++ rest.take size) (rest.drop (size + 2)) := by
  rw [parseChunkedFrom_crlf hline, hsize, Option.elim_some]

theorem Chunk.render_append (c : Chunk) (rest : List UInt8) :
    c.render ++ rest = toUtf8 c.line.text ++ (CRLF ++ (c.data ++ (CRLF ++ rest))) := by
  simp [render]

theorem parseChunkedFrom_chunk {c : Chunk} (hc : c.Valid) (result rest : List UInt8)
    (hlen : c.data.length + 2 < 2 ^ 64) :
    parseChunkedFrom result (c.render ++ rest) = parseChunkedFrom (result ++ c.data) rest := by
  have hsize := chunkSize_text hc.line (show c.data.length < 2 ^ 64 by omega)
  have hne : c.data.length ≠ 0 := fun h => hc.data (List.length_eq_zero_iff.1 h)
  have hfits : ¬ (2 ^ 64 ≤ c.data.length + 2 ∨
      (c.data ++ (CRLF ++ rest)).length < c.data.length + 2) := by
    rw [List.length_append, List.length_append]
    have : CRLF.length = 2 := rfl
    omega
  have htake : (c.data ++ (CRLF ++ rest)).take c.data.length = c.data := List.take_left
  have hdrop : (c.data ++ (CRLF ++ rest)).drop (c.data.length + 2) = rest :=
    List.drop_length_add_append 2
  rw [Chunk.render_append, parseChunkedFrom_line hc.line.no_crlf _ _ hsize, if_neg hne, if_neg hfits,
    htake, hdrop]

/-- The chunks up to the zero chunk. -/
theorem parseChunkedFrom_render {chunks : List Chunk} (hchunks : ∀ c ∈ chunks, c.Valid)
    {last : SizeLine} (hlast : last.Writes 0) (result trailer : List UInt8)
    (hlen : ∀ c ∈ chunks, c.data.length + 2 < 2 ^ 64) :
    parseChunkedFrom result (chunks.flatMap Chunk.render ++ (toUtf8 last.text ++ (CRLF ++ trailer))) =
      .ok (result ++ chunks.flatMap Chunk.data) := by
  induction chunks generalizing result with
  | nil =>
    rw [List.flatMap_nil, List.nil_append,
      parseChunkedFrom_line hlast.no_crlf _ _ (chunkSize_text hlast (by omega)), if_pos rfl,
      List.flatMap_nil, List.append_nil]
  | cons c chunks ih =>
    rw [List.flatMap_cons, List.append_assoc,
      parseChunkedFrom_chunk (hchunks c (List.mem_cons_self ..)) _ _ (hlen c (List.mem_cons_self ..)),
      ih (fun c hc => hchunks c (List.mem_cons_of_mem _ hc)) _
        (fun c hc => hlen c (List.mem_cons_of_mem _ hc)), List.flatMap_cons, List.append_assoc]

/-! ## Headers that decide the framing -/

theorem ValidHead.trim_value {reason : Str} {headers : List (Str × Str)}
    (h : ValidHead reason headers) {header : Str × Str} (hmem : header ∈ headers) :
    trim header.2 = header.2 :=
  trim_eq_self (h.value_head header hmem) (h.value_last header hmem)

theorem isChunked_iff {reason : Str} {headers : List (Str × Str)} (h : ValidHead reason headers) :
    isChunked headers = true ↔ ∃ header ∈ headers, SaysChunked header := by
  have hname : "transfer-encoding".toList.map Char.toLower = "transfer-encoding".toList := rfl
  have hvalue : "chunked".toList.map Char.toLower = "chunked".toList := rfl
  rw [isChunked, List.any_eq_true]
  refine exists_congr fun header => and_congr_right fun hmem => ?_
  rw [Bool.and_eq_true, h.trim_value hmem, eqIgnoreAsciiCase, eqIgnoreAsciiCase, hname, hvalue,
    decide_eq_true_iff, decide_eq_true_iff]
  rfl

theorem find?_contentLength (headers : List (Str × Str)) :
    (headers.find? fun (k, _) => eqIgnoreAsciiCase k "content-length".toList) =
      (headers.filter (Named "content-length")).head? := by
  have hname : "content-length".toList.map Char.toLower = "content-length".toList := rfl
  rw [List.head?_filter]
  refine congrArg (List.find? · headers) (funext fun header => ?_)
  show decide (header.1.map Char.toLower = "content-length".toList.map Char.toLower) = _
  rw [hname]
  rfl

theorem parseBody_framed {reason : Str} {headers : List (Str × Str)} {body wire : List UInt8}
    (h : ValidHead reason headers) (hframed : Framed headers body wire) (hlen : wire.length < 2 ^ 64) :
    parseBody headers wire = .ok body := by
  have hplain : (∀ header ∈ headers, ¬ SaysChunked header) → isChunked headers ≠ true :=
    fun hnone hc => by
      obtain ⟨header, hmem, hsays⟩ := (isChunked_iff h).1 hc
      exact hnone header hmem hsays
  cases hframed with
  | contentLength header extra hone hvalue hchunked =>
    have hmem : header ∈ headers :=
      (List.mem_filter.1 (hone ▸ List.mem_singleton_self header)).1
    have hfind : (headers.find? fun (k, _) => eqIgnoreAsciiCase k "content-length".toList) =
        some header := by
      rw [find?_contentLength, hone, List.head?_cons]
    have hparse : parseUnsigned (2 ^ 64) (trim header.2) = some body.length := by
      rw [List.length_append] at hlen
      rw [h.trim_value hmem, parseUnsigned_eq]
      exact hvalue.fromStrRadix (by omega) (by omega) (by omega)
    have htake : (body ++ extra).take (min body.length (body ++ extra).length) = body := by
      rw [Nat.min_eq_left (by simp), List.take_left]
    rw [parseBody, if_neg (hplain hchunked), hfind]
    dsimp only
    rw [hparse]
    dsimp only
    rw [htake]
  | chunked chunks last trailer hchunked hchunks hbody hlast =>
    have hfits : ∀ c ∈ chunks, c.data.length + 2 < 2 ^ 64 := by
      intro c hc
      have hle := (List.infix_of_mem_flatten (List.mem_map_of_mem (f := Chunk.render) hc)).length_le
      rw [← List.flatMap_def] at hle
      simp only [List.length_append, Chunk.render] at hle hlen
      have : CRLF.length = 2 := rfl
      omega
    rw [parseBody, if_pos ((isChunked_iff h).2 hchunked), parseChunked, ← hbody, List.append_assoc,
      List.append_assoc, parseChunkedFrom_render hchunks hlast [] trailer hfits, List.nil_append]
  | close hlength hchunked =>
    have hnone : headers.filter (Named "content-length") = [] :=
      List.filter_eq_nil_iff.2 fun header hmem => by simpa using hlength header hmem
    rw [parseBody, if_neg (hplain hchunked), find?_contentLength, hnone, List.head?_nil]

/-! ## The response -/

theorem cr_notMem_statusLine {status : UInt16} {reason : Str} (h : ∀ c ∈ reason, c ≠ '\r' ∧ c ≠ '\n') :
    '\r' ∉ statusLine status reason := by
  have hdigit := isSome_of_parseRadix
    (parseRadix_toDigits (show 1 < 10 by omega) (by omega) status.toNat)
  intro hmem
  rcases List.mem_append.1 hmem with hmem | hmem
  · simp at hmem
  · rcases List.mem_append.1 hmem with hmem | hmem
    · simpa [toDigit, digitValue] using hdigit '\r' hmem
    · rcases List.mem_cons.1 hmem with hmem | hmem
      · cases hmem
      · exact (h '\r' hmem).1 rfl

theorem ValidHead.cr_notMem_headerLine {reason : Str} {headers : List (Str × Str)}
    (h : ValidHead reason headers) {header : Str × Str} (hmem : header ∈ headers) :
    '\r' ∉ headerLine header := by
  intro hcr
  rcases List.mem_append.1 hcr with hcr | hcr
  · cases (h.name header hmem '\r' hcr).2
  · rcases List.mem_cons.1 hcr with hcr | hcr
    · cases hcr
    · rcases List.mem_cons.1 hcr with hcr | hcr
      · cases hcr
      · exact (h.value header hmem '\r' hcr).1 rfl

/-- The text before the empty line. -/
def headText (status : UInt16) (reason : Str) (headers : List (Str × Str)) : Str :=
  statusLine status reason ++ (headers.map headerLine).flatMap ("\r\n".toList ++ ·)

theorem toUtf8_headText (status : UInt16) (reason : Str) (headers : List (Str × Str)) :
    toUtf8 (headText status reason headers) = toUtf8 (statusLine status reason) ++
      ((headers.map headerLine).map toUtf8).flatMap (CRLF ++ ·) := by
  have hlines : toUtf8 ((headers.map headerLine).flatMap ("\r\n".toList ++ ·)) =
      ((headers.map headerLine).map toUtf8).flatMap (CRLF ++ ·) := by
    rw [toUtf8, List.flatMap_assoc, List.flatMap_map toUtf8]
    rfl
  rw [headText, toUtf8_append, hlines]

theorem renderHead_eq (status : UInt16) (reason : Str) (headers : List (Str × Str)) :
    renderHead status reason headers = toUtf8 (headText status reason headers) ++ (CRLF ++ CRLF) := by
  have hmap : (statusLine status reason :: headers.map headerLine).flatMap
      (fun line => toUtf8 line ++ CRLF) = ((statusLine status reason :: headers.map headerLine).map
        toUtf8).flatMap (· ++ CRLF) := by
    rw [List.flatMap_map]
  rw [renderHead, hmap, List.map_cons, flatMap_terminated, toUtf8_headText, List.append_assoc]

/-- The part of `parse_response` before the body: the status, the headers and the bytes after them. -/
def parseHead (raw : List UInt8) : Except HttpError (UInt16 × List (Str × Str) × List UInt8) :=
  match findHeaderEnd raw with
  | none => .error .invalidResponse
  | some sep =>
    match fromUtf8 (raw.take sep) with
    | none => .error .invalidResponse
    | some headerStr =>
      match splitCrlf headerStr with
      | [] => .error .invalidStatus
      | statusLine :: lines => do
        let status ← parseStatus statusLine
        .ok (status, parseHeaders lines, raw.drop (sep + 4))

theorem parseResponse_eq (raw : List UInt8) :
    parseResponse raw = parseHead raw >>= fun (status, headers, rest) =>
      (parseBody headers rest).map fun body => ⟨status, headers, body⟩ := by
  unfold parseResponse parseHead
  cases findHeaderEnd raw with
  | none => rfl
  | some sep =>
    dsimp only
    cases fromUtf8 (raw.take sep) with
    | none => rfl
    | some headerStr =>
      dsimp only
      cases splitCrlf headerStr with
      | nil => rfl
      | cons statusLine lines =>
        dsimp only
        cases parseStatus statusLine with
        | error e => rfl
        | ok status =>
          show (parseBody _ _ >>= fun body => .ok _) = (parseBody _ _).map _
          cases parseBody (parseHeaders lines) (raw.drop (sep + 4)) <;> rfl

theorem parseHead_render {reason : Str} {headers : List (Str × Str)} (hhead : ValidHead reason headers)
    (status : UInt16) (wire : List UInt8) :
    parseHead (renderHead status reason headers ++ wire) = .ok (status, headers, wire) := by
  have hcr : ∀ {l : Str}, '\r' ∉ l → 13 ∉ toUtf8 l :=
    fun hl hmem => hl (mem_toUtf8 (by decide) hmem)
  have hstatus : '\r' ∉ statusLine status reason := cr_notMem_statusLine hhead.reason
  have hlines : ∀ l ∈ headers.map headerLine, '\r' ∉ l := by
    intro l hl
    obtain ⟨header, hmem, rfl⟩ := List.mem_map.1 hl
    exact hhead.cr_notMem_headerLine hmem
  have hend : findHeaderEnd (renderHead status reason headers ++ wire) =
      some (toUtf8 (headText status reason headers)).length := by
    rw [renderHead_eq, List.append_assoc, toUtf8_headText]
    refine findHeaderEnd_lines wire (hcr hstatus) ?_ ?_
    · intro l hl
      obtain ⟨line, hline, rfl⟩ := List.mem_map.1 hl
      obtain ⟨header, _, rfl⟩ := List.mem_map.1 hline
      rw [headerLine, toUtf8_append]
      exact List.append_ne_nil_of_right_ne_nil _ nofun
    · intro l hl
      obtain ⟨line, hline, rfl⟩ := List.mem_map.1 hl
      exact hcr (hlines line hline)
  have htext : fromUtf8 ((renderHead status reason headers ++ wire).take
      (toUtf8 (headText status reason headers)).length) = some (headText status reason headers) := by
    rw [renderHead_eq, List.append_assoc, List.take_left, fromUtf8_toUtf8]
  have hsplit : splitCrlf (headText status reason headers) =
      statusLine status reason :: headers.map headerLine := splitCrlf_lines hstatus hlines
  have hrest : (renderHead status reason headers ++ wire).drop
      ((toUtf8 (headText status reason headers)).length + 4) = wire := by
    rw [renderHead_eq, List.append_assoc, List.drop_length_add_append]
    rfl
  rw [parseHead, hend]
  dsimp only
  rw [htext]
  dsimp only
  rw [hsplit]
  dsimp only
  rw [parseStatus_statusLine, parseHeaders_headerLine hhead, hrest]
  rfl

/-- Every response that is written in one of the three framings is read back: the status, the headers
in their order, and the body. -/
theorem parseResponse_render (r : HttpResponse) (reason : Str) (wire : List UInt8)
    (hhead : ValidHead reason r.headers) (hbody : Framed r.headers r.body wire)
    (hlen : (renderHead r.status reason r.headers ++ wire).length < 2 ^ 64) :
    parseResponse (renderHead r.status reason r.headers ++ wire) = .ok r := by
  have hwire : wire.length < 2 ^ 64 := by
    rw [List.length_append] at hlen
    omega
  rw [parseResponse_eq, parseHead_render hhead]
  show (parseBody r.headers wire).map _ = _
  rw [parseBody_framed hhead hbody hwire]
  rfl

/-- One chunk whose data looks like the end of a head. -/
theorem parseResponse_render_chunked :
    parseResponse (renderHead 200 "OK".toList [("Transfer-Encoding".toList, "Chunked".toList)] ++
      ("04;a=b\r\n\r\n\r\n\r\n0\r\n\r\n".toList.flatMap String.utf8EncodeChar)) =
      .ok ⟨200, [("Transfer-Encoding".toList, "Chunked".toList)], [13, 10, 13, 10]⟩ := by
  have hhead : ValidHead "OK".toList [("Transfer-Encoding".toList, "Chunked".toList)] :=
    { reason := by simp
      name := by simp [isWhitespace]
      value := by simp
      value_head := by simp [isWhitespace]
      value_last := by simp [isWhitespace] }
  have hchunk : ∀ c ∈ [Chunk.mk ⟨"04".toList, some "a=b".toList⟩ [13, 10, 13, 10]], c.Valid := by
    intro c hc
    cases List.mem_singleton.1 hc
    exact ⟨⟨⟨1, rfl⟩, by simp [List.infix_cons_iff]⟩, nofun⟩
  have hsays : SaysChunked ("Transfer-Encoding".toList, "Chunked".toList) := ⟨rfl, rfl⟩
  exact parseResponse_render ⟨200, [("Transfer-Encoding".toList, "Chunked".toList)], [13, 10, 13, 10]⟩
    "OK".toList _ hhead
    (.chunked _ ⟨"0".toList, none⟩ CRLF ⟨_, List.mem_singleton_self _, hsays⟩ hchunk rfl
      ⟨⟨0, rfl⟩, nofun⟩) (by decide)

end Http
end OciKernel
