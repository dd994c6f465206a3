import OciKernel.Lib.Wire
import OciKernel.Net.Tls

/-!
# Net.Http

Reading an HTTP/1.1 response, `net/http.rs`: `parse_response` over the raw bytes, `parse_chunked`,
`find_header_end` and `parse_status`.
-/

namespace OciKernel

open Text

structure HttpResponse where
  status : UInt16
  headers : List (Str × Str)
  body : List UInt8
deriving DecidableEq, Repr

inductive HttpError where
  | network (e : TlsConnectError)
  | invalidResponse
  | invalidStatus
  | invalidChunk
deriving DecidableEq, Repr

namespace Http

def eqIgnoreAsciiCase (s t : Str) : Bool := s.map Char.toLower = t.map Char.toLower

def findHeaderEnd (raw : List UInt8) : Option Nat := position (CRLF ++ CRLF) raw

/-- The second part of `splitn(3, ' ')`, as a `u16`. -/
def parseStatus (line : Str) : Except HttpError UInt16 :=
  match afterFirst ' ' line with
  | none => .error .invalidStatus
  | some rest =>
    match parseUnsigned (2 ^ 16) (rest.takeWhile (· ≠ ' ')) with
    | none => .error .invalidStatus
    | some code => .ok (UInt16.ofNat code)

/-- The loop over the header lines. -/
def parseHeaders : List Str → List (Str × Str)
  | [] => []
  | line :: lines =>
    if line = [] then []
    else match afterFirst ':' line with
      | some value => (trim (line.takeWhile (· ≠ ':')), trim value) :: parseHeaders lines
      | none => parseHeaders lines

/-- The size on a line of `parse_chunked`. -/
def chunkSize (line : List UInt8) : Option Nat := do
  let size ← fromUtf8 line
  fromStrRadix 16 (2 ^ 64) (trim (size.takeWhile (· ≠ ';')))

/-- The loop of `parse_chunked`. -/
def parseChunkedFrom (result data : List UInt8) : Except HttpError (List UInt8) :=
  match _h : position CRLF data with
  | none => .error .invalidChunk
  | some crlf =>
    match chunkSize (data.take crlf) with
    | none => .error .invalidChunk
    | some size =>
      let rest := data.drop (crlf + 2)
      if size = 0 then .ok result
      -- `checked_add(2)`, and the bytes that are there
      else if 2 ^ 64 ≤ size + 2 ∨ rest.length < size + 2 then .error .invalidChunk
      else parseChunkedFrom (result ++ rest.take size) (rest.drop (size + 2))
termination_by data.length
decreasing_by
  have := position_lt _h
  simp only [List.length_drop]
  omega

def parseChunked (data : List UInt8) : Except HttpError (List UInt8) := parseChunkedFrom [] data

def isChunked (headers : List (Str × Str)) : Bool :=
  headers.any fun (k, v) => eqIgnoreAsciiCase k "transfer-encoding".toList &&
    eqIgnoreAsciiCase (trim v) "chunked".toList

/-- What follows the header section, decoded. -/
def parseBody (headers : List (Str × Str)) (bodyRaw : List UInt8) : Except HttpError (List UInt8) :=
  if isChunked headers then parseChunked bodyRaw
  else match headers.find? fun (k, _) => eqIgnoreAsciiCase k "content-length".toList with
    | some (_, v) =>
      match parseUnsigned (2 ^ 64) (trim v) with
      | none => .error .invalidResponse
      | some len => .ok (bodyRaw.take (min len bodyRaw.length))
    | none => .ok bodyRaw

def parseResponse (raw : List UInt8) : Except HttpError HttpResponse := do
  match findHeaderEnd raw with
  | none => .error .invalidResponse
  | some sep =>
    match fromUtf8 (raw.take sep) with
    | none => .error .invalidResponse
    | some headerStr =>
      match splitCrlf headerStr with
      | [] => .error .invalidStatus
      | statusLine :: lines =>
        let status ← parseStatus statusLine
        let headers := parseHeaders lines
        let body ← parseBody headers (raw.drop (sep + 4))
        .ok { status, headers, body }

end Http
end OciKernel
