import OciKernel.Net.HttpRender

/-!
# Net.HttpRequest

The request that `get_with_headers` of `net/http.rs` writes. A line break in what the caller passes in is
a line break of the request.

* `request_lines`: the lines a server reads, and when they are the ones meant.
-/

namespace OciKernel

open Text

namespace Http

/-- `req`, once the extra headers are pushed. -/
def requestText (host path : Str) (extraHeaders : List (Str × Str)) : Str :=
  "GET ".toList ++ path ++ " HTTP/1.1\r\nHost: ".toList ++ host ++
    "\r\nConnection: close\r\nUser-Agent: oci-kernel/0.1\r\n".toList ++
    extraHeaders.flatMap (fun header => header.1 ++ ": ".toList ++ header.2 ++ "\r\n".toList) ++
    "\r\n".toList

def requestLine (path : Str) : Str := "GET ".toList ++ path ++ " HTTP/1.1".toList

def hostLine (host : Str) : Str := "Host: ".toList ++ host

/-- The lines of a request, the blank one at the end included. -/
def requestLines (host path : Str) (extraHeaders : List (Str × Str)) : List Str :=
  [requestLine path, hostLine host, "Connection: close".toList, "User-Agent: oci-kernel/0.1".toList] ++
    extraHeaders.map headerLine ++ [[]]

theorem requestText_eq (host path : Str) (extraHeaders : List (Str × Str)) :
    requestText host path extraHeaders =
      (requestLines host path extraHeaders).flatMap (· ++ "\r\n".toList) := by
  have hheaders : (extraHeaders.map headerLine).flatMap (· ++ "\r\n".toList) =
      extraHeaders.flatMap fun header => header.1 ++ ": ".toList ++ header.2 ++ "\r\n".toList := by
    rw [List.flatMap_map]
    refine List.flatMap_congr fun header _ => ?_
    simp [headerLine]
  have hfirst : [requestLine path, hostLine host, "Connection: close".toList,
      "User-Agent: oci-kernel/0.1".toList].flatMap (· ++ "\r\n".toList) =
      "GET ".toList ++ path ++ " HTTP/1.1\r\nHost: ".toList ++ host ++
        "\r\nConnection: close\r\nUser-Agent: oci-kernel/0.1\r\n".toList := by
    unfold requestLine hostLine
    simp
  rw [requestLines, List.flatMap_append, List.flatMap_append, hfirst, hheaders]
  rfl

section Unbroken

variable {host path : Str} {header : Str × Str} {extraHeaders : List (Str × Str)}

theorem unbroken_requestLine : Unbroken (requestLine path) ↔ Unbroken path := by
  have hfirst : Unbroken "GET ".toList := unbroken_of_notMem (by decide)
  have hlast : Unbroken " HTTP/1.1".toList := unbroken_of_notMem (by decide)
  unfold requestLine
  rw [unbroken_append (.inr (by decide)), unbroken_append (.inl (by decide)), and_iff_left hlast,
    and_iff_right hfirst]

theorem unbroken_hostLine : Unbroken (hostLine host) ↔ Unbroken host := by
  have hname : Unbroken "Host: ".toList := unbroken_of_notMem (by decide)
  unfold hostLine
  rw [unbroken_append (.inl (by decide)), and_iff_right hname]

theorem unbroken_headerLine : Unbroken (headerLine header) ↔ Unbroken header.1 ∧ Unbroken header.2 := by
  have hsep : Unbroken ": ".toList := unbroken_of_notMem (by decide)
  have hline : headerLine header = header.1 ++ (": ".toList ++ header.2) := rfl
  have hhead : (": ".toList ++ header.2).head? ≠ some '\n' := by simp
  rw [hline, unbroken_append (.inr hhead), unbroken_append (.inl (by decide)), and_iff_right hsep]

/-- What the caller passes in has no line break. -/
structure Plain (host path : Str) (extraHeaders : List (Str × Str)) : Prop where
  host : Unbroken host
  path : Unbroken path
  headers : ∀ header ∈ extraHeaders, Unbroken header.1 ∧ Unbroken header.2

theorem unbroken_requestLines : (∀ l ∈ requestLines host path extraHeaders, Unbroken l) ↔
    Plain host path extraHeaders := by
  have hfixed : ∀ l ∈ ["Connection: close".toList, "User-Agent: oci-kernel/0.1".toList], Unbroken l := by
    intro l hl
    refine unbroken_of_notMem ?_
    revert l
    decide
  have hblank : ∀ l ∈ [([] : Str)], Unbroken l := by simp [Unbroken]
  rw [requestLines, List.forall_mem_append, List.forall_mem_append, List.forall_mem_cons,
    List.forall_mem_cons, List.forall_mem_map, unbroken_requestLine, unbroken_hostLine]
  constructor
  · rintro ⟨⟨⟨hpath, hhost, -⟩, hheaders⟩, -⟩
    exact ⟨hhost, hpath, fun header hm => unbroken_headerLine.1 (hheaders header hm)⟩
  · rintro ⟨hhost, hpath, hheaders⟩
    exact ⟨⟨⟨hpath, hhost, hfixed⟩, fun header hm => unbroken_headerLine.2 (hheaders header hm)⟩, hblank⟩

end Unbroken

/-- What a server reads line by line off the bytes sent. -/
def linesRead (request : List UInt8) : Option (List Str) := (fromUtf8 request).map splitCrlf

theorem linesRead_eq (host path : Str) (extraHeaders : List (Str × Str)) :
    linesRead (toUtf8 (requestText host path extraHeaders)) =
      some ((requestLines host path extraHeaders).flatMap splitCrlf ++ [[]]) := by
  rw [linesRead, fromUtf8_toUtf8, Option.map_some, requestText_eq, splitCrlf_terminated]

theorem linesRead_plain_iff (host path : Str) (extraHeaders : List (Str × Str)) :
    linesRead (toUtf8 (requestText host path extraHeaders)) =
      some (requestLines host path extraHeaders ++ [[]]) ↔ Plain host path extraHeaders := by
  rw [linesRead_eq, Option.some_inj, List.append_left_inj, flatMap_splitCrlf_iff, unbroken_requestLines]

/-- A server reads each line of the request cut at the breaks it holds, and the lines that were meant if
and only if what the caller passes in has none. -/
theorem request_lines (host path : Str) (extraHeaders : List (Str × Str)) :
    linesRead (toUtf8 (requestText host path extraHeaders)) =
        some ((requestLines host path extraHeaders).flatMap splitCrlf ++ [[]]) ∧
      (linesRead (toUtf8 (requestText host path extraHeaders)) =
          some (requestLines host path extraHeaders ++ [[]]) ↔ Plain host path extraHeaders) :=
  ⟨linesRead_eq host path extraHeaders, linesRead_plain_iff host path extraHeaders⟩

end Http

end OciKernel
