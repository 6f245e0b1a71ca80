import TaskService.Core.Negotiation
import TaskService.Lib.Rewriter

/-!
# Compressing responses

`ZstdMiddleware` of `core/compression.py`: the start of a response is withheld until its first body
message shows whether the body is compressed. Headers are changed the way `MutableHeaders` does.

* **`compression_transparent`**: what is forwarded of a well-formed response.
-/

namespace TaskService.Compression

abbrev Bytes := List UInt8

/-- An ASCII literal as bytes. -/
def ascii (s : String) : Bytes := s.toList.map fun c => UInt8.ofNat c.toNat

/-- `bytes.decode("latin-1")`. -/
def latin1 (bytes : Bytes) : PyStr :=
  bytes.map fun b => ⟨b.toNat, Nat.lt_trans b.toNat_lt (by decide)⟩

/-- `compression.zstd`. -/
structure Zstd where
  compress : Bytes → Bytes
  decompress : Bytes → Bytes
  decompress_compress : ∀ body, decompress (compress body) = body

/-! ## Headers -/

/-- No upper-case letter. -/
def isLower (name : Bytes) : Bool := name.all fun b => !(0x41 ≤ b && b ≤ 0x5A)

/-- The name of a header, which ASGI has in lower case. -/
abbrev HeaderName := {name : Bytes // isLower name = true}

abbrev Header := HeaderName × Bytes

def contentEncoding : HeaderName := ⟨ascii "content-encoding", by decide⟩
def contentLength : HeaderName := ⟨ascii "content-length", by decide⟩
def vary : HeaderName := ⟨ascii "vary", by decide⟩
def acceptEncoding : HeaderName := ⟨ascii "accept-encoding", by decide⟩

/-- All values of a header. -/
def valuesOf (name : HeaderName) (headers : List Header) : List Bytes :=
  (headers.filter fun header => header.1 = name).map Prod.snd

/-- `headers.get(name)`: the first value. -/
def getHeader (name : HeaderName) (headers : List Header) : Option Bytes :=
  (valuesOf name headers).head?

/-- `headers[name] = value`: the first header of the name is replaced and the others are
deleted; with none, one is added at the end. -/
def setHeader (name : HeaderName) (value : Bytes) : List Header → List Header
  | [] => [(name, value)]
  | header :: headers =>
    if header.1 = name then (name, value) :: headers.filter fun other => other.1 ≠ name
    else header :: setHeader name value headers

/-- `headers.add_vary_header(value)`. -/
def addVaryHeader (value : Bytes) (headers : List Header) : List Header :=
  match getHeader vary headers with
  | some existing => setHeader vary (existing ++ ascii ", " ++ value) headers
  | none => setHeader vary value headers

/-- `str(n)`, encoded. -/
def decimalBytes (n : Nat) : Bytes := ascii (toString n)

theorem valuesOf_setHeader_self (name : HeaderName) (value : Bytes) (headers : List Header) :
    valuesOf name (setHeader name value headers) = [value] := by
  induction headers with
  | nil => simp [setHeader, valuesOf]
  | cons header headers ih =>
    unfold setHeader
    split
    · have hnone : (headers.filter fun other => other.1 ≠ name).filter
          (fun header => header.1 = name) = [] := by
        rw [List.filter_filter, List.filter_eq_nil_iff]
        simp
      rw [valuesOf, List.filter_cons_of_pos (by simp), hnone]
      rfl
    next h =>
      rw [valuesOf, List.filter_cons_of_neg (by simpa using h)]
      exact ih

/-- Setting a header leaves those of other names alone. -/
theorem filter_setHeader (keeps : HeaderName → Bool) {name : HeaderName}
    (h : keeps name = false) (value : Bytes) (headers : List Header) :
    (setHeader name value headers).filter (fun header => keeps header.1)
      = headers.filter fun header => keeps header.1 := by
  have hskip : ∀ value headers, List.filter (fun header : Header => keeps header.1)
      ((name, value) :: headers) = headers.filter fun header => keeps header.1 :=
    fun value headers => List.filter_cons_of_neg (by simp [h])
  induction headers with
  | nil => exact hskip value []
  | cons header headers ih =>
    unfold setHeader
    split
    next hname =>
      rw [hskip, List.filter_filter, List.filter_cons_of_neg (by simp [hname, h])]
      refine List.filter_congr fun other _ => ?_
      by_cases hother : other.1 = name
      · simp [hother, h]
      · simp [hother]
    next =>
      rw [List.filter_cons, List.filter_cons, ih]

theorem valuesOf_setHeader_ne {name other : HeaderName} (h : other ≠ name) (value : Bytes)
    (headers : List Header) :
    valuesOf other (setHeader name value headers) = valuesOf other headers := by
  unfold valuesOf
  rw [filter_setHeader (fun name => decide (name = other)) (by simpa using h.symm)]

/-! ## The middleware -/

/-- What an application sends; the keys of a body message may be left out. -/
inductive Message where
  | start (status : Nat) (headers : List Header)
  | body (body : Option Bytes) (moreBody : Option Bool)
  | other (type : PyStr)

structure Scope where
  /-- `scope["type"] == "http"` -/
  isHttp : Bool
  headers : List Header

/-- `Headers(scope=scope).get("accept-encoding", "")`. -/
def Scope.acceptEncoding (scope : Scope) : PyStr :=
  latin1 ((getHeader Compression.acceptEncoding scope.headers).getD [])

/-- `start_message` and `handled`. -/
structure SendState where
  start : Option (Nat × List Header)
  handled : Bool

/-- The assertion that a start precedes the body. -/
inductive SendError where
  | noStart

/-- The headers of a compressed response. -/
def compressedHeaders (compressed : Bytes) (headers : List Header) : List Header :=
  addVaryHeader (ascii "Accept-Encoding")
    (setHeader contentLength (decimalBytes compressed.length)
      (setHeader contentEncoding (ascii "zstd") headers))

/-- The body is forwarded as it is: it is streamed, encoded or small. -/
def passes (minimumSize : Int) (headers : List Header) (body : Option Bytes)
    (moreBody : Option Bool) : Bool :=
  moreBody.getD false || (getHeader contentEncoding headers).isSome
    || decide (((body.getD []).length : Int) < minimumSize)

/-- `send_with_zstd`: the state after a message, and what is sent for it. -/
def sendWithZstd (zstd : Zstd) (minimumSize : Int) (s : SendState) :
    Message → Except SendError (SendState × List Message)
  | .start status headers => .ok ({ s with start := some (status, headers) }, [])
  | .other type => .ok (s, [.other type])
  | .body body moreBody =>
    match s.start with
    | none => .error .noStart
    | some (status, headers) =>
      if s.handled then .ok (s, [.body body moreBody])
      else if passes minimumSize headers body moreBody then
        .ok (⟨some (status, headers), true⟩, [.start status headers, .body body moreBody])
      else
        let compressed := zstd.compress (body.getD [])
        let headers := compressedHeaders compressed headers
        .ok (⟨some (status, headers), true⟩,
          [.start status headers, .body (some compressed) (some false)])

/-- `ZstdMiddleware.__call__`: what is forwarded of the messages an application sends. -/
def middleware (zstd : Zstd) (minimumSize : Int) (scope : Scope) (messages : List Message) :
    Except SendError (List Message) :=
  if !scope.isHttp || !clientAcceptsZstd scope.acceptEncoding then .ok messages
  else (Rewriter.run (sendWithZstd zstd minimumSize) ⟨none, false⟩ messages).map Prod.snd

/-! ## Responses -/

/-- A response: one start, then body messages with `more_body` true except the last. -/
def response (status : Nat) (headers : List Header) (chunks : List (Option Bytes))
    (last : Option Bytes) (lastMore : Option Bool) : List Message :=
  .start status headers :: (chunks.map (fun chunk => .body chunk (some true))
    ++ [.body last lastMore])

def WellFormed (messages : List Message) : Prop :=
  ∃ status headers chunks last lastMore, lastMore.getD false = false
    ∧ messages = response status headers chunks last lastMore

/-- The status and the headers of the first start. -/
def startOf : List Message → Option (Nat × List Header)
  | [] => none
  | .start status headers :: _ => some (status, headers)
  | _ :: messages => startOf messages

def statusOf (messages : List Message) : Option Nat := (startOf messages).map Prod.fst

def headersOf (messages : List Message) : List Header := ((startOf messages).map Prod.snd).getD []

/-- The bodies, put end to end. -/
def bodyOf (messages : List Message) : Bytes :=
  messages.flatMap fun message =>
    match message with
    | .body body _ => body.getD []
    | _ => []

/-- More than one body message. -/
def Streamed (messages : List Message) : Prop :=
  ∃ body, .body body (some true) ∈ messages

/-- The middleware added `Content-Encoding: zstd`. -/
def Added (sent forwarded : List Message) : Prop :=
  valuesOf contentEncoding (headersOf sent) = []
    ∧ valuesOf contentEncoding (headersOf forwarded) = [ascii "zstd"]

instance (sent forwarded : List Message) : Decidable (Added sent forwarded) :=
  inferInstanceAs (Decidable (_ ∧ _))

/-- A value of `Vary` names a header. -/
def Names (value : Bytes) (name : PyStr) : Prop :=
  ∃ part ∈ (latin1 value).splitOn comma, lower (strip part) = name

/-- Each `Content-Length` is the number of bytes in the body. -/
def LengthRight (messages : List Message) : Prop :=
  ∀ value ∈ valuesOf contentLength (headersOf messages),
    value = decimalBytes (bodyOf messages).length

/-- The headers that compression does not touch. -/
def untouched (headers : List Header) : List Header :=
  headers.filter fun header => header.1 ∉ [contentEncoding, contentLength, vary]

/-- What is forwarded stands for what was sent. -/
structure Transparent (zstd : Zstd) (sent forwarded : List Message) : Prop where
  wellFormed : WellFormed forwarded
  status : statusOf forwarded = statusOf sent
  headers : untouched (headersOf forwarded) = untouched (headersOf sent)
  /-- decompressed when `Content-Encoding` was added, and only then -/
  body : (if Added sent forwarded then zstd.decompress (bodyOf forwarded) else bodyOf forwarded)
    = bodyOf sent
  encoding : ¬ Added sent forwarded →
    valuesOf contentEncoding (headersOf forwarded) = valuesOf contentEncoding (headersOf sent)
  once : Streamed sent ∨ valuesOf contentEncoding (headersOf sent) ≠ [] → forwarded = sent
  length : LengthRight sent → LengthRight forwarded
  vary : Added sent forwarded → ∃ value ∈ valuesOf vary (headersOf forwarded),
    Names value (py "accept-encoding")

/-! ## What is forwarded -/

theorem getHeader_isSome_iff {name : HeaderName} {headers : List Header} :
    (getHeader name headers).isSome = true ↔ valuesOf name headers ≠ [] := by
  unfold getHeader
  cases valuesOf name headers <;> simp

section Run

variable {zstd : Zstd} {minimumSize : Int} {status : Nat} {headers : List Header}
  {body : Option Bytes} {moreBody : Option Bool}

/-- Once a body message is handled, the others go through. -/
theorem run_handled {messages : List Message}
    (h : ∀ message ∈ messages, ∃ body moreBody, message = .body body moreBody) :
    Rewriter.run (sendWithZstd zstd minimumSize) ⟨some (status, headers), true⟩ messages
      = .ok (⟨some (status, headers), true⟩, messages) := by
  refine Rewriter.run_forwarding fun message hmessage => ?_
  obtain ⟨body, moreBody, rfl⟩ := h message hmessage
  rfl

/-- A first body message that passes takes the start and the rest of the response with it. -/
theorem run_of_passes (hpasses : passes minimumSize headers body moreBody = true)
    {messages : List Message}
    (h : ∀ message ∈ messages, ∃ body moreBody, message = .body body moreBody) :
    (Rewriter.run (sendWithZstd zstd minimumSize) ⟨none, false⟩
        (.start status headers :: .body body moreBody :: messages)).map Prod.snd
      = .ok (.start status headers :: .body body moreBody :: messages) := by
  have hstart : sendWithZstd zstd minimumSize ⟨none, false⟩ (.start status headers)
      = .ok (⟨some (status, headers), false⟩, []) := rfl
  have hbody : sendWithZstd zstd minimumSize ⟨some (status, headers), false⟩ (.body body moreBody)
      = .ok (⟨some (status, headers), true⟩,
        [.start status headers, .body body moreBody]) := if_pos hpasses
  rw [Rewriter.run_cons_ok hstart, Rewriter.run_cons_ok hbody, run_handled h]
  rfl

/-- One that does not is the whole body, compressed. -/
theorem run_of_not_passes (hpasses : passes minimumSize headers body moreBody = false) :
    (Rewriter.run (sendWithZstd zstd minimumSize) ⟨none, false⟩
        [.start status headers, .body body moreBody]).map Prod.snd
      = .ok [.start status (compressedHeaders (zstd.compress (body.getD [])) headers),
          .body (some (zstd.compress (body.getD []))) (some false)] := by
  have hstart : sendWithZstd zstd minimumSize ⟨none, false⟩ (.start status headers)
      = .ok (⟨some (status, headers), false⟩, []) := rfl
  have hbody : sendWithZstd zstd minimumSize ⟨some (status, headers), false⟩ (.body body moreBody)
      = .ok (⟨some (status, compressedHeaders (zstd.compress (body.getD [])) headers), true⟩,
        [.start status (compressedHeaders (zstd.compress (body.getD [])) headers),
          .body (some (zstd.compress (body.getD []))) (some false)]) :=
    if_neg (by rw [hpasses]; decide)
  rw [Rewriter.run_cons_ok hstart, Rewriter.run_cons_ok hbody]
  rfl

end Run

/-! ## Transparency -/

/-- A response stands for itself. -/
theorem transparent_refl (zstd : Zstd) {messages : List Message} (h : WellFormed messages) :
    Transparent zstd messages messages := by
  have hadded : ¬ Added messages messages := by
    rintro ⟨hnone, hzstd⟩
    rw [hnone] at hzstd
    cases hzstd
  exact {
    wellFormed := h
    status := rfl
    headers := rfl
    body := if_neg hadded
    encoding := fun _ => rfl
    once := fun _ => rfl
    length := id
    vary := fun h => absurd h hadded }

theorem valuesOf_compressedHeaders_ne {name : HeaderName} (compressed : Bytes)
    (headers : List Header) (hname : name ≠ vary) :
    valuesOf name (compressedHeaders compressed headers)
      = valuesOf name (setHeader contentLength (decimalBytes compressed.length)
          (setHeader contentEncoding (ascii "zstd") headers)) := by
  unfold compressedHeaders addVaryHeader
  split <;> exact valuesOf_setHeader_ne hname _ _

theorem untouched_compressedHeaders (compressed : Bytes) (headers : List Header) :
    untouched (compressedHeaders compressed headers) = untouched headers := by
  have hset : ∀ name ∈ [contentEncoding, contentLength, vary], ∀ value headers,
      untouched (setHeader name value headers) = untouched headers := by
    intro name hname value headers
    exact filter_setHeader
      (fun name => decide (name ∉ [contentEncoding, contentLength, vary]))
      (decide_eq_false (not_not.mpr hname)) value headers
  unfold compressedHeaders addVaryHeader
  split
  all_goals rw [hset _ (by simp), hset _ (by simp), hset _ (by simp)]

/-- The last part of a header value that ends in a comma and a name. -/
theorem names_acceptEncoding (existing : Bytes) :
    Names (existing ++ ascii ", " ++ ascii "Accept-Encoding") (py "accept-encoding") := by
  have hlatin : latin1 (existing ++ ascii ", " ++ ascii "Accept-Encoding")
      = latin1 existing ++ comma :: py " Accept-Encoding" := by
    simp only [latin1, List.map_append, List.append_assoc]
    rfl
  refine ⟨py " Accept-Encoding", ?_, by decide⟩
  rw [hlatin, List.splitOn_append_cons_self]
  exact List.mem_append_right _ (by decide)

theorem vary_compressedHeaders (compressed : Bytes) (headers : List Header) :
    ∃ value ∈ valuesOf vary (compressedHeaders compressed headers),
      Names value (py "accept-encoding") := by
  unfold compressedHeaders addVaryHeader
  split
  next existing _ =>
    rw [valuesOf_setHeader_self]
    exact ⟨_, List.mem_singleton_self _, names_acceptEncoding existing⟩
  next =>
    rw [valuesOf_setHeader_self]
    exact ⟨_, List.mem_singleton_self _, py "Accept-Encoding", by decide, by decide⟩

/-- A body in one piece, compressed, stands for the body. -/
theorem transparent_compressed (zstd : Zstd) {status : Nat} {headers : List Header}
    {body : Option Bytes} {moreBody : Option Bool} (hmore : moreBody.getD false = false)
    (hencoding : valuesOf contentEncoding headers = []) :
    Transparent zstd [.start status headers, .body body moreBody]
      [.start status (compressedHeaders (zstd.compress (body.getD [])) headers),
        .body (some (zstd.compress (body.getD []))) (some false)] := by
  have hzstd : valuesOf contentEncoding
      (compressedHeaders (zstd.compress (body.getD [])) headers) = [ascii "zstd"] := by
    rw [valuesOf_compressedHeaders_ne _ _ (by decide), valuesOf_setHeader_ne (by decide),
      valuesOf_setHeader_self]
  have hadded : Added [.start status headers, .body body moreBody]
      [.start status (compressedHeaders (zstd.compress (body.getD [])) headers),
        .body (some (zstd.compress (body.getD []))) (some false)] := ⟨hencoding, hzstd⟩
  constructor
  case wellFormed => exact ⟨status, _, [], _, some false, rfl, rfl⟩
  case status => rfl
  case headers => exact untouched_compressedHeaders _ headers
  -- The header says zstd, so the client decompresses.
  case body =>
    rw [if_pos hadded]
    simp [bodyOf, zstd.decompress_compress]
  case encoding => exact fun h => absurd hadded h
  case once =>
    rintro (⟨chunk, hchunk⟩ | hencoded)
    · obtain ⟨-, rfl⟩ : body = chunk ∧ moreBody = some true := by simpa [eq_comm] using hchunk
      cases hmore
    · exact absurd hencoding hencoded
  case length =>
    intro _ value hvalue
    have hset : value ∈ valuesOf contentLength
        (compressedHeaders (zstd.compress (body.getD [])) headers) := hvalue
    rw [valuesOf_compressedHeaders_ne _ _ (by decide), valuesOf_setHeader_self,
      List.mem_singleton] at hset
    rw [hset]
    simp [bodyOf]
  case vary => exact fun _ => vary_compressedHeaders _ headers

/-- **Compression is transparent**, and nothing changes for a client that does not accept zstd. -/
theorem compression_transparent (zstd : Zstd) (minimumSize : Int) (scope : Scope)
    {messages : List Message} (h : WellFormed messages) :
    ∃ forwarded, middleware zstd minimumSize scope messages = .ok forwarded
      ∧ Transparent zstd messages forwarded
      ∧ (¬ Advertises scope.acceptEncoding → forwarded = messages) := by
  unfold middleware
  by_cases haccepts : (!scope.isHttp || !clientAcceptsZstd scope.acceptEncoding) = true
  · rw [if_pos haccepts]
    exact ⟨messages, rfl, transparent_refl zstd h, fun _ => rfl⟩
  · rw [if_neg haccepts]
    have hadvertises : Advertises scope.acceptEncoding := by
      rw [← clientAcceptsZstd_iff]
      by_contra hrefused
      exact haccepts (by simp [hrefused])
    obtain ⟨status, headers, chunks, last, lastMore, hlast, rfl⟩ := h
    have hbodies : ∀ chunks : List (Option Bytes), ∀ message ∈ chunks.map
        (fun chunk => Message.body chunk (some true)) ++ [.body last lastMore],
          ∃ body moreBody, message = .body body moreBody := by
      intro chunks message hmessage
      rcases List.mem_append.mp hmessage with hmessage | hmessage
      · obtain ⟨chunk, _, rfl⟩ := List.mem_map.mp hmessage
        exact ⟨chunk, some true, rfl⟩
      · exact ⟨last, lastMore, List.mem_singleton.mp hmessage⟩
    have hwell : WellFormed (response status headers chunks last lastMore) :=
      ⟨status, headers, chunks, last, lastMore, hlast, rfl⟩
    cases chunks with
    | nil =>
      cases hpasses : passes minimumSize headers last lastMore with
      | true =>
        exact ⟨_, run_of_passes hpasses (fun _ h => nomatch h), transparent_refl zstd hwell,
          fun h => absurd hadvertises h⟩
      | false =>
        have hencoding : valuesOf contentEncoding headers = [] := by
          by_contra hencoded
          rw [passes, getHeader_isSome_iff.mpr hencoded] at hpasses
          simp at hpasses
        exact ⟨_, run_of_not_passes hpasses, transparent_compressed zstd hlast hencoding,
          fun h => absurd hadvertises h⟩
    | cons chunk chunks =>
      -- a first chunk says that more follow
      have hpasses : passes minimumSize headers chunk (some true) = true := by simp [passes]
      exact ⟨_, run_of_passes hpasses (hbodies chunks), transparent_refl zstd hwell,
        fun h => absurd hadvertises h⟩

/-! ## A body of three bytes -/

/-- A frame of one raw block, which is what zstd makes of a body this short. -/
def rawFrame : Zstd where
  compress body :=
    [0x28, 0xB5, 0x2F, 0xFD, 0x20, UInt8.ofNat body.length, UInt8.ofNat (8 * body.length + 1), 0, 0]
      ++ body
  decompress frame := frame.drop 9
  decompress_compress _ := rfl

def accepting : Scope := ⟨true, [(acceptEncoding, ascii "gzip, zstd")]⟩

def shortResponse : List Message :=
  [.start 200 [(contentLength, ascii "3"), (vary, ascii "Origin")], .body (some (ascii "abc")) none]

theorem compression_transparent_short : ∃ forwarded,
    middleware rawFrame 3 accepting shortResponse = .ok forwarded
      ∧ Transparent rawFrame shortResponse forwarded
      ∧ headersOf forwarded = [(contentLength, ascii "12"),
          (vary, ascii "Origin, Accept-Encoding"), (contentEncoding, ascii "zstd")]
      ∧ (bodyOf forwarded).length = 12 := by
  have hshort : WellFormed shortResponse := ⟨200, _, [], _, none, rfl, rfl⟩
  obtain ⟨forwarded, hrun, htransparent, -⟩ := compression_transparent rawFrame 3 accepting hshort
  have heval : middleware rawFrame 3 accepting shortResponse
      = .ok [.start 200 [(contentLength, ascii "12"), (vary, ascii "Origin, Accept-Encoding"),
          (contentEncoding, ascii "zstd")],
        .body (some (rawFrame.compress (ascii "abc"))) (some false)] := rfl
  obtain rfl := Except.ok.inj (heval.symm.trans hrun)
  exact ⟨_, hrun, htransparent, rfl, rfl⟩

end TaskService.Compression
