import Casprix.Library.Bytes
import Casprix.Library.Substring

/-! How the HTTP server reads a request from a connection, up to the point where it is handed
to the route. A connection is the chunks in which its bytes arrive, and is closed after them. -/
namespace Casprix.Net

open Library List

inductive HttpMethod
  | get | post | put | delete | head
  deriving DecidableEq, Repr

/-- The bytes of the body are those up to `body_length`. -/
structure HttpRequest where
  method : HttpMethod
  path : List Byte
  url : List Byte
  headers : List (List Byte)
  body : List Byte
  deriving DecidableEq

def HttpRequest.bodyLength (request : HttpRequest) : Nat := request.body.length

def cr : Byte := 13
def lf : Byte := 10

def crlf : List Byte := [cr, lf]

/-- The end of the headers. -/
def headerEnd : List Byte := crlf ++ crlf

/-- What the string functions see of a buffer. -/
def cString (bytes : List Byte) : List Byte := bytes.takeWhile (· != 0)

/-- `strstr`, as the offset of what it finds. -/
def strstr (bytes pattern : List Byte) : Option Nat :=
  (findSuffix pattern (cString bytes)).map fun suffix => (cString bytes).length - suffix.length

def isSpace (b : Byte) : Bool := b == 32 || (9 ≤ b && b ≤ 13)

def isDigit (b : Byte) : Bool := 48 ≤ b && b ≤ 57

/-- A `%s` directive with a width: the word, and the input after it. -/
def scanWord (width : Nat) (input : List Byte) : Option (List Byte × List Byte) :=
  let input := input.dropWhile isSpace
  let word := (input.take width).takeWhile (!isSpace ·)
  if word = [] then none else some (word, input.drop word.length)

/-- The ASCII bytes of a name. -/
def ascii (name : String) : List Byte := name.toList.map fun c => BitVec.ofNat 8 c.toNat

def lowered (c : Byte) : Byte := if 65 ≤ c && c ≤ 90 then c + 32 else c

def parseMethod (str : List Byte) : HttpMethod :=
  if str = ascii "GET" then .get
  else if str = ascii "POST" then .post
  else if str = ascii "PUT" then .put
  else if str = ascii "DELETE" then .delete
  else if str = ascii "HEAD" then .head
  else .get

def contentLengthName : List Byte := ascii "content-length:"

/-- The declared body size is capped. -/
def bodyCap : Nat := 64 * 1024 * 1024

/-- The digits of a header value, up to the cap. -/
def parseCapped (parsed : Nat) : List Byte → Nat
  | [] => parsed
  | v :: rest =>
    if isDigit v then
      let parsed := parsed * 10 + (v.toNat - 48)
      if bodyCap < parsed then bodyCap else parseCapped parsed rest
    else parsed

def isContentLength (h : List Byte) : Bool :=
  (h.take contentLengthName.length).map lowered == contentLengthName

def isBlank (b : Byte) : Bool := b == 32 || b == 9

/-- The value of a `Content-Length` header, after the blanks. -/
def lengthValue (h : List Byte) : List Byte := (h.drop contentLengthName.length).dropWhile isBlank

/-- A value that does not begin with a digit counts as zero, as no digits do. -/
def requestContentLength : List (List Byte) → Nat
  | [] => 0
  | h :: headers =>
    if isContentLength h then parseCapped 0 (lengthValue h) else requestContentLength headers

def maxHeaders : Nat := 32

/-- The header loop, with the headers that it has stored. -/
def parseHeaders (stored : List (List Byte)) (hdr : List Byte) : List (List Byte) :=
  if hdr = [] then stored
  else
    match strstr hdr crlf with
    | none | some 0 => stored
    | some (n + 1) =>
      parseHeaders (if stored.length < maxHeaders then stored ++ [hdr.take (n + 1)] else stored)
        (hdr.drop (n + 1 + 2))
termination_by hdr.length
decreasing_by
  rw [length_drop]
  have hPos := length_pos_iff.mpr ‹hdr ≠ []›
  omega

/-- The request, and the numbers of body bytes that are there and that are wanted. -/
def parseRequest (raw : List Byte) : Option (HttpRequest × Nat × Nat) :=
  match strstr raw crlf with
  | none => none
  | some lineEnd =>
    match scanWord 15 (cString raw) with
    | none => none
    | some (methodStr, input) =>
      match scanWord 1023 input with
      | none => none
      | some (path, _) =>
        let headers := parseHeaders [] (raw.drop (lineEnd + 2))
        let request := { method := parseMethod methodStr, path, url := path, headers, body := [] }
        match strstr raw headerEnd with
        | none => some (request, 0, 0)
        | some bodyStart =>
          let body := raw.drop (bodyStart + 4)
          some ({ request with body }, body.length, requestContentLength headers)

/-- A call of `recv`: at most so many bytes of the first chunk, none when the peer has closed. -/
def recv (length : Nat) : List (List Byte) → List Byte × List (List Byte)
  | [] => ([], [])
  | chunk :: chunks => (chunk.take length,
    if length < chunk.length then chunk.drop length :: chunks else chunks)

/-- The size of the buffer, less its last NUL. -/
def bufferSize : Nat := 8191

/-- The loop that reads until the end of the headers is in the buffer. -/
def readHeaders (buffer : List Byte) (chunks : List (List Byte)) : List Byte × List (List Byte) :=
  if buffer.length < bufferSize then
    match recv (bufferSize - buffer.length) chunks with
    | (received, chunks) =>
      if received = [] then (buffer, chunks)
      else if (strstr (buffer ++ received) headerEnd).isSome then (buffer ++ received, chunks)
      else readHeaders (buffer ++ received) chunks
  else (buffer, chunks)
termination_by bufferSize - buffer.length
decreasing_by
  have hPos := length_pos_iff.mpr ‹received ≠ []›
  rw [length_append]
  omega

/-- `recv_exact`: so many bytes, or nothing when the peer closes before. -/
def recvExact (need : Nat) (chunks : List (List Byte)) : Option (List Byte) :=
  if need = 0 then some []
  else
    match recv need chunks with
    | (received, chunks) =>
      if received = [] then none
      else (recvExact (need - received.length) chunks).map (received ++ ·)
termination_by need
decreasing_by
  have hPos := length_pos_iff.mpr ‹received ≠ []›
  omega

/-- The chunks in which a byte string arrives. -/
structure Arrives (chunks : List (List Byte)) (bytes : List Byte) : Prop where
  nonempty : ∀ chunk ∈ chunks, chunk ≠ []
  flatten : chunks.flatten = bytes

/-- How a connection ends: closed without an answer, with one of the two refusals, or with a
request for the middleware and the route. -/
inductive Connection
  | closed
  | badRequest
  | incompleteBody
  | handed (request : HttpRequest)
  deriving DecidableEq

def handleConnection (chunks : List (List Byte)) : Connection :=
  let (buffer, chunks) := readHeaders [] chunks
  if buffer = [] then .closed
  else
    match parseRequest buffer with
    | none => .badRequest
    | some (request, bodyHave, bodyWant) =>
      if bodyHave < bodyWant then
        match recvExact (bodyWant - bodyHave) chunks with
        | none => .incompleteBody
        | some more => .handed { request with body := request.body ++ more }
      else .handed request

/-- A word of the request line. -/
def IsToken (word : List Byte) : Prop :=
  word ≠ [] ∧ ∀ b ∈ word, isSpace b = false ∧ b ≠ 0

def IsHeader (line : List Byte) : Prop :=
  line ≠ [] ∧ ∀ b ∈ line, b ≠ 0 ∧ b ≠ cr ∧ b ≠ lf

/-- The number that a header value begins with. -/
def decimalValue (number : Nat) : List Byte → Nat
  | [] => number
  | v :: rest => if isDigit v then decimalValue (number * 10 + (v.toNat - 48)) rest else number

/-- The `Content-Length` of a list of headers, or zero when it is absent. -/
def declaredLength (headers : List (List Byte)) : Nat :=
  match headers.find? isContentLength with
  | some h => decimalValue 0 (lengthValue h)
  | none => 0

/-- A request, and what the connection carries after it. -/
structure WellFormedRequest where
  method : List Byte
  target : List Byte
  version : List Byte
  headers : List (List Byte)
  body : List Byte
  rest : List Byte
  isMethod : IsToken method
  isTarget : IsToken target
  isVersion : IsToken version
  areHeaders : ∀ line ∈ headers, IsHeader line
  declared : body.length = declaredLength headers

/-- Lines, each with its end, and an empty one. -/
def headerBlock (lines : List (List Byte)) : List Byte := lines.flatMap (· ++ crlf) ++ crlf

namespace WellFormedRequest

def requestLine (r : WellFormedRequest) :
    List Byte := r.method ++ 32 :: (r.target ++ 32 :: r.version)

/-- The bytes up to the body. -/
def block (r : WellFormedRequest) : List Byte := headerBlock (r.requestLine :: r.headers)

def bytes (r : WellFormedRequest) : List Byte := r.block ++ (r.body ++ r.rest)

end WellFormedRequest

end Casprix.Net
