import Wasapi.Ctype
import Wasapi.Fastcgi.Wire
import Wasapi.Library.Search
import Wasapi.Request

/-!
# Reading HTTP requests

The three places of the websocket server that read a header block: `parse_http_headers`, which looks
for the websocket key, the scan for the content length in `serve`, and the request built by
`schedule_http`. Each of them works on its own copy of the text, with its own idea of a header line.

SHA-1 comes from a library and is an argument. So are the parsers `schedule_http` calls on the
request it has built; they set parameters, cookies and files.
-/

namespace Wasapi.Websockets

def crlf : Bytes := [13, 10]

def isBlank (b : UInt8) : Bool := b = 32 || b = 9

/-- `trim_spaces` -/
def trimSpaces (s : Bytes) : Bytes := (s.dropWhile isBlank).rdropWhile isBlank

/-! ## `parse_http_headers`

The key is looked for as a text in the whole block, and not line by line. What follows the text up
to the end of its line is taken for the value. -/

def base64Table : Bytes :=
  ascii "ABCDEFGHIJKLMNOPQRSTUVWXYZabcdefghijklmnopqrstuvwxyz0123456789+/"

def base64Digit (n : ℕ) : UInt8 := base64Table.getD (n % 64) 0

def base64Encode : Bytes → Bytes
  | [] => []
  | [a] =>
    let v := a.toNat * 65536
    [base64Digit (v / 262144), base64Digit (v / 4096), 61, 61]
  | [a, b] =>
    let v := a.toNat * 65536 + b.toNat * 256
    [base64Digit (v / 262144), base64Digit (v / 4096), base64Digit (v / 64), 61]
  | a :: b :: c :: data =>
    let v := a.toNat * 65536 + b.toNat * 256 + c.toNat
    base64Digit (v / 262144) :: base64Digit (v / 4096) :: base64Digit (v / 64) :: base64Digit v
      :: base64Encode data

/-- The key and the response key, if the block holds a websocket key. -/
def parseHttpHeaders (sha1 : Bytes → Bytes) (http : Bytes) : Option (Bytes × Bytes) :=
  match findPattern (ascii "Sec-WebSocket-Key:") http with
  | none => none
  | some pos =>
    let rest := (http.drop (pos + 18)).dropWhile isBlank
    match findPattern [13] rest with
    | none => none
    | some n =>
      let key := (rest.take n).rdropWhile isBlank
      some (key, base64Encode (sha1 (key ++ ascii "258EAFA5-E914-47DA-95CA-C5AB0DC85B11")))

/-! ## The content length

The scan goes over the lines, takes their names in lower case, and stops at the first content
length. `strtoull` skips white space, takes a sign and digits, and ignores the rest. -/

/-- `std::strtoull` in base 10. A number that does not fit is replaced by the largest one. -/
def strtoull (s : Bytes) : ℕ :=
  let s := s.dropWhile isSpace
  let negative := s.head? = some 45
  let digits := (if negative || s.head? = some 43 then s.tail else s).takeWhile isDigit
  let n := digits.foldl (fun n d ↦ n * 10 + (d.toNat - 48)) 0
  if 2 ^ 64 ≤ n then 2 ^ 64 - 1 else if negative then (2 ^ 64 - n) % 2 ^ 64 else n

/-- The loop over the lines of `headers`: the first content length. -/
def contentLengthLoop : ℕ → Bytes → Option ℕ
  | 0, _ => none
  | fuel + 1, headers =>
    match findPattern crlf headers with
    | none | some 0 => none
    | some lend =>
      let line := headers.take lend
      match findPattern [58] line with
      | some colon =>
        if (line.take colon).map toLower = ascii "content-length" then
          some (strtoull (trimSpaces (line.drop (colon + 1))))
        else contentLengthLoop fuel (headers.drop (lend + 2))
      | none => contentLengthLoop fuel (headers.drop (lend + 2))

def contentLength (headers : Bytes) : Option ℕ := contentLengthLoop headers.length headers

/-! ## The request of `schedule_http`

A request line without a blank sets no variables, and a header line without a colon is passed over.
A header that comes twice leaves its last value. -/

/-- The variables of the request line. -/
def requestLineEnv (wsPathPrefix firstLine : Bytes) (env : DynamicVariable) : DynamicVariable :=
  match findPattern [32] firstLine with
  | none => env
  | some msp =>
    let method := firstLine.take msp
    let rest := firstLine.drop (msp + 1)
    let target := match findPattern [32] rest with
      | none => []
      | some psp => rest.take psp
    let path := match findPattern [63] target with
      | none => target
      | some q => target.take q
    let query := match findPattern [63] target with
      | none => []
      | some q => target.drop (q + 1)
    let strips := !wsPathPrefix.isEmpty && target.take wsPathPrefix.length = wsPathPrefix
    let strippedTarget :=
      if strips then
        if (target.drop wsPathPrefix.length).isEmpty then ascii "/"
        else target.drop wsPathPrefix.length
      else target
    let strippedPath :=
      if strips then
        match findPattern [63] strippedTarget with
        | none => strippedTarget
        | some q => strippedTarget.take q
      else path
    (((env.assign (ascii "REQUEST_METHOD") (.string method)).assign
      (ascii "REQUEST_URI") (.string strippedTarget)).assign
      (ascii "PATH_INFO") (.string strippedPath)).assign (ascii "QUERY_STRING") (.string query)

/-- The names and values of the header lines of `text`. -/
def headerFields : ℕ → Bytes → List (Bytes × Bytes)
  | 0, _ => []
  | fuel + 1, text =>
    match findPattern crlf text with
    | none | some 0 => []
    | some next =>
      let line := text.take next
      match findPattern [58] line with
      | none => headerFields fuel (text.drop (next + 2))
      | some colon =>
        (line.take colon, trimSpaces (line.drop (colon + 1)))
          :: headerFields fuel (text.drop (next + 2))

/-- The name of the variable of a header. -/
def headerVariable (name : Bytes) : Bytes :=
  ascii "HTTP_" ++ (name.map toUpper).map fun b ↦ if b = 45 then 95 else b

/-- `headers[name]`: the last field of that name. -/
def headerValue (fields : List (Bytes × Bytes)) (name : Bytes) : Option Bytes :=
  fields.reverse.lookup name

def assignHeader (fields : List (Bytes × Bytes)) (name variableName : Bytes)
    (env : DynamicVariable) : DynamicVariable :=
  match headerValue fields name with
  | none => env
  | some value => env.assign variableName (.string value)

theorem find_assignHeader (fields : List (Bytes × Bytes)) {key variableName : Bytes}
    (hne : key ≠ variableName) (name : Bytes) (env : DynamicVariable) :
    (assignHeader fields name variableName env).find key = env.find key := by
  rw [assignHeader]
  split
  · rfl
  · exact DynamicVariable.find_assign_of_ne _ _ hne

/-- Headers set variables of their own. -/
theorem find_foldl_headers (fields : List (Bytes × Bytes)) {key : Bytes}
    (hkey : key.head? ≠ some 72) (env : DynamicVariable) :
    (fields.foldl (fun env f ↦ env.assign (headerVariable f.1) (.string f.2)) env).find key
      = env.find key := by
  induction fields generalizing env with
  | nil => rfl
  | cons f fields ih =>
    rw [List.foldl_cons, ih]
    refine DynamicVariable.find_assign_of_ne _ _ ?_
    rintro rfl
    exact hkey rfl

/-- What `std::to_string` gives for an `int`. -/
def decimal (n : ℤ) : Bytes := ascii (toString n)

/-- What the parsers do to a request. -/
def parsed (parse : Request → Request) (r : Request) : Request :=
  { r with
    params := (parse r).params
    cookies := (parse r).cookies
    files := (parse r).files }

/-- The request `schedule_http` builds in `r` for the client at `fd`. -/
def httpRequest (wsPathPrefix : Bytes) (parse : Request → Request) (fd : ℤ)
    (requestText body : Bytes) (r : Request) : Request :=
  let firstLine := match findPattern crlf requestText with
    | none => requestText
    | some lineEnd => requestText.take lineEnd
  let rest := match findPattern crlf requestText with
    | none => []
    | some lineEnd => requestText.drop (lineEnd + 2)
  let fields := headerFields rest.length rest
  let env := requestLineEnv wsPathPrefix firstLine r.env
  let env := env.assign (ascii "SERVER_PROTOCOL") (.string (ascii "HTTP/1.1"))
  let env := fields.foldl (fun env f ↦ env.assign (headerVariable f.1) (.string f.2)) env
  let env := assignHeader fields (ascii "Content-Type") (ascii "CONTENT_TYPE") env
  let env := assignHeader fields (ascii "Content-Length") (ascii "CONTENT_LENGTH") env
  let r := parsed parse { r with
    env := env
    body := body
    bodyBytes := body.length
    flags := { r.flags with initialized := true, paramsComplete := true, inputComplete := true } }
  { r with
    env := (r.env.assign (ascii "WS") (.string (ascii "0"))).assign (ascii "CLIENT_FD")
      (.string (decimal fd)) }

end Wasapi.Websockets
