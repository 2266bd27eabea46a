import Wasapi.Json.Printer
import Wasapi.Websockets.Http

/-!
# Multipart form data

`extract_files_from_formdata`. Every position in the body is replaced by what follows it. The sizes
of strings are far below `2^53`, so converting one to a `double` is exact.

What `mkstemp` and `write` do is an argument. The contents of the temporary files are not modelled.
-/

namespace Wasapi.Http

open Websockets Json

/-- What `mkstemp` and `write` return. -/
structure TempFiles where
  /-- the path of the file of the `n`-th call, if one could be made -/
  mkstemp (n : ℕ) (pattern : Bytes) : Option Bytes
  /-- for this file, with so much of it written and so much left -/
  write (n written left : ℕ) : ℤ

/-- The header of a part. -/
structure PartHead where
  fieldName : Bytes := []
  filename : Bytes := []
  ctype : Bytes := []
  deriving DecidableEq

/-- What the function changes. -/
structure FormData where
  formFields : AList fun _ : Bytes ↦ Bytes
  files : DynamicVariable
  /-- how often `mkstemp` has been called -/
  calls : ℕ := 0

/-! ## Headers

What the two loops keep between their turns is the header of the part as it has been read so far.
Nothing is taken back, so a later attribute of the same name overwrites an earlier one. -/

/-- One turn of the loop over the content disposition: `rest` is what follows `p`, and a semicolon
or the end is at `sc`. -/
def readAttribute (rest : Bytes) (sc : ℕ) (head : PartHead) : PartHead :=
  match findPattern [61] rest with
  | none => head
  | some eqp =>
    -- otherwise the `=` belongs to a later attribute
    if eqp < sc then
      let attr := trimSpaces (rest.take eqp)
      let value := ((rest.take sc).drop (eqp + 1)).dropWhile isBlank
      if value.head? = some 34 ∧ 1 < value.length ∧ value.getLast? = some 34 then
        let aval := value.tail.dropLast
        if attr = ascii "name" then { head with fieldName := aval }
        else if attr = ascii "filename" then { head with filename := aval }
        else head
      else head
    else head

/-- The loop over the content disposition. -/
def readDisposition : ℕ → Bytes → PartHead → PartHead
  | 0, _, head => head
  | fuel + 1, rest, head =>
    match findPattern [59] rest with
    | none => readAttribute rest rest.length head
    | some sc => readDisposition fuel (rest.drop (sc + 1)) (readAttribute rest sc head)

def readHeader (line : Bytes) (head : PartHead) : PartHead :=
  match findPattern [58] line with
  | none => head
  | some colon =>
    let name := (line.take colon).map toLower
    let value := trimSpaces (line.drop (colon + 1))
    if name = ascii "content-disposition" then readDisposition value.length value head
    else if name = ascii "content-type" then { head with ctype := value }
    else head

/-- The loop over the lines of `headers`. -/
def readHeaders : ℕ → Bytes → PartHead → PartHead
  | 0, _, head => head
  | fuel + 1, headers, head =>
    let lineEnd := (findPattern crlf headers).getD headers.length
    let line := headers.take lineEnd
    if line = [] then head else readHeaders fuel (headers.drop (lineEnd + 2)) (readHeader line head)

/-! ## Files

The temporary file is made with `mkstemp` and written in a loop. If either fails the file is not
listed, and the rest of the body is read all the same. -/

def fnvStep (hv : UInt64) (b : UInt8) : UInt64 := (hv ^^^ b.toUInt64) * 1099511628211

/-- The digits of `n` that `%016llx` and the like write. -/
def hexText : ℕ → ℕ → Bytes
  | 0, _ => []
  | digits + 1, n => hexText digits (n / 16) ++ [hexDigit (n % 16)]

/-- `hash_hex` -/
def contentHash (content : Bytes) : Bytes :=
  hexText 16 (content.foldl fnvStep 1469598103934665603).toNat

/-- The loop that writes the file: how much has been written in the end. -/
def writeLoop (write : ℕ → ℕ → ℤ) (contentLen : ℕ) : ℕ → ℕ → ℕ
  | 0, written => written
  | fuel + 1, written =>
    if written < contentLen then
      let w := write written (contentLen - written)
      -- an error ends the loop, and the file is listed with what it holds
      if w ≤ 0 then written else writeLoop write contentLen fuel (written + w.toNat)
    else written

def uploadPattern (uploadDir : Bytes) : Bytes :=
  (if uploadDir ≠ [] ∧ uploadDir.getLast? ≠ some 47 then uploadDir ++ [47] else uploadDir) ++
    ascii "fcgi_upload_XXXXXX"

/-- `file` -/
def fileVariable (head : PartHead) (content tempPath : Bytes) (written : ℕ) : DynamicVariable :=
  let file := ((DynamicVariable.object []).assign
    (ascii "field_name") (.string head.fieldName)).assign
    (ascii "filename") (.string head.filename)
  let file := if head.ctype = [] then file
    else file.assign (ascii "content_type") (.string head.ctype)
  let file := (((file.assign (ascii "temp_path") (.string tempPath)).assign
    (ascii "size") (.number written)).assign
    (ascii "expected_size") (.number content.length)).assign
    (ascii "hash_fnv1a64") (.string (contentHash content))
  if written = content.length then file else file.assign (ascii "partial") (.bool true)

/-! ## Parts

The end of a content is where the next line break with the delimiter behind it is. Then a line break
at the end of the content is taken off once more, which costs a text that ends in one its last
octets. -/

section

variable (temp : TempFiles) (uploadDir : Bytes)

/-- What becomes of a part: a text field, or a file. -/
def storePart (head : PartHead) (content : Bytes) (s : FormData) : FormData :=
  if head.filename = [] then { s with formFields := s.formFields.insert head.fieldName content }
  else
    match temp.mkstemp s.calls (uploadPattern uploadDir) with
    -- without a temporary file nothing is listed
    | none => { s with calls := s.calls + 1 }
    | some tempPath =>
      let written := writeLoop (temp.write s.calls) content.length content.length 0
      { s with
        files := s.files.push (fileVariable head content tempPath written)
        calls := s.calls + 1 }

/-- The content without a line break at its end. -/
def trimContent (content : Bytes) : Bytes :=
  if crlf.isSuffixOf content then content.take (content.length - 2) else content

/-- The loop over the parts: `rest` is what follows `pos`. -/
def partLoop (delim : Bytes) : ℕ → Bytes → FormData → Bool × FormData
  | 0, _, s => (true, s)
  | fuel + 1, rest, s =>
    match findPattern delim rest with
    | none => (true, s)
    | some start =>
      let rest := rest.drop (start + delim.length)
      -- the closing delimiter ends the body, and what follows it is not read
      if (ascii "--").isPrefixOf rest then (true, s)
      else if !crlf.isPrefixOf rest then (false, s)
      else
        let rest := rest.drop 2
        match findPattern (crlf ++ crlf) rest with
        | none => (false, s)
        | some headerEnd =>
          let headers := rest.take headerEnd
          let rest := rest.drop (headerEnd + 4)
          match findPattern (crlf ++ delim) rest with
          | none => (false, s)
          | some contentLen =>
            let head := readHeaders headers.length headers {}
            -- the next search starts at the delimiter itself
            partLoop delim fuel (rest.drop (contentLen + 2))
              (storePart temp uploadDir head (trimContent (rest.take contentLen)) s)

def delimiter (boundary : Bytes) : Bytes := ascii "--" ++ boundary

def extractFilesFromFormdata (body boundary : Bytes) (formFields : AList fun _ : Bytes ↦ Bytes)
    (files : DynamicVariable) : Bool × FormData :=
  if boundary = [] then (false, { formFields := formFields, files := files })
  else
    partLoop temp uploadDir (delimiter boundary) body.length body
      { formFields := formFields, files := .array [] }

end

end Wasapi.Http
