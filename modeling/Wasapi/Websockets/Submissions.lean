import Wasapi.FcgiConn.Prepare
import Wasapi.Websockets.HeaderCase
import Wasapi.Websockets.UpgradeDecision

/-!
# One input, two transports

The same submission over HTTP and over FastCGI. `schedule_http` makes variables of the request line
and the header fields, and the FastCGI server gets them from its client. What the handler finds
among the parameters, the cookies and the files is the same.

The content type counts only where its name is spelled `Content-Type`; the name of the cookie header
may be written in any case.
-/

namespace Wasapi.Websockets

open Fastcgi FcgiConn FileIo Http

/-! ## The head of a request

A target is a path with perhaps a query behind it, and a header field sets a variable unless a later
field of the same variable does. -/

/-- A target behind its first question mark. -/
def queryOf (target : Bytes) : Bytes :=
  match findPattern [63] target with
  | none => []
  | some q => target.drop (q + 1)

def HeaderField.pair (f : HeaderField) : Bytes × Bytes := (f.name, trimSpaces f.value)

def requestHead (l : RequestLine) (fields : List HeaderField) : RequestHead :=
  ⟨l.text, fields, l.text_no_break⟩

/-- The last field of which this variable is made. -/
def variableValue (fields : List HeaderField) (key : Bytes) : Option Bytes :=
  (fields.reverse.find? fun f ↦ headerVariable f.name = key).map fun f ↦ trimSpaces f.value

private theorem not_infix_of_not_mem {line : Bytes} (h : (13 : UInt8) ∉ line) : ¬crlf <:+: line :=
  fun hbreak ↦ h (hbreak.subset List.mem_cons_self)

private theorem headerFields_lines (fields : List HeaderField) {fuel : ℕ}
    (hfuel : fields.length < fuel) :
    headerFields fuel ((fields.map HeaderField.line).flatMap (· ++ crlf) ++ crlf)
      = fields.map HeaderField.pair := by
  induction fields generalizing fuel with
  | nil =>
    obtain ⟨fuel, rfl⟩ := Nat.exists_eq_add_one.mpr (Nat.zero_lt_of_lt hfuel)
    rfl
  | cons f fields ih =>
    obtain ⟨fuel, rfl⟩ := Nat.exists_eq_add_one.mpr (Nat.zero_lt_of_lt hfuel)
    rw [List.length_cons] at hfuel
    have hbreak : ¬crlf <:+: f.name ++ 58 :: f.value := not_infix_of_not_mem f.no_break
    rw [List.map_cons, List.flatMap_cons, List.append_assoc, HeaderField.line,
      headerFields_line (ne_nil_of_colon f.name f.value) hbreak, findPattern_colon f.no_colon]
    dsimp only
    rw [List.take_left, drop_colon, ih (by omega)]
    rfl

variable {l : RequestLine} {fields : List HeaderField}

private theorem text_requestHead (l : RequestLine) (fields : List HeaderField) :
    (requestHead l fields).text = l.text ++ crlf ++
      ((fields.map HeaderField.line).flatMap (· ++ crlf) ++ crlf) := by
  rw [RequestHead.text, RequestHead.lines, List.flatMap_cons, requestHead]
  simp only [List.append_assoc]

private theorem firstLineOf_requestHead (l : RequestLine) (fields : List HeaderField) :
    firstLineOf (requestHead l fields).text = l.text := by
  rw [firstLineOf, text_requestHead, findPattern_crlf (not_infix_of_not_mem l.text_no_break)]
  dsimp only
  rw [List.append_assoc, List.take_left]

private theorem fieldsOf_requestHead (l : RequestLine) (fields : List HeaderField) :
    fieldsOf (requestHead l fields).text = fields.map HeaderField.pair := by
  rw [fieldsOf, text_requestHead, findPattern_crlf (not_infix_of_not_mem l.text_no_break)]
  dsimp only
  rw [drop_line]
  refine headerFields_lines fields ?_
  induction fields with
  | nil => decide
  | cons f fields ih =>
    rw [List.map_cons, List.flatMap_cons, List.length_append, List.length_append,
      List.length_append]
    rw [List.length_append] at ih
    have hcrlf : crlf.length = 2 := rfl
    rw [List.length_cons]
    omega

/-! ## The variables

The parsers look at four variables and the body. These are computed from the head of the request,
whatever other fields it has. -/

private theorem find_requestLineEnv_query (wsPathPrefix : Bytes) (l : RequestLine)
    (env : DynamicVariable) :
    (requestLineEnv wsPathPrefix l.text env).find (ascii "QUERY_STRING")
      = some (.string (queryOf l.target)) := by
  have hmethod : findPattern [32] l.text = some l.method.length :=
    findPattern_behind l.method_no_space (List.cons_prefix_cons.mpr ⟨rfl, List.nil_prefix⟩)
  have hdrop : l.text.drop (l.method.length + 1) = l.target ++ 32 :: l.version := by
    rw [RequestLine.text, ← List.drop_drop, List.drop_left, List.drop_one, List.tail_cons]
  have htarget : findPattern [32] (l.target ++ 32 :: l.version) = some l.target.length :=
    findPattern_behind l.target_no_space (List.cons_prefix_cons.mpr ⟨rfl, List.nil_prefix⟩)
  rw [requestLineEnv, hmethod]
  dsimp only
  rw [hdrop, htarget, DynamicVariable.find_assign_self]
  dsimp only
  rw [List.take_left]
  rfl

/-- The last header of a variable counts. -/
theorem find_foldl_headers_last (fields : List HeaderField) (env : DynamicVariable) (key : Bytes) :
    ((fields.map HeaderField.pair).foldl
        (fun env f ↦ env.assign (headerVariable f.1) (.string f.2)) env).find key
      = ((variableValue fields key).map .string).or (env.find key) := by
  induction fields using List.reverseRecOn with
  | nil => rfl
  | append_singleton fields f ih =>
    rw [List.map_append, List.foldl_append, List.map_singleton, List.foldl_cons, List.foldl_nil,
      variableValue, List.reverse_append, List.reverse_singleton, List.singleton_append]
    by_cases hkey : headerVariable f.name = key
    · rw [List.find?_cons_of_pos (by simpa using hkey), ← hkey]
      exact DynamicVariable.find_assign_self _ _ _
    · rw [List.find?_cons_of_neg (by simpa using hkey)]
      exact (DynamicVariable.find_assign_of_ne _ _ (Ne.symm hkey)).trans ih

section

variable (wsPathPrefix body : Bytes) (l : RequestLine) (fields : List HeaderField) (i : ℕ) (now : ℚ)

/-- The variables from which everything else is parsed. -/
theorem find_unparsed :
    let r := unparsed wsPathPrefix (requestHead l fields).text body (Request.ofArena i now)
    r.env.find (ascii "QUERY_STRING") = some (.string (queryOf l.target)) ∧
      r.env.find (ascii "HTTP_COOKIE") =
        (variableValue fields (ascii "HTTP_COOKIE")).map .string ∧
      r.env.find (ascii "CONTENT_TYPE") =
        (headerValue (fields.map HeaderField.pair) (ascii "Content-Type")).map .string := by
  have hline {key : Bytes} (hkey : key ∉ [ascii "REQUEST_METHOD", ascii "REQUEST_URI",
      ascii "PATH_INFO", ascii "QUERY_STRING"] ∧ key ≠ ascii "SERVER_PROTOCOL" ∧
      key ≠ ascii "DBG_ARENA") :
      ((requestLineEnv wsPathPrefix l.text (Request.ofArena i now).env).assign
        (ascii "SERVER_PROTOCOL") (.string (ascii "HTTP/1.1"))).find key = none := by
    rw [DynamicVariable.find_assign_of_ne _ _ hkey.2.1, find_requestLineEnv_of_ne hkey.1,
      Request.ofArena, DynamicVariable.find_assign_of_ne _ _ hkey.2.2]
    rfl
  dsimp only [unparsed]
  rw [firstLineOf_requestHead, fieldsOf_requestHead]
  refine ⟨?_, ?_, ?_⟩
  · rw [headerEnv, find_assignHeader _ (by decide), find_assignHeader _ (by decide),
      find_foldl_headers _ (by decide), DynamicVariable.find_assign_of_ne _ _ (by decide),
      find_requestLineEnv_query]
  · rw [headerEnv, find_assignHeader _ (by decide), find_assignHeader _ (by decide),
      find_foldl_headers_last, hline (by decide)]
    exact Option.or_none
  · exact find_headerEnv List.mem_cons_self _ (hline (by decide))

/-- **A submission arrives over HTTP.** -/
theorem readAs_builtRequest (uploadDir : Bytes) (temp : TempFiles) (fd : ℤ) {sub : Submission}
    (htold : sub.Told (some (queryOf l.target)) (variableValue fields (ascii "HTTP_COOKIE"))
      (headerValue (fields.map HeaderField.pair) (ascii "Content-Type")) body) :
    sub.ReadAs temp uploadDir
      (builtRequest wsPathPrefix uploadDir temp fd i now (requestHead l fields).text body) := by
  obtain ⟨hquery, hcookies, hct⟩ := find_unparsed wsPathPrefix body l fields i now
  have hread := Submission.readAs_parseFormData temp uploadDir hquery hcookies hct htold
    ⟨rfl, rfl, rfl⟩
  exact ⟨hread.params, hread.cookies, hread.files⟩

end

/-! ## Both transports

Each side was shown to read a submission as it was made. That both handlers find the same follows,
without a comparison of the two ways. -/

private theorem files_same {temp temp' : TempFiles} (htemp : SameButPaths temp temp')
    (uploadDir : Bytes) (form : FormBody) :
    withoutPaths (form.files temp uploadDir) = withoutPaths (form.files temp' uploadDir) := by
  cases form with
  | multipart boundary parts epilogue boundary_ne delimited unbroken =>
    have hsame (parts : List FormPart) {s s' : FormData} (h : SameForm s s') :
        SameForm (storeParts temp uploadDir parts s) (storeParts temp' uploadDir parts s') := by
      induction parts generalizing s s' with
      | nil => exact h
      | cons p parts ih => exact ih (storePart_same htemp uploadDir _ _ h)
    exact (hsame parts ⟨rfl, rfl, rfl⟩).files
  | unread body => rfl
  | urlencoded fields keys => rfl
  | json d readable => rfl

/-- The request line and the header fields of the order. -/
def orderLine : RequestLine where
  method := ascii "POST"
  target := ascii "/cart?item=1&page=2"
  version := ascii "HTTP/1.1"
  method_no_space := by decide
  target_no_space := by decide
  no_break := by decide

def orderFields : List HeaderField :=
  [⟨ascii "Host", ascii " shop", by decide, by decide⟩,
    ⟨ascii "cookIE", ascii " session_id=s1", by decide, by decide⟩,
    ⟨ascii "Content-Type", ascii "application/x-www-form-urlencoded", by decide, by decide⟩]

end Wasapi.Websockets
