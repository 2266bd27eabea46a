import Wasapi.Http.Cookies
import Wasapi.Http.FormData
import Wasapi.Http.Query
import Wasapi.Json.Parser

/-!
# What is parsed from a request

`parse_query_string` and `parse_form_data` on a request, with the three kinds of form data, and the
sequence of parsers `schedule_http` calls.

The parameters are an object when form data is parsed, since the query string has been parsed
before.
-/

namespace Wasapi.Http

open Json Websockets

/-- The loop that turns the pairs of a map into parameters. -/
def assignParams (params : DynamicVariable) (tmp : Query.Params) : DynamicVariable :=
  tmp.entries.foldl (fun params kv ↦ params.assign kv.1 (.string kv.2)) params

/-- `parse_query_string` -/
def parseQueryString (r : Request) (queryString : Option DynamicVariable) : Request :=
  { r with
    params := assignParams r.params.asObject
      (Query.parseQueryString (queryString.elim [] variableText) ∅) }

def parseJsonFormData (r : Request) : Request :=
  { r with
    params := match parseJson r.body with
      | .ok (.object o) =>
        o.foldl (fun params kv ↦ params.assign kv.1 kv.2) r.params.asObject
      | .ok parsed => r.params.asObject.assign (ascii "_json") parsed
      | .error errpos =>
        r.params.asObject.assign (ascii "_json_error")
          (.string (ascii ("parse error at position " ++ toString errpos))) }

/-- What the content type names as the boundary. -/
def boundaryOf (ct : Bytes) : Bytes :=
  match findPattern (ascii "boundary=") (ct.map toLower) with
  | none => []
  | some bpos => unquote (ct.drop (bpos + 9))

section

variable (temp : TempFiles) (uploadDir : Bytes)

def parseMultipartFormData (r : Request) : Request :=
  match r.env.find (ascii "CONTENT_TYPE") with
  | some (.string ct) =>
    if boundaryOf ct = [] then r
    else
      let form := (extractFilesFromFormdata temp uploadDir r.body (boundaryOf ct) ∅ r.files).2
      { r with params := assignParams r.params.asObject form.formFields, files := form.files }
  | _ => r

def parseUrlencodedFormData (r : Request) : Request :=
  { r with params := assignParams r.params.asObject (Query.parseQueryString r.body ∅) }

/-- The kind of form data is looked for in the lower-cased content type. -/
def parseFormData (r : Request) : Request :=
  match r.env.find (ascii "CONTENT_TYPE") with
  | some (.string ct) =>
    let lct := ct.map toLower
    if (findPattern (ascii "application/json") lct).isSome then parseJsonFormData r
    else if (findPattern (ascii "application/x-www-form-urlencoded") lct).isSome then
      parseUrlencodedFormData r
    else if (findPattern (ascii "multipart/form-data") lct).isSome then
      parseMultipartFormData temp uploadDir r
    else r
  | _ => r

/-- The parsers in the order in which `schedule_http` calls them. -/
def httpParsers (r : Request) : Request :=
  let r := parseQueryString r (r.env.find (ascii "QUERY_STRING"))
  let r := { r with cookies := parseCookieHeader r.cookies (r.env.find (ascii "HTTP_COOKIE")) }
  parseFormData temp uploadDir r

end

/-! ## The names of the temporary files

`mkstemp` draws a name that no argument determines. Two runs with other names differ in the paths of
the files they list and in nothing else. -/

/-- A listed file without its path. -/
def withoutPath (file : DynamicVariable) : DynamicVariable :=
  file.assign (ascii "temp_path") (.string [])

def withoutPaths : DynamicVariable → DynamicVariable
  | .array files => .array (files.map withoutPath)
  | v => v

/-- Temporary files that can be made and written alike, under whatever names. -/
structure SameButPaths (temp temp' : TempFiles) : Prop where
  mkstemp : ∀ n pattern, (temp.mkstemp n pattern).isSome = (temp'.mkstemp n pattern).isSome
  write : temp.write = temp'.write

/-- The same form data but for the paths. -/
structure SameForm (s s' : FormData) : Prop where
  formFields : s.formFields = s'.formFields
  files : withoutPaths s.files = withoutPaths s'.files
  calls : s.calls = s'.calls

variable {temp temp' : TempFiles} {s s' : FormData}

private theorem withoutPaths_push (v w : DynamicVariable) :
    withoutPaths (v.push w) = (withoutPaths v).push (withoutPath w) := by
  cases v with
  | array a =>
    rw [DynamicVariable.push, withoutPaths, withoutPaths, DynamicVariable.push, List.map_append,
      List.map_singleton]
  | null => rfl
  | string _ => rfl
  | object _ => rfl
  | number _ => rfl
  | bool _ => rfl

/-- The path is one entry of a listed file. -/
theorem withoutPath_fileVariable (head : PartHead) (content path path' : Bytes) (written : ℕ) :
    withoutPath (fileVariable head content path written)
      = withoutPath (fileVariable head content path' written) := by
  rw [fileVariable, fileVariable]
  by_cases hctype : head.ctype = []
  · by_cases hwritten : written = content.length
    · simp only [if_pos hctype, if_pos hwritten]
      rfl
    · simp only [if_pos hctype, if_neg hwritten]
      rfl
  · by_cases hwritten : written = content.length
    · simp only [if_neg hctype, if_pos hwritten]
      rfl
    · simp only [if_neg hctype, if_neg hwritten]
      rfl

theorem storePart_same (htemp : SameButPaths temp temp') (uploadDir : Bytes) (head : PartHead)
    (content : Bytes) (h : SameForm s s') :
    SameForm (storePart temp uploadDir head content s)
      (storePart temp' uploadDir head content s') := by
  rw [storePart, storePart]
  split
  · exact ⟨by rw [h.formFields], h.files, h.calls⟩
  · have hmade := htemp.mkstemp s.calls (uploadPattern uploadDir)
    rw [h.calls] at hmade ⊢
    cases hpath : temp.mkstemp s'.calls (uploadPattern uploadDir) with
    | none =>
      rw [hpath, eq_comm, Option.isSome_none, Option.isSome_eq_false_iff, Option.isNone_iff_eq_none]
        at hmade
      rw [hmade]
      exact ⟨h.formFields, h.files, rfl⟩
    | some path =>
      rw [hpath, eq_comm, Option.isSome_some, Option.isSome_iff_exists] at hmade
      obtain ⟨path', hpath'⟩ := hmade
      rw [hpath', htemp.write]
      refine ⟨h.formFields, ?_, rfl⟩
      rw [withoutPaths_push, withoutPaths_push, h.files, withoutPath_fileVariable]

private theorem partLoop_same (htemp : SameButPaths temp temp') (uploadDir delim : Bytes) (fuel : ℕ)
    (rest : Bytes) (h : SameForm s s') :
    SameForm (partLoop temp uploadDir delim fuel rest s).2
      (partLoop temp' uploadDir delim fuel rest s').2 := by
  induction fuel generalizing rest s s' with
  | zero => exact h
  | succ fuel ih =>
    rw [partLoop, partLoop]
    cases findPattern delim rest with
    | none => exact h
    | some start =>
      dsimp only
      split
      · exact h
      split
      · exact h
      cases findPattern (crlf ++ crlf) ((rest.drop (start + delim.length)).drop 2) with
      | none => exact h
      | some headerEnd =>
        dsimp only
        cases findPattern (crlf ++ delim)
            (((rest.drop (start + delim.length)).drop 2).drop (headerEnd + 4)) with
        | none => exact h
        | some contentLen => exact ih _ (storePart_same htemp uploadDir _ _ h)

/-- What the parsers set, but for the paths. -/
structure SameParsed (r r' : Request) : Prop where
  params : r.params = r'.params
  cookies : r.cookies = r'.cookies
  files : withoutPaths r.files = withoutPaths r'.files

private theorem parseMultipartFormData_same (htemp : SameButPaths temp temp') (uploadDir : Bytes)
    (r : Request) :
    SameParsed (parseMultipartFormData temp uploadDir r)
      (parseMultipartFormData temp' uploadDir r) := by
  rw [parseMultipartFormData, parseMultipartFormData]
  split
  · next ct _ =>
    split
    · exact ⟨rfl, rfl, rfl⟩
    · next hboundary =>
      have hform : SameForm
          (extractFilesFromFormdata temp uploadDir r.body (boundaryOf ct) ∅ r.files).2
          (extractFilesFromFormdata temp' uploadDir r.body (boundaryOf ct) ∅ r.files).2 := by
        rw [extractFilesFromFormdata, extractFilesFromFormdata, if_neg hboundary,
          if_neg hboundary]
        exact partLoop_same htemp uploadDir _ _ _ ⟨rfl, rfl, rfl⟩
      exact ⟨congrArg (assignParams _) hform.formFields, rfl, hform.files⟩
  · exact ⟨rfl, rfl, rfl⟩

/-- **The paths of temporary files make no other difference.** -/
theorem httpParsers_same (htemp : SameButPaths temp temp') (uploadDir : Bytes) (r : Request) :
    SameParsed (httpParsers temp uploadDir r) (httpParsers temp' uploadDir r) := by
  rw [httpParsers, httpParsers, parseFormData, parseFormData]
  split
  · dsimp only
    split
    · exact ⟨rfl, rfl, rfl⟩
    split
    · exact ⟨rfl, rfl, rfl⟩
    split
    · exact parseMultipartFormData_same htemp uploadDir _
    · exact ⟨rfl, rfl, rfl⟩
  · exact ⟨rfl, rfl, rfl⟩

end Wasapi.Http
