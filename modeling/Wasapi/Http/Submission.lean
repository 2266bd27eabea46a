import Wasapi.Http.Forms
import Wasapi.Http.Multipart
import Wasapi.Json.Completeness

/-!
# What a client submits

A submission is a query, a cookie header and form data of one of the kinds the servers read. It says
nothing about how it is sent. `Submission.ReadAs` is what a handler should find in its request, and
`readAs_parseFormData` that it finds it there: the parameters of the form come before those of the
query, and of a name that is repeated the last one counts.

The text parts of a multipart form must not end in a line break, which would be cut off.
-/

namespace Wasapi.Http

open Json Websockets

/-! ## Form data

The kind of a form is announced by the content type, which the servers look for in lower case and
anywhere in the header. A body is taken for the kind that is mentioned first in the order of the
tests. -/

/-- The content type names this kind, in upper or lower case. -/
def Mentions (ct kind : Bytes) : Prop := kind <:+: ct.map toLower

instance (ct kind : Bytes) : Decidable (Mentions ct kind) :=
  inferInstanceAs (Decidable (kind <:+: ct.map toLower))

/-- What the body of a request holds. -/
inductive FormBody where
  /-- nothing the servers read -/
  | unread (body : Bytes)
  | urlencoded (fields : List Query.Param) (keys : ∀ kv ∈ fields, kv.1 ≠ [])
  | json (d : Document) (readable : ∀ n ∈ d.value.numbers, n.Readable)
  | multipart (boundary : Bytes) (parts : List FormPart) (epilogue : Bytes)
    (boundary_ne : boundary ≠ [])
    (delimited : ∀ p ∈ parts, Delimited (delimiter boundary) p.content)
    (unbroken : ∀ p ∈ parts, p.filename = none → ¬crlf <:+ p.content)

namespace FormBody

def text : FormBody → Bytes
  | .unread body => body
  | .urlencoded fields _ => [38].intercalate (fields.map Query.encodeParam)
  | .json d _ => d.text
  | .multipart boundary parts epilogue _ _ _ => encodeParts (delimiter boundary) parts epilogue

/-- The content types under which a server takes the body for what it is. -/
def Announced : FormBody → Option Bytes → Prop
  | .unread _, contentType => ∀ ct, contentType = some ct →
    ¬Mentions ct (ascii "application/json") ∧
      ¬Mentions ct (ascii "application/x-www-form-urlencoded") ∧
      ¬Mentions ct (ascii "multipart/form-data")
  | .urlencoded _ _, contentType => ∃ ct, contentType = some ct ∧
    ¬Mentions ct (ascii "application/json") ∧
      Mentions ct (ascii "application/x-www-form-urlencoded")
  | .json _ _, contentType => ∃ ct, contentType = some ct ∧ Mentions ct (ascii "application/json")
  | .multipart boundary _ _ _ _ _, contentType => ∃ ct, contentType = some ct ∧
    ¬Mentions ct (ascii "application/json") ∧
      ¬Mentions ct (ascii "application/x-www-form-urlencoded") ∧
      Mentions ct (ascii "multipart/form-data") ∧ boundaryOf ct = boundary

/-- The parameter a form has under a name. A JSON document that is no object has one parameter. -/
def field : FormBody → Bytes → Option DynamicVariable
  | .unread _, _ => none
  | .urlencoded fields _, key => (fields.reverse.dlookup key).map .string
  | .json d _, key =>
    match d.value.dynamic with
    | .object o => o.lookup key
    | v => if key = ascii "_json" then some v else none
  | .multipart _ parts _ _ _ _, key => (lastText parts key).map .string

/-- The files that are listed. -/
def files (temp : TempFiles) (uploadDir : Bytes) : FormBody → DynamicVariable
  | .multipart _ parts _ _ _ _ =>
    (storeParts temp uploadDir parts { formFields := ∅, files := .array [] }).files
  | _ => .array []

end FormBody

/-! ## Submissions

What a server is told is what reaches it as variables and a body, by whatever way. What a handler
should find is said from the side of whoever fills in the form. -/

structure Submission where
  query : List Query.Param
  query_keys : ∀ kv ∈ query, kv.1 ≠ []
  cookies : List CookieSegment
  form : FormBody

namespace Submission

variable (sub : Submission)

def queryText : Bytes := [38].intercalate (sub.query.map Query.encodeParam)

/-- What a server is told: a query and cookies that are not given are empty. -/
structure Told (query cookies contentType : Option Bytes) (body : Bytes) : Prop where
  query : query.getD [] = sub.queryText
  cookies : cookies.getD [] = cookieHeader sub.cookies
  form : sub.form.Announced contentType
  body : body = sub.form.text

/-- What a handler finds in its request. -/
structure ReadAs (temp : TempFiles) (uploadDir : Bytes) (r : Request) : Prop where
  params : ∀ key, r.params.find key =
    (sub.form.field key).or ((sub.query.reverse.dlookup key).map .string)
  cookies : ∀ key, r.cookies.find key =
    ((sub.cookies.filterMap CookieSegment.cookie).reverse.lookup key).map .string
  files : r.files = sub.form.files temp uploadDir

end Submission

/-! ## Assigning fields

Parameters of the query come first and those of the form take their place. With distinct keys on
each side the order within a side does not matter. -/

/-- Fields with different keys take the place of what is there. -/
theorem find_foldl_assign {fields : List (Bytes × DynamicVariable)}
    (hnodup : (fields.map Prod.fst).Nodup) (v : DynamicVariable) (key : Bytes) :
    (fields.foldl (fun v f ↦ v.assign f.1 f.2) v).find key =
      (fields.lookup key).or (v.find key) := by
  induction fields generalizing v with
  | nil => rfl
  | cons f fields ih =>
    obtain ⟨k, x⟩ := f
    rw [List.map_cons, List.nodup_cons] at hnodup
    rw [List.foldl_cons, ih hnodup.2, DynamicVariable.lookup_field]
    by_cases hkey : key = k
    · subst hkey
      have hnone : fields.lookup key = none := by
        rw [List.lookup_eq_none_iff]
        intro f hf
        rw [bne_iff_ne]
        intro heq
        exact hnodup.1 (List.mem_map.mpr ⟨f, hf, heq.symm⟩)
      rw [hnone, DynamicVariable.find_assign_self, if_pos rfl]
      rfl
    · rw [if_neg hkey, DynamicVariable.find_assign_of_ne _ _ hkey]

private theorem find_assignParams (params : DynamicVariable) (tmp : Query.Params) (key : Bytes) :
    (assignParams params tmp).find key = ((tmp.lookup key).map .string).or (params.find key) := by
  have hfields : assignParams params tmp =
      (tmp.entries.map fun kv ↦ (kv.1, DynamicVariable.string kv.2)).foldl
        (fun v f ↦ v.assign f.1 f.2) params := by
    rw [List.foldl_map]
    rfl
  have hnodup : ((tmp.entries.map fun kv ↦ (kv.1, DynamicVariable.string kv.2)).map
      Prod.fst).Nodup := by
    rw [List.map_map]
    exact tmp.nodupKeys
  have hlookup (entries : List Query.Param) :
      (entries.map fun kv ↦ (kv.1, DynamicVariable.string kv.2)).lookup key =
        (entries.dlookup key).map .string := by
    induction entries with
    | nil => rfl
    | cons kv entries ih =>
      rw [List.map_cons, DynamicVariable.lookup_field]
      by_cases hkey : key = kv.1
      · subst hkey
        rw [if_pos rfl, List.dlookup_cons_eq]
        rfl
      · rw [if_neg hkey, List.dlookup_cons_ne _ _ hkey, ih]
  rw [hfields, find_foldl_assign hnodup, hlookup]
  rfl

/-- `emplace` never repeats a key. -/
theorem nodup_emplace {o : List (Bytes × DynamicVariable)} (h : (o.map Prod.fst).Nodup)
    (key : Bytes) (v : DynamicVariable) : ((emplace key v o).map Prod.fst).Nodup := by
  rw [emplace]
  split
  · exact h
  · next hnone =>
    rw [List.map_append, List.map_singleton, List.nodup_append_comm, List.singleton_append,
      List.nodup_cons]
    refine ⟨fun hmem ↦ hnone ?_, h⟩
    obtain ⟨f, hf, rfl⟩ := List.mem_map.mp hmem
    exact List.lookup_isSome_iff.mpr ⟨f, hf, beq_self_eq_true _⟩

private theorem nodup_dynamic : ∀ (members : JsonMembers) {o : List (Bytes × DynamicVariable)},
    (o.map Prod.fst).Nodup → ((members.dynamic o).map Prod.fst).Nodup
  | .last _ _ _ _ _ _, _, h => nodup_emplace h _ _
  | .cons _ _ _ _ _ _ more, _, h => nodup_dynamic more (nodup_emplace h _ _)

private theorem nodup_of_dynamic {v : JsonValue} {o : List (Bytes × DynamicVariable)}
    (h : v.dynamic = .object o) : (o.map Prod.fst).Nodup := by
  cases v with
  | emptyObject ws =>
    obtain rfl := DynamicVariable.object.inj h
    exact List.nodup_nil
  | object members =>
    obtain rfl := DynamicVariable.object.inj h
    exact nodup_dynamic members List.nodup_nil
  | _ => cases h

/-! ## Reading a submission

The three kinds are read by three parsers whose round trips are proved elsewhere. What is left is to
see that each of them is chosen and that they leave the other parts of the request alone. -/

private theorem isSome_findPattern (pat s : Bytes) : (findPattern pat s).isSome = true ↔ pat <:+:
    s := by
  constructor
  · intro h
    obtain ⟨i, hi⟩ := Option.isSome_iff_exists.mp h
    exact (prefix_drop_of_findPattern hi).isInfix.trans (List.drop_suffix i s).isInfix
  · intro h
    obtain ⟨i, hi⟩ := exists_findPattern h
    exact Option.isSome_iff_exists.mpr ⟨i, hi⟩

/-- What `parse_form_data` does under a content type. -/
theorem parseFormData_eq (temp : TempFiles) (uploadDir : Bytes) {r : Request} {ct : Bytes}
    (hct : r.env.find (ascii "CONTENT_TYPE") = some (.string ct)) :
    parseFormData temp uploadDir r =
      if Mentions ct (ascii "application/json") then parseJsonFormData r
      else if Mentions ct (ascii "application/x-www-form-urlencoded") then
        parseUrlencodedFormData r
      else if Mentions ct (ascii "multipart/form-data") then
        parseMultipartFormData temp uploadDir r
      else r := by
  rw [parseFormData, hct]
  exact if_congr (isSome_findPattern _ _) rfl (if_congr (isSome_findPattern _ _) rfl
    (if_congr (isSome_findPattern _ _) rfl rfl))

/-- A JSON document is read as the parameters it has. -/
theorem find_parseJsonFormData {r : Request} {d : Document}
    (hreadable : ∀ n ∈ d.value.numbers, n.Readable) (hbody : r.body = d.text) (key : Bytes) :
    (parseJsonFormData r).params.find key =
      (FormBody.field (.json d hreadable) key).or (r.params.find key) := by
  have hassign (v : DynamicVariable) : (r.params.asObject.assign (ascii "_json") v).find key =
      (if key = ascii "_json" then some v else none).or (r.params.find key) := by
    by_cases hkey : key = ascii "_json"
    · rw [if_pos hkey, hkey, DynamicVariable.find_assign_self]
      rfl
    · rw [if_neg hkey, DynamicVariable.find_assign_of_ne _ _ hkey, DynamicVariable.find_asObject]
      rfl
  rw [parseJsonFormData, hbody, parseJson_of_readable hreadable, FormBody.field]
  cases hvalue : d.value.dynamic with
  | object o =>
    dsimp only
    rw [find_foldl_assign (nodup_of_dynamic hvalue), DynamicVariable.find_asObject]
  | null => exact hassign _
  | string s => exact hassign _
  | array a => exact hassign _
  | number num => exact hassign _
  | bool b => exact hassign _

/-- An URL-encoded form is read as the parameters it has. -/
theorem find_parseUrlencodedFormData {r : Request} {fields : List Query.Param}
    (keys : ∀ kv ∈ fields, kv.1 ≠ [])
    (hbody : r.body = [38].intercalate (fields.map Query.encodeParam)) (key : Bytes) :
    (parseUrlencodedFormData r).params.find key =
      (FormBody.field (.urlencoded fields keys) key).or (r.params.find key) := by
  rw [parseUrlencodedFormData, hbody]
  dsimp only
  rw [find_assignParams, Query.parseQueryString,
    Query.parseQueryLoop_join keys (Nat.lt_succ_self _), Query.lookup_foldl_insert,
    AList.lookup_empty, Option.or_none, DynamicVariable.find_asObject, FormBody.field]

/-- A multipart form is read as the parts it has. -/
theorem parseMultipartFormData_encodeParts (temp : TempFiles) (uploadDir : Bytes) {r : Request}
    {ct : Bytes} (hct : r.env.find (ascii "CONTENT_TYPE") = some (.string ct))
    (hboundary : boundaryOf ct ≠ []) {parts : List FormPart}
    (h : ∀ p ∈ parts, Delimited (delimiter (boundaryOf ct)) p.content) {epilogue : Bytes}
    (hbody : r.body = encodeParts (delimiter (boundaryOf ct)) parts epilogue) :
    parseMultipartFormData temp uploadDir r =
      let form := storeParts temp uploadDir parts { formFields := ∅, files := .array [] }
      { r with params := assignParams r.params.asObject form.formFields, files := form.files } := by
  rw [parseMultipartFormData, hct]
  dsimp only
  rw [if_neg hboundary, extractFilesFromFormdata, if_neg hboundary, hbody,
    partLoop_encodeParts h epilogue (length_lt_length_encodeParts _ parts epilogue)]

/-- A text that does not end in a line break is kept. -/
theorem lookup_storeParts_of_unbroken (temp : TempFiles) (uploadDir : Bytes)
    {parts : List FormPart} (h : ∀ p ∈ parts, p.filename = none → ¬crlf <:+ p.content)
    (key : Bytes) :
    (storeParts temp uploadDir parts { formFields := ∅, files := .array [] }).formFields.lookup
      key = lastText parts key := by
  rw [lookup_storeParts]
  cases hlast : lastText parts key with
  | none => rfl
  | some content =>
    obtain ⟨p, hp, rfl⟩ := Option.map_eq_some_iff.mp hlast
    have hmem := List.mem_filter.mp (List.mem_of_getLast? hp)
    have htext : p.filename = none := by
      rw [← Option.isNone_iff_eq_none]
      exact (Bool.and_eq_true_iff.mp hmem.2).1
    dsimp only
    rw [(trimContent_eq_self_iff p.content).mpr (h p hmem.1 htext)]

/-- **Forms are read as they were filled in**, whatever their kind. The other parameters and the
cookies stay. -/
theorem find_parseFormData (temp : TempFiles) (uploadDir : Bytes) {r : Request} {form : FormBody}
    {contentType : Option Bytes}
    (hct : r.env.find (ascii "CONTENT_TYPE") = contentType.map .string)
    (hannounced : form.Announced contentType) (hbody : r.body = form.text)
    (hfiles : r.files = .array []) :
    (∀ key, (parseFormData temp uploadDir r).params.find key =
        (form.field key).or (r.params.find key)) ∧
      (parseFormData temp uploadDir r).cookies = r.cookies ∧
      (parseFormData temp uploadDir r).files = form.files temp uploadDir := by
  cases form with
  | unread body =>
    have hself : parseFormData temp uploadDir r = r := by
      cases contentType with
      | none =>
        rw [parseFormData, hct]
        rfl
      | some ct =>
        obtain ⟨hjson, hform, hparts⟩ := hannounced ct rfl
        rw [parseFormData_eq temp uploadDir hct, if_neg hjson, if_neg hform, if_neg hparts]
    rw [hself]
    exact ⟨fun _ ↦ rfl, rfl, hfiles⟩
  | urlencoded fields keys =>
    obtain ⟨ct, rfl, hjson, hform⟩ := hannounced
    rw [parseFormData_eq temp uploadDir hct, if_neg hjson, if_pos hform]
    exact ⟨find_parseUrlencodedFormData keys hbody, rfl, hfiles⟩
  | json d readable =>
    obtain ⟨ct, rfl, hjson⟩ := hannounced
    rw [parseFormData_eq temp uploadDir hct, if_pos hjson]
    exact ⟨find_parseJsonFormData readable hbody, rfl, hfiles⟩
  | multipart boundary parts epilogue boundary_ne delimited unbroken =>
    obtain ⟨ct, rfl, hjson, hform, hparts, rfl⟩ := hannounced
    rw [parseFormData_eq temp uploadDir hct, if_neg hjson, if_neg hform, if_pos hparts,
      parseMultipartFormData_encodeParts temp uploadDir hct boundary_ne delimited hbody]
    refine ⟨fun key ↦ ?_, rfl, rfl⟩
    dsimp only
    rw [find_assignParams, lookup_storeParts_of_unbroken temp uploadDir unbroken,
      DynamicVariable.find_asObject, FormBody.field]

/-- What has been parsed of the query and the cookies before the form. -/
def queryAndCookies (queryVar cookiesVar : Bytes) (r : Request) : Request :=
  { r with
    params := assignParams r.params.asObject
      (Query.parseQueryString ((r.env.find queryVar).elim [] variableText) ∅)
    cookies := parseCookieHeader r.cookies (r.env.find cookiesVar) }

theorem httpParsers_eq (temp : TempFiles) (uploadDir : Bytes) (r : Request) :
    httpParsers temp uploadDir r = parseFormData temp uploadDir
      (queryAndCookies (ascii "QUERY_STRING") (ascii "HTTP_COOKIE") r) := rfl

/-- **Submissions are read as they were made.** -/
theorem Submission.readAs_parseFormData (temp : TempFiles) (uploadDir : Bytes) {sub : Submission}
    {r : Request} {query cookies contentType : Option Bytes} {queryVar cookiesVar : Bytes}
    (hquery : r.env.find queryVar = query.map .string)
    (hcookies : r.env.find cookiesVar = cookies.map .string)
    (hct : r.env.find (ascii "CONTENT_TYPE") = contentType.map .string)
    (htold : sub.Told query cookies contentType r.body)
    (hfresh : r.params = .object [] ∧ r.cookies = .object [] ∧ r.files = .array []) :
    sub.ReadAs temp uploadDir
      (parseFormData temp uploadDir (queryAndCookies queryVar cookiesVar r)) := by
  obtain ⟨hparams, hnoCookies, hfiles⟩ := hfresh
  have htext (v : Option Bytes) :
      (v.map DynamicVariable.string).elim [] variableText = v.getD [] := by
    cases v <;> rfl
  obtain ⟨hfield, hkept, hlisted⟩ := find_parseFormData temp uploadDir
    (r := queryAndCookies queryVar cookiesVar r) hct htold.form htold.body hfiles
  refine ⟨fun key ↦ ?_, fun key ↦ ?_, hlisted⟩
  · have hread : (queryAndCookies queryVar cookiesVar r).params.find key =
        (sub.query.reverse.dlookup key).map .string := by
      rw [queryAndCookies]
      dsimp only
      rw [hquery, htext, htold.query, find_assignParams, Submission.queryText,
        Query.parseQueryString, Query.parseQueryLoop_join sub.query_keys (Nat.lt_succ_self _),
        Query.lookup_foldl_insert, AList.lookup_empty, Option.or_none, hparams]
      exact Option.or_none
    rw [hfield, hread]
  · have hpieces : ∀ piece ∈ sub.cookies.map CookieSegment.text, (59 : UInt8) ∉ piece := by
      intro piece hpiece
      obtain ⟨segment, -, rfl⟩ := List.mem_map.mp hpiece
      exact segment.no_semicolon
    have hempty : ∀ cookies, readSegment cookies [] = cookies := fun _ ↦ rfl
    rw [hkept, queryAndCookies]
    dsimp only
    rw [hcookies, parseCookieHeader, htext, htold.cookies, cookieHeader,
      foldPieces_intercalate hempty hpieces, find_foldl_readSegment, hnoCookies]
    exact Option.or_none

end Wasapi.Http
