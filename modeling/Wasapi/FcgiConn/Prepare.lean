import Wasapi.Fastcgi.ParamsCuts
import Wasapi.Http.PathPrefix
import Wasapi.Http.Submission
import Wasapi.KvFile
import Wasapi.Session.Session

/-!
# What a worker prepares

The task `internal_on_request_ready` leaves to a worker: the endpoint file, the cookies, the query,
the form, and a session if its cookie has been sent. What the calls find outside, in the file
system and from the random device, is an argument.

A submission sent as FastCGI records is what the handler finds in its request, however the client
groups the pairs, cuts the body and pads the records.
-/

namespace Wasapi.FcgiConn

open Fastcgi FileIo Http Session

/-- The variables the server sets or strips. -/
def serverVariables : List Bytes :=
  [ascii "DBG_ARENA", ascii "REQUEST_URI", ascii "PATH_INFO"]

/-- The options the worker reads. The names are fixed: no argument of the program sets them. -/
structure PrepareConfig extends GlobalConfig where
  uploadTmpDir : Bytes := ascii "/tmp"
  endpointFilePath : Bytes := ascii "SCRIPT_FILENAME"
  sessionAutoLoad : Bool := true
  httpCookiesVar : Bytes := ascii "HTTP_COOKIE"
  httpQueryVar : Bytes := ascii "QUERY_STRING"
  endpointFilePath_free : endpointFilePath ∉ serverVariables := by decide
  httpCookiesVar_free : httpCookiesVar ∉ serverVariables := by decide
  httpQueryVar_free : httpQueryVar ∉ serverVariables := by decide

/-- How the calls of one task end. -/
structure Surroundings where
  endpointIo : Io := {}
  sessionIo : Io := {}
  /-- what `random_hex` returns -/
  random : Bytes
  temp : TempFiles

section

variable {κ : Type*} (cfg : PrepareConfig) (resolve : Bytes → κ) (around : Surroundings)

def parseEndpointFile (filePath : Option DynamicVariable) (r : Request) (s : FileStore κ) :
    Request × FileStore κ :=
  match filePath with
  | some (.string path) =>
    let p := readEntireFileCached cfg.toGlobalConfig resolve around.endpointIo path
      (s.tick around.endpointIo)
    ({ r with context := (KvFile.loadKvFile p.1 (.object [])).2 }, p.2)
  | _ => ({ r with context := .object [] }, s)

/-- The session whose cookie has been sent. -/
def autoLoadSession (r : Request) (s : FileStore κ) : Request × FileStore κ :=
  if cfg.sessionAutoLoad then
    match r.cookies.find cfg.sessionCookieName with
    | some (.string _) =>
      (sessionStart cfg.toGlobalConfig resolve around.sessionIo around.random r
        (s.tick around.sessionIo)).2
    | _ => (r, s)
  else (r, s)

/-- The task, up to the response queue. -/
def prepareRequest (r : Request) (s : FileStore κ) : Request × FileStore κ :=
  let p := parseEndpointFile cfg resolve around (r.env.find cfg.endpointFilePath) r s
  let r := { p.1 with
    cookies := parseCookieHeader p.1.cookies (p.1.env.find cfg.httpCookiesVar) }
  let r := Http.parseQueryString r (r.env.find cfg.httpQueryVar)
  let r := parseFormData around.temp cfg.uploadTmpDir r
  let q := autoLoadSession cfg resolve around r p.2
  ({ q.1 with
      headers := q.1.headers.assign (ascii "Content-Type") (.string cfg.defaultContentType) },
    q.2)

/-! ## What the task leaves alone

Each parser sets some parts of the request and reads others. What it does not set is the same behind
it, so the order of the parsers can be followed part by part. -/

/-- The same request but for parameters, cookies and files. -/
theorem parseFormData_frame (temp : TempFiles) (uploadDir : Bytes) (r : Request) :
    ∃ params files,
      parseFormData temp uploadDir r = { r with params := params, files := files } := by
  rw [parseFormData]
  split
  · dsimp only
    split
    · exact ⟨_, r.files, rfl⟩
    split
    · exact ⟨_, r.files, rfl⟩
    split
    · rw [parseMultipartFormData]
      split
      · split
        · exact ⟨r.params, r.files, rfl⟩
        · exact ⟨_, _, rfl⟩
      · exact ⟨r.params, r.files, rfl⟩
    · exact ⟨r.params, r.files, rfl⟩
  · exact ⟨r.params, r.files, rfl⟩

/-- A session that is started changes the session, its id and the headers. -/
theorem sessionStart_frame (cfg : GlobalConfig) (io : Io) (random : Bytes) (r : Request)
    (s : FileStore κ) :
    ∃ session headers, (sessionStart cfg resolve io random r s).2.1 =
      { r with
        session := session
        headers := headers
        sessionId := if r.sessionId.isEmpty then random else r.sessionId } := by
  obtain ⟨r', hr', hid⟩ : ∃ r' : Request, (sessionGetId true random r).2 = r' ∧
      r' = { r with sessionId := if r.sessionId.isEmpty then random else r.sessionId } := by
    refine ⟨_, rfl, ?_⟩
    rw [sessionGetId]
    by_cases h : r.sessionId.isEmpty = true
    · simp [h]
    · simp [h]
  have hload (r : Request) (s : FileStore κ) :
      ∃ session, (sessionLoad cfg resolve io r s).2.1 = { r with session := session } := by
    rw [sessionLoad]
    split
    · exact ⟨r.session, rfl⟩
    · dsimp only
      split
      · exact ⟨r.session, rfl⟩
      · split
        · exact ⟨_, rfl⟩
        · exact ⟨r.session, rfl⟩
  have hstart (r'' : Request) : ∃ session,
      (if (sessionLoad cfg resolve io r'' s).1 then (sessionLoad cfg resolve io r'' s).2.1
        else { (sessionLoad cfg resolve io r'' s).2.1 with session := .null })
          = { r'' with session := session } := by
    obtain ⟨session, hsession⟩ := hload r'' s
    split
    · exact ⟨session, hsession⟩
    · exact ⟨.null, by rw [hsession]⟩
  rw [sessionStart, hr']
  dsimp only
  cases r'.cookies.find cfg.sessionCookieName with
  | some v =>
    obtain ⟨session, hsession⟩ := hstart r'
    exact ⟨session, r'.headers, hsession.trans (by rw [hid])⟩
  | none =>
    obtain ⟨session, hsession⟩ := hstart { r' with
      headers := r'.headers.assign (ascii "Set-Cookie") (.string (cfg.sessionCookieName ++
        ascii "=" ++ r'.sessionId ++ ascii "; Path=/; HttpOnly")) }
    exact ⟨session, _, hsession.trans (by rw [hid])⟩

/-- The session with the cookie's name is looked for among the cookies, and a new id is drawn. -/
theorem autoLoadSession_frame (r : Request) (s : FileStore κ) :
    ∃ session headers, (autoLoadSession cfg resolve around r s).1 =
      { r with
        session := session
        headers := headers
        sessionId :=
          match r.cookies.find cfg.sessionCookieName with
          | some (.string _) =>
            if cfg.sessionAutoLoad ∧ r.sessionId.isEmpty then around.random else r.sessionId
          | _ => r.sessionId } := by
  have hself (r : Request) : ∃ session headers, r =
      { r with session := session, headers := headers } := ⟨r.session, r.headers, rfl⟩
  rw [autoLoadSession]
  by_cases hauto : cfg.sessionAutoLoad = true
  · rw [if_pos hauto]
    simp only [hauto, true_and]
    cases r.cookies.find cfg.sessionCookieName with
    | none => exact hself r
    | some v =>
      cases v with
      | string _ => exact sessionStart_frame resolve cfg.toGlobalConfig _ _ _ _
      | null => exact hself r
      | object _ => exact hself r
      | array _ => exact hself r
      | number _ => exact hself r
      | bool _ => exact hself r
  · rw [if_neg hauto]
    simp only [hauto, Bool.false_eq_true, false_and, if_false]
    refine ⟨r.session, r.headers, ?_⟩
    split <;> rfl

private theorem parseEndpointFile_frame (filePath : Option DynamicVariable) (r : Request)
    (s : FileStore κ) :
    ∃ context, (parseEndpointFile cfg resolve around filePath r s).1 =
      { r with context := context } := by
  rw [parseEndpointFile.eq_def]
  split
  · exact ⟨_, rfl⟩
  · exact ⟨_, rfl⟩

/-- The request when everything but its session has been prepared. -/
def parsedRequest (r : Request) (s : FileStore κ) : Request :=
  parseFormData around.temp cfg.uploadTmpDir (queryAndCookies cfg.httpQueryVar cfg.httpCookiesVar
    { r with
      context :=
        (parseEndpointFile cfg resolve around (r.env.find cfg.endpointFilePath) r s).1.context })

private theorem prepareRequest_frame (r : Request) (s : FileStore κ) :
    ∃ (session headers : DynamicVariable), (prepareRequest cfg resolve around r s).1 =
      { parsedRequest cfg resolve around r s with
        session := session
        headers := headers.assign (ascii "Content-Type") (.string cfg.defaultContentType)
        sessionId :=
          match (parsedRequest cfg resolve around r s).cookies.find cfg.sessionCookieName with
          | some (.string _) =>
            if cfg.sessionAutoLoad ∧ (parsedRequest cfg resolve around r s).sessionId.isEmpty then
              around.random
            else (parsedRequest cfg resolve around r s).sessionId
          | _ => (parsedRequest cfg resolve around r s).sessionId } := by
  obtain ⟨context, hcontext⟩ := parseEndpointFile_frame cfg resolve around
    (r.env.find cfg.endpointFilePath) r s
  have hparsed : parsedRequest cfg resolve around r s = parseFormData around.temp
      cfg.uploadTmpDir (queryAndCookies cfg.httpQueryVar cfg.httpCookiesVar
        { r with context := context }) := by
    rw [parsedRequest, hcontext]
  obtain ⟨session, headers, hsession⟩ := autoLoadSession_frame cfg resolve around
    (parsedRequest cfg resolve around r s)
    (parseEndpointFile cfg resolve around (r.env.find cfg.endpointFilePath) r s).2
  refine ⟨session, headers, ?_⟩
  rw [hparsed] at hsession ⊢
  rw [prepareRequest, hcontext]
  exact congrArg (fun r : Request ↦ { r with
    headers := r.headers.assign (ascii "Content-Type") (.string cfg.defaultContentType) }) hsession

/-- **The task sets what it is said to set**, so that it can stand for the application's parsers in
the event loop. -/
theorem prepared_prepareRequest (render : Request → Bytes) (r : Request) (s : FileStore κ) :
    Application.prepared ⟨fun r ↦ (prepareRequest cfg resolve around r s).1, render⟩ r
      = (prepareRequest cfg resolve around r s).1 := by
  obtain ⟨session, headers, hprepare⟩ := prepareRequest_frame cfg resolve around r s
  obtain ⟨params, files, hform⟩ := parseFormData_frame around.temp cfg.uploadTmpDir
    (queryAndCookies cfg.httpQueryVar cfg.httpCookiesVar { r with
      context :=
        (parseEndpointFile cfg resolve around (r.env.find cfg.endpointFilePath) r s).1.context })
  rw [← parsedRequest] at hform
  rw [Application.prepared]
  dsimp only
  rw [hprepare, hform]
  rfl

/-! ## What the task reads

The parsers find in `env` what the decoder has put there: the last value of each variable that was
sent, unless the server sets or strips the variable itself. -/

/-- The value a variable has in the end. -/
def lastValue (pairs : List (Bytes × Bytes)) (name : Bytes) : Option Bytes :=
  pairs.reverse.lookup name

/-- What a handler finds in the request that has been sent with these pairs. -/
structure Prepared (sub : Submission) (pairs : List (Bytes × Bytes)) (s : FileStore κ)
    (r : Request) : Prop extends sub.ReadAs around.temp cfg.uploadTmpDir r where
  env : ∀ name, name ∉ serverVariables → r.env.find name = (lastValue pairs name).map .string
  contentType : r.headers.find (ascii "Content-Type") = some (.string cfg.defaultContentType)
  /-- each key of the endpoint file has the values of its lines -/
  context : ∀ path, lastValue pairs cfg.endpointFilePath = some path → ∀ key,
    r.context.find key = KvFile.entryOf (KvFile.valuesOf key (KvFile.contributions
      (ascii "undefined") ((readEntireFileCached cfg.toGlobalConfig resolve around.endpointIo path
        (s.tick around.endpointIo)).1.splitOn 10)))
  sessionId : r.sessionId =
    if cfg.sessionAutoLoad ∧
      cfg.sessionCookieName ∈ (sub.cookies.filterMap CookieSegment.cookie).map Prod.fst then
        around.random
    else []

private theorem find_assignPairs (pairs : List (Bytes × Bytes)) (env : DynamicVariable)
    (name : Bytes) :
    (assignPairs env pairs).find name =
      ((lastValue pairs name).map .string).or (env.find name) := by
  induction pairs using List.reverseRecOn with
  | nil => rfl
  | append_singleton pairs pair ih =>
    rw [assignPairs_append, lastValue, List.reverse_append, List.reverse_singleton,
      List.singleton_append, List.lookup_cons]
    by_cases hname : name = pair.1
    · subst hname
      rw [beq_self_eq_true]
      exact DynamicVariable.find_assign_self _ _ _
    · rw [beq_false_of_ne hname]
      exact (DynamicVariable.find_assign_of_ne _ _ hname).trans ih

/-- The other variables are not stripped. -/
theorem find_stripPathPrefix_of_not_mem (cfg : GlobalConfig) (env : DynamicVariable) {name : Bytes}
    (hname : name ∉ serverVariables) :
    (stripPathPrefix cfg env).find name = env.find name := by
  simp only [serverVariables, List.mem_cons, List.not_mem_nil, or_false, not_or] at hname
  rw [stripPathPrefix]
  split
  · rfl
  · rw [find_stripVariable_of_ne hname.2.2, find_stripVariable_of_ne hname.2.1]

/-- What a file holds, also if it is empty. -/
theorem find_loadKvFile_any (content key : Bytes) :
    (KvFile.loadKvFile content (.object [])).2.find key = KvFile.entryOf (KvFile.valuesOf key
      (KvFile.contributions (ascii "undefined") (content.splitOn 10))) := by
  by_cases h : content = []
  · subst h
    rfl
  · rw [KvFile.loadKvFile, if_neg h, foldPieces_eq (fun _ ↦ rfl) le_rfl]
    exact @KvFile.find_foldl_readLine _ ⟨.object [], ascii "undefined"⟩ [] (by decide)
      (fun _ ↦ rfl) key

variable {cfg resolve around} in
/-- What the task makes of a request that has just been received. -/
theorem prepared_of_told {sub : Submission} {pairs : List (Bytes × Bytes)} {r : Request}
    (henv : ∀ name, name ∉ serverVariables → r.env.find name = (lastValue pairs name).map .string)
    (htold : sub.Told (lastValue pairs cfg.httpQueryVar) (lastValue pairs cfg.httpCookiesVar)
      (lastValue pairs (ascii "CONTENT_TYPE")) r.body)
    (hfresh : r.params = .object [] ∧ r.cookies = .object [] ∧ r.files = .array [])
    (hnew : r.sessionId = []) (s : FileStore κ) :
    Prepared cfg resolve around sub pairs s (prepareRequest cfg resolve around r s).1 := by
  obtain ⟨session, headers, hprepare⟩ := prepareRequest_frame cfg resolve around r s
  obtain ⟨params, files, hform⟩ := parseFormData_frame around.temp cfg.uploadTmpDir
    (queryAndCookies cfg.httpQueryVar cfg.httpCookiesVar { r with
      context :=
        (parseEndpointFile cfg resolve around (r.env.find cfg.endpointFilePath) r s).1.context })
  have hreads : sub.ReadAs around.temp cfg.uploadTmpDir (parsedRequest cfg resolve around r s) :=
    Submission.readAs_parseFormData around.temp cfg.uploadTmpDir
      (henv _ cfg.httpQueryVar_free) (henv _ cfg.httpCookiesVar_free) (henv _ (by decide)) htold
      hfresh
  have hkept : (parsedRequest cfg resolve around r s).env = r.env ∧
      (parsedRequest cfg resolve around r s).sessionId = r.sessionId ∧
      (parsedRequest cfg resolve around r s).context =
        (parseEndpointFile cfg resolve around (r.env.find cfg.endpointFilePath) r s).1.context := by
    rw [parsedRequest, hform]
    exact ⟨rfl, rfl, rfl⟩
  obtain ⟨hkeptEnv, hkeptId, hkeptContext⟩ := hkept
  rw [hprepare]
  refine ⟨⟨hreads.params, hreads.cookies, hreads.files⟩, fun name hname ↦ ?_,
    DynamicVariable.find_assign_self _ _ _, fun path hpath key ↦ ?_, ?_⟩
  · dsimp only
    rw [hkeptEnv, henv name hname]
  · dsimp only
    rw [hkeptContext, henv _ cfg.endpointFilePath_free, hpath]
    exact find_loadKvFile_any _ key
  · dsimp only
    rw [hkeptId, hnew, hreads.cookies]
    set sent := sub.cookies.filterMap CookieSegment.cookie
    cases hlookup : sent.reverse.lookup cfg.sessionCookieName with
    | none =>
      have hnot : cfg.sessionCookieName ∉ sent.map Prod.fst := by
        intro hmem
        obtain ⟨c, hc, hname⟩ := List.mem_map.mp hmem
        have hne := List.lookup_eq_none_iff.mp hlookup c (List.mem_reverse.mpr hc)
        rw [bne_iff_ne] at hne
        exact hne hname.symm
      exact (if_neg fun h ↦ hnot h.2).symm
    | some content =>
      have hmem : cfg.sessionCookieName ∈ sent.map Prod.fst := by
        have hsome : (sent.reverse.lookup cfg.sessionCookieName).isSome = true := by
          rw [hlookup]
          rfl
        obtain ⟨c, hc, hname⟩ := List.lookup_isSome_iff.mp hsome
        exact List.mem_map.mpr ⟨c, List.mem_reverse.mp hc, (beq_iff_eq.mp hname).symm⟩
      refine if_congr ?_ rfl rfl
      exact and_congr_right fun _ ↦ iff_of_true rfl hmem

/-- A request as `allocate_request` leaves it. -/
def allocated (i : ℕ) (now : ℚ) (id : UInt16) (io : ConnRef) (handle : ℕ) : Request :=
  { Request.ofArena i now with id := id, connPtr := some io, handle := handle }

variable {cfg resolve around} {id : UInt16} {i : ℕ} {now : ℚ} {io : ConnRef} {handle : ℕ}
  {sub : Submission} {q : EncodedRequest}

/-- What the worker makes of a request that has been decoded. -/
theorem prepared_decoded
    (htold : sub.Told (lastValue q.pairs cfg.httpQueryVar) (lastValue q.pairs cfg.httpCookiesVar)
      (lastValue q.pairs (ascii "CONTENT_TYPE")) q.body) (w : World) (s : FileStore κ) :
    let r := (allocated i now id io handle).withCore
      (q.decoded (allocated i now id io handle).toRequestCore)
    Prepared cfg resolve around sub q.pairs s (prepareRequest cfg resolve around
      (internalOnRequestReady cfg.toGlobalConfig r w).1 s).1 := by
  intro r
  refine prepared_of_told (fun name hname ↦ ?_) htold ⟨rfl, rfl, rfl⟩ rfl s
  have hdebug : name ≠ ascii "DBG_ARENA" := fun h ↦ hname (h ▸ List.mem_cons_self)
  have hstripped : (internalOnRequestReady cfg.toGlobalConfig r w).1.env =
      stripPathPrefix cfg.toGlobalConfig (assignPairs (Request.ofArena i now).env q.pairs) := rfl
  rw [hstripped, find_stripPathPrefix_of_not_mem _ _ hname, find_assignPairs, Request.ofArena,
    DynamicVariable.find_assign_of_ne _ _ hdebug]
  exact Option.or_none

end

/-- A form with a field that the query has too, and a session cookie. -/
def orderSubmission : Submission where
  query := [⟨ascii "item", ascii "1"⟩, ⟨ascii "page", ascii "2"⟩]
  query_keys := by decide
  cookies := [.pair ⟨[], by simp⟩ ⟨ascii "session_id", by decide, by decide, by decide, by decide⟩
    ⟨[], by simp⟩ ⟨[], by simp⟩ (.plain (ascii "s1") (by decide) (by decide) (by decide))
    ⟨[], by simp⟩]
  form := .urlencoded [⟨ascii "item", ascii "7 & 8"⟩] (by decide)

/-- The variables of the request. -/
def orderVariables : List EncodedPair :=
  [⟨ascii "QUERY_STRING", ascii "item=1&page=2", .short, .short, by decide, by decide⟩,
    ⟨ascii "HTTP_COOKIE", ascii "session_id=s1", .short, .long, by decide, by decide⟩,
    ⟨ascii "CONTENT_TYPE", ascii "Application/X-WWW-Form-Urlencoded", .short, .short, by decide,
      by decide⟩]

/-- The same as a FastCGI request, its body in two records. -/
def orderRequest : EncodedRequest :=
  { smallRequest with
    params := [{ smallRequest.paramsTrailer with
      pairs := orderVariables
      pairs_ne_nil := List.cons_ne_nil _ _
      content_lt := by decide }]
    stdin := [
      { smallRequest.stdinTrailer with
        content := ascii "item=7%20"
        content_ne_nil := List.cons_ne_nil _ _
        content_lt := by decide },
      { smallRequest.stdinTrailer with
        content := ascii "%26%208"
        content_ne_nil := List.cons_ne_nil _ _
        content_lt := by decide }] }

/-- A disk with nothing on it. -/
def emptyStore : FileStore Bytes where
  disk _ := none

theorem told_order :
    orderSubmission.Told (lastValue orderRequest.pairs (ascii "QUERY_STRING"))
      (lastValue orderRequest.pairs (ascii "HTTP_COOKIE"))
      (lastValue orderRequest.pairs (ascii "CONTENT_TYPE")) orderRequest.body :=
  ⟨by decide, by decide, ⟨_, rfl, by decide, by decide⟩, by decide⟩

end Wasapi.FcgiConn
