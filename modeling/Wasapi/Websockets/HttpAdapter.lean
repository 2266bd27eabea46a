import Wasapi.Http.Response
import Wasapi.Websockets.Adapters

/-!
# From a FastCGI response to an HTTP response

What a handler writes through `output_headers` and `append_stdout_text` is a CGI response: header
lines, an empty line, and the body. The task of `schedule_http` takes a text that starts with
`HTTP/` for a whole response, and `output_headers` writes none. Any other text it wraps as it is, so
that the header lines become part of the body and the content length counts them.
-/

namespace Wasapi.Websockets

open Fastcgi Http

/-! ## The wrapper

The wrapper puts a status line and three headers of its own in front of a text. A reader takes all
that follows its empty line for the body, as the content length tells. -/

def wrapperLines (ct : Bytes) (n : ℕ) : List Bytes :=
  [ascii "HTTP/1.1 200 OK", ascii "Content-Type: " ++ ct, ascii "Content-Length: " ++ decimal n,
    ascii "Connection: close"]

private theorem trimSpaces_blank_cons {l : Bytes} (h : ∀ b ∈ l, isBlank b = false) :
    trimSpaces (32 :: l) = l := by
  have hlast : l.rdropWhile isBlank = l := by
    rw [List.rdropWhile_eq_self_iff]
    intro hne
    rw [h _ (List.getLast_mem hne)]
    exact Bool.false_ne_true
  have hfirst : (32 :: l).dropWhile isBlank = l := by
    rw [List.dropWhile_cons_of_pos (by decide)]
    cases l with
    | nil => rfl
    | cons b l =>
      rw [List.dropWhile_cons_of_neg]
      rw [h b List.mem_cons_self]
      exact Bool.false_ne_true
  rw [trimSpaces, hfirst, hlast]

private theorem isBlank_decimal (n : ℕ) : ∀ b ∈ decimal n, isBlank b = false := by
  intro b hb
  have hdigit : ∀ b : UInt8, isDigit b = true → isBlank b = false := by decide +kernel
  exact hdigit b (isDigit_decimal n b hb)

private theorem readFields_wrapper (ct : Bytes) (n : ℕ) :
    readFields (wrapperLines ct n).tail = some [(ascii "Content-Type", trimSpaces (32 :: ct)),
      (ascii "Content-Length", decimal n), (ascii "Connection", ascii "close")] := by
  have hsplit (name value : Bytes) : name ++ [58, 32] ++ value = name ++ 58 :: 32 :: value :=
    List.append_assoc name [58, 32] value
  have htype : readField (ascii "Content-Type: " ++ ct)
      = some (ascii "Content-Type", trimSpaces (32 :: ct)) := by
    rw [(by decide : ascii "Content-Type: " = ascii "Content-Type" ++ [58, 32]), hsplit]
    exact readField_eq (by decide) _
  have hlength : readField (ascii "Content-Length: " ++ decimal n)
      = some (ascii "Content-Length", decimal n) := by
    rw [(by decide : ascii "Content-Length: " = ascii "Content-Length" ++ [58, 32]), hsplit,
      readField_eq (by decide), trimSpaces_blank_cons (isBlank_decimal n)]
  have hconnection : readField (ascii "Connection: close")
      = some (ascii "Connection", ascii "close") := by
    decide
  rw [wrapperLines, List.tail_cons, readFields, htype, readFields, hlength, readFields, hconnection]
  rfl

private theorem declaredLength_wrapper (value : Bytes) (n : ℕ) :
    declaredLength [(ascii "Content-Type", value), (ascii "Content-Length", decimal n),
      (ascii "Connection", ascii "close")] = some n := by
  have htype : (ascii "Content-Type").map toLower ≠ ascii "content-length" := by decide
  have hlength : (ascii "Content-Length").map toLower = ascii "content-length" := by decide
  rw [declaredLength, List.find?_cons_of_neg (by simpa using htype),
    List.find?_cons_of_pos (by simpa using hlength), Option.map_some, digitsValue_decimal]

private theorem wrapperLines_readable {ct : Bytes} (hct : 13 ∉ ct) (n : ℕ) :
    ∀ l ∈ wrapperLines ct n, l ≠ [] ∧ 13 ∉ l := by
  have hdecimal : 13 ∉ decimal n := by
    intro hmem
    exact absurd (isDigit_decimal n 13 hmem) (by decide)
  have happend {name value : Bytes} (hname : name ≠ [] ∧ 13 ∉ name) (hvalue : 13 ∉ value) :
      name ++ value ≠ [] ∧ 13 ∉ name ++ value := by
    refine ⟨List.append_ne_nil_of_left_ne_nil hname.1 value, fun hmem ↦ ?_⟩
    rcases List.mem_append.mp hmem with hmem | hmem
    · exact hname.2 hmem
    · exact hvalue hmem
  rw [wrapperLines]
  refine List.forall_mem_cons.mpr ⟨by decide, List.forall_mem_cons.mpr ⟨?_,
    List.forall_mem_cons.mpr ⟨?_, List.forall_mem_singleton.mpr (by decide)⟩⟩⟩
  · exact happend (by decide) hct
  · exact happend (by decide) hdecimal

/-- What a reader makes of the wrapper: all of the text is body. -/
theorem readResponse_wrapper {ct : Bytes} (hct : 13 ∉ ct) (text : Bytes) :
    (readResponse ((wrapperLines ct text.length).flatMap (fun l ↦ l ++ crlf) ++
      (crlf ++ text))).map HttpMessage.body = some text := by
  have hfuel : (wrapperLines ct text.length).length
      < ((wrapperLines ct text.length).flatMap (fun l ↦ l ++ crlf) ++ (crlf ++ text)).length := by
    simp only [wrapperLines, List.flatMap_cons, List.length_append, List.length_cons,
      List.length_nil, crlf]
    omega
  have hlines := readLines_flatMap (wrapperLines_readable hct text.length) hfuel text
  have hfields := readFields_wrapper ct text.length
  rw [wrapperLines, List.tail_cons] at hfields
  rw [readResponse, hlines, wrapperLines]
  simp only
  rw [if_pos (by decide), hfields]
  simp only [Option.bind_eq_bind, Option.bind_some]
  rw [declaredLength_wrapper]
  simp only [Option.bind_some]
  rw [if_neg (lt_irrefl _), Option.map_some, List.take_length]

/-! ## What the task makes of a text

The task looks whether the text begins like a status line. What `output_headers` writes begins with
the name of a header, and a name that begins with `HTTP/` is none, as it has a slash. -/

private theorem httpResponse_of_not_starts {r : Request} {resp : Bytes}
    (h : ¬ascii "HTTP/" <+: stdoutText resp) :
    ∃ ct, (ct = ascii "text/plain; charset=utf-8" ∨
        r.headers.find (ascii "Content-Type") = some (.string ct)) ∧
      httpResponse r resp =
        (wrapperLines ct (stdoutText resp).length).flatMap (fun l ↦ l ++ crlf) ++
          (crlf ++ stdoutText resp) := by
  have hwrap (ct : Bytes) (n : ℕ) (text : Bytes) :
      ascii "HTTP/1.1 200 OK" ++ crlf ++ ascii "Content-Type: " ++ ct ++ crlf ++
        ascii "Content-Length: " ++ decimal n ++ crlf ++ ascii "Connection: close" ++
        crlfcrlf ++ text
      = (wrapperLines ct n).flatMap (fun l ↦ l ++ crlf) ++ (crlf ++ text) := by
    simp only [wrapperLines, List.flatMap_cons, List.flatMap_nil, List.append_assoc,
      List.append_nil]
    rfl
  rw [httpResponse]
  simp only
  rw [if_neg fun hp ↦ h (List.isPrefixOf_iff_prefix.mp hp)]
  split
  · next ct hfind => exact ⟨ct, .inr hfind, hwrap ct _ _⟩
  · exact ⟨_, .inl rfl, hwrap _ _ _⟩

/-- Where the text starts with `HTTP/` this is the name of a header, and no token. -/
theorem mem_name_of_starts {o : List (Bytes × DynamicVariable)} {block b : Bytes}
    (hblock : outputHeaders o = some block) (h : ascii "HTTP/" <+: block ++ b) :
    ∃ f ∈ o, (47 : UInt8) ∈ f.1 := by
  cases o with
  | nil =>
    obtain rfl := Option.some.inj hblock
    obtain ⟨rest, hrest⟩ := h
    have hhead : some (72 : UInt8) = some 13 := congrArg List.head? hrest
    exact absurd hhead (by decide)
  | cons f o =>
    obtain ⟨name, v⟩ := f
    rw [outputHeaders] at hblock
    obtain ⟨text, -, hblock⟩ := Option.bind_eq_some_iff.mp hblock
    obtain ⟨more, -, hblock⟩ := Option.bind_eq_some_iff.mp hblock
    obtain rfl := Option.some.inj hblock
    refine ⟨(name, v), List.mem_cons_self, ?_⟩
    have hname : name ++ [58] <+: name ++ ascii ": " ++ text ++ crlf ++ more ++ b := by
      refine ⟨32 :: (text ++ crlf ++ more ++ b), ?_⟩
      rw [(by decide : ascii ": " = [58, 32])]
      simp only [List.append_assoc, List.cons_append, List.nil_append]
    -- the slash comes before the colon, since there is no colon in `HTTP/`
    rcases List.prefix_or_prefix_of_prefix h hname with hp | hp
    · have hmem : (47 : UInt8) ∈ name ++ [58] := hp.mem (by decide)
      rcases List.mem_append.mp hmem with hmem | hmem
      · exact hmem
      · exact absurd hmem (by decide)
    · have hmem : (58 : UInt8) ∈ ascii "HTTP/" :=
        hp.mem (List.mem_append_right name (List.mem_singleton_self 58))
      exact absurd hmem (by decide)

private theorem length_lt_outputHeaders {o : List (Bytes × DynamicVariable)} {block : Bytes}
    (hblock : outputHeaders o = some block) : 0 < block.length := by
  cases o with
  | nil =>
    obtain rfl := Option.some.inj hblock
    decide
  | cons f o =>
    rw [outputHeaders] at hblock
    obtain ⟨text, -, hblock⟩ := Option.bind_eq_some_iff.mp hblock
    obtain ⟨more, -, hblock⟩ := Option.bind_eq_some_iff.mp hblock
    obtain rfl := Option.some.inj hblock
    simp only [List.length_append, (by decide : crlf.length = 2)]
    omega

/-! ## The answer to a request

Both cases go wrong, each in its own way. So there is no handler, no request and no splitting into
records for which the response carries the headers and the body. -/

/-- A task of `schedule_http` whose handler has emitted the headers `o` of the request and the body
`b`. Names and strings have no line ends. -/
structure Responding (app : Application) (t : Task) (o : List (Bytes × DynamicVariable))
    (b : Bytes) where
  callback : Request → Request × Bytes
  cbhttp : app.cbhttp = some callback
  kind : t.kind = .http
  headers : (callback t.request).1.headers = .object o
  name_clean : ∀ f ∈ o, 13 ∉ f.1 ∧ 10 ∉ f.1
  string_clean : ∀ f ∈ o, ∀ s, f.2 = .string s → 13 ∉ s ∧ 10 ∉ s
  block : Bytes
  outputHeaders : outputHeaders o = some block
  id : UInt16
  texts : List Bytes
  texts_flatten : texts.flatten = block ++ b
  appStatus : UInt32
  status : ProtocolStatus
  output : (callback t.request).2 = handlerOutput id texts appStatus status

namespace Responding

variable {app : Application} {t : Task} {o : List (Bytes × DynamicVariable)} {b : Bytes}
  (h : Responding app t o b)

/-- The bytes the task queues. -/
def response : Bytes := httpResponse (h.callback t.request).1 (h.callback t.request).2

private theorem stdoutText_output : stdoutText (h.callback t.request).2 = h.block ++ b := by
  rw [h.output, stdoutText_handlerOutput, h.texts_flatten]

private theorem contentType_clean {ct : Bytes}
    (hct : ct = ascii "text/plain; charset=utf-8" ∨
      (h.callback t.request).1.headers.find (ascii "Content-Type") = some (.string ct)) :
    13 ∉ ct := by
  rcases hct with rfl | hfind
  · decide
  · rw [h.headers, DynamicVariable.find] at hfind
    obtain ⟨l₁, l₂, rfl, -⟩ := List.lookup_eq_some_iff.mp hfind
    exact (h.string_clean _ (List.mem_append_right l₁ List.mem_cons_self) ct rfl).1

private theorem not_carries : ¬Carries h.response o b := by
  rintro ⟨m, hread, hbody, hheaders⟩
  have htext := h.stdoutText_output
  by_cases hstarts : ascii "HTTP/" <+: stdoutText (h.callback t.request).2
  · -- the header whose line has become the status line is missing
    rw [htext] at hstarts
    obtain ⟨f, hf, hslash⟩ := mem_name_of_starts h.outputHeaders hstarts
    obtain ⟨g, hg, hname, -⟩ := hheaders f hf
    have hmem : (47 : UInt8) ∈ g.1.map toLower := by
      rw [hname]
      exact List.mem_map.mpr ⟨47, hslash, by decide⟩
    obtain ⟨c, hc, hlower⟩ := List.mem_map.mp hmem
    have htoken := List.all_eq_true.mp (isTokenChar_of_readResponse hread g hg) c hc
    have hall : ∀ c : UInt8, isTokenChar c = true → toLower c ≠ 47 := by decide +kernel
    exact hall c htoken hlower
  · -- the header lines have become part of the body
    obtain ⟨ct, hct, heq⟩ := httpResponse_of_not_starts (r := (h.callback t.request).1) hstarts
    have hwhole := readResponse_wrapper (h.contentType_clean hct)
      (stdoutText (h.callback t.request).2)
    rw [← heq, ← response, hread, Option.map_some, hbody, htext] at hwhole
    have hlen := congrArg List.length (Option.some.inj hwhole)
    have hpos := length_lt_outputHeaders h.outputHeaders
    rw [List.length_append] at hlen
    omega

private theorem response_ne_nil : h.response ≠ [] := by
  by_cases hstarts : ascii "HTTP/" <+: stdoutText (h.callback t.request).2
  · rw [response, httpResponse]
    simp only
    rw [if_pos (List.isPrefixOf_iff_prefix.mpr hstarts)]
    intro hnil
    rw [hnil] at hstarts
    exact absurd (List.prefix_nil.mp hstarts) (by decide)
  · obtain ⟨ct, -, heq⟩ := httpResponse_of_not_starts (r := (h.callback t.request).1) hstarts
    rw [response, heq]
    exact List.append_ne_nil_of_right_ne_nil _ (List.cons_ne_nil _ _)

theorem pendingFrames_eq {k : ℕ} {s : Server} (htask : s.tasks[k]? = some t)
    (hphase : t.phase = .started) :
    (workerStep app k s).pendingFrames = s.pendingFrames ++ [⟨t.fd, h.response, t.origin⟩] := by
  have hframe : t.frame app = h.response := by
    rw [Task.frame, h.kind]
    simp only
    rw [h.cbhttp]
    rfl
  have hne : h.response.isEmpty = false := by
    rw [Bool.eq_false_iff, ne_eq, List.isEmpty_iff]
    exact h.response_ne_nil
  rw [workerStep, htask]
  simp only [hphase]
  rw [hframe, hne]
  rfl

end Responding

/-- **No response carries what the handler has written**: if the text starts with `HTTP/` a header
is missing, and if it does not the header lines are in the body. -/
theorem response_not_carries {app : Application} {t : Task} {o : List (Bytes × DynamicVariable)}
    {b : Bytes} (h : Responding app t o b) {k : ℕ} {s : Server} (htask : s.tasks[k]? = some t)
    (hphase : t.phase = .started) :
    ∃ response, (workerStep app k s).pendingFrames
        = s.pendingFrames ++ [⟨t.fd, response, t.origin⟩] ∧ ¬Carries response o b :=
  ⟨h.response, h.pendingFrames_eq htask hphase, h.not_carries⟩

/-- A handler that sets one header and answers with two letters. -/
def page : Application where
  sha1 := id
  parse := id
  cbws := none
  cbhttp := some fun r ↦
    ({ r with headers := .object [(ascii "Content-Type", .string (ascii "text/html"))] },
      handlerOutput r.id [ascii "Content-Type: text/html" ++ crlfcrlf ++ ascii "ok"] 0
        .requestComplete)

def pageTask : Task := ⟨.http, 5, .ofArena 0 0, 0, .started⟩

def pageServer : Server := { tasks := [pageTask], arenas := .createArenas [] 0 }

def pageResponding : Responding page pageTask
    [(ascii "Content-Type", .string (ascii "text/html"))] (ascii "ok") where
  callback r :=
    ({ r with headers := .object [(ascii "Content-Type", .string (ascii "text/html"))] },
      handlerOutput r.id [ascii "Content-Type: text/html" ++ crlfcrlf ++ ascii "ok"] 0
        .requestComplete)
  cbhttp := rfl
  kind := rfl
  headers := rfl
  name_clean := List.forall_mem_singleton.mpr (by decide)
  string_clean := List.forall_mem_singleton.mpr fun s hs ↦ by
    obtain rfl := DynamicVariable.string.inj hs
    decide
  block := ascii "Content-Type: text/html" ++ crlfcrlf
  outputHeaders := by
    rw [outputHeaders, headerText]
    decide
  id := 0
  texts := [ascii "Content-Type: text/html" ++ crlfcrlf ++ ascii "ok"]
  texts_flatten := List.append_nil _
  appStatus := 0
  status := .requestComplete
  output := rfl

theorem response_not_carries_page : ∃ response,
    (workerStep page 0 pageServer).pendingFrames = [⟨5, response, 0⟩] ∧
      ¬Carries response [(ascii "Content-Type", .string (ascii "text/html"))] (ascii "ok") :=
  response_not_carries pageResponding (s := pageServer) rfl rfl

theorem not_always_carries :
    ¬∀ (app : Application) (t : Task) (o : List (Bytes × DynamicVariable)) (b : Bytes)
      (_ : Responding app t o b) (k : ℕ) (s : Server) (response : Bytes),
      s.tasks[k]? = some t → t.phase = .started →
      (workerStep app k s).pendingFrames = s.pendingFrames ++ [⟨t.fd, response, t.origin⟩] →
      Carries response o b := by
  intro hall
  obtain ⟨m, hread, hbody, -⟩ := hall page pageTask _ _ pageResponding 0 pageServer
    pageResponding.response rfl rfl (pageResponding.pendingFrames_eq (s := pageServer) rfl rfl)
  have hwhole : (readResponse pageResponding.response).map HttpMessage.body
      = some (ascii "Content-Type: text/html" ++ crlfcrlf ++ ascii "ok") := by
    decide +kernel
  rw [hread, Option.map_some, hbody] at hwhole
  exact absurd hwhole (by decide)

end Wasapi.Websockets
