import Wasapi.FcgiConn.Handlers
import Wasapi.Websockets.Http

/-!
# Stripping a path prefix

`schedule_http` strips the prefix of the websocket server from the request target, and
`internal_on_request_ready` that of the FastCGI server from `REQUEST_URI` and `PATH_INFO`. Both
compare the first characters and nothing else. A target that goes on inside the segment loses a part
of its first segment, and one that goes on with its query no longer starts with a slash.
-/

namespace Wasapi.Http

open Websockets FcgiConn

/-! ## What stripping should do

A prefix stands for a segment of the path, so it should be stripped only where a segment ends behind
it: at a slash, at the query, or at the end. -/

/-- The path ends here, or its next segment or the query begins. -/
def EndsSegment (rest : Bytes) : Prop := rest = [] ∨ rest.head? = some 47 ∨ rest.head? = some 63

/-- If `t` has lost the prefix, a segment ended behind it. -/
def StripsSegment (pathPrefix t stripped : Bytes) : Prop :=
  stripped ≠ t → ∃ rest, t = pathPrefix ++ rest ∧ EndsSegment rest

/-- The variables of a request for `target`. -/
def TargetRespected (pathPrefix target : Bytes) (env : DynamicVariable) : Prop :=
  ∃ uri path, env.find (ascii "REQUEST_URI") = some (.string uri) ∧
    env.find (ascii "PATH_INFO") = some (.string path) ∧
    StripsSegment pathPrefix target uri ∧ uri.head? = some 47 ∧ path.head? = some 47

/-- The variables the FastCGI server strips. -/
def strippedVariables : List Bytes := [ascii "REQUEST_URI", ascii "PATH_INFO"]

/-- The variables of a request before and after it has been stripped. -/
def VariablesRespected (pathPrefix : Bytes) (before after : DynamicVariable) : Prop :=
  ∀ key ∈ strippedVariables, ∀ t, before.find key = some (.string t) → t.head? = some 47 →
    ∃ stripped, after.find key = some (.string stripped) ∧
      StripsSegment pathPrefix t stripped ∧ stripped.head? = some 47

/-- The prefix, if it is there, is followed by the end or by a slash. -/
def BeforeSlash (pathPrefix t : Bytes) : Prop :=
  ∀ rest, t = pathPrefix ++ rest → rest = [] ∨ rest.head? = some 47

/-- The first line of a request. -/
structure RequestLine where
  method : Bytes
  target : Bytes
  version : Bytes
  method_no_space : (32 : UInt8) ∉ method
  target_no_space : (32 : UInt8) ∉ target
  no_break : (13 : UInt8) ∉ method ++ target ++ version

def RequestLine.text (l : RequestLine) : Bytes := l.method ++ 32 :: (l.target ++ 32 :: l.version)

/-! ## What stripping does

Both servers compare octets and look no further. A path that has lost the prefix may then begin with
any octet, and if nothing is left of it a slash is put there. -/

variable {pathPrefix : Bytes}

/-- What both servers make of a path. -/
def stripped (pathPrefix t : Bytes) : Bytes :=
  if t.take pathPrefix.length = pathPrefix then
    if (t.drop pathPrefix.length).isEmpty then ascii "/" else t.drop pathPrefix.length
  else t

private theorem take_eq_iff (pathPrefix t : Bytes) :
    t.take pathPrefix.length = pathPrefix ↔ pathPrefix <+: t :=
  ⟨fun h ↦ h ▸ List.take_prefix _ _, fun h ↦ (List.prefix_iff_eq_take.mp h).symm⟩

private theorem stripped_append (rest : Bytes) :
    stripped pathPrefix (pathPrefix ++ rest) = if rest.isEmpty then ascii "/" else rest := by
  rw [stripped, List.take_left, if_pos rfl, List.drop_left]

private theorem stripped_of_not {t : Bytes} (h : ¬pathPrefix <+: t) :
    stripped pathPrefix t = t := by
  rw [stripped, if_neg ((take_eq_iff _ _).not.mpr h)]

/-- A path keeps its slash exactly if the prefix was not there, or stood in front of a slash or the
end. -/
theorem head?_stripped {t : Bytes} (ht : t.head? = some 47) :
    (stripped pathPrefix t).head? = some 47 ↔ BeforeSlash pathPrefix t := by
  by_cases h : pathPrefix <+: t
  · obtain ⟨rest, rfl⟩ := h
    rw [stripped_append]
    cases rest with
    | nil => exact ⟨fun _ r hr ↦ .inl (List.append_cancel_left hr).symm, fun _ ↦ rfl⟩
    | cons b rest =>
      rw [if_neg (by simp)]
      constructor
      · intro hb r hr
        rw [← List.append_cancel_left hr]
        exact .inr hb
      · intro hall
        exact (hall _ rfl).resolve_left (List.cons_ne_nil b rest)
  · rw [stripped_of_not h]
    refine ⟨fun _ rest hrest ↦ absurd ?_ h, fun _ ↦ ht⟩
    exact hrest ▸ List.prefix_append _ _

private theorem stripsSegment_of_beforeSlash {t : Bytes} (h : BeforeSlash pathPrefix t) :
    StripsSegment pathPrefix t (stripped pathPrefix t) := by
  intro hne
  by_cases hprefix : pathPrefix <+: t
  · obtain ⟨rest, rfl⟩ := hprefix
    exact ⟨rest, rfl, (h rest rfl).imp_right .inl⟩
  · exact absurd (stripped_of_not hprefix) hne

/-! ## `schedule_http`

The path is that of the stripped target, cut at its query again, while the query is that of the
target as it came. Whether the prefix was a segment can be told from the first octet of what is
left. -/

/-- A target up to its query. -/
def pathOf (t : Bytes) : Bytes :=
  match findPattern [63] t with
  | none => t
  | some q => t.take q

private theorem head?_pathOf {t : Bytes} (ht : t.head? = some 47) : (pathOf t).head? = some 47 := by
  rw [pathOf]
  split
  · exact ht
  · next q hq =>
    cases t with
    | nil => cases ht
    | cons b t =>
      obtain ⟨rfl⟩ := ht
      have hnot : ¬[63] <+: (47 : UInt8) :: t := by
        rw [List.cons_prefix_cons]
        exact fun h ↦ absurd h.1 (by decide)
      rw [findPattern_cons_of_not hnot, Option.map_eq_some_iff] at hq
      obtain ⟨q, -, rfl⟩ := hq
      rfl

/-- The variables of the request line. -/
theorem requestLineEnv_eq (hne : pathPrefix ≠ []) (l : RequestLine) (env : DynamicVariable) :
    ∃ query, requestLineEnv pathPrefix l.text env =
      (((env.assign (ascii "REQUEST_METHOD") (.string l.method)).assign
        (ascii "REQUEST_URI") (.string (stripped pathPrefix l.target))).assign
        (ascii "PATH_INFO") (.string (pathOf (stripped pathPrefix l.target)))).assign
        (ascii "QUERY_STRING") (.string query) := by
  have hmethod : findPattern [32] l.text = some l.method.length :=
    findPattern_behind l.method_no_space (List.cons_prefix_cons.mpr ⟨rfl, List.nil_prefix⟩)
  have hdrop : l.text.drop (l.method.length + 1) = l.target ++ 32 :: l.version := by
    rw [RequestLine.text, ← List.drop_drop, List.drop_left, List.drop_one, List.tail_cons]
  have htarget : findPattern [32] (l.target ++ 32 :: l.version) = some l.target.length :=
    findPattern_behind l.target_no_space (List.cons_prefix_cons.mpr ⟨rfl, List.nil_prefix⟩)
  have htake : l.text.take l.method.length = l.method := List.take_left
  have hprefix : (!pathPrefix.isEmpty) = true := by
    rw [Bool.not_eq_true', List.isEmpty_eq_false_iff]
    exact hne
  simp only [requestLineEnv, hmethod, hdrop, htarget, htake, List.take_left, hprefix, Bool.true_and,
    decide_eq_true_eq]
  by_cases hstrips : l.target.take pathPrefix.length = pathPrefix
  · simp only [if_pos hstrips, stripped]
    exact ⟨_, rfl⟩
  · simp only [if_neg hstrips, stripped]
    exact ⟨_, rfl⟩

/-- What is not set from a header is set from the request line. -/
theorem find_httpRequest {key : Bytes} (hhead : key.head? ≠ some 72)
    (hkey : key ∉ [ascii "SERVER_PROTOCOL", ascii "CONTENT_TYPE", ascii "CONTENT_LENGTH",
      ascii "WS", ascii "CLIENT_FD"])
    (wsPathPrefix : Bytes) (parse : Request → Request) (fd : ℤ) {firstLine : Bytes}
    (hline : (13 : UInt8) ∉ firstLine) (rest body : Bytes) (r : Request) :
    (httpRequest wsPathPrefix parse fd (firstLine ++ crlf ++ rest) body r).env.find key
      = (requestLineEnv wsPathPrefix firstLine r.env).find key := by
  have hfind : findPattern crlf (firstLine ++ crlf ++ rest) = some firstLine.length := by
    rw [List.append_assoc]
    exact findPattern_behind hline (List.prefix_append _ _)
  have htake : (firstLine ++ crlf ++ rest).take firstLine.length = firstLine := by
    rw [List.append_assoc, List.take_left]
  simp only [List.mem_cons, List.not_mem_nil, or_false, not_or] at hkey
  obtain ⟨hprotocol, htype, hlength, hws, hfd⟩ := hkey
  rw [httpRequest, hfind]
  simp only [parsed, htake]
  rw [DynamicVariable.find_assign_of_ne _ _ hfd, DynamicVariable.find_assign_of_ne _ _ hws,
    find_assignHeader _ hlength, find_assignHeader _ htype, find_foldl_headers _ hhead,
    DynamicVariable.find_assign_of_ne _ _ hprotocol]

theorem RequestLine.text_no_break (l : RequestLine) : (13 : UInt8) ∉ l.text := by
  have hno := l.no_break
  simp only [List.mem_append, not_or] at hno
  simp only [text, List.mem_append, List.mem_cons, not_or]
  exact ⟨hno.1.1, by decide, hno.1.2, by decide, hno.2⟩

private theorem targetRespected_httpRequest_iff (hne : pathPrefix ≠ []) (l : RequestLine)
    (hl : l.target.head? = some 47) (parse : Request → Request) (fd : ℤ) (rest body : Bytes)
    (r : Request) :
    TargetRespected pathPrefix l.target
        (httpRequest pathPrefix parse fd (l.text ++ crlf ++ rest) body r).env
      ↔ BeforeSlash pathPrefix l.target := by
  obtain ⟨query, henv⟩ := requestLineEnv_eq hne l r.env
  have huri : (httpRequest pathPrefix parse fd (l.text ++ crlf ++ rest) body r).env.find
      (ascii "REQUEST_URI") = some (.string (stripped pathPrefix l.target)) := by
    rw [find_httpRequest (by decide) (by decide) _ _ _ l.text_no_break, henv,
      DynamicVariable.find_assign_of_ne _ _ (by decide),
      DynamicVariable.find_assign_of_ne _ _ (by decide), DynamicVariable.find_assign_self]
  have hpath : (httpRequest pathPrefix parse fd (l.text ++ crlf ++ rest) body r).env.find
      (ascii "PATH_INFO") = some (.string (pathOf (stripped pathPrefix l.target))) := by
    rw [find_httpRequest (by decide) (by decide) _ _ _ l.text_no_break, henv,
      DynamicVariable.find_assign_of_ne _ _ (by decide), DynamicVariable.find_assign_self]
  constructor
  · rintro ⟨uri, path, huri', -, -, hslash, -⟩
    rw [huri] at huri'
    obtain ⟨rfl⟩ := huri'
    exact (head?_stripped hl).mp hslash
  · intro h
    have hslash := (head?_stripped hl).mpr h
    exact ⟨_, _, huri, hpath, stripsSegment_of_beforeSlash h, hslash, head?_pathOf hslash⟩

/-! ## `internal_on_request_ready`

Here two variables are stripped after the request has been decoded, each by itself. A request that
has been answered or has lost its connection is left alone. -/

private theorem find_stripVariable_self {env : DynamicVariable} {key t : Bytes}
    (h : env.find key = some (.string t)) :
    (stripVariable pathPrefix env key).find key = some (.string (stripped pathPrefix t)) := by
  simp only [stripVariable, h]
  split
  · next hstrips => rw [DynamicVariable.find_assign_self, stripped, if_pos hstrips]
  · next hstrips => rw [h, stripped, if_neg hstrips]

theorem find_stripVariable_of_ne {env : DynamicVariable} {key k : Bytes} (hne : k ≠ key) :
    (stripVariable pathPrefix env key).find k = env.find k := by
  rw [stripVariable]
  split
  · dsimp only
    split
    · exact DynamicVariable.find_assign_of_ne _ _ hne
    · rfl
  · rfl

private theorem find_stripPathPrefix {cfg : GlobalConfig} (hne : cfg.fcgiPathPrefix ≠ [])
    {env : DynamicVariable} {key t : Bytes} (hkey : key ∈ strippedVariables)
    (h : env.find key = some (.string t)) :
    (stripPathPrefix cfg env).find key = some (.string (stripped cfg.fcgiPathPrefix t)) := by
  rw [stripPathPrefix, if_neg (by rwa [List.isEmpty_iff])]
  simp only [strippedVariables, List.mem_cons, List.not_mem_nil, or_false] at hkey
  rcases hkey with rfl | rfl
  · rw [find_stripVariable_of_ne (by decide), find_stripVariable_self h]
  · refine find_stripVariable_self ?_
    rw [find_stripVariable_of_ne (by decide), h]

/-- The FastCGI server leaves the request alone if it has been answered or its connection is
gone. -/
def LeftAlone (r : Request) : Prop := r.flags.responded = true ∨ r.connPtr = none

private theorem env_internalOnRequestReady (cfg : GlobalConfig) (r : Request) (w : World) :
    (LeftAlone r ∧ (internalOnRequestReady cfg r w).1.env = r.env) ∨
    (¬LeftAlone r ∧ (internalOnRequestReady cfg r w).1.env = stripPathPrefix cfg r.env) := by
  rw [LeftAlone, internalOnRequestReady]
  by_cases hresponded : r.flags.responded = true
  · rw [if_pos hresponded]
    exact .inl ⟨.inl hresponded, rfl⟩
  rw [if_neg hresponded]
  cases hconn : r.connPtr with
  | none => exact .inl ⟨.inr rfl, rfl⟩
  | some c => exact .inr ⟨by simp [hresponded], rfl⟩

private theorem variablesRespected_self (pathPrefix : Bytes) (env : DynamicVariable) :
    VariablesRespected pathPrefix env env :=
  fun _ _ t ht hslash ↦ ⟨t, ht, fun hne ↦ absurd rfl hne, hslash⟩

private theorem variablesRespected_stripPathPrefix_iff {cfg : GlobalConfig}
    (hne : cfg.fcgiPathPrefix ≠ []) (env : DynamicVariable) :
    VariablesRespected cfg.fcgiPathPrefix env (stripPathPrefix cfg env) ↔
      ∀ key ∈ strippedVariables, ∀ t, env.find key = some (.string t) → t.head? = some 47 →
        BeforeSlash cfg.fcgiPathPrefix t := by
  refine forall₅_congr fun key hkey t ht hslash ↦ ?_
  have hfind := find_stripPathPrefix hne hkey ht
  constructor
  · rintro ⟨s, hs, -, hhead⟩
    rw [hfind] at hs
    obtain ⟨rfl⟩ := hs
    exact (head?_stripped hslash).mp hhead
  · intro h
    exact ⟨_, hfind, stripsSegment_of_beforeSlash h, (head?_stripped hslash).mpr h⟩

/-- **When stripping respects the path.** Both servers do so exactly for the paths in which the
prefix, if it is there, is followed by the end or by a slash. -/
theorem pathRespected_iff {pathPrefix : Bytes} (hstart : pathPrefix.head? = some 47) :
    (∀ (l : RequestLine), l.target.head? = some 47 →
      ∀ (parse : Request → Request) (fd : ℤ) (rest body : Bytes) (r : Request),
        TargetRespected pathPrefix l.target
            (httpRequest pathPrefix parse fd (l.text ++ crlf ++ rest) body r).env
          ↔ BeforeSlash pathPrefix l.target) ∧
    ∀ (cfg : GlobalConfig), cfg.fcgiPathPrefix = pathPrefix → ∀ (r : Request) (w : World),
      VariablesRespected pathPrefix r.env (internalOnRequestReady cfg r w).1.env ↔
        LeftAlone r ∨ ∀ key ∈ strippedVariables, ∀ t, r.env.find key = some (.string t) →
          t.head? = some 47 → BeforeSlash pathPrefix t := by
  have hne : pathPrefix ≠ [] := by
    rintro rfl
    cases hstart
  refine ⟨fun l hl parse fd rest body r ↦
    targetRespected_httpRequest_iff hne l hl parse fd rest body r, ?_⟩
  rintro cfg rfl r w
  rcases env_internalOnRequestReady cfg r w with ⟨halone, henv⟩ | ⟨halone, henv⟩
  · rw [henv]
    exact ⟨fun _ ↦ .inl halone, fun _ ↦ variablesRespected_self _ _⟩
  · rw [henv, variablesRespected_stripPathPrefix_iff hne, or_iff_right halone]

/-- `GET` of a target. -/
def getLine (target : Bytes) (h : (32 : UInt8) ∉ target ∧ (13 : UInt8) ∉ target) :
    RequestLine where
  method := ascii "GET"
  target := target
  version := ascii "HTTP/1.1"
  method_no_space := by decide
  target_no_space := h.1
  no_break := by
    simp only [List.mem_append, not_or]
    exact ⟨⟨by decide, h.2⟩, by decide⟩

/-- A target whose first segment is the prefix. -/
theorem pathRespected_iff_chat :
    TargetRespected (ascii "/ws") (ascii "/ws/chat")
      (httpRequest (ascii "/ws") id 5
        ((getLine (ascii "/ws/chat") (by decide)).text ++ crlf ++ crlf) [] {}).env :=
  ((pathRespected_iff (by decide)).1 (getLine (ascii "/ws/chat") (by decide)) (by decide) id 5
    crlf [] {}).mpr fun rest hrest ↦ by
      have hrest : ascii "/ws" ++ ascii "/chat" = ascii "/ws" ++ rest := hrest
      exact .inr (List.append_cancel_left hrest ▸ rfl)

/-- `/wsx` and `/ws?x` lose the prefix at the websocket server, and `/appx` at the FastCGI
server. -/
theorem not_pathRespected :
    (¬TargetRespected (ascii "/ws") (ascii "/wsx")
      (httpRequest (ascii "/ws") id 5
        ((getLine (ascii "/wsx") (by decide)).text ++ crlf ++ crlf) [] {}).env) ∧
    (¬TargetRespected (ascii "/ws") (ascii "/ws?x")
      (httpRequest (ascii "/ws") id 5
        ((getLine (ascii "/ws?x") (by decide)).text ++ crlf ++ crlf) [] {}).env) ∧
    ¬VariablesRespected (ascii "/app") (.object [(ascii "REQUEST_URI", .string (ascii "/appx"))])
      (stripPathPrefix { fcgiPathPrefix := ascii "/app" }
        (.object [(ascii "REQUEST_URI", .string (ascii "/appx"))])) := by
  refine ⟨fun h ↦ ?_, fun h ↦ ?_, fun h ↦ ?_⟩
  · have hslash := (targetRespected_httpRequest_iff (by decide) _ (by decide) _ _ _ _ _).mp h
      (ascii "x") rfl
    exact absurd hslash (by decide)
  · have hslash := (targetRespected_httpRequest_iff (by decide) _ (by decide) _ _ _ _ _).mp h
      (ascii "?x") rfl
    exact absurd hslash (by decide)
  · have hslash := (variablesRespected_stripPathPrefix_iff (by decide) _).mp h
      (ascii "REQUEST_URI") (by decide) (ascii "/appx") rfl rfl (ascii "x") rfl
    exact absurd hslash (by decide)

end Wasapi.Http
