import Wasapi.Memory

/-!
# Requests

`RequestCore` is the part of a `Request` that the FastCGI decoder reads and writes; `Request` adds
what the event loop, the workers and the handlers keep beside it.

A pointer to a request is modelled by a *handle*, a number no other request ever gets, so that a
pointer kept too long can be told from a pointer to whatever lives in the same arena later.
`released` marks a request whose destructor has run while some map still points at it. Pointers to
connections are handled likewise: `ConnRef` pairs the key of `g_conns` with the number of the
`accept` that created the connection.
-/

namespace Wasapi

/-- The bits of `Request::RequestFlags`. -/
structure RequestFlags where
  /-- request has been initialized -/
  initialized : Bool := false
  /-- keep connection alive after response -/
  keepConnection : Bool := false
  /-- all parameters received -/
  paramsComplete : Bool := false
  /-- all input data received -/
  inputComplete : Bool := false
  /-- response has been sent -/
  responded : Bool := false
  /-- request was aborted -/
  aborted : Bool := false
  /-- request failed (limit or protocol failure) -/
  failed : Bool := false
  deriving DecidableEq

/-- The part of a request the FastCGI decoder works on. -/
structure RequestCore where
  id : UInt16 := 0
  flags : RequestFlags := {}
  env : DynamicVariable := .object []
  body : Bytes := []
  paramsBytes : ℕ := 0
  bodyBytes : ℕ := 0

/-- A pointer to a connection of the event loop. -/
structure ConnRef where
  fd : ℤ
  cid : ℕ
  deriving DecidableEq

structure Request extends RequestCore where
  /-- The pool index of the arena the request was constructed in. -/
  arena : Option ℕ := none
  /-- owning connection -/
  connPtr : Option ConnRef := none
  /-- set true while worker handler runs -/
  workerActive : Bool := false
  /-- monotonic start time -/
  startTimeSec : ℚ := 0
  params : DynamicVariable := .object []
  cookies : DynamicVariable := .object []
  headers : DynamicVariable := .object []
  files : DynamicVariable := .array []
  session : DynamicVariable := .object []
  context : DynamicVariable := .object []
  sessionId : Bytes := []
  handle : ℕ := 0
  released : Bool := false

/-- The same request with another decoded part. -/
def Request.withCore (r : Request) (core : RequestCore) : Request :=
  { r with toRequestCore := core }

@[simp] theorem Request.toRequestCore_withCore (r : Request) (core : RequestCore) :
    (r.withCore core).toRequestCore = core := rfl

@[simp] theorem Request.withCore_withCore (r : Request) (core core' : RequestCore) :
    (r.withCore core).withCore core' = r.withCore core' := rfl

@[simp] theorem Request.withCore_self (r : Request) : r.withCore r.toRequestCore = r := rfl

@[simp] theorem Request.handle_withCore (r : Request) (core : RequestCore) :
    (r.withCore core).handle = r.handle := rfl

/-- The constructor `Request(Arena*)`: `env` starts with the arena's number as a debug entry. -/
def Request.ofArena (i : ℕ) (now : ℚ) : Request where
  arena := some i
  startTimeSec := now
  env := (DynamicVariable.object []).assign (ascii "DBG_ARENA") (.number i)

end Wasapi
