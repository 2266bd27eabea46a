import Wasapi.FileIo.Cache
import Wasapi.Json.Parser
import Wasapi.Json.Printer
import Wasapi.Request

/-!
# Sessions

The functions of `session.cpp`. A session is kept as JSON in the file its id names. What
`random_hex` returns is an argument.
-/

namespace Wasapi.Session

open FileIo Json

section

variable {κ : Type*} (cfg : GlobalConfig) (resolve : Bytes → κ)

def sessionPath (id : Bytes) : Bytes :=
  let dir := cfg.sessionStoragePath
  let dir := if !dir.isEmpty && dir.getLast? ≠ some 47 then dir ++ [47] else dir
  dir ++ id ++ ascii ".json"

/-- `session_get_id`: the id, and the request that may have been given one. -/
def sessionGetId (create : Bool) (random : Bytes) (r : Request) : Bytes × Request :=
  if !r.sessionId.isEmpty then (r.sessionId, r)
  else if !create then ([], r)
  else (random, { r with sessionId := random })

def sessionLoad (io : Io) (r : Request) (s : FileStore κ) : Bool × Request × FileStore κ :=
  if r.sessionId.isEmpty then (false, r, s)
  else
    let p := readEntireFileCached cfg resolve io (sessionPath cfg r.sessionId) s
    if p.1.isEmpty then (false, r, p.2)
    else
      match parseJson p.1 with
      | .ok parsed => (true, { r with session := parsed }, p.2)
      | .error _ => (false, r, p.2)

/-- `session_start`; it returns true. The first component says whether a session has been loaded. -/
def sessionStart (io : Io) (random : Bytes) (r : Request) (s : FileStore κ) :
    Bool × Request × FileStore κ :=
  let r := (sessionGetId true random r).2
  let r :=
    match r.cookies.find cfg.sessionCookieName with
    | some _ => r
    | none =>
      let cookie := cfg.sessionCookieName ++ ascii "=" ++ r.sessionId ++ ascii "; Path=/; HttpOnly"
      { r with headers := r.headers.assign (ascii "Set-Cookie") (.string cookie) }
  let p := sessionLoad cfg resolve io r s
  (p.1, if p.1 then p.2.1 else { p.2.1 with session := .null }, p.2.2)

variable [DecidableEq κ]

def sessionSave (io : Io) (r : Request) (s : FileStore κ) : Bool × FileStore κ :=
  if r.sessionId.isEmpty then (false, s)
  else
    match toJson r.session false 0 with
    -- nested more deeply than an `int` can count
    | none => (false, s)
    | some content => writeEntireFile cfg resolve io (sessionPath cfg r.sessionId) content s

/-- `session_clear`; it returns true. The first component says whether a file has been unlinked. -/
def sessionClear (io : Io) (r : Request) (s : FileStore κ) : Bool × Request × FileStore κ :=
  let p :=
    if r.sessionId.isEmpty then (false, s) else s.unlink resolve io (sessionPath cfg r.sessionId)
  (p.1, { r with sessionId := [], session := .object [] }, p.2)

/-! ## Runs

A run is a list of calls by any number of requests. What has been cleared is remembered beside the
files, so that a property can speak of it later. -/

/-- A call of one of the functions. -/
inductive Op where
  | save (io : Io) (r : Request)
  | load (io : Io) (r : Request)
  | start (io : Io) (random : Bytes) (r : Request)
  | clear (io : Io) (r : Request)

/-- The id of the session an operation writes or removes. -/
def Op.changes : Op → Option Bytes
  | .save _ r => some r.sessionId
  | .clear _ r => some r.sessionId
  | _ => none

/-- The files, and a record of what has been cleared that no function looks at. -/
structure World (κ : Type*) extends FileStore κ where
  /-- the ids whose files have been unlinked, and that have not been saved since -/
  cleared : List Bytes := []
  /-- those of them for which `session_load` has returned true -/
  revived : List Bytes := []

/-- `session_load` has returned `loaded` for `id`. -/
def World.record (id : Bytes) (loaded : Bool) (w : World κ) : World κ :=
  if loaded && id ∈ w.cleared then { w with revived := id :: w.revived } else w

def step (w : World κ) : Op → World κ
  | .save io r =>
    let p := sessionSave cfg resolve io r (w.tick io)
    { w with toFileStore := p.2, cleared := w.cleared.filter (· ≠ r.sessionId) }
  | .load io r =>
    let p := sessionLoad cfg resolve io r (w.tick io)
    { w with toFileStore := p.2.2 }.record r.sessionId p.1
  | .start io random r =>
    let p := sessionStart cfg resolve io random r (w.tick io)
    { w with toFileStore := p.2.2 }.record (sessionGetId true random r).1 p.1
  | .clear io r =>
    let p := sessionClear cfg resolve io r (w.tick io)
    { w with
      toFileStore := p.2.2
      cleared := if p.1 then r.sessionId :: w.cleared else w.cleared }

/-- Some files, and nothing cached. -/
def initial (disk : κ → Option StoredFile) : World κ where
  disk := disk

end

end Wasapi.Session
