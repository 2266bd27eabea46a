import Mathlib.Data.List.AList
import Wasapi.Sockets
import Wasapi.Websockets.Frames
import Wasapi.Websockets.Http

/-!
# The websocket server

`ws::serve` and the functions it calls, as steps of one state: the clients of the I/O thread, the
tasks of the worker pool, the frames they leave in `g_pending_frames`, and the arenas shared with
the FastCGI server. What the kernel and the peers do is an argument of the events.

Besides the source's state there is a record of what happened: the calls of `accept` that returned a
client, the calls of `schedule_http`, and the frames appended to an `out_buf`. Every task and every
frame carries the number of the connection it came from. No step looks at these.
-/

namespace Wasapi.Websockets

open Fastcgi

/-- What the server is built with: SHA-1, the parsers, and its two callbacks. -/
structure Application where
  sha1 : Bytes → Bytes
  parse : Request → Request
  cbws : Option (Request → Request × Bytes)
  cbhttp : Option (Request → Request × Bytes)

/-- How far a worker has got with a lambda. -/
inductive TaskPhase where
  | queued
  | started
  /-- has left its frame, if there is one -/
  | pushed
  deriving DecidableEq

/-- Which lambda a task is. -/
inductive TaskKind where
  | message (opcode : UInt8)
  | http
  deriving DecidableEq

structure Task where
  kind : TaskKind
  fd : ℤ
  request : Request
  /-- the connection that asked for it -/
  origin : ℕ
  phase : TaskPhase := .queued

structure PendingFrame where
  fd : ℤ
  frame : Bytes
  /-- the connection it answers -/
  origin : ℕ

/-- A call of `schedule_http` for a connection. -/
structure HttpCall where
  cid : ℕ
  requestText : Bytes
  body : Bytes
  deriving DecidableEq

/-- A frame that answers `origin` has been appended to the `out_buf` of `receiver`. -/
structure Delivery where
  origin : ℕ
  receiver : ℕ
  deriving DecidableEq

structure Server where
  clients : AList fun _ : ℤ ↦ Client := ∅
  pendingFrames : List PendingFrame := []
  /-- the unfinished tasks in the order they were enqueued -/
  tasks : List Task := []
  arenas : ArenaManager
  /-- the arenas held by FastCGI requests -/
  fcgiArenas : List ℕ := []
  clock : ℚ := 0
  sends : List SendResult := []
  nextHandle : ℕ := 0
  nextCid : ℕ := 0
  /-- an exception has left `serve` -/
  terminated : Bool := false
  /-- the numbers `accept` has returned, each with that of the connection, the latest first -/
  accepts : List (ℤ × ℕ) := []
  httpCalls : List HttpCall := []
  deliveries : List Delivery := []

section

variable (cfg : GlobalConfig) (app : Application)

/-! ## Scheduling

A request is constructed in an arena that is taken from the pool, and goes to a worker with it. If
there is no arena, or too little room in it, nothing is scheduled. -/

/-- A request constructed in an arena of its own, which is too small for the fault of `alloc`. -/
def newRequest (s : Server) : Option Request × Server :=
  match s.arenas.get s.nextHandle with
  | none => (none, s)
  | some (i, m) =>
    match m.arenas[i]?.bind fun a ↦ (a.alloc cfg.sizeofRequest cfg.alignofRequest).block? with
    | none => (none, { s with arenas := m.release i })
    | some (_, a) =>
      (some { Request.ofArena i s.clock with handle := s.nextHandle },
        { s with
          arenas := { m with arenas := m.arenas.set i a }
          nextHandle := s.nextHandle + 1 })

def enqueue (t : Task) (s : Server) : Server := { s with tasks := s.tasks ++ [t] }

def scheduleMessage (c : Client) (s : Server) (call : MessageCall) : Server :=
  match newRequest cfg s with
  | (none, s) => s
  | (some r, s) =>
    let env := r.env.assign (ascii "WS") (.string (ascii "1"))
    let env := env.assign (ascii "MESSAGE_TYPE")
      (.string (if call.opcode = 0x2 then ascii "binary" else ascii "text"))
    let env := env.assign (ascii "OPCODE") (.string (decimal call.opcode.toNat))
    let env := env.assign (ascii "CLIENT_FD") (.string (decimal c.fd))
    let r := { r with
      env := env
      body := call.data
      bodyBytes := call.data.length
      flags := { r.flags with initialized := true, paramsComplete := true, inputComplete := true } }
    enqueue ⟨.message call.opcode, c.fd, r, c.cid, .queued⟩ s

def scheduleHttp (c : Client) (requestText body : Bytes) (s : Server) : Server :=
  let s := { s with httpCalls := s.httpCalls ++ [⟨c.cid, requestText, body⟩] }
  match app.cbhttp with
  | none => s
  | some _ =>
    match newRequest cfg s with
    | (none, s) => s
    | (some r, s) =>
      let r := httpRequest cfg.wsPathPrefix app.parse c.fd requestText body r
      enqueue ⟨.http, c.fd, r, c.cid, .queued⟩ s

/-! ## Reading

A read event takes all there is to read and handles it: before the handshake as the text of a
request, and from then on as frames. -/

def crlfcrlf : Bytes := [13, 10, 13, 10]

def switchingProtocols (acceptKey : Bytes) : Bytes :=
  ascii "HTTP/1.1 101 Switching Protocols" ++ crlf ++ ascii "Upgrade: websocket" ++ crlf ++
    ascii "Connection: Upgrade" ++ crlf ++ ascii "Sec-WebSocket-Accept: " ++ acceptKey ++ crlfcrlf

/-- The part of a read event that is taken before the handshake, with the arguments of its call of
`schedule_http`. The call only reads its arguments, so `in_http` stays what it is. -/
def readHttp (sha1 : Bytes → Bytes) (c : Client) : Client × Option (Bytes × Bytes) :=
  let c := { c with inHttp := c.inHttp ++ c.inBuf, inBuf := [] }
  match findPattern crlfcrlf c.inHttp with
  | some hdrEnd =>
    let headers := c.inHttp.take (hdrEnd + 4)
    match parseHttpHeaders sha1 headers with
    | some (_, acceptKey) =>
      ({ c with outBuf := c.outBuf ++ switchingProtocols acceptKey, handshakeDone := true }, none)
    | none =>
      -- the headers end with a line end, so the source's check for one cannot fail
      let c := { c with
        httpMode := true
        httpContentLength := (contentLength headers).getD c.httpContentLength
        httpHeadersParsed := true
        inBuf := c.inHttp.drop (hdrEnd + 4) }
      if c.httpContentLength ≤ c.inBuf.length then
        ({ c with inBuf := [] }, some (c.inHttp, c.inBuf.take c.httpContentLength))
      else (c, none)
  | none =>
    if c.httpMode && c.httpHeadersParsed && decide (c.httpContentLength ≤ c.inBuf.length) then
      ({ c with inBuf := [] }, some (c.inHttp, c.inBuf.take c.httpContentLength))
    else (c, none)

/-- All of `data` arrives, in chunks of any sizes, and then the reads end. -/
def receive (data : Bytes) (ending : RecvEnd) (c : Client) : Client :=
  { c with inBuf := c.inBuf ++ data, closed := c.closed || ending ≠ .again }

/-- One read event. -/
def handleInput (data : Bytes) (ending : RecvEnd) (c : Client) (s : Server) : Client × Server :=
  let c := receive data ending c
  let p := if c.handshakeDone then (c, none) else readHttp app.sha1 c
  let c := p.1
  let s := match p.2 with
    | none => s
    | some (requestText, body) => scheduleHttp cfg app c requestText body s
  if c.handshakeDone then
    let exit := frameLoop c.inBuf.length c
    (exit.client,
      { exit.calls.foldl (scheduleMessage cfg c) s with terminated := s.terminated || exit.thrown })
  else (c, s)

/-! ## The I/O thread

The thread waits for events, handles them one by one, and behind all of them drains the frames the
workers have left. -/

/-- `send_all` on what is left to send. -/
def sendAll : List SendResult → Bytes → Bytes × List SendResult
  | [], buf => (buf, [])
  | r :: sends, buf =>
    if buf.isEmpty then (buf, r :: sends)
    else
      match r with
      | .sent n => sendAll sends (buf.drop (n + 1))
      | .again => (buf, sends)
      | .error => ([], sends)

/-- The sends at the end of an event, and the check for closing behind them. -/
def finishEvent (fd : ℤ) (epollOut : Bool) (c : Client) (s : Server) : Server :=
  let p := if epollOut then sendAll s.sends c.outBuf else (c.outBuf, s.sends)
  let p := sendAll p.2 p.1
  let c := { c with outBuf := p.1 }
  let s := { s with sends := p.2 }
  if c.closed || c.closeAfterWrite && c.outBuf.isEmpty then
    { s with clients := s.clients.erase fd }
  else { s with clients := s.clients.insert fd c }

def handleClient (fd : ℤ) (events : IoEvents) (data : Bytes) (ending : RecvEnd) (s : Server) :
    Server :=
  match s.clients.lookup fd with
  | none => s
  | some c =>
    let c := if events.hupOrErr then { c with closed := true } else c
    let p := if events.epollIn then handleInput cfg app data ending c s else (c, s)
    if p.2.terminated then { p.2 with clients := p.2.clients.insert fd p.1 }
    else finishEvent fd events.epollOut p.1 p.2

/-- `accept` returned `cfd`. The kernel does not hand out a number that is in use. -/
def acceptClient (s : Server) (cfd : ℤ) : Server :=
  match s.clients.lookup cfd with
  | some _ => s
  | none =>
    { s with
      clients := s.clients.insert cfd { cid := s.nextCid, fd := cfd }
      nextCid := s.nextCid + 1
      accepts := (cfd, s.nextCid) :: s.accepts }

/-- One turn of the loop over the pending frames. -/
def deliver (s : Server) (pf : PendingFrame) : Server :=
  match s.clients.lookup pf.fd with
  | none => s
  | some c =>
    { s with
      clients := s.clients.insert pf.fd { c with outBuf := c.outBuf ++ pf.frame }
      deliveries := s.deliveries ++ [⟨pf.origin, c.cid⟩] }

def drainPending (s : Server) : Server :=
  s.pendingFrames.foldl deliver { s with pendingFrames := [] }

/-! ## Workers

A task is cut where others can see a difference: the handler runs and its frame is queued, and then
the arena goes back. -/

/-- The text of the STDOUT records in the output of a handler. -/
def stdoutText (resp : Bytes) : Bytes :=
  ((recordFramer.frames resp).filter fun rec ↦ rec.type = FCGI_STDOUT).flatMap Record.content

/-- The HTTP response `schedule_http` makes of the output of the handler. -/
def httpResponse (r : Request) (resp : Bytes) : Bytes :=
  let body := stdoutText resp
  if (ascii "HTTP/").isPrefixOf body then body
  else
    let ct := match r.headers.find (ascii "Content-Type") with
      | some (.string ct) => ct
      | _ => ascii "text/plain; charset=utf-8"
    ascii "HTTP/1.1 200 OK" ++ crlf ++ ascii "Content-Type: " ++ ct ++ crlf ++
      ascii "Content-Length: " ++ decimal body.length ++ crlf ++ ascii "Connection: close" ++
      crlfcrlf ++ body

/-- The frame a task leaves; an empty one is not queued. -/
def Task.frame (t : Task) : Bytes :=
  match t.kind with
  | .message opcode =>
    let resp := match app.cbws with
      | none => []
      | some cb => (cb t.request).2
    if resp.isEmpty then [] else buildWsFrame opcode resp
  | .http =>
    match app.cbhttp with
    | none => []
    | some cb => httpResponse (cb t.request).1 (cb t.request).2

/-- The next step of the `k`-th unfinished task. A queued task is started by taking it from the
front of the queue. -/
def workerStep (k : ℕ) (s : Server) : Server :=
  match s.tasks[k]? with
  | none => s
  | some t =>
    match t.phase with
    | .queued =>
      if (s.tasks.take k).any fun t ↦ t.phase = .queued then s
      else { s with tasks := s.tasks.set k { t with phase := .started } }
    | .started =>
      let frame := t.frame app
      { s with
        tasks := s.tasks.set k { t with phase := .pushed }
        pendingFrames :=
          if frame.isEmpty then s.pendingFrames
          else s.pendingFrames ++ [⟨t.fd, frame, t.origin⟩] }
    | .pushed =>
      { s with
        tasks := s.tasks.eraseIdx k
        arenas := match t.request.arena with
          | none => s.arenas
          | some i => s.arenas.release i }

/-! ## Runs -/

/-- What can happen next. -/
inductive Event where
  | accept (cfds : List ℤ)
  | client (fd : ℤ) (events : IoEvents) (data : Bytes) (ending : RecvEnd)
  /-- the eventfd is readable -/
  | pending
  | worker (k : ℕ)
  /-- time passes, and the peers choose how the coming sends end -/
  | outside (elapsed : ℕ) (sends : List SendResult)
  /-- the FastCGI server takes an arena -/
  | fcgiTake
  /-- the FastCGI server returns an arena -/
  | fcgiReturn (k : ℕ)

def step (s : Server) (e : Event) : Server :=
  if s.terminated then s
  else
    match e with
    | .accept cfds => cfds.foldl acceptClient s
    | .client fd events data ending => handleClient cfg app fd events data ending s
    | .pending => drainPending s
    | .worker k => workerStep app k s
    | .outside elapsed sends => { s with clock := s.clock + elapsed / 1000, sends := sends }
    | .fcgiTake =>
      match s.arenas.get s.nextHandle with
      | none => s
      | some (i, m) =>
        { s with
          arenas := m
          nextHandle := s.nextHandle + 1
          fcgiArenas := s.fcgiArenas ++ [i] }
    | .fcgiReturn k =>
      match s.fcgiArenas[k]? with
      | none => s
      | some i =>
        { s with arenas := s.arenas.release i, fcgiArenas := s.fcgiArenas.eraseIdx k }

/-- The server at start. -/
def initial (bases : List UInt64) (capacity : UInt64) : Server where
  arenas := .createArenas bases capacity

end

end Wasapi.Websockets
