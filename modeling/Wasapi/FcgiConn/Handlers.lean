import Wasapi.FcgiConn.World

/-!
# The handlers of the event loop

The functions of the event loop under their source names. Each handler runs to its end before the
next event. The worker threads take their steps in between, and so do the websocket tasks that share
the arenas: the runs of `step` are those in which nobody takes or returns an arena in the middle of
a handler. `FcgiConn.Interruptions` has the others, where that makes a difference.

A loop over a map walks the keys the map had when the loop began.

The parsers a worker runs on a request and the text the server renders are arguments
(`Application`): they set the listed parts of the request and nothing else.
-/

namespace Wasapi.FcgiConn

open Fastcgi

/-- What the server does with the content of requests. -/
structure Application where
  /-- the parsers and `session_start`, run by a worker -/
  prepare : Request → Request
  /-- the text the server's handler writes -/
  render : Request → Bytes

/-- What the parsers do to a request. -/
def Application.prepared (app : Application) (r : Request) : Request :=
  { r with
    params := (app.prepare r).params
    cookies := (app.prepare r).cookies
    headers := (app.prepare r).headers
    files := (app.prepare r).files
    session := (app.prepare r).session
    context := (app.prepare r).context
    sessionId := (app.prepare r).sessionId }

section

variable (cfg : GlobalConfig)

/-! ## Requests

`allocate_request` and `internal_on_request_ready` are the two callbacks of the decoder. The first
may find no arena; the second strips the path prefix, puts the request on its way to a worker, and
marks it. -/

/-- `allocate_request`; `io` is `tls_io_connection`. A `Request` is too small for the fault of
`alloc`, which is taken for a refusal here. -/
def allocateRequest (io : ConnRef) (id : UInt16) (w : World) : Option Request × World :=
  match w.arenas.get w.nextHandle with
  | none => (none, w)
  | some (i, m) =>
    match m.arenas[i]?.bind fun a ↦ (a.alloc cfg.sizeofRequest cfg.alignofRequest).block? with
    -- the request does not fit, and the arena is given back
    | none => (none, { w with arenas := m.release i })
    | some (_, a) =>
      (some { Request.ofArena i w.clock with
          id := id
          connPtr := some io
          handle := w.nextHandle },
        { w with
          arenas := { m with arenas := m.arenas.set i a }
          nextHandle := w.nextHandle + 1 })

/-- Strip the path prefix from one variable. -/
def stripVariable (pathPrefix : Bytes) (env : DynamicVariable) (key : Bytes) : DynamicVariable :=
  match env.find key with
  | some (.string s) =>
    if s.take pathPrefix.length = pathPrefix then
      let stripped := s.drop pathPrefix.length
      env.assign key (.string (if stripped.isEmpty then ascii "/" else stripped))
    else env
  | _ => env

def stripPathPrefix (env : DynamicVariable) : DynamicVariable :=
  if cfg.fcgiPathPrefix.isEmpty then env
  else
    stripVariable cfg.fcgiPathPrefix (stripVariable cfg.fcgiPathPrefix env (ascii "REQUEST_URI"))
      (ascii "PATH_INFO")

def internalOnRequestReady (r : Request) (w : World) : Request × World :=
  if r.flags.responded then (r, w)
  else
    match r.connPtr with
    | none => (r, w)
    | some c =>
      ({ r with env := stripPathPrefix cfg r.env, workerActive := true },
        { w.updateRef c (fun c ↦ { c with activeWorkers := c.activeWorkers + 1 }) with
          tasks := w.tasks ++ [⟨⟨c, r.id, r.handle⟩, .queued⟩] })

def callbacks (io : ConnRef) : Callbacks World where
  allocateRequest := allocateRequest cfg io
  onRequestReady := internalOnRequestReady cfg

def processFcgi (fd : ℤ) (w : World) : World :=
  match w.conns.lookup fd with
  | none => w
  | some c =>
    if c.closed then w
    else
      let res := processBuffer cfg.toLimits (callbacks cfg ⟨fd, c.cid⟩) c.inBuf
        ⟨c.requests, c.outBuf, w⟩
      res.ext.updateConn fd fun c ↦
        { c with
          inBuf := res.inBuf
          requests := res.requests
          outBuf := res.outBuf
          closed := c.closed || res.status = .close
          waitingForArena := res.waitingForArena }

/-! ## Output

`flush_connection` calls `send` until the buffer is empty or `send` returns anything but a number of
octets. It is written once, with the octets that were taken beside the world it leaves. -/

def shouldCloseConnection (c : Connection) : Bool :=
  if c.closed then c.activeWorkers = 0 && c.outPos = c.outBuf.length
  else
    c.requests.entries.all (fun e ↦ e.2.flags.responded && !e.2.flags.keepConnection)
      && c.outPos = c.outBuf.length && c.activeWorkers = 0

def updateWriteInterest (want : Bool) (c : Connection) : Connection :=
  if c.epollOut = want then c else { c with epollOut := want, wantWriteInterest := want }

/-- The loop of `flush_connection`, and the octets its `send` calls take. Every turn but the last
sends at least one. -/
def flushSends (fd : ℤ) : ℕ → World → Bytes × World
  | 0, w => ([], w)
  | fuel + 1, w =>
    match w.conns.lookup fd with
    | none => ([], w)
    | some c =>
      let remaining := c.outBuf.length - c.outPos
      if remaining = 0 then
        let c := updateWriteInterest false c
        let c := if c.outPos ≠ 0 then { c with outBuf := [], outPos := 0 } else c
        let w := w.setConn fd c
        ([], if shouldCloseConnection c then { w with closeQueue := w.closeQueue ++ [c.fd] } else w)
      else
        match w.sends with
        | [] | .again :: _ =>
          ([], { w.setConn fd (updateWriteInterest true c) with sends := w.sends.tail })
        -- nothing is queued here: a later check finds the connection closed
        | .error :: sends => ([], { w.setConn fd { c with closed := true } with sends := sends })
        | .sent n :: sends =>
          let later := flushSends fd fuel
            { w.setConn fd { c with outPos := c.outPos + min (n + 1) remaining } with
              sends := sends }
          ((c.outBuf.drop c.outPos).take (min (n + 1) remaining) ++ later.1, later.2)

def flushLoop (fd : ℤ) (fuel : ℕ) (w : World) : World := (flushSends fd fuel w).2

theorem flushLoop_succ (fd : ℤ) (fuel : ℕ) (w : World) : flushLoop fd (fuel + 1) w =
    match w.conns.lookup fd with
    | none => w
    | some c =>
      let remaining := c.outBuf.length - c.outPos
      if remaining = 0 then
        let c := updateWriteInterest false c
        let c := if c.outPos ≠ 0 then { c with outBuf := [], outPos := 0 } else c
        let w := w.setConn fd c
        if shouldCloseConnection c then { w with closeQueue := w.closeQueue ++ [c.fd] } else w
      else
        match w.sends with
        | [] | .again :: _ =>
          { w.setConn fd (updateWriteInterest true c) with sends := w.sends.tail }
        | .error :: sends => { w.setConn fd { c with closed := true } with sends := sends }
        | .sent n :: sends =>
          flushLoop fd fuel
            { w.setConn fd { c with outPos := c.outPos + min (n + 1) remaining } with
              sends := sends } := by
  rw [flushLoop, flushSends]
  cases w.conns.lookup fd with
  | none => rfl
  | some c =>
    simp only
    split
    · rfl
    · rcases w.sends with _ | ⟨_ | _ | _, sends⟩ <;> rfl

def flushConnection (fd : ℤ) (w : World) : World :=
  match w.conns.lookup fd with
  | none => w
  | some c => flushLoop fd (c.outBuf.length + 1) w

/-! ## Waiting connections

The budget is what `available_count` says when the loop begins. A connection that has been served
uses up one of it, and one that still waits goes to the end of the queue. -/

/-- The loop of `process_waiting_connections`: at most `n` more turns within `budget`. -/
def waitingLoop : ℕ → ℕ → World → World
  | 0, _, w => w
  | n + 1, budget, w =>
    if budget = 0 then w
    else
      match w.waitingConns with
      | [] => w
      | fd :: fds =>
        let w := { w with waitingConns := fds }
        match w.conns.lookup fd with
        | none => waitingLoop n budget w
        | some c =>
          if c.closed then waitingLoop n budget w
          else
            let w := processFcgi cfg fd w
            let waits := (w.conns.lookup fd).any fun c ↦ c.waitingForArena
            if c.waitingForArena && !waits then
              waitingLoop n (budget - 1) (flushConnection fd w)
            -- it still waits, and goes to the end of the queue again
            else if waits then
              waitingLoop n budget { w with waitingConns := w.waitingConns ++ [fd] }
            else waitingLoop n budget w

def processWaitingConnections (w : World) : World :=
  waitingLoop cfg w.waitingConns.length w.available w

/-! ## Releasing requests

The order is that of the source: the destructor, the arena, `accept`, the waiting connections, and
then whatever the caller does with the entry in the map. -/

def pauseAccept (w : World) : World := { w with acceptPaused := true }

def resumeAccept (w : World) : World := { w with acceptPaused := false }

/-- The paths `finalize_request` unlinks. -/
def uploadPaths (r : Request) : List Bytes :=
  match r.files with
  | .array files =>
    if !cfg.keepUploadedFiles && cfg.cleanupTempOnDisconnect then
      files.filterMap fun f ↦
        match f.find (ascii "temp_path") with
        | some (.string s) => if s.isEmpty then none else some s
        | _ => none
    else []
  | _ => []

/-- `finalize_request` on the request with id `id` of the connection at `fd`. -/
def finalizeRequest (fd : ℤ) (id : UInt16) (w : World) : World :=
  match (w.conns.lookup fd).bind fun c ↦ c.requests.lookup id with
  | none => w
  | some r =>
    let files := match r.files with
      | .array _ => .array []
      | files => files
    { w.updateConn fd (fun c ↦
        { c with requests := c.requests.insert id { r with files := files, body := [] } }) with
      trace := (uploadPaths cfg r).reverse.map .unlink ++ w.trace }

/-- The destructor and the release of the arena in `release_request`. -/
def destroyRequest (fd : ℤ) (id : UInt16) (w : World) : World :=
  match (w.conns.lookup fd).bind fun c ↦ c.requests.lookup id with
  | none => w
  | some r =>
    let w := w.updateConn fd fun c ↦
      { c with requests := c.requests.insert id { r with released := true } }
    match r.arena with
    | none => w
    | some i => { w with arenas := w.arenas.release i }

def releaseRequest (fd : ℤ) (id : UInt16) (w : World) : World :=
  let w := destroyRequest fd id w
  let w := if w.acceptPaused && 0 < w.available then resumeAccept w else w
  processWaitingConnections cfg w

def eraseRequest (fd : ℤ) (id : UInt16) (w : World) : World :=
  w.updateConn fd fun c ↦ { c with requests := c.requests.erase id }

/-- One turn of the sweep of `handle_io`. -/
def sweepRequest (fd : ℤ) (w : World) (id : UInt16) : World :=
  match (w.conns.lookup fd).bind fun c ↦ c.requests.lookup id with
  | none => w
  | some r =>
    if r.workerActive then w
    else if r.flags.responded then
      eraseRequest fd id (releaseRequest cfg fd id (finalizeRequest cfg fd id w))
    -- the files of a failed request are not unlinked
    else if r.flags.failed || r.flags.aborted then
      eraseRequest fd id (releaseRequest cfg fd id w)
    else w

/-- The keys of the requests map of a connection. -/
def requestIds (fd : ℤ) (w : World) : List UInt16 :=
  match w.conns.lookup fd with
  | none => []
  | some c => c.requests.keys

def sweep (fd : ℤ) (w : World) : World := (requestIds fd w).foldl (sweepRequest cfg fd) w

/-! ## Closing connections

`g_conns[fd]` makes an entry where there is none, and the drain of the close queue uses it. The
entry it makes has no requests and no output, so it is closed at once. -/

/-- One turn of the loop of `cleanup_connection_requests`. -/
def cleanupRequest (fd : ℤ) (w : World) (id : UInt16) : World :=
  match (w.conns.lookup fd).bind fun c ↦ c.requests.lookup id with
  | none => w
  | some r =>
    releaseRequest cfg fd id (if r.flags.responded then w else finalizeRequest cfg fd id w)

def cleanupConnectionRequests (fd : ℤ) (w : World) : World :=
  ((requestIds fd w).foldl (cleanupRequest cfg fd) w).updateConn fd fun c ↦
    { c with requests := ∅ }

/-- `::close` and the erasure of the connection. -/
def eraseConnection (fd : ℤ) (w : World) : World :=
  match w.conns.lookup fd with
  | none => w
  | some c =>
    { w with conns := w.conns.erase fd, trace := .close fd c.accepted :: w.trace }

def closeConnection (w : World) (fd : ℤ) : World :=
  match w.conns.lookup fd with
  | none => w
  | some _ => eraseConnection fd (cleanupConnectionRequests cfg fd w)

/-- `g_conns[fd]`: an entry is made if there is none. -/
def indexConns (fd : ℤ) (w : World) : World :=
  match w.conns.lookup fd with
  | some _ => w
  | none =>
    { w.setConn fd { cid := w.nextCid, accepted := false } with nextCid := w.nextCid + 1 }

/-- One turn of the loop over the close queue. -/
def drainTurn (w : World) (cfd : ℤ) : World :=
  let w := indexConns cfd w
  if (w.conns.lookup cfd).any shouldCloseConnection then closeConnection cfg w cfd else w

def drainCloseQueue (w : World) : World :=
  w.closeQueue.foldl (drainTurn cfg) { w with closeQueue := [] }

/-! ## Events

A read event comes with all the octets that are read and with how the reading ends, since the source
reads until it would block. Several descriptors ready at once are several events. -/

/-- The reads of `handle_io`: all of `data` arrives, in chunks of any sizes, and then they end. -/
def readAll (fd : ℤ) (data : Bytes) (ending : RecvEnd) (w : World) : World :=
  w.updateConn fd fun c ↦
    { c with inBuf := c.inBuf ++ data, closed := c.closed || ending ≠ .again }

def handleInput (fd : ℤ) (data : Bytes) (ending : RecvEnd) (w : World) : World :=
  let w := readAll fd data ending w
  let prevWait := (w.conns.lookup fd).any fun c ↦ c.waitingForArena
  let w := processFcgi cfg fd w
  let waits := (w.conns.lookup fd).any fun c ↦ c.waitingForArena
  let w := if !prevWait && waits then { w with waitingConns := w.waitingConns ++ [fd] } else w
  flushConnection fd w

/-- `handle_io` up to the sweep. -/
def serveIo (fd : ℤ) (events : IoEvents) (data : Bytes) (ending : RecvEnd) (w : World) : World :=
  let w := if events.hupOrErr then w.updateConn fd fun c ↦ { c with closed := true } else w
  let w := if events.epollIn then handleInput cfg fd data ending w else w
  if events.epollOut then flushConnection fd w else w

/-- The check of `handle_io` behind the sweep. -/
def queueClose (fd : ℤ) (w : World) : World :=
  if (w.conns.lookup fd).any shouldCloseConnection then
    { w with closeQueue := w.closeQueue ++ [fd] }
  else w

def handleIo (fd : ℤ) (events : IoEvents) (data : Bytes) (ending : RecvEnd) (w : World) : World :=
  match w.conns.lookup fd with
  | none => w
  | some _ =>
    drainCloseQueue cfg (queueClose fd (sweep cfg fd (serveIo cfg fd events data ending w)))

/-- The timeout check of one request. -/
def timeoutRequest (fd : ℤ) (w : World) (id : UInt16) : World :=
  w.updateConn fd fun c ↦
    match c.requests.lookup id with
    | none => c
    | some r =>
      if !r.flags.responded && 0 < cfg.maxRequestTime
          && cfg.maxRequestTime < w.clock - r.startTimeSec then
        { c with
          requests := c.requests.insert id
            { r with flags := { r.flags with failed := true, responded := true } }
          outBuf := appendEndRequest c.outBuf r.id 0 .overloaded }
      else c

/-- The first loop of `housekeeping_close_idle` on one connection. -/
def timeoutRequests (w : World) (fd : ℤ) : World :=
  (requestIds fd w).foldl (timeoutRequest cfg fd) w

/-- The second loop closes without another look at `should_close_connection`. -/
def housekeepingCloseIdle (w : World) : World :=
  let w := w.conns.keys.foldl (timeoutRequests cfg) w
  let toClose := w.conns.keys.filter fun fd ↦ (w.conns.lookup fd).any shouldCloseConnection
  toClose.foldl (closeConnection cfg) w

/-- `accept` returned `cfd`. -/
def acceptConnection (cfd : ℤ) (w : World) : World :=
  let c := match w.conns.lookup cfd with
    | some c => c
    | none => { cid := w.nextCid, accepted := true }
  { w.setConn cfd { c with fd := cfd } with
    nextCid := w.nextCid + 1
    trace := .accept cfd :: w.trace }

/-- The loop of `handle_new_connections` when `accept` returns these numbers and then fails. The
kernel does not hand out a number that is in use. -/
def acceptLoop : List ℤ → World → World
  | [], w => w
  | cfd :: cfds, w =>
    if World.isOpen cfd w.trace then w
    else
      let w := acceptConnection cfd w
      if w.available = 0 then pauseAccept w else acceptLoop cfds w

def handleNewConnections (cfds : List ℤ) (w : World) : World :=
  if w.available = 0 then pauseAccept w else acceptLoop cfds w

variable (app : Application)

/-- The server's `on_request_ready`. -/
def onRequestReady (r : Request) (arenaOffset : UInt64) : Request × Bytes :=
  if r.flags.responded then (r, [])
  else
    ({ r with
        env := r.env.assign (ascii "DBG_ARENA_ALLOC") (.number arenaOffset.toNat)
        flags := { r.flags with responded := true } },
      appendEndRequest (appendStdoutText [] r.id (app.render r)) r.id 0 .requestComplete)

/-- `process_pending_output` on one request. -/
def answerPending (w : World) (p : RequestPtr) : World :=
  match w.request p, w.connection p.conn with
  | some r, some c =>
    if r.flags.responded || c.closed then w
    else
      let offset := ((r.arena.bind fun i ↦ w.arenas.arenas[i]?).map Arena.offset).getD 0
      let answer := onRequestReady app r offset
      let w := w.updateRequest p fun _ ↦ answer.1
      w.updateRef p.conn fun c ↦
        let wasEmpty := c.outPos = c.outBuf.length
        let c := { c with outBuf := c.outBuf ++ answer.2 }
        if answer.2 ≠ [] && wasEmpty then updateWriteInterest true c else c
  | _, _ => w

def processPendingOutput (w : World) : World :=
  w.pendingOutput.foldl (answerPending app) { w with pendingOutput := [] }

/-! ## Workers

The lambda of `internal_on_request_ready` is cut where another thread can see a difference: it looks
whether there is anything to do, prepares its request and pushes it, clears `worker_active`, and
counts down the workers of its connection. -/

/-- The next step of the `k`-th unfinished task. A queued task is started by taking it from the
front of the queue. -/
def workerStep (k : ℕ) (w : World) : World :=
  match w.tasks[k]? with
  | none => w
  | some t =>
    let phase (phase : TaskPhase) : World :=
      { w with tasks := w.tasks.set k { t with phase := phase } }
    match t.phase with
    | .queued =>
      if (w.tasks.take k).any fun t ↦ t.phase = .queued then w
      else
        match w.request t.request, w.connection t.request.conn with
        | some r, some c =>
          if !r.flags.responded && !c.closed then phase .started else phase .pushed
        | _, _ => phase .pushed
    | .started =>
      { (phase .pushed).updateRequest t.request app.prepared with
        pendingOutput := w.pendingOutput ++ [t.request] }
    | .pushed => (phase .cleared).updateRequest t.request fun r ↦ { r with workerActive := false }
    | .cleared =>
      { w.updateRef t.request.conn (fun c ↦ { c with activeWorkers := c.activeWorkers - 1 }) with
        tasks := w.tasks.eraseIdx k }

/-! ## Runs -/

/-- What can happen next. -/
inductive Event where
  | io (fd : ℤ) (events : IoEvents) (data : Bytes) (ending : RecvEnd)
  | housekeeping
  | pendingOutput
  | accept (cfds : List ℤ)
  | worker (k : ℕ)
  /-- time passes, and the peers choose how the coming sends end -/
  | outside (elapsed : ℕ) (sends : List SendResult)
  /-- a websocket task takes an arena -/
  | wsTake
  /-- a websocket task returns an arena -/
  | wsReturn (k : ℕ)
  /-- the maps rehash -/
  | rehash (fds : List ℤ) (fd : ℤ) (ids : List UInt16)

def step (w : World) : Event → World
  | .io fd events data ending => handleIo cfg fd events data ending w
  | .housekeeping => housekeepingCloseIdle cfg w
  | .pendingOutput => processPendingOutput app w
  | .accept cfds => handleNewConnections cfds w
  | .worker k => workerStep app k w
  | .outside elapsed sends => { w with clock := w.clock + elapsed / 1000, sends := sends }
  | .wsTake =>
    match w.arenas.get w.nextHandle with
    | none => w
    | some (i, m) =>
      { w with
        arenas := m
        nextHandle := w.nextHandle + 1
        wsArenas := w.wsArenas ++ [(i, w.nextHandle)] }
  | .wsReturn k =>
    match w.wsArenas[k]? with
    | none => w
    | some (i, _) => { w with arenas := w.arenas.release i, wsArenas := w.wsArenas.eraseIdx k }
  | .rehash fds fd ids =>
    let w := { w with conns := reorder w.conns fds }
    w.updateConn fd fun c ↦ { c with requests := reorder c.requests ids }

/-- The server at start. -/
def initial (bases : List UInt64) (capacity : UInt64) : World where
  arenas := .createArenas bases capacity

end

end Wasapi.FcgiConn
