import Wasapi.Library.Interruptible
import Wasapi.FcgiConn.Handlers

/-!
# Handlers that the websocket tasks interrupt

The arenas are shared with the websocket server, whose threads take and return them at any time,
also in the middle of a handler. Here every handler is a program, and no step of it has more than
one access to the pool: `get` when a record of a request that is not there is decoded, `release`
behind the destructor, and every look at `available_count`. Between two steps the websocket tasks
may take and return any number of arenas. An arena into which a `Request` does not fit goes back in
the step that has taken it, which only a task notices that would have had it meanwhile.

What the websocket tasks do to the world concerns the pool alone, so nothing else that a handler
looks at changes between its steps, and `process_buffer` may work on a copy of the requests.
Everything else that happens, happens between two handlers.

`run_handler` says that a handler that nobody interrupts is that of `step`, so a run of `step` is a
run of these programs in which the websocket tasks wait for the handlers.

Some steps have a name of their own, because properties of the pool hang on what the websocket tasks
have done before them.
-/

namespace Wasapi.FcgiConn

open Fastcgi

/-- What the next step of a handler is. -/
inductive Point where
  | plain
  /-- `process_fcgi` stores that the connection waits, behind a `get` that has found no arena -/
  | deferring
  /-- `release_request` looks at `available_count` -/
  | resumeTest
  /-- `handle_new_connections` does -/
  | pauseTest
  /-- `requests.clear()` -/
  | clearing (fd : ℤ)
  deriving DecidableEq

abbrev Handler := Program World Point

/-- A single step. -/
def plainly (f : World → World) : Handler := .step .plain f fun _ ↦ .done

/-- The world decides what comes next. -/
def look (next : World → Handler) : Handler := .step .plain id next

section

variable (cfg : GlobalConfig)

/-! ## `process_fcgi`

`process_buffer` gets the requests and the output of the connection by reference. Nobody else
touches them before it returns, so a copy is carried from record to record, and one step at the end
writes it back. -/

/-- What `process_buffer` returns when its loop has ended. -/
def exitResult {σ : Type*} (inBuf : Bytes) (exit : LoopExit σ) : ProcessResult σ :=
  if exit.waiting then
    { exit.machine with inBuf := inBuf, waitingForArena := true, status := .ok }
  else
    { exit.machine with
      inBuf := inBuf.drop exit.offset
      waitingForArena := false
      status := if badVersion (inBuf.drop exit.offset) then .close else .ok }

/-- What `process_fcgi` does behind `process_buffer`. -/
def writeBack (fd : ℤ) (res : ProcessResult World) : World :=
  res.ext.updateConn fd fun c ↦
    { c with
      inBuf := res.inBuf
      requests := res.requests
      outBuf := res.outBuf
      closed := c.closed || res.status = .close
      waitingForArena := res.waitingForArena }

/-- The loop of `process_buffer`, one turn at a time, and what follows it. -/
def decodeProgram (io : ConnRef) (inBuf : Bytes) : ℕ → ℕ → Requests → Bytes → Handler
  | 0, offset, requests, out =>
    plainly fun w ↦ writeBack io.fd (exitResult inBuf ⟨offset, false, ⟨requests, out, w⟩⟩)
  | fuel + 1, offset, requests, out =>
    match nextRecord (inBuf.drop offset) with
    | none =>
      plainly fun w ↦ writeBack io.fd (exitResult inBuf ⟨offset, false, ⟨requests, out, w⟩⟩)
    | some (rec, _) =>
      .step .plain (fun w ↦ (turn cfg.toLimits (callbacks cfg io) ⟨requests, out, w⟩ rec).ext)
        fun w ↦
          match processRecord cfg.toLimits (callbacks cfg io) rec ⟨requests, out, w⟩ with
          | .deferred m =>
            .step .deferring (fun w ↦
              writeBack io.fd (exitResult inBuf ⟨offset, true, ⟨m.requests, m.outBuf, w⟩⟩))
              fun _ ↦ .done
          | .next m =>
            decodeProgram io inBuf fuel (offset + rec.header.totalLen) m.requests m.outBuf

def processProgram (fd : ℤ) : Handler :=
  look fun w ↦
    match w.conns.lookup fd with
    | none => .done
    | some c =>
      if c.closed then .done
      else decodeProgram cfg ⟨fd, c.cid⟩ c.inBuf c.inBuf.length 0 c.requests c.outBuf

/-! ## Waiting connections -/

def waitingProgram : ℕ → ℕ → Handler
  | 0, _ => .done
  | n + 1, budget =>
    if budget = 0 then .done
    else
      look fun w ↦
        match w.waitingConns with
        | [] => .done
        | fd :: fds =>
          (plainly fun w ↦ { w with waitingConns := fds }).seq <| look fun w ↦
            match w.conns.lookup fd with
            | none => waitingProgram n budget
            | some c =>
              if c.closed then waitingProgram n budget
              else
                (processProgram cfg fd).seq <| look fun w ↦
                  let waits := (w.conns.lookup fd).any fun c ↦ c.waitingForArena
                  if c.waitingForArena && !waits then
                    (plainly (flushConnection fd)).seq (waitingProgram n (budget - 1))
                  else if waits then
                    (plainly fun w ↦ { w with waitingConns := w.waitingConns ++ [fd] }).seq
                      (waitingProgram n budget)
                  else waitingProgram n budget

/-! ## Releasing requests

Three accesses to the pool are in this one function: giving the arena back, the look that decides
about `accept`, and the look that decides how many waiting connections are served. -/

/-- `release_request` looks whether `accept` can be resumed. -/
def testResume (w : World) : World :=
  if w.acceptPaused && 0 < w.available then resumeAccept w else w

def releaseProgram (fd : ℤ) (id : UInt16) : Handler :=
  (plainly (destroyRequest fd id)).seq <| .step .resumeTest testResume fun _ ↦
    look fun w ↦ waitingProgram cfg w.waitingConns.length w.available

def sweepRequestProgram (fd : ℤ) (id : UInt16) : Handler :=
  look fun w ↦
    match (w.conns.lookup fd).bind fun c ↦ c.requests.lookup id with
    | none => .done
    | some r =>
      if r.workerActive then .done
      else if r.flags.responded then
        (plainly (finalizeRequest cfg fd id)).seq
          ((releaseProgram cfg fd id).seq (plainly (eraseRequest fd id)))
      else if r.flags.failed || r.flags.aborted then
        (releaseProgram cfg fd id).seq (plainly (eraseRequest fd id))
      else .done

def sweepProgram (fd : ℤ) : Handler :=
  look fun w ↦ .each (sweepRequestProgram cfg fd) (requestIds fd w)

/-! ## Closing connections -/

def cleanupRequestProgram (fd : ℤ) (id : UInt16) : Handler :=
  look fun w ↦
    match (w.conns.lookup fd).bind fun c ↦ c.requests.lookup id with
    | none => .done
    | some r =>
      (if r.flags.responded then .done else plainly (finalizeRequest cfg fd id)).seq
        (releaseProgram cfg fd id)

def clearRequests (fd : ℤ) (w : World) : World :=
  w.updateConn fd fun c ↦ { c with requests := ∅ }

def cleanupProgram (fd : ℤ) : Handler :=
  look fun w ↦ (Program.each (cleanupRequestProgram cfg fd) (requestIds fd w)).seq
    (.step (.clearing fd) (clearRequests fd) fun _ ↦ .done)

def closeProgram (fd : ℤ) : Handler :=
  look fun w ↦
    match w.conns.lookup fd with
    | none => .done
    | some _ => (cleanupProgram cfg fd).seq (plainly (eraseConnection fd))

def drainTurnProgram (cfd : ℤ) : Handler :=
  (plainly (indexConns cfd)).seq <| look fun w ↦
    if (w.conns.lookup cfd).any shouldCloseConnection then closeProgram cfg cfd else .done

def drainProgram : Handler :=
  look fun w ↦ (plainly fun w ↦ { w with closeQueue := [] }).seq
    (.each (drainTurnProgram cfg) w.closeQueue)

/-! ## Events

`handle_new_connections` looks at the pool before its first `accept` and again behind every one. The
other two handlers come to it through what they decode and release. -/

def handleInputProgram (fd : ℤ) (data : Bytes) (ending : RecvEnd) : Handler :=
  (plainly (readAll fd data ending)).seq <| look fun w ↦
    let prevWait := (w.conns.lookup fd).any fun c ↦ c.waitingForArena
    (processProgram cfg fd).seq <|
      (plainly fun w ↦
        let waits := (w.conns.lookup fd).any fun c ↦ c.waitingForArena
        if !prevWait && waits then { w with waitingConns := w.waitingConns ++ [fd] } else w).seq
      (plainly (flushConnection fd))

def serveIoProgram (fd : ℤ) (events : IoEvents) (data : Bytes) (ending : RecvEnd) : Handler :=
  (plainly fun w ↦
      if events.hupOrErr then w.updateConn fd fun c ↦ { c with closed := true } else w).seq <|
    (if events.epollIn then handleInputProgram cfg fd data ending else .done).seq
      (if events.epollOut then plainly (flushConnection fd) else .done)

def handleIoProgram (fd : ℤ) (events : IoEvents) (data : Bytes) (ending : RecvEnd) : Handler :=
  look fun w ↦
    match w.conns.lookup fd with
    | none => .done
    | some _ =>
      (serveIoProgram cfg fd events data ending).seq <|
        (sweepProgram cfg fd).seq <| (plainly (queueClose fd)).seq (drainProgram cfg)

def housekeepingProgram : Handler :=
  (plainly fun w ↦ w.conns.keys.foldl (timeoutRequests cfg) w).seq <| look fun w ↦
    .each (closeProgram cfg)
      (w.conns.keys.filter fun fd ↦ (w.conns.lookup fd).any shouldCloseConnection)

/-- `handle_new_connections` looks whether there is an arena. -/
def testPause (w : World) : World := if w.available = 0 then pauseAccept w else w

def acceptProgram : List ℤ → Handler
  | [] => .done
  | cfd :: cfds =>
    look fun w ↦
      if World.isOpen cfd w.trace then .done
      else
        (plainly (acceptConnection cfd)).seq <| .step .pauseTest testPause fun w ↦
          if w.available = 0 then .done else acceptProgram cfds

def newConnectionsProgram (cfds : List ℤ) : Handler :=
  .step .pauseTest testPause fun w ↦ if w.available = 0 then .done else acceptProgram cfds

variable (app : Application)

/-- What the process does at an event. Only three of its handlers have anything to do with the pool,
and what the websocket tasks do is not for it to do. -/
def handler : Event → Handler
  | .io fd events data ending => handleIoProgram cfg fd events data ending
  | .housekeeping => housekeepingProgram cfg
  | .accept cfds => newConnectionsProgram cfds
  | .wsTake | .wsReturn _ => .done
  | e => plainly fun w ↦ step cfg app w e

/-! ## Handlers that nobody interrupts

Each program is run to its end and compared with the function of the same handler. The programs are
written in the order of the source, so that the proofs need nothing but the definitions and an
induction wherever there is a loop. -/

@[simp] theorem run_plainly (f : World → World) (w : World) : (plainly f).run w = f w := rfl

@[simp] theorem run_look (next : World → Handler) (w : World) :
    (look next).run w = (next w).run w := rfl

private theorem run_decodeProgram (io : ConnRef) (inBuf : Bytes) (fuel offset : ℕ)
    (requests : Requests) (out : Bytes) (w : World) :
    (decodeProgram cfg io inBuf fuel offset requests out).run w = writeBack io.fd (exitResult inBuf
      (processLoop cfg.toLimits (callbacks cfg io) inBuf fuel offset ⟨requests, out, w⟩)) := by
  induction fuel generalizing offset requests out w with
  | zero => rfl
  | succ fuel ih =>
    rw [decodeProgram, processLoop]
    cases nextRecord (inBuf.drop offset) with
    | none => rfl
    | some p =>
      simp only [Program.run, turn]
      cases processRecord cfg.toLimits (callbacks cfg io) p.1 ⟨requests, out, w⟩ with
      | deferred m => rfl
      | next m => exact ih _ _ _ _

private theorem run_processProgram (fd : ℤ) (w : World) :
    (processProgram cfg fd).run w = processFcgi cfg fd w := by
  rw [processProgram, run_look, processFcgi]
  cases w.conns.lookup fd with
  | none => rfl
  | some c =>
    simp only
    split
    · rfl
    · exact run_decodeProgram cfg ⟨fd, c.cid⟩ _ _ _ _ _ w

private theorem run_waitingProgram (n budget : ℕ) (w : World) :
    (waitingProgram cfg n budget).run w = waitingLoop cfg n budget w := by
  induction n generalizing budget w with
  | zero => rfl
  | succ n ih =>
    rw [waitingProgram, waitingLoop]
    split
    · rfl
    rw [run_look]
    cases w.waitingConns with
    | nil => rfl
    | cons fd fds =>
      simp only [Program.run_seq, run_plainly, run_look]
      cases w.conns.lookup fd with
      | none => exact ih _ _
      | some c =>
        simp only
        split
        · exact ih _ _
        simp only [Program.run_seq, run_look, run_processProgram]
        split
        · rw [Program.run_seq, ih, run_plainly]
        split
        · rw [Program.run_seq, ih, run_plainly]
        · exact ih _ _

private theorem run_releaseProgram (fd : ℤ) (id : UInt16) (w : World) :
    (releaseProgram cfg fd id).run w = releaseRequest cfg fd id w := by
  rw [releaseProgram, Program.run_seq, run_plainly, Program.run, run_look, run_waitingProgram]
  rfl

private theorem run_sweepRequestProgram (fd : ℤ) (id : UInt16) (w : World) :
    (sweepRequestProgram cfg fd id).run w = sweepRequest cfg fd w id := by
  rw [sweepRequestProgram, run_look, sweepRequest]
  cases (w.conns.lookup fd).bind fun c ↦ c.requests.lookup id with
  | none => rfl
  | some r =>
    simp only
    split
    · rfl
    split
    · simp only [Program.run_seq, run_plainly, run_releaseProgram]
    split
    · simp only [Program.run_seq, run_plainly, run_releaseProgram]
    · rfl

private theorem run_sweepProgram (fd : ℤ) (w : World) :
    (sweepProgram cfg fd).run w = sweep cfg fd w := by
  rw [sweepProgram, run_look, Program.run_each, sweep]
  simp only [run_sweepRequestProgram]

private theorem run_cleanupRequestProgram (fd : ℤ) (id : UInt16) (w : World) :
    (cleanupRequestProgram cfg fd id).run w = cleanupRequest cfg fd w id := by
  rw [cleanupRequestProgram, run_look, cleanupRequest]
  cases (w.conns.lookup fd).bind fun c ↦ c.requests.lookup id with
  | none => rfl
  | some r =>
    simp only
    rw [Program.run_seq, run_releaseProgram]
    split
    · rfl
    · rfl

private theorem run_closeProgram (fd : ℤ) (w : World) :
    (closeProgram cfg fd).run w = closeConnection cfg w fd := by
  rw [closeProgram, run_look, closeConnection]
  cases w.conns.lookup fd with
  | none => rfl
  | some c =>
    simp only
    rw [Program.run_seq, cleanupProgram, run_look, Program.run_seq, Program.run_each]
    simp only [run_cleanupRequestProgram]
    rfl

private theorem run_drainProgram (w : World) :
    (drainProgram cfg).run w = drainCloseQueue cfg w := by
  have hturn (w : World) (cfd : ℤ) : (drainTurnProgram cfg cfd).run w = drainTurn cfg w cfd := by
    rw [drainTurnProgram, Program.run_seq, run_plainly, run_look, drainTurn]
    split
    · exact run_closeProgram cfg cfd _
    · rfl
  rw [drainProgram, run_look, Program.run_seq, run_plainly, Program.run_each, drainCloseQueue]
  simp only [hturn]

private theorem run_serveIoProgram (fd : ℤ) (events : IoEvents) (data : Bytes) (ending : RecvEnd)
    (w : World) : (serveIoProgram cfg fd events data ending).run w =
      serveIo cfg fd events data ending w := by
  have hinput (w : World) :
      (handleInputProgram cfg fd data ending).run w = handleInput cfg fd data ending w := by
    simp only [handleInputProgram, Program.run_seq, run_plainly, run_look, run_processProgram]
    rfl
  have hin (w : World) :
      (if events.epollIn then handleInputProgram cfg fd data ending else .done).run w
        = if events.epollIn then handleInput cfg fd data ending w else w := by
    split
    · exact hinput w
    · rfl
  have hout (w : World) :
      (if events.epollOut then plainly (flushConnection fd) else .done).run w
        = if events.epollOut then flushConnection fd w else w := by
    split
    · rfl
    · rfl
  rw [serveIoProgram, Program.run_seq, Program.run_seq, hin, hout]
  rfl

private theorem run_handleIoProgram (fd : ℤ) (events : IoEvents) (data : Bytes) (ending : RecvEnd)
    (w : World) : (handleIoProgram cfg fd events data ending).run w =
      handleIo cfg fd events data ending w := by
  rw [handleIoProgram, run_look, handleIo]
  cases w.conns.lookup fd with
  | none => rfl
  | some c =>
    simp only
    rw [Program.run_seq, run_serveIoProgram, Program.run_seq, run_sweepProgram, Program.run_seq,
      run_drainProgram]
    rfl

private theorem run_housekeepingProgram (w : World) :
    (housekeepingProgram cfg).run w = housekeepingCloseIdle cfg w := by
  rw [housekeepingProgram, Program.run_seq, run_plainly, run_look, Program.run_each]
  simp only [run_closeProgram]
  rfl

private theorem run_newConnectionsProgram (cfds : List ℤ) (w : World) :
    (newConnectionsProgram cfds).run w = handleNewConnections cfds w := by
  have haccept (w : World) : (acceptProgram cfds).run w = acceptLoop cfds w := by
    induction cfds generalizing w with
    | nil => rfl
    | cons cfd cfds ih =>
      rw [acceptProgram, run_look, acceptLoop]
      split
      · rfl
      rw [Program.run_seq, run_plainly, Program.run, testPause]
      simp only
      split
      · rfl
      · exact ih _
  rw [newConnectionsProgram, Program.run, testPause, handleNewConnections]
  split
  · rfl
  · exact haccept w

/-- **A handler that nobody interrupts** is that of the event loop. -/
theorem run_handler {e : Event} (htake : e ≠ .wsTake) (hreturn : ∀ k, e ≠ .wsReturn k) (w : World) :
    (handler cfg app e).run w = step cfg app w e := by
  cases e with
  | io fd events data ending => exact run_handleIoProgram cfg fd events data ending w
  | housekeeping => exact run_housekeepingProgram cfg w
  | accept cfds => exact run_newConnectionsProgram cfds w
  | wsTake => exact absurd rfl htake
  | wsReturn k => exact absurd rfl (hreturn k)
  | _ => rfl

/-! ## Runs

A move is the start of a handler, its next step, or one thing a websocket task does. A handler
starts only when the one before has ended, since there is one I/O thread. -/

/-- What a websocket task does with the pool. -/
inductive Websocket where
  | take
  | giveBack (k : ℕ)

def interfere (w : World) : Websocket → World
  | .take => step cfg app w .wsTake
  | .giveBack k => step cfg app w (.wsReturn k)

abbrev Move := Process.Move Event Websocket

def move : Process World Point → Move → Process World Point :=
  Process.move (handler cfg app) (interfere cfg app)

/-- So many steps of the handler. -/
def proceeds (k : ℕ) : List Move := List.replicate k .proceed

/-- The server at start. -/
def idle (w : World) : Process World Point := ⟨w, .done⟩

/-- **The steps of the event loop** are runs of moves. A handler goes through without interruption,
and what a websocket task does is one move. -/
theorem exists_moves_eq_step (e : Event) (w : World) :
    ∃ moves : List Move, moves.foldl (move cfg app) (idle w) = idle (step cfg app w e) := by
  by_cases htake : e = .wsTake
  · exact ⟨[.interfere .take], htake ▸ rfl⟩
  by_cases hreturn : ∃ k, e = .wsReturn k
  · obtain ⟨k, rfl⟩ := hreturn
    exact ⟨[.interfere (.giveBack k)], rfl⟩
  obtain ⟨n, hn⟩ := Process.exists_foldl_proceed (handler cfg app) (interfere cfg app)
    ⟨w, handler cfg app e⟩
  refine ⟨.start e :: List.replicate n .proceed, ?_⟩
  rw [idle, ← run_handler cfg app htake fun k hk ↦ hreturn ⟨k, hk⟩]
  exact hn

end

end Wasapi.FcgiConn
