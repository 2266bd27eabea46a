import Wasapi.FcgiConn.Serve

/-!
# What the other handlers can do

Beside serving, the event loop accepts connections, answers the requests of the response queue,
sweeps a connection for requests that are done and lets the workers move on. What each of these
can do is said here once, so that a property of the world is shown for the single things they do
and not for the handlers.
-/

namespace Wasapi.FcgiConn

open Fastcgi

/-! ## Accepting

A loop of `accept` calls, each with the connection it makes and a look at the pool. A property that
survives one of them and the pausing of `accept` survives the handler. -/

private theorem acceptLoop_invariant {I : World → Prop} (hpause : ∀ w, I w → I (pauseAccept w))
    (haccept : ∀ w cfd, ¬World.isOpen cfd w.trace → I w → I (acceptConnection cfd w)) {w : World}
    (h : I w) (cfds : List ℤ) : I (acceptLoop cfds w) := by
  induction cfds generalizing w with
  | nil => exact h
  | cons cfd cfds ih =>
    rw [acceptLoop]
    split
    · exact h
    next hclosed =>
    have haccepted := haccept w cfd hclosed h
    simp only
    split
    · exact hpause _ haccepted
    · exact ih haccepted

/-- **The invariant rule for accepting.** -/
theorem handleNewConnections_invariant {I : World → Prop} (hpause : ∀ w, I w → I (pauseAccept w))
    (haccept : ∀ w cfd, ¬World.isOpen cfd w.trace → I w → I (acceptConnection cfd w)) {w : World}
    (h : I w) (cfds : List ℤ) : I (handleNewConnections cfds w) := by
  rw [handleNewConnections]
  split
  · exact hpause w h
  · exact acceptLoop_invariant hpause haccept h cfds

/-! ## Answering

The pointer is followed, and what it leads to is answered and its output watched for, unless it
leads nowhere or the request has been answered already. -/

/-- An answer is appended to the output of a connection. -/
def appendAnswer (answer : Bytes) (c : Connection) : Connection :=
  if answer ≠ [] && c.outPos = c.outBuf.length then
    updateWriteInterest true { c with outBuf := c.outBuf ++ answer }
  else { c with outBuf := c.outBuf ++ answer }

theorem updateWriteInterest_eq (want : Bool) (c : Connection) : ∃ epollOut wanted,
    updateWriteInterest want c = { c with epollOut := epollOut, wantWriteInterest := wanted } := by
  rw [updateWriteInterest]
  split
  · exact ⟨c.epollOut, c.wantWriteInterest, rfl⟩
  · exact ⟨want, want, rfl⟩

/-- Nothing else changes but what is registered. -/
theorem appendAnswer_eq (answer : Bytes) (c : Connection) : ∃ epollOut wanted,
    appendAnswer answer c = { c with
      outBuf := c.outBuf ++ answer
      epollOut := epollOut
      wantWriteInterest := wanted } := by
  rw [appendAnswer]
  split
  · exact updateWriteInterest_eq true { c with outBuf := c.outBuf ++ answer }
  · exact ⟨c.epollOut, c.wantWriteInterest, rfl⟩

/-- **What `process_pending_output` can do with a request**: nothing, or the server answers it. -/
theorem answerPending_cases (app : Application) (w : World) (p : RequestPtr) :
    answerPending app w p = w ∨
    ∃ r c offset, w.request p = some r ∧ w.connection p.conn = some c ∧
      r.flags.responded = false ∧ c.closed = false ∧
      answerPending app w p = (w.updateRequest p fun _ ↦ (onRequestReady app r offset).1).updateRef
        p.conn (appendAnswer (onRequestReady app r offset).2) := by
  rw [answerPending]
  split
  swap
  · exact .inl rfl
  next r c hr hc =>
  split
  · exact .inl rfl
  next hopen =>
  rw [Bool.or_eq_true, not_or, Bool.not_eq_true, Bool.not_eq_true] at hopen
  exact .inr ⟨r, c, _, hr, hc, hopen.1, hopen.2, rfl⟩

/-! ## The sweep -/

/-- **What the sweep can do with a request**: nothing, or it releases a request that is answered or
has come to nothing, and no worker has it. -/
theorem sweepRequest_cases (cfg : GlobalConfig) (fd : ℤ) (w : World) (id : UInt16) :
    sweepRequest cfg fd w id = w ∨
    ∃ r, ((w.conns.lookup fd).bind fun c ↦ c.requests.lookup id) = some r ∧
      r.workerActive = false ∧
      ((r.flags.responded = true ∧ sweepRequest cfg fd w id =
        eraseRequest fd id (releaseRequest cfg fd id (finalizeRequest cfg fd id w))) ∨
      (r.flags.responded = false ∧ (r.flags.failed = true ∨ r.flags.aborted = true) ∧
        sweepRequest cfg fd w id = eraseRequest fd id (releaseRequest cfg fd id w))) := by
  rw [sweepRequest]
  split
  · exact .inl rfl
  next r hr =>
  split
  · exact .inl rfl
  next hinactive =>
  rw [Bool.not_eq_true] at hinactive
  split
  · next hresponded => exact .inr ⟨r, hr, hinactive, .inl ⟨hresponded, rfl⟩⟩
  next hunanswered =>
  rw [Bool.not_eq_true] at hunanswered
  split
  · next hended =>
    rw [Bool.or_eq_true] at hended
    exact .inr ⟨r, hr, hinactive, .inr ⟨hunanswered, hended, rfl⟩⟩
  · exact .inl rfl

/-! ## Workers -/

/-- **What a worker can do with its task**: move on, push the prepared request on the response
queue, clear its flag, or leave the connection and end. -/
theorem workerStep_cases (app : Application) (k : ℕ) (w : World) :
    workerStep app k w = w ∨
    ∃ t, w.tasks[k]? = some t ∧
      ((∃ phase, t.phase = .queued ∧
        workerStep app k w = { w with tasks := w.tasks.set k { t with phase := phase } }) ∨
      (t.phase = .started ∧ workerStep app k w =
        { World.updateRequest { w with tasks := w.tasks.set k { t with phase := .pushed } }
            t.request app.prepared with
          pendingOutput := w.pendingOutput ++ [t.request] }) ∨
      (t.phase = .pushed ∧ workerStep app k w =
        World.updateRequest { w with tasks := w.tasks.set k { t with phase := .cleared } }
          t.request fun r ↦ { r with workerActive := false }) ∨
      (t.phase = .cleared ∧ workerStep app k w =
        { w.updateRef t.request.conn (fun c ↦ { c with activeWorkers := c.activeWorkers - 1 }) with
          tasks := w.tasks.eraseIdx k })) := by
  rw [workerStep]
  split
  · exact .inl rfl
  next t ht =>
  cases hphase : t.phase with
  | queued =>
    simp only
    split
    · exact .inl rfl
    split
    · split
      · exact .inr ⟨t, ht, .inl ⟨.started, hphase, rfl⟩⟩
      · exact .inr ⟨t, ht, .inl ⟨.pushed, hphase, rfl⟩⟩
    · exact .inr ⟨t, ht, .inl ⟨.pushed, hphase, rfl⟩⟩
  | started => exact .inr ⟨t, ht, .inr (.inl ⟨hphase, rfl⟩)⟩
  | pushed => exact .inr ⟨t, ht, .inr (.inr (.inl ⟨hphase, rfl⟩))⟩
  | cleared => exact .inr ⟨t, ht, .inr (.inr (.inr ⟨hphase, rfl⟩))⟩

end Wasapi.FcgiConn
