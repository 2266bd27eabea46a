import Wasapi.FcgiConn.Ownership
import Wasapi.FcgiConn.EventCases

/-!
# What the handlers are made of

An `Action` is one thing a handler does to the world: reading a socket, one call of
`process_buffer`, one flush, the timeout check of one connection, one run of
`process_pending_output`, one step of a release. `act` does it with the functions of the handlers
themselves.

A run of actions takes them in any order. The event loop takes them in the orders its handlers
prescribe, and `acts_step` says that it does nothing else, so what holds of every run of actions
holds of the event loop at every point between two of them.
-/

namespace Wasapi.FcgiConn

open Fastcgi

inductive Action where
  /-- `epoll_wait` reports a hang-up or an error -/
  | hangUp (fd : ℤ)
  | read (fd : ℤ) (data : Bytes) (ending : RecvEnd)
  /-- `process_fcgi`, which calls `process_buffer` -/
  | process (fd : ℤ)
  | flush (fd : ℤ)
  /-- the timeout checks of one connection -/
  | timeouts (fd : ℤ)
  /-- `process_pending_output` -/
  | pendingOutput
  | finalize (fd : ℤ) (id : UInt16)
  /-- the destructor and the release of the arena in `release_request` -/
  | destroy (fd : ℤ) (id : UInt16)
  /-- a request leaves the map of its connection -/
  | erase (fd : ℤ) (id : UInt16)
  /-- `requests.clear()` -/
  | clear (fd : ℤ)
  /-- `::close` and the erasure of the connection -/
  | close (fd : ℤ)
  /-- `g_conns[fd]` -/
  | index (fd : ℤ)
  | accept (cfd : ℤ)
  | worker (k : ℕ)
  | outside (elapsed : ℕ) (sends : List SendResult)
  | wsTake
  | wsReturn (k : ℕ)
  | rehash (fds : List ℤ) (fd : ℤ) (ids : List UInt16)
  /-- the queues of descriptors change, or `accept` is paused or resumed -/
  | queues (closeQueue waitingConns : List ℤ) (acceptPaused : Bool)

section

variable (cfg : GlobalConfig) (app : Application)

def act (w : World) : Action → World
  | .hangUp fd => w.updateConn fd fun c ↦ { c with closed := true }
  | .read fd data ending => readAll fd data ending w
  | .process fd => processFcgi cfg fd w
  | .flush fd => flushConnection fd w
  | .timeouts fd => timeoutRequests cfg w fd
  | .pendingOutput => processPendingOutput app w
  | .finalize fd id => finalizeRequest cfg fd id w
  | .destroy fd id => destroyRequest fd id w
  | .erase fd id => eraseRequest fd id w
  | .clear fd => w.updateConn fd fun c ↦ { c with requests := ∅ }
  | .close fd => eraseConnection fd w
  | .index fd => indexConns fd w
  | .accept cfd => acceptConnection cfd w
  | .worker k => workerStep app k w
  | .outside elapsed sends => step cfg app w (.outside elapsed sends)
  | .wsTake => step cfg app w .wsTake
  | .wsReturn k => step cfg app w (.wsReturn k)
  | .rehash fds fd ids => step cfg app w (.rehash fds fd ids)
  | .queues closeQueue waitingConns acceptPaused =>
    { w with closeQueue := closeQueue, waitingConns := waitingConns, acceptPaused := acceptPaused }

/-- `w'` is reached from `w` by a run of actions in `S`. -/
def Acts (S : Action → Prop) (w w' : World) : Prop :=
  ∃ as : List Action, (∀ a ∈ as, S a) ∧ as.foldl (act cfg app) w = w'

variable {cfg app} {S : Action → Prop} {w w₁ w₂ : World}

theorem Acts.refl (w : World) : Acts cfg app S w w := ⟨[], fun _ ha ↦ (nomatch ha), rfl⟩

theorem Acts.trans (h : Acts cfg app S w w₁) (h' : Acts cfg app S w₁ w₂) : Acts cfg app S w w₂ := by
  obtain ⟨as, has, rfl⟩ := h
  obtain ⟨as', has', rfl⟩ := h'
  refine ⟨as ++ as', fun a ha ↦ ?_, List.foldl_append⟩
  exact (List.mem_append.mp ha).elim (has a) (has' a)

theorem Acts.mono {S' : Action → Prop} (hS : ∀ a, S a → S' a) (h : Acts cfg app S w w₁) :
    Acts cfg app S' w w₁ := by
  obtain ⟨as, has, heq⟩ := h
  exact ⟨as, fun a ha ↦ hS a (has a ha), heq⟩

/-- **The invariant rule for actions.** -/
theorem Acts.invariant {I : World → Prop} (hstep : ∀ w a, S a → I w → I (act cfg app w a))
    (h : Acts cfg app S w w₁) (hw : I w) : I w₁ := by
  obtain ⟨as, has, rfl⟩ := h
  exact List.foldlRecOn as _ hw fun w hw a ha ↦ hstep w a (has a ha) hw

/-- Any action at all. -/
def Any (_ : Action) : Prop := True

variable (cfg app)

private theorem acts_act (w : World) {a : Action} (ha : S a) : Acts cfg app S w (act cfg app w a) :=
  ⟨[a], fun _ hmem ↦ List.mem_singleton.mp hmem ▸ ha, rfl⟩

theorem acts_foldl {ι : Type*} {f : World → ι → World} (hf : ∀ w i, Acts cfg app S w (f w i))
    (is : List ι) (w : World) : Acts cfg app S w (is.foldl f w) := by
  induction is generalizing w with
  | nil => exact .refl w
  | cons i is ih => exact (hf w i).trans (ih _)

/-! ## Releasing and closing

A release serves waiting connections, so what happens in the course of one is a run of actions
itself, of a restricted kind. The restriction matters to whoever has a request or a connection that
is to stay where it is meanwhile. -/

/-- What happens while a request is released: its arena goes back, and waiting connections are
served. Nothing leaves a map. -/
inductive Action.Serving : Action → Prop
  | process (fd : ℤ) : Serving (.process fd)
  | flush (fd : ℤ) : Serving (.flush fd)
  | finalize (fd : ℤ) (id : UInt16) : Serving (.finalize fd id)
  | destroy (fd : ℤ) (id : UInt16) : Serving (.destroy fd id)
  | queues (closeQueue waitingConns : List ℤ) (acceptPaused : Bool) :
    Serving (.queues closeQueue waitingConns acceptPaused)

/-- What happens while requests are released and connections closed. -/
inductive Action.Releasing : Action → Prop
  | serving {a : Action} (ha : a.Serving) : Releasing a
  | erase (fd : ℤ) (id : UInt16) : Releasing (.erase fd id)
  | clear (fd : ℤ) : Releasing (.clear fd)
  | close (fd : ℤ) : Releasing (.close fd)

private theorem acts_serving (w : World) {a : Action} (ha : a.Serving) :
    Acts cfg app Action.Serving w (act cfg app w a) := acts_act cfg app w ha

theorem Acts.releasing (h : Acts cfg app Action.Serving w w₁) :
    Acts cfg app Action.Releasing w w₁ := h.mono fun _ ↦ .serving

private theorem acts_waitingLoop (n budget : ℕ) (w : World) :
    Acts cfg app Action.Serving w (waitingLoop cfg n budget w) := by
  induction n generalizing budget w with
  | zero => exact .refl w
  | succ n ih =>
    rw [waitingLoop]
    split
    · exact .refl w
    split
    · exact .refl w
    next fd fds hwaiting =>
    have hpop : Acts cfg app Action.Serving w { w with waitingConns := fds } :=
      acts_serving cfg app w (.queues w.closeQueue fds w.acceptPaused)
    simp only
    split
    · exact hpop.trans (ih _ _)
    split
    · exact hpop.trans (ih _ _)
    refine hpop.trans (.trans (acts_serving cfg app _ (.process fd)) ?_)
    rw [act]
    set w' := processFcgi cfg fd { w with waitingConns := fds }
    split
    · exact .trans (acts_serving cfg app w' (.flush fd)) (ih _ _)
    split
    · exact .trans (acts_serving cfg app w'
        (.queues w'.closeQueue (w'.waitingConns ++ [fd]) w'.acceptPaused)) (ih _ _)
    · exact ih _ _

theorem acts_releaseRequest (fd : ℤ) (id : UInt16) (w : World) :
    Acts cfg app Action.Serving w (releaseRequest cfg fd id w) := by
  rw [releaseRequest]
  refine .trans (acts_serving cfg app w (.destroy fd id)) ?_
  rw [act]
  set w' := destroyRequest fd id w
  refine Acts.trans ?_ (acts_waitingLoop cfg app _ _ _)
  split
  · exact acts_serving cfg app w' (.queues w'.closeQueue w'.waitingConns false)
  · exact .refl w'

private theorem acts_sweepRequest (fd : ℤ) (w : World) (id : UInt16) :
    Acts cfg app Action.Releasing w (sweepRequest cfg fd w id) := by
  have hrelease (w : World) :
      Acts cfg app Action.Releasing w (eraseRequest fd id (releaseRequest cfg fd id w)) :=
    (acts_releaseRequest cfg app fd id w).releasing.trans
      (acts_act cfg app _ (Action.Releasing.erase fd id))
  rcases sweepRequest_cases cfg fd w id with heq | ⟨r, -, -, ⟨-, heq⟩ | ⟨-, -, heq⟩⟩
  · rw [heq]
    exact .refl w
  · rw [heq]
    exact (acts_serving cfg app w (.finalize fd id)).releasing.trans (hrelease _)
  · rw [heq]
    exact hrelease w

theorem acts_cleanupRequest (fd : ℤ) (w : World) (id : UInt16) :
    Acts cfg app Action.Serving w (cleanupRequest cfg fd w id) := by
  rw [cleanupRequest]
  split
  · exact .refl w
  refine Acts.trans ?_ (acts_releaseRequest cfg app fd id _)
  split
  · exact .refl w
  · exact acts_serving cfg app w (.finalize fd id)

theorem acts_closeConnection (w : World) (fd : ℤ) :
    Acts cfg app Action.Releasing w (closeConnection cfg w fd) := by
  rw [closeConnection]
  split
  · exact .refl w
  · rw [cleanupConnectionRequests]
    have hcleanup := acts_foldl cfg app (acts_cleanupRequest cfg app fd) (requestIds fd w) w
    refine hcleanup.releasing.trans ?_
    exact .trans (acts_act cfg app _ (Action.Releasing.clear fd))
      (acts_act cfg app _ (Action.Releasing.close fd))

private theorem acts_drainCloseQueue (w : World) :
    Acts cfg app Any w (drainCloseQueue cfg w) := by
  have hturn (w : World) (cfd : ℤ) : Acts cfg app Any w (drainTurn cfg w cfd) := by
    rw [drainTurn]
    refine .trans (acts_act cfg app w (a := .index cfd) trivial) ?_
    rw [act]
    split
    · exact (acts_closeConnection cfg app _ cfd).mono fun _ _ ↦ trivial
    · exact .refl _
  exact .trans (acts_act cfg app w (a := .queues [] w.waitingConns w.acceptPaused) trivial)
    (acts_foldl cfg app hturn _ _)

/-! ## The handlers

Each handler is written as the run of actions it takes. The proofs follow the code, and whatever is
known of single actions is known of the handlers from here on. -/

private theorem acts_serveIo (fd : ℤ) (events : IoEvents) (data : Bytes) (ending : RecvEnd)
    (w : World) :
    Acts cfg app Any w (serveIo cfg fd events data ending w) := by
  have hone (w : World) (a : Action) : Acts cfg app Any w (act cfg app w a) :=
    acts_act cfg app w trivial
  have hinput (w : World) : Acts cfg app Any w (handleInput cfg fd data ending w) := by
    rw [handleInput]
    refine .trans (hone w (.read fd data ending)) ?_
    rw [act]
    refine .trans (hone _ (.process fd)) ?_
    rw [act]
    set w' := processFcgi cfg fd (readAll fd data ending w)
    refine Acts.trans ?_ (hone _ (.flush fd))
    split
    · exact hone w' (.queues w'.closeQueue (w'.waitingConns ++ [fd]) w'.acceptPaused)
    · exact .refl w'
  have hhup (w : World) : Acts cfg app Any w
      (if events.hupOrErr then w.updateConn fd fun c ↦ { c with closed := true } else w) := by
    split
    · exact hone w (.hangUp fd)
    · exact .refl w
  have hin (w : World) : Acts cfg app Any w
      (if events.epollIn then handleInput cfg fd data ending w else w) := by
    split
    · exact hinput w
    · exact .refl w
  have hout (w : World) :
      Acts cfg app Any w (if events.epollOut then flushConnection fd w else w) := by
    split
    · exact hone w (.flush fd)
    · exact .refl w
  rw [serveIo]
  exact (hhup w).trans ((hin _).trans (hout _))

private theorem acts_handleIo (fd : ℤ) (events : IoEvents) (data : Bytes) (ending : RecvEnd)
    (w : World) :
    Acts cfg app Any w (handleIo cfg fd events data ending w) := by
  rw [handleIo]
  split
  · exact .refl w
  set served := serveIo cfg fd events data ending w
  have hsweep : Acts cfg app Any served (sweep cfg fd served) :=
    (acts_foldl cfg app (acts_sweepRequest cfg app fd) (requestIds fd served) served).mono
      fun _ _ ↦ trivial
  set swept := sweep cfg fd served
  have hqueue : Acts cfg app Any swept (queueClose fd swept) := by
    rw [queueClose]
    split
    · exact acts_act cfg app swept
        (a := .queues (swept.closeQueue ++ [fd]) swept.waitingConns swept.acceptPaused) trivial
    · exact .refl swept
  exact (acts_serveIo cfg app fd events data ending w).trans
    (hsweep.trans (hqueue.trans (acts_drainCloseQueue cfg app _)))

private theorem acts_housekeepingCloseIdle (w : World) :
    Acts cfg app Any w (housekeepingCloseIdle cfg w) := by
  have htimeouts (w : World) (fd : ℤ) : Acts cfg app Any w (timeoutRequests cfg w fd) :=
    acts_act cfg app w (a := .timeouts fd) trivial
  rw [housekeepingCloseIdle]
  refine (acts_foldl cfg app htimeouts w.conns.keys w).trans ?_
  exact (acts_foldl cfg app (acts_closeConnection cfg app) _ _).mono fun _ _ ↦ trivial

private theorem acts_handleNewConnections (cfds : List ℤ) (w : World) :
    Acts cfg app Any w (handleNewConnections cfds w) := by
  refine handleNewConnections_invariant (fun w' h ↦ ?_) (fun w' cfd _ h ↦ ?_) (.refl w) cfds
  · exact h.trans (acts_act cfg app w' (a := .queues w'.closeQueue w'.waitingConns true) trivial)
  · exact h.trans (acts_act cfg app w' (a := .accept cfd) trivial)

/-- **The event loop is made of actions.** -/
theorem acts_step (w : World) (e : Event) : Acts cfg app Any w (step cfg app w e) := by
  have hone (a : Action) : Acts cfg app Any w (act cfg app w a) := acts_act cfg app w trivial
  cases e with
  | io fd events data ending => exact acts_handleIo cfg app fd events data ending w
  | housekeeping => exact acts_housekeepingCloseIdle cfg app w
  | pendingOutput => exact hone .pendingOutput
  | accept cfds => exact acts_handleNewConnections cfg app cfds w
  | worker k => exact hone (.worker k)
  | outside elapsed sends => exact hone (.outside elapsed sends)
  | wsTake => exact hone .wsTake
  | wsReturn k => exact hone (.wsReturn k)
  | rehash fds fd ids => exact hone (.rehash fds fd ids)

end

/-! ## What `process_fcgi` leaves alone

`process_fcgi` works on one connection. The callbacks reach others through the pool and the queues
only, and add tasks and workers, so the other connections stay as they are. -/

/-- The same connection but for the number of its workers, which has not become smaller. -/
def SameButWorkers (c c' : Connection) : Prop :=
  ∃ n, c.activeWorkers ≤ n ∧ c' = { c with activeWorkers := n }

theorem SameButWorkers.refl (c : Connection) : SameButWorkers c c := ⟨c.activeWorkers, le_rfl, rfl⟩

theorem SameButWorkers.trans {c₁ c₂ c₃ : Connection} (h : SameButWorkers c₁ c₂)
    (h' : SameButWorkers c₂ c₃) : SameButWorkers c₁ c₃ := by
  obtain ⟨m, hm, rfl⟩ := h
  obtain ⟨n, hn, rfl⟩ := h'
  exact ⟨n, hm.trans hn, rfl⟩

section Process

variable (cfg : GlobalConfig) {w : World}

private theorem evolves_internalOnRequestReady (r : Request) (w : World) :
    Evolves SameButWorkers w (internalOnRequestReady cfg r w).2 := by
  rw [internalOnRequestReady]
  split
  · exact .refl .refl w
  split
  · exact .refl .refl w
  · next p _ => exact evolves_updateRef .refl w p fun c _ ↦ ⟨c.activeWorkers + 1, by omega, rfl⟩

private theorem conns_allocateRequest (io : ConnRef) (id : UInt16) (w : World) :
    (allocateRequest cfg io id w).2.conns = w.conns := by
  rcases allocateRequest_cases cfg io id w with ⟨w', heq, hconns, -⟩ | ⟨r, i, w', heq, hconns, -⟩
  · rw [heq, hconns]
  · rw [heq, hconns]

private theorem evolves_touch (io : ConnRef) (id : UInt16)
    (body : RequestCore → Bytes → RequestCore × Bytes) (r : Request) (m : Machine World) :
    Evolves SameButWorkers m.ext (touch (callbacks cfg io) id body r m).ext := by
  rw [touch]
  split
  · exact evolves_internalOnRequestReady cfg _ m.ext
  · exact .refl .refl m.ext

theorem evolves_turn (limits : Limits) (io : ConnRef) (m : Machine World) (rec : Record) :
    Evolves SameButWorkers m.ext (turn limits (callbacks cfg io) m rec).ext := by
  have hallocate {res : Option Request × World}
      (h : (callbacks cfg io).allocateRequest rec.requestId m.ext = res) :
      Evolves SameButWorkers m.ext res.2 := by
    intro k
    rw [← h, show (callbacks cfg io).allocateRequest = allocateRequest cfg io from rfl,
      conns_allocateRequest]
    exact Evolves.refl .refl m.ext k
  rw [turn]
  rcases processRecord_cases limits (callbacks cfg io) rec m with ⟨-, hrec⟩ |
    ⟨body, r, -, -, hrec⟩ | ⟨body, nr, w', -, -, halloc, hrec⟩ | ⟨body, w', -, -, halloc, hrec⟩
  · rw [hrec]
    exact .refl .refl m.ext
  · rw [hrec]
    exact evolves_touch cfg io _ body r m
  · rw [hrec]
    exact (hallocate halloc).trans .trans (evolves_touch cfg io _ body nr
      { m with requests := m.requests.insert rec.requestId nr, ext := w' })
  · rw [hrec]
    split
    · exact hallocate halloc
    · exact hallocate halloc

theorem evolves_processBuffer (limits : Limits) (io : ConnRef) (inBuf : Bytes)
    (m : Machine World) :
    Evolves SameButWorkers m.ext (processBuffer limits (callbacks cfg io) inBuf m).ext := by
  rw [show (processBuffer limits (callbacks cfg io) inBuf m).ext
    = (processBuffer limits (callbacks cfg io) inBuf m).toMachine.ext from rfl,
    processBuffer_eq_foldl]
  refine List.foldlRecOn _ _
    (motive := fun m' : Machine World ↦ Evolves SameButWorkers m.ext m'.ext) ?_ ?_
  · exact .refl .refl m.ext
  · intro m' hm' rec _
    exact hm'.trans .trans (evolves_turn cfg limits io m' rec)

/-- What `process_buffer` returns to `process_fcgi` for the connection at `fd`. -/
def processed (fd : ℤ) (w : World) (c : Connection) : ProcessResult World :=
  processBuffer cfg.toLimits (callbacks cfg ⟨fd, c.cid⟩) c.inBuf ⟨c.requests, c.outBuf, w⟩

/-- **What `process_fcgi` does to the connections.** -/
theorem processFcgi_cases {fd k : ℤ} {c' : Connection}
    (hc' : (processFcgi cfg fd w).conns.lookup k = some c') :
    ∃ c n, w.conns.lookup k = some c ∧ c.activeWorkers ≤ n ∧
      (((k ≠ fd ∨ c.closed = true) ∧ c' = { c with activeWorkers := n }) ∨
        (k = fd ∧ c.closed = false ∧
          c' = { c with
            inBuf := (processed cfg fd w c).inBuf
            requests := (processed cfg fd w c).requests
            outBuf := (processed cfg fd w c).outBuf
            closed := (processed cfg fd w c).status = .close
            waitingForArena := (processed cfg fd w c).waitingForArena
            activeWorkers := n })) := by
  rw [processFcgi] at hc'
  cases hc : w.conns.lookup fd with
  | none =>
    rw [hc] at hc'
    refine ⟨c', c'.activeWorkers, hc', le_rfl, .inl ⟨.inl ?_, rfl⟩⟩
    rintro rfl
    rw [hc] at hc'
    cases hc'
  | some c =>
    rw [hc] at hc'
    simp only at hc'
    split at hc'
    · next hclosed =>
      refine ⟨c', c'.activeWorkers, hc', le_rfl, .inl ⟨?_, rfl⟩⟩
      refine or_iff_not_imp_left.mpr fun hk ↦ ?_
      rw [not_ne_iff.mp hk, hc, Option.some.injEq] at hc'
      rwa [← hc']
    next hopen =>
    rw [World.lookup_updateConn, Option.map_eq_some_iff] at hc'
    obtain ⟨c₁, hc₁, rfl⟩ := hc'
    obtain ⟨c₀, hc₀, n, hle, rfl⟩ := (evolves_processBuffer cfg cfg.toLimits ⟨fd, c.cid⟩ c.inBuf
      ⟨c.requests, c.outBuf, w⟩).lookup_left hc₁
    refine ⟨c₀, n, hc₀, hle, ?_⟩
    by_cases hk : k = fd
    · subst hk
      obtain rfl := Option.some.inj (hc.symm.trans hc₀)
      rw [if_pos rfl, Bool.eq_false_iff.mpr hopen]
      exact .inr ⟨rfl, rfl, rfl⟩
    · rw [if_neg hk]
      exact .inl ⟨.inl hk, rfl⟩

end Process

/-! ## What `flush_connection` leaves alone

A flush works on the output of one connection, may close it, and changes what is registered for its
socket. Its requests and its workers are not looked at. -/

/-- What a flush does to a connection when the coming `send` calls return `sends`. -/
structure Flushed (sends : List SendResult) (c c' : Connection) : Prop extends
    SameOwner c c' where
  fd : c'.fd = c.fd
  inBuf : c'.inBuf = c.inBuf
  waitingForArena : c'.waitingForArena = c.waitingForArena
  outBuf : c'.outBuf = c.outBuf ∨ c'.outBuf = []
  keepsClosed : c.closed = true → c'.closed = true
  closed : c'.closed = true → c.closed = true ∨ .error ∈ sends

theorem Flushed.refl (sends : List SendResult) (c : Connection) : Flushed sends c c :=
  ⟨.refl c, rfl, rfl, rfl, .inl rfl, fun h ↦ h, .inl⟩

theorem Flushed.trans {sends sends' : List SendResult} {c₁ c₂ c₃ : Connection}
    (h : Flushed sends c₁ c₂) (h' : Flushed sends' c₂ c₃) (hsends : sends' ⊆ sends) :
    Flushed sends c₁ c₃ where
  cid := h'.cid.trans h.cid
  accepted := h'.accepted.trans h.accepted
  requests := h'.requests.trans h.requests
  activeWorkers := h'.activeWorkers.trans h.activeWorkers
  fd := h'.fd.trans h.fd
  inBuf := h'.inBuf.trans h.inBuf
  waitingForArena := h'.waitingForArena.trans h.waitingForArena
  outBuf := by
    rcases h'.outBuf with heq | hnil
    · rw [heq]
      exact h.outBuf
    · exact .inr hnil
  keepsClosed hc := h'.keepsClosed (h.keepsClosed hc)
  closed hc := (h'.closed hc).elim h.closed fun herror ↦ .inr (hsends herror)

private theorem flushed_updateWriteInterest (sends : List SendResult) (want : Bool)
    (c : Connection) : Flushed sends c (updateWriteInterest want c) := by
  obtain ⟨epollOut, wanted, heq⟩ := updateWriteInterest_eq want c
  rw [heq]
  exact ⟨⟨rfl, rfl, rfl, rfl⟩, rfl, rfl, rfl, .inl rfl, fun h ↦ h, .inl⟩

/-- **What `flush_connection` does to the connections.** -/
theorem flushed_flushLoop (fd : ℤ) (fuel : ℕ) {w : World} {k : ℤ} {c' : Connection}
    (hc' : (flushLoop fd fuel w).conns.lookup k = some c') :
    ∃ c, w.conns.lookup k = some c ∧ Flushed w.sends c c' ∧ (k ≠ fd → c' = c) := by
  induction fuel generalizing w with
  | zero => exact ⟨c', hc', .refl _ c', fun _ ↦ rfl⟩
  | succ fuel ih =>
    rw [flushLoop_succ] at hc'
    cases hc : w.conns.lookup fd with
    | none =>
      rw [hc] at hc'
      exact ⟨c', hc', .refl _ c', fun _ ↦ rfl⟩
    | some c =>
      rw [hc] at hc'
      have hset {c₁ : Connection} (hc₁ : Flushed w.sends c c₁)
          (h : (w.setConn fd c₁).conns.lookup k = some c') :
          ∃ c, w.conns.lookup k = some c ∧ Flushed w.sends c c' ∧ (k ≠ fd → c' = c) := by
        rw [World.lookup_setConn] at h
        by_cases hk : k = fd
        · rw [if_pos hk, Option.some.injEq] at h
          subst hk h
          exact ⟨c, hc, hc₁, fun hf ↦ absurd rfl hf⟩
        · rw [if_neg hk] at h
          exact ⟨c', h, .refl _ c', fun _ ↦ rfl⟩
      have hwant (want : Bool) := flushed_updateWriteInterest w.sends want c
      simp only at hc'
      split at hc'
      · have hcleared : Flushed w.sends c
            { updateWriteInterest false c with outBuf := [], outPos := 0 } :=
          { hwant false with outBuf := .inr rfl }
        split at hc'
        · split at hc'
          · exact hset hcleared hc'
          · exact hset hcleared hc'
        · split at hc'
          · exact hset (hwant false) hc'
          · exact hset (hwant false) hc'
      · split at hc'
        · exact hset (hwant true) hc'
        · exact hset (hwant true) hc'
        · next sends hsends =>
          have hclosed : Flushed w.sends c { c with closed := true } := by
            refine ⟨⟨rfl, rfl, rfl, rfl⟩, rfl, rfl, rfl, .inl rfl, fun _ ↦ rfl, fun _ ↦ .inr ?_⟩
            rw [hsends]
            exact List.mem_cons_self
          exact hset hclosed hc'
        · next n sends hsends =>
          obtain ⟨c₂, hc₂, hflushed, heq⟩ := ih hc'
          have hsub : sends ⊆ w.sends := by
            rw [hsends]
            exact List.subset_cons_self _ _
          obtain ⟨c₁, hc₁, hflushed₁, heq₁⟩ : ∃ c₁, w.conns.lookup k = some c₁ ∧
              Flushed w.sends c₁ c₂ ∧ (k ≠ fd → c₂ = c₁) := by
            simp only at hc₂
            rw [World.lookup_setConn] at hc₂
            by_cases hk : k = fd
            · rw [if_pos hk, Option.some.injEq] at hc₂
              subst hk hc₂
              exact ⟨c, hc, ⟨⟨rfl, rfl, rfl, rfl⟩, rfl, rfl, rfl, .inl rfl, fun h ↦ h, .inl⟩,
                fun hf ↦ absurd rfl hf⟩
            · rw [if_neg hk] at hc₂
              exact ⟨c₂, hc₂, .refl _ c₂, fun _ ↦ rfl⟩
          exact ⟨c₁, hc₁, hflushed₁.trans hflushed hsub, fun hk ↦ (heq hk).trans (heq₁ hk)⟩

private theorem flushLoop_eq (fd : ℤ) (fuel : ℕ) (w : World) : ∃ conns sends closeQueue,
    flushLoop fd fuel w
      = { w with conns := conns, sends := sends, closeQueue := closeQueue } := by
  induction fuel generalizing w with
  | zero => exact ⟨w.conns, w.sends, w.closeQueue, rfl⟩
  | succ fuel ih =>
    rw [flushLoop_succ]
    split
    · exact ⟨w.conns, w.sends, w.closeQueue, rfl⟩
    simp only
    split
    · split
      · split
        · exact ⟨_, _, _, rfl⟩
        · exact ⟨_, w.sends, w.closeQueue, rfl⟩
      · split
        · exact ⟨_, _, _, rfl⟩
        · exact ⟨_, w.sends, w.closeQueue, rfl⟩
    split
    · exact ⟨_, _, w.closeQueue, rfl⟩
    · exact ⟨_, _, w.closeQueue, rfl⟩
    · exact ⟨_, _, w.closeQueue, rfl⟩
    · obtain ⟨conns, sends, closeQueue, heq⟩ := ih _
      rw [heq]
      exact ⟨_, _, _, rfl⟩

theorem flushed_flushConnection {fd : ℤ} {w : World} {k : ℤ} {c' : Connection}
    (hc' : (flushConnection fd w).conns.lookup k = some c') :
    ∃ c, w.conns.lookup k = some c ∧ Flushed w.sends c c' ∧ (k ≠ fd → c' = c) := by
  rw [flushConnection] at hc'
  split at hc'
  · exact ⟨c', hc', .refl _ c', fun _ ↦ rfl⟩
  · exact flushed_flushLoop fd _ hc'

theorem flushConnection_eq (fd : ℤ) (w : World) : ∃ conns sends closeQueue,
    flushConnection fd w
      = { w with conns := conns, sends := sends, closeQueue := closeQueue } := by
  rw [flushConnection]
  split
  · exact ⟨w.conns, w.sends, w.closeQueue, rfl⟩
  · exact flushLoop_eq fd _ w

end Wasapi.FcgiConn
