import Wasapi.FcgiConn.Release

/-!
# Closing descriptors

`flush_connection` and the end of `handle_io` put the same descriptor on the close queue twice. The
drain takes its entries with `g_conns[fd]`, so the second one makes a connection no `accept` has
made, which may be closed at once: its descriptor, by then perhaps someone else's, is closed again.

Nothing else closes a descriptor twice. As long as every entry of the close queue still has its
connection when it is taken, each `close` is of an accepted connection whose descriptor is open.
-/

namespace Wasapi.FcgiConn

open Fastcgi

/-- Every `close` finds the number open, that is closed by none since the last `accept` that
returned it, and is of a connection made by an `accept`. The latest call comes first. -/
def ClosesOnce : List Syscall → Prop
  | [] => True
  | .close fd accepted :: t => accepted = true ∧ World.isOpen fd t = true ∧ ClosesOnce t
  | _ :: t => ClosesOnce t

private theorem ClosesOnce.of_suffix {t t' : List Syscall} (h : t <:+ t') (hc : ClosesOnce t') :
    ClosesOnce t := by
  induction t' with
  | nil =>
    rw [List.suffix_nil.mp h]
    exact trivial
  | cons s t' ih =>
    rcases List.suffix_cons_iff.mp h with rfl | hsuffix
    · exact hc
    · cases s with
      | accept fd => exact ih hsuffix hc
      | close fd accepted => exact ih hsuffix hc.2.2
      | unlink path => exact ih hsuffix hc

private theorem closesOnce_unlinks (paths : List Bytes) (t : List Syscall) :
    ClosesOnce (paths.map .unlink ++ t) ↔ ClosesOnce t := by
  induction paths with
  | nil => rfl
  | cons path paths ih => exact ih

theorem isOpen_unlinks (fd : ℤ) (paths : List Bytes) (t : List Syscall) :
    World.isOpen fd (paths.map .unlink ++ t) = World.isOpen fd t := by
  induction paths with
  | nil => rfl
  | cons path paths ih => exact ih

def DescriptorsSafe (w : World) : Prop := ClosesOnce w.trace

/-- Every connection was made by an `accept`, and its descriptor is open. -/
structure Tracked (w : World) : Prop where
  conns {fd c} : w.conns.lookup fd = some c → c.accepted = true ∧ World.isOpen fd w.trace = true
  closesOnce : ClosesOnce w.trace

variable {w w' : World}

/-! ## Steps that open and close nothing

Most of what the event loop does leaves the sockets alone. Such steps may unlink upload files, which
the trace remembers too, and take requests from connections, but no connection comes or goes. -/

/-- There are no new connections, and only files have been unlinked. -/
structure SameSockets (w w' : World) : Prop where
  conns {fd c'} : w'.conns.lookup fd = some c' →
    ∃ c, w.conns.lookup fd = some c ∧ c'.accepted = c.accepted
  trace : ∃ paths : List Bytes, w'.trace = paths.map .unlink ++ w.trace

theorem SameSockets.refl (w : World) : SameSockets w w := ⟨fun hc ↦ ⟨_, hc, rfl⟩, [], rfl⟩

theorem SameSockets.trans {w₁ w₂ w₃ : World} (h : SameSockets w₁ w₂) (h' : SameSockets w₂ w₃) :
    SameSockets w₁ w₃ where
  conns hc := by
    obtain ⟨c₂, hc₂, heq₂⟩ := h'.conns hc
    obtain ⟨c₁, hc₁, heq₁⟩ := h.conns hc₂
    exact ⟨c₁, hc₁, heq₂.trans heq₁⟩
  trace := by
    obtain ⟨paths, htrace⟩ := h.trace
    obtain ⟨paths', htrace'⟩ := h'.trace
    exact ⟨paths' ++ paths, by rw [htrace', htrace, List.map_append, List.append_assoc]⟩

private theorem SameSockets.suffix (h : SameSockets w w') : w.trace <:+ w'.trace := by
  obtain ⟨paths, htrace⟩ := h.trace
  exact ⟨_, htrace.symm⟩

private theorem Tracked.of_sameSockets (h : Tracked w) (hs : SameSockets w w') : Tracked w' := by
  obtain ⟨paths, htrace⟩ := hs.trace
  refine ⟨fun {fd c'} hc' ↦ ?_, ?_⟩
  · obtain ⟨c, hc, heq⟩ := hs.conns hc'
    rw [heq, htrace, isOpen_unlinks]
    exact h.conns hc
  · rw [htrace, closesOnce_unlinks]
    exact h.closesOnce

private theorem sameSockets_of_puts {fd : ℤ} {c c' : Connection} (hc : w.conns.lookup fd = some c)
    (hput : Puts w w' fd c') (haccepted : c'.accepted = c.accepted)
    (htrace : ∃ paths : List Bytes, w'.trace = paths.map .unlink ++ w.trace) :
    SameSockets w w' := by
  refine ⟨fun {k c₁} hc₁ ↦ ?_, htrace⟩
  rw [hput k] at hc₁
  by_cases hk : k = fd
  · rw [if_pos hk, Option.some.injEq] at hc₁
    exact ⟨c, hk ▸ hc, hc₁ ▸ haccepted⟩
  · rw [if_neg hk] at hc₁
    exact ⟨c₁, hc₁, rfl⟩

private theorem sameSockets_updateConn (w : World) (fd : ℤ) {f : Connection → Connection}
    (hf : ∀ c, (f c).accepted = c.accepted) : SameSockets w (w.updateConn fd f) := by
  refine ⟨fun {k c'} hc' ↦ ?_, [], World.trace_updateConn fd f⟩
  rw [World.lookup_updateConn, Option.map_eq_some_iff] at hc'
  obtain ⟨c, hc, rfl⟩ := hc'
  refine ⟨c, hc, ?_⟩
  split
  · exact hf c
  · rfl

private theorem sameSockets_updateRef (w : World) (p : ConnRef) {f : Connection → Connection}
    (hf : ∀ c, (f c).accepted = c.accepted) : SameSockets w (w.updateRef p f) := by
  refine ⟨fun {k c'} hc' ↦ ?_, [], World.trace_updateRef p f⟩
  rw [World.lookup_updateRef, Option.map_eq_some_iff] at hc'
  obtain ⟨c, hc, rfl⟩ := hc'
  refine ⟨c, hc, ?_⟩
  split
  · exact hf c
  · rfl

private theorem sameSockets_updateRequest (w : World) (p : RequestPtr) (f : Request → Request) :
    SameSockets w (w.updateRequest p f) := by
  rw [World.updateRequest]
  split
  · exact .refl w
  · exact sameSockets_updateRef w p.conn fun _ ↦ rfl

private theorem sameSockets_of_eq (hconns : w'.conns = w.conns) (htrace : w'.trace = w.trace) :
    SameSockets w w' := ⟨fun hc ↦ ⟨_, hconns ▸ hc, rfl⟩, [], htrace⟩

private theorem ServeStep.sameSockets {limits : Limits} (h : ServeStep limits w w') :
    SameSockets w w' := by
  cases h with
  | change fd c c' hc hput hown hled => exact sameSockets_of_puts hc hput hown.accepted hled.trace
  | queues hconns hled => exact ⟨fun hc ↦ ⟨_, hconns _ ▸ hc, rfl⟩, hled.trace⟩
  | allocate fd c id i r hc _ hput _ _ _ _ _ _ _ htrace =>
    exact sameSockets_of_puts hc hput rfl ⟨[], htrace⟩
  | record fd c id r rec body out hc _ _ hput hled =>
    exact sameSockets_of_puts hc hput rfl hled.trace
  | dispatch fd c id r p _ _ _ _ hw' =>
    have hincr : SameSockets w
        (w.updateRef p fun c ↦ { c with activeWorkers := c.activeWorkers + 1 }) :=
      sameSockets_updateRef w p fun _ ↦ rfl
    rw [hw']
    exact hincr.trans (sameSockets_of_eq rfl rfl)
  | amend fd c id r r' hc _ _ hput hled => exact sameSockets_of_puts hc hput rfl hled.trace

private theorem Serves.sameSockets {limits : Limits} (h : Serves limits w w') : SameSockets w w' :=
  h.invariant (fun _ _ hstep hs ↦ hs.trans hstep.sameSockets) (.refl w)

variable {cfg : GlobalConfig}

private theorem sameSockets_destroyRequest (fd : ℤ) (id : UInt16) (w : World) :
    SameSockets w (destroyRequest fd id w) := by
  rw [destroyRequest]
  split
  · exact .refl w
  next r _ =>
  have hmark : SameSockets w (w.updateConn fd fun c ↦
      { c with requests := c.requests.insert id { r with released := true } }) :=
    sameSockets_updateConn w fd fun _ ↦ rfl
  simp only
  split
  · exact hmark
  · exact hmark.trans (sameSockets_of_eq rfl rfl)

private theorem sameSockets_releaseRequest (fd : ℤ) (id : UInt16) (w : World) :
    SameSockets w (releaseRequest cfg fd id w) :=
  (sameSockets_destroyRequest fd id w).trans (serves_releaseRequest_tail _).sameSockets

private theorem sameSockets_sweepRequest (fd : ℤ) (w : World) (id : UInt16) :
    SameSockets w (sweepRequest cfg fd w id) := by
  have hrelease (w : World) :
      SameSockets w (eraseRequest fd id (releaseRequest cfg fd id w)) :=
    (sameSockets_releaseRequest fd id w).trans (sameSockets_updateConn _ fd fun _ ↦ rfl)
  rcases sweepRequest_cases cfg fd w id with heq | ⟨r, -, -, ⟨-, heq⟩ | ⟨-, -, heq⟩⟩
  · rw [heq]
    exact .refl w
  · rw [heq]
    exact (serves_finalizeRequest cfg cfg.toLimits fd id w).sameSockets.trans (hrelease _)
  · rw [heq]
    exact hrelease w

variable (cfg) in
theorem sameSockets_cleanupConnectionRequests (fd : ℤ) (w : World) :
    SameSockets w (cleanupConnectionRequests cfg fd w) := by
  have hrequest (w : World) (id : UInt16) : SameSockets w (cleanupRequest cfg fd w id) := by
    rw [cleanupRequest]
    split
    · exact .refl w
    split
    · exact sameSockets_releaseRequest fd id w
    · exact (serves_finalizeRequest cfg cfg.toLimits fd id w).sameSockets.trans
        (sameSockets_releaseRequest fd id _)
  have hall : SameSockets w ((requestIds fd w).foldl (cleanupRequest cfg fd) w) :=
    List.foldlRecOn _ _ (.refl w) fun w' hw' id _ ↦ hw'.trans (hrequest w' id)
  exact hall.trans (sameSockets_updateConn _ fd fun _ ↦ rfl)

/-! ## Steps that open or close

`accept` returns a number that is not open, and `close` is called with the number of a connection
that is then erased. The one step that breaks this is a turn of the drain whose entry has no
connection any more. -/

theorem isOpen_close_of_ne {fd k : ℤ} (h : k ≠ fd) (accepted : Bool) (t : List Syscall) :
    World.isOpen k (.close fd accepted :: t) = World.isOpen k t := by
  rw [World.isOpen, if_neg h.symm]

theorem Tracked.closeConnection (h : Tracked w) (fd : ℤ) : Tracked (closeConnection cfg w fd) := by
  rw [FcgiConn.closeConnection]
  split
  · exact h
  have hclean := h.of_sameSockets (sameSockets_cleanupConnectionRequests cfg fd w)
  set w₁ := cleanupConnectionRequests cfg fd w
  rw [eraseConnection]
  split
  · exact hclean
  next c hc =>
  obtain ⟨haccepted, hopen⟩ := hclean.conns hc
  refine ⟨fun {k c₁} hc₁ ↦ ?_, haccepted, hopen, hclean.closesOnce⟩
  simp only at hc₁ ⊢
  have hk : k ≠ fd := by
    rintro rfl
    rw [AList.lookup_erase] at hc₁
    cases hc₁
  rw [AList.lookup_erase_ne hk] at hc₁
  rw [isOpen_close_of_ne hk]
  exact hclean.conns hc₁

/-- The trace only grows. -/
theorem suffix_closeConnection (w : World) (fd : ℤ) :
    w.trace <:+ (closeConnection cfg w fd).trace := by
  rw [closeConnection]
  split
  · exact List.suffix_refl _
  have hclean := (sameSockets_cleanupConnectionRequests cfg fd w).suffix
  rw [eraseConnection]
  split
  · exact hclean
  · exact hclean.trans (List.suffix_cons _ _)

/-- The entry taken from the close queue still has its connection. -/
def DrainFinds (w : World) (cfd : ℤ) : Prop := (w.conns.lookup cfd).isSome = true

private theorem indexConns_of_some {cfd : ℤ} {c : Connection} (hc : w.conns.lookup cfd = some c) :
    indexConns cfd w = w := by
  rw [indexConns, hc]

theorem Tracked.drainTurn (h : Tracked w) {cfd : ℤ} (hfinds : DrainFinds w cfd) :
    Tracked (drainTurn cfg w cfd) := by
  obtain ⟨c, hc⟩ := Option.isSome_iff_exists.mp hfinds
  rw [FcgiConn.drainTurn, indexConns_of_some hc]
  split
  · exact h.closeConnection cfd
  · exact h

private theorem suffix_drainTurn (w : World) (cfd : ℤ) :
    w.trace <:+ (drainTurn cfg w cfd).trace := by
  have hindex : (indexConns cfd w).trace = w.trace := by
    rw [indexConns]
    split <;> rfl
  rw [drainTurn, ← hindex]
  split
  · exact suffix_closeConnection _ cfd
  · exact List.suffix_refl _

private theorem suffix_drainTurns (cfds : List ℤ) (w : World) :
    w.trace <:+ (cfds.foldl (drainTurn cfg) w).trace := by
  induction cfds generalizing w with
  | nil => exact List.suffix_refl _
  | cons cfd cfds ih => exact (suffix_drainTurn w cfd).trans (ih _)

/-- **A stale entry of the close queue closes a connection nobody accepted.** -/
theorem drainTurn_of_not_finds {cfd : ℤ} (hfinds : ¬DrainFinds w cfd) :
    (drainTurn cfg w cfd).trace = .close cfd false :: w.trace := by
  have hnone : w.conns.lookup cfd = none := by
    rw [DrainFinds, Bool.not_eq_true, Option.isSome_eq_false_iff, Option.isNone_iff_eq_none]
      at hfinds
    exact hfinds
  set phantom : Connection := { cid := w.nextCid, accepted := false } with hphantom
  have hindex : indexConns cfd w = { w.setConn cfd phantom with nextCid := w.nextCid + 1 } := by
    rw [indexConns, hnone]
  have hlookup : (indexConns cfd w).conns.lookup cfd = some phantom := by
    rw [hindex]
    exact (World.lookup_setConn cfd phantom cfd).trans (if_pos rfl)
  have htrace : (indexConns cfd w).trace = w.trace := by
    rw [hindex]
    rfl
  -- a connection without requests, workers and output may be closed
  have hclose : ((indexConns cfd w).conns.lookup cfd).any shouldCloseConnection = true := by
    rw [hlookup]
    rfl
  have hids : requestIds cfd (indexConns cfd w) = [] := by
    rw [requestIds, hlookup]
    rfl
  rw [drainTurn]
  rw [if_pos hclose, closeConnection, hlookup]
  simp only
  rw [cleanupConnectionRequests, hids, List.foldl_nil, eraseConnection, World.lookup_updateConn,
    hlookup, Option.map_some, if_pos rfl]
  simp only
  rw [World.trace_updateConn, htrace]

/-! ## Runs

Every other handler keeps the connections and the open descriptors together whatever is in the close
queue. So the condition speaks of the drains alone, and each of them is asked about its own entries.
-/

section

variable (cfg)

/-- The close queue holds no stale entry when it is drained. -/
def CloseQueueFresh (w : World) : Event → Prop
  | .io fd events data ending =>
    (w.conns.lookup fd).isSome →
      let swept := queueClose fd (sweep cfg fd (serveIo cfg fd events data ending w))
      Meets (drainTurn cfg) DrainFinds { swept with closeQueue := [] } swept.closeQueue
  | _ => True

end

variable {app : Application}

private theorem sameSockets_queueClose (fd : ℤ) (w : World) : SameSockets w (queueClose fd w) := by
  rw [queueClose]
  split
  · exact sameSockets_of_eq rfl rfl
  · exact .refl w

variable (cfg) in
private theorem sameSockets_beforeDrain (fd : ℤ) (events : IoEvents) (data : Bytes)
    (ending : RecvEnd) (w : World) :
    SameSockets w (queueClose fd (sweep cfg fd (serveIo cfg fd events data ending w))) := by
  have hsweep : SameSockets (serveIo cfg fd events data ending w)
      (sweep cfg fd (serveIo cfg fd events data ending w)) :=
    List.foldlRecOn _ _ (.refl _) fun w' hw' id _ ↦ hw'.trans (sameSockets_sweepRequest fd w' id)
  exact ((serves_serveIo cfg fd events data ending w).sameSockets.trans hsweep).trans
    (sameSockets_queueClose fd _)

private theorem tracked_initial (bases : List UInt64) (capacity : UInt64) :
    Tracked (initial bases capacity) := by
  refine ⟨fun {fd c} hc ↦ ?_, trivial⟩
  rw [initial, AList.lookup_empty] at hc
  cases hc

theorem Tracked.acceptConnection (h : Tracked w) {cfd : ℤ} (hclosed : ¬World.isOpen cfd w.trace) :
    Tracked (acceptConnection cfd w) := by
  -- a number that is not open has no connection
  have hnone : w.conns.lookup cfd = none := by
    by_contra hsome
    obtain ⟨c, hc⟩ := Option.ne_none_iff_exists'.mp hsome
    exact hclosed (h.conns hc).2
  rw [FcgiConn.acceptConnection, hnone]
  refine ⟨fun {k c} hc ↦ ?_, h.closesOnce⟩
  simp only at hc ⊢
  rw [World.lookup_setConn] at hc
  rw [World.isOpen]
  by_cases hk : k = cfd
  · rw [if_pos hk, Option.some.injEq] at hc
    rw [if_pos hk.symm, ← hc]
    exact ⟨rfl, rfl⟩
  · rw [if_neg hk] at hc
    rw [if_neg (Ne.symm hk)]
    exact h.conns hc

theorem Tracked.handleNewConnections (h : Tracked w) (cfds : List ℤ) :
    Tracked (handleNewConnections cfds w) :=
  handleNewConnections_invariant (fun _ hw ↦ hw.of_sameSockets (sameSockets_of_eq rfl rfl))
    (fun _ _ hclosed hw ↦ hw.acceptConnection hclosed) h cfds

theorem Tracked.housekeepingCloseIdle (h : Tracked w) : Tracked (housekeepingCloseIdle cfg w) := by
  have htimeout (w : World) (fd : ℤ) (id : UInt16) :
      SameSockets w (timeoutRequest cfg fd w id) := by
    refine sameSockets_updateConn w fd fun c ↦ ?_
    split
    · rfl
    · split <;> rfl
  have htimeouts : SameSockets w (w.conns.keys.foldl (timeoutRequests cfg) w) := by
    refine List.foldlRecOn _ _ (.refl w) fun w₁ hw₁ fd _ ↦ hw₁.trans ?_
    exact List.foldlRecOn _ _ (.refl w₁) fun w₂ hw₂ id _ ↦ hw₂.trans (htimeout w₂ fd id)
  exact List.foldlRecOn _ _ (h.of_sameSockets htimeouts) fun w' hw' fd _ ↦ hw'.closeConnection fd

private theorem sameSockets_processPendingOutput (w : World) :
    SameSockets w (processPendingOutput app w) := by
  have hempty : SameSockets w { w with pendingOutput := [] } := sameSockets_of_eq rfl rfl
  refine List.foldlRecOn _ _ hempty fun w' hw' p _ ↦ hw'.trans ?_
  rcases answerPending_cases app w' p with heq | ⟨r, c, offset, -, -, -, -, heq⟩
  · rw [heq]
    exact .refl w'
  · rw [heq]
    refine (sameSockets_updateRequest w' p _).trans (sameSockets_updateRef _ p.conn fun c ↦ ?_)
    obtain ⟨epollOut, wanted, hanswer⟩ := appendAnswer_eq (onRequestReady app r offset).2 c
    rw [hanswer]

private theorem sameSockets_workerStep (k : ℕ) (w : World) :
    SameSockets w (workerStep app k w) := by
  have hphase (ts : List Task) : SameSockets w { w with tasks := ts } := sameSockets_of_eq rfl rfl
  rcases workerStep_cases app k w with
    heq | ⟨t, -, ⟨ph, -, heq⟩ | ⟨-, heq⟩ | ⟨-, heq⟩ | ⟨-, heq⟩⟩
  · rw [heq]
    exact .refl w
  · rw [heq]
    exact hphase _
  · rw [heq]
    exact ((hphase _).trans (sameSockets_updateRequest _ _ _)).trans (sameSockets_of_eq rfl rfl)
  · rw [heq]
    exact (hphase _).trans (sameSockets_updateRequest _ _ _)
  · rw [heq]
    have hdecr : SameSockets w
        (w.updateRef t.request.conn fun c ↦ { c with activeWorkers := c.activeWorkers - 1 }) :=
      sameSockets_updateRef w _ fun _ ↦ rfl
    exact hdecr.trans (sameSockets_of_eq rfl rfl)

/-- One event keeps the connections and their descriptors together. -/
theorem Tracked.step (h : Tracked w) (e : Event) (hfresh : CloseQueueFresh cfg w e) :
    Tracked (step cfg app w e) := by
  cases e with
  | io fd events data ending =>
    rw [FcgiConn.step, handleIo]
    split
    · exact h
    next c hc =>
    have hmeets := hfresh (by rw [hc, Option.isSome_some])
    set swept := queueClose fd (sweep cfg fd (serveIo cfg fd events data ending w))
    have hswept : Tracked swept :=
      h.of_sameSockets (sameSockets_beforeDrain cfg fd events data ending w)
    have hemptied : SameSockets swept { swept with closeQueue := [] } := sameSockets_of_eq rfl rfl
    exact hmeets.foldl (fun _ _ hw hfinds ↦ hw.drainTurn hfinds) (hswept.of_sameSockets hemptied)
  | housekeeping => exact h.housekeepingCloseIdle
  | pendingOutput => exact h.of_sameSockets (sameSockets_processPendingOutput w)
  | accept cfds => exact h.handleNewConnections cfds
  | worker k => exact h.of_sameSockets (sameSockets_workerStep k w)
  | outside elapsed sends => exact h.of_sameSockets (sameSockets_of_eq rfl rfl)
  | wsTake =>
    rw [FcgiConn.step]
    split
    · exact h
    · exact h.of_sameSockets (sameSockets_of_eq rfl rfl)
  | wsReturn k =>
    rw [FcgiConn.step]
    split
    · exact h
    · exact h.of_sameSockets (sameSockets_of_eq rfl rfl)
  | rehash fds fd ids =>
    have hfds : SameSockets w { w with conns := reorder w.conns fds } :=
      ⟨fun hc ↦ ⟨_, (lookup_reorder w.conns fds _) ▸ hc, rfl⟩, [], rfl⟩
    exact h.of_sameSockets (hfds.trans (sameSockets_updateConn _ fd fun _ ↦ rfl))

/-- Draining a queue with a stale entry closes a connection nobody accepted. -/
theorem not_closesOnce_drain (cfds : List ℤ) (h : Tracked w)
    (hstale : ¬Meets (drainTurn cfg) DrainFinds w cfds) :
    ¬ClosesOnce (cfds.foldl (drainTurn cfg) w).trace := by
  induction cfds generalizing w with
  | nil => exact absurd trivial hstale
  | cons cfd cfds ih =>
    rw [List.foldl_cons]
    by_cases hfinds : DrainFinds w cfd
    · exact ih (h.drainTurn hfinds) fun hmeets ↦ hstale ⟨hfinds, hmeets⟩
    · intro honce
      have hclose := honce.of_suffix (suffix_drainTurns cfds _)
      rw [drainTurn_of_not_finds hfinds] at hclose
      exact absurd hclose.1 Bool.false_ne_true

/-- **Every descriptor is closed once, and none that was not accepted, exactly as long as the close
queue holds no stale entries.** -/
theorem always_closesOnce_iff (cfg : GlobalConfig) (app : Application) (bases : List UInt64)
    (capacity : UInt64) (events : List Event) :
    Always (FcgiConn.step cfg app) DescriptorsSafe (initial bases capacity) events
      ↔ Meets (FcgiConn.step cfg app) (CloseQueueFresh cfg) (initial bases capacity) events := by
  refine always_iff_meets_of_guarded (fun _ hw ↦ hw.closesOnce)
    (fun _ e hw hfresh ↦ hw.step e hfresh) (fun w e hw hstale ↦ ?_)
    (tracked_initial bases capacity)
  cases e with
  | io fd events data ending =>
    rw [CloseQueueFresh, Classical.not_imp] at hstale
    obtain ⟨hsome, hstale⟩ := hstale
    obtain ⟨c, hc⟩ := Option.isSome_iff_exists.mp hsome
    have hqueued := hw.of_sameSockets (sameSockets_beforeDrain cfg fd events data ending w)
    rw [FcgiConn.step, handleIo, hc]
    exact not_closesOnce_drain _ ⟨hqueued.conns, hqueued.closesOnce⟩ hstale
  | housekeeping => exact absurd trivial hstale
  | pendingOutput => exact absurd trivial hstale
  | accept cfds => exact absurd trivial hstale
  | worker k => exact absurd trivial hstale
  | outside elapsed sends => exact absurd trivial hstale
  | wsTake => exact absurd trivial hstale
  | wsReturn k => exact absurd trivial hstale
  | rehash fds fd ids => exact absurd trivial hstale

def connectAndClose : List Event := [.accept [5], .io 5 ⟨true, false, false⟩ [] .eof]

/-- A peer that connects and closes: its descriptor is closed twice. -/
theorem not_always_closesOnce_connectAndClose :
    ¬Always (step {} ⟨fun r ↦ r, fun _ ↦ []⟩) DescriptorsSafe (initial [0x10000] 0x10000)
      connectAndClose := by
  intro h
  have htrace : (connectAndClose.foldl (step {} ⟨fun r ↦ r, fun _ ↦ []⟩)
      (initial [0x10000] 0x10000)).trace = [.close 5 false, .close 5 true, .accept 5] := by
    decide +kernel
  generalize connectAndClose = events at h htrace
  have honce := h.last
  rw [DescriptorsSafe, htrace] at honce
  exact absurd honce.1 Bool.false_ne_true

end Wasapi.FcgiConn
