import Wasapi.FcgiConn.Actions
import Wasapi.FcgiConn.ResponseQueue

/-!
# When the server closes a connection

The peer's faults (a hang-up, the end of its input, a socket error, a record that is not of version
1) set `closed`, and nothing else does. A connection that is not `closed` is nevertheless closed by
the server when `should_close_connection` says so, and that looks at the requests in the map, at the
output and at the workers only.

So it forgets what is not in the map: the octets of a record that has not arrived in full, a
BEGIN_REQUEST for which there was no arena, and the KEEP_CONN flags of the answered requests, which
the sweep erases just before the question is asked. `AtChecks` and `AtCloses` observe the moments at
which the question is asked and at which connections are closed.

A connection is `Occupied` if something the question looks at speaks against closing it. Which
connections will be when they are asked about is told beforehand in `Wasapi.FcgiConn.Engaged`.
-/

namespace Wasapi.FcgiConn

open Fastcgi

variable {cfg : GlobalConfig} {app : Application} {w w' : World}

/-! ## Why a connection is `closed`

`closed` is set by what the peer does: it hangs up, it ends its output, its socket fails, or it
sends a record of another version. It is never cleared, and no other action sets it. -/

/-- The action finds the peer of the connection at `k` at fault. -/
def Action.Faults (w : World) (k : ℤ) : Action → Prop
  | .hangUp fd => fd = k
  | .read fd _ ending => fd = k ∧ ending ≠ .again
  | .process fd => fd = k ∧ ∃ c ∈ w.conns.lookup fd, badVersion (recordFramer.rest c.inBuf) = true
  | .flush fd => fd = k ∧ .error ∈ w.sends
  | _ => False

/-- As `closed` as before. -/
def SameClosed (c c' : Connection) : Prop := c'.closed = c.closed

theorem SameClosed.refl (c : Connection) : SameClosed c c := rfl

/-- No connection becomes `closed`. -/
def KeepsOpen (w w' : World) : Prop :=
  ∀ k c', w'.conns.lookup k = some c' → c'.closed = true →
    ∃ c, w.conns.lookup k = some c ∧ c.closed = true

theorem KeepsOpen.refl (w : World) : KeepsOpen w w := fun _ c' hc' hclosed ↦ ⟨c', hc', hclosed⟩

theorem KeepsOpen.trans {w₁ w₂ w₃ : World} (h : KeepsOpen w₁ w₂) (h' : KeepsOpen w₂ w₃) :
    KeepsOpen w₁ w₃ := by
  intro k c₃ hc₃ hclosed₃
  obtain ⟨c₂, hc₂, hclosed₂⟩ := h' k c₃ hc₃ hclosed₃
  exact h k c₂ hc₂ hclosed₂

theorem KeepsOpen.of_lookup (hconns : ∀ k, w'.conns.lookup k = w.conns.lookup k) :
    KeepsOpen w w' := fun k c' hc' hclosed ↦ ⟨c', (hconns k).symm.trans hc', hclosed⟩

theorem KeepsOpen.of_evolves (h : Evolves SameClosed w w') : KeepsOpen w w' := by
  intro k c' hc' hclosed
  obtain ⟨c, hc, heq⟩ := h.lookup_left hc'
  exact ⟨c, hc, heq.symm.trans hclosed⟩

private theorem keepsOpen_updateConn (w : World) (fd : ℤ) {f : Connection → Connection}
    (hf : ∀ c, (f c).closed = c.closed) : KeepsOpen w (w.updateConn fd f) :=
  .of_evolves (evolves_updateConn .refl w fd fun c _ ↦ hf c)

private theorem keepsOpen_updateRef (w : World) (p : ConnRef) {f : Connection → Connection}
    (hf : ∀ c, (f c).closed = c.closed) : KeepsOpen w (w.updateRef p f) :=
  .of_evolves (evolves_updateRef .refl w p fun c _ ↦ hf c)

private theorem keepsOpen_updateRequest (w : World) (p : RequestPtr) (f : Request → Request) :
    KeepsOpen w (w.updateRequest p f) := by
  rw [World.updateRequest]
  split
  · exact .refl w
  · exact keepsOpen_updateRef w p.conn fun _ ↦ rfl

private theorem keepsOpen_new {fd : ℤ} {c : Connection} (hconns : w'.conns = w.conns.insert fd c)
    (hopen : c.closed = false) : KeepsOpen w w' := by
  intro k c' hc' hclosed
  rw [hconns] at hc'
  by_cases hk : k = fd
  · rw [hk, AList.lookup_insert, Option.some.injEq] at hc'
    rw [← hc', hopen] at hclosed
    cases hclosed
  · rw [AList.lookup_insert_ne hk] at hc'
    exact ⟨c', hc', hclosed⟩

private theorem keepsOpen_timeoutRequests (cfg : GlobalConfig) (fd : ℤ) (w : World) :
    KeepsOpen w (timeoutRequests cfg w fd) := by
  refine List.foldlRecOn _ _ (KeepsOpen.refl w) fun w' hw' id _ ↦ hw'.trans ?_
  refine keepsOpen_updateConn w' fd fun c ↦ ?_
  split
  · rfl
  · split <;> rfl

private theorem keepsOpen_processPendingOutput (app : Application) (w : World) :
    KeepsOpen w (processPendingOutput app w) := by
  have hempty : KeepsOpen w { w with pendingOutput := [] } := .of_lookup fun _ ↦ rfl
  refine List.foldlRecOn _ _ hempty fun w' hw' p _ ↦ KeepsOpen.trans hw' ?_
  rcases answerPending_cases app w' p with heq | ⟨r, c, offset, -, -, -, -, heq⟩
  · rw [heq]
    exact .refl w'
  · rw [heq]
    refine (keepsOpen_updateRequest w' p _).trans (keepsOpen_updateRef _ p.conn fun c ↦ ?_)
    obtain ⟨epollOut, wanted, hanswer⟩ := appendAnswer_eq (onRequestReady app r offset).2 c
    rw [hanswer]

private theorem keepsOpen_workerStep (app : Application) (k : ℕ) (w : World) :
    KeepsOpen w (workerStep app k w) := by
  rcases workerStep_cases app k w with
    heq | ⟨t, -, ⟨ph, -, heq⟩ | ⟨-, heq⟩ | ⟨-, heq⟩ | ⟨-, heq⟩⟩
  · rw [heq]
    exact .refl w
  · rw [heq]
    exact .of_lookup fun _ ↦ rfl
  · rw [heq]
    exact keepsOpen_updateRequest { w with tasks := _ } _ _
  · rw [heq]
    exact keepsOpen_updateRequest { w with tasks := _ } _ _
  · rw [heq]
    exact keepsOpen_updateRef w _ fun _ ↦ rfl

private theorem keepsOpen_acceptConnection (cfd : ℤ) (w : World) :
    KeepsOpen w (acceptConnection cfd w) := by
  rw [acceptConnection]
  cases hc : w.conns.lookup cfd with
  | some c => exact .of_evolves (.of_puts .refl hc (puts_of_conns rfl) rfl)
  | none => exact keepsOpen_new rfl rfl

private theorem keepsOpen_finalizeRequest (cfg : GlobalConfig) (fd : ℤ) (id : UInt16) (w : World) :
    KeepsOpen w (finalizeRequest cfg fd id w) := by
  rw [finalizeRequest]
  split
  · exact .refl w
  next r _ =>
  exact keepsOpen_updateConn w fd fun c ↦ rfl

private theorem keepsOpen_destroyRequest (fd : ℤ) (id : UInt16) (w : World) :
    KeepsOpen w (destroyRequest fd id w) := by
  rw [destroyRequest]
  split
  · exact .refl w
  next r _ =>
  have hmark : KeepsOpen w (w.updateConn fd fun c ↦
      { c with requests := c.requests.insert id { r with released := true } }) :=
    keepsOpen_updateConn w fd fun _ ↦ rfl
  simp only
  split
  · exact hmark
  · exact hmark

private theorem keepsOpen_eraseConnection (fd : ℤ) (w : World) :
    KeepsOpen w (eraseConnection fd w) := by
  rw [eraseConnection]
  split
  · exact .refl w
  · intro k c' hc' hclosed
    by_cases hk : k = fd
    · rw [hk, AList.lookup_erase] at hc'
      cases hc'
    · rw [AList.lookup_erase_ne hk] at hc'
      exact ⟨c', hc', hclosed⟩

/-- **Close reasons.** Only a fault of the peer makes a connection `closed`. -/
theorem closed_act (a : Action) {k : ℤ} {c' : Connection}
    (hc' : (act cfg app w a).conns.lookup k = some c') (hclosed : c'.closed = true) :
    (∃ c, w.conns.lookup k = some c ∧ c.closed = true) ∨ a.Faults w k := by
  have hkeeps (h : KeepsOpen w (act cfg app w a)) :
      (∃ c, w.conns.lookup k = some c ∧ c.closed = true) ∨ a.Faults w k :=
    .inl (h k c' hc' hclosed)
  cases a with
  | hangUp fd =>
    rw [act, World.lookup_updateConn, Option.map_eq_some_iff] at hc'
    obtain ⟨c, hc, rfl⟩ := hc'
    by_cases hk : k = fd
    · exact .inr hk.symm
    · rw [if_neg hk] at hclosed
      exact .inl ⟨c, hc, hclosed⟩
  | read fd data ending =>
    rw [act, readAll, World.lookup_updateConn, Option.map_eq_some_iff] at hc'
    obtain ⟨c, hc, rfl⟩ := hc'
    by_cases hk : k = fd
    · rw [if_pos hk] at hclosed
      simp only [Bool.or_eq_true, decide_eq_true_eq] at hclosed
      exact hclosed.imp (fun hclosed ↦ ⟨c, hc, hclosed⟩) fun hending ↦ ⟨hk.symm, hending⟩
    · rw [if_neg hk] at hclosed
      exact .inl ⟨c, hc, hclosed⟩
  | process fd =>
    obtain ⟨c, n, hc, -, ⟨-, rfl⟩ | ⟨rfl, -, rfl⟩⟩ := processFcgi_cases cfg hc'
    · exact .inl ⟨c, hc, hclosed⟩
    · simp only [decide_eq_true_eq] at hclosed
      rw [processed, processBuffer_eq] at hclosed
      refine .inr ⟨rfl, c, hc, ?_⟩
      by_contra hgood
      simp only [hgood] at hclosed
      split at hclosed <;> cases hclosed
  | flush fd =>
    obtain ⟨c, hc, hflushed, heq⟩ := flushed_flushConnection hc'
    by_cases hk : k = fd
    · exact (hflushed.closed hclosed).imp (fun h ↦ ⟨c, hc, h⟩) fun herror ↦ ⟨hk.symm, herror⟩
    · rw [heq hk] at hclosed
      exact .inl ⟨c, hc, hclosed⟩
  | timeouts fd => exact hkeeps (keepsOpen_timeoutRequests cfg fd w)
  | pendingOutput => exact hkeeps (keepsOpen_processPendingOutput app w)
  | finalize fd id => exact hkeeps (keepsOpen_finalizeRequest cfg fd id w)
  | destroy fd id => exact hkeeps (keepsOpen_destroyRequest fd id w)
  | erase fd id => exact hkeeps (keepsOpen_updateConn w fd fun c ↦ rfl)
  | clear fd => exact hkeeps (keepsOpen_updateConn w fd fun c ↦ rfl)
  | close fd => exact hkeeps (keepsOpen_eraseConnection fd w)
  | index fd =>
    refine hkeeps ?_
    rw [act, indexConns]
    split
    · exact .refl w
    · exact keepsOpen_new rfl rfl
  | accept cfd => exact hkeeps (keepsOpen_acceptConnection cfd w)
  | worker i => exact hkeeps (keepsOpen_workerStep app i w)
  | outside elapsed sends => exact hkeeps (.of_lookup fun _ ↦ rfl)
  | wsTake =>
    refine hkeeps ?_
    rw [act, step]
    split
    · exact .refl w
    · exact .of_lookup fun _ ↦ rfl
  | wsReturn i =>
    refine hkeeps ?_
    rw [act, step]
    split
    · exact .refl w
    · exact .of_lookup fun _ ↦ rfl
  | rehash fds fd ids =>
    have hreorder : KeepsOpen w { w with conns := reorder w.conns fds } :=
      .of_lookup fun k ↦ lookup_reorder w.conns fds k
    exact hkeeps (hreorder.trans (keepsOpen_updateConn _ fd fun c ↦ rfl))
  | queues closeQueue waitingConns acceptPaused => exact hkeeps (.of_lookup fun _ ↦ rfl)

/-! ## The question and its consequences

The question is asked at the end of `handle_io`, of the connections in the close queue, and by
housekeeping. Housekeeping asks about all connections before it closes the first, and then closes
without asking again. -/

/-- Something in the connection that `should_close_connection` looks at speaks against closing it:
an unanswered request, one with KEEP_CONN, output that has not been sent, or a worker. -/
def Occupied (c : Connection) : Prop :=
  (∃ e ∈ c.requests.entries, e.2.flags.responded = false ∨ e.2.flags.keepConnection = true) ∨
    c.outPos ≠ c.outBuf.length ∨ c.activeWorkers ≠ 0

instance (c : Connection) : Decidable (Occupied c) := by
  unfold Occupied
  infer_instance

theorem shouldCloseConnection_iff {c : Connection} (hopen : c.closed = false) :
    shouldCloseConnection c = true ↔ ¬Occupied c := by
  rw [shouldCloseConnection, hopen, if_neg Bool.false_ne_true, Bool.and_eq_true, Bool.and_eq_true,
    List.all_eq_true, Occupied, not_or, not_or, not_ne_iff, not_ne_iff, and_assoc,
    decide_eq_true_eq, decide_eq_true_eq]
  refine and_congr_left' ?_
  push Not
  refine forall₂_congr fun e _ ↦ ?_
  cases e.2.flags.responded <;> cases e.2.flags.keepConnection <;> decide

section Moments

variable (cfg)

/-- `P` holds whenever an event asks whether to close a connection and would then close it. -/
def AtChecks (P : World → ℤ → Prop) (w : World) : Event → Prop
  | .io fd events data ending =>
    (w.conns.lookup fd).isSome →
      let swept := queueClose fd (sweep cfg fd (serveIo cfg fd events data ending w))
      Meets (drainTurn cfg) (fun w cfd ↦ P (indexConns cfd w) cfd) { swept with closeQueue := [] }
        swept.closeQueue
  | .housekeeping =>
    let w := w.conns.keys.foldl (timeoutRequests cfg) w
    ∀ fd ∈ w.conns.keys, P w fd
  | _ => True

/-- `P` holds whenever an event closes a connection. -/
def AtCloses (P : World → ℤ → Prop) (w : World) : Event → Prop
  | .io fd events data ending =>
    (w.conns.lookup fd).isSome →
      let swept := queueClose fd (sweep cfg fd (serveIo cfg fd events data ending w))
      Meets (drainTurn cfg) (fun w cfd ↦
          ((indexConns cfd w).conns.lookup cfd).any shouldCloseConnection = true →
            P (indexConns cfd w) cfd)
        { swept with closeQueue := [] } swept.closeQueue
  | .housekeeping =>
    let w := w.conns.keys.foldl (timeoutRequests cfg) w
    Meets (closeConnection cfg) P w
      (w.conns.keys.filter fun fd ↦ (w.conns.lookup fd).any shouldCloseConnection)
  | _ => True

instance (P : World → ℤ → Prop) [∀ w fd, Decidable (P w fd)] (w : World) (e : Event) :
    Decidable (AtChecks cfg P w e) := by
  rcases e with _ | _ <;> dsimp only [AtChecks] <;> infer_instance

instance (P : World → ℤ → Prop) [∀ w fd, Decidable (P w fd)] (w : World) (e : Event) :
    Decidable (AtCloses cfg P w e) := by
  rcases e with _ | _ <;> dsimp only [AtCloses] <;> infer_instance

end Moments

/-! ## Records that have not been handled

What is left in `in_buf` speaks for keeping the connection, and the question does not look there. So
the property is lost at the first check of a connection of which nothing but such octets is left. -/

/-- The connection waits for the rest of a record, or for an arena: behind `process_buffer` only a
record that has not arrived in full or a deferred one leaves octets in `in_buf`. -/
def Unfinished (c : Connection) : Prop := c.inBuf ≠ [] ∨ c.waitingForArena = true

instance (c : Connection) : Decidable (Unfinished c) := by
  unfold Unfinished
  infer_instance

/-- The connection at `fd` is neither open nor unfinished at once. -/
def SparesUnfinished (w : World) (fd : ℤ) : Prop :=
  ∀ c ∈ w.conns.lookup fd, c.closed = false → ¬Unfinished c

/-- If the connection at `fd` is open and unfinished, it is occupied too. -/
def OccupiedIfUnfinished (w : World) (fd : ℤ) : Prop :=
  ∀ c ∈ w.conns.lookup fd, c.closed = false → Unfinished c → Occupied c

instance (w : World) (fd : ℤ) : Decidable (SparesUnfinished w fd) := by
  unfold SparesUnfinished
  infer_instance

private theorem SparesUnfinished.of_keeps {k : ℤ} (h : SparesUnfinished w k)
    (hconns : ∀ c', w'.conns.lookup k = some c' → c'.closed = false →
      ∃ c, w.conns.lookup k = some c ∧ c.closed = false ∧ c'.inBuf = c.inBuf ∧
        c'.waitingForArena = c.waitingForArena) : SparesUnfinished w' k := by
  intro c' hc' hopen
  obtain ⟨c, hc, hopen', hin, hwaiting⟩ := hconns c' hc' hopen
  rw [Unfinished, hin, hwaiting]
  exact h c hc hopen'

private theorem sparesUnfinished_updateConn {k : ℤ} (h : SparesUnfinished w k) (fd : ℤ)
    {f : Connection → Connection} (hf : ∀ c, (f c).closed = c.closed ∧ (f c).inBuf = c.inBuf ∧
      (f c).waitingForArena = c.waitingForArena) : SparesUnfinished (w.updateConn fd f) k := by
  refine h.of_keeps fun c' hc' hopen ↦ ?_
  rw [World.lookup_updateConn, Option.map_eq_some_iff] at hc'
  obtain ⟨c, hc, rfl⟩ := hc'
  refine ⟨c, hc, ?_⟩
  split at hopen
  · next hk =>
    obtain ⟨hclosed, hin, hwaiting⟩ := hf c
    rw [if_pos hk, ← hclosed]
    exact ⟨hopen, hin, hwaiting⟩
  · next hk =>
    rw [if_neg hk]
    exact ⟨hopen, rfl, rfl⟩

/-- **A finished connection stays finished** while requests are released and connections closed. -/
theorem SparesUnfinished.releasing {k : ℤ} (h : SparesUnfinished w k) {a : Action}
    (ha : a.Releasing) : SparesUnfinished (act cfg app w a) k := by
  cases ha with
  | serving ha =>
    cases ha with
    | process fd =>
      intro c' hc' hopen
      obtain ⟨c, n, hc, -, ⟨-, rfl⟩ | ⟨rfl, hopen', rfl⟩⟩ := processFcgi_cases cfg hc'
      · exact h c hc hopen
      · -- nothing is left to handle
        have hfinished := h c hc hopen'
        rw [Unfinished, not_or, not_ne_iff] at hfinished
        have hnone : recordFramer.next c.inBuf = none := by
          rw [hfinished.1]
          exact recordFramer.next_nil
        rw [Unfinished, processed, processBuffer_eq, Framer.frames_of_none hnone,
          Framer.rest_of_none hnone, runRecords_nil]
        simp [hfinished.1]
    | flush fd =>
      refine h.of_keeps fun c' hc' hopen ↦ ?_
      obtain ⟨c, hc, hflushed, -⟩ := flushed_flushConnection hc'
      refine ⟨c, hc, ?_, hflushed.inBuf, hflushed.waitingForArena⟩
      refine Bool.eq_false_iff.mpr fun hclosed ↦ ?_
      rw [hflushed.keepsClosed hclosed] at hopen
      cases hopen
    | finalize fd id =>
      rw [act, finalizeRequest]
      split
      · exact h
      · exact sparesUnfinished_updateConn h fd fun _ ↦ ⟨rfl, rfl, rfl⟩
    | destroy fd id =>
      rw [act, destroyRequest]
      split
      · exact h
      next r _ =>
      have hmark : SparesUnfinished (w.updateConn fd fun c ↦
          { c with requests := c.requests.insert id { r with released := true } }) k :=
        sparesUnfinished_updateConn h fd fun _ ↦ ⟨rfl, rfl, rfl⟩
      simp only
      split
      · exact hmark
      · exact hmark
    | queues closeQueue waitingConns acceptPaused => exact h
  | erase fd id => exact sparesUnfinished_updateConn h fd fun _ ↦ ⟨rfl, rfl, rfl⟩
  | clear fd => exact sparesUnfinished_updateConn h fd fun _ ↦ ⟨rfl, rfl, rfl⟩
  | close fd =>
    rw [act, eraseConnection]
    split
    · exact h
    · refine h.of_keeps fun c' hc' hopen ↦ ?_
      by_cases hk : k = fd
      · rw [hk, AList.lookup_erase] at hc'
        cases hc'
      · rw [AList.lookup_erase_ne hk] at hc'
        exact ⟨c', hc', hopen, rfl, rfl⟩

theorem SparesUnfinished.closeConnection {k : ℤ} (h : SparesUnfinished w k) (fd : ℤ) :
    SparesUnfinished (closeConnection cfg w fd) k :=
  (acts_closeConnection cfg silent w fd).invariant (I := fun w ↦ SparesUnfinished w k)
    (fun _ _ ha hw ↦ hw.releasing ha) h

/-- What is asked of a connection that is about to be closed. -/
theorem OccupiedIfUnfinished.spares {fd : ℤ} (h : OccupiedIfUnfinished w fd)
    (hclose : (w.conns.lookup fd).any shouldCloseConnection = true) : SparesUnfinished w fd := by
  intro c hc hopen hunfinished
  rw [Option.mem_def.mp hc, Option.any_some, shouldCloseConnection_iff hopen] at hclose
  exact hclose (h c hc hopen hunfinished)

/-- The connections housekeeping has decided to close are closed one by one. -/
theorem meets_sparesUnfinished {fds : List ℤ} (h : ∀ fd ∈ fds, SparesUnfinished w fd) :
    Meets (closeConnection cfg) SparesUnfinished w fds :=
  meets_of_forall_mem (J := fun k w ↦ SparesUnfinished w k) (fun _ fd _ hw ↦ hw.closeConnection fd)
    (fun _ _ hw ↦ hw) h

/-- One event spares the unfinished connections. -/
theorem atCloses_of_atChecks {e : Event} (h : AtChecks cfg OccupiedIfUnfinished w e) :
    AtCloses cfg SparesUnfinished w e := by
  cases e with
  | io fd events data ending =>
    exact fun hsome ↦ (h hsome).mono fun w cfd hoccupied hclose ↦ hoccupied.spares hclose
  | housekeeping =>
    refine meets_sparesUnfinished fun fd hfd ↦ ?_
    obtain ⟨hmem, hclose⟩ := List.mem_filter.mp hfd
    exact OccupiedIfUnfinished.spares (h fd hmem) hclose
  | _ => exact trivial

/-- The first octet of a record arrives, and nothing else has. -/
def firstRecordBegun : List Event := [.accept [5], .io 5 ⟨true, false, false⟩ [1] .again]

section KeepConn

variable (cfg app)

/-- What the sweep of the connection at `fd` is about to forget of a request: its connection and its
flags. -/
def sweptRequest (fd : ℤ) (w : World) (id : UInt16) : List (ConnRef × RequestFlags) :=
  match w.conns.lookup fd with
  | none => []
  | some c =>
    match c.requests.lookup id with
    | none => []
    | some r =>
      if !r.workerActive && (r.flags.responded || r.flags.failed || r.flags.aborted) then
        [(⟨fd, c.cid⟩, r.flags)]
      else []

def sweptRequests (fd : ℤ) : World → List UInt16 → List (ConnRef × RequestFlags)
  | _, [] => []
  | w, id :: ids => sweptRequest fd w id ++ sweptRequests fd (sweepRequest cfg fd w id) ids

/-- The requests an event sweeps from the maps of connections. -/
def swept (w : World) : Event → List (ConnRef × RequestFlags)
  | .io fd events data ending =>
    if (w.conns.lookup fd).isSome then
      let served := serveIo cfg fd events data ending w
      sweptRequests cfg fd served (requestIds fd served)
    else []
  | _ => []

/-- A step of a run that remembers the requests it has swept. -/
def remember (s : World × List (ConnRef × RequestFlags)) (e : Event) :
    World × List (ConnRef × RequestFlags) :=
  (step cfg app s.1 e, s.2 ++ swept cfg s.1 e)

/-- Every request answered on the connection so far carried KEEP_CONN, be it still in the map or
swept from it. -/
def AllKeepConn (swept : List (ConnRef × RequestFlags)) (fd : ℤ) (c : Connection) : Prop :=
  (∀ s ∈ swept, s.1 = ⟨fd, c.cid⟩ → s.2.responded = true → s.2.keepConnection = true) ∧
    ∀ e ∈ c.requests.entries, e.2.flags.responded = true → e.2.flags.keepConnection = true

/-- The connection at `fd` is not to be closed if it is open and every request answered on it
carried KEEP_CONN. -/
def HonoursKeepConn (swept : List (ConnRef × RequestFlags)) (w : World) (fd : ℤ) : Prop :=
  ∀ c ∈ w.conns.lookup fd, c.accepted = true → c.closed = false → AllKeepConn swept fd c →
    shouldCloseConnection c = false

instance (swept : List (ConnRef × RequestFlags)) (w : World) (fd : ℤ) :
    Decidable (HonoursKeepConn swept w fd) := by
  unfold HonoursKeepConn AllKeepConn
  infer_instance

end KeepConn

/-- At every check of the event KEEP_CONN is honoured. -/
def KeepsConnections (cfg : GlobalConfig) (s : World × List (ConnRef × RequestFlags)) (e : Event) :
    Prop :=
  AtChecks cfg (HonoursKeepConn (s.2 ++ swept cfg s.1 e)) s.1 e

instance (cfg : GlobalConfig) (s : World × List (ConnRef × RequestFlags)) (e : Event) :
    Decidable (KeepsConnections cfg s e) := by
  unfold KeepsConnections
  infer_instance

/-- A request without parameters and without input that carries KEEP_CONN. -/
def keepConnRequest : Bytes :=
  [1, 1, 0, 1, 0, 8, 0, 0, 0, 1, 1, 0, 0, 0, 0, 0] ++ [1, 4, 0, 1, 0, 0, 0, 0] ++
    [1, 5, 0, 1, 0, 0, 0, 0]

/-- A request with KEEP_CONN is received, prepared and answered, and its answer is sent. -/
def keepConnAnswered : List Event :=
  [.accept [5], .io 5 ⟨true, false, false⟩ keepConnRequest .again, .worker 0, .worker 0, .worker 0,
    .worker 0, .pendingOutput, .outside 1 [.sent 99], .io 5 ⟨false, true, false⟩ [] .again]

end Wasapi.FcgiConn
