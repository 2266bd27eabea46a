import Wasapi.Websockets.Routing

/-!
# What epoll watches

`serve` tells `epoll` about its clients: one is added when it is accepted, modified at the end of
each of its events and behind each frame it is given, and deleted when it is closed. All masks are
edge triggered, so a client whose output is not watched while something is left to send would never
be served again.

The calls of `epoll_ctl` are listed for every event, and made on a model of the kernel's list that
notices a call that fails. In every run the list is that of the clients, and asks for `EPOLLOUT`
exactly where something is left to send.
-/

namespace Wasapi.Websockets

open Fastcgi

/-- A call of `epoll_ctl`. Every mask has `EPOLLIN | EPOLLET`, and some have `EPOLLOUT`. -/
inductive EpollCtl where
  | add (fd : ℤ) (epollOut : Bool)
  | modify (fd : ℤ) (epollOut : Bool)
  | delete (fd : ℤ)
  deriving DecidableEq

/-- What the kernel keeps: the descriptors that are watched, and whether for output too. -/
structure Interest where
  watched : AList fun _ : ℤ ↦ Bool := ∅
  /-- a call has returned `-1` -/
  failed : Bool := false

/-- A descriptor cannot be added twice, nor modified or deleted unless it is there. -/
def Interest.control (k : Interest) : EpollCtl → Interest
  | .add fd epollOut =>
    match k.watched.lookup fd with
    | none => { k with watched := k.watched.insert fd epollOut }
    | some _ => { k with failed := true }
  | .modify fd epollOut =>
    match k.watched.lookup fd with
    | none => { k with failed := true }
    | some _ => { k with watched := k.watched.insert fd epollOut }
  | .delete fd =>
    match k.watched.lookup fd with
    | none => { k with failed := true }
    | some _ => { k with watched := k.watched.erase fd }

/-! ## The calls of an event

The calls are listed in the order in which `serve` makes them. They are not part of the state of the
server, so they are computed beside it from the same events. -/

section

variable (cfg : GlobalConfig) (app : Application)

def acceptCalls : Server → List ℤ → List EpollCtl
  | _, [] => []
  | s, cfd :: cfds =>
    (match s.clients.lookup cfd with
      | some _ => []
      | none => [.add cfd false]) ++ acceptCalls (acceptClient s cfd) cfds

def deliverCalls : Server → List PendingFrame → List EpollCtl
  | _, [] => []
  | s, pf :: pfs =>
    (match s.clients.lookup pf.fd with
      | none => []
      | some c => [.modify c.fd true]) ++ deliverCalls (deliver s pf) pfs

/-- Behind the sends of an event. -/
def finishCalls (fd : ℤ) (epollOut : Bool) (c : Client) (s : Server) : List EpollCtl :=
  let p := if epollOut then sendAll s.sends c.outBuf else (c.outBuf, s.sends)
  let outBuf := (sendAll p.2 p.1).1
  .modify fd (!outBuf.isEmpty) ::
    if c.closed || c.closeAfterWrite && outBuf.isEmpty then [.delete fd] else []

def clientCalls (fd : ℤ) (events : IoEvents) (data : Bytes) (ending : RecvEnd) (s : Server) :
    List EpollCtl :=
  match s.clients.lookup fd with
  | none => []
  | some c =>
    let p := eventPart cfg app events data ending c s
    if p.2.terminated then [] else finishCalls fd events.epollOut p.1 p.2

def epollCalls (s : Server) : Event → List EpollCtl
  | .accept cfds => acceptCalls s cfds
  | .client fd events data ending => clientCalls cfg app fd events data ending s
  | .pending => deliverCalls { s with pendingFrames := [] } s.pendingFrames
  | _ => []

/-- The server and the kernel's list. -/
structure Watched where
  server : Server
  interest : Interest := {}

def watchedStep (w : Watched) (e : Event) : Watched where
  server := step cfg app w.server e
  interest :=
    if w.server.terminated then w.interest
    else (epollCalls cfg app w.server e).foldl Interest.control w.interest

end

variable {cfg : GlobalConfig} {app : Application} {s : Server} {k : Interest}

/-! ## The invariant

A client is watched from its acceptance to its end, and for output exactly as long as there is
something left to send. Both sides of this are changed together. -/

/-- No call has failed, the clients are watched and nobody else, and for output exactly those with
something left to send. -/
structure Mirrors (clients : AList fun _ : ℤ ↦ Client) (k : Interest) : Prop where
  failed : k.failed = false
  watched : ∀ fd, k.watched.lookup fd = (clients.lookup fd).map fun c ↦ !c.outBuf.isEmpty

theorem Mirrors.insert {clients : AList fun _ : ℤ ↦ Client} (h : Mirrors clients k) (fd : ℤ)
    (c : Client) :
    Mirrors (clients.insert fd c)
      { k with watched := k.watched.insert fd (!c.outBuf.isEmpty) } where
  failed := h.failed
  watched j := by
    by_cases hj : j = fd
    · rw [hj, AList.lookup_insert, AList.lookup_insert, Option.map_some]
    · rw [AList.lookup_insert_ne hj, AList.lookup_insert_ne hj, h.watched]

theorem Mirrors.erase {clients : AList fun _ : ℤ ↦ Client} (h : Mirrors clients k) (fd : ℤ) :
    Mirrors (clients.erase fd) { k with watched := k.watched.erase fd } where
  failed := h.failed
  watched j := by
    by_cases hj : j = fd
    · rw [hj, AList.lookup_erase, AList.lookup_erase, Option.map_none]
    · rw [AList.lookup_erase_ne hj, AList.lookup_erase_ne hj, h.watched]

theorem Mirrors.lookup {clients : AList fun _ : ℤ ↦ Client} (h : Mirrors clients k) {fd : ℤ}
    {c : Client} (hc : clients.lookup fd = some c) :
    k.watched.lookup fd = some (!c.outBuf.isEmpty) := by
  rw [h.watched, hc, Option.map_some]

private theorem control_modify {fd : ℤ} {b : Bool} (hfd : k.watched.lookup fd = some b)
    (epollOut : Bool) :
    k.control (.modify fd epollOut) = { k with watched := k.watched.insert fd epollOut } := by
  rw [Interest.control, hfd]

private theorem control_delete {fd : ℤ} {b : Bool} (hfd : k.watched.lookup fd = some b) :
    k.control (.delete fd) = { k with watched := k.watched.erase fd } := by
  rw [Interest.control, hfd]

/-! ## The handlers

A handler that changes the output of a client tells `epoll` before it ends. A frame that is
delivered is not empty, so the client has something to send then. -/

theorem Mirrors.accept (cfds : List ℤ) (h : Mirrors s.clients k) :
    Mirrors (cfds.foldl acceptClient s).clients
      ((acceptCalls s cfds).foldl Interest.control k) := by
  induction cfds generalizing s k with
  | nil => exact h
  | cons cfd cfds ih =>
    rw [List.foldl_cons, acceptCalls, List.foldl_append]
    refine ih ?_
    cases hc : s.clients.lookup cfd with
    | some c =>
      rw [acceptClient, hc]
      exact h
    | none =>
      have hnone : k.watched.lookup cfd = none := by rw [h.watched, hc, Option.map_none]
      rw [acceptClient, hc, List.foldl_cons, List.foldl_nil, Interest.control, hnone]
      exact h.insert cfd { cid := s.nextCid, fd := cfd }

/-- A frame that is delivered has octets, so its client has something to send. -/
theorem Mirrors.deliver (hnumbered : Numbered s) {pfs : List PendingFrame}
    (hframes : ∀ pf ∈ pfs, pf.frame ≠ []) (h : Mirrors s.clients k) :
    Mirrors (pfs.foldl deliver s).clients ((deliverCalls s pfs).foldl Interest.control k) := by
  induction pfs generalizing s k with
  | nil => exact h
  | cons pf pfs ih =>
    rw [List.foldl_cons, deliverCalls, List.foldl_append]
    refine ih (hnumbered.deliver pf) (fun pf' hpf' ↦ hframes pf' (List.mem_cons_of_mem _ hpf')) ?_
    cases hc : s.clients.lookup pf.fd with
    | none =>
      rw [Websockets.deliver, hc]
      exact h
    | some c =>
      have hout : (!(c.outBuf ++ pf.frame).isEmpty) = true := by
        rw [Bool.not_eq_true', List.isEmpty_eq_false_iff]
        exact List.append_ne_nil_of_right_ne_nil _ (hframes pf List.mem_cons_self)
      have hmodified := h.insert pf.fd { c with outBuf := c.outBuf ++ pf.frame }
      rw [Websockets.deliver, hc, List.foldl_cons, List.foldl_nil, hnumbered.fd hc,
        control_modify (h.lookup hc)]
      rwa [hout] at hmodified

theorem Mirrors.finishEvent {fd : ℤ} {b : Bool} (h : Mirrors s.clients k)
    (hfd : k.watched.lookup fd = some b) (epollOut : Bool) (c : Client) :
    Mirrors (finishEvent fd epollOut c s).clients
      ((finishCalls fd epollOut c s).foldl Interest.control k) := by
  rw [Websockets.finishEvent, finishCalls]
  set p := if epollOut then sendAll s.sends c.outBuf else (c.outBuf, s.sends)
  set outBuf := (sendAll p.2 p.1).1 with hout
  have hmodified := h.insert fd { c with outBuf := outBuf }
  rw [List.foldl_cons, control_modify hfd]
  simp only
  split
  · -- it is closed
    have hdeleted := hmodified.erase fd
    rw [List.foldl_cons, List.foldl_nil, control_delete (AList.lookup_insert _)]
    refine ⟨hdeleted.failed, fun j ↦ (hdeleted.watched j).trans ?_⟩
    by_cases hj : j = fd
    · rw [hj, AList.lookup_erase, AList.lookup_erase]
    · rw [AList.lookup_erase_ne hj, AList.lookup_erase_ne hj, AList.lookup_insert_ne hj]
  · exact hmodified

/-! ## Runs

An exception leaves `serve` wherever it is thrown, possibly between a change and the call that
belongs to it. Up to that point the invariant holds behind every event. -/

/-- What a run keeps. An exception leaves `serve` in the middle of an event. -/
structure Mirrored (w : Watched) : Prop where
  numbered : Numbered w.server
  frames : ∀ pf ∈ w.server.pendingFrames, pf.frame ≠ []
  failed : w.interest.failed = false
  mirrors : w.server.terminated = false → Mirrors w.server.clients w.interest

private theorem frames_workerStep {k : ℕ} (h : ∀ pf ∈ s.pendingFrames, pf.frame ≠ []) :
    ∀ pf ∈ (workerStep app k s).pendingFrames, pf.frame ≠ [] := by
  rw [workerStep]
  split
  · exact h
  next t _ =>
  split
  · split
    · exact h
    · exact h
  · simp only
    split
    · exact h
    · next hframe =>
      intro pf hpf
      rcases List.mem_append.mp hpf with hpf | hpf
      · exact h pf hpf
      · rw [List.mem_singleton.mp hpf]
        exact fun hnil ↦ hframe (List.isEmpty_iff.mpr hnil)
  · exact h

theorem delivers_leave (pfs : List PendingFrame) (s : Server) :
    (pfs.foldl deliver s).pendingFrames = s.pendingFrames ∧
      (pfs.foldl deliver s).tasks = s.tasks := by
  refine List.foldlRecOn (motive := fun s' : Server ↦ s'.pendingFrames = s.pendingFrames ∧
    s'.tasks = s.tasks) pfs _ ⟨rfl, rfl⟩ fun s' hs' pf _ ↦ ?_
  obtain ⟨-, -, htasks, hframes⟩ := deliver_eq s' pf
  exact ⟨hframes.trans hs'.1, htasks.trans hs'.2⟩

theorem Mirrored.accept {w : Watched} (h : Mirrored w) (hopen : w.server.terminated = false)
    (cfds : List ℤ) :
    Mirrored ⟨cfds.foldl acceptClient w.server,
      (acceptCalls w.server cfds).foldl Interest.control w.interest⟩ := by
  have hmirrors := (h.mirrors hopen).accept cfds
  refine ⟨?_, ?_, hmirrors.failed, fun _ ↦ hmirrors⟩
  · exact List.foldlRecOn _ _ h.numbered fun s' hs' cfd _ ↦ hs'.acceptClient cfd
  · refine List.foldlRecOn (motive := fun s' : Server ↦ ∀ pf ∈ s'.pendingFrames, pf.frame ≠ [])
      cfds _ h.frames fun s' hs' cfd _ ↦ ?_
    rw [acceptClient]
    split
    · exact hs'
    · exact hs'

theorem Mirrored.drain {w : Watched} (h : Mirrored w) (hopen : w.server.terminated = false) :
    Mirrored ⟨drainPending w.server,
      (deliverCalls { w.server with pendingFrames := [] } w.server.pendingFrames).foldl
        Interest.control w.interest⟩ := by
  have hmirrors := h.mirrors hopen
  have hempty : Numbered { w.server with pendingFrames := [] } :=
    ⟨h.numbered.fd, h.numbered.accepted, h.numbered.last, h.numbered.accept_lt, h.numbered.task,
      fun hpf ↦ absurd hpf List.not_mem_nil⟩
  have hdrained := Mirrors.deliver hempty h.frames hmirrors
  refine ⟨?_, ?_, hdrained.failed, fun _ ↦ hdrained⟩
  · exact List.foldlRecOn _ _ hempty fun s' hs' pf _ ↦ hs'.deliver pf
  · have hnone : (drainPending w.server).pendingFrames = [] := (delivers_leave _ _).1
    rw [hnone]
    exact fun pf hpf ↦ absurd hpf List.not_mem_nil

theorem handleClient_eq (cfg : GlobalConfig) (app : Application) {fd : ℤ} {c : Client}
    (hc : s.clients.lookup fd = some c) (events : IoEvents) (data : Bytes) (ending : RecvEnd) :
    handleClient cfg app fd events data ending s =
      let p := eventPart cfg app events data ending c s
      if p.2.terminated then { p.2 with clients := p.2.clients.insert fd p.1 }
      else finishEvent fd events.epollOut p.1 p.2 := by
  rw [handleClient, hc]
  rfl

theorem Mirrored.handleClient {w : Watched} (h : Mirrored w) (hopen : w.server.terminated = false)
    (fd : ℤ) (events : IoEvents) (data : Bytes) (ending : RecvEnd) :
    Mirrored ⟨handleClient cfg app fd events data ending w.server,
      (clientCalls cfg app fd events data ending w.server).foldl Interest.control w.interest⟩ := by
  have hmirrors := h.mirrors hopen
  have hnumbered : Numbered (Websockets.handleClient cfg app fd events data ending w.server) :=
    h.numbered.handleClient fd events data ending
  cases hc : w.server.clients.lookup fd with
  | none =>
    rw [Websockets.handleClient, clientCalls, hc]
    exact ⟨h.numbered, h.frames, h.failed, h.mirrors⟩
  | some c =>
    obtain ⟨-, -, hsched⟩ := eventPart_spec cfg app events data ending c w.server
    obtain ⟨o, -, hreplaces, -⟩ := handleClient_spec cfg app hc events data ending
    have hframes : ∀ pf ∈ (Websockets.handleClient cfg app fd events data ending
        w.server).pendingFrames, pf.frame ≠ [] := hreplaces.pendingFrames ▸ h.frames
    have heq := handleClient_eq cfg app hc events data ending
    rw [clientCalls, hc]
    simp only at heq ⊢
    by_cases hthrown : (eventPart cfg app events data ending c w.server).2.terminated = true
    · -- nothing is told to `epoll` any more
      rw [if_pos hthrown] at heq ⊢
      refine ⟨hnumbered, hframes, h.failed, fun hnot ↦ ?_⟩
      rw [heq] at hnot
      cases hthrown.symm.trans hnot
    · rw [if_neg hthrown] at heq ⊢
      have hpart : Mirrors (eventPart cfg app events data ending c w.server).2.clients
          w.interest := by
        rw [hsched.clients]
        exact hmirrors
      have hfinished := hpart.finishEvent (hmirrors.lookup hc) events.epollOut
        (eventPart cfg app events data ending c w.server).1
      rw [← heq] at hfinished
      exact ⟨hnumbered, hframes, hfinished.failed, fun _ ↦ hfinished⟩

theorem Mirrored.step {w : Watched} (h : Mirrored w) (e : Event) :
    Mirrored (watchedStep cfg app w e) := by
  by_cases hterminated : w.server.terminated = true
  · have hsame : watchedStep cfg app w e = w := by
      unfold watchedStep Websockets.step
      rw [if_pos hterminated, if_pos hterminated]
    rw [hsame]
    exact h
  have hopen := Bool.eq_false_iff.mpr hterminated
  unfold watchedStep Websockets.step
  rw [if_neg hterminated, if_neg hterminated]
  cases e with
  | accept cfds => exact h.accept hopen cfds
  | client fd events data ending => exact h.handleClient hopen fd events data ending
  | pending => exact h.drain hopen
  | worker k =>
    have hclients : (workerStep app k w.server).clients = w.server.clients := by
      rw [workerStep]
      split
      · rfl
      split
      · split <;> rfl
      · rfl
      · rfl
    refine ⟨h.numbered.workerStep k, frames_workerStep h.frames, h.failed, fun _ ↦ ?_⟩
    exact hclients ▸ h.mirrors hopen
  | outside elapsed sends =>
    exact ⟨⟨h.numbered.fd, h.numbered.accepted, h.numbered.last, h.numbered.accept_lt,
      h.numbered.task, h.numbered.frame⟩, h.frames, h.failed, fun _ ↦ h.mirrors hopen⟩
  | fcgiTake =>
    simp only
    split
    · exact h
    · exact ⟨⟨h.numbered.fd, h.numbered.accepted, h.numbered.last, h.numbered.accept_lt,
        h.numbered.task, h.numbered.frame⟩, h.frames, h.failed, fun _ ↦ h.mirrors hopen⟩
  | fcgiReturn k =>
    simp only
    split
    · exact h
    · exact ⟨⟨h.numbered.fd, h.numbered.accepted, h.numbered.last, h.numbered.accept_lt,
        h.numbered.task, h.numbered.frame⟩, h.frames, h.failed, fun _ ↦ h.mirrors hopen⟩

/-- **`epoll` is told the truth.** In every run no call of `epoll_ctl` fails, and until an exception
leaves `serve` the descriptors that are watched are those of the clients, each for output exactly if
something is left to send. -/
theorem always_mirrors (cfg : GlobalConfig) (app : Application) (bases : List UInt64)
    (capacity : UInt64) (events : List Event) :
    Always (watchedStep cfg app)
      (fun w ↦ w.interest.failed = false ∧
        (w.server.terminated = false → Mirrors w.server.clients w.interest))
      ⟨initial bases capacity, {}⟩ events := by
  have hinitial : Mirrored ⟨initial bases capacity, {}⟩ :=
    ⟨numbered_initial bases capacity, fun pf hpf ↦ absurd hpf List.not_mem_nil, rfl,
      fun _ ↦ ⟨rfl, fun _ ↦ rfl⟩⟩
  exact (always_of_invariant (fun _ e h ↦ h.step e) hinitial events).mono
    fun _ h ↦ ⟨h.failed, h.mirrors⟩

end Wasapi.Websockets
