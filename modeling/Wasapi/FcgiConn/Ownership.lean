import Wasapi.FcgiConn.Serve

/-!
# Who owns the requests and the arenas

`Sound` is what the event loop keeps about its requests as long as no pointer dangles: every stored
request has a handle and an arena of its own, and every captured pointer leads to a stored request
that is not released.

A request is released before it leaves its map, and in between other connections are served. A
`Phase` says which requests are in that state and whether a connection is on its way out, in which
case nothing is asked of the pointers into it.
-/

namespace Wasapi.FcgiConn

open Fastcgi

/-! ## Progress of a request

Between its allocation and its release a request keeps its handle, its arena and its place, and its
flags only grow in the sense that matters: what has failed or been aborted has been answered. -/

/-- A request that failed or was aborted has been answered. -/
def Settled (f : RequestFlags) : Prop := f.failed = true ∨ f.aborted = true → f.responded = true

/-- What the decoder keeps of a request. -/
structure CoreProgress (r r' : RequestCore) : Prop where
  id : r'.id = r.id
  responded : r.flags.responded = true → r'.flags.responded = true
  settled : Settled r.flags → Settled r'.flags

theorem CoreProgress.refl (r : RequestCore) : CoreProgress r r := ⟨rfl, fun h ↦ h, fun h ↦ h⟩

theorem CoreProgress.trans {r₁ r₂ r₃ : RequestCore} (h : CoreProgress r₁ r₂)
    (h' : CoreProgress r₂ r₃) : CoreProgress r₁ r₃ :=
  ⟨h'.id.trans h.id, fun hr ↦ h'.responded (h.responded hr), fun hr ↦ h'.settled (h.settled hr)⟩

section Decoder

variable {limits : Limits}

private theorem coreProgress_failRequest (r : RequestCore) (out : Bytes) (status : ProtocolStatus) :
    CoreProgress r (failRequest r out status).1 := by
  rw [failRequest]
  split
  · exact .refl r
  · exact ⟨rfl, fun _ ↦ rfl, fun _ _ ↦ rfl⟩

private theorem coreProgress_storePairs (ps : List (Bytes × Bytes)) (r : RequestCore)
    (out : Bytes) : CoreProgress r (storePairs limits ps r out).1 := by
  induction ps generalizing r with
  | nil => exact .refl r
  | cons p ps ih =>
    obtain ⟨name, value⟩ := p
    rw [storePairs]
    split
    · exact coreProgress_failRequest r out _
    · refine CoreProgress.trans ?_ (ih _)
      exact ⟨rfl, id, id⟩

theorem coreProgress_recordBody {rec : Record}
    {body : RequestCore → Bytes → RequestCore × Bytes} (h : recordBody limits rec = some body)
    (r : RequestCore) (out : Bytes) : CoreProgress r (body r out).1 := by
  rw [recordBody] at h
  split at h
  · split at h
    · obtain rfl := Option.some.inj h
      exact ⟨rfl, id, id⟩
    · cases h
  split at h
  · obtain rfl := Option.some.inj h
    rw [paramsRecord]
    split
    · exact ⟨rfl, id, id⟩
    split
    · exact .refl r
    · rw [paramsLoop_eq]
      exact coreProgress_storePairs _ r out
  split at h
  · obtain rfl := Option.some.inj h
    rw [stdinRecord]
    split
    · exact ⟨rfl, id, id⟩
    split
    · exact .refl r
    split
    · exact coreProgress_failRequest r out _
    · exact ⟨rfl, id, id⟩
  split at h
  · obtain rfl := Option.some.inj h
    rw [abortRequest, failRequest]
    split
    · next hr => exact ⟨rfl, id, fun _ _ ↦ hr⟩
    · exact ⟨rfl, fun _ ↦ rfl, fun _ _ ↦ rfl⟩
  · cases h

end Decoder

/-- What every handler but the releasing ones keeps of a stored request. -/
structure Progress (r r' : Request) : Prop extends
    CoreProgress r.toRequestCore r'.toRequestCore where
  connPtr : r'.connPtr = r.connPtr
  handle : r'.handle = r.handle
  arena : r'.arena = r.arena
  released : r'.released = r.released

theorem Progress.refl (r : Request) : Progress r r := ⟨.refl _, rfl, rfl, rfl, rfl⟩

theorem Progress.of_core {r : Request} {core : RequestCore}
    (h : CoreProgress r.toRequestCore core) : Progress r (r.withCore core) :=
  ⟨h, rfl, rfl, rfl, rfl⟩

theorem SameRequest.progress {r r' : Request} (h : SameRequest r r') : Progress r r' :=
  ⟨⟨h.id, fun hr ↦ h.flags ▸ hr, fun hr ↦ h.flags ▸ hr⟩, h.connPtr, h.handle, h.arena, h.released⟩

/-- The same connection with the same requests, which may have made progress. -/
structure Keeps (c c' : Connection) : Prop where
  cid : c'.cid = c.cid
  requests : ∀ id, Option.Rel Progress (c.requests.lookup id) (c'.requests.lookup id)

/-- No worker comes or goes either. -/
structure KeepsWorkers (c c' : Connection) : Prop extends Keeps c c' where
  activeWorkers : c'.activeWorkers = c.activeWorkers

private theorem rel_progress_refl : ∀ o : Option Request, Option.Rel Progress o o
  | none => .none
  | some r => .some (.refl r)

theorem Keeps.of_requests {c c' : Connection} (hcid : c'.cid = c.cid)
    (hrequests : ∀ id, c'.requests.lookup id = c.requests.lookup id) : Keeps c c' :=
  ⟨hcid, fun id ↦ hrequests id ▸ rel_progress_refl _⟩

theorem KeepsWorkers.refl (c : Connection) : KeepsWorkers c c :=
  ⟨.of_requests rfl fun _ ↦ rfl, rfl⟩

/-- One request makes progress. -/
theorem Keeps.of_insert {c c' : Connection} {id : UInt16} {r r' : Request}
    (hr : c.requests.lookup id = some r) (hprogress : Progress r r') (hcid : c'.cid = c.cid)
    (hrequests : c'.requests = c.requests.insert id r') : Keeps c c' := by
  refine ⟨hcid, fun i ↦ ?_⟩
  rw [hrequests]
  by_cases hi : i = id
  · subst hi
    rw [hr, AList.lookup_insert]
    exact .some hprogress
  · rw [AList.lookup_insert_ne hi]
    exact rel_progress_refl _

/-! ## The invariant

Requests and arenas belong together in both directions, as do the pointers in the queues and the
requests they lead to. In the middle of a release one request is excepted, and while a connection is
being closed all pointers into it are. -/

/-- The request stored under `id` in the connection at `fd`. -/
structure Stored (w : World) (fd : ℤ) (c : Connection) (id : UInt16) (r : Request) : Prop where
  conn : w.conns.lookup fd = some c
  request : c.requests.lookup id = some r

inductive Phase where
  | steady
  /-- the sweep is releasing a request -/
  | sweeping (fd : ℤ) (id : UInt16)
  /-- the connection is being closed, and these requests of it have been released -/
  | closing (fd : ℤ) (done : List UInt16)

/-- The stored requests that have been released. -/
def Phase.Released : Phase → ℤ → UInt16 → Prop
  | steady, _, _ => False
  | sweeping fd id, k, i => k = fd ∧ i = id
  | closing fd done, k, i => k = fd ∧ i ∈ done

/-- The connection that is being closed. -/
def Phase.Closing : Phase → ℤ → Prop
  | closing fd _, k => k = fd
  | _, _ => False

/-- The tasks of a connection. -/
def World.tasksOf (w : World) (p : ConnRef) : ℕ := w.tasks.countP fun t ↦ t.request.conn = p

/-- The pointer leads to a stored request that is not released, or into a connection that is being
closed. -/
structure Valid (phase : Phase) (w : World) (p : RequestPtr) : Prop where
  connected : ∃ c, w.conns.lookup p.conn.fd = some c ∧ c.cid = p.conn.cid
  live : phase.Closing p.conn.fd ∨
    ∃ c r, Stored w p.conn.fd c p.id r ∧ r.handle = p.handle ∧ r.released = false

/-- Requests and arenas belong together. -/
structure Owned (phase : Phase) (w : World) : Prop where
  keyed {fd c id r} : Stored w fd c id r → r.id = id
  connPtr {fd c id r} : Stored w fd c id r → r.connPtr = some ⟨fd, c.cid⟩
  handle_lt {fd c id r} : Stored w fd c id r → r.handle < w.nextHandle
  handle_inj {fd c id r fd' c' id' r'} : Stored w fd c id r → Stored w fd' c' id' r' →
    r.handle = r'.handle → fd = fd' ∧ id = id'
  settled {fd c id r} : Stored w fd c id r → Settled r.flags
  arena {fd c id r} : Stored w fd c id r → r.released = false →
    ∃ i, r.arena = some i ∧ w.arenas.holder i = some r.handle
  released_iff {fd c id r} : Stored w fd c id r → (r.released = true ↔ phase.Released fd id)
  released_stored {fd id} : phase.Released fd id → ∃ c r, Stored w fd c id r
  released_responded {fd c id r} : Stored w fd c id r → r.released = true →
    phase.Closing fd ∨ r.flags.responded = true
  ws_holder {i h} : (i, h) ∈ w.wsArenas → w.arenas.holder i = some h
  ws_lt {i h} : (i, h) ∈ w.wsArenas → h < w.nextHandle
  ws_fresh {i h fd c id r} : (i, h) ∈ w.wsArenas → Stored w fd c id r → r.handle ≠ h
  ws_nodup : w.wsArenas.Nodup

structure Sound (phase : Phase) (w : World) : Prop extends Owned phase w where
  workers {fd c} : w.conns.lookup fd = some c → c.activeWorkers = w.tasksOf ⟨fd, c.cid⟩
  captured {p} : p ∈ w.captured → Valid phase w p

variable {phase : Phase} {w w' : World}

/-! ## Steps that keep every request where it is

A step that moves no request and takes no arena can change connections at will. The invariant
follows it without a look at what it does. -/

/-- The connections at each number are related. -/
def Evolves (R : Connection → Connection → Prop) (w w' : World) : Prop :=
  ∀ k, Option.Rel R (w.conns.lookup k) (w'.conns.lookup k)

section Evolves

variable {R : Connection → Connection → Prop}

theorem Evolves.lookup_left (h : Evolves R w w') {fd : ℤ} {c' : Connection}
    (hc' : w'.conns.lookup fd = some c') : ∃ c, w.conns.lookup fd = some c ∧ R c c' := by
  have hrel := h fd
  rw [hc'] at hrel
  generalize w.conns.lookup fd = o at hrel ⊢
  cases hrel with
  | some hkeeps => exact ⟨_, rfl, hkeeps⟩

theorem Evolves.lookup_right (h : Evolves R w w') {fd : ℤ} {c : Connection}
    (hc : w.conns.lookup fd = some c) : ∃ c', w'.conns.lookup fd = some c' ∧ R c c' := by
  have hrel := h fd
  rw [hc] at hrel
  generalize w'.conns.lookup fd = o at hrel ⊢
  cases hrel with
  | some hkeeps => exact ⟨_, rfl, hkeeps⟩

theorem Evolves.mono {R' : Connection → Connection → Prop} (hR : ∀ c c', R c c' → R' c c')
    (h : Evolves R w w') : Evolves R' w w' := by
  intro k
  have hrel := h k
  generalize w.conns.lookup k = o, w'.conns.lookup k = o' at hrel ⊢
  cases hrel with
  | some hc => exact .some (hR _ _ hc)
  | none => exact .none

theorem Evolves.refl (hR : ∀ c, R c c) (w : World) : Evolves R w w := by
  intro k
  cases w.conns.lookup k with
  | none => exact .none
  | some c => exact .some (hR c)

theorem Evolves.trans {w₁ w₂ w₃ : World} (h : Evolves R w₁ w₂)
    (hR : ∀ {c₁ c₂ c₃}, R c₁ c₂ → R c₂ c₃ → R c₁ c₃) (h' : Evolves R w₂ w₃) : Evolves R w₁ w₃ := by
  intro k
  have hrel := h k
  have hrel' := h' k
  generalize w₁.conns.lookup k = o₁, w₂.conns.lookup k = o₂, w₃.conns.lookup k = o₃
    at hrel hrel' ⊢
  cases hrel with
  | some hc =>
    cases hrel' with
    | some hc' => exact .some (hR hc hc')
  | none =>
    cases hrel'
    exact .none

theorem Evolves.of_puts (hR : ∀ c, R c c) {fd : ℤ} {c c' : Connection}
    (hc : w.conns.lookup fd = some c) (hput : Puts w w' fd c') (hcc' : R c c') :
    Evolves R w w' := by
  intro k
  rw [hput k]
  by_cases hk : k = fd
  · rw [if_pos hk, hk, hc]
    exact .some hcc'
  · rw [if_neg hk]
    exact Evolves.refl hR w k

theorem evolves_updateConn (hR : ∀ c, R c c) (w : World) (fd : ℤ) {f : Connection → Connection}
    (hf : ∀ c, w.conns.lookup fd = some c → R c (f c)) : Evolves R w (w.updateConn fd f) := by
  intro k
  rw [World.lookup_updateConn]
  cases hc : w.conns.lookup k with
  | none => exact .none
  | some c =>
    rw [Option.map_some]
    split
    · next hk => exact .some (hf c (hk ▸ hc))
    · exact .some (hR c)

theorem evolves_updateRef (hR : ∀ c, R c c) (w : World) (p : ConnRef)
    {f : Connection → Connection} (hf : ∀ c, w.connection p = some c → R c (f c)) :
    Evolves R w (w.updateRef p f) := by
  intro k
  rw [World.lookup_updateRef]
  cases hc : w.conns.lookup k with
  | none => exact .none
  | some c =>
    rw [Option.map_some]
    split
    · next hk =>
      refine .some (hf c (World.connection_eq_some_iff.mpr ⟨?_, hk.2⟩))
      rw [← hk.1, hc]
    · exact .some (hR c)

end Evolves

theorem Keeps.request_left {c c' : Connection} (h : Keeps c c') {id : UInt16} {r' : Request}
    (hr' : c'.requests.lookup id = some r') :
    ∃ r, c.requests.lookup id = some r ∧ Progress r r' := by
  have hrel := h.requests id
  rw [hr'] at hrel
  generalize c.requests.lookup id = o at hrel ⊢
  cases hrel with
  | some hprogress => exact ⟨_, rfl, hprogress⟩

private theorem Keeps.request_right {c c' : Connection} (h : Keeps c c') {id : UInt16} {r : Request}
    (hr : c.requests.lookup id = some r) :
    ∃ r', c'.requests.lookup id = some r' ∧ Progress r r' := by
  have hrel := h.requests id
  rw [hr] at hrel
  generalize c'.requests.lookup id = o at hrel ⊢
  cases hrel with
  | some hprogress => exact ⟨_, rfl, hprogress⟩

private theorem Evolves.stored_left (h : Evolves Keeps w w') {fd : ℤ} {c' : Connection}
    {id : UInt16} {r' : Request} (hs : Stored w' fd c' id r') :
    ∃ c r, Stored w fd c id r ∧ c'.cid = c.cid ∧ Progress r r' := by
  obtain ⟨c, hc, hkeeps⟩ := h.lookup_left hs.conn
  obtain ⟨r, hr, hprogress⟩ := hkeeps.request_left hs.request
  exact ⟨c, r, ⟨hc, hr⟩, hkeeps.cid, hprogress⟩

theorem Evolves.stored_right (h : Evolves Keeps w w') {fd : ℤ} {c : Connection} {id : UInt16}
    {r : Request} (hs : Stored w fd c id r) : ∃ c' r', Stored w' fd c' id r' ∧ Progress r r' := by
  obtain ⟨c', hc', hkeeps⟩ := h.lookup_right hs.conn
  obtain ⟨r', hr', hprogress⟩ := hkeeps.request_right hs.request
  exact ⟨c', r', ⟨hc', hr'⟩, hprogress⟩

theorem Evolves.valid (h : Evolves Keeps w w') {p : RequestPtr} (hp : Valid phase w p) :
    Valid phase w' p where
  connected := by
    obtain ⟨c, hc, hcid⟩ := hp.connected
    obtain ⟨c', hc', hkeeps⟩ := h.lookup_right hc
    exact ⟨c', hc', hkeeps.cid.trans hcid⟩
  live := by
    refine hp.live.imp_right ?_
    rintro ⟨c, r, hs, hhandle, hreleased⟩
    obtain ⟨c', r', hs', hprogress⟩ := h.stored_right hs
    exact ⟨c', r', hs', hprogress.handle.trans hhandle, hprogress.released.trans hreleased⟩

/-- **Requests may go, but none comes.** Those that stay have been there before, and the pool is the
same. -/
theorem Owned.transfer (h : Owned phase w) {phase' : Phase}
    (hstored : ∀ {k c' i r'}, Stored w' k c' i r' → ∃ c r, Stored w k c i r ∧ c'.cid = c.cid ∧
      Progress r r' ∧ (phase'.Released k i ↔ phase.Released k i) ∧
      (phase.Closing k → phase'.Closing k))
    (hreleased : ∀ {k i}, phase'.Released k i → ∃ c r, Stored w' k c i r)
    (hholder : ∀ i, w'.arenas.holder i = w.arenas.holder i) (hws : w'.wsArenas = w.wsArenas)
    (hnext : w'.nextHandle = w.nextHandle) : Owned phase' w' where
  keyed hs' := by
    obtain ⟨c, r, hs, -, hp, -⟩ := hstored hs'
    rw [hp.id, h.keyed hs]
  connPtr hs' := by
    obtain ⟨c, r, hs, hcid, hp, -⟩ := hstored hs'
    rw [hp.connPtr, h.connPtr hs, hcid]
  handle_lt hs' := by
    obtain ⟨c, r, hs, -, hp, -⟩ := hstored hs'
    rw [hp.handle, hnext]
    exact h.handle_lt hs
  handle_inj hs' hs₂' heq := by
    obtain ⟨c, r, hs, -, hp, -⟩ := hstored hs'
    obtain ⟨c₂, r₂, hs₂, -, hp₂, -⟩ := hstored hs₂'
    rw [hp.handle, hp₂.handle] at heq
    exact h.handle_inj hs hs₂ heq
  settled hs' := by
    obtain ⟨c, r, hs, -, hp, -⟩ := hstored hs'
    exact hp.settled (h.settled hs)
  arena hs' hlive := by
    obtain ⟨c, r, hs, -, hp, -⟩ := hstored hs'
    rw [hp.released] at hlive
    obtain ⟨i, hi, hholds⟩ := h.arena hs hlive
    refine ⟨i, ?_, ?_⟩
    · rw [hp.arena, hi]
    · rw [hholder, hp.handle, hholds]
  released_iff hs' := by
    obtain ⟨c, r, hs, -, hp, hiff, -⟩ := hstored hs'
    rw [hp.released, hiff]
    exact h.released_iff hs
  released_stored := hreleased
  released_responded hs' hreleased := by
    obtain ⟨c, r, hs, -, hp, -, hclosing⟩ := hstored hs'
    rw [hp.released] at hreleased
    exact (h.released_responded hs hreleased).imp hclosing hp.responded
  ws_holder hi := by
    rw [hws] at hi
    rw [hholder]
    exact h.ws_holder hi
  ws_lt hi := by
    rw [hws] at hi
    rw [hnext]
    exact h.ws_lt hi
  ws_fresh hi hs' := by
    obtain ⟨c, r, hs, -, hp, -⟩ := hstored hs'
    rw [hws] at hi
    rw [hp.handle]
    exact h.ws_fresh hi hs
  ws_nodup := hws ▸ h.ws_nodup

/-- **Every request keeps its place.** -/
theorem Owned.evolve (h : Owned phase w) (hconns : Evolves Keeps w w')
    (hholder : ∀ i, w'.arenas.holder i = w.arenas.holder i) (hws : w'.wsArenas = w.wsArenas)
    (hnext : w'.nextHandle = w.nextHandle) : Owned phase w' := by
  refine h.transfer (fun hs' ↦ ?_) (fun hreleased ↦ ?_) hholder hws hnext
  · obtain ⟨c, r, hs, hcid, hp⟩ := hconns.stored_left hs'
    exact ⟨c, r, hs, hcid, hp, Iff.rfl, id⟩
  · obtain ⟨c, r, hs⟩ := h.released_stored hreleased
    obtain ⟨c', r', hs', -⟩ := hconns.stored_right hs
    exact ⟨c', r', hs'⟩

/-- Nothing has been captured, and no task has been forgotten. -/
theorem Sound.evolve (h : Sound phase w) (hconns : Evolves KeepsWorkers w w')
    (hholder : ∀ i, w'.arenas.holder i = w.arenas.holder i) (hws : w'.wsArenas = w.wsArenas)
    (hnext : w'.nextHandle = w.nextHandle) (hcaptured : w'.captured ⊆ w.captured)
    (htasks : ∀ p, w'.tasksOf p = w.tasksOf p) : Sound phase w' where
  toOwned := h.toOwned.evolve (hconns.mono fun _ _ hk ↦ hk.toKeeps) hholder hws hnext
  workers hc' := by
    obtain ⟨c, hc, hkeeps⟩ := hconns.lookup_left hc'
    rw [hkeeps.activeWorkers, hkeeps.cid, htasks]
    exact h.workers hc
  captured hp := (hconns.mono fun _ _ hk ↦ hk.toKeeps).valid (h.captured (hcaptured hp))

theorem Sound.of_ledger (h : Sound phase w) (hconns : Evolves KeepsWorkers w w')
    (hled : SameLedger w w') : Sound phase w' := by
  refine h.evolve hconns hled.holder hled.wsArenas hled.nextHandle ?_ fun p ↦ ?_
  · rw [World.captured, World.captured, hled.pendingOutput, hled.tasks]
    exact List.Subset.refl _
  · rw [World.tasksOf, World.tasksOf, hled.tasks]

theorem sameLedger_updateConn (w : World) (fd : ℤ) (f : Connection → Connection) :
    SameLedger w (w.updateConn fd f) := by
  refine ⟨?_, ?_, fun i ↦ ?_, ?_, ?_, [], ?_⟩ <;> simp

theorem sameLedger_updateRef (w : World) (p : ConnRef) (f : Connection → Connection) :
    SameLedger w (w.updateRef p f) := by
  refine ⟨?_, ?_, fun i ↦ ?_, ?_, ?_, [], ?_⟩ <;> simp

theorem sameLedger_updateRequest (w : World) (p : RequestPtr) (f : Request → Request) :
    SameLedger w (w.updateRequest p f) := by
  rw [World.updateRequest]
  split
  · exact .refl w
  · exact sameLedger_updateRef w p.conn _

theorem Sound.updateConn (h : Sound phase w) {fd : ℤ} {f : Connection → Connection}
    (hf : ∀ c, w.conns.lookup fd = some c → KeepsWorkers c (f c)) :
    Sound phase (w.updateConn fd f) :=
  h.of_ledger (evolves_updateConn .refl w fd hf) (sameLedger_updateConn w fd f)

theorem Sound.updateRef (h : Sound phase w) {p : ConnRef} {f : Connection → Connection}
    (hf : ∀ c, w.connection p = some c → KeepsWorkers c (f c)) : Sound phase (w.updateRef p f) :=
  h.of_ledger (evolves_updateRef .refl w p hf) (sameLedger_updateRef w p f)

theorem Sound.updateRequest (h : Sound phase w) {p : RequestPtr} {f : Request → Request}
    (hf : ∀ r, w.request p = some r → Progress r (f r)) : Sound phase (w.updateRequest p f) := by
  rw [World.updateRequest]
  split
  · exact h
  · next r hr =>
    refine h.updateRef fun c hc ↦ ⟨.of_insert ?_ (hf r hr) rfl rfl, rfl⟩
    obtain ⟨c', hc', hcid, hlookup, -⟩ := World.request_eq_some_iff.mp hr
    rw [World.connection_eq_some_iff.mpr ⟨hc', hcid⟩] at hc
    rwa [← Option.some.inj hc]

/-! ## Serving connections

Two things happen here that do change the books: a request is allocated, which takes an arena that
nobody holds, and a request is dispatched, which adds a task with a pointer to it. -/

/-- After an entry of a connection has been written, a stored request is that entry or was there
before. -/
theorem stored_cases_of_insert {fd : ℤ} {c c' : Connection} {id : UInt16} {r : Request}
    (hc : w.conns.lookup fd = some c) (hput : Puts w w' fd c') (hcid : c'.cid = c.cid)
    (hrequests : c'.requests = c.requests.insert id r) {k : ℤ} {c₂ : Connection} {i : UInt16}
    {r₂ : Request} (hs : Stored w' k c₂ i r₂) :
    (k = fd ∧ i = id ∧ r₂ = r ∧ c₂.cid = c.cid) ∨
      ∃ c₁, Stored w k c₁ i r₂ ∧ c₂.cid = c₁.cid ∧ ¬(k = fd ∧ i = id) := by
  obtain ⟨hc₂, hr₂⟩ := hs
  rw [hput k] at hc₂
  by_cases hk : k = fd
  · rw [if_pos hk, Option.some.injEq] at hc₂
    subst hk hc₂
    rw [hrequests] at hr₂
    by_cases hi : i = id
    · rw [hi, AList.lookup_insert, Option.some.injEq] at hr₂
      exact .inl ⟨rfl, hi, hr₂.symm, hcid⟩
    · rw [AList.lookup_insert_ne hi] at hr₂
      exact .inr ⟨c, ⟨hc, hr₂⟩, hcid, fun h ↦ hi h.2⟩
  · rw [if_neg hk] at hc₂
    exact .inr ⟨c₂, ⟨hc₂, hr₂⟩, rfl, fun h ↦ hk h.1⟩

/-- The other entries are still there. -/
theorem stored_of_insert {fd : ℤ} {c c' : Connection} {id : UInt16} {r : Request}
    (hc : w.conns.lookup fd = some c) (hput : Puts w w' fd c') (hcid : c'.cid = c.cid)
    (hrequests : c'.requests = c.requests.insert id r) {k : ℤ} {c₁ : Connection} {i : UInt16}
    {r₁ : Request} (hs : Stored w k c₁ i r₁) (hne : ¬(k = fd ∧ i = id)) :
    ∃ c₂, Stored w' k c₂ i r₁ ∧ c₂.cid = c₁.cid := by
  obtain ⟨hc₁, hr₁⟩ := hs
  by_cases hk : k = fd
  · subst hk
    obtain rfl := Option.some.inj (hc.symm.trans hc₁)
    refine ⟨c', ⟨(hput k).trans (if_pos rfl), ?_⟩, hcid⟩
    rw [hrequests, AList.lookup_insert_ne fun hi ↦ hne ⟨rfl, hi⟩, hr₁]
  · exact ⟨c₁, ⟨(hput k).trans ((if_neg hk).trans hc₁), hr₁⟩, rfl⟩

/-- An entry that is to be made is not there yet. -/
theorem not_stored_of_lookup {fd : ℤ} {c : Connection} {id : UInt16}
    (hc : w.conns.lookup fd = some c) (hid : c.requests.lookup id = none) {c₁ : Connection}
    {r₁ : Request} : ¬Stored w fd c₁ id r₁ := by
  rintro ⟨hc₁, hr₁⟩
  obtain rfl := Option.some.inj (hc.symm.trans hc₁)
  rw [hid] at hr₁
  cases hr₁

/-- A new entry moves no other. -/
theorem stored_of_allocate {fd : ℤ} {c : Connection} {id : UInt16} {r : Request}
    (hc : w.conns.lookup fd = some c) (hid : c.requests.lookup id = none)
    (hput : Puts w w' fd { c with requests := c.requests.insert id r }) {k : ℤ} {c₁ : Connection}
    {i' : UInt16} {r' : Request} (hs : Stored w k c₁ i' r') :
    ∃ c', Stored w' k c' i' r' ∧ c'.cid = c₁.cid := by
  refine stored_of_insert hc hput rfl rfl hs ?_
  rintro ⟨rfl, rfl⟩
  exact not_stored_of_lookup hc hid hs

/-- What the invariant says of one request by itself. -/
structure Placed (phase : Phase) (w : World) (fd : ℤ) (cid : ℕ) (id : UInt16) (r : Request) :
    Prop where
  keyed : r.id = id
  connPtr : r.connPtr = some ⟨fd, cid⟩
  handle_lt : r.handle < w.nextHandle
  settled : Settled r.flags
  arena : r.released = false → ∃ i, r.arena = some i ∧ w.arenas.holder i = some r.handle
  released_iff : r.released = true ↔ phase.Released fd id
  released_responded : r.released = true → phase.Closing fd ∨ r.flags.responded = true

/-- **One entry is written**, a new one or in the place of one with the same handle. -/
theorem Owned.insert (h : Owned phase w) {phase' : Phase} {fd : ℤ} {c : Connection} {id : UInt16}
    {r : Request} (hc : w.conns.lookup fd = some c)
    (hput : Puts w w' fd { c with requests := c.requests.insert id r })
    (hr : Placed phase' w' fd c.cid id r)
    (hinj : ∀ {k c₁ i r₁}, Stored w k c₁ i r₁ → r₁.handle = r.handle → k = fd ∧ i = id)
    (hphase : ∀ {k i}, ¬(k = fd ∧ i = id) → (phase'.Released k i ↔ phase.Released k i))
    (hclosing : ∀ {k}, phase.Closing k → phase'.Closing k)
    (hholder : ∀ {j n}, w.arenas.holder j = some n → n ≠ r.handle →
      w'.arenas.holder j = some n)
    (hfresh : ∀ {j n}, (j, n) ∈ w.wsArenas → r.handle ≠ n) (hws : w'.wsArenas = w.wsArenas)
    (hnext : w.nextHandle ≤ w'.nextHandle) : Owned phase' w' := by
  -- a request is the new one, or was stored under another key before
  have hstored : ∀ {k c' i r'}, Stored w' k c' i r' →
      (k = fd ∧ i = id ∧ r' = r ∧ c'.cid = c.cid) ∨
        ∃ c₁, Stored w k c₁ i r' ∧ c'.cid = c₁.cid ∧ ¬(k = fd ∧ i = id) :=
    fun hs' ↦ stored_cases_of_insert hc hput rfl rfl hs'
  constructor
  case keyed =>
    intro k c' i r' hs'
    rcases hstored hs' with ⟨rfl, rfl, rfl, -⟩ | ⟨c₁, hs, -, -⟩
    · exact hr.keyed
    · exact h.keyed hs
  case connPtr =>
    intro k c' i r' hs'
    rcases hstored hs' with ⟨rfl, rfl, rfl, hcid⟩ | ⟨c₁, hs, hcid, -⟩
    · rw [hr.connPtr, hcid]
    · rw [h.connPtr hs, hcid]
  case handle_lt =>
    intro k c' i r' hs'
    rcases hstored hs' with ⟨rfl, rfl, rfl, -⟩ | ⟨c₁, hs, -, -⟩
    · exact hr.handle_lt
    · exact (h.handle_lt hs).trans_le hnext
  case handle_inj =>
    intro k c' i r' k₂ c₂ i₂ r₂ hs' hs₂' heq
    rcases hstored hs' with ⟨rfl, rfl, rfl, -⟩ | ⟨c₁, hs, -, -⟩ <;>
      rcases hstored hs₂' with ⟨rfl, rfl, rfl, -⟩ | ⟨c₁', hs₂, -, -⟩
    · exact ⟨rfl, rfl⟩
    · obtain ⟨rfl, rfl⟩ := hinj hs₂ heq.symm
      exact ⟨rfl, rfl⟩
    · exact hinj hs heq
    · exact h.handle_inj hs hs₂ heq
  case settled =>
    intro k c' i r' hs'
    rcases hstored hs' with ⟨rfl, rfl, rfl, -⟩ | ⟨c₁, hs, -, -⟩
    · exact hr.settled
    · exact h.settled hs
  case arena =>
    intro k c' i r' hs' hlive
    rcases hstored hs' with ⟨rfl, rfl, rfl, -⟩ | ⟨c₁, hs, -, hne⟩
    · exact hr.arena hlive
    · obtain ⟨j, hj, hholds⟩ := h.arena hs hlive
      exact ⟨j, hj, hholder hholds fun heq ↦ hne (hinj hs heq)⟩
  case released_iff =>
    intro k c' i r' hs'
    rcases hstored hs' with ⟨rfl, rfl, rfl, -⟩ | ⟨c₁, hs, -, hne⟩
    · exact hr.released_iff
    · rw [h.released_iff hs, hphase hne]
  case released_stored =>
    intro k i hreleased
    by_cases heq : k = fd ∧ i = id
    · obtain ⟨rfl, rfl⟩ := heq
      exact ⟨_, _, (hput _).trans (if_pos rfl), AList.lookup_insert _⟩
    · obtain ⟨c₁, r₁, hs⟩ := h.released_stored ((hphase heq).mp hreleased)
      obtain ⟨c', hs', -⟩ := stored_of_insert hc hput rfl rfl hs heq
      exact ⟨c', r₁, hs'⟩
  case released_responded =>
    intro k c' i r' hs' hreleased
    rcases hstored hs' with ⟨rfl, rfl, rfl, -⟩ | ⟨c₁, hs, -, -⟩
    · exact hr.released_responded hreleased
    · exact (h.released_responded hs hreleased).imp_left hclosing
  case ws_holder =>
    intro j n hj
    rw [hws] at hj
    exact hholder (h.ws_holder hj) (hfresh hj).symm
  case ws_lt =>
    intro j n hj
    rw [hws] at hj
    exact (h.ws_lt hj).trans_le hnext
  case ws_fresh =>
    intro j n k c' i r' hj hs'
    rw [hws] at hj
    rcases hstored hs' with ⟨rfl, rfl, rfl, -⟩ | ⟨c₁, hs, -, -⟩
    · exact hfresh hj
    · exact h.ws_fresh hj hs
  case ws_nodup => exact hws ▸ h.ws_nodup

/-- **A request is allocated.** It takes an arena nobody holds. -/
theorem Owned.allocate (h : Owned phase w) {fd : ℤ} {c : Connection} {id : UInt16} {i : ℕ}
    {r : Request} (hc : w.conns.lookup fd = some c) (hid : c.requests.lookup id = none)
    (hput : Puts w w' fd { c with requests := c.requests.insert id r })
    (hr : FreshRequest w ⟨fd, c.cid⟩ id i r) (hfree : w.arenas.holder i = none)
    (hholder : ∀ j, w'.arenas.holder j = if j = i then some w.nextHandle else w.arenas.holder j)
    (hws : w'.wsArenas = w.wsArenas) (hnext : w'.nextHandle = w.nextHandle + 1) :
    Owned phase w' := by
  have hnew : ¬phase.Released fd id := by
    intro hreleased
    obtain ⟨c₁, r₁, hs⟩ := h.released_stored hreleased
    exact not_stored_of_lookup hc hid hs
  have hother : ∀ {j n}, w.arenas.holder j = some n → w'.arenas.holder j = some n := by
    intro j n hj
    rw [hholder, if_neg, hj]
    rintro rfl
    rw [hfree] at hj
    cases hj
  have hplaced : Placed phase w' fd c.cid id r := by
    constructor
    case keyed => exact hr.id
    case connPtr => exact hr.connPtr
    case handle_lt =>
      rw [hr.handle, hnext]
      exact Nat.lt_succ_self _
    case settled =>
      rw [hr.flags]
      rintro (hf | hf) <;> cases hf
    case arena =>
      intro _
      refine ⟨i, hr.arena, ?_⟩
      rw [hholder, if_pos rfl, hr.handle]
    case released_iff =>
      rw [hr.released]
      exact iff_of_false Bool.false_ne_true hnew
    case released_responded =>
      rw [hr.released]
      exact fun hf ↦ absurd hf Bool.false_ne_true
  refine h.insert hc hput hplaced ?_ (fun _ ↦ Iff.rfl) (fun hk ↦ hk) (fun hj _ ↦ hother hj) ?_ hws
    (hnext ▸ Nat.le_succ _)
  · -- the handle is a new one
    intro k c₁ i' r₁ hs heq
    rw [hr.handle] at heq
    exact absurd heq (h.handle_lt hs).ne
  · intro j n hj
    rw [hr.handle]
    exact (h.ws_lt hj).ne'

theorem Sound.allocate (h : Sound phase w) {fd : ℤ} {c : Connection} {id : UInt16} {i : ℕ}
    {r : Request} (hc : w.conns.lookup fd = some c) (hid : c.requests.lookup id = none)
    (hput : Puts w w' fd { c with requests := c.requests.insert id r })
    (hr : FreshRequest w ⟨fd, c.cid⟩ id i r) (hfree : w.arenas.holder i = none)
    (hholder : ∀ j, w'.arenas.holder j = if j = i then some w.nextHandle else w.arenas.holder j)
    (hpending : w'.pendingOutput = w.pendingOutput) (htasks : w'.tasks = w.tasks)
    (hws : w'.wsArenas = w.wsArenas) (hnext : w'.nextHandle = w.nextHandle + 1) :
    Sound phase w' := by
  refine ⟨h.toOwned.allocate hc hid hput hr hfree hholder hws hnext, ?_, ?_⟩
  · intro k c' hc'
    rw [World.tasksOf, htasks]
    rw [hput k] at hc'
    by_cases hk : k = fd
    · rw [if_pos hk, Option.some.injEq] at hc'
      subst hk hc'
      have hworkers := h.workers hc
      exact hworkers
    · rw [if_neg hk] at hc'
      exact h.workers hc'
  · intro p hp
    rw [World.captured, hpending, htasks] at hp
    refine ⟨?_, (h.captured hp).live.imp_right ?_⟩
    swap
    · rintro ⟨c₁, r₁, hs, hvalid⟩
      obtain ⟨c', hs', -⟩ := stored_of_allocate hc hid hput hs
      exact ⟨c', r₁, hs', hvalid⟩
    obtain ⟨c₁, hc₁, hcid⟩ := (h.captured hp).connected
    by_cases hfd : p.conn.fd = fd
    · rw [hfd] at hc₁
      obtain rfl := Option.some.inj (hc.symm.trans hc₁)
      exact ⟨_, (hput _).trans (if_pos hfd), hcid⟩
    · exact ⟨c₁, (hput _).trans ((if_neg hfd).trans hc₁), hcid⟩

private theorem tasksOf_append (ts : List Task) (t : Task) (p : ConnRef) :
    (ts ++ [t]).countP (fun t ↦ t.request.conn = p)
      = ts.countP (fun t ↦ t.request.conn = p) + if t.request.conn = p then 1 else 0 := by
  rw [List.countP_append, List.countP_singleton]
  simp only [decide_eq_true_eq]

theorem Sound.dispatch (h : Sound phase w) {fd : ℤ} {c : Connection} {id : UInt16} {r : Request}
    {p : ConnRef} (hc : w.conns.lookup fd = some c) (hr : c.requests.lookup id = some r)
    (hready : isReady r.flags = true) (hp : r.connPtr = some p)
    (hw' : w' = { w.updateRef p (fun c ↦ { c with activeWorkers := c.activeWorkers + 1 }) with
      tasks := w.tasks ++ [⟨⟨p, r.id, r.handle⟩, .queued⟩] }) : Sound phase w' := by
  have hs : Stored w fd c id r := ⟨hc, hr⟩
  obtain rfl : p = ⟨fd, c.cid⟩ := Option.some.inj (hp.symm.trans (h.connPtr hs))
  have hlookup (k : ℤ) : w'.conns.lookup k = (w.conns.lookup k).map fun c₁ ↦
      if k = fd ∧ c₁.cid = c.cid then { c₁ with activeWorkers := c₁.activeWorkers + 1 }
      else c₁ := by
    rw [hw']
    exact World.lookup_updateRef _ _ k
  have hconns : Evolves Keeps w w' := by
    intro k
    rw [hlookup]
    cases w.conns.lookup k with
    | none => exact .none
    | some c₁ =>
      rw [Option.map_some]
      split
      · exact .some (.of_requests rfl fun _ ↦ rfl)
      · exact .some (.of_requests rfl fun _ ↦ rfl)
  have htasks : w'.tasks = w.tasks ++ [⟨⟨⟨fd, c.cid⟩, r.id, r.handle⟩, .queued⟩] := by rw [hw']
  refine ⟨h.toOwned.evolve hconns (fun i ↦ ?_) ?_ ?_, ?_, ?_⟩
  · simp [hw']
  · simp [hw']
  · simp [hw']
  · intro k c' hc'
    rw [hlookup, Option.map_eq_some_iff] at hc'
    obtain ⟨c₁, hc₁, rfl⟩ := hc'
    have hworkers := h.workers hc₁
    rw [World.tasksOf] at hworkers ⊢
    rw [htasks, tasksOf_append]
    split
    · next heq =>
      obtain ⟨rfl, hcid⟩ := heq
      rw [if_pos (by rw [hcid])]
      simp only [hworkers, Nat.cast_add, Nat.cast_one]
    · next hne =>
      rw [if_neg, hworkers, Nat.add_zero]
      rintro heq
      rw [ConnRef.mk.injEq] at heq
      exact hne ⟨heq.1.symm, heq.2.symm⟩
  · intro p hp
    refine hconns.valid ?_
    have hpending : w'.pendingOutput = w.pendingOutput := by rw [hw']; simp
    rw [World.captured, hpending, htasks, List.map_append, ← List.append_assoc,
      List.mem_append] at hp
    rcases hp with hp | hp
    · exact h.captured hp
    · -- the new pointer: a request that is ready has not been answered, so it is not released
      obtain rfl := List.mem_singleton.mp hp
      refine ⟨⟨c, hc, rfl⟩, ?_⟩
      by_cases hreleased : r.released = true
      · refine .inl ((h.released_responded hs hreleased).resolve_right fun hresponded ↦ ?_)
        rw [isReady, hresponded] at hready
        simp at hready
      · exact .inr ⟨c, r, by rwa [h.keyed hs], rfl, Bool.eq_false_iff.mpr hreleased⟩

theorem Sound.serveStep {limits : Limits} (h : Sound phase w) (hstep : ServeStep limits w w') :
    Sound phase w' := by
  cases hstep with
  | change fd c c' hc hput hown hled =>
    refine h.of_ledger (.of_puts .refl hc hput ⟨.of_requests hown.cid fun _ ↦ ?_,
      hown.activeWorkers⟩) hled
    rw [hown.requests]
  | queues hconns hled =>
    refine h.of_ledger (fun k ↦ ?_) hled
    rw [hconns]
    exact Evolves.refl .refl w k
  | allocate fd c id i r hc hid hput hr hfree hholder hpending htasks hws hnext _ =>
    exact h.allocate hc hid hput hr hfree hholder hpending htasks hws hnext
  | record fd c id r rec body out hc hr hbody hput hled =>
    refine h.of_ledger (.of_puts .refl hc hput ⟨.of_insert hr ?_ rfl rfl, rfl⟩) hled
    exact .of_core (coreProgress_recordBody hbody _ _)
  | dispatch fd c id r p hc hr hready hp hw' => exact h.dispatch hc hr hready hp hw'
  | amend fd c id r r' hc hr hsame hput hled =>
    exact h.of_ledger (.of_puts .refl hc hput ⟨.of_insert hr hsame.progress rfl rfl, rfl⟩) hled

/-- **Serving connections keeps the invariant.** -/
theorem Sound.serves {limits : Limits} (h : Sound phase w) (hserves : Serves limits w w') :
    Sound phase w' :=
  hserves.invariant (fun _ _ hstep hw ↦ hw.serveStep hstep) h

end Wasapi.FcgiConn
