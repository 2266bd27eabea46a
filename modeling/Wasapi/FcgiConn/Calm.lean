import Wasapi.FcgiConn.Supply

/-!
# What the handlers leave to whoever waits

Most of what the event loop does is calm: nobody starts to wait, whatever is waited for is still in
the input of whoever waits for it, and the queue and the pool stay. The exceptions are the input of
a connection, the release of a request and the websocket tasks, and an invariant of the event loop
that calm steps keep has to be shown for these alone.
-/

namespace Wasapi.FcgiConn

open Fastcgi

variable {cfg : GlobalConfig} {app : Application} {w w' : World}

/-- An open connection waits for an arena. -/
def Connection.Waits (c : Connection) : Prop := c.closed = false ∧ c.waitingForArena = true

instance (c : Connection) : Decidable c.Waits := by
  unfold Connection.Waits
  infer_instance

/-! ## What is waited for

A connection waits because a BEGIN_REQUEST in its input found no arena. The record is not taken from
the input, and its id is not in use, so whenever the connection is served it will ask for an arena
again. -/

/-- The input of the connection still holds a record that opens a request which is not there. -/
def Deferred (c : Connection) : Prop :=
  ∃ rec ∈ recordFramer.frames c.inBuf, Opens rec ∧ rec.requestId ∉ c.requests

/-- If `c'` waits then `c` waits, for something that is still there. -/
def Calmer (c c' : Connection) : Prop :=
  c'.Waits → c.Waits ∧ c.inBuf <+: c'.inBuf ∧ ∀ id ∈ c'.requests, id ∈ c.requests

theorem Calmer.refl (c : Connection) : Calmer c c :=
  fun h ↦ ⟨h, List.prefix_rfl, fun _ hid ↦ hid⟩

theorem Calmer.trans {c₁ c₂ c₃ : Connection} (h : Calmer c₁ c₂) (h' : Calmer c₂ c₃) :
    Calmer c₁ c₃ := by
  intro hw
  obtain ⟨hw', hbuf', hids'⟩ := h' hw
  obtain ⟨hw'', hbuf, hids⟩ := h hw'
  exact ⟨hw'', hbuf.trans hbuf', fun id hid ↦ hids id (hids' id hid)⟩

theorem Calmer.of_requests {c c' : Connection} (hrequests : c'.requests = c.requests)
    (hbuf : c.inBuf <+: c'.inBuf) (hclosed : c.closed = true → c'.closed = true)
    (hwaits : c'.waitingForArena = c.waitingForArena) : Calmer c c' := by
  rintro ⟨hopen, hw⟩
  refine ⟨⟨Bool.eq_false_iff.mpr fun h ↦ ?_, hwaits ▸ hw⟩, hbuf, fun id hid ↦ hrequests ▸ hid⟩
  cases hopen.symm.trans (hclosed h)

/-- One of the requests changes. -/
theorem calmer_insert (c : Connection) {id : UInt16} (hid : id ∈ c.requests) (r : Request) :
    Calmer c { c with requests := c.requests.insert id r } := by
  refine fun hw ↦ ⟨hw, List.prefix_rfl, fun i hi ↦ ?_⟩
  rcases (AList.mem_insert _).mp hi with rfl | hi
  · exact hid
  · exact hi

theorem Calmer.deferred {c c' : Connection} (h : Calmer c c') (hw : c'.Waits)
    (hdeferred : Deferred c) : Deferred c' := by
  obtain ⟨-, ⟨tail, htail⟩, hids⟩ := h hw
  obtain ⟨rec, hrec, hopens, hid⟩ := hdeferred
  refine ⟨rec, ?_, hopens, fun hid' ↦ hid (hids _ hid')⟩
  rw [← htail, Framer.frames_append]
  exact List.mem_append_left _ hrec

/-- Nobody starts to wait, nothing that is waited for comes, and the queue and the pool stay. -/
structure Calm (w w' : World) : Prop where
  conns {fd c'} : w'.conns.lookup fd = some c' → c'.Waits →
    ∃ c, w.conns.lookup fd = some c ∧ Calmer c c'
  waitingConns : w'.waitingConns = w.waitingConns
  arenas : w'.arenas = w.arenas
  wsArenas : w'.wsArenas = w.wsArenas

theorem Calm.of_lookup (hconns : ∀ k, w'.conns.lookup k = w.conns.lookup k)
    (hqueue : w'.waitingConns = w.waitingConns) (harenas : w'.arenas = w.arenas)
    (hws : w'.wsArenas = w.wsArenas) : Calm w w' :=
  ⟨fun {fd c'} hc' _ ↦ ⟨c', hconns fd ▸ hc', .refl c'⟩, hqueue, harenas, hws⟩

theorem Calm.refl (w : World) : Calm w w := .of_lookup (fun _ ↦ rfl) rfl rfl rfl

theorem Calm.trans {w₁ w₂ w₃ : World} (h : Calm w₁ w₂) (h' : Calm w₂ w₃) : Calm w₁ w₃ := by
  refine ⟨fun hc₃ hw ↦ ?_, h'.waitingConns.trans h.waitingConns, h'.arenas.trans h.arenas,
    h'.wsArenas.trans h.wsArenas⟩
  obtain ⟨c₂, hc₂, hcalm'⟩ := h'.conns hc₃ hw
  obtain ⟨c₁, hc₁, hcalm⟩ := h.conns hc₂ (hcalm' hw).1
  exact ⟨c₁, hc₁, hcalm.trans hcalm'⟩

theorem calm_foldl {ι : Type*} {f : World → ι → World} (hf : ∀ w i, Calm w (f w i))
    (is : List ι) (w : World) : Calm w (is.foldl f w) :=
  List.foldlRecOn is f (Calm.refl w) fun _ hw i _ ↦ hw.trans (hf _ i)

theorem calm_updateConn (w : World) (fd : ℤ) {f : Connection → Connection}
    (hf : ∀ c, w.conns.lookup fd = some c → Calmer c (f c)) : Calm w (w.updateConn fd f) := by
  refine ⟨fun hc' _ ↦ (evolves_updateConn .refl w fd hf).lookup_left hc', ?_, ?_, ?_⟩ <;>
  · rw [World.updateConn_eq]

private theorem calm_updateRef (w : World) (p : ConnRef) {f : Connection → Connection}
    (hf : ∀ c, w.connection p = some c → Calmer c (f c)) : Calm w (w.updateRef p f) := by
  refine ⟨fun hc' _ ↦ (evolves_updateRef .refl w p hf).lookup_left hc', ?_, ?_, ?_⟩ <;>
  · rw [World.updateRef_eq]

private theorem calm_updateRequest (w : World) (p : RequestPtr) (f : Request → Request) :
    Calm w (w.updateRequest p f) := by
  rw [World.updateRequest]
  split
  · exact .refl w
  next r hr =>
  refine calm_updateRef w p.conn fun c hc ↦ calmer_insert c ?_ _
  obtain ⟨c', hc', hcid, hlookup, -⟩ := World.request_eq_some_iff.mp hr
  rw [World.connection_eq_some_iff.mpr ⟨hc', hcid⟩, Option.some.injEq] at hc
  exact AList.lookup_isSome.mp (by rw [← hc, hlookup]; rfl)

/-! ## What does not touch the queue

These steps neither make anybody wait nor serve anybody. Requests may leave a map, which can only
put off what is waited for. -/

theorem calm_readAll (fd : ℤ) (data : Bytes) (ending : RecvEnd) (w : World) :
    Calm w (readAll fd data ending w) :=
  calm_updateConn w fd fun c _ ↦ .of_requests rfl (List.prefix_append _ _)
    (fun h ↦ by rw [h, Bool.true_or]) rfl

theorem calm_hangUp (fd : ℤ) (w : World) :
    Calm w (w.updateConn fd fun c ↦ { c with closed := true }) :=
  calm_updateConn w fd fun _ _ ↦ .of_requests rfl List.prefix_rfl (fun _ ↦ rfl) rfl

theorem calm_flushConnection (fd : ℤ) (w : World) : Calm w (flushConnection fd w) := by
  obtain ⟨conns, sends, closeQueue, heq⟩ := flushConnection_eq fd w
  refine ⟨fun hc' _ ↦ ?_, ?_, ?_, ?_⟩
  · obtain ⟨c, hc, hflushed, -⟩ := flushed_flushConnection hc'
    refine ⟨c, hc, .of_requests hflushed.requests ?_ hflushed.keepsClosed hflushed.waitingForArena⟩
    rw [hflushed.inBuf]
  all_goals rw [heq]

theorem calm_timeoutRequests (cfg : GlobalConfig) (w : World) (fd : ℤ) :
    Calm w (timeoutRequests cfg w fd) := by
  refine calm_foldl (fun w id ↦ calm_updateConn w fd fun c _ ↦ ?_) _ w
  split
  · exact .refl c
  next r hr =>
  split
  · exact calmer_insert c (AList.lookup_isSome.mp (by rw [hr]; rfl)) _
  · exact .refl c

theorem calm_processPendingOutput (app : Application) (w : World) :
    Calm w (processPendingOutput app w) := by
  have hempty : Calm w { w with pendingOutput := [] } := .of_lookup (fun _ ↦ rfl) rfl rfl rfl
  refine hempty.trans (calm_foldl (f := answerPending app) (fun w p ↦ ?_) _ _)
  rcases answerPending_cases app w p with heq | ⟨r, c, offset, -, -, -, -, heq⟩
  · rw [heq]
    exact .refl w
  · rw [heq]
    refine (calm_updateRequest w p _).trans (calm_updateRef _ p.conn fun c _ ↦ ?_)
    obtain ⟨epollOut, wanted, hanswer⟩ := appendAnswer_eq (onRequestReady app r offset).2 c
    rw [hanswer]
    exact .of_requests rfl List.prefix_rfl (fun h ↦ h) rfl

theorem calm_workerStep (app : Application) (k : ℕ) (w : World) :
    Calm w (workerStep app k w) := by
  have hphase (tasks : List Task) : Calm w { w with tasks := tasks } :=
    .of_lookup (fun _ ↦ rfl) rfl rfl rfl
  rcases workerStep_cases app k w with heq | ⟨t, -, ⟨ph, -, heq⟩ | ⟨-, heq⟩ | ⟨-, heq⟩ | ⟨-, heq⟩⟩
  · rw [heq]
    exact .refl w
  · rw [heq]
    exact hphase _
  · rw [heq]
    exact (hphase _).trans ((calm_updateRequest _ t.request app.prepared).trans
      (.of_lookup (fun _ ↦ rfl) rfl rfl rfl))
  · rw [heq]
    exact (hphase _).trans (calm_updateRequest _ t.request _)
  · rw [heq]
    refine .trans (calm_updateRef w t.request.conn fun c _ ↦ ?_)
      (.of_lookup (fun _ ↦ rfl) rfl rfl rfl)
    exact .of_requests rfl List.prefix_rfl (fun h ↦ h) rfl

theorem calm_finalizeRequest (cfg : GlobalConfig) (fd : ℤ) (id : UInt16) (w : World) :
    Calm w (finalizeRequest cfg fd id w) := by
  rw [finalizeRequest]
  split
  · exact .refl w
  next r hr =>
  refine .trans (calm_updateConn w fd fun c hc ↦ ?_) (.of_lookup (fun _ ↦ rfl) rfl rfl rfl)
  rw [hc, Option.bind_some] at hr
  exact calmer_insert c (AList.lookup_isSome.mp (by rw [hr]; rfl)) _

/-- `release_request` up to the release of the arena. -/
theorem calm_destroyRequest (fd : ℤ) (id : UInt16) (w : World) :
    Calm w { destroyRequest fd id w with arenas := w.arenas } ∧
      ((destroyRequest fd id w).arenas = w.arenas ∨
        ∃ i, (destroyRequest fd id w).arenas = w.arenas.release i) := by
  rw [destroyRequest]
  split
  · exact ⟨.refl w, .inl rfl⟩
  next r hr =>
  have hmarked : Calm w (w.updateConn fd fun c ↦
      { c with requests := c.requests.insert id { r with released := true } }) := by
    refine calm_updateConn w fd fun c hc ↦ ?_
    rw [hc, Option.bind_some] at hr
    exact calmer_insert c (AList.lookup_isSome.mp (by rw [hr]; rfl)) _
  have hsame : Calm w { w.updateConn fd (fun c ↦
      { c with requests := c.requests.insert id { r with released := true } }) with
        arenas := w.arenas } :=
    hmarked.trans (.of_lookup (fun _ ↦ rfl) rfl hmarked.arenas.symm rfl)
  simp only
  split
  · exact ⟨hsame, .inl hmarked.arenas⟩
  · next i _ => exact ⟨hsame, .inr ⟨i, by rw [hmarked.arenas]⟩⟩

theorem calm_eraseRequest (fd : ℤ) (id : UInt16) (w : World) :
    Calm w (eraseRequest fd id w) :=
  calm_updateConn w fd fun _ _ hw ↦
    ⟨hw, List.prefix_rfl, fun _ hid ↦ (AList.mem_erase.mp hid).2⟩

theorem calm_clear (fd : ℤ) (w : World) :
    Calm w (w.updateConn fd fun c ↦ { c with requests := ∅ }) :=
  calm_updateConn w fd fun _ _ hw ↦
    ⟨hw, List.prefix_rfl, fun _ hid ↦ absurd hid (AList.notMem_empty _)⟩

theorem calm_eraseConnection (fd : ℤ) (w : World) : Calm w (eraseConnection fd w) := by
  rw [eraseConnection]
  split
  · exact .refl w
  · refine ⟨fun {k c'} hc' _ ↦ ⟨c', ?_, .refl c'⟩, rfl, rfl, rfl⟩
    by_cases hk : k = fd
    · rw [hk, AList.lookup_erase] at hc'
      cases hc'
    · rwa [AList.lookup_erase_ne hk] at hc'

theorem calm_indexConns (fd : ℤ) (w : World) : Calm w (indexConns fd w) := by
  rw [indexConns]
  split
  · exact .refl w
  · refine ⟨fun {k c'} hc' hw ↦ ?_, rfl, rfl, rfl⟩
    rw [World.lookup_setConn] at hc'
    split at hc'
    · obtain rfl := Option.some.inj hc'
      cases hw.2
    · exact ⟨c', hc', .refl c'⟩

theorem calm_acceptConnection (cfd : ℤ) (w : World) : Calm w (acceptConnection cfd w) := by
  refine ⟨fun {k c'} hc' hw ↦ ?_, rfl, rfl, rfl⟩
  rw [acceptConnection] at hc'
  simp only at hc'
  rw [World.lookup_setConn] at hc'
  split at hc'
  · next hk =>
    obtain rfl := Option.some.inj hc'
    cases hc : w.conns.lookup cfd with
    | none =>
      rw [hc] at hw
      cases hw.2
    | some c =>
      refine ⟨c, hk ▸ hc, .of_requests rfl List.prefix_rfl (fun h ↦ h) rfl⟩
  · exact ⟨c', hc', .refl c'⟩

private theorem calm_handleNewConnections (cfds : List ℤ) (w : World) :
    Calm w (handleNewConnections cfds w) := by
  refine handleNewConnections_invariant (fun w' h ↦ ?_) (fun w' cfd _ h ↦ ?_) (.refl w) cfds
  · exact h.trans (.of_lookup (fun _ ↦ rfl) rfl rfl rfl)
  · exact h.trans (calm_acceptConnection cfd w')

theorem calm_rehash (cfg : GlobalConfig) (app : Application) (w : World) (fds : List ℤ)
    (fd : ℤ) (ids : List UInt16) : Calm w (step cfg app w (.rehash fds fd ids)) := by
  have hconns : Calm w { w with conns := reorder w.conns fds } :=
    .of_lookup (fun k ↦ lookup_reorder w.conns fds k) rfl rfl rfl
  refine hconns.trans (calm_updateConn _ fd fun c _ hw ↦ ⟨hw, List.prefix_rfl, fun id hid ↦ ?_⟩)
  rw [← AList.lookup_isSome] at hid ⊢
  rwa [lookup_reorder] at hid

/-! ## The handlers

The handlers once more, with the three steps that are not calm left open. A property of who waits
and what is free is shown for these three, and `invariant_step` does the rest. -/

section Rule

variable {I : World → Prop} (hcalm : ∀ {w w'}, Calm w w' → I w → I w')
  (hinput : ∀ fd data ending w, I w → I (handleInput cfg fd data ending w))
  (hrelease : ∀ fd id w, I w → I (releaseRequest cfg fd id w))

include hcalm hrelease

private theorem invariant_sweepRequest (h : I w) (fd : ℤ) (id : UInt16) :
    I (sweepRequest cfg fd w id) := by
  rcases sweepRequest_cases cfg fd w id with heq | ⟨r, -, -, ⟨-, heq⟩ | ⟨-, -, heq⟩⟩
  · rwa [heq]
  · rw [heq]
    refine hcalm (calm_eraseRequest fd id _) (hrelease fd id _ ?_)
    exact hcalm (calm_finalizeRequest cfg fd id w) h
  · rw [heq]
    exact hcalm (calm_eraseRequest fd id _) (hrelease fd id w h)

private theorem invariant_closeConnection (h : I w) (fd : ℤ) : I (closeConnection cfg w fd) := by
  have hcleanup (w : World) (id : UInt16) (h : I w) : I (cleanupRequest cfg fd w id) := by
    rw [cleanupRequest]
    split
    · exact h
    · refine hrelease fd id _ ?_
      split
      · exact h
      · exact hcalm (calm_finalizeRequest cfg fd id w) h
  rw [closeConnection]
  split
  · exact h
  · rw [cleanupConnectionRequests]
    refine hcalm ((calm_clear fd _).trans (calm_eraseConnection fd _)) ?_
    exact List.foldlRecOn _ _ h fun w hw id _ ↦ hcleanup w id hw

private theorem invariant_drainCloseQueue (h : I w) : I (drainCloseQueue cfg w) := by
  have hcalms : Calm w { w with closeQueue := [] } := .of_lookup (fun _ ↦ rfl) rfl rfl rfl
  refine List.foldlRecOn _ _ (hcalm hcalms h) fun w hw cfd _ ↦ ?_
  have hindexed : I (indexConns cfd w) := hcalm (calm_indexConns cfd w) hw
  rw [drainTurn]
  split
  · exact invariant_closeConnection hcalm hrelease hindexed cfd
  · exact hindexed

private theorem invariant_housekeepingCloseIdle (h : I w) : I (housekeepingCloseIdle cfg w) := by
  have hchecked : I (w.conns.keys.foldl (timeoutRequests cfg) w) :=
    hcalm (calm_foldl (calm_timeoutRequests cfg) _ w) h
  exact List.foldlRecOn _ _ hchecked fun w hw fd _ ↦
    invariant_closeConnection hcalm hrelease hw fd

include hinput

private theorem invariant_handleIo (h : I w) (fd : ℤ) (events : IoEvents) (data : Bytes)
    (ending : RecvEnd) : I (handleIo cfg fd events data ending w) := by
  have hhup : I (if events.hupOrErr then
      w.updateConn fd fun c ↦ { c with closed := true } else w) := by
    split
    · exact hcalm (calm_hangUp fd w) h
    · exact h
  have hserved : I (serveIo cfg fd events data ending w) := by
    rw [serveIo]
    set w₁ := if events.hupOrErr then w.updateConn fd fun c ↦ { c with closed := true } else w
    have hin : I (if events.epollIn then handleInput cfg fd data ending w₁ else w₁) := by
      split
      · exact hinput fd data ending w₁ hhup
      · exact hhup
    split
    · exact hcalm (calm_flushConnection fd _) hin
    · exact hin
  have hswept : I (sweep cfg fd (serveIo cfg fd events data ending w)) :=
    List.foldlRecOn _ _ hserved fun w hw id _ ↦
      invariant_sweepRequest hcalm hrelease hw fd id
  rw [handleIo]
  split
  · exact h
  · refine invariant_drainCloseQueue hcalm hrelease ?_
    set swept := sweep cfg fd (serveIo cfg fd events data ending w)
    have hcalms : Calm swept { swept with closeQueue := swept.closeQueue ++ [fd] } :=
      .of_lookup (fun _ ↦ rfl) rfl rfl rfl
    rw [queueClose]
    split
    · exact hcalm hcalms hswept
    · exact hswept

/-- **The invariant rule for events.** Beside what the calm steps keep, only the input of a
connection, the release of a request and the websocket tasks have to be looked at. -/
theorem invariant_step (app : Application) (h : I w) (e : Event)
    (htake : I (step cfg app w .wsTake))
    (hreturn : ∀ k, e = .wsReturn k → I (step cfg app w e)) : I (step cfg app w e) := by
  cases e with
  | io fd events data ending =>
    exact invariant_handleIo hcalm hinput hrelease h fd events data ending
  | housekeeping => exact invariant_housekeepingCloseIdle hcalm hrelease h
  | pendingOutput => exact hcalm (calm_processPendingOutput app w) h
  | accept cfds => exact hcalm (calm_handleNewConnections cfds w) h
  | worker k => exact hcalm (calm_workerStep app k w) h
  | outside elapsed sends =>
    have hcalms : Calm w (step cfg app w (.outside elapsed sends)) :=
      .of_lookup (fun _ ↦ rfl) rfl rfl rfl
    exact hcalm hcalms h
  | wsTake => exact htake
  | wsReturn k => exact hreturn k rfl
  | rehash fds fd ids => exact hcalm (calm_rehash cfg app w fds fd ids) h

end Rule

end Wasapi.FcgiConn
