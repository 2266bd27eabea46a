import Wasapi.FcgiConn.Answers
import Wasapi.FcgiConn.Reentry

/-!
# Every request has an arena of the pool

`Housed n` holds of the world after any action at all: the pool counts its free arenas, and every
stored request points into one of its `n` arenas and has a handle that has been given out. It does
not say that the arena is still held by the request. But whoever releases a stored request leaves an
arena available.
-/

namespace Wasapi.FcgiConn

open Fastcgi

variable {cfg : GlobalConfig} {app : Application} {w w' : World} {n : ℕ}

/-- The request points into a pool of `n` arenas, and its handle has been given out. -/
structure AtHome (n next : ℕ) (r : Request) : Prop where
  arena : ∃ i, r.arena = some i ∧ i < n
  handle_lt : r.handle < next

structure Housed (n : ℕ) (w : World) : Prop where
  pool : w.arenas.Counted n
  home {fd c id r} : Stored w fd c id r → AtHome n w.nextHandle r

/-- The same arena and the same handle. -/
structure SameHome (r r' : Request) : Prop where
  arena : r'.arena = r.arena
  handle : r'.handle = r.handle

/-- Every request of `c'` was one of `c`. -/
def SameHomes (c c' : Connection) : Prop :=
  ∀ id r', c'.requests.lookup id = some r' →
    ∃ r, c.requests.lookup id = some r ∧ SameHome r r'

theorem SameHome.refl (r : Request) : SameHome r r := ⟨rfl, rfl⟩

theorem AtHome.mono {next next' : ℕ} {r : Request} (h : AtHome n next r) (hle : next ≤ next') :
    AtHome n next' r := ⟨h.arena, h.handle_lt.trans_le hle⟩

private theorem AtHome.of_sameHome {next : ℕ} {r r' : Request} (h : AtHome n next r)
    (hsame : SameHome r r') : AtHome n next r' := by
  constructor
  · rw [hsame.arena]
    exact h.arena
  · rw [hsame.handle]
    exact h.handle_lt

theorem SameHomes.of_requests {c c' : Connection} (h : c'.requests = c.requests) :
    SameHomes c c' := fun _ r' hr' ↦ ⟨r', h ▸ hr', .refl r'⟩

theorem SameHomes.refl (c : Connection) : SameHomes c c := .of_requests rfl

theorem SameHomes.of_insert {c c' : Connection} {id : UInt16} {r r' : Request}
    (hr : c.requests.lookup id = some r) (hrequests : c'.requests = c.requests.insert id r')
    (hsame : SameHome r r') : SameHomes c c' := by
  intro i r₁ hr₁
  rw [hrequests] at hr₁
  by_cases hi : i = id
  · subst hi
    rw [AList.lookup_insert, Option.some.injEq] at hr₁
    exact ⟨r, hr, hr₁ ▸ hsame⟩
  · rw [AList.lookup_insert_ne hi] at hr₁
    exact ⟨r₁, hr₁, .refl r₁⟩

/-! ## Keeping the requests

What is asked of a request is asked of each by itself, and of the pool. So a step keeps it that
brings in only requests which satisfy it, whatever it takes away. -/

theorem Housed.of_lookup (h : Housed n w) (hpool : w'.arenas.Counted n)
    (hle : w.nextHandle ≤ w'.nextHandle)
    (hconns : ∀ {fd c'}, w'.conns.lookup fd = some c' → c'.requests = ∅ ∨
      ∃ c, w.conns.lookup fd = some c ∧ SameHomes c c') : Housed n w' := by
  refine ⟨hpool, fun {fd c' id r'} hs ↦ ?_⟩
  rcases hconns hs.conn with hempty | ⟨c, hc, hsame⟩
  · have hr := hs.request
    rw [hempty, AList.lookup_empty] at hr
    cases hr
  · obtain ⟨r, hr, hhome⟩ := hsame id r' hs.request
    exact ((h.home ⟨hc, hr⟩).mono hle).of_sameHome hhome

theorem Housed.updateConn (h : Housed n w) (fd : ℤ) {f : Connection → Connection}
    (hf : ∀ c, w.conns.lookup fd = some c → SameHomes c (f c)) : Housed n (w.updateConn fd f) := by
  have hconns := evolves_updateConn .refl w fd hf
  refine h.of_lookup ?_ ?_ fun hc' ↦ .inr (hconns.lookup_left hc')
  · rw [World.arenas_updateConn]
    exact h.pool
  · rw [World.nextHandle_updateConn]

theorem Housed.of_conns (h : Housed n w) (hconns : w'.conns = w.conns)
    (hpool : w'.arenas.Counted n) (hle : w.nextHandle ≤ w'.nextHandle) : Housed n w' :=
  h.of_lookup hpool hle fun hc' ↦ .inr ⟨_, hconns ▸ hc', .refl _⟩

theorem Housed.insert (h : Housed n w) {fd : ℤ} {c : Connection}
    (hconns : w'.conns = w.conns.insert fd c) (hrequests : c.requests = ∅)
    (harenas : w'.arenas = w.arenas) (hnext : w'.nextHandle = w.nextHandle) : Housed n w' := by
  refine h.of_lookup (harenas ▸ h.pool) hnext.ge fun {k c'} hc' ↦ ?_
  rw [hconns] at hc'
  by_cases hk : k = fd
  · rw [hk, AList.lookup_insert, Option.some.injEq] at hc'
    exact .inl (hc' ▸ hrequests)
  · rw [AList.lookup_insert_ne hk] at hc'
    exact .inr ⟨c', hc', .refl c'⟩

/-! ## `process_buffer`

A new request gets an arena from the pool and the next handle. All others are as before, but for
what the records have added to them. -/

/-- The machine of `process_buffer` beside a pool of `n` arenas; handles from `first` on have been
given out since. -/
structure MachineHoused (n first : ℕ) (m : Machine World) : Prop where
  pool : m.ext.arenas.Counted n
  le : first ≤ m.ext.nextHandle
  home {id r} : m.requests.lookup id = some r → AtHome n m.ext.nextHandle r

theorem MachineHoused.insert {m m' : Machine World} {first : ℕ} (h : MachineHoused n first m)
    {id : UInt16} {r : Request} (hpool : m'.ext.arenas.Counted n)
    (hle : m.ext.nextHandle ≤ m'.ext.nextHandle) (hrequests : m'.requests = m.requests.insert id r)
    (hr : AtHome n m'.ext.nextHandle r) : MachineHoused n first m' := by
  refine ⟨hpool, h.le.trans hle, fun {i r'} hr' ↦ ?_⟩
  rw [hrequests] at hr'
  by_cases hi : i = id
  · rw [hi, AList.lookup_insert, Option.some.injEq] at hr'
    exact hr' ▸ hr
  · rw [AList.lookup_insert_ne hi] at hr'
    exact (h.home hr').mono hle

theorem arenas_internalOnRequestReady (cfg : GlobalConfig) (r : Request) (w : World) :
    (internalOnRequestReady cfg r w).2.arenas = w.arenas := by
  rw [internalOnRequestReady]
  split
  · rfl
  split
  · rfl
  · exact World.arenas_updateRef _ _

/-- What `allocate_request` leaves of the pool. -/
theorem counted_allocateRequest (cfg : GlobalConfig) (io : ConnRef) (id : UInt16)
    (hpool : w.arenas.Counted n) : (allocateRequest cfg io id w).2.arenas.Counted n ∧
      w.nextHandle ≤ (allocateRequest cfg io id w).2.nextHandle ∧
      ∀ r ∈ (allocateRequest cfg io id w).1,
        AtHome n (allocateRequest cfg io id w).2.nextHandle r := by
  rw [allocateRequest]
  split
  · exact ⟨hpool, le_rfl, fun r hr ↦ absurd hr (Option.not_mem_none r)⟩
  next i m hget =>
  obtain ⟨hcounted, hi⟩ := hpool.get hget
  split
  · exact ⟨hcounted.release i, le_rfl, fun r hr ↦ absurd hr (Option.not_mem_none r)⟩
  · refine ⟨⟨hcounted.length, hcounted.count⟩, Nat.le_succ _, fun r hr ↦ ?_⟩
    obtain rfl := Option.some.inj hr
    exact ⟨⟨i, rfl, hi⟩, Nat.lt_succ_self _⟩

theorem MachineHoused.touch (cfg : GlobalConfig) (io : ConnRef) {m : Machine World} {first : ℕ}
    (h : MachineHoused n first m) (id : UInt16)
    (body : RequestCore → Bytes → RequestCore × Bytes) {r : Request}
    (hr : AtHome n m.ext.nextHandle r) :
    MachineHoused n first (touch (callbacks cfg io) id body r m) := by
  have hcore : AtHome n m.ext.nextHandle (r.withCore (body r.toRequestCore m.outBuf).1) :=
    hr.of_sameHome ⟨rfl, rfl⟩
  rw [Fastcgi.touch]
  split
  · obtain ⟨env, active, heq⟩ := internalOnRequestReady_fst cfg
      (r.withCore (body r.toRequestCore m.outBuf).1) m.ext
    have hnext := nextHandle_internalOnRequestReady cfg
      (r.withCore (body r.toRequestCore m.outBuf).1) m.ext
    refine h.insert ?_ hnext.ge rfl ?_
    · exact (arenas_internalOnRequestReady cfg _ m.ext).symm ▸ h.pool
    · exact hnext.symm ▸ heq.symm ▸ hcore.of_sameHome ⟨rfl, rfl⟩
  · exact h.insert h.pool le_rfl rfl hcore

/-- **One turn of the machine keeps the requests housed.** -/
theorem MachineHoused.turn (cfg : GlobalConfig) (limits : Limits) (io : ConnRef)
    {m : Machine World} {first : ℕ} (h : MachineHoused n first m) (rec : Record) :
    MachineHoused n first (turn limits (callbacks cfg io) m rec) := by
  have halloc := counted_allocateRequest cfg io rec.requestId h.pool
  rw [← show (callbacks cfg io).allocateRequest = allocateRequest cfg io from rfl] at halloc
  rw [Fastcgi.turn]
  rcases processRecord_cases limits (callbacks cfg io) rec m with ⟨-, hrec⟩ |
    ⟨body, r, -, hr, hrec⟩ | ⟨body, nr, w', -, -, heq, hrec⟩ | ⟨body, w', -, -, heq, hrec⟩
  · rw [hrec]
    exact h
  · rw [hrec]
    exact h.touch cfg io rec.requestId body (h.home hr)
  · -- a new request
    rw [heq] at halloc
    obtain ⟨hpool, hle, hnew⟩ := halloc
    have hinsert : MachineHoused n first
        { m with requests := m.requests.insert rec.requestId nr, ext := w' } :=
      h.insert hpool hle rfl (hnew nr rfl)
    rw [hrec]
    exact hinsert.touch cfg io rec.requestId body (hnew nr rfl)
  · -- no arena for one
    rw [heq] at halloc
    obtain ⟨hpool, hle, -⟩ := halloc
    have hkept : MachineHoused n first { m with ext := w' } :=
      ⟨hpool, h.le.trans hle, fun hr ↦ (h.home hr).mono hle⟩
    rw [hrec]
    split
    · exact hkept
    · exact hkept

theorem Housed.processFcgi (h : Housed n w) (fd : ℤ) : Housed n (processFcgi cfg fd w) := by
  have hrun {c : Connection} (hc : w.conns.lookup fd = some c) :
      MachineHoused n w.nextHandle (processed cfg fd w c).toMachine := by
    have hstart : MachineHoused n w.nextHandle ⟨c.requests, c.outBuf, w⟩ :=
      ⟨h.pool, le_rfl, fun hr ↦ h.home ⟨hc, hr⟩⟩
    rw [processed, processBuffer_eq_foldl]
    exact List.foldlRecOn _ _ hstart fun m hm rec _ ↦ hm.turn cfg cfg.toLimits ⟨fd, c.cid⟩ rec
  -- the world behind it: the one there was, or that of the machine
  have hends : FcgiConn.processFcgi cfg fd w = w ∨ ∃ c, w.conns.lookup fd = some c ∧
      (FcgiConn.processFcgi cfg fd w).arenas = (processed cfg fd w c).ext.arenas ∧
      (FcgiConn.processFcgi cfg fd w).nextHandle = (processed cfg fd w c).ext.nextHandle := by
    rw [FcgiConn.processFcgi]
    split
    · exact .inl rfl
    next c hc =>
    split
    · exact .inl rfl
    · exact .inr ⟨c, hc, World.arenas_updateConn _ _, World.nextHandle_updateConn _ _⟩
  rcases hends with heq | ⟨c, hc, harenas, hnext⟩
  · rwa [heq]
  have hm := hrun hc
  refine ⟨harenas ▸ hm.pool, fun {k c' id r'} hs ↦ ?_⟩
  rw [hnext]
  obtain ⟨c₁, active, hc₁, -, ⟨-, rfl⟩ | ⟨rfl, -, rfl⟩⟩ := processFcgi_cases cfg hs.conn
  · exact (h.home ⟨hc₁, hs.request⟩).mono hm.le
  · obtain rfl := Option.some.inj (hc.symm.trans hc₁)
    exact hm.home hs.request

/-! ## What `process_fcgi` does not touch

A part of the world that neither callback changes is the same behind any number of records. It is
used for the flag of `accept`, the queues and the numbers. -/

section Frame

variable {α : Type*} {g : World → α}

/-- Whatever neither of the callbacks touches. -/
theorem frame_turn {limits : Limits} {io : ConnRef}
    (hready : ∀ r w, g (internalOnRequestReady cfg r w).2 = g w)
    (halloc : ∀ id w, g (allocateRequest cfg io id w).2 = g w) (m : Machine World) (rec : Record) :
    g (turn limits (callbacks cfg io) m rec).ext = g m.ext := by
  have htouch (id : UInt16) (body : RequestCore → Bytes → RequestCore × Bytes) (r : Request)
      (m : Machine World) : g (touch (callbacks cfg io) id body r m).ext = g m.ext := by
    rw [touch]
    split
    · exact hready _ m.ext
    · rfl
  have hallocated {res : Option Request × World}
      (h : (callbacks cfg io).allocateRequest rec.requestId m.ext = res) : g res.2 = g m.ext :=
    h ▸ halloc rec.requestId m.ext
  rw [turn]
  rcases processRecord_cases limits (callbacks cfg io) rec m with ⟨-, hrec⟩ |
    ⟨body, r, -, -, hrec⟩ | ⟨body, nr, w', -, -, heq, hrec⟩ | ⟨body, w', -, -, heq, hrec⟩
  · rw [hrec]
    exact rfl
  · rw [hrec]
    exact htouch _ body r m
  · rw [hrec]
    exact (htouch _ body nr { m with requests := m.requests.insert rec.requestId nr
                                     ext := w' }).trans (hallocated heq)
  · rw [hrec]
    split
    · exact hallocated heq
    · exact hallocated heq

theorem frame_processFcgi (hready : ∀ r w, g (internalOnRequestReady cfg r w).2 = g w)
    (halloc : ∀ io id w, g (allocateRequest cfg io id w).2 = g w)
    (hupdate : ∀ (w : World) fd f, g (w.updateConn fd f) = g w) (fd : ℤ) (w : World) :
    g (processFcgi cfg fd w) = g w := by
  rw [processFcgi]
  split
  · rfl
  next c hc =>
  split
  · rfl
  refine (hupdate _ fd _).trans ?_
  have hrun := List.foldlRecOn
    (processTurns cfg.toLimits (callbacks cfg ⟨fd, c.cid⟩) c.inBuf ⟨c.requests, c.outBuf, w⟩)
    (turn cfg.toLimits (callbacks cfg ⟨fd, c.cid⟩)) (b := ⟨c.requests, c.outBuf, w⟩)
    (motive := fun m : Machine World ↦ g m.ext = g w) rfl
    fun m hm rec _ ↦ (frame_turn hready (halloc _) m rec).trans hm
  rwa [← processBuffer_eq_foldl] at hrun

end Frame

/-! ## Handlers that release nothing

They may append, send, mark and prepare, and they leave every request in its arena. -/

theorem Progress.trans {r₁ r₂ r₃ : Request} (h : Progress r₁ r₂) (h' : Progress r₂ r₃) :
    Progress r₁ r₃ :=
  ⟨h.toCoreProgress.trans h'.toCoreProgress, h'.connPtr.trans h.connPtr, h'.handle.trans h.handle,
    h'.arena.trans h.arena, h'.released.trans h.released⟩

theorem Keeps.trans {c₁ c₂ c₃ : Connection} (h : Keeps c₁ c₂) (h' : Keeps c₂ c₃) :
    Keeps c₁ c₃ := by
  refine ⟨h'.cid.trans h.cid, fun id ↦ ?_⟩
  have hrel := h.requests id
  have hrel' := h'.requests id
  generalize c₁.requests.lookup id = o₁, c₂.requests.lookup id = o₂,
    c₃.requests.lookup id = o₃ at hrel hrel' ⊢
  rcases hrel with hp | _
  · rcases hrel' with hp' | _
    exact .some (hp.trans hp')
  · rcases hrel' with _ | _
    exact .none

theorem Keeps.sameHomes {c c' : Connection} (h : Keeps c c') : SameHomes c c' := by
  intro id r' hr'
  obtain ⟨r, hr, hprogress⟩ := h.request_left hr'
  exact ⟨r, hr, hprogress.arena, hprogress.handle⟩

/-- Every request stays where it is, and neither the pool nor the listening socket is touched. -/
structure Stays (w w' : World) : Prop where
  conns : Evolves Keeps w w'
  arenas : w'.arenas = w.arenas
  nextHandle : w'.nextHandle = w.nextHandle
  acceptPaused : w'.acceptPaused = w.acceptPaused

theorem Stays.of_lookup (hconns : ∀ k, w'.conns.lookup k = w.conns.lookup k)
    (harenas : w'.arenas = w.arenas) (hnext : w'.nextHandle = w.nextHandle)
    (hpaused : w'.acceptPaused = w.acceptPaused) : Stays w w' := by
  refine ⟨fun k ↦ ?_, harenas, hnext, hpaused⟩
  rw [hconns]
  exact Evolves.refl keeps_refl w k

theorem Stays.refl (w : World) : Stays w w := .of_lookup (fun _ ↦ rfl) rfl rfl rfl

theorem Stays.trans {w₁ w₂ w₃ : World} (h : Stays w₁ w₂) (h' : Stays w₂ w₃) : Stays w₁ w₃ :=
  ⟨h.conns.trans .trans h'.conns, h'.arenas.trans h.arenas, h'.nextHandle.trans h.nextHandle,
    h'.acceptPaused.trans h.acceptPaused⟩

theorem stays_updateConn (w : World) (fd : ℤ) {f : Connection → Connection}
    (hf : ∀ c, w.conns.lookup fd = some c → Keeps c (f c)) : Stays w (w.updateConn fd f) := by
  refine ⟨evolves_updateConn keeps_refl w fd hf, ?_, ?_, ?_⟩ <;> rw [World.updateConn_eq]

private theorem stays_updateRef (w : World) (p : ConnRef) {f : Connection → Connection}
    (hf : ∀ c, w.connection p = some c → Keeps c (f c)) : Stays w (w.updateRef p f) := by
  refine ⟨evolves_updateRef keeps_refl w p hf, ?_, ?_, ?_⟩ <;> rw [World.updateRef_eq]

private theorem stays_updateRequest (w : World) (p : RequestPtr) {f : Request → Request}
    (hf : ∀ r, w.request p = some r → Progress r (f r)) : Stays w (w.updateRequest p f) := by
  rw [World.updateRequest]
  split
  · exact .refl w
  next r hr =>
  refine stays_updateRef w p.conn fun c hc ↦ .of_insert ?_ (hf r hr) rfl rfl
  obtain ⟨c', hc', hcid, hlookup, -⟩ := World.request_eq_some_iff.mp hr
  rw [World.connection_eq_some_iff.mpr ⟨hc', hcid⟩, Option.some.injEq] at hc
  exact hc ▸ hlookup

theorem stays_timeoutRequests (cfg : GlobalConfig) (w : World) (fd : ℤ) :
    Stays w (timeoutRequests cfg w fd) := by
  refine List.foldlRecOn _ _ (Stays.refl w) fun w' hw' id _ ↦ hw'.trans ?_
  refine stays_updateConn w' fd fun c _ ↦ ?_
  split
  · exact keeps_refl c
  next r hr =>
  split
  · refine .of_insert hr ?_ rfl rfl
    exact ⟨⟨rfl, fun _ ↦ rfl, fun _ _ ↦ rfl⟩, rfl, rfl, rfl, rfl⟩
  · exact keeps_refl c

private theorem stays_answerPending (app : Application) (w : World) (p : RequestPtr) :
    Stays w (answerPending app w p) := by
  rcases answerPending_cases app w p with heq | ⟨r, c, offset, hr, -, -, -, heq⟩
  · rw [heq]
    exact .refl w
  · rw [heq]
    refine (stays_updateRequest w p fun r' hr' ↦ ?_).trans (stays_updateRef _ p.conn fun c _ ↦ ?_)
    · obtain rfl := Option.some.inj (hr.symm.trans hr')
      exact progress_onRequestReady r _
    · obtain ⟨epollOut, wanted, hanswer⟩ := appendAnswer_eq (onRequestReady app r offset).2 c
      rw [hanswer]
      exact .of_requests rfl fun _ ↦ rfl

theorem stays_processPendingOutput (app : Application) (w : World) :
    Stays w (processPendingOutput app w) := by
  have hempty : Stays w { w with pendingOutput := [] } := .of_lookup (fun _ ↦ rfl) rfl rfl rfl
  exact List.foldlRecOn _ _ hempty fun w' hw' p _ ↦ Stays.trans hw' (stays_answerPending app w' p)

theorem stays_workerStep (app : Application) (k : ℕ) (w : World) :
    Stays w (workerStep app k w) := by
  rcases workerStep_cases app k w with heq | ⟨t, -, hcases⟩
  · rw [heq]
    exact .refl w
  have hphase (ph : TaskPhase) : Stays w { w with tasks := w.tasks.set k { t with phase := ph } } :=
    .of_lookup (fun _ ↦ rfl) rfl rfl rfl
  rcases hcases with ⟨ph, -, heq⟩ | ⟨-, heq⟩ | ⟨-, heq⟩ | ⟨-, heq⟩
  · rw [heq]
    exact hphase ph
  · rw [heq]
    have hprepared := (hphase .pushed).trans (stays_updateRequest _ t.request
      fun r _ ↦ (⟨⟨rfl, fun hr ↦ hr, fun hr ↦ hr⟩, rfl, rfl, rfl, rfl⟩ :
        Progress r (app.prepared r)))
    exact ⟨hprepared.conns, hprepared.arenas, hprepared.nextHandle, hprepared.acceptPaused⟩
  · rw [heq]
    exact (hphase .cleared).trans (stays_updateRequest _ t.request
      fun r _ ↦ ⟨⟨rfl, fun hr ↦ hr, fun hr ↦ hr⟩, rfl, rfl, rfl, rfl⟩)
  · rw [heq]
    have hgone := stays_updateRef w t.request.conn
      (f := fun c ↦ { c with activeWorkers := c.activeWorkers - 1 })
      fun c _ ↦ .of_requests rfl fun _ ↦ rfl
    exact ⟨hgone.conns, hgone.arenas, hgone.nextHandle, hgone.acceptPaused⟩

theorem stays_finalizeRequest (cfg : GlobalConfig) (fd : ℤ) (id : UInt16) (w : World) :
    Stays w (finalizeRequest cfg fd id w) := by
  rw [finalizeRequest]
  split
  · exact .refl w
  next r hr =>
  have hcleared (files : DynamicVariable) : Stays w (w.updateConn fd fun c ↦
      { c with requests := c.requests.insert id { r with files := files, body := [] } }) := by
    refine stays_updateConn w fd fun c hc ↦ ?_
    rw [hc, Option.bind_some] at hr
    refine .of_insert hr ?_ rfl rfl
    exact ⟨⟨rfl, fun h ↦ h, fun h ↦ h⟩, rfl, rfl, rfl, rfl⟩
  exact ⟨(hcleared _).conns, (hcleared _).arenas, (hcleared _).nextHandle,
    (hcleared _).acceptPaused⟩

theorem stays_rehash (cfg : GlobalConfig) (app : Application) (w : World) (fds : List ℤ) (fd : ℤ)
    (ids : List UInt16) : Stays w (step cfg app w (.rehash fds fd ids)) := by
  have hconns : Stays w { w with conns := reorder w.conns fds } :=
    .of_lookup (fun k ↦ lookup_reorder w.conns fds k) rfl rfl rfl
  exact hconns.trans (stays_updateConn _ fd fun c _ ↦ .of_requests rfl fun id ↦
    lookup_reorder c.requests ids id)

theorem Housed.stays (h : Housed n w) (hstays : Stays w w') : Housed n w' :=
  h.of_lookup (hstays.arenas ▸ h.pool) hstays.nextHandle.ge fun hc' ↦ by
    obtain ⟨c, hc, hkeeps⟩ := hstays.conns.lookup_left hc'
    exact .inr ⟨c, hc, hkeeps.sameHomes⟩

/-! ## Actions -/

theorem Housed.destroyRequest (h : Housed n w) (fd : ℤ) (id : UInt16) :
    Housed n (destroyRequest fd id w) := by
  rw [FcgiConn.destroyRequest]
  split
  · exact h
  next r hr =>
  have hmarked : Housed n (w.updateConn fd fun c ↦
      { c with requests := c.requests.insert id { r with released := true } }) := by
    refine h.updateConn fd fun c hc ↦ ?_
    rw [hc, Option.bind_some] at hr
    exact .of_insert hr rfl ⟨rfl, rfl⟩
  simp only
  split
  · exact hmarked
  · exact hmarked.of_conns rfl (hmarked.pool.release _) le_rfl

theorem sameHomes_erase (c : Connection) (id : UInt16) :
    SameHomes c { c with requests := c.requests.erase id } := by
  intro i r hr
  by_cases hi : i = id
  · rw [hi, AList.lookup_erase] at hr
    cases hr
  · rw [AList.lookup_erase_ne hi] at hr
    exact ⟨r, hr, .refl r⟩

theorem Housed.eraseConnection (h : Housed n w) (fd : ℤ) : Housed n (eraseConnection fd w) := by
  rw [FcgiConn.eraseConnection]
  split
  · exact h
  · refine h.of_lookup h.pool le_rfl fun {k c'} hc' ↦ .inr ⟨c', ?_, .refl c'⟩
    by_cases hk : k = fd
    · rw [hk, AList.lookup_erase] at hc'
      cases hc'
    · rwa [AList.lookup_erase_ne hk] at hc'

theorem Housed.flushConnection (h : Housed n w) (fd : ℤ) : Housed n (flushConnection fd w) := by
  obtain ⟨conns, sends, closeQueue, heq⟩ := flushConnection_eq fd w
  refine h.of_lookup ?_ ?_ fun hc' ↦ ?_
  · rw [heq]
    exact h.pool
  · rw [heq]
  · obtain ⟨c, hc, hflushed, -⟩ := flushed_flushConnection hc'
    exact .inr ⟨c, hc, .of_requests hflushed.requests⟩

/-- **No action leaves a request without an arena of the pool.** -/
theorem Housed.act (h : Housed n w) (a : Action) : Housed n (act cfg app w a) := by
  cases a with
  | hangUp fd => exact h.stays (stays_updateConn w fd fun c _ ↦ .of_requests rfl fun _ ↦ rfl)
  | read fd data ending =>
    exact h.stays (stays_updateConn w fd fun c _ ↦ .of_requests rfl fun _ ↦ rfl)
  | process fd => exact h.processFcgi fd
  | flush fd => exact h.flushConnection fd
  | timeouts fd => exact h.stays (stays_timeoutRequests cfg w fd)
  | pendingOutput => exact h.stays (stays_processPendingOutput app w)
  | finalize fd id => exact h.stays (stays_finalizeRequest cfg fd id w)
  | destroy fd id => exact h.destroyRequest fd id
  | erase fd id => exact h.updateConn fd fun c _ ↦ sameHomes_erase c id
  | clear fd =>
    refine h.updateConn fd fun c _ id r hr ↦ ?_
    rw [AList.lookup_empty] at hr
    cases hr
  | close fd => exact h.eraseConnection fd
  | index fd =>
    rw [FcgiConn.act, indexConns]
    split
    · exact h
    · exact h.insert rfl rfl rfl rfl
  | accept cfd =>
    rw [FcgiConn.act, acceptConnection]
    cases hc : w.conns.lookup cfd with
    | some c =>
      refine h.stays ⟨.of_puts keeps_refl hc (puts_of_conns rfl) ?_, rfl, rfl, rfl⟩
      exact .of_requests rfl fun _ ↦ rfl
    | none => exact h.insert rfl rfl rfl rfl
  | worker k => exact h.stays (stays_workerStep app k w)
  | outside elapsed sends => exact h.of_conns rfl h.pool le_rfl
  | wsTake =>
    rw [FcgiConn.act, step]
    split
    · exact h
    next i m hget => exact h.of_conns rfl (h.pool.get hget).1 (Nat.le_succ _)
  | wsReturn k =>
    rw [FcgiConn.act, step]
    split
    · exact h
    · exact h.of_conns rfl (h.pool.release _) le_rfl
  | rehash fds fd ids => exact h.stays (stays_rehash cfg app w fds fd ids)
  | queues closeQueue waitingConns acceptPaused => exact h.of_conns rfl h.pool le_rfl

theorem Housed.acts {S : Action → Prop} (h : Housed n w) (hacts : Acts cfg app S w w') :
    Housed n w' :=
  hacts.invariant (fun _ a _ hw ↦ hw.act a) h

theorem housed_initial (bases : List UInt64) (capacity : UInt64) :
    Housed bases.length (initial bases capacity) :=
  ⟨ArenaManager.counted_createArenas bases capacity, fun hs ↦ nomatch hs.conn⟩

/-! ## Releasing

That an arena comes back is a matter of the counter: the request that is released points into the
pool, its arena is in use, and `release` counts it among the available ones. -/

/-- **A release leaves an arena available.** -/
theorem Housed.step (h : Housed n w) (e : Event) : Housed n (step cfg app w e) :=
  h.acts (acts_step cfg app w e)

theorem Housed.available_destroyRequest (h : Housed n w) {fd : ℤ} {c : Connection} {id : UInt16}
    {r : Request} (hs : Stored w fd c id r) : 0 < (FcgiConn.destroyRequest fd id w).available := by
  obtain ⟨i, harena, hi⟩ := (h.home hs).arena
  obtain ⟨-, havailable⟩ := destroyRequest_eq hs harena
  rw [havailable]
  refine (h.pool.release i).pos hi ?_
  rw [ArenaManager.holder_release, if_pos rfl]

end Wasapi.FcgiConn
