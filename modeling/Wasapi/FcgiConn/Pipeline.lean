import Wasapi.FcgiConn.Housing

/-!
# From the decoder to the response queue

A complete request goes through the worker pool to the response queue. `Awaits` says that a pointer
to it is on this way. A request on an open connection that can still be answered is never off it:
the decoder dispatches it at once, a worker drops it only if it is answered or its connection
closed, and `process_pending_output` answers it.
-/

namespace Wasapi.FcgiConn

open Fastcgi

variable {cfg : GlobalConfig} {app : Application} {w w' : World}

/-! ## On the way

A request is on its way as long as its pointer is in the response queue or in a task that has not
decided to drop it. The decision is made once, when a worker takes the task, and what it finds then
decides where the pointer goes. -/

/-- The task will push its request on the response queue. -/
def Task.WillPush (t : Task) : Prop := t.phase = .queued ∨ t.phase = .started

/-- The request is in `ps`, or a task will push it. -/
def Awaits (ps : List RequestPtr) (tasks : List Task) (p : RequestPtr) : Prop :=
  p ∈ ps ∨ ∃ t ∈ tasks, t.request = p ∧ t.WillPush

/-- A request that is complete, has not failed and is not answered. -/
structure Ready (c : Connection) (r : Request) : Prop where
  opened : c.closed = false
  live : r.released = false
  ready : isReady r.flags = true

/-- Every request that is ready is on its way, and every request knows where it is stored. -/
structure Awaited (ps : List RequestPtr) (w : World) : Prop where
  addressed {fd c id r} : Stored w fd c id r → r.id = id ∧ r.connPtr = some ⟨fd, c.cid⟩
  awaited {fd c id r} : Stored w fd c id r → Ready c r →
    Awaits ps w.tasks ⟨⟨fd, c.cid⟩, id, r.handle⟩

/-- Nobody is overlooked: every complete request on an open connection that is not answered is in
the response queue or in a task that will put it there. -/
def NoneOverlooked (w : World) : Prop :=
  ∀ fd c id r, Stored w fd c id r → Ready c r →
    Awaits w.pendingOutput w.tasks ⟨⟨fd, c.cid⟩, id, r.handle⟩

theorem Awaits.mono {ps ps' : List RequestPtr} {ts ts' : List Task} {p : RequestPtr}
    (h : Awaits ps ts p) (hps : ps ⊆ ps') (hts : ts ⊆ ts') : Awaits ps' ts' p := by
  rcases h with hp | ⟨t, ht, heq, hpush⟩
  · exact .inl (hps hp)
  · exact .inr ⟨t, hts ht, heq, hpush⟩

/-! ## Requests that do not become ready

Most steps make no request ready. They may answer one, close its connection or release it, and then
nobody need be on the way any more. -/

/-- The same request, ready only if it was. -/
structure NoReadier (r r' : Request) : Prop where
  id : r'.id = r.id
  connPtr : r'.connPtr = r.connPtr
  handle : r'.handle = r.handle
  live : r'.released = false → r.released = false
  ready : isReady r'.flags = true → isReady r.flags = true

theorem NoReadier.refl (r : Request) : NoReadier r r := ⟨rfl, rfl, rfl, fun h ↦ h, fun h ↦ h⟩

/-- Every request of `c'` was one of `c`, and was ready if it is. -/
structure NoneReadier (c c' : Connection) : Prop where
  cid : c'.cid = c.cid
  opened : c'.closed = false → c.closed = false
  requests {id r'} : c'.requests.lookup id = some r' →
    ∃ r, c.requests.lookup id = some r ∧ NoReadier r r'

theorem NoneReadier.of_requests {c c' : Connection} (hcid : c'.cid = c.cid)
    (hopened : c'.closed = false → c.closed = false) (hrequests : c'.requests = c.requests) :
    NoneReadier c c' :=
  ⟨hcid, hopened, fun {_ r'} hr' ↦ ⟨r', hrequests ▸ hr', .refl r'⟩⟩

theorem NoneReadier.refl (c : Connection) : NoneReadier c c := .of_requests rfl (fun h ↦ h) rfl

theorem NoneReadier.of_insert {c c' : Connection} {id : UInt16} {r r' : Request}
    (hr : c.requests.lookup id = some r) (hcid : c'.cid = c.cid)
    (hopened : c'.closed = false → c.closed = false)
    (hrequests : c'.requests = c.requests.insert id r') (h : NoReadier r r') :
    NoneReadier c c' := by
  refine ⟨hcid, hopened, fun {i r₁} hr₁ ↦ ?_⟩
  rw [hrequests] at hr₁
  by_cases hi : i = id
  · subst hi
    rw [AList.lookup_insert, Option.some.injEq] at hr₁
    exact ⟨r, hr, hr₁ ▸ h⟩
  · rw [AList.lookup_insert_ne hi] at hr₁
    exact ⟨r₁, hr₁, .refl r₁⟩

theorem NoReadier.trans {r₁ r₂ r₃ : Request} (h : NoReadier r₁ r₂) (h' : NoReadier r₂ r₃) :
    NoReadier r₁ r₃ :=
  ⟨h'.id.trans h.id, h'.connPtr.trans h.connPtr, h'.handle.trans h.handle,
    fun hl ↦ h.live (h'.live hl), fun hr ↦ h.ready (h'.ready hr)⟩

theorem NoneReadier.trans {c₁ c₂ c₃ : Connection} (h : NoneReadier c₁ c₂)
    (h' : NoneReadier c₂ c₃) : NoneReadier c₁ c₃ := by
  refine ⟨h'.cid.trans h.cid, fun ho ↦ h.opened (h'.opened ho), fun hr₃ ↦ ?_⟩
  obtain ⟨r₂, hr₂, hrr'⟩ := h'.requests hr₃
  obtain ⟨r₁, hr₁, hrr⟩ := h.requests hr₂
  exact ⟨r₁, hr₁, hrr.trans hrr'⟩

/-- **The frame rule.** Where nothing becomes ready and nothing leaves its way, nobody is
overlooked. -/
theorem Awaited.of_lookup {ps ps' : List RequestPtr} (h : Awaited ps w)
    (hawaits : ∀ p, Awaits ps w.tasks p → Awaits ps' w'.tasks p)
    (hconns : ∀ {fd c'}, w'.conns.lookup fd = some c' → c'.requests = ∅ ∨
      ∃ c, w.conns.lookup fd = some c ∧ NoneReadier c c') : Awaited ps' w' := by
  have hback {fd c' id r'} (hs : Stored w' fd c' id r') :
      ∃ c r, Stored w fd c id r ∧ NoneReadier c c' ∧ NoReadier r r' := by
    rcases hconns hs.conn with hempty | ⟨c, hc, hcc'⟩
    · have hr := hs.request
      rw [hempty, AList.lookup_empty] at hr
      cases hr
    · obtain ⟨r, hr, hrr'⟩ := hcc'.requests hs.request
      exact ⟨c, r, ⟨hc, hr⟩, hcc', hrr'⟩
  constructor
  · intro fd c' id r' hs
    obtain ⟨c, r, hs₀, hcc', hrr'⟩ := hback hs
    obtain ⟨hid, hptr⟩ := h.addressed hs₀
    exact ⟨hrr'.id.trans hid, hcc'.cid ▸ hrr'.connPtr.trans hptr⟩
  · intro fd c' id r' hs hready
    obtain ⟨c, r, hs₀, hcc', hrr'⟩ := hback hs
    have hr := h.awaited hs₀
      ⟨hcc'.opened hready.opened, hrr'.live hready.live, hrr'.ready hready.ready⟩
    rw [hcc'.cid, hrr'.handle]
    exact hawaits _ hr

theorem Awaited.updateConn {ps : List RequestPtr} (h : Awaited ps w) (fd : ℤ)
    {f : Connection → Connection}
    (hf : ∀ c, w.conns.lookup fd = some c → NoneReadier c (f c)) :
    Awaited ps (w.updateConn fd f) := by
  refine h.of_lookup (fun p hp ↦ ?_) fun hc' ↦
    .inr ((evolves_updateConn .refl w fd hf).lookup_left hc')
  rwa [World.tasks_updateConn]

theorem Awaited.updateRef {ps : List RequestPtr} (h : Awaited ps w) (p : ConnRef)
    {f : Connection → Connection} (hf : ∀ c, w.connection p = some c → NoneReadier c (f c)) :
    Awaited ps (w.updateRef p f) := by
  refine h.of_lookup (fun p hp ↦ ?_) fun hc' ↦
    .inr ((evolves_updateRef .refl w p hf).lookup_left hc')
  rwa [World.tasks_updateRef]

theorem Awaited.updateRequest {ps : List RequestPtr} (h : Awaited ps w) (p : RequestPtr)
    {f : Request → Request} (hf : ∀ r, NoReadier r (f r)) : Awaited ps (w.updateRequest p f) := by
  rw [World.updateRequest]
  split
  · exact h
  next r hr =>
  refine h.updateRef p.conn fun c hc ↦ .of_insert ?_ rfl (fun h ↦ h) rfl (hf r)
  obtain ⟨c', hc', hcid, hlookup, -⟩ := World.request_eq_some_iff.mp hr
  rw [World.connection_eq_some_iff.mpr ⟨hc', hcid⟩, Option.some.injEq] at hc
  exact hc ▸ hlookup

theorem Awaited.of_conns {ps ps' : List RequestPtr} (h : Awaited ps w)
    (hawaits : ∀ p, Awaits ps w.tasks p → Awaits ps' w'.tasks p)
    (hconns : ∀ k, w'.conns.lookup k = w.conns.lookup k) : Awaited ps' w' :=
  h.of_lookup hawaits fun {_ c'} hc' ↦ .inr ⟨c', hconns _ ▸ hc', .refl c'⟩

/-! ## The decoder

The ready check and the dispatch stand in one turn, so a request that becomes ready in a turn is in
a task behind it. -/

/-- The machine of `process_buffer` beside the response queue and the tasks, which were `w`'s. -/
structure MachineAwaited (io : ConnRef) (w : World) (m : Machine World) : Prop where
  pendingOutput : m.ext.pendingOutput = w.pendingOutput
  tasks : w.tasks ⊆ m.ext.tasks
  addressed {id r} : m.requests.lookup id = some r → r.id = id ∧ r.connPtr = some io
  awaited {id r} : m.requests.lookup id = some r → r.released = false → isReady r.flags = true →
    Awaits m.ext.pendingOutput m.ext.tasks ⟨io, id, r.handle⟩

/-- One request is put in, and is on its way if it is ready. -/
theorem MachineAwaited.insert {io : ConnRef} {m m' : Machine World} (h : MachineAwaited io w m)
    {id : UInt16} {r : Request} (hpending : m'.ext.pendingOutput = m.ext.pendingOutput)
    (htasks : m.ext.tasks ⊆ m'.ext.tasks) (hrequests : m'.requests = m.requests.insert id r)
    (hid : r.id = id) (hptr : r.connPtr = some io)
    (hready : r.released = false → isReady r.flags = true →
      Awaits m'.ext.pendingOutput m'.ext.tasks ⟨io, id, r.handle⟩) : MachineAwaited io w m' := by
  refine ⟨hpending.trans h.pendingOutput, fun _ ht ↦ htasks (h.tasks ht), fun {i r'} hr' ↦ ?_,
    fun {i r'} hr' hlive hr ↦ ?_⟩
  · rw [hrequests] at hr'
    by_cases hi : i = id
    · rw [hi, AList.lookup_insert, Option.some.injEq] at hr'
      subst hr'
      exact ⟨hid.trans hi.symm, hptr⟩
    · rw [AList.lookup_insert_ne hi] at hr'
      exact h.addressed hr'
  · rw [hrequests] at hr'
    by_cases hi : i = id
    · subst hi
      rw [AList.lookup_insert, Option.some.injEq] at hr'
      subst hr'
      exact hready hlive hr
    · rw [AList.lookup_insert_ne hi] at hr'
      exact (h.awaited hr' hlive hr).mono (hpending ▸ List.Subset.refl _) htasks

/-- `internal_on_request_ready` puts a request that is ready on its way. -/
theorem internalOnRequestReady_awaits (cfg : GlobalConfig) (r : Request) {io : ConnRef}
    (hptr : r.connPtr = some io) (w : World) :
    (internalOnRequestReady cfg r w).2.pendingOutput = w.pendingOutput ∧
      w.tasks ⊆ (internalOnRequestReady cfg r w).2.tasks ∧
      ((internalOnRequestReady cfg r w).1.id = r.id ∧
        (internalOnRequestReady cfg r w).1.connPtr = some io ∧
        (internalOnRequestReady cfg r w).1.handle = r.handle) ∧
      (isReady r.flags = true → Awaits w.pendingOutput (internalOnRequestReady cfg r w).2.tasks
        ⟨io, r.id, r.handle⟩) := by
  rw [internalOnRequestReady]
  split
  · next hresponded =>
    refine ⟨rfl, List.Subset.refl _, ⟨rfl, hptr, rfl⟩, fun hready ↦ ?_⟩
    rw [isReady, hresponded] at hready
    simp at hready
  split
  · next hnone => cases hptr.symm.trans hnone
  next p hp =>
  obtain rfl := Option.some.inj (hptr.symm.trans hp)
  refine ⟨World.pendingOutput_updateRef _ _, List.subset_append_left _ _, ⟨rfl, hptr, rfl⟩, ?_⟩
  intro _
  exact .inr ⟨_, List.mem_append_right _ (List.mem_singleton_self _), rfl, .inl rfl⟩

theorem MachineAwaited.touch (cfg : GlobalConfig) {io : ConnRef} {m : Machine World}
    (h : MachineAwaited io w m)
    {limits : Limits} {rec : Record} {body : RequestCore → Bytes → RequestCore × Bytes}
    (hbody : recordBody limits rec = some body) {r : Request} (hid : r.id = rec.requestId)
    (hptr : r.connPtr = some io) :
    MachineAwaited io w (touch (callbacks cfg io) rec.requestId body r m) := by
  have hcore := (coreProgress_recordBody hbody r.toRequestCore m.outBuf).id
  set r₁ := r.withCore (body r.toRequestCore m.outBuf).1
  have hid₁ : r₁.id = rec.requestId := hcore.trans hid
  obtain ⟨hpending, htasks, ⟨hid₂, hptr₂, hhandle₂⟩, hready⟩ :=
    internalOnRequestReady_awaits cfg r₁ hptr m.ext
  rw [Fastcgi.touch]
  split
  · next hr =>
    have hway : Awaits (internalOnRequestReady cfg r₁ m.ext).2.pendingOutput
        (internalOnRequestReady cfg r₁ m.ext).2.tasks
        ⟨io, rec.requestId, (internalOnRequestReady cfg r₁ m.ext).1.handle⟩ := by
      rw [hpending, hhandle₂, ← hid₁]
      exact hready hr
    exact h.insert hpending htasks rfl (hid₂.trans hid₁) hptr₂ fun _ _ ↦ hway
  · next hr =>
    exact h.insert rfl (List.Subset.refl _) rfl hid₁ hptr fun _ hready ↦ absurd hready hr

/-- **One turn of the machine puts what it makes ready on its way.** -/
theorem MachineAwaited.turn {io : ConnRef} {m : Machine World} (h : MachineAwaited io w m)
    (limits : Limits) (rec : Record) :
    MachineAwaited io w (turn limits (callbacks cfg io) m rec) := by
  have hkeeps {res : Option Request × World}
      (heq : (callbacks cfg io).allocateRequest rec.requestId m.ext = res) :
      MachineAwaited io w { m with ext := res.2 } ∧
        ∀ r, res.1 = some r → r.id = rec.requestId ∧ r.connPtr = some io := by
    rw [show (callbacks cfg io).allocateRequest = allocateRequest cfg io from rfl] at heq
    rcases allocateRequest_cases cfg io rec.requestId m.ext with ⟨v, hv, -, hled⟩ |
      ⟨r, i, v, hv, -, hfresh, -, -, hpending, htasks, -⟩
    · obtain rfl := hv.symm.trans heq
      refine ⟨⟨hled.pendingOutput.trans h.pendingOutput, ?_, h.addressed, ?_⟩, fun r hr ↦ ?_⟩
      · rw [hled.tasks]
        exact h.tasks
      · rw [hled.pendingOutput, hled.tasks]
        exact h.awaited
      · cases hr
    · obtain rfl := hv.symm.trans heq
      refine ⟨⟨hpending.trans h.pendingOutput, ?_, h.addressed, ?_⟩, fun r' hr' ↦ ?_⟩
      · rw [htasks]
        exact h.tasks
      · rw [hpending, htasks]
        exact h.awaited
      · obtain rfl := Option.some.inj hr'
        exact ⟨hfresh.id, hfresh.connPtr⟩
  rw [Fastcgi.turn]
  rcases processRecord_cases limits (callbacks cfg io) rec m with ⟨-, hrec⟩ |
    ⟨body, r, hbody, hr, hrec⟩ | ⟨body, nr, w', hbody, -, heq, hrec⟩ | ⟨body, w', -, -, heq, hrec⟩
  · rw [hrec]
    exact h
  · rw [hrec]
    obtain ⟨hid, hptr⟩ := h.addressed hr
    exact h.touch cfg hbody hid hptr
  · obtain ⟨hm, hnew⟩ := hkeeps heq
    obtain ⟨hid, hptr⟩ := hnew nr rfl
    rw [hrec]
    have htouch := hm.touch cfg hbody hid hptr
    rwa [← touch_insert _ rec.requestId body nr nr] at htouch
  · rw [hrec]
    split
    · exact (hkeeps heq).1
    · exact (hkeeps heq).1

/-- The response queue and the tasks behind `process_fcgi` are those of the machine. -/
theorem queues_processFcgi (cfg : GlobalConfig) (fd : ℤ) (w : World) :
    processFcgi cfg fd w = w ∨ ∃ c, w.conns.lookup fd = some c ∧ c.closed = false ∧
      (processFcgi cfg fd w).pendingOutput = (processed cfg fd w c).ext.pendingOutput ∧
      (processFcgi cfg fd w).tasks = (processed cfg fd w c).ext.tasks := by
  rw [processFcgi]
  split
  · exact .inl rfl
  next c hc =>
  split
  · exact .inl rfl
  next hopen =>
  exact .inr ⟨c, hc, Bool.eq_false_iff.mpr hopen, World.pendingOutput_updateConn _ _,
    World.tasks_updateConn _ _⟩

theorem Awaited.processFcgi (h : Awaited w.pendingOutput w) (fd : ℤ) :
    Awaited (processFcgi cfg fd w).pendingOutput (processFcgi cfg fd w) := by
  rcases queues_processFcgi cfg fd w with heq | ⟨c, hc, hopen, hpending, htasks⟩
  · rwa [heq]
  have hm : MachineAwaited ⟨fd, c.cid⟩ w (processed cfg fd w c).toMachine := by
    have hstart : MachineAwaited ⟨fd, c.cid⟩ w ⟨c.requests, c.outBuf, w⟩ :=
      ⟨rfl, List.Subset.refl _, fun hr ↦ h.addressed ⟨hc, hr⟩, fun hr hlive hready ↦
        h.awaited ⟨hc, hr⟩ ⟨hopen, hlive, hready⟩⟩
    rw [processed, processBuffer_eq_foldl]
    exact List.foldlRecOn _ _ hstart fun m hm rec _ ↦ hm.turn cfg.toLimits rec
  constructor
  · intro k c' id r hs
    obtain ⟨c₁, active, hc₁, -, ⟨-, rfl⟩ | ⟨rfl, -, rfl⟩⟩ := processFcgi_cases cfg hs.conn
    · exact h.addressed (c := c₁) ⟨hc₁, hs.request⟩
    · obtain rfl := Option.some.inj (hc.symm.trans hc₁)
      exact hm.addressed hs.request
  · intro k c' id r hs hready
    rw [hpending, htasks]
    obtain ⟨c₁, active, hc₁, -, ⟨-, rfl⟩ | ⟨rfl, -, rfl⟩⟩ := processFcgi_cases cfg hs.conn
    · rw [hm.pendingOutput]
      exact (h.awaited (c := c₁) ⟨hc₁, hs.request⟩ ⟨hready.opened, hready.live, hready.ready⟩).mono
        (List.Subset.refl _) hm.tasks
    · obtain rfl := Option.some.inj (hc.symm.trans hc₁)
      exact hm.awaited hs.request hready.live hready.ready

/-! ## The response queue

`process_pending_output` takes the whole queue and answers what it finds. A request it passes over
was not ready. -/

/-- The server's handler sets RESPONDED. -/
theorem responded_onRequestReady (r : Request) (offset : UInt64) :
    (onRequestReady app r offset).1.flags.responded = true ∧
      NoReadier r (onRequestReady app r offset).1 := by
  rw [onRequestReady]
  split
  · next hresponded => exact ⟨hresponded, .refl r⟩
  · refine ⟨rfl, rfl, rfl, rfl, fun h ↦ h, fun hready ↦ ?_⟩
    simp [isReady] at hready

private theorem noneReadier_appendAnswer (answer : Bytes) (c : Connection) :
    NoneReadier c (appendAnswer answer c) := by
  obtain ⟨epollOut, wanted, heq⟩ := appendAnswer_eq answer c
  rw [heq]
  exact .of_requests rfl (fun h ↦ h) rfl

/-- **A request that is ready is answered** when `process_pending_output` comes to it. -/
theorem responded_answerPending {fd : ℤ} {c c' : Connection} {id : UInt16} {r r' : Request}
    (hs : Stored w fd c id r) (hready : Ready c r)
    (hs' : Stored (answerPending app w ⟨⟨fd, c.cid⟩, id, r.handle⟩) fd c' id r') :
    r'.flags.responded = true := by
  have hunanswered : r.flags.responded = false := by
    have hr := hready.ready
    rw [isReady] at hr
    simp only [Bool.and_eq_true, Bool.not_eq_true'] at hr
    exact hr.1.1.2
  have hconn : w.connection ⟨fd, c.cid⟩ = some c := World.connection_eq_some_iff.mpr ⟨hs.conn, rfl⟩
  have hr : w.request ⟨⟨fd, c.cid⟩, id, r.handle⟩ = some r :=
    World.request_eq_some_iff.mpr ⟨c, hs.conn, rfl, hs.request, rfl, hready.live⟩
  have hopen : ¬(r.flags.responded || c.closed) = true := by
    rw [hunanswered, hready.opened]
    exact Bool.false_ne_true
  obtain ⟨hc', hr'⟩ := hs'
  rw [answerPending] at hc'
  simp only [hr, hconn, if_neg hopen] at hc'
  rw [World.lookup_updateRef, World.updateRequest, hr, Option.map_eq_some_iff] at hc'
  obtain ⟨c₁, hc₁, rfl⟩ := hc'
  simp only [World.lookup_updateRef] at hc₁
  rw [hs.conn, Option.map_some, if_pos ⟨trivial, rfl⟩, Option.some.injEq] at hc₁
  subst hc₁
  have hrequests (b : Bool) (c₂ : Connection) :
      (if b = true then updateWriteInterest true c₂ else c₂).requests = c₂.requests := by
    split
    · rw [updateWriteInterest]
      split <;> rfl
    · rfl
  rw [if_pos ⟨rfl, rfl⟩] at hr'
  simp only [hrequests] at hr'
  rw [AList.lookup_insert, Option.some.injEq] at hr'
  rw [← hr']
  exact (responded_onRequestReady r _).1

private theorem noneReadier_answerPending (app : Application) (w : World) (p : RequestPtr) :
    Evolves NoneReadier w (answerPending app w p) := by
  rcases answerPending_cases app w p with heq | ⟨r, c, offset, hr, -, -, -, heq⟩
  · rw [heq]
    exact .refl .refl w
  · have hanswered : Evolves NoneReadier w
        (w.updateRequest p fun _ ↦ (onRequestReady app r offset).1) := by
      rw [World.updateRequest, hr]
      refine evolves_updateRef .refl w p.conn fun c hc ↦ .of_insert ?_ rfl (fun h ↦ h) rfl
        (responded_onRequestReady r offset).2
      -- the request that is written is the one that was read
      obtain ⟨c', hc', hcid, hlookup, -⟩ := World.request_eq_some_iff.mp hr
      rw [World.connection_eq_some_iff.mpr ⟨hc', hcid⟩, Option.some.injEq] at hc
      exact hc ▸ hlookup
    rw [heq]
    exact hanswered.trans .trans
      (evolves_updateRef .refl _ p.conn fun c _ ↦ noneReadier_appendAnswer _ c)

theorem tasks_answerPending (app : Application) (w : World) (p : RequestPtr) :
    (answerPending app w p).tasks = w.tasks := by
  rcases answerPending_cases app w p with heq | ⟨r, c, offset, hr, -, -, -, heq⟩
  · rw [heq]
  · rw [heq, World.tasks_updateRef, World.updateRequest, hr]
    exact World.tasks_updateRef _ _

theorem Awaited.answerPending {ps : List RequestPtr} {p : RequestPtr} (h : Awaited (p :: ps) w) :
    Awaited ps (answerPending app w p) := by
  have hevolves := noneReadier_answerPending app w p
  have hkept : Awaited (p :: ps) (FcgiConn.answerPending app w p) :=
    h.of_lookup (fun _ hp ↦ (tasks_answerPending app w p).symm ▸ hp)
      fun hc' ↦ .inr (hevolves.lookup_left hc')
  refine ⟨hkept.addressed, fun {fd c' id r'} hs' hready' ↦ ?_⟩
  rcases hkept.awaited hs' hready' with hmem | htask
  · rcases List.mem_cons.mp hmem with rfl | hmem
    · -- this one has been answered
      obtain ⟨c, hc, hcc'⟩ := hevolves.lookup_left hs'.conn
      obtain ⟨r, hr, hrr'⟩ := hcc'.requests hs'.request
      have hready : Ready c r :=
        ⟨hcc'.opened hready'.opened, hrr'.live hready'.live, hrr'.ready hready'.ready⟩
      rw [hcc'.cid, hrr'.handle] at hs'
      have hresponded := responded_answerPending ⟨hc, hr⟩ hready hs'
      have hisReady := hready'.ready
      rw [isReady, hresponded] at hisReady
      simp at hisReady
    · exact .inl hmem
  · exact .inr htask

/-- Behind `process_pending_output` only the workers have requests that are ready. -/
theorem Awaited.processPendingOutput (app : Application) (h : Awaited w.pendingOutput w) :
    Awaited [] (processPendingOutput app w) := by
  rw [FcgiConn.processPendingOutput]
  have hempty : Awaited w.pendingOutput { w with pendingOutput := [] } :=
    h.of_conns (fun _ hp ↦ hp) fun _ ↦ rfl
  generalize w.pendingOutput = ps at hempty ⊢
  generalize { w with pendingOutput := [] } = v at hempty ⊢
  induction ps generalizing v with
  | nil => exact hempty
  | cons p ps ih => exact ih _ hempty.answerPending

/-! ## Workers

A worker that takes a task looks whether the request has been answered and whether the connection is
closed, and goes on to push it otherwise. It drops only what is not ready or not on an open
connection. -/

/-- A pointer to a request that is ready leads to it. -/
theorem Ready.found {fd : ℤ} {c : Connection} {id : UInt16} {r : Request} (hs : Stored w fd c id r)
    (hready : Ready c r) : w.request ⟨⟨fd, c.cid⟩, id, r.handle⟩ = some r ∧
      w.connection ⟨fd, c.cid⟩ = some c ∧ (!r.flags.responded && !c.closed) = true := by
  refine ⟨World.request_eq_some_iff.mpr ⟨c, hs.conn, rfl, hs.request, rfl, hready.live⟩,
    World.connection_eq_some_iff.mpr ⟨hs.conn, rfl⟩, ?_⟩
  have hr := hready.ready
  rw [isReady] at hr
  simp only [Bool.and_eq_true, Bool.not_eq_true'] at hr
  rw [hr.1.1.2, hready.opened]
  rfl

private theorem mem_set_of_ne {ts : List Task} {k : ℕ} {t t' : Task} (ht : ts[k]? = some t)
    (ht' : t' ∈ ts) (hne : t' ≠ t) (x : Task) : t' ∈ ts.set k x := by
  obtain ⟨j, hj⟩ := List.mem_iff_getElem?.mp ht'
  have hjk : k ≠ j := by
    rintro rfl
    exact hne (Option.some.inj (hj.symm.trans ht))
  exact List.mem_of_getElem? ((List.getElem?_set_ne hjk).trans hj)

private theorem mem_eraseIdx_of_ne {ts : List Task} {k : ℕ} {t t' : Task} (ht : ts[k]? = some t)
    (ht' : t' ∈ ts) (hne : t' ≠ t) : t' ∈ ts.eraseIdx k := by
  obtain ⟨j, hj⟩ := List.mem_iff_getElem?.mp ht'
  refine List.mem_eraseIdx_iff_getElem?.mpr ⟨j, ?_, hj⟩
  rintro rfl
  exact hne (Option.some.inj (hj.symm.trans ht))

/-- A worker takes its task from the queue. If it finds nothing to do the request is not ready. -/
theorem Awaited.start (h : Awaited w.pendingOutput w) {k : ℕ} {t : Task} (ht : w.tasks[k]? = some t)
    {phase : TaskPhase} (hphase : phase = .started ∨ ¬∃ r c, w.request t.request = some r ∧
      w.connection t.request.conn = some c ∧ (!r.flags.responded && !c.closed) = true) :
    Awaited w.pendingOutput { w with tasks := w.tasks.set k { t with phase := phase } } := by
  refine ⟨fun hs ↦ h.addressed ⟨hs.conn, hs.request⟩, fun {fd c id r} hs hready ↦ ?_⟩
  have hs₀ : Stored w fd c id r := ⟨hs.conn, hs.request⟩
  rcases h.awaited hs₀ hready with hmem | ⟨t', ht', heq, hpush⟩
  · exact .inl hmem
  by_cases htt' : t' = t
  · subst htt'
    rcases hphase with rfl | hdone
    · refine .inr ⟨{ t' with phase := .started }, ?_, heq, .inr rfl⟩
      exact List.mem_set (List.getElem?_eq_some_iff.mp ht).1 _
    · obtain ⟨hr, hc, hunanswered⟩ := hready.found hs₀
      exact absurd ⟨r, c, heq ▸ hr, heq ▸ hc, hunanswered⟩ hdone
  · exact .inr ⟨t', mem_set_of_ne ht ht' htt' _, heq, hpush⟩

/-- **No worker drops a request that is ready.** -/
theorem Awaited.workerStep (h : Awaited w.pendingOutput w) (k : ℕ) :
    Awaited (workerStep app k w).pendingOutput (workerStep app k w) := by
  rw [FcgiConn.workerStep]
  split
  · exact h
  next t ht =>
  have hset (phase : TaskPhase) (ps : List RequestPtr) (hps : w.pendingOutput ⊆ ps)
      (hpush : ¬t.WillPush ∨ t.request ∈ ps) :
      Awaited ps { w with tasks := w.tasks.set k { t with phase := phase } } := by
    refine h.of_conns (fun p hp ↦ ?_) fun _ ↦ rfl
    rcases hp with hmem | ⟨t', ht', heq, hwill⟩
    · exact .inl (hps hmem)
    by_cases htt' : t' = t
    · subst htt'
      exact .inl (heq ▸ hpush.resolve_left fun hno ↦ hno hwill)
    · exact .inr ⟨t', mem_set_of_ne ht ht' htt' _, heq, hwill⟩
  cases hphase : t.phase with
  | queued =>
    simp only
    split
    · exact h
    split
    · next r c hr hc =>
      split
      · exact h.start ht (.inl rfl)
      · next hdone =>
        refine h.start ht (.inr ?_)
        rintro ⟨r', c', hr', hc', htodo⟩
        obtain rfl := Option.some.inj (hr.symm.trans hr')
        obtain rfl := Option.some.inj (hc.symm.trans hc')
        exact hdone htodo
    · next hnone =>
      refine h.start ht (.inr ?_)
      rintro ⟨r', c', hr', hc', -⟩
      exact hnone r' c' hr' hc'
  | started =>
    have hpushed := hset .pushed (w.pendingOutput ++ [t.request]) (List.subset_append_left _ _)
      (.inr (List.mem_append_right _ (List.mem_singleton_self _)))
    exact (hpushed.updateRequest t.request (f := app.prepared)
      fun r ↦ ⟨rfl, rfl, rfl, fun h ↦ h, fun h ↦ h⟩).of_conns (fun _ hp ↦ hp) fun _ ↦ rfl
  | pushed =>
    have hcleared := hset .cleared w.pendingOutput (List.Subset.refl _) <| .inl <| by
      rw [Task.WillPush, hphase]
      rintro (h | h) <;> cases h
    have hflag := hcleared.updateRequest t.request (f := fun r ↦ { r with workerActive := false })
      fun r ↦ ⟨rfl, rfl, rfl, fun h ↦ h, fun h ↦ h⟩
    have hpending := (sameLedger_updateRequest
      { w with tasks := w.tasks.set k { t with phase := .cleared } } t.request
      fun r ↦ { r with workerActive := false }).pendingOutput
    exact hflag.of_conns (fun _ hp ↦ hp.mono (fun _ hq ↦ hpending.symm ▸ hq) (List.Subset.refl _))
      fun _ ↦ rfl
  | cleared =>
    have hleft := h.updateRef t.request.conn (f := fun c ↦ { c with
      activeWorkers := c.activeWorkers - 1 }) fun c _ ↦ .of_requests rfl (fun h ↦ h) rfl
    refine hleft.of_lookup (fun p hp ↦ ?_) fun hc' ↦ .inr ⟨_, hc', .refl _⟩
    rw [World.tasks_updateRef] at hp
    rw [World.pendingOutput_updateRef]
    rcases hp with hmem | ⟨t', ht', heq, hwill⟩
    · exact .inl hmem
    · refine .inr ⟨t', mem_eraseIdx_of_ne ht ht' ?_, heq, hwill⟩
      rintro rfl
      rw [Task.WillPush, hphase] at hwill
      rcases hwill with h | h <;> cases h

/-! ## Actions

All that is left are the steps that release or answer, and those that do nothing to requests. -/

private theorem noReadier_released (r : Request) : NoReadier r { r with released := true } :=
  ⟨rfl, rfl, rfl, fun h ↦ absurd h.symm Bool.false_ne_true, fun h ↦ h⟩

theorem Awaited.timeoutRequests {ps : List RequestPtr} (h : Awaited ps w) (fd : ℤ) :
    Awaited ps (timeoutRequests cfg w fd) := by
  refine List.foldlRecOn _ _ h fun w hw id _ ↦ Awaited.updateConn hw fd fun c _ ↦ ?_
  split
  · exact .refl c
  next r hr =>
  split
  · refine .of_insert hr rfl (fun h ↦ h) rfl ⟨rfl, rfl, rfl, fun h ↦ h, fun hready ↦ ?_⟩
    simp [isReady] at hready
  · exact .refl c

private theorem pendingOutput_timeoutRequests (cfg : GlobalConfig) (w : World) (fd : ℤ) :
    (timeoutRequests cfg w fd).pendingOutput = w.pendingOutput :=
  List.foldlRecOn (requestIds fd w) (timeoutRequest cfg fd) (b := w)
    (motive := fun v : World ↦ v.pendingOutput = w.pendingOutput) rfl
    fun _ hv _ _ ↦ (World.pendingOutput_updateConn _ _).trans hv

/-- **Nothing overlooks a request.** -/
theorem Awaited.act (h : Awaited w.pendingOutput w) (a : Action) :
    Awaited (act cfg app w a).pendingOutput (act cfg app w a) := by
  have hupdate (fd : ℤ) {f : Connection → Connection}
      (hf : ∀ c, w.conns.lookup fd = some c → NoneReadier c (f c)) :
      Awaited (w.updateConn fd f).pendingOutput (w.updateConn fd f) := by
    rw [World.pendingOutput_updateConn]
    exact h.updateConn fd hf
  cases a with
  | hangUp fd =>
    exact hupdate fd fun c _ ↦ .of_requests rfl (fun h ↦ absurd h.symm Bool.false_ne_true) rfl
  | read fd data ending =>
    refine hupdate fd fun c _ ↦ .of_requests rfl (fun h ↦ ?_) rfl
    exact (Bool.or_eq_false_iff.mp h).1
  | process fd => exact h.processFcgi fd
  | flush fd =>
    obtain ⟨conns, sends, closeQueue, heq⟩ := flushConnection_eq fd w
    rw [FcgiConn.act]
    have hflushed : Awaited w.pendingOutput (flushConnection fd w) := by
      refine h.of_lookup (fun p hp ↦ ?_) fun {k c'} hc' ↦ ?_
      · rw [heq]
        exact hp
      · obtain ⟨c, hc, hflushed, -⟩ := flushed_flushConnection hc'
        refine .inr ⟨c, hc, .of_requests hflushed.cid (fun hopen ↦ ?_) hflushed.requests⟩
        refine Bool.eq_false_iff.mpr fun hclosed ↦ ?_
        cases hopen.symm.trans (hflushed.keepsClosed hclosed)
    have hpending : (flushConnection fd w).pendingOutput = w.pendingOutput := by rw [heq]
    rwa [hpending]
  | timeouts fd =>
    rw [FcgiConn.act, pendingOutput_timeoutRequests]
    exact h.timeoutRequests fd
  | pendingOutput =>
    have hanswered := h.processPendingOutput app
    exact hanswered.of_conns (fun _ hp ↦ hp.mono (List.nil_subset _) (List.Subset.refl _))
      fun _ ↦ rfl
  | finalize fd id =>
    rw [FcgiConn.act, finalizeRequest]
    split
    · exact h
    next r hr =>
    refine Awaited.of_conns (hupdate fd fun c hc ↦ ?_) (fun _ hp ↦ hp) fun _ ↦ rfl
    rw [hc, Option.bind_some] at hr
    exact .of_insert hr rfl (fun h ↦ h) rfl ⟨rfl, rfl, rfl, fun h ↦ h, fun h ↦ h⟩
  | destroy fd id =>
    rw [FcgiConn.act, destroyRequest]
    split
    · exact h
    next r hr =>
    have hmarked := hupdate fd (f := fun c ↦
      { c with requests := c.requests.insert id { r with released := true } }) fun c hc ↦ by
        rw [hc, Option.bind_some] at hr
        exact .of_insert hr rfl (fun h ↦ h) rfl (noReadier_released r)
    simp only
    split
    · exact hmarked
    · exact hmarked.of_conns (fun _ hp ↦ hp) fun _ ↦ rfl
  | erase fd id =>
    refine hupdate fd fun c _ ↦ ⟨rfl, fun h ↦ h, fun {i r} hr ↦ ?_⟩
    by_cases hi : i = id
    · rw [hi, AList.lookup_erase] at hr
      cases hr
    · rw [AList.lookup_erase_ne hi] at hr
      exact ⟨r, hr, .refl r⟩
  | clear fd =>
    refine hupdate fd fun c _ ↦ ⟨rfl, fun h ↦ h, fun {i r} hr ↦ ?_⟩
    rw [AList.lookup_empty] at hr
    cases hr
  | close fd =>
    rw [FcgiConn.act, eraseConnection]
    split
    · exact h
    · refine h.of_lookup (fun _ hp ↦ hp) fun {k c'} hc' ↦ .inr ⟨c', ?_, .refl c'⟩
      by_cases hk : k = fd
      · rw [hk, AList.lookup_erase] at hc'
        cases hc'
      · rwa [AList.lookup_erase_ne hk] at hc'
  | index fd =>
    rw [FcgiConn.act, indexConns]
    split
    · exact h
    · refine h.of_lookup (fun _ hp ↦ hp) fun {k c'} hc' ↦ ?_
      rw [World.lookup_setConn] at hc'
      split at hc'
      · exact .inl (Option.some.inj hc' ▸ rfl)
      · exact .inr ⟨c', hc', .refl c'⟩
  | accept cfd =>
    refine h.of_lookup (fun _ hp ↦ hp) fun {k c'} hc' ↦ ?_
    rw [FcgiConn.act, acceptConnection] at hc'
    simp only at hc'
    rw [World.lookup_setConn] at hc'
    split at hc'
    · next hk =>
      cases hc : w.conns.lookup cfd with
      | none =>
        rw [hc] at hc'
        exact .inl (Option.some.inj hc' ▸ rfl)
      | some c =>
        rw [hc] at hc'
        exact .inr ⟨c, hk ▸ hc, Option.some.inj hc' ▸ .of_requests rfl (fun h ↦ h) rfl⟩
    · exact .inr ⟨c', hc', .refl c'⟩
  | worker k => exact h.workerStep k
  | outside elapsed sends => exact h.of_conns (fun _ hp ↦ hp) fun _ ↦ rfl
  | wsTake =>
    rw [FcgiConn.act, step]
    split
    · exact h
    · exact h.of_conns (fun _ hp ↦ hp) fun _ ↦ rfl
  | wsReturn k =>
    rw [FcgiConn.act, step]
    split
    · exact h
    · exact h.of_conns (fun _ hp ↦ hp) fun _ ↦ rfl
  | rehash fds fd ids =>
    have hconns : Awaited w.pendingOutput { w with conns := reorder w.conns fds } :=
      h.of_conns (fun _ hp ↦ hp) fun k ↦ lookup_reorder w.conns fds k
    rw [FcgiConn.act, step, World.pendingOutput_updateConn]
    refine hconns.updateConn fd fun c _ ↦ ⟨rfl, fun h ↦ h, fun {id r} hr ↦ ⟨r, ?_, .refl r⟩⟩
    rwa [lookup_reorder] at hr
  | queues closeQueue waitingConns acceptPaused => exact h.of_conns (fun _ hp ↦ hp) fun _ ↦ rfl

/-! ## Runs -/

theorem awaited_initial (bases : List UInt64) (capacity : UInt64) :
    Awaited [] (initial bases capacity) :=
  ⟨fun hs ↦ absurd hs.conn.symm (Option.some_ne_none _),
    fun hs ↦ absurd hs.conn.symm (Option.some_ne_none _)⟩

theorem Awaited.step (h : Awaited w.pendingOutput w) (e : Event) :
    Awaited (step cfg app w e).pendingOutput (step cfg app w e) :=
  (acts_step cfg app w e).invariant (I := fun w ↦ Awaited w.pendingOutput w)
    (fun _ a _ hw ↦ hw.act a) h

/-- **No complete request is overlooked.** At any point of any run a request on an open connection
that is complete, has not failed and is not answered is in the response queue, or in a task that
will put it there. -/
theorem always_noneOverlooked (cfg : GlobalConfig) (app : Application) (bases : List UInt64)
    (capacity : UInt64) (events : List Event) :
    Always (step cfg app) NoneOverlooked (initial bases capacity) events :=
  (always_of_invariant (I := fun w ↦ Awaited w.pendingOutput w) (fun _ e h ↦ h.step e)
    (awaited_initial bases capacity) events).mono
    fun _ h fd c id r (hs : Stored _ fd c id r) hready ↦ h.awaited hs hready

end Wasapi.FcgiConn
