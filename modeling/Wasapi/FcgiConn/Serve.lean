import Wasapi.FcgiConn.Handlers

/-!
# What serving connections can do to the world

`process_fcgi`, `flush_connection`, `process_waiting_connections` and `resume_accept` run in several
handlers, and `process_waiting_connections` runs again in the middle of every release. `ServeStep`
says once what they can do, one thing at a time; `Serves` is any number of such things. Properties
of the event loop are shown for `ServeStep` and then hold of all these functions.

Worlds are compared by what their maps hold, not by the order of the entries.
-/

namespace Wasapi.FcgiConn

open Fastcgi

/-! ## Steps

A connection changes beside its requests, a queue changes, a request is allocated, a record is
handled, a request is dispatched. Each of these comes with what it leaves alone, so an invariant is
checked against statements and not against functions. -/

/-- `w'` has `c` at `fd` and the connections of `w` elsewhere. -/
def Puts (w w' : World) (fd : ℤ) (c : Connection) : Prop :=
  ∀ k, w'.conns.lookup k = if k = fd then some c else w.conns.lookup k

/-- The same requests, workers and identity. -/
structure SameOwner (c c' : Connection) : Prop where
  cid : c'.cid = c.cid
  accepted : c'.accepted = c.accepted
  requests : c'.requests = c.requests
  activeWorkers : c'.activeWorkers = c.activeWorkers

/-- Nothing has happened outside of the connections but unlinking files. -/
structure SameLedger (w w' : World) : Prop where
  pendingOutput : w'.pendingOutput = w.pendingOutput
  tasks : w'.tasks = w.tasks
  holder : ∀ i, w'.arenas.holder i = w.arenas.holder i
  wsArenas : w'.wsArenas = w.wsArenas
  nextHandle : w'.nextHandle = w.nextHandle
  trace : ∃ paths : List Bytes, w'.trace = paths.map .unlink ++ w.trace

/-- The same request with the same progress. -/
structure SameRequest (r r' : Request) : Prop where
  id : r'.id = r.id
  flags : r'.flags = r.flags
  connPtr : r'.connPtr = r.connPtr
  handle : r'.handle = r.handle
  arena : r'.arena = r.arena
  released : r'.released = r.released

/-- A request `allocate_request` has just made for a connection. -/
structure FreshRequest (w : World) (io : ConnRef) (id : UInt16) (i : ℕ) (r : Request) : Prop where
  id : r.id = id
  flags : r.flags = {}
  connPtr : r.connPtr = some io
  handle : r.handle = w.nextHandle
  arena : r.arena = some i
  released : r.released = false

/-- One thing the I/O thread does while it serves connections. -/
inductive ServeStep (limits : Limits) (w w' : World) : Prop where
  /-- a connection changes beside its requests -/
  | change (fd : ℤ) (c c' : Connection) (hc : w.conns.lookup fd = some c) (hput : Puts w w' fd c')
      (hown : SameOwner c c') (hled : SameLedger w w')
  /-- the queues of descriptors change -/
  | queues (hconns : ∀ k, w'.conns.lookup k = w.conns.lookup k) (hled : SameLedger w w')
  /-- a request is allocated -/
  | allocate (fd : ℤ) (c : Connection) (id : UInt16) (i : ℕ) (r : Request)
      (hc : w.conns.lookup fd = some c) (hid : c.requests.lookup id = none)
      (hput : Puts w w' fd { c with requests := c.requests.insert id r })
      (hr : FreshRequest w ⟨fd, c.cid⟩ id i r) (hfree : w.arenas.holder i = none)
      (hholder : ∀ j, w'.arenas.holder j
        = if j = i then some w.nextHandle else w.arenas.holder j)
      (hpending : w'.pendingOutput = w.pendingOutput) (htasks : w'.tasks = w.tasks)
      (hws : w'.wsArenas = w.wsArenas) (hnext : w'.nextHandle = w.nextHandle + 1)
      (htrace : w'.trace = w.trace)
  /-- the decoder handles a record of a request -/
  | record (fd : ℤ) (c : Connection) (id : UInt16) (r : Request) (rec : Record)
      (body : RequestCore → Bytes → RequestCore × Bytes) (out : Bytes)
      (hc : w.conns.lookup fd = some c) (hr : c.requests.lookup id = some r)
      (hbody : recordBody limits rec = some body)
      (hput : Puts w w' fd { c with
        requests := c.requests.insert id (r.withCore (body r.toRequestCore out).1)
        outBuf := (body r.toRequestCore out).2 })
      (hled : SameLedger w w')
  /-- a task is enqueued for a ready request -/
  | dispatch (fd : ℤ) (c : Connection) (id : UInt16) (r : Request) (p : ConnRef)
      (hc : w.conns.lookup fd = some c) (hr : c.requests.lookup id = some r)
      (hready : isReady r.flags = true) (hp : r.connPtr = some p)
      (hw' : w' = { w.updateRef p (fun c ↦ { c with activeWorkers := c.activeWorkers + 1 }) with
        tasks := w.tasks ++ [⟨⟨p, r.id, r.handle⟩, .queued⟩] })
  /-- a request changes beside its flags -/
  | amend (fd : ℤ) (c : Connection) (id : UInt16) (r r' : Request)
      (hc : w.conns.lookup fd = some c) (hr : c.requests.lookup id = some r)
      (hsame : SameRequest r r')
      (hput : Puts w w' fd { c with requests := c.requests.insert id r' })
      (hled : SameLedger w w')

/-- Any number of steps. -/
def Serves (limits : Limits) : World → World → Prop := Relation.ReflTransGen (ServeStep limits)

theorem SameLedger.refl (w : World) : SameLedger w w :=
  ⟨rfl, rfl, fun _ ↦ rfl, rfl, rfl, [], rfl⟩

theorem SameOwner.refl (c : Connection) : SameOwner c c := ⟨rfl, rfl, rfl, rfl⟩

theorem Serves.refl (limits : Limits) (w : World) : Serves limits w w := Relation.ReflTransGen.refl

theorem Serves.trans {limits : Limits} {w₁ w₂ w₃ : World} (h : Serves limits w₁ w₂)
    (h' : Serves limits w₂ w₃) : Serves limits w₁ w₃ := Relation.ReflTransGen.trans h h'

theorem ServeStep.serves {limits : Limits} {w w' : World} (h : ServeStep limits w w') :
    Serves limits w w' := Relation.ReflTransGen.single h

/-- **The invariant rule for serving.** -/
theorem Serves.invariant {limits : Limits} {I : World → Prop}
    (hstep : ∀ w w', ServeStep limits w w' → I w → I w') {w w' : World}
    (h : Serves limits w w') (hw : I w) : I w' := by
  induction h with
  | refl => exact hw
  | tail _ hlast ih => exact hstep _ _ hlast ih

section

variable {limits : Limits} {w : World}

theorem puts_of_conns {w' : World} {fd : ℤ} {c : Connection}
    (hconns : w'.conns = w.conns.insert fd c) : Puts w w' fd c := by
  intro k
  rw [hconns]
  exact World.lookup_setConn fd c k

private theorem serves_put {w' : World} {fd : ℤ} {c c' : Connection}
    (hc : w.conns.lookup fd = some c)
    (hown : SameOwner c c') (hconns : w'.conns = w.conns.insert fd c') (hled : SameLedger w w') :
    Serves limits w w' :=
  (ServeStep.change fd c c' hc (puts_of_conns hconns) hown hled).serves

private theorem serves_setConn {fd : ℤ} {c c' : Connection} (hc : w.conns.lookup fd = some c)
    (hown : SameOwner c c') : Serves limits w (w.setConn fd c') :=
  serves_put hc hown rfl ⟨rfl, rfl, fun _ ↦ rfl, rfl, rfl, [], rfl⟩

private theorem serves_updateConn (w : World) (fd : ℤ) {f : Connection → Connection}
    (hf : ∀ c, SameOwner c (f c)) : Serves limits w (w.updateConn fd f) := by
  cases hc : w.conns.lookup fd with
  | none =>
    rw [World.updateConn_of_none hc]
    exact .refl _ _
  | some c =>
    rw [World.updateConn_of_some hc]
    exact serves_setConn hc (hf c)

theorem serves_queues {w' : World} (hconns : w'.conns = w.conns) (hled : SameLedger w w') :
    Serves limits w w' :=
  (ServeStep.queues (fun _ ↦ by rw [hconns]) hled).serves

/-! ## `flush_connection`

The requests and the workers of the connection are the same behind a flush, so it is a step of the
first kind. -/

private theorem sameOwner_updateWriteInterest (want : Bool) (c : Connection) :
    SameOwner c (updateWriteInterest want c) := by
  rw [updateWriteInterest]
  split
  · exact .refl c
  · exact ⟨rfl, rfl, rfl, rfl⟩

private theorem serves_flushLoop (fd : ℤ) (fuel : ℕ) (w : World) :
    Serves limits w (flushLoop fd fuel w) := by
  induction fuel generalizing w with
  | zero => exact .refl _ _
  | succ fuel ih =>
    rw [flushLoop_succ]
    cases hc : w.conns.lookup fd with
    | none => exact .refl _ _
    | some c =>
      have hled : ∀ {w' : World}, w'.pendingOutput = w.pendingOutput ∧ w'.tasks = w.tasks ∧
          w'.arenas = w.arenas ∧ w'.wsArenas = w.wsArenas ∧ w'.nextHandle = w.nextHandle ∧
          w'.trace = w.trace → SameLedger w w' := fun ⟨h₁, h₂, h₃, h₄, h₅, h₆⟩ ↦
        ⟨h₁, h₂, fun i ↦ by rw [h₃], h₄, h₅, [], h₆⟩
      have hwant : ∀ want, SameOwner c (updateWriteInterest want c) :=
        fun want ↦ sameOwner_updateWriteInterest want c
      simp only
      split
      · have hcleared : SameOwner c
            { updateWriteInterest false c with outBuf := [], outPos := 0 } :=
          ⟨(hwant false).cid, (hwant false).accepted, (hwant false).requests,
            (hwant false).activeWorkers⟩
        split
        · split
          · exact serves_put hc hcleared rfl (hled ⟨rfl, rfl, rfl, rfl, rfl, rfl⟩)
          · exact serves_setConn hc hcleared
        · split
          · exact serves_put hc (hwant false) rfl (hled ⟨rfl, rfl, rfl, rfl, rfl, rfl⟩)
          · exact serves_setConn hc (hwant false)
      · split
        · exact serves_put hc (hwant true) rfl (hled ⟨rfl, rfl, rfl, rfl, rfl, rfl⟩)
        · exact serves_put hc (hwant true) rfl (hled ⟨rfl, rfl, rfl, rfl, rfl, rfl⟩)
        · have hown : SameOwner c { c with closed := true } := ⟨rfl, rfl, rfl, rfl⟩
          exact serves_put hc hown rfl (hled ⟨rfl, rfl, rfl, rfl, rfl, rfl⟩)
        · next n sends _ =>
          have hown : SameOwner c
              { c with outPos := c.outPos + min (n + 1) (c.outBuf.length - c.outPos) } :=
            ⟨rfl, rfl, rfl, rfl⟩
          refine Serves.trans ?_ (ih _)
          exact serves_put hc hown rfl (hled ⟨rfl, rfl, rfl, rfl, rfl, rfl⟩)

theorem serves_flushConnection (fd : ℤ) (w : World) : Serves limits w (flushConnection fd w) := by
  rw [flushConnection]
  split
  · exact .refl _ _
  · exact serves_flushLoop fd _ w

/-! ## `process_fcgi`

The machine of `process_buffer` has the requests and the output in its own hands until it ends. At
every turn the world is looked at as if they had been written back, and the turn is then one or two
steps. -/

/-- **What `allocate_request` can do.** -/
theorem allocateRequest_cases (cfg : GlobalConfig) (io : ConnRef) (id : UInt16) (w : World) :
    (∃ w', allocateRequest cfg io id w = (none, w') ∧ w'.conns = w.conns ∧ SameLedger w w') ∨
    (∃ r i w', allocateRequest cfg io id w = (some r, w') ∧ w'.conns = w.conns ∧
      FreshRequest w io id i r ∧ w.arenas.holder i = none ∧
      (∀ j, w'.arenas.holder j = if j = i then some w.nextHandle else w.arenas.holder j) ∧
      w'.pendingOutput = w.pendingOutput ∧ w'.tasks = w.tasks ∧ w'.wsArenas = w.wsArenas ∧
      w'.nextHandle = w.nextHandle + 1 ∧ w'.trace = w.trace) := by
  rw [allocateRequest]
  cases hget : w.arenas.get w.nextHandle with
  | none => exact .inl ⟨w, rfl, rfl, .refl w⟩
  | some p =>
    obtain ⟨i, m⟩ := p
    have hfree := ArenaManager.holder_of_get hget
    have hholder := ArenaManager.holder_get hget
    simp only
    cases m.arenas[i]?.bind fun a ↦ (a.alloc cfg.sizeofRequest cfg.alignofRequest).block? with
    | none =>
      -- the arena goes back to where it came from
      refine .inl ⟨_, rfl, rfl, rfl, rfl, fun j ↦ ?_, rfl, rfl, [], rfl⟩
      simp only
      rw [ArenaManager.holder_release]
      by_cases hj : j = i
      · rw [if_pos hj, hj, hfree]
      · rw [if_neg hj, hholder, if_neg hj]
    | some q =>
      exact .inr ⟨_, i, _, rfl, rfl, ⟨rfl, rfl, rfl, rfl, rfl, rfl⟩, hfree, hholder, rfl, rfl, rfl,
        rfl, rfl⟩

/-- The world with the requests and the output of the machine back in the connection. -/
def checkIn (fd : ℤ) (m : Machine World) : World :=
  m.ext.updateConn fd fun c ↦ { c with requests := m.requests, outBuf := m.outBuf }

theorem lookup_checkIn (fd : ℤ) (m : Machine World) (k : ℤ) :
    (checkIn fd m).conns.lookup k
      = (m.ext.conns.lookup k).map fun c ↦
          if k = fd then { c with requests := m.requests, outBuf := m.outBuf } else c :=
  World.lookup_updateConn fd _ k

private theorem lookup_checkIn_self {fd : ℤ} {m : Machine World} {c : Connection}
    (hc : m.ext.conns.lookup fd = some c) :
    (checkIn fd m).conns.lookup fd
      = some { c with requests := m.requests, outBuf := m.outBuf } := by
  rw [lookup_checkIn, hc, Option.map_some, if_pos rfl]

private theorem sameLedger_checkIn {w w' : World} (fd : ℤ) (requests requests' : Requests)
    (out out' : Bytes) (h : SameLedger w w') :
    SameLedger (checkIn fd ⟨requests, out, w⟩) (checkIn fd ⟨requests', out', w'⟩) := by
  refine ⟨?_, ?_, fun i ↦ ?_, ?_, ?_, ?_⟩ <;>
    simp only [checkIn, World.pendingOutput_updateConn, World.tasks_updateConn,
      World.arenas_updateConn, World.wsArenas_updateConn, World.nextHandle_updateConn,
      World.trace_updateConn]
  · exact h.pendingOutput
  · exact h.tasks
  · exact h.holder i
  · exact h.wsArenas
  · exact h.nextHandle
  · exact h.trace

variable (limits) in
/-- `internal_on_request_ready` on a request of the machine. -/
theorem serves_internalOnRequestReady (cfg : GlobalConfig) (out : Bytes) {fd : ℤ}
    {requests : Requests} {c : Connection} (hc : w.conns.lookup fd = some c) {id : UInt16}
    {r : Request} (hr : requests.lookup id = some r) (hready : isReady r.flags = true) :
    Serves limits (checkIn fd ⟨requests, out, w⟩)
      (checkIn fd ⟨requests.insert id (internalOnRequestReady cfg r w).1, out,
        (internalOnRequestReady cfg r w).2⟩) := by
  set w₁ := checkIn fd ⟨requests, out, w⟩ with hw₁
  have hlookup₁ := lookup_checkIn_self (m := ⟨requests, out, w⟩) hc
  have hput (k : ℤ) (hk : k ≠ fd) : w₁.conns.lookup k = w.conns.lookup k := by
    rw [hw₁, lookup_checkIn]
    simp only [if_neg hk, Option.map_id']
  have hunchanged : Serves limits w₁ (checkIn fd ⟨requests.insert id r, out, w⟩) := by
    refine (ServeStep.amend fd _ id r r hlookup₁ hr ⟨rfl, rfl, rfl, rfl, rfl, rfl⟩ (fun k ↦ ?_)
      (sameLedger_checkIn fd _ _ _ _ (.refl w))).serves
    rw [lookup_checkIn]
    by_cases hk : k = fd
    · rw [hk, if_pos rfl, hc, Option.map_some, if_pos rfl]
    · rw [if_neg hk, hput k hk]
      simp only [if_neg hk, Option.map_id']
  rw [internalOnRequestReady]
  split
  · exact hunchanged
  split
  · exact hunchanged
  · next p hp =>
    set incr : Connection → Connection :=
      fun c ↦ { c with activeWorkers := c.activeWorkers + 1 } with hincr
    set r₂ : Request := { r with env := stripPathPrefix cfg r.env, workerActive := true } with hr₂
    set w₂ : World := { w₁.updateRef p incr with
      tasks := w₁.tasks ++ [⟨⟨p, r.id, r.handle⟩, .queued⟩] } with hw₂
    have hdispatch : ServeStep limits w₁ w₂ := .dispatch fd _ id r p hlookup₁ hr hready hp rfl
    have hlookup₂ (k : ℤ) : w₂.conns.lookup k = (w₁.conns.lookup k).map fun c ↦
        if k = p.fd ∧ c.cid = p.cid then incr c else c := World.lookup_updateRef p incr k
    -- enqueueing the task leaves the requests as they were
    obtain ⟨c₂, hc₂, hc₂r⟩ : ∃ c₂, w₂.conns.lookup fd = some c₂ ∧ c₂.requests = requests := by
      rw [hlookup₂, hlookup₁, Option.map_some]
      refine ⟨_, rfl, ?_⟩
      split <;> rfl
    have hamend : SameRequest r r₂ := ⟨rfl, rfl, rfl, rfl, rfl, rfl⟩
    refine hdispatch.serves.trans
      (ServeStep.amend fd c₂ id r r₂ hc₂ (hc₂r ▸ hr) hamend (fun k ↦ ?_) ?_).serves
    · rw [lookup_checkIn]
      simp only
      rw [World.lookup_updateRef]
      by_cases hk : k = fd
      · rw [hlookup₂, hlookup₁] at hc₂
        rw [if_pos hk, hk, hc]
        simp only [Option.map_some, if_true, Option.some.injEq] at hc₂ ⊢
        rw [← hc₂]
        split <;> rfl
      · rw [if_neg hk, hlookup₂, hput k hk]
        simp only [if_neg hk, Option.map_id']
    · refine ⟨?_, ?_, fun i ↦ ?_, ?_, ?_, [], ?_⟩ <;> simp [hw₂, hw₁, checkIn]

/-- Handling a record on a request that is there. -/
theorem serves_touch (cfg : GlobalConfig) (io : ConnRef) {fd : ℤ} {m : Machine World}
    {c : Connection} (hc : m.ext.conns.lookup fd = some c) {id : UInt16} {r : Request}
    (hr : m.requests.lookup id = some r) {rec : Record}
    {body : RequestCore → Bytes → RequestCore × Bytes} (hbody : recordBody limits rec = some body) :
    Serves limits (checkIn fd m) (checkIn fd (touch (callbacks cfg io) id body r m)) := by
  obtain ⟨requests, out, w⟩ := m
  set core := (body r.toRequestCore out).1 with hcore
  set out' := (body r.toRequestCore out).2 with hout'
  have hlookup := lookup_checkIn_self (m := ⟨requests, out, w⟩) hc
  have hrecord : Serves limits (checkIn fd ⟨requests, out, w⟩)
      (checkIn fd ⟨requests.insert id (r.withCore core), out', w⟩) := by
    refine (ServeStep.record fd _ id r rec body out hlookup hr hbody (fun k ↦ ?_)
      (sameLedger_checkIn fd _ _ _ _ (.refl w))).serves
    rw [lookup_checkIn, lookup_checkIn]
    by_cases hk : k = fd
    · rw [hk, if_pos rfl, hc, Option.map_some, if_pos rfl]
    · simp only [if_neg hk, Option.map_id']
  rw [touch]
  simp only [← hcore, ← hout']
  split
  · next hready =>
    have hready' := serves_internalOnRequestReady limits cfg out' hc
      (AList.lookup_insert (a := id) (b := r.withCore core) requests) hready
    rw [AList.insert_insert] at hready'
    exact hrecord.trans hready'
  · exact hrecord

private theorem cid_internalOnRequestReady (cfg : GlobalConfig) (r : Request) {fd : ℤ} {n : ℕ}
    (h : ∃ c, w.conns.lookup fd = some c ∧ c.cid = n) :
    ∃ c, (internalOnRequestReady cfg r w).2.conns.lookup fd = some c ∧ c.cid = n := by
  rw [internalOnRequestReady]
  split
  · exact h
  split
  · exact h
  · next p _ =>
    obtain ⟨c, hc, hcid⟩ := h
    simp only
    rw [World.lookup_updateRef, hc, Option.map_some]
    refine ⟨_, rfl, ?_⟩
    split
    · exact hcid
    · exact hcid

private theorem cid_touch (cfg : GlobalConfig) (io : ConnRef) (id : UInt16)
    (body : RequestCore → Bytes → RequestCore × Bytes) (r : Request) {m : Machine World} {fd : ℤ}
    {n : ℕ} (h : ∃ c, m.ext.conns.lookup fd = some c ∧ c.cid = n) :
    ∃ c, (touch (callbacks cfg io) id body r m).ext.conns.lookup fd = some c ∧ c.cid = n := by
  rw [touch]
  split
  · exact cid_internalOnRequestReady cfg _ h
  · exact h

variable (limits) in
private theorem serveStep_allocateRequest (cfg : GlobalConfig) {io : ConnRef} {m : Machine World}
    {c : Connection} (hc : m.ext.conns.lookup io.fd = some c) (hcid : c.cid = io.cid) {id : UInt16}
    (hid : m.requests.lookup id = none) {nr : Request} {w' : World}
    (halloc : allocateRequest cfg io id m.ext = (some nr, w')) :
    w'.conns = m.ext.conns ∧ ServeStep limits (checkIn io.fd m)
      (checkIn io.fd { m with requests := m.requests.insert id nr, ext := w' }) := by
  rcases allocateRequest_cases cfg io id m.ext with ⟨w₁, heq, -⟩ |
    ⟨r, i, w₁, heq, hconns, hfresh, hfree, hholder, hpending, htasks, hws, hnext, htrace⟩
  · rw [heq] at halloc
    cases halloc
  rw [heq] at halloc
  cases halloc
  refine ⟨hconns, .allocate io.fd _ id i nr (lookup_checkIn_self hc) hid (fun k ↦ ?_) ?_ ?_
    (fun j ↦ ?_) ?_ ?_ ?_ ?_ ?_⟩
  · rw [lookup_checkIn, lookup_checkIn]
    simp only
    rw [hconns]
    by_cases hk : k = io.fd
    · rw [hk, if_pos rfl, hc, Option.map_some, if_pos rfl]
    · simp only [if_neg hk, Option.map_id']
  · rw [hcid]
    refine ⟨hfresh.id, hfresh.flags, hfresh.connPtr, ?_, hfresh.arena, hfresh.released⟩
    rw [checkIn, World.nextHandle_updateConn]
    exact hfresh.handle
  · rw [checkIn, World.arenas_updateConn]
    exact hfree
  · simp only [checkIn, World.arenas_updateConn, World.nextHandle_updateConn]
    exact hholder j
  · simp only [checkIn, World.pendingOutput_updateConn]
    exact hpending
  · simp only [checkIn, World.tasks_updateConn]
    exact htasks
  · simp only [checkIn, World.wsArenas_updateConn]
    exact hws
  · simp only [checkIn, World.nextHandle_updateConn]
    exact hnext
  · simp only [checkIn, World.trace_updateConn]
    exact htrace

variable (limits) in
private theorem serveStep_allocateRequest_none (cfg : GlobalConfig) {io : ConnRef}
    {m : Machine World}
    {id : UInt16} {w' : World} (halloc : allocateRequest cfg io id m.ext = (none, w')) :
    w'.conns = m.ext.conns ∧
      ServeStep limits (checkIn io.fd m) (checkIn io.fd { m with ext := w' }) := by
  rcases allocateRequest_cases cfg io id m.ext with ⟨w₁, heq, hconns, hled⟩ | ⟨r, i, w₁, heq, -⟩
  · rw [heq] at halloc
    cases halloc
    refine ⟨hconns, .queues (fun k ↦ ?_) (sameLedger_checkIn io.fd _ _ _ _ hled)⟩
    rw [lookup_checkIn, lookup_checkIn]
    simp only
    rw [hconns]
  · rw [heq] at halloc
    cases halloc

variable (limits) in
/-- **One turn of the decoder is served.** -/
theorem serves_turn (cfg : GlobalConfig) {io : ConnRef} {m : Machine World} (rec : Record)
    (h : ∃ c, m.ext.conns.lookup io.fd = some c ∧ c.cid = io.cid) :
    Serves limits (checkIn io.fd m) (checkIn io.fd (turn limits (callbacks cfg io) m rec)) ∧
      ∃ c, (turn limits (callbacks cfg io) m rec).ext.conns.lookup io.fd = some c ∧
        c.cid = io.cid := by
  obtain ⟨c, hc, hcid⟩ := id h
  rw [turn]
  rcases processRecord_cases limits (callbacks cfg io) rec m with ⟨-, hrec⟩ |
    ⟨body, r, hbody, hr, hrec⟩ | ⟨body, nr, w', hbody, hid, halloc, hrec⟩ |
    ⟨body, w', hbody, hid, halloc, hrec⟩
  · rw [hrec]
    exact ⟨.refl _ _, h⟩
  · rw [hrec]
    exact ⟨serves_touch cfg io hc hr hbody, cid_touch cfg io _ body r h⟩
  · rw [hrec]
    obtain ⟨hconns, hstep⟩ :=
      serveStep_allocateRequest limits cfg hc hcid hid halloc
    have hc' : w'.conns.lookup io.fd = some c := hconns ▸ hc
    have htouch := serves_touch cfg io
      (m := { m with requests := m.requests.insert rec.requestId nr, ext := w' }) hc'
      (AList.lookup_insert _) hbody
    exact ⟨hstep.serves.trans htouch, cid_touch cfg io _ body nr ⟨c, hc', hcid⟩⟩
  · obtain ⟨hconns, hstep⟩ := serveStep_allocateRequest_none limits cfg halloc
    have hmachine :
        (processRecord limits (callbacks cfg io) rec m).machine = { m with ext := w' } := by
      rw [hrec]
      split <;> rfl
    rw [hmachine]
    exact ⟨hstep.serves, c, hconns ▸ hc, hcid⟩

variable (limits) in
private theorem serves_turns (cfg : GlobalConfig) (io : ConnRef) (recs : List Record)
    {m : Machine World} (h : ∃ c, m.ext.conns.lookup io.fd = some c ∧ c.cid = io.cid) :
    Serves limits (checkIn io.fd m)
      (checkIn io.fd (recs.foldl (turn limits (callbacks cfg io)) m)) := by
  induction recs generalizing m with
  | nil => exact .refl _ _
  | cons rec recs ih =>
    obtain ⟨hserves, hcid⟩ := serves_turn limits cfg rec h
    exact hserves.trans (ih hcid)

/-- **`process_fcgi` is served.** -/
theorem serves_processFcgi (cfg : GlobalConfig) (fd : ℤ) (w : World) :
    Serves cfg.toLimits w (processFcgi cfg fd w) := by
  rw [processFcgi]
  split
  · exact .refl _ _
  next c hc =>
  split
  · exact .refl _ _
  set io : ConnRef := ⟨fd, c.cid⟩ with hio
  set m : Machine World := ⟨c.requests, c.outBuf, w⟩ with hm
  have hstart : Serves cfg.toLimits w (checkIn fd m) := by
    refine (ServeStep.queues (fun k ↦ ?_) ?_).serves
    · rw [lookup_checkIn, hm]
      by_cases hk : k = fd
      · rw [hk, hc, Option.map_some, if_pos rfl]
      · simp only [if_neg hk, Option.map_id']
    · refine ⟨?_, ?_, fun i ↦ ?_, ?_, ?_, [], ?_⟩ <;> simp [hm, checkIn]
  have hturns := serves_turns cfg.toLimits cfg io
    (processTurns cfg.toLimits (callbacks cfg io) c.inBuf m) (m := m) ⟨c, hc, rfl⟩
  rw [← processBuffer_eq_foldl] at hturns
  set res := processBuffer cfg.toLimits (callbacks cfg io) c.inBuf m with hres
  refine (hstart.trans hturns).trans ?_
  -- what is left to write back concerns no request
  cases hc' : res.ext.conns.lookup fd with
  | none =>
    rw [checkIn, World.updateConn_of_none hc', World.updateConn_of_none hc']
    exact .refl _ _
  | some c' =>
    have hown : SameOwner { c' with requests := res.requests, outBuf := res.outBuf }
        { c' with
          inBuf := res.inBuf
          requests := res.requests
          outBuf := res.outBuf
          closed := c'.closed || res.status = .close
          waitingForArena := res.waitingForArena } := ⟨rfl, rfl, rfl, rfl⟩
    refine (ServeStep.change fd _ _ (lookup_checkIn_self hc') (fun k ↦ ?_) hown ?_).serves
    · simp only
      rw [World.lookup_updateConn, lookup_checkIn]
      by_cases hk : k = fd
      · rw [hk, if_pos rfl, hc', Option.map_some, if_pos rfl]
      · simp only [if_neg hk, Option.map_id']
    · refine ⟨?_, ?_, fun i ↦ ?_, ?_, ?_, [], ?_⟩ <;> simp [checkIn]

/-! ## `process_waiting_connections`

The loop calls `process_fcgi` and `flush_connection` in turn, and moves descriptors in its queue. -/

private theorem serves_waitingLoop (cfg : GlobalConfig) (n budget : ℕ) (w : World) :
    Serves cfg.toLimits w (waitingLoop cfg n budget w) := by
  induction n generalizing budget w with
  | zero => exact .refl _ _
  | succ n ih =>
    rw [waitingLoop]
    split
    · exact .refl _ _
    split
    · exact .refl _ _
    next fd fds hwaiting =>
    have hpop : Serves cfg.toLimits w { w with waitingConns := fds } :=
      serves_queues rfl ⟨rfl, rfl, fun _ ↦ rfl, rfl, rfl, [], rfl⟩
    simp only
    split
    · exact hpop.trans (ih _ _)
    split
    · exact hpop.trans (ih _ _)
    refine hpop.trans ((serves_processFcgi cfg fd _).trans ?_)
    set w' := processFcgi cfg fd { w with waitingConns := fds }
    split
    · exact (serves_flushConnection fd w').trans (ih _ _)
    split
    · have hpush : Serves cfg.toLimits w' { w' with waitingConns := w'.waitingConns ++ [fd] } :=
        serves_queues rfl ⟨rfl, rfl, fun _ ↦ rfl, rfl, rfl, [], rfl⟩
      exact hpush.trans (ih _ _)
    · exact ih _ _

theorem serves_processWaitingConnections (cfg : GlobalConfig) (w : World) :
    Serves cfg.toLimits w (processWaitingConnections cfg w) :=
  serves_waitingLoop cfg _ _ w

/-! ## `handle_io` up to the sweep -/

theorem serves_serveIo (cfg : GlobalConfig) (fd : ℤ) (events : IoEvents) (data : Bytes)
    (ending : RecvEnd) (w : World) :
    Serves cfg.toLimits w (serveIo cfg fd events data ending w) := by
  have hinput (w : World) : Serves cfg.toLimits w (handleInput cfg fd data ending w) := by
    rw [handleInput]
    have hread : Serves cfg.toLimits w (readAll fd data ending w) :=
      serves_updateConn w fd fun _ ↦ ⟨rfl, rfl, rfl, rfl⟩
    refine hread.trans ((serves_processFcgi cfg fd _).trans ?_)
    set w' := processFcgi cfg fd (readAll fd data ending w)
    split
    · have hpush : Serves cfg.toLimits w' { w' with waitingConns := w'.waitingConns ++ [fd] } :=
        serves_queues rfl ⟨rfl, rfl, fun _ ↦ rfl, rfl, rfl, [], rfl⟩
      exact hpush.trans (serves_flushConnection fd _)
    · exact serves_flushConnection fd w'
  have hhup : Serves cfg.toLimits w
      (if events.hupOrErr then w.updateConn fd fun c ↦ { c with closed := true } else w) := by
    split
    · exact serves_updateConn w fd fun _ ↦ ⟨rfl, rfl, rfl, rfl⟩
    · exact .refl _ _
  rw [serveIo]
  refine hhup.trans ?_
  set w₁ := if events.hupOrErr then w.updateConn fd fun c ↦ { c with closed := true } else w
  have hin : Serves cfg.toLimits w₁
      (if events.epollIn then handleInput cfg fd data ending w₁ else w₁) := by
    split
    · exact hinput w₁
    · exact .refl _ _
  refine hin.trans ?_
  set w₂ := if events.epollIn then handleInput cfg fd data ending w₁ else w₁
  split
  · exact serves_flushConnection fd w₂
  · exact .refl _ _

end

end Wasapi.FcgiConn
