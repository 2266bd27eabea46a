import Wasapi.Fastcgi.ProcessBuffer
import Wasapi.Sockets

/-!
# The state of the event loop

`World` holds the globals of the FastCGI event loop, the tasks its worker pool has not finished, and
the arenas it shares with the websocket server. What the loop gets from outside is chosen by the
events: what `recv` and `accept` return is an argument of the event, what the coming `send` calls
return is in `sends`.

Pointers are modelled by identities. A `RequestPtr` says which request it points at by its handle
and where that request lives; `World.request` follows it and finds nothing once the request has been
released or its connection erased. The program follows such a pointer all the same, and what it does
then is undefined; here it does nothing. So what is proved of a run says something about the program
as far as no pointer dangles, which `Owned` and `Sound` are about. Connections are numbered by
`cid`; the entries that `operator[]` makes without an `accept` are told from the others by
`accepted`.

An entry of a map that is written moves to its front, and `reorder` brings any other entries there,
so that no iteration order is special.
-/

namespace Wasapi.FcgiConn

open Fastcgi

structure Connection where
  cid : ℕ
  /-- made by `accept` -/
  accepted : Bool
  fd : ℤ := -1
  inBuf : Bytes := []
  /-- outbound data buffer -/
  outBuf : Bytes := []
  /-- bytes already sent from start of `outBuf` -/
  outPos : ℕ := 0
  requests : Requests := ∅
  closed : Bool := false
  /-- BEGIN_REQUEST record deferred -/
  waitingForArena : Bool := false
  activeWorkers : ℤ := 0
  /-- whether the currently registered interest mask has EPOLLOUT -/
  epollOut : Bool := false
  /-- desired EPOLLOUT interest -/
  wantWriteInterest : Bool := false

/-- A pointer to a request. -/
structure RequestPtr where
  conn : ConnRef
  id : UInt16
  handle : ℕ
  deriving DecidableEq

/-- How far a worker has got with the lambda of `internal_on_request_ready`. -/
inductive TaskPhase where
  /-- in the queue of the pool -/
  | queued
  /-- past the check of RESPONDED and `closed`; will push the request -/
  | started
  /-- has pushed the request, or found it answered or its connection closed -/
  | pushed
  /-- has cleared `worker_active` -/
  | cleared
  deriving DecidableEq

/-- A task that has not ended. Its captured connection is that of the captured request. -/
structure Task where
  request : RequestPtr
  phase : TaskPhase
  deriving DecidableEq

/-- The system calls that are remembered. -/
inductive Syscall where
  | accept (fd : ℤ)
  /-- `accepted` says whether the connection being closed was made by `accept` -/
  | close (fd : ℤ) (accepted : Bool)
  | unlink (path : Bytes)
  deriving DecidableEq

structure World where
  conns : AList fun _ : ℤ ↦ Connection := ∅
  /-- deferred closes -/
  closeQueue : List ℤ := []
  /-- requests ready for output assembly -/
  pendingOutput : List RequestPtr := []
  /-- whether `accept()` is currently paused -/
  acceptPaused : Bool := false
  /-- connections waiting for arena allocation -/
  waitingConns : List ℤ := []
  arenas : ArenaManager
  /-- the tasks of the worker pool in the order they were enqueued -/
  tasks : List Task := []
  clock : ℚ := 0
  sends : List SendResult := []
  /-- the arenas held by websocket tasks, each with its holder -/
  wsArenas : List (ℕ × ℕ) := []
  nextHandle : ℕ := 0
  nextCid : ℕ := 0
  /-- the remembered system calls, the latest first -/
  trace : List Syscall := []

namespace World

variable (w : World)

def setConn (fd : ℤ) (c : Connection) : World := { w with conns := w.conns.insert fd c }

/-- Change the connection at `fd`, if there is one. -/
def updateConn (fd : ℤ) (f : Connection → Connection) : World :=
  match w.conns.lookup fd with
  | none => w
  | some c => w.setConn fd (f c)

/-- The connection a pointer points at. -/
def connection (p : ConnRef) : Option Connection :=
  (w.conns.lookup p.fd).filter fun c ↦ c.cid = p.cid

def updateRef (p : ConnRef) (f : Connection → Connection) : World :=
  match w.connection p with
  | none => w
  | some c => w.setConn p.fd (f c)

/-- The request a pointer points at. -/
def request (p : RequestPtr) : Option Request :=
  (w.connection p.conn).bind fun c ↦
    (c.requests.lookup p.id).filter fun r ↦ r.handle = p.handle && !r.released

def updateRequest (p : RequestPtr) (f : Request → Request) : World :=
  match w.request p with
  | none => w
  | some r => w.updateRef p.conn fun c ↦ { c with requests := c.requests.insert p.id (f r) }

/-- `global_arena_manager.available_count` -/
def available : ℕ := w.arenas.availableCount

/-- The last call that concerned the number `fd` was an `accept` that returned it. -/
def isOpen (fd : ℤ) : List Syscall → Bool
  | [] => false
  | .accept f :: t => if f = fd then true else isOpen fd t
  | .close f _ :: t => if f = fd then false else isOpen fd t
  | .unlink _ :: t => isOpen fd t

section

variable {w}

theorem lookup_setConn (fd : ℤ) (c : Connection) (k : ℤ) :
    (w.setConn fd c).conns.lookup k = if k = fd then some c else w.conns.lookup k := by
  rw [setConn]
  by_cases h : k = fd
  · rw [if_pos h, h, AList.lookup_insert]
  · rw [if_neg h, AList.lookup_insert_ne h]

theorem updateConn_of_none {fd : ℤ} (h : w.conns.lookup fd = none) (f : Connection → Connection) :
    w.updateConn fd f = w := by
  rw [updateConn, h]

theorem updateConn_of_some {fd : ℤ} {c : Connection} (h : w.conns.lookup fd = some c)
    (f : Connection → Connection) : w.updateConn fd f = w.setConn fd (f c) := by
  rw [updateConn, h]

theorem connection_eq_some_iff {p : ConnRef} {c : Connection} :
    w.connection p = some c ↔ w.conns.lookup p.fd = some c ∧ c.cid = p.cid := by
  rw [connection, Option.filter_eq_some_iff, decide_eq_true_eq]

theorem lookup_updateConn (fd : ℤ) (f : Connection → Connection) (k : ℤ) :
    (w.updateConn fd f).conns.lookup k
      = (w.conns.lookup k).map fun c ↦ if k = fd then f c else c := by
  cases h : w.conns.lookup fd with
  | none =>
    rw [updateConn_of_none h]
    by_cases hk : k = fd
    · rw [hk, h, Option.map_none]
    · simp only [if_neg hk, Option.map_id']
  | some c =>
    rw [updateConn_of_some h, lookup_setConn]
    by_cases hk : k = fd
    · rw [if_pos hk, hk, h, Option.map_some, if_pos rfl]
    · simp only [if_neg hk, Option.map_id']

theorem lookup_updateRef (p : ConnRef) (f : Connection → Connection) (k : ℤ) :
    (w.updateRef p f).conns.lookup k
      = (w.conns.lookup k).map fun c ↦ if k = p.fd ∧ c.cid = p.cid then f c else c := by
  rw [updateRef]
  cases h : w.connection p with
  | none =>
    cases hk : w.conns.lookup k with
    | none => rfl
    | some c =>
      rw [Option.map_some, if_neg]
      rintro ⟨rfl, hcid⟩
      rw [connection_eq_some_iff.mpr ⟨hk, hcid⟩] at h
      cases h
  | some c =>
    obtain ⟨hc, hcid⟩ := connection_eq_some_iff.mp h
    simp only [lookup_setConn]
    by_cases hk : k = p.fd
    · rw [if_pos hk, hk, hc, Option.map_some, if_pos ⟨rfl, hcid⟩]
    · simp only [hk, false_and, if_false, Option.map_id']

/-- Only the connections change. -/
theorem updateConn_eq (fd : ℤ) (f : Connection → Connection) :
    w.updateConn fd f = { w with conns := (w.updateConn fd f).conns } := by
  rw [updateConn]
  split <;> rfl

theorem updateRef_eq (p : ConnRef) (f : Connection → Connection) :
    w.updateRef p f = { w with conns := (w.updateRef p f).conns } := by
  rw [updateRef]
  split <;> rfl

section Fields

variable (fd : ℤ) (p : ConnRef) (f : Connection → Connection)

@[simp] theorem pendingOutput_updateConn :
    (w.updateConn fd f).pendingOutput = w.pendingOutput := by rw [updateConn_eq]

@[simp] theorem tasks_updateConn : (w.updateConn fd f).tasks = w.tasks := by rw [updateConn_eq]

@[simp] theorem arenas_updateConn : (w.updateConn fd f).arenas = w.arenas := by
  rw [updateConn_eq]

@[simp] theorem wsArenas_updateConn : (w.updateConn fd f).wsArenas = w.wsArenas := by
  rw [updateConn_eq]

@[simp] theorem nextHandle_updateConn : (w.updateConn fd f).nextHandle = w.nextHandle := by
  rw [updateConn_eq]

@[simp] theorem trace_updateConn : (w.updateConn fd f).trace = w.trace := by rw [updateConn_eq]

@[simp] theorem pendingOutput_updateRef : (w.updateRef p f).pendingOutput = w.pendingOutput := by
  rw [updateRef_eq]

@[simp] theorem tasks_updateRef : (w.updateRef p f).tasks = w.tasks := by rw [updateRef_eq]

@[simp] theorem arenas_updateRef : (w.updateRef p f).arenas = w.arenas := by rw [updateRef_eq]

@[simp] theorem wsArenas_updateRef : (w.updateRef p f).wsArenas = w.wsArenas := by
  rw [updateRef_eq]

@[simp] theorem nextHandle_updateRef : (w.updateRef p f).nextHandle = w.nextHandle := by
  rw [updateRef_eq]

@[simp] theorem trace_updateRef : (w.updateRef p f).trace = w.trace := by rw [updateRef_eq]

end Fields

theorem request_eq_some_iff {p : RequestPtr} {r : Request} :
    w.request p = some r ↔ ∃ c, w.conns.lookup p.conn.fd = some c ∧ c.cid = p.conn.cid ∧
      c.requests.lookup p.id = some r ∧ r.handle = p.handle ∧ r.released = false := by
  rw [request, Option.bind_eq_some_iff]
  refine exists_congr fun c ↦ ?_
  rw [connection_eq_some_iff, Option.filter_eq_some_iff, and_assoc]
  simp

end

/-- Every pointer in `g_pending_output` and in the captures of the unfinished tasks. -/
def captured : List RequestPtr := w.pendingOutput ++ w.tasks.map Task.request

end World

/-- Move entries of a map to its front. -/
def reorder {α : Type*} [DecidableEq α] {β : Type*} (m : AList fun _ : α ↦ β) (keys : List α) :
    AList fun _ : α ↦ β :=
  keys.foldl (fun m k ↦ match m.lookup k with | none => m | some v => m.insert k v) m

theorem lookup_reorder {α : Type*} [DecidableEq α] {β : Type*} (m : AList fun _ : α ↦ β)
    (keys : List α) (k : α) : (reorder m keys).lookup k = m.lookup k := by
  induction keys generalizing m with
  | nil => rfl
  | cons k' keys ih =>
    rw [reorder, List.foldl_cons, ← reorder, ih]
    cases h : m.lookup k' with
    | none => rfl
    | some v =>
      by_cases hk : k = k'
      · subst hk
        rw [AList.lookup_insert, h]
      · rw [AList.lookup_insert_ne hk]

end Wasapi.FcgiConn
