import Wasapi.FcgiConn.Housing
import Wasapi.FcgiConn.Armed
import Wasapi.FcgiConn.Descriptors
import Wasapi.FcgiConn.OutputStream

/-!
# Reaping dead connections

A socket error sets `closed`, and the next pass of `housekeeping_close_idle` is to close the
connection and release what it holds. The close predicate, however, asks of a closed connection too
that its output be sent. What cannot be sent any more keeps the connection, and so does the
END_REQUEST that the pass itself appends for a request that is overdue.

A run is one of actions here: they say what a handler does in its course, and every run of events is
one (`acts_step`).
-/

namespace Wasapi.FcgiConn

open Fastcgi

variable {cfg : GlobalConfig} {app : Application} {w w' : World}

/-- The connection is gone, its descriptor closed, and none of its requests holds its arena. -/
structure Reaped (w' : World) (p : ConnRef) (c : Connection) : Prop where
  gone : w'.connection p = none
  closed : World.isOpen p.fd w'.trace = false
  freed {id r} : c.requests.lookup id = some r →
    ∃ i, r.arena = some i ∧ w'.arenas.holder i ≠ some r.handle

/-- All output has been sent, and no request is overdue. -/
def Drained (cfg : GlobalConfig) (clock : ℚ) (c : Connection) : Prop :=
  c.outPos = c.outBuf.length ∧ ∀ e ∈ c.requests.entries, ¬Overdue cfg clock e.2

instance (clock : ℚ) (c : Connection) : Decidable (Drained cfg clock c) := by
  unfold Drained Overdue
  infer_instance

/-! ## The timeout checks of one connection

The check is a loop over the requests. It answers those that are overdue and leaves the others, so
it appends nothing exactly if none is overdue; and what it appends is not sent in the same pass. -/

/-- `timeoutRequest` on the connection itself. -/
def timedOut (cfg : GlobalConfig) (clock : ℚ) (c : Connection) (id : UInt16) : Connection :=
  match c.requests.lookup id with
  | none => c
  | some r =>
    if !r.flags.responded && 0 < cfg.maxRequestTime
        && cfg.maxRequestTime < clock - r.startTimeSec then
      { c with
        requests := c.requests.insert id
          { r with flags := { r.flags with failed := true, responded := true } }
        outBuf := appendEndRequest c.outBuf r.id 0 .overloaded }
    else c

/-- All of them. -/
def checked (cfg : GlobalConfig) (clock : ℚ) (c : Connection) : Connection :=
  c.requests.keys.foldl (timedOut cfg clock) c

private theorem timedOut_of_overdue {clock : ℚ} {c : Connection} {id : UInt16} {r : Request}
    (hr : c.requests.lookup id = some r) (hlate : Overdue cfg clock r) :
    timedOut cfg clock c id = { c with
      requests := c.requests.insert id
        { r with flags := { r.flags with failed := true, responded := true } }
      outBuf := appendEndRequest c.outBuf r.id 0 .overloaded } := by
  obtain ⟨hresponded, hlimit, hlate⟩ := hlate
  rw [timedOut, hr]
  simp only
  rw [if_pos]
  simp only [hresponded, hlimit, hlate, Bool.not_false, decide_true, Bool.and_self]

theorem timedOut_of_not {clock : ℚ} {c : Connection} {id : UInt16}
    (h : ∀ r, c.requests.lookup id = some r → ¬Overdue cfg clock r) :
    timedOut cfg clock c id = c := by
  rw [timedOut]
  split
  · rfl
  next r hr =>
  rw [if_neg]
  intro hlate
  rw [Bool.and_eq_true, Bool.and_eq_true, Bool.not_eq_true', decide_eq_true_eq,
    decide_eq_true_eq] at hlate
  exact h r hr ⟨hlate.1.1, hlate.1.2, hlate.2⟩

/-- The same requests, and all of the output. -/
structure Appends (c c' : Connection) : Prop where
  cid : c'.cid = c.cid
  closed : c'.closed = c.closed
  outPos : c'.outPos = c.outPos
  le : c.outBuf.length ≤ c'.outBuf.length
  requests {id r} : c.requests.lookup id = some r →
    ∃ r', c'.requests.lookup id = some r' ∧ SameHome r r'

theorem Appends.refl (c : Connection) : Appends c c :=
  ⟨rfl, rfl, rfl, le_rfl, fun hr ↦ ⟨_, hr, .refl _⟩⟩

theorem Appends.trans {c₁ c₂ c₃ : Connection} (h : Appends c₁ c₂) (h' : Appends c₂ c₃) :
    Appends c₁ c₃ := by
  refine ⟨h'.cid.trans h.cid, h'.closed.trans h.closed, h'.outPos.trans h.outPos,
    h.le.trans h'.le, fun hr ↦ ?_⟩
  obtain ⟨r₂, hr₂, hsame⟩ := h.requests hr
  obtain ⟨r₃, hr₃, hsame'⟩ := h'.requests hr₂
  exact ⟨r₃, hr₃, hsame'.arena.trans hsame.arena, hsame'.handle.trans hsame.handle⟩

theorem Appends.of_insert {c : Connection} {id : UInt16} {r r' : Request} {out : Bytes}
    (hr : c.requests.lookup id = some r) (hsame : SameHome r r')
    (hle : c.outBuf.length ≤ out.length) :
    Appends c { c with requests := c.requests.insert id r', outBuf := out } := by
  refine ⟨rfl, rfl, rfl, hle, fun {i r₁} hr₁ ↦ ?_⟩
  by_cases hi : i = id
  · subst hi
    obtain rfl := Option.some.inj (hr.symm.trans hr₁)
    exact ⟨r', AList.lookup_insert _, hsame⟩
  · exact ⟨r₁, (AList.lookup_insert_ne hi).trans hr₁, .refl r₁⟩

private theorem length_lt_appendEndRequest (out : Bytes) (id : UInt16) (status : ProtocolStatus) :
    out.length < (appendEndRequest out id 0 status).length := by
  have hsize := Record.size_le_length_encode (endRequestRecord id 0 status)
  rw [appendEndRequest_eq, List.length_append]
  exact Nat.lt_add_of_pos_right ((by decide : 0 < Header.size).trans_le hsize)

private theorem appends_timedOut (cfg : GlobalConfig) (clock : ℚ) (c : Connection) (id : UInt16) :
    Appends c (timedOut cfg clock c id) ∧
      (timedOut cfg clock c id).activeWorkers = c.activeWorkers := by
  rw [timedOut]
  split
  · exact ⟨.refl c, rfl⟩
  next r hr =>
  split
  · exact ⟨.of_insert hr ⟨rfl, rfl⟩ (length_lt_appendEndRequest _ _ _).le, rfl⟩
  · exact ⟨.refl c, rfl⟩

theorem appends_checked (cfg : GlobalConfig) (clock : ℚ) (c : Connection) :
    Appends c (checked cfg clock c) ∧
      (checked cfg clock c).activeWorkers = c.activeWorkers := by
  refine List.foldlRecOn (motive := fun c' ↦ Appends c c' ∧ c'.activeWorkers = c.activeWorkers)
    _ _ ⟨.refl c, rfl⟩ fun c' hc' id _ ↦ ?_
  obtain ⟨happends, hworkers⟩ := appends_timedOut cfg clock c' id
  exact ⟨hc'.1.trans happends, hworkers.trans hc'.2⟩

private theorem checked_of_punctual {clock : ℚ} {c : Connection}
    (h : ∀ e ∈ c.requests.entries, ¬Overdue cfg clock e.2) : checked cfg clock c = c := by
  refine List.foldlRecOn (motive := fun c' ↦ c' = c) _ _ rfl fun c' hc' id _ ↦ ?_
  rw [hc']
  exact timedOut_of_not fun r hr ↦ h ⟨id, r⟩ (AList.mem_lookup_iff.mp hr)

/-- **An overdue request leaves something to be sent.** -/
theorem length_lt_checked {clock : ℚ} {c : Connection} {id : UInt16} {r : Request}
    (hr : c.requests.lookup id = some r) (hlate : Overdue cfg clock r) :
    c.outBuf.length < (checked cfg clock c).outBuf.length := by
  have hmem : id ∈ c.requests.keys := by
    rw [← AList.mem_keys, ← AList.lookup_isSome, hr, Option.isSome_some]
  refine @foldl_of_mem _ _ (timedOut cfg clock)
    (fun c' ↦ c.outBuf.length ≤ c'.outBuf.length ∧ c'.requests.lookup id = some r)
    (fun c' ↦ c.outBuf.length < c'.outBuf.length) id ?_ ?_ ?_ _ hmem _ ⟨le_rfl, hr⟩
  · rintro c' id' ⟨hle, hr'⟩
    by_cases hid : id' = id
    · subst hid
      rw [timedOut_of_overdue hr' hlate]
      exact .inr (hle.trans_lt (length_lt_appendEndRequest _ _ _))
    · refine .inl ⟨hle.trans (appends_timedOut cfg clock c' id').1.le, ?_⟩
      rw [timedOut]
      split
      · exact hr'
      split
      · exact (AList.lookup_insert_ne (Ne.symm hid)).trans hr'
      · exact hr'
  · rintro c' ⟨hle, hr'⟩
    rw [timedOut_of_overdue hr' hlate]
    exact hle.trans_lt (length_lt_appendEndRequest _ _ _)
  · exact fun c' id' hlt ↦ hlt.trans_le (appends_timedOut cfg clock c' id').1.le

private theorem drained_iff {clock : ℚ} {c : Connection} (hle : c.outPos ≤ c.outBuf.length) :
    (checked cfg clock c).outPos = (checked cfg clock c).outBuf.length ↔ Drained cfg clock c := by
  have happends := (appends_checked cfg clock c).1
  constructor
  · intro hsent
    rw [happends.outPos] at hsent
    refine ⟨le_antisymm hle (happends.le.trans hsent.ge), fun e he hlate ↦ ?_⟩
    have hlt := length_lt_checked (AList.mem_lookup_iff.mpr he) hlate
    omega
  · rintro ⟨hsent, hpunctual⟩
    rw [checked_of_punctual hpunctual, hsent]

/-! ## The timeout checks of the pass

The first loop of the pass goes through all connections, each once, in the order of the map. What it
does to one of them does not depend on the others. -/

private theorem lookup_timeoutRequest (fd : ℤ) (w : World) (id : UInt16) (k : ℤ) :
    (timeoutRequest cfg fd w id).conns.lookup k
      = (w.conns.lookup k).map fun c ↦ if k = fd then timedOut cfg w.clock c id else c :=
  World.lookup_updateConn fd _ k

private theorem clock_timeoutRequest (fd : ℤ) (w : World) (id : UInt16) :
    (timeoutRequest cfg fd w id).clock = w.clock := by rw [timeoutRequest, World.updateConn_eq]

variable (cfg) in
private theorem lookup_timeoutRequests (w : World) (fd k : ℤ) :
    (timeoutRequests cfg w fd).conns.lookup k
        = (w.conns.lookup k).map (fun c ↦ if k = fd then checked cfg w.clock c else c) ∧
      (timeoutRequests cfg w fd).clock = w.clock := by
  have hfold (ids : List UInt16) (w : World) : (ids.foldl (timeoutRequest cfg fd) w).conns.lookup k
        = (w.conns.lookup k).map (fun c ↦
            if k = fd then ids.foldl (timedOut cfg w.clock) c else c) ∧
      (ids.foldl (timeoutRequest cfg fd) w).clock = w.clock := by
    induction ids generalizing w with
    | nil => simp
    | cons id ids ih =>
      obtain ⟨hlookup, hclock⟩ := ih (timeoutRequest cfg fd w id)
      rw [clock_timeoutRequest] at hlookup hclock
      rw [List.foldl_cons, hlookup, lookup_timeoutRequest, Option.map_map]
      refine ⟨?_, hclock⟩
      congr 1
      funext c
      by_cases hk : k = fd
      · simp only [Function.comp_apply, if_pos hk, List.foldl_cons]
      · simp only [Function.comp_apply, if_neg hk]
  obtain ⟨hlookup, hclock⟩ := hfold (requestIds fd w) w
  refine ⟨hlookup.trans ?_, hclock⟩
  -- the ids are those of the connection
  cases hc : w.conns.lookup k with
  | none => rfl
  | some c =>
    by_cases hk : k = fd
    · subst hk
      rw [Option.map_some, Option.map_some, if_pos rfl, if_pos rfl, requestIds, hc, checked]
    · rw [Option.map_some, Option.map_some, if_neg hk, if_neg hk]

/-- Every connection is checked once. -/
theorem lookup_timeouts (w : World) (k : ℤ) :
    (w.conns.keys.foldl (timeoutRequests cfg) w).conns.lookup k
      = (w.conns.lookup k).map (checked cfg w.clock) := by
  have hfold (fds : List ℤ) (hnodup : fds.Nodup) (w : World) :
      (fds.foldl (timeoutRequests cfg) w).conns.lookup k = (w.conns.lookup k).map
        fun c ↦ if k ∈ fds then checked cfg w.clock c else c := by
    induction fds generalizing w with
    | nil => simp
    | cons fd fds ih =>
      rw [List.nodup_cons] at hnodup
      obtain ⟨hlookup, hclock⟩ := lookup_timeoutRequests cfg w fd k
      rw [List.foldl_cons, ih hnodup.2, hlookup, hclock, Option.map_map]
      congr 1
      funext c
      by_cases hk : k = fd
      · subst hk
        simp [hnodup.1]
      · simp [hk]
  rw [hfold _ w.conns.keys_nodup]
  cases hc : w.conns.lookup k with
  | none => rfl
  | some c =>
    have hmem : k ∈ w.conns.keys := by
      rw [← AList.mem_keys, ← AList.lookup_isSome, hc, Option.isSome_some]
    rw [Option.map_some, Option.map_some, if_pos hmem]

/-! ## A closed connection while others are served

The second loop closes other connections too, which releases their requests and serves whoever
waits. A closed connection is not served and not flushed, so it comes through all of that with its
requests and its output. -/

/-- The connection at `k` is still there, with its requests and all of its output. -/
def Survives (k : ℤ) (c : Connection) (w : World) : Prop :=
  ∃ c', w.conns.lookup k = some c' ∧ Appends c c'

variable {k : ℤ} {c : Connection}

theorem Survives.of_lookup (h : Survives k c w)
    (hconns : w'.conns.lookup k = w.conns.lookup k) : Survives k c w' := by
  rw [Survives, hconns]
  exact h

theorem Survives.updateConn (h : Survives k c w) (fd : ℤ) {f : Connection → Connection}
    (hf : ∀ c, w.conns.lookup fd = some c → Appends c (f c)) :
    Survives k c (w.updateConn fd f) := by
  obtain ⟨c', hc', happends⟩ := h
  obtain ⟨c'', hc'', happends'⟩ := (evolves_updateConn Appends.refl w fd hf).lookup_right hc'
  exact ⟨c'', hc'', happends.trans happends'⟩

/-- Whatever is served, it is another connection. -/
theorem Survives.ne (h : Survives k c w) (hclosed : c.closed = true) {fd : ℤ} {c₁ : Connection}
    (hc₁ : w.conns.lookup fd = some c₁) (hopen : ¬c₁.closed = true) : k ≠ fd := by
  rintro rfl
  obtain ⟨c', hc', happends⟩ := h
  obtain rfl := Option.some.inj (hc'.symm.trans hc₁)
  exact hopen (happends.closed.trans hclosed)

private theorem lookup_flushConnection_of_ne {fd : ℤ} (hk : k ≠ fd) (w : World) :
    (flushConnection fd w).conns.lookup k = w.conns.lookup k := by
  have hloop (fuel : ℕ) (w : World) : (flushLoop fd fuel w).conns.lookup k = w.conns.lookup k := by
    induction fuel generalizing w with
    | zero => rfl
    | succ fuel ih =>
      have hset (c : Connection) : (w.setConn fd c).conns.lookup k = w.conns.lookup k := by
        rw [World.lookup_setConn, if_neg hk]
      rw [flushLoop_succ]
      split
      · rfl
      simp only
      split
      · split
        · split
          · exact hset _
          · exact hset _
        · split
          · exact hset _
          · exact hset _
      split
      · exact hset _
      · exact hset _
      · exact hset _
      · exact (ih _).trans (hset _)
  rw [flushConnection]
  split
  · rfl
  · exact hloop _ w

theorem Survives.processFcgi (h : Survives k c w) (hclosed : c.closed = true) (fd : ℤ) :
    Survives k c (processFcgi cfg fd w) := by
  rw [FcgiConn.processFcgi]
  split
  · exact h
  next c₁ hc₁ =>
  split
  · exact h
  next hopen =>
  have hk := h.ne hclosed hc₁ hopen
  obtain ⟨c', hc', happends⟩ := h
  obtain ⟨c'', hc'', m, -, rfl⟩ := (evolves_processBuffer cfg cfg.toLimits ⟨fd, c₁.cid⟩ c₁.inBuf
    ⟨c₁.requests, c₁.outBuf, w⟩).lookup_right hc'
  refine ⟨{ c' with activeWorkers := m }, ?_, happends.trans ⟨rfl, rfl, rfl, le_rfl, ?_⟩⟩
  · simp only
    rw [World.lookup_updateConn, hc'', Option.map_some, if_neg hk]
  · exact fun {id r} hr ↦ ⟨r, hr, .refl r⟩

theorem Survives.waitingLoop (h : Survives k c w) (hclosed : c.closed = true) (n budget : ℕ) :
    Survives k c (waitingLoop cfg n budget w) := by
  induction n generalizing budget w with
  | zero => exact h
  | succ n ih =>
    rw [FcgiConn.waitingLoop]
    split
    · exact h
    split
    · exact h
    next fd fds _ =>
    have hpop : Survives k c { w with waitingConns := fds } := h
    simp only
    split
    · exact ih hpop _
    next c₁ hc₁ =>
    split
    · exact ih hpop _
    next hopen =>
    have hk := hpop.ne hclosed hc₁ hopen
    have hserved : Survives k c (FcgiConn.processFcgi cfg fd { w with waitingConns := fds }) :=
      hpop.processFcgi hclosed fd
    split
    · exact ih (hserved.of_lookup (lookup_flushConnection_of_ne hk _)) _
    split
    · refine ih ?_ _
      exact hserved
    · exact ih hserved _

/-- Releasing requests, its own or others'. -/
theorem Survives.cleanupRequest (h : Survives k c w) (hclosed : c.closed = true) (fd : ℤ)
    (id : UInt16) : Survives k c (cleanupRequest cfg fd w id) := by
  have hfinalized : Survives k c (finalizeRequest cfg fd id w) := by
    rw [finalizeRequest]
    split
    · exact h
    next r hr =>
    refine (h.updateConn fd fun c₁ hc₁ ↦ ?_).of_lookup rfl
    rw [hc₁, Option.bind_some] at hr
    exact .of_insert hr ⟨rfl, rfl⟩ le_rfl
  have hdestroyed {w : World} (h : Survives k c w) : Survives k c (destroyRequest fd id w) := by
    rw [destroyRequest]
    split
    · exact h
    next r hr =>
    have hmarked : Survives k c (w.updateConn fd fun c ↦
        { c with requests := c.requests.insert id { r with released := true } }) := by
      refine h.updateConn fd fun c₁ hc₁ ↦ ?_
      rw [hc₁, Option.bind_some] at hr
      exact .of_insert hr ⟨rfl, rfl⟩ le_rfl
    simp only
    split
    · exact hmarked
    · exact hmarked.of_lookup rfl
  have hreleased {w : World} (h : Survives k c w) :
      Survives k c (releaseRequest cfg fd id w) := by
    rw [releaseRequest]
    refine Survives.waitingLoop ?_ hclosed _ _
    split
    · exact (hdestroyed h).of_lookup rfl
    · exact hdestroyed h
  rw [FcgiConn.cleanupRequest]
  split
  · exact h
  · apply hreleased
    split
    · exact h
    · exact hfinalized

/-- **No other connection takes it along.** -/
theorem Survives.closeConnection (h : Survives k c w) (hclosed : c.closed = true) {fd : ℤ}
    (hk : k ≠ fd) : Survives k c (closeConnection cfg w fd) := by
  rw [FcgiConn.closeConnection]
  split
  · exact h
  · have hcleaned : Survives k c ((requestIds fd w).foldl (FcgiConn.cleanupRequest cfg fd) w) :=
      List.foldlRecOn _ _ h fun w hw id _ ↦ hw.cleanupRequest hclosed fd id
    obtain ⟨hlookup, -⟩ := eraseConnection_spec fd rfl
    refine hcleaned.of_lookup ((hlookup k).trans ?_)
    rw [if_neg hk]

/-! ## The arenas of its requests

That an arena has been given back is more than that it is available: it may have been given to
somebody else since. What can be said is that the request, known by its handle, no longer holds it.
-/

/-- The holder `h` has lost the arena `i` for good: its number will not be given out again. -/
def Lost (i h : ℕ) (w : World) : Prop := h < w.nextHandle ∧ w.arenas.holder i ≠ some h

variable {i h : ℕ}

private theorem Lost.of_holder (hw : Lost i h w) (hnext : w'.nextHandle = w.nextHandle)
    (hholder : w'.arenas.holder i = w.arenas.holder i) : Lost i h w' := by
  rw [Lost, hnext, hholder]
  exact hw

private theorem Lost.of_arenas (hw : Lost i h w) (hnext : w'.nextHandle = w.nextHandle)
    (harenas : w'.arenas = w.arenas) : Lost i h w' :=
  hw.of_holder hnext (congrArg (·.holder i) harenas)

theorem Lost.serveStep {limits : Limits} (hw : Lost i h w) (hstep : ServeStep limits w w') :
    Lost i h w' := by
  have hledger (hled : SameLedger w w') : Lost i h w' :=
    hw.of_holder hled.nextHandle (hled.holder i)
  cases hstep with
  | change fd c c' hc hput hown hled => exact hledger hled
  | queues hconns hled => exact hledger hled
  | allocate fd c id j r hc hid hput hr hfree hholder hpending htasks hws hnext htrace =>
    constructor
    · rw [hnext]
      exact hw.1.trans (Nat.lt_succ_self _)
    · -- the new holder has a new number
      rw [hholder]
      split
      · intro heq
        exact hw.1.ne' (Option.some.inj heq)
      · exact hw.2
  | record fd c id r rec body out hc hr hbody hput hled => exact hledger hled
  | dispatch fd c id r p hc hr hready hp hw' =>
    refine hw.of_arenas ?_ ?_
    · rw [hw']
      exact World.nextHandle_updateRef _ _
    · rw [hw']
      exact World.arenas_updateRef _ _
  | amend fd c id r r' hc hr hsame hput hled => exact hledger hled

theorem Lost.serves {limits : Limits} (hw : Lost i h w) (hserves : Serves limits w w') :
    Lost i h w' := hserves.invariant (fun _ _ hstep hw ↦ hw.serveStep hstep) hw

theorem Lost.updateConn (hw : Lost i h w) (fd : ℤ) (f : Connection → Connection) :
    Lost i h (w.updateConn fd f) :=
  hw.of_arenas (World.nextHandle_updateConn fd f) (World.arenas_updateConn fd f)

/-- Nothing that happens while connections are closed gives it back. -/
theorem Lost.releasing (hw : Lost i h w) {a : Action} (ha : a.Releasing) :
    Lost i h (act cfg app w a) := by
  cases ha with
  | serving ha =>
    cases ha with
    | process fd => exact hw.serves (serves_processFcgi cfg fd w)
    | flush fd => exact hw.serves (@serves_flushConnection cfg.toLimits fd w)
    | finalize fd id => exact hw.serves (serves_finalizeRequest cfg cfg.toLimits fd id w)
    | destroy fd id =>
      rw [act, destroyRequest]
      split
      · exact hw
      simp only
      split
      · exact hw.updateConn fd _
      · constructor
        · exact (hw.updateConn fd _).1
        · simp only
          rw [ArenaManager.holder_release, World.arenas_updateConn]
          split
          · rintro ⟨⟩
          · exact hw.2
    | queues closeQueue waitingConns acceptPaused => exact hw
  | erase fd id => exact hw.updateConn fd _
  | clear fd => exact hw.updateConn fd _
  | close fd =>
    rw [act, eraseConnection]
    split
    · exact hw
    · exact hw

theorem Lost.acts (hw : Lost i h w) (hacts : Acts cfg app Action.Releasing w w') : Lost i h w' :=
  hacts.invariant (fun _ _ ha hw ↦ hw.releasing ha) hw

/-- **A request that is cleaned up loses its arena.** -/
theorem Housed.lost_cleanupRequest {n : ℕ} (hw : Housed n w) {fd : ℤ} {id : UInt16} {r : Request}
    (hs : Stored w fd c id r) (harena : r.arena = some i) :
    Lost i r.handle (cleanupRequest cfg fd w id) := by
  have hreleased {w : World} (hw : Housed n w) {c : Connection} {r : Request}
      (hs : Stored w fd c id r) (harena : r.arena = some i) :
      Lost i r.handle (releaseRequest cfg fd id w) := by
    obtain ⟨-, hholder, -, -, -, hnext⟩ := destroyRequest_spec hs harena
    have hdestroyed : Lost i r.handle (FcgiConn.destroyRequest fd id w) := by
      constructor
      · rw [hnext]
        exact (hw.home hs).handle_lt
      · rw [hholder, if_pos rfl]
        rintro ⟨⟩
    exact hdestroyed.serves (serves_releaseRequest_tail _)
  rw [cleanupRequest, lookup_request_eq_some.mpr ⟨c, hs⟩]
  simp only
  split
  · exact hreleased hw hs harena
  · obtain ⟨⟨c', r', hs', hsame⟩, -⟩ := finalizeRequest_spec cfg hs
    rw [← hsame.handle]
    exact hreleased (hw.stays (stays_finalizeRequest cfg fd id w)) hs' (hsame.arena.trans harena)

/-! ## The second loop

The loop closes the connections it decided on before it began. When the turn of the connection comes
its requests are released one by one, and nothing that is closed later brings it back. -/

/-- What is left of a connection that has been closed, whatever is closed after it. -/
structure Shut (k : ℤ) (c : Connection) (w : World) : Prop where
  gone : w.conns.lookup k = none
  closed : World.isOpen k w.trace = false
  lost {id r} : c.requests.lookup id = some r → ∃ i, r.arena = some i ∧ Lost i r.handle w

/-- **Closing the connection itself.** -/
theorem Survives.shut {n : ℕ} (h : Survives k c w) (hw : Housed n w) (hclosed : c.closed = true) :
    Shut k c (FcgiConn.closeConnection cfg w k) := by
  obtain ⟨c', hc', happends⟩ := h
  have hsurvives : Survives k c' w := ⟨c', hc', .refl c'⟩
  have hcleaned : Survives k c ((requestIds k w).foldl (FcgiConn.cleanupRequest cfg k) w) :=
    List.foldlRecOn _ _ ⟨c', hc', happends⟩ fun w hw id _ ↦ hw.cleanupRequest hclosed k id
  have heq : FcgiConn.closeConnection cfg w k
      = eraseConnection k (cleanupConnectionRequests cfg k w) := by
    rw [FcgiConn.closeConnection, hc']
  constructor
  · obtain ⟨hlookup, -⟩ := eraseConnection_spec k rfl
    rw [heq, cleanupConnectionRequests, hlookup, if_pos rfl]
  · obtain ⟨c₁, hc₁, -⟩ := hcleaned
    rw [heq, cleanupConnectionRequests, eraseConnection, World.lookup_updateConn, hc₁,
      Option.map_some]
    simp only
    rw [World.isOpen, if_pos rfl]
  · intro id r hr
    -- the loop over the requests comes to this one
    obtain ⟨r', hr', hsame⟩ := happends.requests hr
    obtain ⟨i, harena, -⟩ := (hw.home ⟨hc', hr'⟩).arena
    rw [hsame.arena] at harena
    refine ⟨i, harena, ?_⟩
    have hmem : id ∈ requestIds k w := mem_requestIds.mpr ⟨c', r', hc', hr'⟩
    have hlost : Lost i r.handle ((requestIds k w).foldl (FcgiConn.cleanupRequest cfg k) w) := by
      refine foldl_of_mem (J := fun w ↦ Housed n w ∧ Survives k c w) (K := Lost i r.handle)
        (fun w j hw ↦ .inl ⟨?_, hw.2.cleanupRequest hclosed k j⟩) ?_ ?_ hmem
        ⟨hw, c', hc', happends⟩
      · exact hw.1.acts (acts_cleanupRequest cfg silent k w j)
      · rintro w ⟨hw, c₁, hc₁, happends₁⟩
        obtain ⟨r₁, hr₁, hsame₁⟩ := happends₁.requests hr
        rw [← hsame₁.handle]
        exact hw.lost_cleanupRequest ⟨hc₁, hr₁⟩ (hsame₁.arena.trans harena)
      · exact fun w j hlost ↦ hlost.acts (acts_cleanupRequest cfg silent k w j).releasing
    rw [heq, cleanupConnectionRequests]
    exact @Lost.releasing cfg silent _ i r.handle (hlost.updateConn k _) _ (.close k)

/-- Whatever is closed behind it. -/
theorem Shut.closeConnection (h : Shut k c w) (fd : ℤ) :
    Shut k c (FcgiConn.closeConnection cfg w fd) := by
  have hlost {id : UInt16} {r : Request} (hr : c.requests.lookup id = some r) :
      ∃ i, r.arena = some i ∧ Lost i r.handle (FcgiConn.closeConnection cfg w fd) := by
    obtain ⟨i, harena, hlost⟩ := h.lost hr
    exact ⟨i, harena, hlost.acts (acts_closeConnection cfg silent w fd)⟩
  by_cases hk : k = fd
  · subst hk
    have heq : FcgiConn.closeConnection cfg w k = w := by
      rw [FcgiConn.closeConnection, h.gone]
    rw [heq]
    exact h
  -- what is served meanwhile opens nothing, and another descriptor is closed
  obtain ⟨hconns, paths, htrace⟩ := sameSockets_cleanupConnectionRequests cfg fd w
  have hgone : (cleanupConnectionRequests cfg fd w).conns.lookup k = none := by
    by_contra hsome
    obtain ⟨c', hc'⟩ := Option.ne_none_iff_exists'.mp hsome
    obtain ⟨c₁, hc₁, -⟩ := hconns hc'
    rw [h.gone] at hc₁
    cases hc₁
  have hclosed : World.isOpen k (cleanupConnectionRequests cfg fd w).trace = false := by
    rw [htrace, isOpen_unlinks, h.closed]
  have herased : (FcgiConn.closeConnection cfg w fd).conns.lookup k = none ∧
      World.isOpen k (FcgiConn.closeConnection cfg w fd).trace = false := by
    rw [FcgiConn.closeConnection]
    split
    · exact ⟨h.gone, h.closed⟩
    rw [eraseConnection]
    split
    · exact ⟨hgone, hclosed⟩
    · exact ⟨(AList.lookup_erase_ne hk).trans hgone,
        (isOpen_close_of_ne hk _ _).trans hclosed⟩
  exact ⟨herased.1, herased.2, hlost⟩

private theorem shouldCloseConnection_of_closed (hclosed : c.closed = true) :
    shouldCloseConnection c = true ↔ c.activeWorkers = 0 ∧ c.outPos = c.outBuf.length := by
  rw [shouldCloseConnection, if_pos hclosed, Bool.and_eq_true, decide_eq_true_eq,
    decide_eq_true_eq]

variable (cfg) in
/-- **One pass over a closed connection**: it is closed if its output has been sent and no request
of it is overdue, and otherwise it stays. -/
theorem housekeepingCloseIdle_closed {n : ℕ} (hw : Housed n w) (hc : w.conns.lookup k = some c)
    (hclosed : c.closed = true) (hidle : c.activeWorkers = 0)
    (hle : c.outPos ≤ c.outBuf.length) :
    (Drained cfg w.clock c → Shut k c (housekeepingCloseIdle cfg w)) ∧
      (¬Drained cfg w.clock c → Survives k c (housekeepingCloseIdle cfg w)) := by
  obtain ⟨happends, hworkers⟩ := appends_checked cfg w.clock c
  rw [housekeepingCloseIdle]
  set w₁ := w.conns.keys.foldl (timeoutRequests cfg) w with hw₁
  have hhoused : Housed n w₁ :=
    List.foldlRecOn _ _ hw fun w hw fd _ ↦ hw.stays (stays_timeoutRequests cfg w fd)
  have hlookup : w₁.conns.lookup k = some (checked cfg w.clock c) := by
    rw [hw₁, lookup_timeouts, hc, Option.map_some]
  have hsurvives : Survives k c w₁ := ⟨_, hlookup, happends⟩
  -- what the second loop closes
  have hchosen : k ∈ (w₁.conns.keys.filter fun fd ↦
      (w₁.conns.lookup fd).any shouldCloseConnection) ↔ Drained cfg w.clock c := by
    rw [List.mem_filter, hlookup, Option.any_some,
      shouldCloseConnection_of_closed (happends.closed.trans hclosed), hworkers,
      drained_iff hle]
    refine ⟨fun hmem ↦ hmem.2.2, fun hdrained ↦ ⟨?_, hidle, hdrained⟩⟩
    rw [← AList.mem_keys, ← AList.lookup_isSome, hlookup, Option.isSome_some]
  constructor
  · intro hdrained
    refine foldl_of_mem (J := fun w ↦ Housed n w ∧ Survives k c w) (K := Shut k c)
      (fun w fd hw ↦ ?_) (fun w hw ↦ hw.2.shut hw.1 hclosed) (fun w fd hshut ↦
        hshut.closeConnection fd) (hchosen.mpr hdrained) ⟨hhoused, hsurvives⟩
    by_cases hk : k = fd
    · subst hk
      exact .inr (hw.2.shut hw.1 hclosed)
    · exact .inl ⟨hw.1.acts (acts_closeConnection cfg silent w fd),
        hw.2.closeConnection hclosed hk⟩
  · intro hpending
    refine List.foldlRecOn _ _ hsurvives fun w hw fd hfd ↦ hw.closeConnection hclosed ?_
    rintro rfl
    exact hpending (hchosen.mp hfd)

/-! ## Closed connections stay closed

The pass is asked about a connection that an error has closed earlier in the run. From there on it
only ages: it stays closed, what has been sent stays sent, and no other connection gets its number.
-/

/-- What becomes of a connection. -/
structure Ages (c c' : Connection) : Prop where
  cid : c'.cid = c.cid
  closed : c.closed = true → c'.closed = true
  sent : c.outPos ≤ c.outBuf.length → c'.outPos ≤ c'.outBuf.length

theorem Ages.refl (c : Connection) : Ages c c := ⟨rfl, id, id⟩

theorem Ages.trans {c₁ c₂ c₃ : Connection} (h : Ages c₁ c₂) (h' : Ages c₂ c₃) : Ages c₁ c₃ :=
  ⟨h'.cid.trans h.cid, h'.closed ∘ h.closed, h'.sent ∘ h.sent⟩

/-- A connection whose number has been given out, with no more sent than there was to send. -/
structure Numbered (next : ℕ) (c : Connection) : Prop where
  cid_lt : c.cid < next
  le : c.outPos ≤ c.outBuf.length

/-- The connections of `w'` are those of `w`, aged, and new ones with new numbers. -/
structure Descends (w w' : World) : Prop where
  nextCid : w.nextCid ≤ w'.nextCid
  conns {fd c'} : w'.conns.lookup fd = some c' →
    (∃ c, w.conns.lookup fd = some c ∧ Ages c c') ∨ (w.nextCid ≤ c'.cid ∧ Numbered w'.nextCid c')

theorem Descends.trans {w₁ w₂ w₃ : World} (h : Descends w₁ w₂) (h' : Descends w₂ w₃) :
    Descends w₁ w₃ := by
  refine ⟨h.nextCid.trans h'.nextCid, fun hc₃ ↦ ?_⟩
  rcases h'.conns hc₃ with ⟨c₂, hc₂, hages⟩ | ⟨hnew, hnumbered⟩
  · rcases h.conns hc₂ with ⟨c₁, hc₁, hages'⟩ | ⟨hnew, hlt, hle⟩
    · exact .inl ⟨c₁, hc₁, hages'.trans hages⟩
    · refine .inr ⟨hages.cid ▸ hnew, hages.cid ▸ hlt.trans_le h'.nextCid, hages.sent hle⟩
  · exact .inr ⟨h.nextCid.trans hnew, hnumbered⟩

theorem Descends.refl (w : World) : Descends w w :=
  ⟨le_rfl, fun hc ↦ .inl ⟨_, hc, .refl _⟩⟩

private theorem Grows.ages {c c' : Connection} (h : Grows c c') : Ages c c' := by
  refine ⟨h.cid, h.closed, fun hle ↦ ?_⟩
  rw [h.outPos]
  exact hle.trans h.outBuf.isPrefix.length_le

private theorem Grown.descends (h : Grown w w') : Descends w w' := by
  refine ⟨h.nextCid, fun hc' ↦ ?_⟩
  rcases h.conns hc' with ⟨c, hc, hgrows⟩ | hnew
  · exact .inl ⟨c, hc, hgrows.ages⟩
  · exact .inr ⟨hnew.le, hnew.lt, hnew.outPos ▸ Nat.zero_le _⟩

private theorem descends_flushConnection (fd : ℤ) (w : World) :
    Descends w (flushConnection fd w) := by
  constructor
  · obtain ⟨conns, sends, closeQueue, heq⟩ := flushConnection_eq fd w
    rw [heq]
  · intro k c' hc'
    obtain ⟨c, hc, hflushed, hsame⟩ := flushed_flushConnection hc'
    refine .inl ⟨c, hc, hflushed.cid, hflushed.keepsClosed, fun hle ↦ ?_⟩
    by_cases hk : k = fd
    · subst hk
      rw [flushConnection, hc] at hc'
      exact (watched_flushLoop hc hle (by omega) c' hc').le
    · rw [hsame hk]
      exact hle

/-- **No action opens a closed connection**, and none takes back what it has sent. -/
theorem descends_act (cfg : GlobalConfig) (app : Application) (w : World) (a : Action) :
    Descends w (act cfg app w a) := by
  by_cases hflush : ∃ fd, a = .flush fd
  · obtain ⟨fd, rfl⟩ := hflush
    exact descends_flushConnection fd w
  · exact (grown_act cfg app w fun fd ha ↦ hflush ⟨fd, ha⟩).descends

variable (cfg app) in
theorem descends_step (w : World) (e : Event) : Descends w (step cfg app w e) :=
  (acts_step cfg app w e).invariant (I := Descends w)
    (fun w' a _ hw' ↦ hw'.trans (descends_act cfg app w' a)) (.refl w)

variable (cfg app) in
private theorem descends_run (w : World) (events : List Event) :
    Descends w (events.foldl (step cfg app) w) :=
  List.foldlRecOn events _ (.refl w) fun w' hw' e _ ↦ hw'.trans (descends_step cfg app w' e)

/-- Every connection of a run has its number. -/
theorem numbered_run (cfg : GlobalConfig) (app : Application) (bases : List UInt64)
    (capacity : UInt64) (events : List Event) {fd : ℤ} {c : Connection}
    (hc : (events.foldl (step cfg app) (initial bases capacity)).conns.lookup fd = some c) :
    Numbered (events.foldl (step cfg app) (initial bases capacity)).nextCid c := by
  rcases (descends_run cfg app (initial bases capacity) events).conns hc with
    ⟨c₀, hc₀, -⟩ | ⟨-, hnumbered⟩
  · exact nomatch hc₀
  · exact hnumbered

/-- **Which closed connections are reaped.** A connection that an error has closed in the course of
a run, and that has no worker left, is reaped by a pass of housekeeping exactly if all of its output
had been sent and no request of it is overdue. -/
theorem reaped_iff_drained (cfg : GlobalConfig) (app : Application) (bases : List UInt64)
    (capacity : UInt64) (before after : List Event) (p : ConnRef) {c₀ c : Connection}
    (hc₀ : (before.foldl (step cfg app) (initial bases capacity)).connection p = some c₀)
    (hclosed : c₀.closed = true)
    (hc : ((before ++ after).foldl (step cfg app) (initial bases capacity)).connection p = some c)
    (hidle : c.activeWorkers = 0) :
    Reaped (step cfg app ((before ++ after).foldl (step cfg app) (initial bases capacity))
        .housekeeping) p c ↔
      Drained cfg ((before ++ after).foldl (step cfg app) (initial bases capacity)).clock c := by
  obtain ⟨hlookup₀, hcid₀⟩ := World.connection_eq_some_iff.mp hc₀
  obtain ⟨hlookup, hcid⟩ := World.connection_eq_some_iff.mp hc
  have hhoused : Housed bases.length
      ((before ++ after).foldl (step cfg app) (initial bases capacity)) :=
    List.foldlRecOn _ _ (housed_initial bases capacity) fun w hw e _ ↦ hw.step e
  have hnumbered₀ := numbered_run cfg app bases capacity before hlookup₀
  have hnumbered := numbered_run cfg app bases capacity (before ++ after) hlookup
  -- the connection is the one that was closed, since numbers are not given out twice
  have hstays : c.closed = true := by
    rw [List.foldl_append] at hlookup
    rcases (descends_run cfg app _ after).conns hlookup with ⟨c₁, hc₁, hages⟩ | ⟨hnew, -⟩
    · obtain rfl := Option.some.inj (hlookup₀.symm.trans hc₁)
      exact hages.closed hclosed
    · rw [hcid, ← hcid₀] at hnew
      exact absurd hnumbered₀.cid_lt hnew.not_gt
  obtain ⟨hshut, hsurvives⟩ :=
    housekeepingCloseIdle_closed cfg hhoused hlookup hstays hidle hnumbered.le
  rw [step]
  constructor
  · intro hreaped
    by_contra hpending
    obtain ⟨c', hc', happends⟩ := hsurvives hpending
    have hconn := World.connection_eq_some_iff.mpr ⟨hc', happends.cid.trans hcid⟩
    rw [hreaped.gone] at hconn
    cases hconn
  · intro hdrained
    obtain ⟨hgone, hend, hlost⟩ := hshut hdrained
    refine ⟨?_, hend, fun hr ↦ ?_⟩
    · rw [World.connection, hgone, Option.filter_none]
    · obtain ⟨i, harena, -, hfree⟩ := hlost hr
      exact ⟨i, harena, hfree⟩

/-- A worker has the request when `recv` fails. -/
def recvFails : List Event :=
  [.accept [5],
    .io 5 ⟨true, false, false⟩ ([1, 1, 0, 1, 0, 8, 0, 0, 0, 1, 0, 0, 0, 0, 0, 0] ++
      [1, 4, 0, 1, 0, 0, 0, 0] ++ [1, 5, 0, 1, 0, 0, 0, 0]) .again,
    .io 5 ⟨true, false, false⟩ [] .error]

def workerEnds : List Event := [.worker 0, .worker 0, .worker 0]

/-- Once the worker has ended the connection is reaped. -/
theorem reaped_recvFails : ∃ c,
    ((recvFails ++ workerEnds).foldl (step {} silent)
      (initial [0x10000] 0x10000)).connection ⟨5, 0⟩ = some c ∧ c.requests.keys = [1] ∧
    Reaped (step {} silent ((recvFails ++ workerEnds).foldl (step {} silent)
      (initial [0x10000] 0x10000)) .housekeeping) ⟨5, 0⟩ c := by
  have hbefore : ((recvFails.foldl (step {} silent) (initial [0x10000] 0x10000)).connection
      ⟨5, 0⟩).any (fun c ↦ c.closed) = true := by decide +kernel
  have hafter : (((recvFails ++ workerEnds).foldl (step {} silent)
      (initial [0x10000] 0x10000)).connection ⟨5, 0⟩).any (fun c ↦
        c.activeWorkers = 0 ∧ c.requests.keys = [1] ∧ Drained {} 0 c) = true := by decide +kernel
  have hclock : ((recvFails ++ workerEnds).foldl (step {} silent)
      (initial [0x10000] 0x10000)).clock = 0 := by decide +kernel
  obtain ⟨c₀, hc₀, hclosed⟩ := (Option.any_eq_true _ _).mp hbefore
  obtain ⟨c, hc, hidle⟩ := (Option.any_eq_true _ _).mp hafter
  rw [decide_eq_true_eq] at hidle
  obtain ⟨hidle, hkeys, hdrained⟩ := hidle
  refine ⟨c, hc, hkeys, ?_⟩
  refine (reaped_iff_drained {} silent [0x10000] 0x10000 recvFails _ ⟨5, 0⟩ hc₀ hclosed hc
    hidle).mpr ?_
  rw [hclock]
  exact hdrained

/-- The answer to an aborted request cannot be sent. -/
def sendFails : List Event :=
  [.accept [5], .outside 0 [.error],
    .io 5 ⟨true, false, false⟩ ([1, 1, 0, 1, 0, 8, 0, 0, 0, 1, 0, 0, 0, 0, 0, 0] ++
      [1, 2, 0, 1, 0, 0, 0, 0]) .again]

/-- `send` has failed, the connection is closed and has no worker, and housekeeping leaves it. -/
theorem not_reaped_sendFails : ∃ c,
    (sendFails.foldl (step {} silent) (initial [0x10000] 0x10000)).sends = [] ∧
    (sendFails.foldl (step {} silent) (initial [0x10000] 0x10000)).connection ⟨5, 0⟩ = some c ∧
    c.closed = true ∧ c.activeWorkers = 0 ∧
    ¬Reaped (step {} silent (sendFails.foldl (step {} silent) (initial [0x10000] 0x10000))
      .housekeeping) ⟨5, 0⟩ c := by
  have hsends : (sendFails.foldl (step {} silent) (initial [0x10000] 0x10000)).sends = [] := by
    decide +kernel
  have hbefore : ((sendFails.foldl (step {} silent) (initial [0x10000] 0x10000)).connection
      ⟨5, 0⟩).any (fun c ↦ c.closed = true ∧ c.activeWorkers = 0) = true := by decide +kernel
  have hleft : ((step {} silent (sendFails.foldl (step {} silent) (initial [0x10000] 0x10000))
      .housekeeping).connection ⟨5, 0⟩).isSome = true := by decide +kernel
  obtain ⟨c, hc, hclosed⟩ := (Option.any_eq_true _ _).mp hbefore
  rw [decide_eq_true_eq] at hclosed
  refine ⟨c, hsends, hc, hclosed.1, hclosed.2, fun hreaped ↦ ?_⟩
  rw [hreaped.gone] at hleft
  cases hleft

end Wasapi.FcgiConn
