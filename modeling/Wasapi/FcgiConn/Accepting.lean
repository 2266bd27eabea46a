import Wasapi.FcgiConn.Housing
import Wasapi.FcgiConn.Interruptions

/-!
# Pausing and resuming `accept`

`handle_new_connections` pauses `accept` when no arena is available, and only `release_request`
resumes it. So there has to be a request that will be released. The arenas are shared with the
websocket server, which gives them back without a look at the flag: if its tasks hold all of them
when a connection arrives and there is no FastCGI request, `accept` stays paused for good. The same
happens if a websocket task takes the arena that `release_request` has just given back, before it
looks whether there is one.

`FindsLive` says that it does not come to that: whoever finds no arena finds a request instead, and
no request is forgotten while it has not been released.
-/

namespace Wasapi.FcgiConn

open Fastcgi

variable {cfg : GlobalConfig} {app : Application} {w w' : World} {n : ℕ}

/-- A request is stored there, and has been released or has not. -/
def StoredAs (released : Bool) (w : World) (fd : ℤ) (id : UInt16) : Prop :=
  ∃ c r, Stored w fd c id r ∧ r.released = released

/-- A request is stored and has not been released. -/
def HasLive (w : World) : Prop := ∃ fd id, StoredAs false w fd id

/-- While `accept` is paused there is a live request whose release resumes it. -/
def CanResume (cfg : GlobalConfig) (w : World) : Prop :=
  w.acceptPaused = true → ∃ fd id, StoredAs false w fd id ∧
    (releaseRequest cfg fd id w).acceptPaused = false

/-- Between giving back an arena and looking whether there is one, `release_request` itself is about
to resume `accept`. -/
def ResumableOrTesting (cfg : GlobalConfig) (x : Process World Point) : Prop :=
  x.program.coming = some .resumeTest ∨ CanResume cfg x.state

/-- The condition on a step. If a handler finds no arena and leaves `accept` paused there is a live
request, and a connection whose requests are cleared while `accept` is paused has no live one. -/
def FindsLive : Point → World → Prop
  | .plain, _ | .deferring, _ => True
  | .resumeTest, w => w.acceptPaused = true → w.available = 0 → HasLive w
  | .pauseTest, w => w.available = 0 → HasLive w
  | .clearing fd, w => w.acceptPaused = true →
    ∀ c ∈ w.conns.lookup fd, ∀ e ∈ c.requests.entries, e.2.released = true

private theorem hasLive_iff : HasLive w ↔
    ∃ e ∈ w.conns.entries, ∃ e' ∈ e.2.requests.entries, e'.2.released = false := by
  constructor
  · rintro ⟨fd, id, c, r, hs, hlive⟩
    exact ⟨⟨fd, c⟩, AList.mem_lookup_iff.mp hs.conn, ⟨id, r⟩, AList.mem_lookup_iff.mp hs.request,
      hlive⟩
  · rintro ⟨⟨fd, c⟩, hc, ⟨id, r⟩, hr, hlive⟩
    exact ⟨fd, id, c, r, ⟨AList.mem_lookup_iff.mpr hc, AList.mem_lookup_iff.mpr hr⟩, hlive⟩

instance (w : World) : Decidable (HasLive w) := decidable_of_iff' _ hasLive_iff

instance : ∀ (p : Point) (w : World), Decidable (FindsLive p w)
  | .plain, _ | .deferring, _ => .isTrue trivial
  | .resumeTest, _ | .pauseTest, _ => inferInstanceAs (Decidable (_ → _))
  | .clearing _, _ => inferInstanceAs (Decidable (_ → ∀ c ∈ _, ∀ e ∈ _, _))

/-! ## Live requests

A request is live while it is stored and has not been released. Serving connections may add such
requests and let them make progress, and never takes one away; what does is a release, and the
erasure of an entry. -/

section StoredAs

variable {released : Bool} {fd : ℤ} {id : UInt16}

theorem StoredAs.evolve (h : StoredAs released w fd id) (hw : Evolves Keeps w w') :
    StoredAs released w' fd id := by
  obtain ⟨c, r, hs, hreleased⟩ := h
  obtain ⟨c', r', hs', hprogress⟩ := hw.stored_right hs
  exact ⟨c', r', hs', hprogress.released.trans hreleased⟩

/-- Serving connections releases nothing and forgets nothing. -/
theorem StoredAs.serves {limits : Limits} (h : StoredAs released w fd id)
    (hserves : Serves limits w w') : StoredAs released w' fd id := by
  refine hserves.invariant (I := fun w ↦ StoredAs released w fd id) (fun w w' hstep hw ↦ ?_) h
  rcases hstep with ⟨k, c, c', hc, hput, hown⟩ | ⟨hconns⟩ | ⟨k, c, i, a, r, hc, hi, hput⟩ |
    ⟨k, c, i, r, rec, body, out, hc, hr, hbody, hput⟩ | ⟨k, c, i, r, p, hc, hr, _, _, rfl⟩ |
    ⟨k, c, i, r, r', hc, hr, hsame, hput⟩
  · refine hw.evolve (.of_puts keeps_refl hc hput (.of_requests hown.cid fun _ ↦ ?_))
    rw [hown.requests]
  · refine hw.evolve fun k ↦ ?_
    rw [hconns]
    exact Evolves.refl keeps_refl w k
  · obtain ⟨c₁, r', hs, hreleased⟩ := hw
    obtain ⟨c', hs', -⟩ := stored_of_allocate hc hi hput hs
    exact ⟨c', r', hs', hreleased⟩
  · refine hw.evolve (.of_puts keeps_refl hc hput (.of_insert hr ?_ rfl rfl))
    exact .of_core (coreProgress_recordBody hbody _ _)
  · exact hw.evolve (evolves_updateRef keeps_refl w p fun c _ ↦ .of_requests rfl fun _ ↦ rfl)
  · exact hw.evolve (.of_puts keeps_refl hc hput (.of_insert hr hsame.progress rfl rfl))

end StoredAs

theorem HasLive.imp (h : HasLive w)
    (himp : ∀ fd id, StoredAs false w fd id → StoredAs false w' fd id) : HasLive w' := by
  obtain ⟨fd, id, hstored⟩ := h
  exact ⟨fd, id, himp fd id hstored⟩

/-! ## The flag

`pause_accept` sets it and `resume_accept` clears it, and each has one caller. Everything else a
release does leaves the flag alone, which is what these lemmas are for. -/

private theorem acceptPaused_updateConn (fd : ℤ) (f : Connection → Connection) :
    (w.updateConn fd f).acceptPaused = w.acceptPaused := by rw [World.updateConn_eq]

private theorem acceptPaused_internalOnRequestReady (r : Request) (w : World) :
    (internalOnRequestReady cfg r w).2.acceptPaused = w.acceptPaused := by
  rw [internalOnRequestReady]
  split
  · rfl
  split
  · rfl
  · simp only
    rw [World.updateRef_eq]

private theorem acceptPaused_allocateRequest (io : ConnRef) (id : UInt16) (w : World) :
    (allocateRequest cfg io id w).2.acceptPaused = w.acceptPaused := by
  rw [allocateRequest]
  split
  · rfl
  simp only
  split
  · rfl
  · rfl

variable (cfg) in
private theorem acceptPaused_turn (limits : Limits) (io : ConnRef) (m : Machine World)
    (rec : Record) :
    (turn limits (callbacks cfg io) m rec).ext.acceptPaused = m.ext.acceptPaused :=
  frame_turn (g := World.acceptPaused) acceptPaused_internalOnRequestReady
    (acceptPaused_allocateRequest io) m rec

private theorem acceptPaused_processFcgi (cfg : GlobalConfig) (fd : ℤ) (w : World) :
    (processFcgi cfg fd w).acceptPaused = w.acceptPaused :=
  frame_processFcgi (g := World.acceptPaused) acceptPaused_internalOnRequestReady
    acceptPaused_allocateRequest (fun _ fd f ↦ acceptPaused_updateConn fd f) fd w

private theorem acceptPaused_flushConnection (fd : ℤ) (w : World) :
    (flushConnection fd w).acceptPaused = w.acceptPaused := by
  obtain ⟨conns, sends, closeQueue, heq⟩ := flushConnection_eq fd w
  rw [heq]

private theorem acceptPaused_waitingLoop (cfg : GlobalConfig) (n budget : ℕ) (w : World) :
    (waitingLoop cfg n budget w).acceptPaused = w.acceptPaused := by
  induction n generalizing budget w with
  | zero => rfl
  | succ n ih =>
    rw [waitingLoop]
    split
    · rfl
    split
    · rfl
    simp only
    split
    · exact ih _ _
    split
    · exact ih _ _
    split
    · rw [ih, acceptPaused_flushConnection, acceptPaused_processFcgi]
    split
    · rw [ih]
      exact acceptPaused_processFcgi cfg _ _
    · rw [ih, acceptPaused_processFcgi]

/-- **Whoever releases a request resumes `accept`**, if nobody interrupts. -/
theorem Housed.resumes (h : Housed n w) {fd : ℤ} {c : Connection} {id : UInt16} {r : Request}
    (hs : Stored w fd c id r) : (releaseRequest cfg fd id w).acceptPaused = false := by
  have hpos := h.available_destroyRequest hs
  rw [releaseRequest, processWaitingConnections, acceptPaused_waitingLoop]
  split
  · rfl
  · next hkept =>
    rw [Bool.and_eq_true, decide_eq_true_eq, not_and_or] at hkept
    rcases hkept with hopen | hnone
    · exact Bool.eq_false_iff.mpr hopen
    · exact absurd hpos hnone

/-- While `accept` is paused there is a live request. -/
def Resumable (w : World) : Prop := w.acceptPaused = true → HasLive w

private theorem Housed.canResume (h : Housed n w) (hw : Resumable w) : CanResume cfg w := by
  intro hpaused
  obtain ⟨fd, id, c, r, hs, hlive⟩ := hw hpaused
  exact ⟨fd, id, ⟨c, r, hs, hlive⟩, h.resumes hs⟩

theorem Resumable.imp (h : Resumable w) (hpaused : w'.acceptPaused = w.acceptPaused)
    (himp : ∀ fd id, StoredAs false w fd id → StoredAs false w' fd id) : Resumable w' :=
  fun hp ↦ (h (hpaused ▸ hp)).imp himp

/-! ## Interference

Between two steps of a handler the pool may change in any way the websocket tasks can change it, and
nothing else does. So what is carried from step to step must not say how many arenas are free: it
speaks of the requests, of the flag, and of the request the handler is at. -/

/-- The websocket tasks change nothing but the pool. -/
structure PoolOnly (w w' : World) : Prop where
  conns : w'.conns = w.conns
  acceptPaused : w'.acceptPaused = w.acceptPaused
  nextHandle : w.nextHandle ≤ w'.nextHandle
  counted : ∀ {m : ℕ}, w.arenas.Counted m → w'.arenas.Counted m

theorem PoolOnly.refl (w : World) : PoolOnly w w := ⟨rfl, rfl, le_rfl, fun h ↦ h⟩

theorem PoolOnly.trans {w₁ w₂ w₃ : World} (h : PoolOnly w₁ w₂) (h' : PoolOnly w₂ w₃) :
    PoolOnly w₁ w₃ :=
  ⟨h'.conns.trans h.conns, h'.acceptPaused.trans h.acceptPaused, h.nextHandle.trans h'.nextHandle,
    fun hcounted ↦ h'.counted (h.counted hcounted)⟩

variable (cfg app) in
private theorem poolOnly_interfere (w : World) (o : Websocket) :
    PoolOnly w (interfere cfg app w o) := by
  cases o with
  | take =>
    rw [interfere, step]
    split
    · exact .refl w
    · next i m hget => exact ⟨rfl, rfl, Nat.le_succ _, fun h ↦ (h.get hget).1⟩
  | giveBack k =>
    rw [interfere, step]
    split
    · exact .refl w
    · exact ⟨rfl, rfl, le_rfl, fun h ↦ h.release _⟩

theorem StoredAs.of_lookup {released : Bool} {fd : ℤ} {id : UInt16} (h : StoredAs released w fd id)
    (hlookup : ∀ k, w'.conns.lookup k = w.conns.lookup k) : StoredAs released w' fd id := by
  refine h.evolve fun k ↦ ?_
  rw [hlookup]
  exact Evolves.refl keeps_refl w k

theorem StoredAs.of_conns {released : Bool} {fd : ℤ} {id : UInt16} (h : StoredAs released w fd id)
    (hconns : w'.conns = w.conns) : StoredAs released w' fd id :=
  h.of_lookup fun k ↦ by rw [hconns]

private theorem Housed.poolOnly (h : Housed n w) (hw : PoolOnly w w') : Housed n w' :=
  h.of_conns hw.conns (hw.counted h.pool) hw.nextHandle

/-- What holds before a step of a handler. -/
structure Before (n : ℕ) (p : Point) (w : World) : Prop where
  housed : Housed n w
  resumable : p ≠ .resumeTest → Resumable w

/-- What holds between most steps. Of the request a handler is at it is known
whether it has been released. -/
structure Accepting (n : ℕ) (kept : Option (Bool × ℤ × UInt16)) (w : World) : Prop where
  housed : Housed n w
  resumable : Resumable w
  kept : ∀ p ∈ kept, StoredAs p.1 w p.2.1 p.2.2

private theorem stable_before (p : Point) : Program.Stable PoolOnly (Before n p) := fun _ _ hw h ↦
  ⟨h.housed.poolOnly hw, fun hp ↦ (h.resumable hp).imp hw.acceptPaused fun _ _ hs ↦
    hs.of_conns hw.conns⟩

section Accepting

variable {kept : Option (Bool × ℤ × UInt16)}

private theorem stable_accepting : Program.Stable PoolOnly (Accepting n kept) := fun _ _ hw h ↦
  ⟨h.housed.poolOnly hw, h.resumable.imp hw.acceptPaused fun _ _ hs ↦ hs.of_conns hw.conns,
    fun p hp ↦ (h.kept p hp).of_conns hw.conns⟩

theorem Accepting.before (h : Accepting n kept w) (p : Point) : Before n p w :=
  ⟨h.housed, fun _ ↦ h.resumable⟩

theorem Accepting.evolve (h : Accepting n kept w) (hhoused : Housed n w')
    (hpaused : w'.acceptPaused = w.acceptPaused) (hconns : Evolves Keeps w w') :
    Accepting n kept w' :=
  ⟨hhoused, h.resumable.imp hpaused fun _ _ hs ↦ hs.evolve hconns,
    fun p hp ↦ (h.kept p hp).evolve hconns⟩

theorem Accepting.of_conns (h : Accepting n kept w) (hhoused : Housed n w')
    (hpaused : w'.acceptPaused = w.acceptPaused) (hconns : w'.conns = w.conns) :
    Accepting n kept w' :=
  ⟨hhoused, h.resumable.imp hpaused fun _ _ hs ↦ hs.of_conns hconns,
    fun p hp ↦ (h.kept p hp).of_conns hconns⟩

theorem Accepting.serves {limits : Limits} (h : Accepting n kept w) (hhoused : Housed n w')
    (hpaused : w'.acceptPaused = w.acceptPaused) (hserves : Serves limits w w') :
    Accepting n kept w' :=
  ⟨hhoused, h.resumable.imp hpaused fun _ _ hs ↦ hs.serves hserves,
    fun p hp ↦ (h.kept p hp).serves hserves⟩

theorem Accepting.stays (h : Accepting n kept w) (hstays : Stays w w') : Accepting n kept w' :=
  h.evolve (h.housed.stays hstays) hstays.acceptPaused hstays.conns

theorem Accepting.queues (h : Accepting n kept w) (closeQueue waitingConns : List ℤ) :
    Accepting n kept { w with closeQueue := closeQueue, waitingConns := waitingConns } :=
  ⟨h.housed.of_conns rfl h.housed.pool le_rfl, h.resumable.imp rfl fun _ _ hs ↦ hs.of_conns rfl,
    fun p hp ↦ (h.kept p hp).of_conns rfl⟩

theorem Accepting.flushConnection (h : Accepting n kept w) (fd : ℤ) :
    Accepting n kept (flushConnection fd w) :=
  h.serves (h.housed.flushConnection fd) (acceptPaused_flushConnection fd w)
    (serves_flushConnection fd w : Serves ({} : GlobalConfig).toLimits w _)

variable {post : World → Prop}

private theorem Accepting.safe_plainly (h : Accepting n kept w) {f : World → World}
    (hf : ∀ w, Accepting n kept w → Accepting n kept (f w)) :
    (plainly f).Safe PoolOnly FindsLive (Before n) (Accepting n kept) w :=
  Program.safe_step stable_accepting h (h.before _) fun w hw _ ↦ hf w hw

private theorem safe_plainly_of (h : Accepting n kept w) {f : World → World}
    (hf : ∀ w, Accepting n kept w → post (f w)) :
    (plainly f).Safe PoolOnly FindsLive (Before n) post w :=
  Program.safe_step stable_accepting h (h.before _) fun w hw _ ↦ hf w hw

private theorem safe_look (h : Accepting n kept w) {next : World → Handler}
    (hnext : ∀ w, Accepting n kept w → (next w).Safe PoolOnly FindsLive (Before n) post w) :
    (look next).Safe PoolOnly FindsLive (Before n) post w :=
  Program.safe_step stable_accepting h (h.before _) fun w hw _ ↦ hnext w hw

/-! ## `process_fcgi`

While `process_buffer` is running, the requests it has allocated are in its own copy of the map, and
the connection still holds the old one. The copy never loses a live request, so writing it back does
no harm. -/

private theorem lookup_checkIn_start {fd : ℤ} {c : Connection} (hc : w.conns.lookup fd = some c)
    (k : ℤ) :
    (checkIn fd ⟨c.requests, c.outBuf, w⟩).conns.lookup k = w.conns.lookup k := by
  rw [lookup_checkIn]
  by_cases hk : k = fd
  · rw [hk, hc, Option.map_some, if_pos rfl]
  · simp only [if_neg hk, Option.map_id']

/-- Where `process_buffer` is that was called in `w₀`. Its copy of the requests holds what the
connection held, and more. -/
structure Decoding (n : ℕ) (w₀ : World) (io : ConnRef) (requests : Requests) (out : Bytes)
    (w : World) : Prop where
  outside : Accepting n none w
  machine : MachineHoused n 0 ⟨requests, out, w⟩
  inside : ∀ released fd id, StoredAs released w₀ fd id →
    StoredAs released (checkIn io.fd ⟨requests, out, w⟩) fd id
  acceptPaused : w.acceptPaused = w₀.acceptPaused
  connected : ∃ c, w.conns.lookup io.fd = some c ∧ c.cid = io.cid

section Decoding

variable {w₀ : World} {io : ConnRef} {requests : Requests} {out : Bytes}

private theorem decoding_start (h : Accepting n kept w) {fd : ℤ} {c : Connection}
    (hc : w.conns.lookup fd = some c) :
    Decoding n w ⟨fd, c.cid⟩ c.requests c.outBuf w where
  outside := ⟨h.housed, h.resumable, fun _ hp ↦ (nomatch hp)⟩
  machine := ⟨h.housed.pool, Nat.zero_le _, fun hr ↦ h.housed.home ⟨hc, hr⟩⟩
  inside _ _ _ hs := hs.of_lookup (lookup_checkIn_start hc)
  acceptPaused := rfl
  connected := ⟨c, hc, rfl⟩

private theorem stable_decoding : Program.Stable PoolOnly (Decoding n w₀ io requests out) := by
  intro w w' hw h
  refine ⟨stable_accepting w w' hw h.outside, ?_, fun released fd id hs ↦ ?_,
    hw.acceptPaused.trans h.acceptPaused, hw.conns ▸ h.connected⟩
  · exact ⟨hw.counted h.machine.pool, Nat.zero_le _,
      fun hr ↦ (h.machine.home hr).mono hw.nextHandle⟩
  · refine (h.inside released fd id hs).of_lookup fun k ↦ ?_
    simp only [lookup_checkIn, hw.conns]

variable (cfg) in
/-- **A turn of the loop.** -/
theorem Decoding.turn (h : Decoding n w₀ io requests out w) (rec : Record) {m : Machine World}
    (hm : turn cfg.toLimits (callbacks cfg io) ⟨requests, out, w⟩ rec = m) :
    Decoding n w₀ io m.requests m.outBuf m.ext := by
  subst hm
  have hmachine := h.machine.turn cfg cfg.toLimits io rec
  have hlater : MachineHoused n w.nextHandle ⟨requests, out, w⟩ :=
    ⟨h.machine.pool, le_rfl, h.machine.home⟩
  have hnext := (hlater.turn cfg cfg.toLimits io rec).le
  have hpaused := acceptPaused_turn cfg cfg.toLimits io ⟨requests, out, w⟩ rec
  obtain ⟨hserves, hconnected⟩ := serves_turn cfg.toLimits cfg (m := ⟨requests, out, w⟩) rec
    h.connected
  have hkeeps := (evolves_turn cfg cfg.toLimits io ⟨requests, out, w⟩ rec).mono
    fun c c' ⟨active, _, heq⟩ ↦ (heq ▸ .of_requests rfl fun _ ↦ rfl : Keeps c c')
  refine ⟨h.outside.evolve ?_ hpaused hkeeps, hmachine, fun released fd id hs ↦
    (h.inside released fd id hs).serves hserves, hpaused.trans h.acceptPaused, hconnected⟩
  exact h.outside.housed.of_lookup hmachine.pool hnext fun hc' ↦ by
    obtain ⟨c, hc, hkeep⟩ := hkeeps.lookup_left hc'
    exact .inr ⟨c, hc, hkeep.sameHomes⟩

/-- **The end of `process_fcgi`.** -/
theorem Decoding.writeBack (h₀ : Accepting n kept w₀) {res : ProcessResult World}
    (h : Decoding n w₀ io res.requests res.outBuf res.ext) :
    Accepting n kept (writeBack io.fd res) := by
  have hkeeps : Evolves Keeps (checkIn io.fd res.toMachine) (FcgiConn.writeBack io.fd res) := by
    intro k
    rw [lookup_checkIn, FcgiConn.writeBack, World.lookup_updateConn]
    cases res.ext.conns.lookup k with
    | none => exact .none
    | some c =>
      rw [Option.map_some, Option.map_some]
      split
      · exact .some (.of_requests rfl fun _ ↦ rfl)
      · exact .some (keeps_refl c)
  have hpaused : (FcgiConn.writeBack io.fd res).acceptPaused = w₀.acceptPaused :=
    (acceptPaused_updateConn _ _).trans h.acceptPaused
  refine ⟨⟨?_, fun {fd c' id r} hs ↦ ?_⟩,
    h₀.resumable.imp hpaused fun fd id hs ↦ (h.inside _ _ _ hs).evolve hkeeps,
    fun p hp ↦ (h.inside _ _ _ (h₀.kept p hp)).evolve hkeeps⟩
  · rw [FcgiConn.writeBack, World.arenas_updateConn]
    exact h.machine.pool
  · rw [FcgiConn.writeBack, World.nextHandle_updateConn]
    have hc := hs.conn
    rw [FcgiConn.writeBack, World.lookup_updateConn, Option.map_eq_some_iff] at hc
    obtain ⟨c, hc, heq⟩ := hc
    have hr := hs.request
    rw [← heq] at hr
    split at hr
    · exact h.machine.home hr
    · exact h.outside.housed.home ⟨hc, hr⟩

private theorem toMachine_exitResult {σ : Type*} (inBuf : Bytes) (exit : LoopExit σ) :
    (exitResult inBuf exit).toMachine = exit.machine := by
  rw [exitResult]
  split
  · rfl
  · rfl

private theorem Decoding.safe (h₀ : Accepting n kept w₀) (h : Decoding n w₀ io requests out w)
    (inBuf : Bytes) (fuel offset : ℕ) :
    (decodeProgram cfg io inBuf fuel offset requests out).Safe PoolOnly FindsLive (Before n)
      (Accepting n kept) w := by
  have hend (p : Point) {requests : Requests} {out : Bytes} {w : World}
      (h : Decoding n w₀ io requests out w) (offset : ℕ) (waiting : Bool) :
      (Program.step p (fun w ↦ FcgiConn.writeBack io.fd
        (exitResult inBuf ⟨offset, waiting, ⟨requests, out, w⟩⟩)) fun _ ↦ .done).Safe PoolOnly
          FindsLive (Before n) (Accepting n kept) w := by
    refine Program.safe_step stable_decoding h (h.outside.before _) fun w hw _ ↦ ?_
    refine Decoding.writeBack h₀ ?_
    rw [toMachine_exitResult]
    exact hw
  induction fuel generalizing offset requests out w with
  | zero => exact hend .plain h offset false
  | succ fuel ih =>
    rw [decodeProgram]
    split
    · exact hend .plain h offset false
    next rec e hnext =>
    refine Program.safe_step stable_decoding h (h.outside.before _) fun w hw _ ↦ ?_
    have hturn := hw.turn cfg rec rfl
    rw [Fastcgi.turn] at hturn ⊢
    cases hrec : processRecord cfg.toLimits (callbacks cfg io) rec ⟨requests, out, w⟩ with
    | deferred m =>
      rw [hrec] at hturn
      exact hend .deferring hturn offset true
    | next m =>
      rw [hrec] at hturn
      exact ih hturn _

end Decoding

private theorem Accepting.safe_process (h : Accepting n kept w) (fd : ℤ) :
    (processProgram cfg fd).Safe PoolOnly FindsLive (Before n) (Accepting n kept) w := by
  refine safe_look h fun w hw ↦ ?_
  split
  · exact hw
  next c hc =>
  split
  · exact hw
  · exact (decoding_start hw hc).safe hw c.inBuf _ _

/-! ## Waiting connections

The loop is a row of calls of `process_fcgi` and of flushes, with the descriptor queue taken from in
between. None of them releases anything. -/

private theorem Accepting.safe_waiting (h : Accepting n kept w) (m budget : ℕ) :
    (waitingProgram cfg m budget).Safe PoolOnly FindsLive (Before n) (Accepting n kept) w := by
  induction m generalizing budget w with
  | zero => exact h
  | succ m ih =>
    rw [waitingProgram]
    split
    · exact h
    refine safe_look h fun w hw ↦ ?_
    split
    · exact hw
    next fd fds _ =>
    refine (hw.safe_plainly fun w hw ↦ hw.queues w.closeQueue fds).seq
      fun w hw ↦ safe_look hw fun w hw ↦ ?_
    split
    · exact ih hw budget
    next c _ =>
    split
    · exact ih hw budget
    refine (hw.safe_process fd).seq fun w hw ↦ safe_look hw fun w hw ↦ ?_
    simp only
    split
    · exact (hw.safe_plainly fun w hw ↦ hw.flushConnection fd).seq fun w hw ↦ ih hw (budget - 1)
    split
    · exact (hw.safe_plainly fun w hw ↦ hw.queues w.closeQueue (w.waitingConns ++ [fd])).seq
        fun w hw ↦ ih hw budget
    · exact ih hw budget

theorem Accepting.drop (h : Accepting n kept w) : Accepting n none w :=
  ⟨h.housed, h.resumable, fun _ hp ↦ (nomatch hp)⟩

/-! ## Releasing requests

Behind `release(a)` the arena is there for everybody. If `release_request` still finds it, `accept`
is resumed; if a websocket task has been faster, the guard says that another live request is stored,
and that one will be released in turn. -/

variable {released : Bool} {fd : ℤ} {id : UInt16}

private theorem Accepting.keep (h : Accepting n kept w) (hs : StoredAs released w fd id) :
    Accepting n (some (released, fd, id)) w := by
  refine ⟨h.housed, h.resumable, fun p hp ↦ ?_⟩
  obtain rfl := Option.some.inj hp
  exact hs

theorem StoredAs.destroyRequest (hw : Housed n w) (h : StoredAs released w fd id) :
    StoredAs true (destroyRequest fd id w) fd id := by
  obtain ⟨c, r, hs, -⟩ := h
  obtain ⟨i, harena, -⟩ := (hw.home hs).arena
  obtain ⟨hput, -⟩ := destroyRequest_spec hs harena
  exact ⟨_, _, ⟨(hput fd).trans (if_pos rfl), AList.lookup_insert _⟩, rfl⟩

/-- **`release_request` resumes `accept`, or leaves it to another request.** -/
theorem Accepting.safe_release (h : Accepting n (some (released, fd, id)) w) :
    (releaseProgram cfg fd id).Safe PoolOnly FindsLive (Before n)
      (Accepting n (some (true, fd, id))) w := by
  have hdestroy : (plainly (destroyRequest fd id)).Safe PoolOnly FindsLive (Before n)
      (fun w ↦ Housed n w ∧ StoredAs true w fd id) w := safe_plainly_of h fun w hw ↦
    ⟨hw.housed.destroyRequest fd id, (hw.kept _ rfl).destroyRequest hw.housed⟩
  have hstable : Program.Stable PoolOnly fun w ↦ Housed n w ∧ StoredAs true w fd id :=
    fun _ _ hw h ↦ ⟨h.1.poolOnly hw, h.2.of_conns hw.conns⟩
  refine hdestroy.seq fun w hw ↦ Program.safe_step hstable hw ⟨hw.1, fun hne ↦ absurd rfl hne⟩
    fun w hw hlive ↦ ?_
  have htested : Accepting n (some (true, fd, id)) (testResume w) := by
    rw [testResume]
    split
    · have hopen : Accepting n none (resumeAccept w) :=
        ⟨hw.1.of_conns rfl hw.1.pool le_rfl, fun hp ↦ (nomatch hp), fun _ hp ↦ (nomatch hp)⟩
      exact hopen.keep (hw.2.of_conns rfl)
    · next hkept =>
      rw [Bool.and_eq_true, decide_eq_true_eq, not_and, Nat.pos_iff_ne_zero, not_not] at hkept
      have hleft : Accepting n none w :=
        ⟨hw.1, fun hp ↦ hlive hp (hkept hp), fun _ hp ↦ (nomatch hp)⟩
      exact hleft.keep hw.2
  exact safe_look htested fun w hw ↦ hw.safe_waiting _ _

theorem Accepting.eraseRequest (h : Accepting n (some (true, fd, id)) w) :
    Accepting n none (eraseRequest fd id w) := by
  obtain ⟨c, r, hs, hreleased⟩ := h.kept _ rfl
  have hhoused := h.housed.updateConn fd fun c _ ↦ sameHomes_erase c id
  refine ⟨hhoused, h.resumable.imp (acceptPaused_updateConn _ _) ?_, fun _ hp ↦ (nomatch hp)⟩
  rintro k i ⟨c', r', hs', hlive⟩
  have hne : ¬(k = fd ∧ i = id) := by
    rintro ⟨rfl, rfl⟩
    obtain rfl := Option.some.inj (hs.conn.symm.trans hs'.conn)
    obtain rfl := Option.some.inj (hs.request.symm.trans hs'.request)
    have hboth : true = false := hreleased.symm.trans hlive
    cases hboth
  obtain ⟨c'', hs''⟩ := stored_of_eraseRequest hs' hne
  exact ⟨c'', r', hs'', hlive⟩

private theorem Accepting.safe_sweepRequest (h : Accepting n none w) (fd : ℤ) (id : UInt16) :
    (sweepRequestProgram cfg fd id).Safe PoolOnly FindsLive (Before n) (Accepting n none) w := by
  have hrelease {w : World} {released : Bool}
      (hw : Accepting n (some (released, fd, id)) w) :
      ((releaseProgram cfg fd id).seq (plainly (FcgiConn.eraseRequest fd id))).Safe PoolOnly
        FindsLive (Before n) (Accepting n none) w :=
    hw.safe_release.seq fun w hw ↦ safe_plainly_of hw fun w hw ↦ hw.eraseRequest
  refine safe_look h fun w hw ↦ ?_
  split
  · exact hw
  next r hr =>
  obtain ⟨c, hs⟩ := lookup_request_eq_some.mp hr
  have hthere := hw.keep ⟨c, r, hs, rfl⟩
  split
  · exact hw
  split
  · exact (hthere.safe_plainly fun w hw ↦ hw.stays (stays_finalizeRequest cfg fd id w)).seq
      fun w hw ↦ hrelease hw
  split
  · exact hrelease hthere
  · exact hw

private theorem Accepting.safe_cleanupRequest (h : Accepting n none w) (fd : ℤ) (id : UInt16) :
    (cleanupRequestProgram cfg fd id).Safe PoolOnly FindsLive (Before n) (Accepting n none) w := by
  refine safe_look h fun w hw ↦ ?_
  split
  · exact hw
  next r hr =>
  obtain ⟨c, hs⟩ := lookup_request_eq_some.mp hr
  have hthere := hw.keep ⟨c, r, hs, rfl⟩
  have hfinalized : (if r.flags.responded then .done else plainly (finalizeRequest cfg fd id)).Safe
      PoolOnly FindsLive (Before n) (Accepting n (some (r.released, fd, id))) w := by
    split
    · exact hthere
    · exact hthere.safe_plainly fun w hw ↦ hw.stays (stays_finalizeRequest cfg fd id w)
  exact hfinalized.seq fun w hw ↦ hw.safe_release.mono fun w hw ↦ hw.drop

/-! ## Closing connections

The requests of a connection are released one after the other while they are all still in its map.
`requests.clear()` then forgets them, and with them those that were allocated meanwhile; the guard
of that step is about the latter. -/

/-- Requests that stay where they are if only the connection at `fd` loses some. -/
theorem StoredAs.of_ne {k : ℤ} {i : UInt16} (h : StoredAs released w k i) (hk : k ≠ fd)
    (hlookup : ∀ k, k ≠ fd → w'.conns.lookup k = w.conns.lookup k) : StoredAs released w' k i := by
  obtain ⟨c, r, hs, hreleased⟩ := h
  exact ⟨c, r, ⟨(hlookup k hk).trans hs.conn, hs.request⟩, hreleased⟩

theorem Accepting.clearRequests (h : Accepting n none w)
    (hlive : FindsLive (.clearing fd) w) : Accepting n none (clearRequests fd w) := by
  have hhoused : Housed n (FcgiConn.clearRequests fd w) := by
    refine h.housed.updateConn fd fun c _ id r hr ↦ ?_
    rw [AList.lookup_empty] at hr
    cases hr
  refine ⟨hhoused, fun hp ↦ ?_, fun _ hp ↦ (nomatch hp)⟩
  have hpaused : w.acceptPaused = true := (acceptPaused_updateConn _ _).symm.trans hp
  obtain ⟨k, i, hs⟩ := h.resumable hpaused
  have hk : k ≠ fd := by
    rintro rfl
    obtain ⟨c, r, hs, hunreleased⟩ := hs
    have hreleased := hlive hpaused c hs.conn ⟨i, r⟩ (AList.mem_lookup_iff.mp hs.request)
    exact absurd (hreleased.symm.trans hunreleased) (by decide)
  refine ⟨k, i, hs.of_ne hk fun k hk ↦ ?_⟩
  rw [FcgiConn.clearRequests, World.lookup_updateConn]
  simp only [if_neg hk, Option.map_id']

theorem Accepting.eraseConnection (h : Accepting n none w)
    (hempty : ∀ c ∈ w.conns.lookup fd, c.requests = ∅) :
    Accepting n none (eraseConnection fd w) := by
  have hlookup (k : ℤ) (hk : k ≠ fd) :
      (FcgiConn.eraseConnection fd w).conns.lookup k = w.conns.lookup k := by
    rw [FcgiConn.eraseConnection]
    split
    · rfl
    · exact AList.lookup_erase_ne hk
  have hpaused : (FcgiConn.eraseConnection fd w).acceptPaused = w.acceptPaused := by
    rw [FcgiConn.eraseConnection]
    split <;> rfl
  refine ⟨h.housed.eraseConnection fd, h.resumable.imp hpaused fun k i hs ↦ ?_,
    fun _ hp ↦ (nomatch hp)⟩
  refine hs.of_ne ?_ hlookup
  rintro rfl
  obtain ⟨c, r, hs, -⟩ := hs
  have hr := hs.request
  rw [hempty c hs.conn, AList.lookup_empty] at hr
  cases hr

private theorem Accepting.safe_close (h : Accepting n none w) (fd : ℤ) :
    (closeProgram cfg fd).Safe PoolOnly FindsLive (Before n) (Accepting n none) w := by
  have hcleared : Program.Stable PoolOnly fun w ↦
      Accepting n none w ∧ ∀ c ∈ w.conns.lookup fd, c.requests = ∅ := by
    refine fun w w' hw h ↦ ⟨stable_accepting w w' hw h.1, ?_⟩
    rw [hw.conns]
    exact h.2
  have hcleanup {w : World} (hw : Accepting n none w) : (cleanupProgram cfg fd).Safe PoolOnly
      FindsLive (Before n)
      (fun w ↦ Accepting n none w ∧ ∀ c ∈ w.conns.lookup fd, c.requests = ∅) w := by
    refine safe_look hw fun w hw ↦ (Program.safe_each
      (fun id w hw ↦ hw.safe_cleanupRequest fd id) (requestIds fd w) hw).seq fun w hw ↦ ?_
    refine Program.safe_step stable_accepting hw (hw.before _) fun w hw hlive ↦
      ⟨hw.clearRequests hlive, fun c hc ↦ ?_⟩
    rw [FcgiConn.clearRequests, World.lookup_updateConn, Option.mem_def,
      Option.map_eq_some_iff] at hc
    obtain ⟨c, -, rfl⟩ := hc
    rw [if_pos rfl]
  refine safe_look h fun w hw ↦ ?_
  split
  · exact hw
  · exact (hcleanup hw).seq fun w hw ↦ Program.safe_step hcleared hw (hw.1.before _)
      fun w hw _ ↦ hw.1.eraseConnection hw.2

/-- A new connection takes nobody's place. -/
theorem Accepting.insert (h : Accepting n kept w) (hhoused : Housed n w') {c : Connection}
    (hnone : w.conns.lookup fd = none) (hconns : w'.conns = w.conns.insert fd c)
    (hpaused : w'.acceptPaused = w.acceptPaused) : Accepting n kept w' := by
  have hstays {released : Bool} {k : ℤ} {i : UInt16} (hs : StoredAs released w k i) :
      StoredAs released w' k i := by
    obtain ⟨c', r, hs, hreleased⟩ := hs
    refine ⟨c', r, ⟨?_, hs.request⟩, hreleased⟩
    rw [hconns, AList.lookup_insert_ne, hs.conn]
    rintro rfl
    exact nomatch hnone.symm.trans hs.conn
  exact ⟨hhoused, h.resumable.imp hpaused fun _ _ ↦ hstays, fun p hp ↦ hstays (h.kept p hp)⟩

private theorem Accepting.safe_drain (h : Accepting n none w) :
    (drainProgram cfg).Safe PoolOnly FindsLive (Before n) (Accepting n none) w := by
  have hindex {w : World} (hw : Accepting n none w) (cfd : ℤ) :
      Accepting n none (indexConns cfd w) := by
    have hhoused := @Housed.act cfg silent w n hw.housed (.index cfd)
    rw [act] at hhoused
    rw [indexConns] at hhoused ⊢
    split at hhoused
    · exact hw
    · next hnone => exact hw.insert hhoused hnone rfl rfl
  have hturn (cfd : ℤ) (w : World) (hw : Accepting n none w) :
      (drainTurnProgram cfg cfd).Safe PoolOnly FindsLive (Before n) (Accepting n none) w := by
    refine (hw.safe_plainly fun w hw ↦ hindex hw cfd).seq fun w hw ↦ safe_look hw fun w hw ↦ ?_
    split
    · exact hw.safe_close cfd
    · exact hw
  exact safe_look h fun w hw ↦ (hw.safe_plainly fun w hw ↦ hw.queues [] w.waitingConns).seq
    fun w hw ↦ Program.safe_each hturn _ hw

/-! ## The handlers

The handlers put the pieces together. Only `handle_new_connections` pauses `accept`, and it looks
for an arena in front of the first `accept` and behind every one. -/

private theorem Accepting.safe_serveIo (h : Accepting n none w) (fd : ℤ) (events : IoEvents)
    (data : Bytes)
    (ending : RecvEnd) : (serveIoProgram cfg fd events data ending).Safe PoolOnly FindsLive
      (Before n) (Accepting n none) w := by
  have hchange {w : World} (hw : Accepting n none w) {f : Connection → Connection}
      (hf : ∀ c, Keeps c (f c)) : Accepting n none (w.updateConn fd f) :=
    hw.stays (stays_updateConn w fd fun c _ ↦ hf c)
  have hinput {w : World} (hw : Accepting n none w) :
      (handleInputProgram cfg fd data ending).Safe PoolOnly FindsLive (Before n)
        (Accepting n none) w := by
    have hread {w : World} (hw : Accepting n none w) :
        Accepting n none (readAll fd data ending w) :=
      hchange hw fun c ↦ .of_requests rfl fun _ ↦ rfl
    refine (hw.safe_plainly fun w hw ↦ hread hw).seq fun w hw ↦ safe_look hw fun w hw ↦
      (hw.safe_process fd).seq fun w hw ↦ ?_
    refine (hw.safe_plainly fun w hw ↦ ?_).seq fun w hw ↦
      hw.safe_plainly fun w hw ↦ hw.flushConnection fd
    simp only
    split
    · exact hw.queues w.closeQueue (w.waitingConns ++ [fd])
    · exact hw
  have hin {w : World} (hw : Accepting n none w) :
      (if events.epollIn then handleInputProgram cfg fd data ending else .done).Safe PoolOnly
        FindsLive (Before n) (Accepting n none) w := by
    split
    · exact hinput hw
    · exact hw
  refine (h.safe_plainly fun w hw ↦ ?_).seq fun w hw ↦ (hin hw).seq fun w hw ↦ ?_
  · split
    · exact hchange hw fun c ↦ .of_requests rfl fun _ ↦ rfl
    · exact hw
  · split
    · exact hw.safe_plainly fun w hw ↦ hw.flushConnection fd
    · exact hw

private theorem Accepting.safe_handleIo (h : Accepting n none w) (fd : ℤ) (events : IoEvents)
    (data : Bytes)
    (ending : RecvEnd) : (handleIoProgram cfg fd events data ending).Safe PoolOnly FindsLive
      (Before n) (Accepting n none) w := by
  have hsweep {w : World} (hw : Accepting n none w) : (sweepProgram cfg fd).Safe PoolOnly FindsLive
      (Before n) (Accepting n none) w := safe_look hw fun w hw ↦
    Program.safe_each (fun id w hw ↦ hw.safe_sweepRequest fd id) _ hw
  refine safe_look h fun w hw ↦ ?_
  split
  · exact hw
  refine (hw.safe_serveIo fd events data ending).seq fun w hw ↦ (hsweep hw).seq fun w hw ↦
    (hw.safe_plainly fun w hw ↦ ?_).seq fun w hw ↦ hw.safe_drain
  rw [queueClose]
  split
  · exact hw.queues (w.closeQueue ++ [fd]) w.waitingConns
  · exact hw

private theorem Accepting.safe_housekeeping (h : Accepting n none w) :
    (housekeepingProgram cfg).Safe PoolOnly FindsLive (Before n) (Accepting n none) w := by
  refine (h.safe_plainly fun w hw ↦ ?_).seq fun w hw ↦ safe_look hw fun w hw ↦
    Program.safe_each (fun fd w hw ↦ hw.safe_close fd) _ hw
  exact List.foldlRecOn _ _ hw fun w hw fd _ ↦ hw.stays (stays_timeoutRequests cfg w fd)

/-- **`handle_new_connections` pauses `accept` if there is a request to resume it.** -/
theorem Accepting.testPause (h : Accepting n none w) (hlive : FindsLive .pauseTest w) :
    Accepting n none (testPause w) := by
  rw [FcgiConn.testPause]
  split
  · next hnone =>
    refine ⟨h.housed.of_conns rfl h.housed.pool le_rfl, fun _ ↦ ?_, fun _ hp ↦ by cases hp⟩
    exact (hlive hnone).imp fun _ _ hs ↦ hs.of_conns rfl
  · exact h

theorem Accepting.acceptConnection (h : Accepting n none w) (cfd : ℤ) :
    Accepting n none (acceptConnection cfd w) := by
  have hhoused := @Housed.act {} silent w n h.housed (.accept cfd)
  rw [act] at hhoused
  cases hc : w.conns.lookup cfd with
  | some c =>
    have hconns : (FcgiConn.acceptConnection cfd w).conns
        = w.conns.insert cfd { c with fd := cfd } := by
      rw [FcgiConn.acceptConnection, hc]
      rfl
    exact h.evolve hhoused rfl (.of_puts keeps_refl hc (puts_of_conns hconns)
      (.of_requests rfl fun _ ↦ rfl))
  | none => exact h.insert hhoused hc rfl rfl

private theorem Accepting.safe_newConnections (h : Accepting n none w) (cfds : List ℤ) :
    (newConnectionsProgram cfds).Safe PoolOnly FindsLive (Before n) (Accepting n none) w := by
  have htest {w : World} (hw : Accepting n none w) {next : World → Handler}
      (hnext : ∀ w w', Accepting n none w' → (next w).Safe PoolOnly FindsLive (Before n)
        (Accepting n none) w') : (Program.step .pauseTest FcgiConn.testPause next).Safe PoolOnly
          FindsLive (Before n) (Accepting n none) w :=
    Program.safe_step stable_accepting hw (hw.before _) fun w hw hlive ↦
      hnext w _ (hw.testPause hlive)
  have haccept : ∀ {w : World}, Accepting n none w →
      (acceptProgram cfds).Safe PoolOnly FindsLive (Before n) (Accepting n none) w := by
    induction cfds with
    | nil => exact fun hw ↦ hw
    | cons cfd cfds ih =>
      refine fun hw ↦ safe_look hw fun w hw ↦ ?_
      split
      · exact hw
      refine (hw.safe_plainly fun w hw ↦ hw.acceptConnection cfd).seq fun w hw ↦
        htest hw fun w w' hw' ↦ ?_
      split
      · exact hw'
      · exact ih hw'
  refine htest h fun w w' hw' ↦ ?_
  split
  · exact hw'
  · exact haccept hw'

/-- **Every handler leaves `accept` so that it can be resumed.** -/
theorem Accepting.safe_handler (h : Accepting n none w) (e : Event) :
    (handler cfg app e).Safe PoolOnly FindsLive (Before n) (Accepting n none) w := by
  cases e with
  | io fd events data ending => exact h.safe_handleIo fd events data ending
  | housekeeping => exact h.safe_housekeeping
  | accept cfds => exact h.safe_newConnections cfds
  | pendingOutput => exact h.safe_plainly fun w hw ↦ hw.stays (stays_processPendingOutput app w)
  | worker k => exact h.safe_plainly fun w hw ↦ hw.stays (stays_workerStep app k w)
  | outside elapsed sends =>
    exact h.safe_plainly fun w hw ↦ hw.of_conns (hw.housed.step _) rfl rfl
  | wsTake => exact h
  | wsReturn k => exact h
  | rehash fds fd ids =>
    exact h.safe_plainly fun w hw ↦ hw.stays (stays_rehash cfg app w fds fd ids)

end Accepting

/-! ## Runs -/

/-- **`accept` is never paused for good**, as long as whoever finds no arena finds a live request.
-/
theorem always_resumableOrTesting (cfg : GlobalConfig) (app : Application) (bases : List UInt64)
    (capacity : UInt64) {moves : List Move}
    (h : Meets (move cfg app) (Process.Guarded FindsLive) (idle (initial bases capacity)) moves) :
    Always (move cfg app) (ResumableOrTesting cfg) (idle (initial bases capacity)) moves := by
  have hinitial : Accepting bases.length none (initial bases capacity) :=
    ⟨housed_initial bases capacity, fun hp ↦ (nomatch hp), fun _ hp ↦ (nomatch hp)⟩
  have hsafe := Process.always_of_safe PoolOnly.refl (fun _ _ _ ↦ PoolOnly.trans)
    stable_before stable_accepting (fun e _ hw ↦ hw.safe_handler e) (poolOnly_interfere cfg app)
    hinitial h
  refine hsafe.mono fun x hx ↦ ?_
  obtain ⟨w, p⟩ := x
  cases p with
  | done => exact .inr (hx.housed.canResume hx.resumable)
  | step point f next =>
    by_cases hpoint : point = .resumeTest
    · exact .inl (congrArg some hpoint)
    · exact .inr (hx.housed.canResume (hx.resumable hpoint))

/-- A request has the only arena when a second connection arrives. -/
def arrivesDuringRequest : List Move :=
  .start (.accept [5]) :: (proceeds 10 ++
    .start (.io 5 ⟨true, false, false⟩ [1, 1, 0, 1, 0, 8, 0, 0, 0, 1, 0, 0, 0, 0, 0, 0] .again) ::
    (proceeds 40 ++ .start (.accept [6]) :: proceeds 10))

/-- It is aborted. -/
def abortsRequest : Move := .start (.io 5 ⟨true, false, false⟩ [1, 2, 0, 1, 0, 0, 0, 0] .again)

/-- Until its arena is given back a websocket task asks for one in vain. -/
theorem always_resumableOrTesting_abortsRequest :
    Always (move {} silent) (ResumableOrTesting {}) (idle (initial [0x10000] 0x10000))
      (arrivesDuringRequest ++ abortsRequest :: (proceeds 10 ++ .interfere .take :: proceeds 30)) :=
  always_resumableOrTesting {} silent [0x10000] 0x10000 (by decide +kernel)

/-- A websocket task holds the only arena when a connection arrives. -/
def arrivesDuringWebsocket : List Move :=
  [.interfere .take, .start (.accept [5]), .proceed, .interfere (.giveBack 0)]

/-- Then all arenas are free again, and nobody is left to resume `accept`. -/
theorem not_always_resumableOrTesting_arrivesDuringWebsocket :
    ¬Always (move {} silent) (ResumableOrTesting {}) (idle (initial [0x10000] 0x10000))
      arrivesDuringWebsocket := by
  intro h
  rcases h.last with htesting | hresume
  · exact absurd htesting (by decide +kernel)
  · obtain ⟨fd, id, hs, -⟩ := hresume (by decide +kernel)
    have hlive : HasLive (arrivesDuringWebsocket.foldl (move {} silent)
        (idle (initial [0x10000] 0x10000))).state := ⟨fd, id, hs⟩
    exact absurd hlive (by decide +kernel)

/-- A websocket task takes the arena that `release_request` has just given back. -/
def takesReleased : List Move :=
  arrivesDuringRequest ++ abortsRequest :: (proceeds 13 ++ .interfere .take ::
    (proceeds 20 ++ [.interfere (.giveBack 0)]))

/-- That comes to the same. -/
example :
    let x := takesReleased.foldl (move {} silent) (idle (initial [0x10000] 0x10000))
    x.state.acceptPaused = true ∧ ¬HasLive x.state := by decide +kernel

end Wasapi.FcgiConn
