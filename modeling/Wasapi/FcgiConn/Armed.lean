import Wasapi.FcgiConn.Answers
import Wasapi.FcgiConn.Reentry

/-!
# Pending output is watched for

Output that could not be sent is sent when `epoll_wait` says that the socket is writable, so
EPOLLOUT has to be registered as long as there is any. `flush_connection` registers it when it stops
at EAGAIN, and `process_pending_output` when it appends to a buffer that was sent. Two places append
without either: the timeout check of housekeeping, and a turn of `process_waiting_connections`
behind which the connection still waits.
-/

namespace Wasapi.FcgiConn

open Fastcgi

variable {cfg : GlobalConfig} {app : Application} {w w' : World}

/-! ## Connections

A connection needs nobody to watch for its output if it is closed, if there is none, or if EPOLLOUT
is registered. Between two handlers this is all there is to say; in the course of one, output may
have been appended that is flushed later. -/

/-- Pending output of an open connection is watched for. -/
def Armed (c : Connection) : Prop :=
  c.closed = false → c.outPos < c.outBuf.length → c.epollOut = true

/-- **Pending output is always armed.** -/
def AllArmed (w : World) : Prop := ∀ fd, ∀ c ∈ w.conns.lookup fd, Armed c

instance (c : Connection) : Decidable (Armed c) := by
  unfold Armed
  infer_instance

/-- The invariant of a connection between two handlers. -/
structure Watched (c : Connection) : Prop where
  le : c.outPos ≤ c.outBuf.length
  armed : Armed c

def AllWatched (w : World) : Prop := ∀ fd c, w.conns.lookup fd = some c → Watched c

/-- The same output, and the same interest in sending it. -/
structure SameOutput (c c' : Connection) : Prop where
  outBuf : c'.outBuf = c.outBuf
  outPos : c'.outPos = c.outPos
  closed : c'.closed = c.closed
  epollOut : c'.epollOut = c.epollOut

theorem SameOutput.refl (c : Connection) : SameOutput c c := ⟨rfl, rfl, rfl, rfl⟩

private theorem Watched.of_sameOutput {c c' : Connection} (h : Watched c)
    (hsame : SameOutput c c') : Watched c' := by
  obtain ⟨hout, hpos, hclosed, hepoll⟩ := hsame
  constructor
  · rw [hout, hpos]
    exact h.le
  · rw [Armed, hout, hpos, hclosed, hepoll]
    exact h.armed

private theorem watched_of_closed {c : Connection} (hle : c.outPos ≤ c.outBuf.length)
    (hclosed : c.closed = true) : Watched c :=
  ⟨hle, fun hopen ↦ absurd (hopen.symm.trans hclosed) Bool.false_ne_true⟩

private theorem AllWatched.allArmed (h : AllWatched w) :
    AllArmed w := fun fd c hc ↦ (h fd c hc).armed

theorem AllWatched.of_evolves (h : AllWatched w) (hw : Evolves SameOutput w w') :
    AllWatched w' := by
  intro fd c' hc'
  obtain ⟨c, hc, hsame⟩ := hw.lookup_left hc'
  exact (h fd c hc).of_sameOutput hsame

theorem AllWatched.of_conns (h : AllWatched w) (hconns : w'.conns = w.conns) : AllWatched w' := by
  rw [AllWatched, hconns]
  exact h

theorem AllWatched.updateConn (h : AllWatched w) (fd : ℤ) {f : Connection → Connection}
    (hf : ∀ c, w.conns.lookup fd = some c → Watched c → Watched (f c)) :
    AllWatched (w.updateConn fd f) := by
  intro k c' hc'
  rw [World.lookup_updateConn, Option.map_eq_some_iff] at hc'
  obtain ⟨c, hc, rfl⟩ := hc'
  split
  · next hk => exact hf c (hk ▸ hc) (h k c hc)
  · exact h k c hc

private theorem AllWatched.updateRequests (h : AllWatched w) (fd : ℤ)
    (f : Connection → Requests) :
    AllWatched (w.updateConn fd fun c ↦ { c with requests := f c }) :=
  h.updateConn fd fun _ _ hw ↦ hw.of_sameOutput ⟨rfl, rfl, rfl, rfl⟩

/-! ## Flushing

The loop ends where the buffer has been sent, at EAGAIN, where it registers EPOLLOUT, or at an
error, where it closes the connection. A turn that does none of these has sent at least one octet.
-/

/-- **A flush leaves nothing unwatched**: it ends with a sent buffer, with EPOLLOUT, or with a
closed connection. Each turn of the loop but the last sends something, so the fuel suffices. -/
theorem watched_flushLoop {fd : ℤ} {fuel : ℕ} {c : Connection} (hc : w.conns.lookup fd = some c)
    (hle : c.outPos ≤ c.outBuf.length) (hfuel : c.outBuf.length - c.outPos < fuel) :
    ∀ c' ∈ (flushLoop fd fuel w).conns.lookup fd, Watched c' := by
  induction fuel generalizing w c with
  | zero => exact absurd hfuel (Nat.not_lt_zero _)
  | succ fuel ih =>
    have hset {c₁ : Connection} (hw₁ : Watched c₁) :
        ∀ c' ∈ (w.setConn fd c₁).conns.lookup fd, Watched c' := by
      intro c' hc'
      rw [World.lookup_setConn, if_pos rfl] at hc'
      rwa [← Option.some.inj hc']
    have hwant (want : Bool) : (updateWriteInterest want c).outBuf = c.outBuf ∧
        (updateWriteInterest want c).outPos = c.outPos ∧
        (updateWriteInterest want c).epollOut = want := by
      rw [updateWriteInterest]
      split
      · next heq => exact ⟨rfl, rfl, heq⟩
      · exact ⟨rfl, rfl, rfl⟩
    obtain ⟨hout, hpos, -⟩ := hwant false
    rw [flushLoop_succ, hc]
    simp only
    split
    · next hremaining =>
      -- all has been sent
      have hcleared : Watched { updateWriteInterest false c with outBuf := [], outPos := 0 } :=
        ⟨le_rfl, fun _ hlt ↦ absurd hlt (lt_irrefl 0)⟩
      have hkept : Watched (updateWriteInterest false c) := by
        refine ⟨by rw [hout, hpos]; exact hle, fun _ hlt ↦ absurd hlt ?_⟩
        rw [hout, hpos]
        omega
      split
      · split
        · exact hset hcleared
        · exact hset hcleared
      · split
        · exact hset hkept
        · exact hset hkept
    next hremaining =>
    have harmed : Watched (updateWriteInterest true c) := by
      obtain ⟨hout, hpos, hepoll⟩ := hwant true
      exact ⟨by rw [hout, hpos]; exact hle, fun _ _ ↦ hepoll⟩
    split
    · exact hset harmed
    · exact hset harmed
    · exact hset (watched_of_closed hle rfl)
    · refine ih (c := { c with outPos := c.outPos + min (_ + 1) (c.outBuf.length - c.outPos) })
        ((World.lookup_setConn fd _ fd).trans (if_pos rfl)) ?_ ?_
      · simp only
        omega
      · simp only
        omega

/-- Every connection is watched but the one at `fd`, which may have output nobody watches for. -/
def WatchedBut (fd : ℤ) (w : World) : Prop :=
  ∀ k c, w.conns.lookup k = some c → c.outPos ≤ c.outBuf.length ∧ (k ≠ fd → Watched c)

theorem WatchedBut.flushConnection {fd : ℤ} (h : WatchedBut fd w) :
    AllWatched (flushConnection fd w) := by
  intro k c' hc'
  obtain ⟨c, hc, -, hsame⟩ := flushed_flushConnection hc'
  by_cases hk : k = fd
  · subst hk
    have hle := (h k c hc).1
    rw [FcgiConn.flushConnection, hc] at hc'
    exact watched_flushLoop hc hle (by omega) c' hc'
  · rw [hsame hk]
    exact (h k c hc).2 hk

private theorem AllWatched.watchedBut (h : AllWatched w) (fd : ℤ) : WatchedBut fd w :=
  fun k c hc ↦ ⟨(h k c hc).le, fun _ ↦ h k c hc⟩

theorem AllWatched.flushConnection (h : AllWatched w) (fd : ℤ) :
    AllWatched (flushConnection fd w) := (h.watchedBut fd).flushConnection

/-! ## `process_fcgi`

The decoder appends answers to requests that pass a limit or are aborted, and it does not flush.
Whether that is a problem depends on who has called it. -/

/-- Whole records have been appended. -/
def Extends (out out' : Bytes) : Prop :=
  ∃ recs : List Record, out' = out ++ recs.flatMap Record.encode

theorem Extends.refl (out : Bytes) : Extends out out := ⟨[], (List.append_nil out).symm⟩

theorem Extends.trans {o₁ o₂ o₃ : Bytes} (h : Extends o₁ o₂) (h' : Extends o₂ o₃) :
    Extends o₁ o₃ := by
  obtain ⟨recs, rfl⟩ := h
  obtain ⟨recs', rfl⟩ := h'
  exact ⟨recs ++ recs', by rw [List.flatMap_append, List.append_assoc]⟩

theorem Extends.isPrefix {out out' : Bytes} (h : Extends out out') : out <+: out' := by
  obtain ⟨recs, rfl⟩ := h
  exact List.prefix_append _ _

/-- The decoder only appends to the output. -/
theorem extends_processBuffer {σ : Type*} (limits : Limits) (cb : Callbacks σ) (inBuf : Bytes)
    (m : Machine σ) : Extends m.outBuf (processBuffer limits cb inBuf m).outBuf := by
  have htouch (id : UInt16) {rec : Record} {body : RequestCore → Bytes → RequestCore × Bytes}
      (hbody : recordBody limits rec = some body) (r : Request) (m : Machine σ) :
      Extends m.outBuf (touch cb id body r m).outBuf := by
    obtain ⟨sent, -, hout, -⟩ := sendsOwn_recordBody hbody r.toRequestCore m.outBuf
    rw [touch]
    split
    · exact ⟨sent, hout⟩
    · exact ⟨sent, hout⟩
  have hturn (m : Machine σ) (rec : Record) : Extends m.outBuf (turn limits cb m rec).outBuf := by
    rw [turn]
    rcases processRecord_cases limits cb rec m with ⟨-, hrec⟩ | ⟨body, r, hbody, -, hrec⟩ |
      ⟨body, nr, ext, hbody, -, -, hrec⟩ | ⟨body, ext, -, -, -, hrec⟩
    · rw [hrec]
      exact .refl _
    · rw [hrec]
      exact htouch _ hbody r m
    · rw [hrec]
      exact htouch _ hbody nr
        { m with requests := m.requests.insert rec.requestId nr, ext := ext }
    · rw [hrec]
      split
      · exact .refl _
      · exact .refl _
  have hrun := List.foldlRecOn (processTurns limits cb inBuf m) (turn limits cb)
    (motive := fun m' : Machine σ ↦ Extends m.outBuf m'.outBuf) (.refl _)
    fun m' hm' rec _ ↦ hm'.trans (hturn m' rec)
  rwa [← processBuffer_eq_foldl] at hrun

variable (cfg) in
theorem AllWatched.processFcgi (h : AllWatched w) (fd : ℤ) :
    WatchedBut fd (processFcgi cfg fd w) := by
  intro k c' hc'
  obtain ⟨c, n, hc, -, ⟨-, rfl⟩ | ⟨rfl, -, rfl⟩⟩ := processFcgi_cases cfg hc'
  · have hw : Watched { c with activeWorkers := n } :=
      (h k c hc).of_sameOutput ⟨rfl, rfl, rfl, rfl⟩
    exact ⟨hw.le, fun _ ↦ hw⟩
  · refine ⟨(h k c hc).le.trans ?_, fun hk ↦ absurd rfl hk⟩
    exact (extends_processBuffer cfg.toLimits (callbacks cfg ⟨k, c.cid⟩) c.inBuf
      ⟨c.requests, c.outBuf, w⟩).isPrefix.length_le

/-! ## The two places

`handle_io` flushes behind `process_fcgi`. A connection that is served as one of those that wait is
flushed only if it no longer waits, and the timeout check does not flush at all. -/

section

variable (cfg)

/-- In every turn behind which `process_waiting_connections` does not flush, nothing was appended,
or EPOLLOUT is registered. -/
def WaitingQuiet : ℕ → ℕ → World → Prop
  | 0, _, _ => True
  | n + 1, budget, w =>
    if budget = 0 then True
    else
      match w.waitingConns with
      | [] => True
      | fd :: fds =>
        let w := { w with waitingConns := fds }
        match w.conns.lookup fd with
        | none => WaitingQuiet n budget w
        | some c =>
          if c.closed then WaitingQuiet n budget w
          else
            let w' := processFcgi cfg fd w
            let waits := (w'.conns.lookup fd).any fun c ↦ c.waitingForArena
            if c.waitingForArena && !waits then
              WaitingQuiet n (budget - 1) (flushConnection fd w')
            else
              (c.epollOut = true ∨ (processed cfg fd w c).outBuf = c.outBuf) ∧
                if waits then
                  WaitingQuiet n budget { w' with waitingConns := w'.waitingConns ++ [fd] }
                else WaitingQuiet n budget w'

/-- The turns in which `release_request` serves the waiting connections. -/
def ReleaseQuiet (w : World) (fd : ℤ) (id : UInt16) : Prop :=
  let w := destroyRequest fd id w
  let w := if w.acceptPaused && 0 < w.available then resumeAccept w else w
  WaitingQuiet cfg w.waitingConns.length w.available w

/-- The timeout check finds the request overdue. -/
def Overdue (clock : ℚ) (r : Request) : Prop :=
  r.flags.responded = false ∧ 0 < cfg.maxRequestTime ∧ cfg.maxRequestTime < clock - r.startTimeSec

/-- No request of the connection is overdue, unless EPOLLOUT is registered. -/
def Punctual (clock : ℚ) (c : Connection) : Prop :=
  c.closed = false → c.epollOut = false → ∀ e ∈ c.requests.entries, ¬Overdue cfg clock e.2

/-- The timeout check of housekeeping finds every connection punctual. -/
def AtTimeouts (w : World) : Event → Prop
  | .housekeeping => ∀ fd ∈ w.conns.keys, ∀ c ∈ w.conns.lookup fd, Punctual cfg w.clock c
  | _ => True

/-- The event appends nothing that it neither flushes nor has watched for. -/
def AppendsWatched (w : World) (e : Event) : Prop :=
  AtTimeouts cfg w e ∧ AtReleases cfg (ReleaseQuiet cfg) w e

instance decidableWaitingQuiet :
    ∀ (n budget : ℕ) (w : World), Decidable (WaitingQuiet cfg n budget w)
  | 0, _, _ => .isTrue trivial
  | n + 1, budget, w => by
    have := decidableWaitingQuiet n
    unfold WaitingQuiet
    dsimp only
    repeat' split
    all_goals infer_instance

instance (w : World) (fd : ℤ) (id : UInt16) : Decidable (ReleaseQuiet cfg w fd id) := by
  unfold ReleaseQuiet
  infer_instance

instance (clock : ℚ) (c : Connection) : Decidable (Punctual cfg clock c) := by
  unfold Punctual Overdue
  infer_instance

instance (w : World) (e : Event) : Decidable (AtTimeouts cfg w e) := by
  rcases e with _ | _ <;> dsimp only [AtTimeouts] <;> infer_instance

instance (w : World) (e : Event) : Decidable (AppendsWatched cfg w e) := by
  unfold AppendsWatched
  infer_instance

end

/-- A turn behind which the connection is not flushed. -/
theorem AllWatched.processFcgi_quiet (h : AllWatched w) {fd : ℤ} {c : Connection}
    (hc : w.conns.lookup fd = some c) (hopen : c.closed = false)
    (hquiet : c.epollOut = true ∨ (processed cfg fd w c).outBuf = c.outBuf) :
    AllWatched (FcgiConn.processFcgi cfg fd w) := by
  intro k c' hc'
  obtain ⟨hle, hrest⟩ := h.processFcgi cfg fd k c' hc'
  by_cases hk : k = fd
  · subst hk
    obtain ⟨c₀, n, hc₀, -, ⟨hskip, -⟩ | ⟨-, -, rfl⟩⟩ := processFcgi_cases cfg hc'
    · obtain rfl := Option.some.inj (hc.symm.trans hc₀)
      rcases hskip with hk | hclosed
      · exact absurd rfl hk
      · exact absurd (hopen.symm.trans hclosed) Bool.false_ne_true
    · obtain rfl := Option.some.inj (hc.symm.trans hc₀)
      refine ⟨hle, fun _ hlt ↦ ?_⟩
      rcases hquiet with hepoll | hsame
      · exact hepoll
      · simp only [hsame] at hlt
        exact (h k c hc).armed hopen hlt
  · exact hrest hk

/-- **Serving the waiting connections**, one turn after the other. -/
theorem AllWatched.waitingLoop {n budget : ℕ} (h : AllWatched w)
    (hquiet : WaitingQuiet cfg n budget w) : AllWatched (waitingLoop cfg n budget w) := by
  induction n generalizing budget w with
  | zero => exact h
  | succ n ih =>
    rw [WaitingQuiet] at hquiet
    rw [FcgiConn.waitingLoop]
    by_cases hbudget : budget = 0
    · rw [if_pos hbudget]
      exact h
    rw [if_neg hbudget] at hquiet ⊢
    cases hwaiting : w.waitingConns with
    | nil => exact h
    | cons fd fds =>
      have hpop : AllWatched { w with waitingConns := fds } := h.of_conns rfl
      rw [hwaiting] at hquiet
      cases hc : w.conns.lookup fd with
      | none =>
        simp only [hc] at hquiet ⊢
        exact ih hpop hquiet
      | some c =>
        simp only [hc] at hquiet ⊢
        by_cases hclosed : c.closed = true
        · rw [if_pos hclosed] at hquiet ⊢
          exact ih hpop hquiet
        rw [if_neg hclosed] at hquiet ⊢
        have hturn := hpop.processFcgi cfg fd
        set w' := FcgiConn.processFcgi cfg fd { w with waitingConns := fds } with hw'
        by_cases hserved : (c.waitingForArena &&
            !(w'.conns.lookup fd).any fun c ↦ c.waitingForArena) = true
        · rw [if_pos hserved] at hquiet ⊢
          exact ih hturn.flushConnection hquiet
        · -- nobody flushes behind this turn
          rw [if_neg hserved] at hquiet ⊢
          obtain ⟨hsilent, hquiet⟩ := hquiet
          have hwatched : AllWatched w' :=
            hpop.processFcgi_quiet hc (Bool.eq_false_iff.mpr hclosed) hsilent
          by_cases hwaits : ((w'.conns.lookup fd).any fun c ↦ c.waitingForArena) = true
          · rw [if_pos hwaits] at hquiet ⊢
            exact ih (hwatched.of_conns rfl) hquiet
          · rw [if_neg hwaits] at hquiet ⊢
            exact ih hwatched hquiet

/-! ## Releases

A release appends nothing to the connection of its request, but it serves others. So it is as safe
as the turns of `process_waiting_connections` in it. -/

theorem AllWatched.finalizeRequest (h : AllWatched w) (fd : ℤ) (id : UInt16) :
    AllWatched (finalizeRequest cfg fd id w) := by
  rw [FcgiConn.finalizeRequest]
  split
  · exact h
  · exact (h.updateRequests fd _).of_conns rfl

theorem AllWatched.releaseRequest (h : AllWatched w) {fd : ℤ} {id : UInt16}
    (hquiet : ReleaseQuiet cfg w fd id) : AllWatched (releaseRequest cfg fd id w) := by
  have hdestroyed : AllWatched (destroyRequest fd id w) := by
    rw [destroyRequest]
    split
    · exact h
    simp only
    split
    · exact h.updateRequests fd _
    · exact (h.updateRequests fd _).of_conns rfl
  rw [FcgiConn.releaseRequest]
  refine AllWatched.waitingLoop ?_ hquiet
  split
  · exact hdestroyed.of_conns rfl
  · exact hdestroyed

theorem AllWatched.sweepRequest (h : AllWatched w) {fd : ℤ} {id : UInt16}
    (hquiet : ∀ v ∈ sweepReleases cfg fd w id, ReleaseQuiet cfg v fd id) :
    AllWatched (sweepRequest cfg fd w id) := by
  rw [sweepReleases] at hquiet
  rw [FcgiConn.sweepRequest]
  split
  · exact h
  next r hr =>
  simp only [hr] at hquiet
  split
  · exact h
  next hinactive =>
  rw [if_neg hinactive] at hquiet
  split
  · next hresponded =>
    rw [if_pos hresponded] at hquiet
    exact ((h.finalizeRequest fd id).releaseRequest (hquiet _ rfl)).updateRequests fd _
  next hunanswered =>
  rw [if_neg hunanswered] at hquiet
  split
  · next hended =>
    rw [if_pos hended] at hquiet
    exact (h.releaseRequest (hquiet _ rfl)).updateRequests fd _
  · exact h

theorem AllWatched.cleanupRequest (h : AllWatched w) {fd : ℤ} {id : UInt16}
    (hquiet : ∀ v ∈ cleanupReleases cfg fd w id, ReleaseQuiet cfg v fd id) :
    AllWatched (cleanupRequest cfg fd w id) := by
  rw [cleanupReleases] at hquiet
  rw [FcgiConn.cleanupRequest]
  split
  · exact h
  next r hr =>
  simp only [hr] at hquiet
  refine AllWatched.releaseRequest ?_ (hquiet _ rfl)
  split
  · exact h
  · exact h.finalizeRequest fd id

theorem AllWatched.closeConnection (h : AllWatched w) {fd : ℤ}
    (hquiet : AtCleanup cfg (ReleaseQuiet cfg) w fd) : AllWatched (closeConnection cfg w fd) := by
  rw [FcgiConn.closeConnection]
  split
  · exact h
  have hclean : AllWatched (cleanupConnectionRequests cfg fd w) := by
    rw [cleanupConnectionRequests]
    refine AllWatched.updateRequests ?_ fd fun _ ↦ ∅
    exact hquiet.foldl (fun _ _ hw hguard ↦ hw.cleanupRequest hguard) h
  rw [eraseConnection]
  split
  · exact hclean
  · intro k c hc
    by_cases hk : k = fd
    · rw [hk, AList.lookup_erase] at hc
      cases hc
    · rw [AList.lookup_erase_ne hk] at hc
      exact hclean k c hc

/-- A connection that has just been made. -/
theorem AllWatched.insert (h : AllWatched w) {fd : ℤ} {c : Connection}
    (hconns : w'.conns = w.conns.insert fd c) (hc : Watched c) : AllWatched w' := by
  intro k c' hc'
  rw [hconns] at hc'
  by_cases hk : k = fd
  · rw [hk, AList.lookup_insert] at hc'
    rwa [← Option.some.inj hc']
  · rw [AList.lookup_insert_ne hk] at hc'
    exact h k c' hc'

private theorem watched_new (cid : ℕ) (accepted : Bool) (fd : ℤ) :
    Watched { cid := cid, accepted := accepted, fd := fd } :=
  ⟨le_rfl, fun _ hlt ↦ absurd hlt (lt_irrefl 0)⟩

theorem AllWatched.indexConns (h : AllWatched w) (fd : ℤ) : AllWatched (indexConns fd w) := by
  rw [FcgiConn.indexConns]
  split
  · exact h
  · exact h.insert rfl (watched_new _ _ _)

theorem AllWatched.drainTurn (h : AllWatched w) {cfd : ℤ}
    (hquiet : ((FcgiConn.indexConns cfd w).conns.lookup cfd).any shouldCloseConnection = true →
      AtCleanup cfg (ReleaseQuiet cfg) (FcgiConn.indexConns cfd w) cfd) :
    AllWatched (drainTurn cfg w cfd) := by
  rw [FcgiConn.drainTurn]
  split
  · next hclose => exact (h.indexConns cfd).closeConnection (hquiet hclose)
  · exact h.indexConns cfd

/-! ## Input and output

Here what is appended is followed by a flush, or appended to a buffer for which EPOLLOUT is
registered in the same breath. -/

theorem WatchedBut.of_conns {fd : ℤ} (h : WatchedBut fd w) (hconns : w'.conns = w.conns) :
    WatchedBut fd w' := by
  rw [WatchedBut, hconns]
  exact h

/-- `handle_io` flushes behind everything it appends. -/
theorem AllWatched.serveIo (h : AllWatched w) (fd : ℤ) (events : IoEvents) (data : Bytes)
    (ending : RecvEnd) : AllWatched (serveIo cfg fd events data ending w) := by
  have hhup : AllWatched (if events.hupOrErr then
      w.updateConn fd fun c ↦ { c with closed := true } else w) := by
    split
    · exact h.updateConn fd fun c _ hw ↦ watched_of_closed hw.le rfl
    · exact h
  have hread {w : World} (hw : AllWatched w) : AllWatched (readAll fd data ending w) := by
    refine hw.updateConn fd fun c _ hc ↦ ⟨hc.le, fun hopen hlt ↦ ?_⟩
    rw [Bool.or_eq_false_iff] at hopen
    exact hc.armed hopen.1 hlt
  have hinput {w : World} (hw : AllWatched w) : AllWatched (handleInput cfg fd data ending w) := by
    rw [handleInput]
    refine WatchedBut.flushConnection ?_
    have hserved := (hread hw).processFcgi cfg fd
    -- to wait for an arena is not output
    split
    · exact hserved.of_conns rfl
    · exact hserved
  rw [FcgiConn.serveIo]
  have hin : AllWatched (if events.epollIn then
      handleInput cfg fd data ending (if events.hupOrErr then
        w.updateConn fd fun c ↦ { c with closed := true } else w)
      else if events.hupOrErr then
        w.updateConn fd fun c ↦ { c with closed := true } else w) := by
    split
    · exact hinput hhup
    · exact hhup
  split
  · exact hin.flushConnection fd
  · exact hin

theorem AllWatched.updateRef (h : AllWatched w) (p : ConnRef) {f : Connection → Connection}
    (hf : ∀ c, w.connection p = some c → Watched c → Watched (f c)) :
    AllWatched (w.updateRef p f) := by
  intro k c' hc'
  rw [World.lookup_updateRef, Option.map_eq_some_iff] at hc'
  obtain ⟨c, hc, rfl⟩ := hc'
  split
  · next hk =>
    obtain ⟨rfl, hcid⟩ := hk
    exact hf c (World.connection_eq_some_iff.mpr ⟨hc, hcid⟩) (h _ c hc)
  · exact h k c hc

theorem AllWatched.updateRequest (h : AllWatched w) (p : RequestPtr) (f : Request → Request) :
    AllWatched (w.updateRequest p f) := by
  rw [World.updateRequest]
  split
  · exact h
  · exact h.updateRef p.conn fun c _ hw ↦ hw.of_sameOutput ⟨rfl, rfl, rfl, rfl⟩

theorem Watched.updateWriteInterest {c : Connection} (hle : c.outPos ≤ c.outBuf.length) :
    Watched (updateWriteInterest true c) := by
  rw [FcgiConn.updateWriteInterest]
  split
  · next hepoll => exact ⟨hle, fun _ _ ↦ hepoll⟩
  · exact ⟨hle, fun _ _ ↦ rfl⟩

/-- `process_pending_output` registers EPOLLOUT when it appends to a buffer that has been sent; one
that has not been is watched already. -/
theorem Watched.appendAnswer {c : Connection} (hw : Watched c) (answer : Bytes) :
    Watched (appendAnswer answer c) := by
  have hle : c.outPos ≤ (c.outBuf ++ answer).length := by
    rw [List.length_append]
    exact hw.le.trans (Nat.le_add_right _ _)
  rw [FcgiConn.appendAnswer]
  split
  · exact .updateWriteInterest hle
  next hkept =>
  rw [Bool.and_eq_true, decide_eq_true_eq, decide_eq_true_eq, not_and] at hkept
  refine ⟨hle, fun hopen hlt ↦ ?_⟩
  by_cases hpending : c.outPos = c.outBuf.length
  · -- nothing has been appended either
    have hsilent := not_ne_iff.mp fun hne ↦ hkept hne hpending
    simp only [hsilent, List.append_nil] at hlt
    exact hw.armed hopen hlt
  · exact hw.armed hopen (hw.le.lt_of_ne hpending)

theorem AllWatched.answerPending (h : AllWatched w) (p : RequestPtr) :
    AllWatched (answerPending app w p) := by
  rcases answerPending_cases app w p with heq | ⟨r, c, offset, -, -, -, -, heq⟩
  · rwa [heq]
  · rw [heq]
    exact (h.updateRequest p _).updateRef p.conn fun c _ hw ↦ hw.appendAnswer _

theorem AllWatched.processPendingOutput (h : AllWatched w) :
    AllWatched (processPendingOutput app w) :=
  List.foldlRecOn _ _ (h.of_conns rfl) fun _ hw p _ ↦ hw.answerPending p

/-! ## The other handlers

Housekeeping appends in its timeout check, and whatever it closes serves others. In a run without
overdue requests the first does nothing. -/

/-- What the timeout check keeps as long as it finds nothing overdue. -/
def InTime (cfg : GlobalConfig) (clock : ℚ) (w : World) : Prop :=
  AllWatched w ∧ w.clock = clock ∧ ∀ fd c, w.conns.lookup fd = some c → Punctual cfg clock c

theorem InTime.timeoutRequest {clock : ℚ} (h : InTime cfg clock w) (fd : ℤ) (id : UInt16) :
    InTime cfg clock (timeoutRequest cfg fd w id) := by
  obtain ⟨hw, rfl, hpunctual⟩ := h
  rw [FcgiConn.timeoutRequest]
  have hkept {f : Connection → Connection} (hf : ∀ c, Watched c → Punctual cfg w.clock c →
      Watched (f c) ∧ Punctual cfg w.clock (f c)) : InTime cfg w.clock (w.updateConn fd f) := by
    refine ⟨hw.updateConn fd fun c hc hwc ↦ (hf c hwc (hpunctual fd c hc)).1, ?_, ?_⟩
    · rw [World.updateConn_eq]
    · intro k c' hc'
      rw [World.lookup_updateConn, Option.map_eq_some_iff] at hc'
      obtain ⟨c, hc, rfl⟩ := hc'
      split
      · exact (hf c (hw k c hc) (hpunctual k c hc)).2
      · exact hpunctual k c hc
  refine hkept fun c hwc hpc ↦ ?_
  split
  · exact ⟨hwc, hpc⟩
  next r hr =>
  split
  swap
  · exact ⟨hwc, hpc⟩
  next hlate =>
  have hle : c.outPos ≤ (appendEndRequest c.outBuf r.id 0 .overloaded).length := by
    rw [appendEndRequest_eq, List.length_append]
    exact hwc.le.trans (Nat.le_add_right _ _)
  -- an open connection without EPOLLOUT has no such request
  have hbusy : c.closed = true ∨ c.epollOut = true := by
    by_contra hidle
    rw [not_or, Bool.not_eq_true, Bool.not_eq_true] at hidle
    refine hpc hidle.1 hidle.2 ⟨id, r⟩ (AList.mem_lookup_iff.mp hr) ?_
    simpa [Overdue, and_assoc] using hlate
  rcases hbusy with hclosed | hepoll
  · exact ⟨watched_of_closed hle hclosed, fun hopen ↦ (nomatch hopen.symm.trans hclosed)⟩
  · exact ⟨⟨hle, fun _ _ ↦ hepoll⟩, fun _ hidle ↦ (nomatch hidle.symm.trans hepoll)⟩

/-- **Housekeeping** answers no request in time, and what it releases appends nothing unwatched. -/
theorem AllWatched.housekeepingCloseIdle (h : AllWatched w)
    (hguard : AppendsWatched cfg w .housekeeping) : AllWatched (housekeepingCloseIdle cfg w) := by
  obtain ⟨hpunctual, -, hcloses⟩ := hguard
  have hin : InTime cfg w.clock w := by
    refine ⟨h, rfl, fun fd c hc ↦ hpunctual fd ?_ c hc⟩
    rw [← AList.mem_keys, ← AList.lookup_isSome, hc, Option.isSome_some]
  have hchecked : InTime cfg w.clock (w.conns.keys.foldl (timeoutRequests cfg) w) :=
    List.foldlRecOn _ _ hin fun _ hw fd _ ↦
      List.foldlRecOn _ _ hw fun _ hw id _ ↦ hw.timeoutRequest fd id
  exact hcloses.foldl (fun _ _ hw hquiet ↦ hw.closeConnection hquiet) hchecked.1

theorem AllWatched.handleNewConnections (h : AllWatched w) (cfds : List ℤ) :
    AllWatched (handleNewConnections cfds w) := by
  have haccept {w : World} (hw : AllWatched w) (cfd : ℤ) : AllWatched (acceptConnection cfd w) := by
    rw [acceptConnection]
    cases hc : w.conns.lookup cfd with
    | some c => exact hw.insert rfl ((hw cfd c hc).of_sameOutput ⟨rfl, rfl, rfl, rfl⟩)
    | none => exact hw.insert rfl (watched_new _ _ _)
  exact handleNewConnections_invariant (I := AllWatched) (fun _ hw ↦ hw.of_conns rfl)
    (fun _ cfd _ hw ↦ haccept hw cfd) h cfds

theorem AllWatched.workerStep (h : AllWatched w) (k : ℕ) : AllWatched (workerStep app k w) := by
  have htasks (tasks : List Task) (p : RequestPtr) (f : Request → Request) :
      AllWatched ({ w with tasks := tasks }.updateRequest p f) := by
    have hset : AllWatched { w with tasks := tasks } := h.of_conns rfl
    exact hset.updateRequest p f
  have hleft (p : ConnRef) : AllWatched
      (w.updateRef p fun c ↦ { c with activeWorkers := c.activeWorkers - 1 }) :=
    h.updateRef p fun c _ hw ↦ hw.of_sameOutput ⟨rfl, rfl, rfl, rfl⟩
  rcases workerStep_cases app k w with
    heq | ⟨t, -, ⟨ph, -, heq⟩ | ⟨-, heq⟩ | ⟨-, heq⟩ | ⟨-, heq⟩⟩
  · rwa [heq]
  · rw [heq]
    exact h.of_conns rfl
  · rw [heq]
    exact (htasks _ _ _).of_conns rfl
  · rw [heq]
    exact htasks _ _ _
  · rw [heq]
    exact (hleft _).of_conns rfl

/-! ## Runs -/

theorem AllWatched.handleIo (h : AllWatched w) {fd : ℤ} {events : IoEvents} {data : Bytes}
    {ending : RecvEnd} (hguard : AppendsWatched cfg w (.io fd events data ending)) :
    AllWatched (handleIo cfg fd events data ending w) := by
  obtain ⟨-, hsweeps, hcloses⟩ := hguard
  rw [FcgiConn.handleIo]
  split
  · exact h
  next c hc =>
  have hthere : (w.conns.lookup fd).isSome = true := by rw [hc, Option.isSome_some]
  have hswept : AllWatched (sweep cfg fd (FcgiConn.serveIo cfg fd events data ending w)) :=
    (hsweeps hthere).foldl (fun _ _ hw hquiet ↦ hw.sweepRequest hquiet)
      (h.serveIo fd events data ending)
  have hqueued : AllWatched
      (queueClose fd (sweep cfg fd (FcgiConn.serveIo cfg fd events data ending w))) := by
    rw [queueClose]
    split
    · exact hswept.of_conns rfl
    · exact hswept
  rw [drainCloseQueue]
  exact (hcloses hthere).foldl (fun _ _ hw hquiet ↦ hw.drainTurn hquiet) (hqueued.of_conns rfl)

/-- One event of the loop, a worker or the outside. -/
theorem AllWatched.step (h : AllWatched w) {e : Event} (hguard : AppendsWatched cfg w e) :
    AllWatched (step cfg app w e) := by
  cases e with
  | io fd events data ending => exact h.handleIo hguard
  | housekeeping => exact h.housekeepingCloseIdle hguard
  | pendingOutput => exact h.processPendingOutput
  | accept cfds => exact h.handleNewConnections cfds
  | worker k => exact h.workerStep k
  | outside elapsed sends => exact h.of_conns rfl
  | wsTake =>
    rw [FcgiConn.step]
    split
    · exact h
    · exact h.of_conns rfl
  | wsReturn k =>
    rw [FcgiConn.step]
    split
    · exact h
    · exact h.of_conns rfl
  | rehash fds fd ids =>
    refine AllWatched.updateRequests ?_ fd fun c ↦ reorder c.requests ids
    intro k c hc
    exact h k c ((lookup_reorder w.conns fds k).symm.trans hc)

private theorem allWatched_initial (bases : List UInt64) (capacity : UInt64) :
    AllWatched (initial bases capacity) := fun _ _ hc ↦ nomatch hc

/-- **Pending output is watched for along a run** whose timeout checks and unflushed turns append
nothing to a connection without EPOLLOUT. -/
theorem always_allArmed (cfg : GlobalConfig) (app : Application) (bases : List UInt64)
    (capacity : UInt64) (events : List Event)
    (h : Meets (step cfg app) (AppendsWatched cfg) (initial bases capacity) events) :
    Always (step cfg app) AllArmed (initial bases capacity) events :=
  (h.always (fun _ _ hw hguard ↦ hw.step hguard) (allWatched_initial bases capacity)).mono
    fun _ hw ↦ hw.allArmed

theorem always_allArmed_answeredInTime :
    Always (step {} silent) AllArmed (initial [0x10000] 0x10000) answeredInTime :=
  always_allArmed {} silent [0x10000] 0x10000 answeredInTime (by decide +kernel)

/-- A request that never ends, and a minute in which nothing happens. -/
def timesOut : List Event :=
  [.accept [5], .io 5 ⟨true, false, false⟩ (emptyRequest.take 16) .again, .outside 61000 [],
    .housekeeping]

/-- Nobody is told that the END_REQUEST of the timeout waits to be sent. -/
theorem not_always_allArmed_timesOut :
    ¬Always (step {} silent) AllArmed (initial [0x10000] 0x10000) timesOut := by
  intro h
  have hunwatched : ((timesOut.foldl (step {} silent)
      (initial [0x10000] 0x10000)).conns.lookup 5).any (fun c ↦ ¬Armed c) = true := by
    decide +kernel
  rw [Option.any_eq_true] at hunwatched
  obtain ⟨c, hc, hunarmed⟩ := hunwatched
  exact of_decide_eq_true hunarmed (h.last 5 c hc)

end Wasapi.FcgiConn
