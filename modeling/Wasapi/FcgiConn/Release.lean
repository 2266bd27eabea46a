import Wasapi.FcgiConn.Ownership
import Wasapi.Library.Transitions
import Wasapi.FcgiConn.EventCases

/-!
# Releasing requests and closing connections

The three paths that release requests (the sweep of `handle_io`, and closing a connection from the
close queue or from housekeeping) look at the flags and the counters of a request and its
connection, and not at who still points there. `SweepSafe` and `CloseSafe` are what they would have
to look at; with them every release keeps the invariant.
-/

namespace Wasapi.FcgiConn

open Fastcgi

variable {phase : Phase} {w w' : World}

/-! ## One request

A release has two halves: the arena goes back, and later the entry leaves the map. In between the
request is marked as released, so that nobody takes it for the owner of its arena. -/

theorem lookup_request_eq_some {fd : ℤ} {id : UInt16} {r : Request} :
    ((w.conns.lookup fd).bind fun c ↦ c.requests.lookup id) = some r ↔
      ∃ c, Stored w fd c id r := by
  rw [Option.bind_eq_some_iff]
  exact ⟨fun ⟨c, hc, hr⟩ ↦ ⟨c, hc, hr⟩, fun ⟨c, hs⟩ ↦ ⟨c, hs.conn, hs.request⟩⟩

theorem serves_finalizeRequest (cfg : GlobalConfig) (limits : Limits) (fd : ℤ) (id : UInt16)
    (w : World) : Serves limits w (finalizeRequest cfg fd id w) := by
  rw [finalizeRequest]
  split
  · exact .refl _ _
  next r hr =>
  obtain ⟨c, hs⟩ := lookup_request_eq_some.mp hr
  simp only
  rw [World.updateConn_of_some hs.conn]
  apply ServeStep.serves
  refine .amend fd c id r _ hs.conn hs.request ?_ (puts_of_conns rfl) ?_
  · exact ⟨rfl, rfl, rfl, rfl, rfl, rfl⟩
  · exact ⟨rfl, rfl, fun _ ↦ rfl, rfl, rfl, (uploadPaths cfg r).reverse, rfl⟩

theorem finalizeRequest_spec (cfg : GlobalConfig) {fd : ℤ} {c : Connection} {id : UInt16}
    {r : Request} (hs : Stored w fd c id r) :
    (∃ c' r', Stored (finalizeRequest cfg fd id w) fd c' id r' ∧ SameRequest r r') ∧
      (finalizeRequest cfg fd id w).captured = w.captured := by
  rw [finalizeRequest, lookup_request_eq_some.mpr ⟨c, hs⟩]
  simp only
  rw [World.updateConn_of_some hs.conn]
  refine ⟨⟨_, _, ⟨(World.lookup_setConn fd _ fd).trans (if_pos rfl), AList.lookup_insert _⟩, ?_⟩,
    rfl⟩
  exact ⟨rfl, rfl, rfl, rfl, rfl, rfl⟩

/-- **What `release_request` does to the pool and to the request.** -/
theorem destroyRequest_spec {fd : ℤ} {c : Connection} {id : UInt16} {r : Request} {i : ℕ}
    (hs : Stored w fd c id r) (harena : r.arena = some i) :
    Puts w (destroyRequest fd id w) fd
        { c with requests := c.requests.insert id { r with released := true } } ∧
      (∀ j, (destroyRequest fd id w).arenas.holder j = if j = i then none else w.arenas.holder j) ∧
      (destroyRequest fd id w).captured = w.captured ∧
      (destroyRequest fd id w).tasks = w.tasks ∧
      (destroyRequest fd id w).wsArenas = w.wsArenas ∧
      (destroyRequest fd id w).nextHandle = w.nextHandle := by
  rw [destroyRequest, lookup_request_eq_some.mpr ⟨c, hs⟩]
  simp only [harena]
  rw [World.updateConn_of_some hs.conn]
  exact ⟨puts_of_conns rfl, ArenaManager.holder_release _ i, rfl, rfl, rfl, rfl⟩

/-- **Releasing a request.** Its arena goes back to the pool, and the request stays in the map. -/
theorem Owned.destroyRequest (h : Owned phase w) {phase' : Phase} {fd : ℤ} {c : Connection}
    {id : UInt16} {r : Request} (hs : Stored w fd c id r) (hlive : r.released = false)
    (hphase : ∀ k i, phase'.Released k i ↔ phase.Released k i ∨ (k = fd ∧ i = id))
    (hclosing : ∀ k, phase.Closing k → phase'.Closing k)
    (hanswered : phase'.Closing fd ∨ r.flags.responded = true) :
    Owned phase' (destroyRequest fd id w) := by
  obtain ⟨i, harena, hholds⟩ := h.arena hs hlive
  obtain ⟨hput, hholder, -, -, hws, hnext⟩ := destroyRequest_spec hs harena
  have hkeyed := h.keyed hs
  have hconnPtr := h.connPtr hs
  have hlt := h.handle_lt hs
  have hsettled := h.settled hs
  have hfresh : ∀ {j n}, (j, n) ∈ w.wsArenas → r.handle ≠ n := fun hj ↦ h.ws_fresh hj hs
  have hplaced : Placed phase' (FcgiConn.destroyRequest fd id w) fd c.cid id
      { r with released := true } := by
    constructor
    case keyed => exact hkeyed
    case connPtr => exact hconnPtr
    case handle_lt =>
      rw [hnext]
      exact hlt
    case settled => exact hsettled
    case arena => exact fun hf ↦ (nomatch hf)
    case released_iff => exact iff_of_true rfl ((hphase fd id).mpr (.inr ⟨rfl, rfl⟩))
    case released_responded => exact fun _ ↦ hanswered
  refine h.insert hs.conn hput hplaced (fun hs₁ heq ↦ h.handle_inj hs₁ hs heq) (fun hne ↦ ?_)
    (hclosing _) ?_ hfresh hws hnext.ge
  · rw [hphase, or_iff_left hne]
  · -- whoever else holds an arena holds another one
    intro j n hj hn
    rw [hholder, if_neg, hj]
    rintro rfl
    exact hn (Option.some.inj (hj.symm.trans hholds))

theorem Sound.destroyRequest (h : Sound phase w) {phase' : Phase} {fd : ℤ} {c : Connection}
    {id : UInt16} {r : Request} (hs : Stored w fd c id r) (hlive : r.released = false)
    (hphase : ∀ k i, phase'.Released k i ↔ phase.Released k i ∨ (k = fd ∧ i = id))
    (hclosing : ∀ k, phase.Closing k → phase'.Closing k)
    (hanswered : phase'.Closing fd ∨ r.flags.responded = true)
    (hfree : phase'.Closing fd ∨ ∀ p ∈ w.captured, ¬(p.conn.fd = fd ∧ p.id = id)) :
    Sound phase' (destroyRequest fd id w) := by
  obtain ⟨i, harena, hholds⟩ := h.arena hs hlive
  obtain ⟨hput, -, hcaptured, htasks, -, -⟩ := destroyRequest_spec hs harena
  refine ⟨h.toOwned.destroyRequest hs hlive hphase hclosing hanswered, ?_, ?_⟩
  · intro k c' hc'
    rw [World.tasksOf, htasks]
    rw [hput k] at hc'
    by_cases hk : k = fd
    · rw [if_pos hk, Option.some.injEq] at hc'
      subst hk hc'
      have hworkers := h.workers hs.conn
      exact hworkers
    · rw [if_neg hk] at hc'
      exact h.workers hc'
  · intro p hp
    rw [hcaptured] at hp
    refine ⟨?_, ?_⟩
    · obtain ⟨c₁, hc₁, hcid⟩ := (h.captured hp).connected
      by_cases hfd : p.conn.fd = fd
      · rw [hfd] at hc₁
        obtain rfl := Option.some.inj (hs.conn.symm.trans hc₁)
        exact ⟨_, (hput _).trans (if_pos hfd), hcid⟩
      · exact ⟨c₁, (hput _).trans ((if_neg hfd).trans hc₁), hcid⟩
    · by_cases heq : p.conn.fd = fd ∧ p.id = id
      · refine .inl (heq.1 ▸ hfree.resolve_right fun hfree ↦ ?_)
        exact hfree p hp heq
      · refine (h.captured hp).live.imp (hclosing _) ?_
        rintro ⟨c₁, r₁, hs₁, hvalid⟩
        obtain ⟨c', hs', -⟩ := stored_of_insert hs.conn hput rfl rfl hs₁ heq
        exact ⟨c', r₁, hs', hvalid⟩

/-- Taking a request out of its map. -/
theorem lookup_eraseRequest (fd : ℤ) (id : UInt16) (w : World) (k : ℤ) :
    (eraseRequest fd id w).conns.lookup k = (w.conns.lookup k).map fun c ↦
      if k = fd then { c with requests := c.requests.erase id } else c :=
  World.lookup_updateConn fd _ k

/-- The other requests stay where they are. -/
theorem stored_of_eraseRequest {fd : ℤ} {id : UInt16} {k : ℤ} {c : Connection} {i : UInt16}
    {r : Request} (hs : Stored w k c i r) (hne : ¬(k = fd ∧ i = id)) :
    ∃ c', Stored (eraseRequest fd id w) k c' i r := by
  refine ⟨_, by rw [lookup_eraseRequest, hs.conn, Option.map_some], ?_⟩
  split
  · next hk => rw [AList.lookup_erase_ne fun hi ↦ hne ⟨hk, hi⟩, hs.request]
  · exact hs.request

/-- No other entry leaves the map. -/
theorem stored_of_stored_eraseRequest {fd k : ℤ} {id i : UInt16} {c' : Connection} {r : Request}
    (hs : Stored (eraseRequest fd id w) k c' i r) :
    ∃ c, Stored w k c i r ∧ c'.cid = c.cid ∧ ¬(k = fd ∧ i = id) := by
  obtain ⟨hc', hr⟩ := hs
  rw [lookup_eraseRequest, Option.map_eq_some_iff] at hc'
  obtain ⟨c, hc, rfl⟩ := hc'
  by_cases hk : k = fd
  · rw [if_pos hk] at hr ⊢
    have hi : i ≠ id := by
      rintro rfl
      rw [AList.lookup_erase] at hr
      cases hr
    rw [AList.lookup_erase_ne hi] at hr
    exact ⟨c, ⟨hc, hr⟩, rfl, fun heq ↦ hi heq.2⟩
  · rw [if_neg hk] at hr ⊢
    exact ⟨c, ⟨hc, hr⟩, rfl, fun heq ↦ hk heq.1⟩

/-- A request leaves the map. -/
theorem Owned.eraseRequest {fd : ℤ} {id : UInt16} (h : Owned (.sweeping fd id) w) :
    Owned .steady (eraseRequest fd id w) := by
  refine h.transfer (fun hs ↦ ?_) False.elim (fun i ↦ ?_) ?_ ?_
  · obtain ⟨c, hs, hcid, hne⟩ := stored_of_stored_eraseRequest hs
    exact ⟨c, _, hs, hcid, .refl _, iff_of_false not_false hne, False.elim⟩
  · rw [FcgiConn.eraseRequest, World.arenas_updateConn]
  · rw [FcgiConn.eraseRequest, World.wsArenas_updateConn]
  · rw [FcgiConn.eraseRequest, World.nextHandle_updateConn]

theorem Sound.eraseRequest {fd : ℤ} {id : UInt16} (h : Sound (.sweeping fd id) w) :
    Sound .steady (eraseRequest fd id w) := by
  have hcaptured : (FcgiConn.eraseRequest fd id w).captured = w.captured := by
    rw [World.captured, World.captured, FcgiConn.eraseRequest, World.pendingOutput_updateConn,
      World.tasks_updateConn]
  refine ⟨h.toOwned.eraseRequest, ?_, ?_⟩
  · intro k c' hc'
    rw [lookup_eraseRequest, Option.map_eq_some_iff] at hc'
    obtain ⟨c, hc, rfl⟩ := hc'
    have hworkers := h.workers hc
    rw [World.tasksOf] at hworkers ⊢
    rw [FcgiConn.eraseRequest, World.tasks_updateConn]
    split <;> exact hworkers
  · intro p hp
    rw [hcaptured] at hp
    obtain ⟨⟨c, hc, hcid⟩, hlive⟩ := h.captured hp
    refine ⟨⟨_, by rw [lookup_eraseRequest, hc, Option.map_some], ?_⟩, .inr ?_⟩
    · split <;> exact hcid
    · obtain ⟨c, r, hs, hhandle, hreleased⟩ := hlive.resolve_left fun hf ↦ hf
      have hne : ¬(p.conn.fd = fd ∧ p.id = id) := by
        intro heq
        rw [(h.released_iff hs).mpr heq] at hreleased
        cases hreleased
      obtain ⟨c', hs'⟩ := stored_of_eraseRequest hs hne
      exact ⟨c', r, hs', hhandle, hreleased⟩

/-! ## Whole connections

A connection may disappear when it has no requests and nobody points into it. One that appears has
neither. -/

/-- **A connection disappears.** -/
theorem Owned.close {fd : ℤ} {done : List UInt16} (h : Owned (.closing fd done) w)
    (hlookup : ∀ k, w'.conns.lookup k = if k = fd then none else w.conns.lookup k)
    (hholder : ∀ i, w'.arenas.holder i = w.arenas.holder i) (hws : w'.wsArenas = w.wsArenas)
    (hnext : w'.nextHandle = w.nextHandle) : Owned .steady w' := by
  refine h.transfer ?_ False.elim hholder hws hnext
  rintro k c i r ⟨hc, hr⟩
  rw [hlookup] at hc
  by_cases hk : k = fd
  · rw [if_pos hk] at hc
    cases hc
  · rw [if_neg hk] at hc
    exact ⟨c, r, ⟨hc, hr⟩, rfl, .refl r, iff_of_false not_false fun hreleased ↦ hk hreleased.1, hk⟩

/-- A connection disappears once nothing points into it. -/
theorem Sound.close {fd : ℤ} {done : List UInt16} (h : Sound (.closing fd done) w)
    (hlookup : ∀ k, w'.conns.lookup k = if k = fd then none else w.conns.lookup k)
    (hholder : ∀ i, w'.arenas.holder i = w.arenas.holder i) (hws : w'.wsArenas = w.wsArenas)
    (hnext : w'.nextHandle = w.nextHandle) (hpending : w'.pendingOutput = w.pendingOutput)
    (htasks : w'.tasks = w.tasks) (hfree : ∀ p ∈ w.captured, p.conn.fd ≠ fd) :
    Sound .steady w' := by
  refine ⟨h.toOwned.close hlookup hholder hws hnext, ?_, ?_⟩
  · intro k c hc
    rw [hlookup] at hc
    by_cases hk : k = fd
    · rw [if_pos hk] at hc
      cases hc
    · rw [if_neg hk] at hc
      rw [World.tasksOf, htasks]
      exact h.workers hc
  · intro p hp
    rw [World.captured, hpending, htasks] at hp
    have hk := hfree p hp
    obtain ⟨⟨c, hc, hcid⟩, hlive⟩ := h.captured hp
    refine ⟨⟨c, by rw [hlookup, if_neg hk, hc], hcid⟩, .inr ?_⟩
    obtain ⟨c₁, r, hs, hvalid⟩ := hlive.resolve_left hk
    exact ⟨c₁, r, ⟨by rw [hlookup, if_neg hk, hs.conn], hs.request⟩, hvalid⟩

/-- A connection without requests stores none. -/
theorem stored_iff_of_open {fd : ℤ} {c : Connection} (hnone : w.conns.lookup fd = none)
    (hput : Puts w w' fd c) (hrequests : c.requests = ∅) {k : ℤ} {c₁ : Connection} {i : UInt16}
    {r : Request} : Stored w' k c₁ i r ↔ Stored w k c₁ i r := by
  constructor
  · rintro ⟨hc, hr⟩
    rw [hput k] at hc
    by_cases hk : k = fd
    · rw [if_pos hk, Option.some.injEq] at hc
      rw [← hc, hrequests, AList.lookup_empty] at hr
      cases hr
    · rw [if_neg hk] at hc
      exact ⟨hc, hr⟩
  · rintro ⟨hc, hr⟩
    refine ⟨(hput k).trans ((if_neg ?_).trans hc), hr⟩
    rintro rfl
    rw [hnone] at hc
    cases hc

/-- **A connection appears** where there was none. -/
theorem Owned.open (h : Owned phase w) {fd : ℤ} {c : Connection}
    (hnone : w.conns.lookup fd = none) (hput : Puts w w' fd c) (hrequests : c.requests = ∅)
    (hholder : ∀ i, w'.arenas.holder i = w.arenas.holder i) (hws : w'.wsArenas = w.wsArenas)
    (hnext : w'.nextHandle = w.nextHandle) : Owned phase w' := by
  refine h.transfer (fun {k c₁ i r} hs ↦ ?_) (fun hreleased ↦ ?_) hholder hws hnext
  · have hs₁ := (stored_iff_of_open hnone hput hrequests).mp hs
    exact ⟨c₁, r, hs₁, rfl, .refl r, Iff.rfl, id⟩
  · obtain ⟨c₁, r, hs⟩ := h.released_stored hreleased
    exact ⟨c₁, r, (stored_iff_of_open hnone hput hrequests).mpr hs⟩

theorem Sound.open (h : Sound phase w) {fd : ℤ} {c : Connection}
    (hnone : w.conns.lookup fd = none) (hput : Puts w w' fd c) (hrequests : c.requests = ∅)
    (hworkers : c.activeWorkers = 0) (hholder : ∀ i, w'.arenas.holder i = w.arenas.holder i)
    (hws : w'.wsArenas = w.wsArenas) (hnext : w'.nextHandle = w.nextHandle)
    (hpending : w'.pendingOutput = w.pendingOutput) (htasks : w'.tasks = w.tasks) :
    Sound phase w' := by
  -- nothing points to a number without a connection
  have hfree : ∀ p ∈ w.captured, p.conn.fd ≠ fd := by
    rintro p hp rfl
    obtain ⟨c₁, hc₁, -⟩ := (h.captured hp).connected
    rw [hnone] at hc₁
    cases hc₁
  refine ⟨h.toOwned.open hnone hput hrequests hholder hws hnext, ?_, ?_⟩
  · intro k c₁ hc
    rw [World.tasksOf, htasks]
    rw [hput k] at hc
    by_cases hk : k = fd
    · rw [if_pos hk, Option.some.injEq] at hc
      rw [← hc, hworkers, eq_comm, Nat.cast_eq_zero, List.countP_eq_zero]
      intro t ht hconn
      rw [decide_eq_true_eq] at hconn
      refine hfree t.request (List.mem_append_right _ (List.mem_map_of_mem ht)) ?_
      rw [hconn, hk]
    · rw [if_neg hk] at hc
      exact h.workers hc
  · intro p hp
    rw [World.captured, hpending, htasks] at hp
    obtain ⟨⟨c₁, hc₁, hcid⟩, hlive⟩ := h.captured hp
    refine ⟨⟨c₁, (hput _).trans ((if_neg (hfree p hp)).trans hc₁), hcid⟩, hlive.imp_right ?_⟩
    rintro ⟨c₂, r, hs, hvalid⟩
    exact ⟨c₂, r, (stored_iff_of_open hnone hput hrequests).mpr hs, hvalid⟩

/-! ## The sweep

The sweep looks at RESPONDED, FAILED, ABORTED and `worker_active`. `worker_active` is cleared after
the request has been pushed, so none of the four says that no pointer is left. -/

/-- No pointer leads to the request when the sweep is about to release it. -/
def SweepSafe (fd : ℤ) (w : World) (id : UInt16) : Prop :=
  ∀ c ∈ w.conns.lookup fd, ∀ r ∈ c.requests.lookup id,
    r.workerActive = false ∧ (r.flags.responded || r.flags.failed || r.flags.aborted) = true →
      ⟨⟨fd, c.cid⟩, id, r.handle⟩ ∉ w.captured

variable {cfg : GlobalConfig}

instance (fd : ℤ) (w : World) (id : UInt16) : Decidable (SweepSafe fd w id) := by
  unfold SweepSafe
  infer_instance

theorem serves_releaseRequest_tail (w : World) :
    Serves cfg.toLimits w (processWaitingConnections cfg
      (if w.acceptPaused && 0 < w.available then resumeAccept w else w)) := by
  refine Serves.trans ?_ (serves_processWaitingConnections cfg _)
  split
  · exact serves_queues rfl ⟨rfl, rfl, fun _ ↦ rfl, rfl, rfl, [], rfl⟩
  · exact .refl _ _

theorem Sound.releaseRequest {fd : ℤ} {id : UInt16}
    (h : Sound phase (FcgiConn.destroyRequest fd id w)) :
    Sound phase (releaseRequest cfg fd id w) :=
  h.serves (serves_releaseRequest_tail _)

/-- A sweep of a request nothing points to. -/
theorem Sound.sweepRequest (h : Sound .steady w) {fd : ℤ} {id : UInt16}
    (hsafe : SweepSafe fd w id) : Sound .steady (sweepRequest cfg fd w id) := by
  have hrelease : ∀ {w₁ : World}, Sound .steady w₁ → w₁.captured = w.captured →
      (∃ c r, Stored w₁ fd c id r ∧ r.flags.responded = true) →
      (∀ p ∈ w.captured, ¬(p.conn.fd = fd ∧ p.id = id)) →
      Sound .steady (FcgiConn.eraseRequest fd id (FcgiConn.releaseRequest cfg fd id w₁)) := by
    rintro w₁ h₁ hcaptured ⟨c, r, hs, hresponded⟩ hfree
    have hlive : r.released = false :=
      Bool.eq_false_iff.mpr fun hreleased ↦ (h₁.released_iff hs).mp hreleased
    refine Sound.eraseRequest (Sound.releaseRequest ?_)
    refine h₁.destroyRequest hs hlive (fun k i ↦ ?_) (fun k hk ↦ hk) (.inr hresponded)
      (.inr (hcaptured ▸ hfree))
    exact (or_iff_right fun hf ↦ hf).symm
  rcases sweepRequest_cases cfg fd w id with heq | ⟨r, hr, hinactive, hcases⟩
  · rwa [heq]
  obtain ⟨c, hs⟩ := lookup_request_eq_some.mp hr
  have hfree (hdone : (r.flags.responded || r.flags.failed || r.flags.aborted) = true) :
      ∀ p ∈ w.captured, ¬(p.conn.fd = fd ∧ p.id = id) := by
    rintro p hp ⟨hfd, hid⟩
    obtain ⟨⟨c₁, hc₁, hcid⟩, hlive⟩ := h.captured hp
    obtain ⟨c₂, r₂, hs₂, hhandle, -⟩ := hlive.resolve_left fun hf ↦ hf
    obtain ⟨⟨k, n⟩, i, handle⟩ := p
    subst hfd hid
    obtain rfl := Option.some.inj (hs.conn.symm.trans hs₂.conn)
    obtain rfl := Option.some.inj (hs.request.symm.trans hs₂.request)
    obtain rfl := Option.some.inj (hs.conn.symm.trans hc₁)
    refine hsafe c hs.conn r hs.request ⟨hinactive, hdone⟩ ?_
    rw [hcid, hhandle]
    exact hp
  rcases hcases with ⟨hresponded, heq⟩ | ⟨hunanswered, hended, -⟩
  · rw [heq]
    obtain ⟨⟨c', r', hs', hsame⟩, hcaptured⟩ := finalizeRequest_spec cfg hs
    refine hrelease (h.serves (serves_finalizeRequest cfg cfg.toLimits fd id w)) hcaptured
      ⟨c', r', hs', ?_⟩ (hfree ?_)
    · rw [hsame.flags, hresponded]
    · rw [hresponded, Bool.true_or, Bool.true_or]
  · -- a failed or aborted request has been answered
    exact absurd (h.settled hs hended) (Bool.eq_false_iff.mp hunanswered)

theorem Sound.sweep (h : Sound .steady w) {fd : ℤ}
    (hsafe : Meets (FcgiConn.sweepRequest cfg fd) (SweepSafe fd) w (requestIds fd w)) :
    Sound .steady (sweep cfg fd w) :=
  hsafe.foldl (fun _ _ hw hguard ↦ hw.sweepRequest hguard) h

/-! ## Closing

`should_close_connection` looks at the worker count of a connection, which says that no task is
left, and not at the response queue. A connection that is `closed` is not even asked for its
requests. -/

variable (cfg) in
/-- Nothing points into a connection when it is about to be erased: none of its requests waits for
output, and none of its tasks is left. -/
def CloseSafe (w : World) (fd : ℤ) : Prop :=
  ∀ c ∈ (cleanupConnectionRequests cfg fd w).conns.lookup fd, c.activeWorkers = 0 ∧
    ∀ p ∈ (cleanupConnectionRequests cfg fd w).pendingOutput, p.conn ≠ ⟨fd, c.cid⟩

instance (w : World) (fd : ℤ) : Decidable (CloseSafe cfg w fd) := by
  unfold CloseSafe
  infer_instance

theorem Owned.startClosing (h : Owned .steady w) (fd : ℤ) : Owned (.closing fd []) w where
  keyed := h.keyed
  connPtr := h.connPtr
  handle_lt := h.handle_lt
  handle_inj := h.handle_inj
  settled := h.settled
  arena := h.arena
  released_iff hs := (h.released_iff hs).trans ⟨False.elim, fun hf ↦ (nomatch hf.2)⟩
  released_stored hf := nomatch hf.2
  released_responded hs hr := ((h.released_iff hs).mp hr).elim
  ws_holder := h.ws_holder
  ws_lt := h.ws_lt
  ws_fresh := h.ws_fresh
  ws_nodup := h.ws_nodup

theorem Sound.startClosing (h : Sound .steady w) (fd : ℤ) : Sound (.closing fd []) w where
  toOwned := h.toOwned.startClosing fd
  workers := h.workers
  captured hp := ⟨(h.captured hp).connected, (h.captured hp).live.imp_left False.elim⟩

variable (cfg) in
theorem Sound.cleanupRequest {fd : ℤ} {done : List UInt16} (h : Sound (.closing fd done) w)
    {id : UInt16} (hid : id ∉ done) :
    Sound (.closing fd done) (cleanupRequest cfg fd w id) ∨
      Sound (.closing fd (id :: done)) (cleanupRequest cfg fd w id) := by
  rw [FcgiConn.cleanupRequest]
  split
  · exact .inl h
  next r hr =>
  obtain ⟨c, hs⟩ := lookup_request_eq_some.mp hr
  refine .inr (Sound.releaseRequest ?_)
  have hdestroy : ∀ {w₁ : World}, Sound (.closing fd done) w₁ → (∃ c r, Stored w₁ fd c id r) →
      Sound (.closing fd (id :: done)) (FcgiConn.destroyRequest fd id w₁) := by
    rintro w₁ h₁ ⟨c, r, hs⟩
    have hlive : r.released = false :=
      Bool.eq_false_iff.mpr fun hreleased ↦ hid ((h₁.released_iff hs).mp hreleased).2
    refine h₁.destroyRequest hs hlive (fun k i ↦ ?_) (fun k hk ↦ hk) (.inl rfl) (.inl rfl)
    rw [Phase.Released, Phase.Released, List.mem_cons]
    tauto
  split
  · exact hdestroy h ⟨c, r, hs⟩
  · obtain ⟨⟨c', r', hs', -⟩, -⟩ := finalizeRequest_spec cfg hs
    exact hdestroy (h.serves (serves_finalizeRequest cfg cfg.toLimits fd id w)) ⟨c', r', hs'⟩

variable (cfg) in
/-- The requests are released one by one, each of them once. -/
theorem Sound.cleanupRequests {fd : ℤ} (ids : List UInt16) {done : List UInt16}
    (h : Sound (.closing fd done) w) (hnodup : ids.Nodup) (hdisjoint : ∀ id ∈ ids, id ∉ done) :
    ∃ done', Sound (.closing fd done') (ids.foldl (FcgiConn.cleanupRequest cfg fd) w) := by
  induction ids generalizing w done with
  | nil => exact ⟨done, h⟩
  | cons id ids ih =>
    obtain ⟨hid, hnodup⟩ := List.nodup_cons.mp hnodup
    have hrest : ∀ i ∈ ids, i ∉ done := fun i hi ↦ hdisjoint i (List.mem_cons_of_mem _ hi)
    rcases h.cleanupRequest cfg (hdisjoint id List.mem_cons_self) with hnext | hnext
    · exact ih hnext hnodup hrest
    · refine ih hnext hnodup fun i hi hmem ↦ ?_
      rcases List.mem_cons.mp hmem with rfl | hmem
      · exact hid hi
      · exact hrest i hi hmem

theorem nodup_requestIds (fd : ℤ) (w : World) : (requestIds fd w).Nodup := by
  rw [requestIds]
  split
  · exact List.nodup_nil
  · exact AList.keys_nodup _

theorem mem_requestIds {fd : ℤ} {id : UInt16} :
    id ∈ requestIds fd w ↔ ∃ c r, Stored w fd c id r := by
  rw [requestIds]
  cases hc : w.conns.lookup fd with
  | none =>
    refine ⟨fun hid ↦ (nomatch hid), ?_⟩
    rintro ⟨c, r, hs⟩
    exact nomatch hc.symm.trans hs.conn
  | some c =>
    simp only
    rw [← AList.mem_keys, ← AList.lookup_isSome, Option.isSome_iff_exists]
    constructor
    · rintro ⟨r, hr⟩
      exact ⟨c, r, hc, hr⟩
    · rintro ⟨c', r, hs⟩
      obtain rfl := Option.some.inj (hc.symm.trans hs.conn)
      exact ⟨r, hs.request⟩

/-- What is left of a connection that has been cleared and closed. -/
theorem eraseConnection_spec (fd : ℤ) (hw' : w' =
      eraseConnection fd (w.updateConn fd fun c ↦ { c with requests := ∅ })) :
    (∀ k, w'.conns.lookup k = if k = fd then none else w.conns.lookup k) ∧
      w'.arenas = w.arenas ∧ w'.wsArenas = w.wsArenas ∧ w'.nextHandle = w.nextHandle ∧
      w'.pendingOutput = w.pendingOutput ∧ w'.tasks = w.tasks := by
  subst hw'
  cases hc : w.conns.lookup fd with
  | none =>
    rw [World.updateConn_of_none hc, eraseConnection, hc]
    refine ⟨fun k ↦ ?_, rfl, rfl, rfl, rfl, rfl⟩
    by_cases hk : k = fd
    · rw [if_pos hk, hk, hc]
    · rw [if_neg hk]
  | some c =>
    have hself := (World.lookup_setConn (w := w) fd { c with requests := ∅ } fd).trans (if_pos rfl)
    rw [World.updateConn_of_some hc, eraseConnection, hself]
    refine ⟨fun k ↦ ?_, rfl, rfl, rfl, rfl, rfl⟩
    simp only
    by_cases hk : k = fd
    · rw [if_pos hk, hk, AList.lookup_erase]
    · rw [if_neg hk, AList.lookup_erase_ne hk, World.lookup_setConn, if_neg hk]

theorem Sound.eraseConnection {fd : ℤ} {done : List UInt16} (h : Sound (.closing fd done) w)
    (hsafe : ∀ c ∈ w.conns.lookup fd, c.activeWorkers = 0 ∧
      ∀ p ∈ w.pendingOutput, p.conn ≠ ⟨fd, c.cid⟩) :
    Sound .steady (eraseConnection fd (w.updateConn fd fun c ↦ { c with requests := ∅ })) := by
  have hfree : ∀ p ∈ w.captured, p.conn.fd ≠ fd := by
    rintro ⟨⟨k, n⟩, i, handle⟩ hp rfl
    obtain ⟨⟨c, hc, hcid⟩, -⟩ := h.captured hp
    obtain ⟨hworkers, hpending⟩ := hsafe c hc
    rw [World.captured, List.mem_append] at hp
    rcases hp with hp | hp
    · exact hpending _ hp (by rw [hcid])
    · -- the counter of the connection counts its tasks
      have hcount := h.workers hc
      rw [hworkers, eq_comm, Nat.cast_eq_zero, World.tasksOf, List.countP_eq_zero] at hcount
      obtain ⟨t, ht, heq⟩ := List.mem_map.mp hp
      refine hcount t ht ?_
      rw [decide_eq_true_eq, heq, hcid]
  obtain ⟨hlookup, harenas, hws, hnext, hpending, htasks⟩ := eraseConnection_spec (w := w) fd rfl
  exact h.close hlookup (fun i ↦ by rw [harenas]) hws hnext hpending htasks hfree

/-- **Closing a connection nothing points into.** -/
theorem Sound.closeConnection (h : Sound .steady w) {fd : ℤ} (hsafe : CloseSafe cfg w fd) :
    Sound .steady (closeConnection cfg w fd) := by
  rw [FcgiConn.closeConnection]
  split
  · exact h
  obtain ⟨done, hclosing⟩ := (h.startClosing fd).cleanupRequests cfg (requestIds fd w)
    (nodup_requestIds fd w) fun _ _ hf ↦ (nomatch hf)
  rw [CloseSafe, cleanupConnectionRequests] at hsafe
  rw [cleanupConnectionRequests]
  refine hclosing.eraseConnection fun c hc ↦ ?_
  set w₁ := (requestIds fd w).foldl (FcgiConn.cleanupRequest cfg fd) w
  have hcleared := hsafe { c with requests := ∅ } (by
    rw [World.lookup_updateConn, hc, Option.map_some, if_pos rfl]
    exact Option.mem_some_self _)
  rwa [World.pendingOutput_updateConn] at hcleared

/-! ## The close queue

Several connections may be closed in one drain. Closing one of them releases requests and serves
others, which may point to new requests, so safety is asked of each entry when its turn comes. -/

theorem Sound.indexConns (h : Sound phase w) (fd : ℤ) : Sound phase (indexConns fd w) := by
  rw [FcgiConn.indexConns]
  split
  · exact h
  · next hnone =>
    exact h.open hnone (puts_of_conns rfl) rfl rfl (fun _ ↦ rfl) rfl rfl rfl rfl

variable (cfg) in
/-- If the entry of the close queue leads to a connection that is closed now, closing it is safe. -/
def DrainSafe (w : World) (cfd : ℤ) : Prop :=
  ((indexConns cfd w).conns.lookup cfd).any shouldCloseConnection = true →
    CloseSafe cfg (indexConns cfd w) cfd

instance (w : World) (cfd : ℤ) : Decidable (DrainSafe cfg w cfd) := by
  unfold DrainSafe
  infer_instance

theorem Sound.drainTurn (h : Sound .steady w) {cfd : ℤ} (hsafe : DrainSafe cfg w cfd) :
    Sound .steady (drainTurn cfg w cfd) := by
  rw [FcgiConn.drainTurn]
  split
  · next hclose => exact (h.indexConns cfd).closeConnection (hsafe hclose)
  · exact h.indexConns cfd

theorem Sound.drainCloseQueue (h : Sound .steady w)
    (hsafe : Meets (FcgiConn.drainTurn cfg) (DrainSafe cfg) { w with closeQueue := [] }
      w.closeQueue) : Sound .steady (drainCloseQueue cfg w) := by
  have hempty : Sound .steady { w with closeQueue := [] } :=
    h.of_ledger (Evolves.refl .refl w) ⟨rfl, rfl, fun _ ↦ rfl, rfl, rfl, [], rfl⟩
  exact hsafe.foldl (fun _ _ hw hguard ↦ hw.drainTurn hguard) hempty

end Wasapi.FcgiConn
