import Wasapi.FcgiConn.Balance
import Wasapi.FcgiConn.Closing

/-!
# Serving others in the middle of a release

`release_request` gives the arena back and then serves the connections that wait for one, and its
callers take the request out of its map only behind it. Where `process_buffer` is entered from
there, the map still holds the released request. If it is the map of the connection that is being
closed, what the record machine puts into it is lost with its arena.

`reentries` are the worlds in which `process_buffer` is entered so. There are none as long as no
open connection waits when a request is released, and then no arena is lost either.
-/

namespace Wasapi.FcgiConn

open Fastcgi

variable {phase : Phase} {w w' : World}

/-! ## The property

Who holds the arenas is asked at every release and behind every event. In between, in the middle of
a release, the released request still stands in its map without an arena, and that is what others
may come upon. -/

/-- Every stored request is live and has an arena in use to itself. -/
structure HoldsArenas (w : World) : Prop where
  live {fd c id r} : Stored w fd c id r → r.released = false
  inUse {fd c id r} : Stored w fd c id r →
    ∃ i, r.arena = some i ∧ (w.arenas.holder i).isSome = true
  alone {fd c id r fd' c' id' r'} : Stored w fd c id r → Stored w fd' c' id' r' →
    r.arena = r'.arena → fd = fd' ∧ id = id'

/-- The arenas in use are exactly those of the stored requests and of the websocket tasks. -/
structure NoneLost (w : World) : Prop where
  inUse_iff (i : ℕ) : (w.arenas.holder i).isSome = true ↔
    (∃ fd c id r, Stored w fd c id r ∧ r.arena = some i) ∨ ∃ n, (i, n) ∈ w.wsArenas
  apart {i n fd c id r} : (i, n) ∈ w.wsArenas → Stored w fd c id r → r.arena ≠ some i
  wsOnce : (w.wsArenas.map Prod.fst).Nodup

private theorem Balanced.holdsArenas (h : Balanced .steady w) : HoldsArenas w where
  live hs := h.live hs
  inUse hs := by
    obtain ⟨i, harena, hholds⟩ := h.arena hs (h.live hs)
    exact ⟨i, harena, by rw [hholds, Option.isSome_some]⟩
  alone hs hs' heq := by
    obtain ⟨i, harena, hholds⟩ := h.arena hs (h.live hs)
    obtain ⟨i', harena', hholds'⟩ := h.arena hs' (h.live hs')
    obtain rfl : i = i' := by rw [harena, harena', Option.some.injEq] at heq; exact heq
    exact h.handle_inj hs hs' (Option.some.inj (hholds.symm.trans hholds'))

private theorem Balanced.noneLost (h : Balanced .steady w) : NoneLost w where
  inUse_iff i := by
    rw [Option.isSome_iff_exists]
    constructor
    · rintro ⟨n, hn⟩
      rcases h.accounted i n hn with ⟨fd, c, id, r, hs, -, harena, -⟩ | hws
      · exact .inl ⟨fd, c, id, r, hs, harena⟩
      · exact .inr ⟨n, hws⟩
    · rintro (⟨fd, c, id, r, hs, harena⟩ | ⟨n, hws⟩)
      · obtain ⟨j, hj, hholds⟩ := h.arena hs (h.live hs)
        obtain rfl := Option.some.inj (harena.symm.trans hj)
        exact ⟨_, hholds⟩
      · exact ⟨n, h.ws_holder hws⟩
  apart hws hs harena := by
    obtain ⟨j, hj, hholds⟩ := h.arena hs (h.live hs)
    obtain rfl := Option.some.inj (harena.symm.trans hj)
    exact h.ws_fresh hws hs (Option.some.inj (hholds.symm.trans (h.ws_holder hws)))
  wsOnce := by
    refine h.ws_nodup.map_on ?_
    rintro ⟨i, n⟩ hn ⟨i', n'⟩ hn' heq
    obtain rfl : i = i' := heq
    rw [Option.some.inj ((h.ws_holder hn).symm.trans (h.ws_holder hn'))]

/-! ## The moments

The worlds in which a release enters `process_buffer` are computed from the world in which it
begins. There may be none, one, or as many as there are connections that wait. -/

section

variable (cfg : GlobalConfig)

/-- The worlds in which the loop of `process_waiting_connections` enters `process_buffer`. -/
def reentriesLoop : ℕ → ℕ → World → List World
  | 0, _, _ => []
  | n + 1, budget, w =>
    if budget = 0 then []
    else
      match w.waitingConns with
      | [] => []
      | fd :: fds =>
        let w := { w with waitingConns := fds }
        match w.conns.lookup fd with
        | none => reentriesLoop n budget w
        | some c =>
          if c.closed then reentriesLoop n budget w
          else
            let w' := processFcgi cfg fd w
            let waits := (w'.conns.lookup fd).any fun c ↦ c.waitingForArena
            w ::
              if c.waitingForArena && !waits then
                reentriesLoop n (budget - 1) (flushConnection fd w')
              else if waits then
                reentriesLoop n budget { w' with waitingConns := w'.waitingConns ++ [fd] }
              else reentriesLoop n budget w'

/-- The worlds in which `release_request` enters `process_buffer`. -/
def reentries (fd : ℤ) (id : UInt16) (w : World) : List World :=
  let w := destroyRequest fd id w
  let w := if w.acceptPaused && 0 < w.available then resumeAccept w else w
  reentriesLoop cfg w.waitingConns.length w.available w

/-- The world in which the sweep calls `release_request` on the request with this id, if it does. -/
def sweepReleases (fd : ℤ) (w : World) (id : UInt16) : Option World :=
  match (w.conns.lookup fd).bind fun c ↦ c.requests.lookup id with
  | none => none
  | some r =>
    if r.workerActive then none
    else if r.flags.responded then some (finalizeRequest cfg fd id w)
    else if r.flags.failed || r.flags.aborted then some w
    else none

/-- The world in which `cleanup_connection_requests` calls `release_request` on it, if it does. -/
def cleanupReleases (fd : ℤ) (w : World) (id : UInt16) : Option World :=
  match (w.conns.lookup fd).bind fun c ↦ c.requests.lookup id with
  | none => none
  | some r => some (if r.flags.responded then w else finalizeRequest cfg fd id w)

variable (P : World → ℤ → UInt16 → Prop)

/-- `P` holds whenever the sweep of the event releases a request. -/
def AtSweeps (w : World) : Event → Prop
  | .io fd events data ending =>
    (w.conns.lookup fd).isSome →
      let served := serveIo cfg fd events data ending w
      Meets (sweepRequest cfg fd) (fun w id ↦ ∀ v ∈ sweepReleases cfg fd w id, P v fd id) served
        (requestIds fd served)
  | _ => True

/-- `P` holds whenever closing the connection releases a request. -/
def AtCleanup (w : World) (fd : ℤ) : Prop :=
  Meets (cleanupRequest cfg fd) (fun w id ↦ ∀ v ∈ cleanupReleases cfg fd w id, P v fd id) w
    (requestIds fd w)

/-- `P` holds whenever an event releases a request. -/
def AtReleases (w : World) (e : Event) : Prop :=
  AtSweeps cfg P w e ∧ AtCloses cfg (AtCleanup cfg P) w e

instance [∀ w fd id, Decidable (P w fd id)] (w : World) (fd : ℤ) :
    Decidable (AtCleanup cfg P w fd) := by
  unfold AtCleanup
  infer_instance

instance [∀ w fd id, Decidable (P w fd id)] (w : World) (e : Event) :
    Decidable (AtSweeps cfg P w e) := by
  rcases e with _ | _ <;> dsimp only [AtSweeps] <;> infer_instance

instance [∀ w fd id, Decidable (P w fd id)] (w : World) (e : Event) :
    Decidable (AtReleases cfg P w e) := by
  unfold AtReleases
  infer_instance

/-- The request to be released is live and its arena in use, and wherever the release enters
`process_buffer`, every stored request holds its arena. -/
def ReleasesSafely (w : World) (fd : ℤ) (id : UInt16) : Prop :=
  (∀ c r, Stored w fd c id r →
    r.released = false ∧ ∃ i, r.arena = some i ∧ (w.arenas.holder i).isSome = true) ∧
  ∀ u ∈ reentries cfg fd id w, HoldsArenas u

/-- The ownership of the arenas, at every release of an event and behind it. -/
structure KeepsArenas (app : Application) (w : World) (e : Event) : Prop where
  releases : AtReleases cfg (ReleasesSafely cfg) w e
  holds : HoldsArenas (step cfg app w e)
  noneLost : NoneLost (step cfg app w e)

end

/-- No open connection waits for an arena. -/
def NoneWaiting (w : World) : Prop :=
  ∀ fd ∈ w.waitingConns, ∀ c ∈ w.conns.lookup fd, c.closed = true

instance (w : World) : Decidable (NoneWaiting w) := by
  unfold NoneWaiting
  infer_instance

/-! ## One release

If nobody waits, a release ends where it gives back the arena. If somebody does, the first to be
served is served in a world in which the released request is still stored, so the condition is
exact. -/

section

variable {cfg : GlobalConfig}

theorem NoneWaiting.tail {fd : ℤ} {fds : List ℤ} (h : NoneWaiting w)
    (hwaiting : w.waitingConns = fd :: fds) : NoneWaiting { w with waitingConns := fds } :=
  fun k hk ↦ h k (hwaiting ▸ List.mem_cons_of_mem _ hk)

variable (cfg) in
/-- Nobody is served. -/
theorem waitingLoop_of_noneWaiting (h : NoneWaiting w) (n budget : ℕ) :
    (waitingLoop cfg n budget w).conns = w.conns ∧ reentriesLoop cfg n budget w = [] := by
  induction n generalizing w with
  | zero => exact ⟨rfl, rfl⟩
  | succ n ih =>
    rw [waitingLoop, reentriesLoop]
    by_cases hbudget : budget = 0
    · rw [if_pos hbudget, if_pos hbudget]
      exact ⟨rfl, rfl⟩
    rw [if_neg hbudget, if_neg hbudget]
    cases hwaiting : w.waitingConns with
    | nil => exact ⟨rfl, rfl⟩
    | cons fd fds =>
      have hrest := ih (h.tail hwaiting)
      cases hc : w.conns.lookup fd with
      | none =>
        simp only [hc]
        exact hrest
      | some c =>
        have hclosed := h fd (hwaiting ▸ List.mem_cons_self) c hc
        simp only [hc, hclosed, if_true]
        exact hrest

variable (cfg) in
/-- The first one to be served finds the connections as they were. -/
theorem exists_reentry {n budget : ℕ} (hlength : w.waitingConns.length ≤ n) (hbudget : 0 < budget)
    (h : ¬NoneWaiting w) : ∃ u ∈ reentriesLoop cfg n budget w, u.conns = w.conns := by
  induction n generalizing w with
  | zero =>
    rw [Nat.le_zero, List.length_eq_zero_iff] at hlength
    refine absurd (fun fd hfd ↦ ?_) h
    rw [hlength] at hfd
    cases hfd
  | succ n ih =>
    rw [reentriesLoop, if_neg hbudget.ne']
    cases hwaiting : w.waitingConns with
    | nil =>
      refine absurd (fun fd hfd ↦ ?_) h
      rw [hwaiting] at hfd
      cases hfd
    | cons fd fds =>
      rw [hwaiting, List.length_cons, Nat.succ_le_succ_iff] at hlength
      have hrest (hclosed : ∀ c ∈ w.conns.lookup fd, c.closed = true) :
          ∃ u ∈ reentriesLoop cfg n budget { w with waitingConns := fds }, u.conns = w.conns := by
        refine ih hlength fun hnone ↦ h fun k hk ↦ ?_
        rcases List.mem_cons.mp (hwaiting ▸ hk) with rfl | hk
        · exact hclosed
        · exact hnone k hk
      simp only
      cases hc : w.conns.lookup fd with
      | none =>
        refine hrest fun c hc' ↦ ?_
        rw [hc] at hc'
        cases hc'
      | some c =>
        by_cases hclosed : c.closed = true
        · simp only [hclosed, if_true]
          refine hrest fun c' hc' ↦ ?_
          rwa [← Option.some.inj (hc.symm.trans hc')]
        · simp only [hclosed]
          exact ⟨_, List.mem_cons_self, rfl⟩

/-- The world in which a release serves the waiting connections. -/
theorem releaseRequest_eq (cfg : GlobalConfig) (fd : ℤ) (id : UInt16) (w : World) :
    ∃ w' : World, w'.conns = (destroyRequest fd id w).conns ∧
      w'.waitingConns = (destroyRequest fd id w).waitingConns ∧
      w'.available = (destroyRequest fd id w).available ∧
      releaseRequest cfg fd id w = waitingLoop cfg w'.waitingConns.length w'.available w' ∧
      reentries cfg fd id w = reentriesLoop cfg w'.waitingConns.length w'.available w' := by
  refine ⟨if (destroyRequest fd id w).acceptPaused && 0 < (destroyRequest fd id w).available then
    resumeAccept (destroyRequest fd id w) else destroyRequest fd id w, ?_, ?_, ?_, rfl, rfl⟩ <;>
  · split <;> rfl

theorem destroyRequest_eq {fd : ℤ} {c : Connection} {id : UInt16} {r : Request} {i : ℕ}
    (hs : Stored w fd c id r) (harena : r.arena = some i) :
    (destroyRequest fd id w).waitingConns = w.waitingConns ∧
      (destroyRequest fd id w).available = (w.arenas.release i).availableCount := by
  rw [destroyRequest, lookup_request_eq_some.mpr ⟨c, hs⟩]
  simp only [harena]
  rw [World.updateConn_of_some hs.conn]
  exact ⟨rfl, rfl⟩

/-- Releasing a request closes no connection and opens none. -/
theorem noneWaiting_destroyRequest {fd : ℤ} {c : Connection} {id : UInt16} {r : Request} {i : ℕ}
    (hs : Stored w fd c id r) (harena : r.arena = some i)
    (hconns : w'.conns = (destroyRequest fd id w).conns)
    (hwaiting : w'.waitingConns = (destroyRequest fd id w).waitingConns) :
    NoneWaiting w' ↔ NoneWaiting w := by
  obtain ⟨hput, -⟩ := destroyRequest_spec hs harena
  rw [(destroyRequest_eq hs harena).1] at hwaiting
  rw [NoneWaiting, NoneWaiting, hconns, hwaiting]
  refine forall₂_congr fun k _ ↦ ?_
  rw [hput k]
  by_cases hk : k = fd
  · rw [if_pos hk, hk, hs.conn]
    simp
  · rw [if_neg hk]

/-- **A release is safe exactly if no open connection waits.** Otherwise the first one that is
served finds the released request in its map. -/
theorem releasesSafely_iff (h : Owned phase w) {fd : ℤ} {c : Connection} {id : UInt16} {r : Request}
    (hs : Stored w fd c id r) (hlive : r.released = false) :
    ReleasesSafely cfg w fd id ↔ NoneWaiting w := by
  obtain ⟨i, harena, hholds⟩ := h.arena hs hlive
  obtain ⟨w', hconns, hwaiting, havailable, -, hreentries⟩ := releaseRequest_eq cfg fd id w
  have hnone := noneWaiting_destroyRequest hs harena hconns hwaiting
  rw [ReleasesSafely, hreentries, ← hnone]
  constructor
  · rintro ⟨-, hsafe⟩
    by_contra hwaits
    have hpos : 0 < w'.available := by
      rw [havailable, (destroyRequest_eq hs harena).2]
      exact ArenaManager.availableCount_release_pos hholds
    obtain ⟨u, hu, huconns⟩ := exists_reentry cfg le_rfl hpos hwaits
    -- the released request is still stored there
    obtain ⟨hput, -⟩ := destroyRequest_spec hs harena
    have hstored : Stored u fd
        { c with requests := c.requests.insert id { r with released := true } } id
        { r with released := true } := by
      refine ⟨?_, AList.lookup_insert _⟩
      rw [huconns, hconns, hput fd, if_pos rfl]
    exact nomatch (hsafe u hu).live hstored
  · intro hwaits
    refine ⟨fun c' r' hs' ↦ ?_, fun u hu ↦ ?_⟩
    · obtain rfl := Option.some.inj (hs.conn.symm.trans hs'.conn)
      obtain rfl := Option.some.inj (hs.request.symm.trans hs'.request)
      exact ⟨hlive, i, harena, by rw [hholds, Option.isSome_some]⟩
    · rw [(waitingLoop_of_noneWaiting cfg hwaits _ _).2] at hu
      cases hu

/-! ## Sweeps

In a sweep the entry is erased behind the release. When nobody is served in between, this is one
step, and the balance holds on both sides of it. -/

private theorem Balanced.of_sweepReleases (h : Balanced .steady w) {fd : ℤ} {id : UInt16}
    {v : World} (hv : sweepReleases cfg fd w id = some v) :
    Owned .steady v ∧ ∃ c r, Stored v fd c id r ∧ r.released = false := by
  rw [sweepReleases] at hv
  split at hv
  · cases hv
  next r hr =>
  obtain ⟨c, hs⟩ := lookup_request_eq_some.mp hr
  split at hv
  · cases hv
  split at hv
  · obtain rfl := Option.some.inj hv
    have hfinal := h.serves (serves_finalizeRequest cfg cfg.toLimits fd id w)
    obtain ⟨⟨c', r', hs', -⟩, -⟩ := finalizeRequest_spec cfg hs
    exact ⟨hfinal.toOwned, c', r', hs', hfinal.live hs'⟩
  split at hv
  · obtain rfl := Option.some.inj hv
    exact ⟨h.toOwned, c, r, hs, h.live hs⟩
  · cases hv

private theorem atSweeps_iff (h : Balanced .steady w) (e : Event) :
    AtSweeps cfg (ReleasesSafely cfg) w e ↔ AtSweeps cfg (fun w _ _ ↦ NoneWaiting w) w e := by
  cases e with
  | io fd events data ending =>
    refine imp_congr_right fun _ ↦ ?_
    refine meets_congr_of_invariant (I := Balanced .steady)
      (fun _ id hw _ ↦ hw.sweepRequest fd id) (fun w id hw ↦ forall₂_congr fun v hv ↦ ?_)
      (h.serves (serves_serveIo cfg fd events data ending w))
    obtain ⟨howned, c, r, hs, hlive⟩ := hw.of_sweepReleases hv
    exact releasesSafely_iff howned hs hlive
  | _ => exact Iff.rfl

/-! ## Closing a connection

All requests of the connection are released before any of them leaves the map. Only when none of
these releases serves anybody are the requests that are forgotten in the end the ones that have been
released. -/

/-- Writing an entry that is there adds no key. -/
theorem mem_requestIds_of_insert {fd : ℤ} {c c' : Connection} {id : UInt16} {r r' : Request}
    (hs : Stored w fd c id r) (hput : Puts w w' fd c') (hcid : c'.cid = c.cid)
    (hrequests : c'.requests = c.requests.insert id r') {i : UInt16} (hi : i ∈ requestIds fd w') :
    i ∈ requestIds fd w := by
  obtain ⟨c₂, r₂, hs₂⟩ := mem_requestIds.mp hi
  rcases stored_cases_of_insert hs.conn hput hcid hrequests hs₂ with ⟨-, rfl, -⟩ | ⟨c₁, hs₁, -⟩
  · exact mem_requestIds.mpr ⟨c, r, hs⟩
  · exact mem_requestIds.mpr ⟨c₁, r₂, hs₁⟩

variable (cfg) in
private theorem puts_finalizeRequest {fd : ℤ} {c : Connection} {id : UInt16} {r : Request}
    (hs : Stored w fd c id r) : ∃ r', Puts w (finalizeRequest cfg fd id w) fd
      { c with requests := c.requests.insert id r' } := by
  rw [finalizeRequest, lookup_request_eq_some.mpr ⟨c, hs⟩]
  simp only [World.updateConn_of_some hs.conn]
  exact ⟨_, puts_of_conns rfl⟩

private theorem cleanupRequest_eq (cfg : GlobalConfig) (fd : ℤ) (w : World) (id : UInt16) :
    cleanupRequest cfg fd w id
      = match cleanupReleases cfg fd w id with
        | none => w
        | some v => releaseRequest cfg fd id v := by
  rw [cleanupRequest, cleanupReleases]
  cases (w.conns.lookup fd).bind fun c ↦ c.requests.lookup id <;> rfl

private theorem Balanced.of_cleanupReleases {fd : ℤ} {done : List UInt16}
    (h : Balanced (.closing fd done) w) {id : UInt16} (hid : id ∉ done) {v : World}
    (hv : cleanupReleases cfg fd w id = some v) :
    Balanced (.closing fd done) v ∧ (∃ c r, Stored v fd c id r ∧ r.released = false) ∧
      ∀ i ∈ requestIds fd v, i ∈ requestIds fd w := by
  rw [cleanupReleases] at hv
  split at hv
  · cases hv
  next r hr =>
  obtain ⟨c, hs⟩ := lookup_request_eq_some.mp hr
  have hlive : ∀ {v : World} {c r}, Balanced (.closing fd done) v → Stored v fd c id r →
      r.released = false := fun hv hs ↦
    Bool.eq_false_iff.mpr fun hreleased ↦ hid ((hv.released_iff hs).mp hreleased).2
  obtain rfl := Option.some.inj hv
  split
  · exact ⟨h, ⟨c, r, hs, hlive h hs⟩, fun _ hi ↦ hi⟩
  · have hfinal := h.serves (serves_finalizeRequest cfg cfg.toLimits fd id w)
    obtain ⟨⟨c', r', hs', -⟩, -⟩ := finalizeRequest_spec cfg hs
    obtain ⟨r₁, hput⟩ := puts_finalizeRequest cfg hs
    exact ⟨hfinal, ⟨c', r', hs', hlive hfinal hs'⟩, fun i hi ↦
      mem_requestIds_of_insert hs hput rfl rfl hi⟩

/-- Releasing a request on the way out. -/
theorem Balanced.releaseClosing {fd : ℤ} {done : List UInt16} (h : Balanced (.closing fd done) w)
    {c : Connection} {id : UInt16} {r : Request} (hs : Stored w fd c id r)
    (hlive : r.released = false) :
    Balanced (.closing fd (id :: done)) (FcgiConn.releaseRequest cfg fd id w) := by
  refine Balanced.releaseRequest
    (h.destroyRequest hs hlive (fun k i ↦ ?_) (fun k hk ↦ hk) (.inl rfl))
  rw [Phase.Released, Phase.Released, List.mem_cons]
  tauto

private theorem mem_requestIds_releaseRequest (h : Owned phase w) {fd : ℤ} {c : Connection}
    {id : UInt16}
    {r : Request} (hs : Stored w fd c id r) (hlive : r.released = false) (hnone : NoneWaiting w)
    {i : UInt16} (hi : i ∈ requestIds fd (releaseRequest cfg fd id w)) : i ∈ requestIds fd w := by
  obtain ⟨j, harena, -⟩ := h.arena hs hlive
  obtain ⟨w', hconns, hwaiting, -, hrelease, -⟩ := releaseRequest_eq cfg fd id w
  obtain ⟨hput, -⟩ := destroyRequest_spec hs harena
  have hloop := (waitingLoop_of_noneWaiting cfg
    ((noneWaiting_destroyRequest hs harena hconns hwaiting).mpr hnone) w'.waitingConns.length
    w'.available).1
  rw [← hrelease, hconns] at hloop
  have hput' : Puts w (releaseRequest cfg fd id w) fd
      { c with requests := c.requests.insert id { r with released := true } } := by
    intro k
    rw [hloop]
    exact hput k
  exact mem_requestIds_of_insert hs hput' rfl rfl hi

/-- The loop over the requests of a connection that is being closed. -/
theorem meets_cleanup_iff {fd : ℤ} (ids : List UInt16) {done : List UInt16}
    (h : Balanced (.closing fd done) w) (hnodup : ids.Nodup) (hdisjoint : ∀ id ∈ ids, id ∉ done) :
    Meets (cleanupRequest cfg fd)
        (fun w id ↦ ∀ v ∈ cleanupReleases cfg fd w id, ReleasesSafely cfg v fd id) w ids
      ↔ Meets (cleanupRequest cfg fd)
        (fun w id ↦ ∀ v ∈ cleanupReleases cfg fd w id, NoneWaiting v) w ids := by
  induction ids generalizing w done with
  | nil => exact Iff.rfl
  | cons id ids ih =>
    obtain ⟨hid, hnodup⟩ := List.nodup_cons.mp hnodup
    have hfresh := hdisjoint id List.mem_cons_self
    have hrest : ∀ i ∈ ids, i ∉ done := fun i hi ↦ hdisjoint i (List.mem_cons_of_mem _ hi)
    rw [meets_cons, meets_cons]
    refine and_congr (forall₂_congr fun v hv ↦ ?_) ?_
    · obtain ⟨hv, ⟨c, r, hs, hlive⟩, -⟩ := h.of_cleanupReleases hfresh hv
      exact releasesSafely_iff hv.toOwned hs hlive
    rw [cleanupRequest_eq]
    cases hv : cleanupReleases cfg fd w id with
    | none => exact ih h hnodup hrest
    | some v =>
      obtain ⟨hv, ⟨c, r, hs, hlive⟩, -⟩ := h.of_cleanupReleases hfresh hv
      refine ih (hv.releaseClosing hs hlive) hnodup fun i hi hmem ↦ ?_
      rcases List.mem_cons.mp hmem with rfl | hmem
      · exact hid hi
      · exact hrest i hi hmem

theorem Balanced.startClosing (h : Balanced .steady w) (fd : ℤ) : Balanced (.closing fd []) w :=
  ⟨h.toOwned.startClosing fd, h.accounted⟩

private theorem atCleanup_iff (h : Balanced .steady w) (fd : ℤ) :
    AtCleanup cfg (ReleasesSafely cfg) w fd ↔ AtCleanup cfg (fun w _ _ ↦ NoneWaiting w) w fd :=
  meets_cleanup_iff (requestIds fd w) (h.startClosing fd) (nodup_requestIds fd w)
    fun _ _ hf ↦ (nomatch hf)

/-- **Every request of the connection is released**, if nobody is served in between. -/
theorem Balanced.cleanupRequests {fd : ℤ} (ids : List UInt16) {done : List UInt16}
    (h : Balanced (.closing fd done) w) (hnodup : ids.Nodup) (hdisjoint : ∀ id ∈ ids, id ∉ done)
    (hids : ∀ i ∈ requestIds fd w, i ∈ done ∨ i ∈ ids)
    (hnone : Meets (cleanupRequest cfg fd)
      (fun w id ↦ ∀ v ∈ cleanupReleases cfg fd w id, NoneWaiting v) w ids) :
    ∃ done', Balanced (.closing fd done') (ids.foldl (cleanupRequest cfg fd) w) ∧
      ∀ i ∈ requestIds fd (ids.foldl (cleanupRequest cfg fd) w), i ∈ done' := by
  induction ids generalizing w done with
  | nil => exact ⟨done, h, fun i hi ↦ (hids i hi).resolve_right fun hf ↦ (nomatch hf)⟩
  | cons id ids ih =>
    obtain ⟨hid, hnodup⟩ := List.nodup_cons.mp hnodup
    have hfresh := hdisjoint id List.mem_cons_self
    have hrest : ∀ i ∈ ids, i ∉ done := fun i hi ↦ hdisjoint i (List.mem_cons_of_mem _ hi)
    obtain ⟨hnone, hnext⟩ := hnone
    rw [List.foldl_cons]
    rw [cleanupRequest_eq] at hnext ⊢
    cases hv : cleanupReleases cfg fd w id with
    | none =>
      rw [hv] at hnext
      refine ih h hnodup hrest (fun i hi ↦ ?_) hnext
      refine (hids i hi).imp_right fun hmem ↦ (List.mem_cons.mp hmem).resolve_left ?_
      -- a request that is there is released
      rintro rfl
      obtain ⟨c, r, hs⟩ := mem_requestIds.mp hi
      rw [cleanupReleases, lookup_request_eq_some.mpr ⟨c, hs⟩] at hv
      cases hv
    | some v =>
      rw [hv] at hnext
      obtain ⟨hbal, ⟨c, r, hs, hlive⟩, hkeys⟩ := h.of_cleanupReleases hfresh hv
      refine ih (hbal.releaseClosing hs hlive) hnodup (fun i hi hmem ↦ ?_) (fun i hi ↦ ?_) hnext
      · rcases List.mem_cons.mp hmem with rfl | hmem
        · exact hid hi
        · exact hrest i hi hmem
      · have hi := hkeys i (mem_requestIds_releaseRequest hbal.toOwned hs hlive (hnone v hv) hi)
        rcases hids i hi with hdone | hmem
        · exact .inl (List.mem_cons_of_mem _ hdone)
        · rcases List.mem_cons.mp hmem with rfl | hmem
          · exact .inl List.mem_cons_self
          · exact .inr hmem

/-- **Closing a connection loses no arena**, if nobody is served in between. -/
theorem Balanced.closeConnection (h : Balanced .steady w) {fd : ℤ}
    (hnone : AtCleanup cfg (fun w _ _ ↦ NoneWaiting w) w fd) :
    Balanced .steady (closeConnection cfg w fd) := by
  rw [FcgiConn.closeConnection]
  split
  · exact h
  obtain ⟨done, hclosing, hdone⟩ := (h.startClosing fd).cleanupRequests (requestIds fd w)
    (nodup_requestIds fd w) (fun _ _ hf ↦ absurd hf List.not_mem_nil)
    (fun i hi ↦ .inr hi) hnone
  rw [cleanupConnectionRequests]
  obtain ⟨hlookup, harenas, hws, hnext, -, -⟩ :=
    eraseConnection_spec (w := (requestIds fd w).foldl (cleanupRequest cfg fd) w) fd rfl
  exact hclosing.close hdone hlookup (fun i ↦ by rw [harenas]) hws hnext

/-! ## Events

An event releases requests in its sweep and where it closes connections. The condition is collected
along these places in the order in which the event comes to them. -/

theorem Balanced.drainTurn (h : Balanced .steady w) {cfd : ℤ}
    (hnone : ((FcgiConn.indexConns cfd w).conns.lookup cfd).any shouldCloseConnection = true →
      AtCleanup cfg (fun w _ _ ↦ NoneWaiting w) (FcgiConn.indexConns cfd w) cfd) :
    Balanced .steady (drainTurn cfg w cfd) := by
  rw [FcgiConn.drainTurn]
  split
  · next hclose => exact (h.indexConns cfd).closeConnection (hnone hclose)
  · exact h.indexConns cfd

/-- The world whose close queue `handle_io` is about to empty. -/
theorem Balanced.queued (h : Balanced .steady w) (fd : ℤ) (events : IoEvents) (data : Bytes)
    (ending : RecvEnd) : Balanced .steady
      { FcgiConn.queueClose fd (FcgiConn.sweep cfg fd (serveIo cfg fd events data ending w)) with
        closeQueue := [] } := by
  have hserved := h.serves (serves_serveIo cfg fd events data ending w)
  exact ((hserved.sweep fd).queueClose fd).of_eq rfl rfl rfl rfl

theorem Balanced.timedOut (h : Balanced .steady w) :
    Balanced .steady (w.conns.keys.foldl (FcgiConn.timeoutRequests cfg) w) :=
  List.foldlRecOn _ _ h fun _ hw fd _ ↦ hw.timeoutRequests fd

private theorem atReleases_iff (h : Balanced .steady w) (e : Event) :
    AtReleases cfg (ReleasesSafely cfg) w e ↔ AtReleases cfg (fun w _ _ ↦ NoneWaiting w) w e := by
  refine and_congr (atSweeps_iff h e) ?_
  cases e with
  | io fd events data ending =>
    refine imp_congr_right fun _ ↦ ?_
    exact meets_congr_of_invariant (I := Balanced .steady) (fun _ _ hw hnone ↦ hw.drainTurn hnone)
      (fun _ cfd hw ↦ imp_congr_right fun _ ↦ atCleanup_iff (hw.indexConns cfd) cfd)
      (h.queued fd events data ending)
  | housekeeping =>
    exact meets_congr_of_invariant (I := Balanced .steady)
      (fun _ _ hw hnone ↦ hw.closeConnection hnone) (fun _ fd hw ↦ atCleanup_iff hw fd) h.timedOut
  | _ => exact Iff.rfl

/-- **One event keeps the balance** if no open connection waits where it releases requests. -/
theorem Balanced.step (h : Balanced .steady w) (app : Application) {e : Event}
    (hnone : AtReleases cfg (fun w _ _ ↦ NoneWaiting w) w e) :
    Balanced .steady (step cfg app w e) := by
  cases e with
  | io fd events data ending =>
    rw [FcgiConn.step, handleIo]
    split
    · exact h
    next c hc =>
    have hcloses := hnone.2 (by rw [hc, Option.isSome_some])
    exact hcloses.foldl (fun _ _ hw hnone ↦ hw.drainTurn hnone) (h.queued fd events data ending)
  | housekeeping => exact hnone.2.foldl (fun _ _ hw hnone ↦ hw.closeConnection hnone) h.timedOut
  | pendingOutput => exact h.processPendingOutput
  | accept cfds => exact h.handleNewConnections cfds
  | worker k => exact h.workerStep k
  | outside elapsed sends => exact h.of_eq rfl rfl rfl rfl
  | wsTake => exact h.wsTake cfg app
  | wsReturn k => exact h.wsReturn cfg app k
  | rehash fds fd ids => exact h.rehash cfg app fds fd ids

private theorem keepsArenas_iff (h : Balanced .steady w) (app : Application) (e : Event) :
    KeepsArenas cfg app w e ↔ AtReleases cfg (fun w _ _ ↦ NoneWaiting w) w e := by
  rw [← atReleases_iff h]
  refine ⟨fun hkeeps ↦ hkeeps.releases, fun hsafe ↦ ?_⟩
  have hstep := h.step app ((atReleases_iff h e).mp hsafe)
  exact ⟨hsafe, hstep.holdsArenas, hstep.noneLost⟩

end

/-- **Who holds the arenas along a run.** Requests own their arenas throughout a run, and none is
lost or released twice, exactly if no open connection waits for an arena when a request is
released. -/
theorem meets_keepsArenas_iff (cfg : GlobalConfig) (app : Application) (bases : List UInt64)
    (capacity : UInt64) (events : List Event) :
    Meets (step cfg app) (KeepsArenas cfg app) (initial bases capacity) events
      ↔ Meets (step cfg app) (AtReleases cfg fun w _ _ ↦ NoneWaiting w) (initial bases capacity)
        events :=
  meets_congr_of_invariant (I := Balanced .steady) (fun _ _ hw hnone ↦ hw.step app hnone)
    (fun _ e hw ↦ keepsArenas_iff hw app e) (balanced_initial bases capacity)

example : Meets (step {} silent) (AtReleases {} fun w _ _ ↦ NoneWaiting w)
    (initial [0x10000] 0x10000) answeredInTime := by decide +kernel

/-- A second request begins while the only arena is taken. The first one is answered and its answer
sent before its task has ended, so that the sweep leaves it to housekeeping. -/
def answeredWhileWaiting : List Event :=
  [.accept [5],
    .io 5 ⟨true, false, false⟩
      (emptyRequest ++ [1, 1, 0, 2, 0, 8, 0, 0, 0, 1, 0, 0, 0, 0, 0, 0]) .again,
    .worker 0, .worker 0, .pendingOutput, .outside 1 [.sent 99],
    .io 5 ⟨false, true, false⟩ [] .again, .worker 0, .worker 0]

/-- Housekeeping closes the connection and loses the arena the second request has been given. -/
theorem not_meets_keepsArenas_answeredWhileWaiting :
    ¬Meets (step {} silent) (KeepsArenas {} silent) (initial [0x10000] 0x10000)
      (answeredWhileWaiting ++ [.housekeeping]) := by
  intro h
  obtain ⟨-, hkeeps, -⟩ := (meets_append _ _ _).mp h
  have hinUse : (step {} silent (answeredWhileWaiting.foldl (step {} silent)
      (initial [0x10000] 0x10000)) .housekeeping).arenas.holder 0 = some 1 := by decide +kernel
  have hconns : (step {} silent (answeredWhileWaiting.foldl (step {} silent)
      (initial [0x10000] 0x10000)) .housekeeping).conns.keys = [] := by decide +kernel
  have hws : (step {} silent (answeredWhileWaiting.foldl (step {} silent)
      (initial [0x10000] 0x10000)) .housekeeping).wsArenas = [] := by decide +kernel
  rcases (hkeeps.noneLost.inUse_iff 0).mp (by rw [hinUse, Option.isSome_some]) with
    ⟨fd, c, id, r, hs, -⟩ | ⟨n, hn⟩
  · have hmem := AList.lookup_isSome.mp (by rw [hs.conn, Option.isSome_some])
    rw [AList.mem_keys, hconns] at hmem
    cases hmem
  · rw [hws] at hn
    cases hn

end Wasapi.FcgiConn
