import Wasapi.FcgiConn.Retention

/-!
# What keeps a connection open

Whether a connection is closed is decided at the end of `handle_io`, behind the flushes and the
sweep, or by housekeeping. Whether anything will speak against it can be told earlier, from what the
event has read: a request that the sweep does not take and that no record left in `in_buf` is for, a
worker, or more output than the coming `send` calls take. A connection that has one of these is
`Engaged`, and it is still occupied when the question is asked.

In the same way a request that has been answered and carries no KEEP_CONN is found later, in the map
or among the requests the sweep has taken from it.

So the two guards below speak of the records that have been received, the flags of the requests and
the results of `send`, and of those connections only that the event can ask about.
-/

namespace Wasapi.FcgiConn

open Fastcgi

variable {cfg : GlobalConfig} {app : Application} {w w' : World}

/-! ## Engaged connections

Three things speak against closing: a request in the map, a worker, and output. Each of them is told
from what is there behind the reading: which requests no record can change any more, who works, and
how much more there is to send than `send` will take. -/

/-- A request with flags `q` that none of the records is for, or a worker, or more than `b` octets
to send. -/
def Engaged (q : RequestFlags → Prop) (recs : List Record) (b : ℕ) (c : Connection) : Prop :=
  (∃ e ∈ c.requests.entries, q e.2.flags ∧ ∀ rec ∈ recs, rec.requestId ≠ e.1) ∨
    0 < c.activeWorkers ∨ b < unsent c

instance (q : RequestFlags → Prop) [DecidablePred q] (recs : List Record) (b : ℕ)
    (c : Connection) : Decidable (Engaged q recs b c) := by
  unfold Engaged
  infer_instance

/-- Neither answered, failed nor aborted: the sweep leaves such a request in the map. -/
def Pending (f : RequestFlags) : Prop :=
  f.responded = false ∧ f.failed = false ∧ f.aborted = false

/-- A request with these flags speaks against closing its connection. -/
def Holding (f : RequestFlags) : Prop := f.responded = false ∨ f.keepConnection = true

/-- An answered request with these flags allows the server to close its connection. -/
def Dismissing (f : RequestFlags) : Prop := f.responded = true ∧ f.keepConnection = false

instance : DecidablePred Pending := fun f ↦ by
  unfold Pending
  infer_instance

instance : DecidablePred Holding := fun f ↦ by
  unfold Holding
  infer_instance

instance : DecidablePred Dismissing := fun f ↦ by
  unfold Dismissing
  infer_instance

private theorem Engaged.occupied {q : RequestFlags → Prop} {recs : List Record} {b : ℕ}
    {c : Connection}
    (h : Engaged q recs b c) : Occupied c ∨ ∃ e ∈ c.requests.entries, q e.2.flags := by
  rcases h with ⟨e, he, hflags, -⟩ | hworkers | hunsent
  · exact .inr ⟨e, he, hflags⟩
  · exact .inl (.inr (.inr hworkers.ne'))
  · refine .inl (.inr (.inl fun heq ↦ ?_))
    rw [unsent, heq, Nat.sub_self] at hunsent
    exact absurd hunsent (Nat.not_lt_zero b)

/-- Either it is engaged, or one of its requests with flags `p` is among the `swept` ones. -/
def Backed (q p : RequestFlags → Prop) (swept : List (ConnRef × RequestFlags)) (k : ℤ)
    (recs : List Record) (b : ℕ) (c : Connection) : Prop :=
  Engaged q recs b c ∨ ∃ s ∈ swept, s.1 = ⟨k, c.cid⟩ ∧ p s.2

/-- Whether it holds of an open connection with `P` is decided by what is left of it. -/
structure Inherited (P : Connection → Prop) : Prop where
  vacant {c} : Vacant c → c.closed = false → ¬P c
  retains {gone b b' c c'} : Retains gone b b' c c' → c'.closed = false → P c' → P c

private theorem inherited_unfinished : Inherited Unfinished :=
  ⟨fun h hopen ↦ h.2 hopen, fun h hopen hunfinished ↦ h.unfinished hopen hunfinished⟩

private theorem inherited_accepted : Inherited fun c ↦ c.accepted = true :=
  ⟨fun h _ haccepted ↦ Bool.false_ne_true (h.1.symm.trans haccepted),
    fun h _ haccepted ↦ h.accepted.symm.trans haccepted⟩

section Sustained

variable {P : Connection → Prop} {q p : RequestFlags → Prop} {k : ℤ}
  {swept : List (ConnRef × RequestFlags)}

/-- The connection at `k` is backed, if it is open and has `P`. -/
def Sustained (P : Connection → Prop) (q p : RequestFlags → Prop)
    (swept : List (ConnRef × RequestFlags)) (k : ℤ) (w : World) : Prop :=
  ∀ c, w.conns.lookup k = some c → c.closed = false → P c →
    Backed q p swept k (recordFramer.frames c.inBuf) (takes w.sends) c

/-- A request that has not gone is still there, and what else engages a connection is left too. -/
theorem Retains.engaged {gone : UInt16 → Prop} {b b' : ℕ} {c c' : Connection}
    (h : Retains gone b b' c c') (hc : Engaged q (recordFramer.frames c.inBuf) b c) :
    Engaged q (recordFramer.frames c'.inBuf) b' c' ∨
      ∃ id r, gone id ∧ c.requests.lookup id = some r ∧ q r.flags := by
  rcases hc with ⟨⟨id, r⟩, he, hq, huntouched⟩ | hworkers | hunsent
  · have hr : c.requests.lookup id = some r := AList.mem_lookup_iff.mpr he
    by_cases hgone : gone id
    · exact .inr ⟨id, r, hgone, hr, hq⟩
    · obtain ⟨huntouched', r', hr', hflags⟩ := h.requests hgone huntouched hr
      exact .inl (.inl ⟨⟨id, r'⟩, AList.mem_lookup_iff.mp hr', hflags ▸ hq, huntouched'⟩)
  · exact .inl (.inr (.inl (hworkers.trans_le h.activeWorkers)))
  · refine .inl (.inr (.inr ?_))
    have := h.unsent
    omega

private theorem Sustained.retained (hP : Inherited P) (h : Sustained P q p swept k w)
    (hw : Retained Nothing w w') : Sustained P q p swept k w' := by
  intro c' hc' hopen hPc'
  rcases hw.conns hc' with ⟨c, hc, hretains⟩ | hvacant
  · rcases h c hc (hretains.isOpen hopen) (hP.retains hretains hopen hPc') with hengaged | hswept
    · rcases hretains.engaged hengaged with hengaged | ⟨id, r, hgone, -⟩
      · exact .inl hengaged
      · exact False.elim hgone
    · rw [← hretains.cid] at hswept
      exact .inr hswept
  · exact absurd hPc' (hP.vacant hvacant hopen)

/-! ## The sweep

The sweep takes answered, failed and aborted requests. One that is pending stays, and one that is
answered without KEEP_CONN is remembered, so in either case what was backed in front of the sweep is
backed behind it. -/

/-- The sweep takes answered, failed and aborted requests. -/
theorem not_pending_of_mem_sweptRequest {fd : ℤ} {id : UInt16} {s : ConnRef × RequestFlags}
    (hs : s ∈ sweptRequest fd w id) : s.1.fd = fd ∧ ¬Pending s.2 := by
  rw [sweptRequest] at hs
  split at hs
  · cases hs
  split at hs
  · cases hs
  split at hs
  · next hover =>
    obtain rfl := List.mem_singleton.mp hs
    refine ⟨rfl, fun hpending ↦ ?_⟩
    obtain ⟨hresponded, hfailed, haborted⟩ := hpending
    simp only at hresponded hfailed haborted
    simp [hresponded, hfailed, haborted] at hover
  · cases hs

variable (cfg) in
private theorem retained_sweepRequest (fd : ℤ) (id : UInt16) (w : World) :
    Retained (fun k i ↦ k = fd ∧ i = id) w (sweepRequest cfg fd w id) := by
  have hrelease {w₁ : World} (hw₁ : Retained Nothing w w₁) :
      Retained (fun k i ↦ k = fd ∧ i = id) w
        (eraseRequest fd id (releaseRequest cfg fd id w₁)) := by
    have hreleased := hw₁.trans (retained_acts (acts_releaseRequest cfg silent fd id w₁))
    refine Retained.trans ⟨hreleased.sends, fun hc' ↦ (hreleased.conns hc').imp_left ?_⟩ ?_
    · exact fun ⟨c, hc, hretains⟩ ↦ ⟨c, hc, { hretains with
        requests := fun _ ↦ hretains.requests fun hnothing ↦ hnothing }⟩
    · refine retained_updateConn _ fd fun c _ b ↦ .of_requests b fun i r hi hr ↦ ⟨r, ?_, rfl⟩
      rw [AList.lookup_erase_ne fun heq ↦ hi ⟨rfl, heq⟩]
      exact hr
  rcases sweepRequest_cases cfg fd w id with heq | ⟨r, -, -, ⟨-, heq⟩ | ⟨-, -, heq⟩⟩
  · rw [heq]
    exact .refl _ w
  · rw [heq]
    have hfinalize : Retained Nothing w (act cfg silent w (.finalize fd id)) :=
      retained_act w (.finalize fd id)
    exact hrelease hfinalize
  · rw [heq]
    exact hrelease (.refl _ w)

theorem Sustained.append (h : Sustained P q p swept k w) (swept' : List (ConnRef × RequestFlags)) :
    Sustained P q p (swept ++ swept') k w := by
  refine fun c hc hopen hPc ↦ (h c hc hopen hPc).imp_right fun ⟨s, hs, hsc⟩ ↦ ?_
  exact ⟨s, List.mem_append_left _ hs, hsc⟩

/-- **One turn of the sweep** takes at most the request `id` from the map of its connection, and
then it is remembered. -/
theorem Sustained.sweepRequest (hP : Inherited P) {fd : ℤ}
    (hqp : k = fd → ∀ f, q f → ¬Pending f → p f) (id : UInt16) (h : Sustained P q p swept k w) :
    Sustained P q p (swept ++ sweptRequest fd w id) k (sweepRequest cfg fd w id) := by
  have hretained := retained_sweepRequest cfg fd id w
  rcases sweepRequest_cases cfg fd w id with heq | ⟨r, hr, hidle, hended⟩
  · rw [heq]
    exact h.append _
  have hover : r.flags.responded = true ∨ r.flags.failed = true ∨ r.flags.aborted = true :=
    hended.imp And.left fun hended ↦ hended.2.1
  intro c' hc' hopen hPc'
  rcases hretained.conns hc' with ⟨c, hc, hretains⟩ | hvacant
  · rcases h c hc (hretains.isOpen hopen) (hP.retains hretains hopen hPc') with
      hengaged | ⟨s, hs, hsc, hps⟩
    · rcases hretains.engaged hengaged with hengaged | ⟨i, ri, ⟨rfl, hi⟩, hri, hq⟩
      · exact .inl hengaged
      -- the request was taken in this turn
      rw [hi] at hri
      rw [hc, Option.bind_some, hri, Option.some.injEq] at hr
      subst hr
      have hswept : sweptRequest k w id = [(⟨k, c.cid⟩, ri.flags)] := by
        rw [sweptRequest, hc]
        simp only [hri]
        rw [if_pos]
        simp only [hidle, Bool.not_false, Bool.true_and, Bool.or_eq_true, or_assoc]
        exact hover
      have hended : (⟨k, c.cid⟩, ri.flags) ∈ sweptRequest k w id := by
        rw [hswept]
        exact List.mem_singleton_self _
      refine .inr ⟨_, List.mem_append_right _ hended, ?_, ?_⟩
      · rw [hretains.cid]
      · exact hqp rfl _ hq (not_pending_of_mem_sweptRequest hended).2
    · exact .inr ⟨s, List.mem_append_left _ hs, by rw [hsc, hretains.cid], hps⟩
  · exact absurd hPc' (hP.vacant hvacant hopen)

variable (cfg) in
/-- **The sweep**, by induction on its turns: what it has taken is remembered. -/
theorem Sustained.sweepRequests (hP : Inherited P) (fd : ℤ)
    (hqp : k = fd → ∀ f, q f → ¬Pending f → p f) (ids : List UInt16)
    (h : Sustained P q p swept k w) :
    Sustained P q p (swept ++ sweptRequests cfg fd w ids) k
      (ids.foldl (FcgiConn.sweepRequest cfg fd) w) := by
  induction ids generalizing w swept with
  | nil =>
    rw [sweptRequests, List.append_nil]
    exact h
  | cons id ids ih =>
    rw [sweptRequests, List.foldl_cons, ← List.append_assoc]
    exact ih (h.sweepRequest hP hqp id)

end Sustained

/-! ## From the reading to the question

Behind the reading an event flushes, serves waiting connections and releases requests until it asks.
What is engaged is engaged with regard to the octets `send` can still take in all of that and to the
records that can still be handled. -/

section Events

variable (cfg)

/-- The world when an event has read and handled its input. -/
def afterReading (w : World) : Event → World
  | .io fd events data ending =>
    let w := if events.hupOrErr then w.updateConn fd fun c ↦ { c with closed := true } else w
    if events.epollIn then processFcgi cfg fd (readAll fd data ending w) else w
  | _ => w

/-- The descriptors an event may ask about: `handle_io` asks about its own one and about those in
the close queue, to which the connections it flushes may add theirs. -/
def asked (w : World) : Event → List ℤ
  | .io fd events data ending =>
    let w := afterReading cfg w (.io fd events data ending)
    fd :: (w.closeQueue ++
      (fd :: w.waitingConns).filterMap fun k ↦ (w.conns.lookup k).map Connection.fd)
  | .housekeeping => w.conns.keys
  | _ => []

/-- The records a connection has received that an event can still handle. -/
def unhandled (c : Connection) : Event → List Record
  | .io _ _ _ _ => recordFramer.frames c.inBuf
  | _ => []

/-- The number of octets the `send` calls of an event can take. -/
def budget (w : World) : Event → ℕ
  | .io _ _ _ _ => takes w.sends
  | _ => 0

/-- The event sweeps the map of the connection at `k`. -/
def Sweeps (k : ℤ) : Event → Prop
  | .io fd _ _ _ => k = fd
  | _ => False

instance (k : ℤ) : DecidablePred (Sweeps k) := fun e ↦ by
  rcases e with _ | _ <;> unfold Sweeps <;> infer_instance

/-- The requests that hold a connection open through the event. -/
def HoldingThrough (k : ℤ) (e : Event) (f : RequestFlags) : Prop :=
  if Sweeps k e then Pending f else Holding f

/-- The requests that hold a connection open through the event, or will have been answered on it
without KEEP_CONN. -/
def DecidedThrough (k : ℤ) (e : Event) (f : RequestFlags) : Prop :=
  HoldingThrough k e f ∨ Dismissing f

private theorem HoldingThrough.holding {k : ℤ} {e : Event} {f : RequestFlags}
    (h : HoldingThrough k e f) :
    Holding f := by
  rw [HoldingThrough] at h
  split at h
  · exact .inl h.1
  · exact h

/-- The sweep takes none of them. -/
theorem HoldingThrough.pending {k : ℤ} {e : Event} {f : RequestFlags} (h : HoldingThrough k e f)
    (hsweeps : Sweeps k e) : Pending f := by
  rwa [HoldingThrough, if_pos hsweeps] at h

instance (k : ℤ) (e : Event) : DecidablePred (HoldingThrough k e) := fun f ↦ by
  unfold HoldingThrough
  infer_instance

instance (k : ℤ) (e : Event) : DecidablePred (DecidedThrough k e) := fun f ↦ by
  unfold DecidedThrough
  infer_instance

/-- **The guard of unfinished connections.** Every open connection the event can ask about that has,
behind the reading, a record that is not complete or not served is engaged. -/
def EngagedIfUnfinished (w : World) (e : Event) : Prop :=
  ∀ k ∈ asked cfg w e, ∀ c ∈ (afterReading cfg w e).conns.lookup k, c.closed = false →
    Unfinished c → Engaged (HoldingThrough k e) (unhandled c e) (budget w e) c

/-- **The guard of KEEP_CONN.** Every open connection the event can ask about is engaged behind the
reading, or a request without KEEP_CONN has been answered on it. -/
def EngagedOrDismissed (s : World × List (ConnRef × RequestFlags)) (e : Event) : Prop :=
  ∀ k ∈ asked cfg s.1 e, ∀ c ∈ (afterReading cfg s.1 e).conns.lookup k, c.accepted = true →
    c.closed = false →
      Backed (DecidedThrough k e) Dismissing s.2 k (unhandled c e) (budget s.1 e) c

instance (w : World) (e : Event) : Decidable (EngagedIfUnfinished cfg w e) := by
  unfold EngagedIfUnfinished
  infer_instance

instance (s : World × List (ConnRef × RequestFlags)) (e : Event) :
    Decidable (EngagedOrDismissed cfg s e) := by
  unfold EngagedOrDismissed Backed
  infer_instance

end Events

section Io

variable {fd : ℤ} {events : IoEvents} {data : Bytes} {ending : RecvEnd}

variable (cfg fd events data ending) in
private theorem sends_afterReading (w : World) :
    (afterReading cfg w (.io fd events data ending)).sends = w.sends := by
  have hread (w : World) : (processFcgi cfg fd (readAll fd data ending w)).sends = w.sends :=
    (sendQueues_processFcgi cfg fd _).1.trans (by rw [readAll, World.updateConn_eq])
  have hhup : (if events.hupOrErr then w.updateConn fd fun c ↦ { c with closed := true }
      else w).sends = w.sends := by
    split
    · rw [World.updateConn_eq]
    · rfl
  rw [afterReading]
  split
  · exact (hread _).trans hhup
  · exact hhup

variable (cfg fd events data ending) in
/-- What the event does to the descriptor queues when it has read. -/
theorem serveIo_eq (w : World) : ∃ waitingConns : List ℤ,
    (∀ k ∈ waitingConns, k = fd ∨
      k ∈ (afterReading cfg w (.io fd events data ending)).waitingConns) ∧
    let w₁ := { afterReading cfg w (.io fd events data ending) with waitingConns := waitingConns }
    let w₂ := if events.epollIn then flushConnection fd w₁ else w₁
    serveIo cfg fd events data ending w
      = if events.epollOut then flushConnection fd w₂ else w₂ := by
  rw [serveIo, afterReading]
  simp only
  generalize (if events.hupOrErr then w.updateConn fd fun c ↦ { c with closed := true } else w) = w₀
  cases events.epollIn with
  | false => exact ⟨w₀.waitingConns, fun _ hk ↦ .inr hk, rfl⟩
  | true =>
    simp only [if_true, handleInput]
    set w₁ := processFcgi cfg fd (readAll fd data ending w₀)
    generalize (!((readAll fd data ending w₀).conns.lookup fd).any (fun c ↦ c.waitingForArena) &&
      (w₁.conns.lookup fd).any fun c ↦ c.waitingForArena) = starts
    cases starts with
    | false => exact ⟨w₁.waitingConns, fun _ hk ↦ .inr hk, rfl⟩
    | true =>
      refine ⟨w₁.waitingConns ++ [fd], fun k hk ↦ ?_, rfl⟩
      rw [List.mem_append, List.mem_singleton] at hk
      exact hk.symm

variable (cfg fd events data ending) in
private theorem retained_serveIo (w : World) :
    Retained Nothing (afterReading cfg w (.io fd events data ending))
      (serveIo cfg fd events data ending w) := by
  obtain ⟨waitingConns, -, heq⟩ := serveIo_eq cfg fd events data ending w
  set w₁ := { afterReading cfg w (.io fd events data ending) with waitingConns := waitingConns }
  have hflush (b : Bool) (w : World) :
      Retained Nothing w (if b then flushConnection fd w else w) := by
    split
    · exact retained_flushConnection fd w
    · exact .refl _ w
  have hwaiting : Retained Nothing (afterReading cfg w (.io fd events data ending)) w₁ :=
    .of_lookup rfl fun _ _ hc ↦ hc
  rw [heq]
  exact hwaiting.trans ((hflush _ w₁).trans (hflush _ _))

variable (cfg fd events data ending) in
/-- **Who is asked about.** Behind the sweep the close queue holds nobody else. -/
theorem mem_asked {k : ℤ} (hk : k ∈ (queueClose fd
      (sweep cfg fd (serveIo cfg fd events data ending w))).closeQueue) :
    k ∈ asked cfg w (.io fd events data ending) := by
  set w₀ := afterReading cfg w (.io fd events data ending) with hw₀
  have hmem {k : ℤ} : k ∈ asked cfg w (.io fd events data ending) ↔ k = fd ∨ k ∈ w₀.closeQueue ∨
      ∃ k', (k' = fd ∨ k' ∈ w₀.waitingConns) ∧ ∃ c, w₀.conns.lookup k' = some c ∧ c.fd = k := by
    simp [asked, hw₀, or_and_right, exists_or]
  obtain ⟨waitingConns, hwaiting, heq⟩ := serveIo_eq cfg fd events data ending w
  have hasks₁ : Asks (· ∈ asked cfg w (.io fd events data ending))
      (fun k ↦ k = fd ∨ k ∈ w₀.waitingConns) { w₀ with waitingConns := waitingConns } :=
    ⟨fun hk ↦ hmem.mpr (.inr (.inl hk)), fun hk ↦ hwaiting _ hk,
      fun hk hc ↦ hmem.mpr (.inr (.inr ⟨_, hk, _, hc, rfl⟩))⟩
  have hflush (b : Bool) {w₁ : World} (h : Asks (· ∈ asked cfg w (.io fd events data ending))
      (fun k ↦ k = fd ∨ k ∈ w₀.waitingConns) w₁) :
      Asks (· ∈ asked cfg w (.io fd events data ending))
        (fun k ↦ k = fd ∨ k ∈ w₀.waitingConns) (if b then flushConnection fd w₁ else w₁) := by
    split
    · exact h.flushConnection (.inl rfl)
    · exact h
  have hserved := hflush events.epollOut (hflush events.epollIn hasks₁)
  rw [← heq] at hserved
  have hswept := List.foldlRecOn
    (requestIds fd (serveIo cfg fd events data ending w)) (FcgiConn.sweepRequest cfg fd)
    hserved fun w' hw' id _ ↦ hw'.sweepRequest fd id
  rw [queueClose] at hk
  split at hk
  · rw [List.mem_append, List.mem_singleton] at hk
    exact hk.elim hswept.closeQueue fun hk ↦ hmem.mpr (.inl hk)
  · exact hswept.closeQueue hk

variable {P : Connection → Prop} {q : ℤ → RequestFlags → Prop} {p : RequestFlags → Prop}
  {earlier : List (ConnRef × RequestFlags)} {Q : World → ℤ → Prop}

variable (earlier) in
/-- **From the reading to the question.** Whoever is backed behind the reading is backed when the
event asks about it. -/
theorem atChecks_io (hP : Inherited P) (hqp : ∀ f, q fd f → ¬Pending f → p f)
    (hreading : ∀ k ∈ asked cfg w (.io fd events data ending),
      Sustained P (q k) p earlier k (afterReading cfg w (.io fd events data ending)))
    (hQ : ∀ w' k, Sustained P (q k) p (earlier ++ swept cfg w (.io fd events data ending)) k w' →
      Q w' k) : AtChecks cfg Q w (.io fd events data ending) := by
  intro hsome
  set served := serveIo cfg fd events data ending w with hserved
  have hswept : swept cfg w (.io fd events data ending)
      = sweptRequests cfg fd served (requestIds fd served) := by
    rw [swept, if_pos hsome]
  rw [hswept] at hQ
  refine meets_of_forall_mem (J := fun k w' ↦ Sustained P (q k) p
    (earlier ++ sweptRequests cfg fd served (requestIds fd served)) k w') ?_ ?_ ?_
  · exact fun w' cfd k h ↦ h.retained hP (retained_drainTurn w' cfd)
  · exact fun w' cfd h ↦ hQ _ cfd (h.retained hP (retained_indexConns cfd w'))
  · intro k hk
    have hbefore := (hreading k (mem_asked cfg fd events data ending hk)).retained hP
      (retained_serveIo cfg fd events data ending w)
    have hbehind := hbefore.sweepRequests cfg hP fd
      (fun hkfd ↦ hkfd ▸ hqp) (requestIds fd served)
    refine hbehind.retained hP (.of_lookup ?_ fun k c hc ↦ ?_)
    · rw [queueClose]
      split <;> rfl
    · rw [queueClose] at hc
      split at hc <;> exact hc

end Io

/-! ## Housekeeping

Housekeeping reads nothing, and it answers requests that are overdue before it asks. An answer is
output that nobody sends before the question, so it engages its connection as the request did. -/

variable (cfg) in
/-- The timeout checks of a connection mark requests and append to the output. -/
theorem checked_eq (clock : ℚ) (c : Connection) : ∃ requests outBuf,
    checked cfg clock c = { c with requests := requests, outBuf := outBuf } := by
  refine List.foldlRecOn (motive := fun c' : Connection ↦ ∃ requests outBuf,
    c' = { c with requests := requests, outBuf := outBuf }) _ _ ⟨c.requests, c.outBuf, rfl⟩ ?_
  rintro _ ⟨requests, outBuf, rfl⟩ id _
  rw [timedOut]
  split
  · exact ⟨requests, outBuf, rfl⟩
  split
  · exact ⟨_, _, rfl⟩
  · exact ⟨requests, outBuf, rfl⟩

/-- A request that is not overdue is left alone. -/
theorem lookup_checked {clock : ℚ} {c : Connection} {id : UInt16} {r : Request}
    (hr : c.requests.lookup id = some r) (hpunctual : ¬Overdue cfg clock r) :
    (checked cfg clock c).requests.lookup id = some r := by
  refine List.foldlRecOn (motive := fun c' : Connection ↦ c'.requests.lookup id = some r) _ _ hr
    fun c' hc' i _ ↦ ?_
  by_cases hi : id = i
  · subst hi
    rw [timedOut_of_not fun r' hr' ↦ ?_]
    · exact hc'
    · obtain rfl := Option.some.inj (hc'.symm.trans hr')
      exact hpunctual
  · rw [timedOut]
    split
    · exact hc'
    split
    · exact (AList.lookup_insert_ne hi).trans hc'
    · exact hc'

/-- **Timeouts keep a connection engaged**: a request that has expired leaves its END_REQUEST to be
sent. -/
theorem Engaged.checked {q : RequestFlags → Prop} {clock : ℚ} {c : Connection}
    (h : Engaged q [] 0 c) (hle : c.outPos ≤ c.outBuf.length) :
    Engaged q [] 0 (checked cfg clock c) := by
  obtain ⟨happends, hworkers⟩ := appends_checked cfg clock c
  rcases h with ⟨⟨id, r⟩, he, hq, -⟩ | hactive | hunsent
  · have hr : c.requests.lookup id = some r := AList.mem_lookup_iff.mpr he
    by_cases hlate : Overdue cfg clock r
    · refine .inr (.inr ?_)
      have hlonger := length_lt_checked hr hlate
      rw [unsent, happends.outPos]
      omega
    · exact .inl ⟨⟨id, r⟩, AList.mem_lookup_iff.mp (lookup_checked hr hlate), hq,
        fun _ hrec ↦ absurd hrec List.not_mem_nil⟩
  · exact .inr (.inl (hworkers ▸ hactive))
  · refine .inr (.inr ?_)
    have hle := happends.le
    rw [unsent, happends.outPos]
    rw [unsent] at hunsent
    omega

/-- No more has been sent than there was to send. -/
def AllSent (w : World) : Prop :=
  ∀ k c, w.conns.lookup k = some c → c.outPos ≤ c.outBuf.length

theorem AllSent.step (h : AllSent w) (e : Event) : AllSent (step cfg app w e) := by
  intro k c' hc'
  rcases (descends_step cfg app w e).conns hc' with ⟨c, hc, hages⟩ | ⟨-, hnumbered⟩
  · exact hages.sent (h k c hc)
  · exact hnumbered.le

private theorem allSent_initial (bases : List UInt64) (capacity : UInt64) :
    AllSent (initial bases capacity) := fun _ _ hc ↦ (nomatch hc)

/-- What housekeeping asks about is what the timeout checks have made of the connections. -/
theorem lookup_of_asked {k : ℤ} {c' : Connection}
    (hc' : (w.conns.keys.foldl (timeoutRequests cfg) w).conns.lookup k = some c') :
    k ∈ asked cfg w .housekeeping ∧
      ∃ c, w.conns.lookup k = some c ∧ c' = checked cfg w.clock c := by
  rw [lookup_timeouts, Option.map_eq_some_iff] at hc'
  obtain ⟨c, hc, rfl⟩ := hc'
  refine ⟨?_, c, hc, rfl⟩
  rw [asked, ← AList.mem_keys, ← AList.lookup_isSome, hc, Option.isSome_some]

/-! ## No connection is closed too early

An open connection with an unfinished record is engaged when the event has read, so it is occupied
when the event asks, and the question is answered with no. -/

private theorem atChecks_of_engaged (hw : AllSent w) {e : Event} (h : EngagedIfUnfinished cfg w e) :
    AtChecks cfg OccupiedIfUnfinished w e := by
  cases e with
  | io fd events data ending =>
    refine atChecks_io (P := Unfinished) (p := fun _ ↦ False)
      (q := fun k ↦ HoldingThrough k (.io fd events data ending)) [] inherited_unfinished ?_ ?_ ?_
    · exact fun f hf hnot ↦ hnot (hf.pending rfl)
    · intro k hk c hc hopen hunfinished
      rw [sends_afterReading]
      exact .inl (h k hk c hc hopen hunfinished)
    · intro w' k hsustained c hc hopen hunfinished
      rcases hsustained c hc hopen hunfinished with hengaged | ⟨s, -, -, hfalse⟩
      · exact hengaged.occupied.elim id fun ⟨e, he, hflags⟩ ↦ .inl ⟨e, he, hflags.holding⟩
      · exact hfalse.elim
  | housekeeping =>
    intro k _ c' hc' hopen hunfinished
    obtain ⟨hk, c, hc, rfl⟩ := lookup_of_asked hc'
    obtain ⟨requests, outBuf, heq⟩ := checked_eq cfg w.clock c
    have hengaged : Engaged (HoldingThrough k .housekeeping) [] 0 c := by
      refine h k hk c hc ?_ ?_
      · rwa [heq] at hopen
      · rwa [heq] at hunfinished
    exact (hengaged.checked (hw k c hc)).occupied.elim id
      fun ⟨e, he, hflags⟩ ↦ .inl ⟨e, he, hflags.holding⟩
  | _ => exact trivial

/-- A request is pending, and the first octet of another record has arrived, when housekeeping comes
by. -/
def secondRecordBegun : List Event :=
  [.accept [5], .io 5 ⟨true, false, false⟩ (emptyRequest.take 16 ++ [1]) .again, .housekeeping]

private theorem honoursKeepConn_of_backed {k : ℤ} {w' : World}
    {swept : List (ConnRef × RequestFlags)} (recs : Connection → List Record) {b : ℕ}
    {q : RequestFlags → Prop}
    (hq : ∀ f, q f → Holding f ∨ Dismissing f)
    (h : ∀ c, w'.conns.lookup k = some c → c.accepted = true → c.closed = false →
      Backed q Dismissing swept k (recs c) b c) : HonoursKeepConn swept w' k := by
  intro c hc haccepted hopen ⟨hsweptKeep, hkeep⟩
  rw [← Bool.not_eq_true, shouldCloseConnection_iff hopen, not_not]
  rcases h c hc haccepted hopen with hengaged | ⟨s, hs, hconn, hresponded, hnot⟩
  · rcases hengaged.occupied with hoccupied | ⟨e, he, hflags⟩
    · exact hoccupied
    rcases hq _ hflags with hholding | ⟨hresponded, hnot⟩
    · exact .inl ⟨e, he, hholding⟩
    · rw [hkeep e he hresponded] at hnot
      cases hnot
  · rw [hsweptKeep s hs hconn hresponded] at hnot
    cases hnot

private theorem keepsConnections_of_engaged {s : World × List (ConnRef × RequestFlags)}
    (hs : AllSent s.1) {e : Event} (h : EngagedOrDismissed cfg s e) : KeepsConnections cfg s e := by
  have hq (k : ℤ) (e : Event) (f : RequestFlags) (hf : DecidedThrough k e f) :
      Holding f ∨ Dismissing f := hf.imp_left HoldingThrough.holding
  rw [KeepsConnections]
  cases e with
  | io fd events data ending =>
    refine atChecks_io (p := Dismissing)
      (q := fun k ↦ DecidedThrough k (.io fd events data ending)) s.2 inherited_accepted ?_ ?_ ?_
    · exact fun f hf hnot ↦ hf.elim (fun hf ↦ absurd (hf.pending rfl) hnot) fun hf ↦ hf
    · intro k hk c hc hopen haccepted
      rw [sends_afterReading]
      exact h k hk c hc haccepted hopen
    · intro w' k hsustained
      exact honoursKeepConn_of_backed _ (hq k _) fun c hc haccepted hopen ↦
        hsustained c hc hopen haccepted
  | housekeeping =>
    intro k _
    refine honoursKeepConn_of_backed (b := 0) (fun _ ↦ []) (hq k .housekeeping)
      fun c' hc' haccepted hopen ↦ ?_
    obtain ⟨hk, c, hc, rfl⟩ := lookup_of_asked hc'
    obtain ⟨requests, outBuf, heq⟩ := checked_eq cfg s.1.clock c
    have hbacked : Backed (DecidedThrough k .housekeeping) Dismissing s.2 k [] 0 c := by
      refine h k hk c hc ?_ ?_
      · rwa [heq] at haccepted
      · rwa [heq] at hopen
    refine hbacked.imp (fun hengaged ↦ hengaged.checked (hs k c hc)) fun ⟨t, ht, hconn, hp⟩ ↦ ?_
    exact ⟨t, List.mem_append_left _ ht, by rw [hconn, heq], hp⟩
  | _ => exact trivial

/-- A request with KEEP_CONN is answered, and its answer sent, while a second one has begun. -/
def secondRequestBegun : List Event :=
  [.accept [5], .io 5 ⟨true, false, false⟩
      (keepConnRequest ++ [1, 1, 0, 2, 0, 8, 0, 0, 0, 1, 1, 0, 0, 0, 0, 0]) .again,
    .worker 0, .worker 0, .worker 0, .worker 0, .pendingOutput, .outside 1 [.sent 99],
    .io 5 ⟨false, true, false⟩ [] .again, .housekeeping]

end Wasapi.FcgiConn
