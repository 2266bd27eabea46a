import Wasapi.Library.Transitions
import Wasapi.Websockets.Bookkeeping

/-!
# Where replies go

A reply is kept in `g_pending_frames` under the number of its connection, and the drain gives it to
whatever connection has that number then. The connection may have been closed and its number
accepted again while the worker was busy; then the reply goes to a stranger.

Connections are numbered in the order they are accepted, and `accepts` remembers which number
`accept` returned for each. A reply is delivered correctly exactly when no later connection has been
given its number.
-/

namespace Wasapi.Websockets

open Fastcgi

/-- Every frame has been appended to the output of the connection it answers. -/
def Routed (s : Server) : Prop := ∀ d ∈ s.deliveries, d.receiver = d.origin

/-- If there is a client with the number of the frame, `accept` has not returned that number since
the connection the frame answers. -/
def IsCurrent (s : Server) (pf : PendingFrame) : Prop :=
  (s.clients.lookup pf.fd).isSome = true → ∀ p ∈ s.accepts, p.1 = pf.fd → p.2 ≤ pf.origin

/-- The frames that are drained are current. -/
def FramesCurrent (s : Server) : Event → Prop
  | .pending => s.terminated = false → ∀ pf ∈ s.pendingFrames, IsCurrent s pf
  | _ => True

/-- A client is the last connection its number was returned for, and every task and every frame is
for a connection that was accepted under its number. -/
structure Numbered (s : Server) : Prop where
  fd {fd c} : s.clients.lookup fd = some c → c.fd = fd
  accepted {fd c} : s.clients.lookup fd = some c → (fd, c.cid) ∈ s.accepts
  last {fd c} : s.clients.lookup fd = some c → ∀ p ∈ s.accepts, p.1 = fd → p.2 ≤ c.cid
  accept_lt {p} : p ∈ s.accepts → p.2 < s.nextCid
  task {t} : t ∈ s.tasks → (t.fd, t.origin) ∈ s.accepts
  frame {pf} : pf ∈ s.pendingFrames → (pf.fd, pf.origin) ∈ s.accepts

variable {cfg : GlobalConfig} {app : Application} {s s' : Server}

/-- Connections may go, and tasks and frames may come if they are for known connections. -/
theorem Numbered.of_accepts_eq (h : Numbered s) (haccepts : s'.accepts = s.accepts)
    (hnext : s'.nextCid = s.nextCid)
    (hclients : ∀ {k c'}, s'.clients.lookup k = some c' →
      ∃ c, s.clients.lookup k = some c ∧ c'.cid = c.cid ∧ c'.fd = c.fd)
    (htasks : ∀ t ∈ s'.tasks, (t.fd, t.origin) ∈ s.accepts)
    (hframes : ∀ pf ∈ s'.pendingFrames, (pf.fd, pf.origin) ∈ s.accepts) : Numbered s' where
  fd hc' := by
    obtain ⟨c, hc, -, hfd⟩ := hclients hc'
    rw [hfd, h.fd hc]
  accepted hc' := by
    obtain ⟨c, hc, hcid, -⟩ := hclients hc'
    rw [haccepts, hcid]
    exact h.accepted hc
  last hc' := by
    obtain ⟨c, hc, hcid, -⟩ := hclients hc'
    rw [haccepts, hcid]
    exact h.last hc
  accept_lt hp := by
    rw [haccepts] at hp
    rw [hnext]
    exact h.accept_lt hp
  task ht := by
    rw [haccepts]
    exact htasks _ ht
  frame hpf := by
    rw [haccepts]
    exact hframes _ hpf

theorem Numbered.handleClient (h : Numbered s) (fd : ℤ) (events : IoEvents) (data : Bytes)
    (ending : RecvEnd) : Numbered (handleClient cfg app fd events data ending s) := by
  cases hc : s.clients.lookup fd with
  | none =>
    rw [Websockets.handleClient, hc]
    exact h
  | some c =>
    obtain ⟨hcid, hfd, hsched⟩ := eventPart_spec cfg app events data ending c s
    obtain ⟨o, hleft, hreplaces, -, htasks⟩ :=
      handleClient_spec cfg app hc events data ending
    refine h.of_accepts_eq hreplaces.accepts hreplaces.nextCid (fun {k c'} hc' ↦ ?_)
      (fun t ht ↦ ?_) (fun pf hpf ↦ ?_)
    · rw [hreplaces.clients] at hc'
      by_cases hk : k = fd
      · rw [if_pos hk] at hc'
        obtain ⟨hhttp, -⟩ := hleft c' hc'
        exact ⟨c, hk ▸ hc, hhttp.cid.trans hcid, hhttp.fd.trans hfd⟩
      · rw [if_neg hk] at hc'
        exact ⟨c', hc', rfl, rfl⟩
    · rw [htasks] at ht
      rcases hsched.tasks t ht with ht | ⟨htfd, horigin⟩
      · exact h.task ht
      · rw [htfd, horigin, h.fd hc]
        exact h.accepted hc
    · rw [hreplaces.pendingFrames] at hpf
      exact h.frame hpf

theorem Numbered.acceptClient (h : Numbered s) (cfd : ℤ) : Numbered (acceptClient s cfd) := by
  rw [Websockets.acceptClient]
  split
  · exact h
  have hmem : ∀ {p : ℤ × ℕ}, p ∈ (cfd, s.nextCid) :: s.accepts →
      p = (cfd, s.nextCid) ∨ p ∈ s.accepts := fun hp ↦ List.mem_cons.mp hp
  refine ⟨fun {k c} hc ↦ ?_, fun {k c} hc ↦ ?_, fun {k c} hc p hp hpk ↦ ?_, fun {p} hp ↦ ?_,
    fun {t} ht ↦ List.mem_cons_of_mem _ (h.task ht),
    fun {pf} hpf ↦ List.mem_cons_of_mem _ (h.frame hpf)⟩
  · simp only at hc
    by_cases hk : k = cfd
    · rw [hk, AList.lookup_insert, Option.some.injEq] at hc
      rw [← hc, hk]
    · rw [AList.lookup_insert_ne hk] at hc
      exact h.fd hc
  · simp only at hc
    by_cases hk : k = cfd
    · rw [hk, AList.lookup_insert, Option.some.injEq] at hc
      rw [← hc, hk]
      exact List.mem_cons_self
    · rw [AList.lookup_insert_ne hk] at hc
      exact List.mem_cons_of_mem _ (h.accepted hc)
  · simp only at hc
    by_cases hk : k = cfd
    · rw [hk, AList.lookup_insert, Option.some.injEq] at hc
      rw [← hc]
      rcases hmem hp with rfl | hp
      · exact le_rfl
      · exact (h.accept_lt hp).le
    · rw [AList.lookup_insert_ne hk] at hc
      rcases hmem hp with rfl | hp
      · exact absurd hpk.symm hk
      · exact h.last hc p hp hpk
  · rcases hmem hp with rfl | hp
    · exact Nat.lt_succ_self _
    · exact Nat.lt_succ_of_lt (h.accept_lt hp)

theorem Numbered.workerStep (h : Numbered s) (k : ℕ) : Numbered (workerStep app k s) := by
  rw [Websockets.workerStep]
  split
  · exact h
  next t ht =>
  have hsame : ∀ {k : ℤ} {c : Client}, s.clients.lookup k = some c →
      ∃ c₁, s.clients.lookup k = some c₁ ∧ c.cid = c₁.cid ∧ c.fd = c₁.fd :=
    fun hc ↦ ⟨_, hc, rfl, rfl⟩
  have htask := h.task (List.mem_of_getElem? ht)
  have hset (ph : TaskPhase) : ∀ t' ∈ s.tasks.set k { t with phase := ph },
      (t'.fd, t'.origin) ∈ s.accepts := by
    intro t' ht'
    rcases List.mem_or_eq_of_mem_set ht' with ht' | rfl
    · exact h.task ht'
    · exact htask
  split
  · split
    · exact h
    · exact h.of_accepts_eq rfl rfl hsame (hset _) fun pf hpf ↦ h.frame hpf
  · refine h.of_accepts_eq rfl rfl hsame (hset _) fun pf hpf ↦ ?_
    simp only at hpf
    split at hpf
    · exact h.frame hpf
    · rcases List.mem_append.mp hpf with hpf | hpf
      · exact h.frame hpf
      · rw [List.mem_singleton.mp hpf]
        exact htask
  · refine h.of_accepts_eq rfl rfl hsame (fun t' ht' ↦ h.task ?_) fun pf hpf ↦ h.frame hpf
    exact (List.eraseIdx_sublist _ _).subset ht'

/-! ## The drain

The drain looks a number up and appends to whatever client has it. A frame whose number nobody has
is dropped, which harms nobody. -/

theorem lookup_deliver (s : Server) (pf : PendingFrame) (k : ℤ) :
    (deliver s pf).clients.lookup k = (s.clients.lookup k).map fun c ↦
      if k = pf.fd then { c with outBuf := c.outBuf ++ pf.frame } else c := by
  rw [deliver]
  split
  · next hnone =>
    by_cases hk : k = pf.fd
    · rw [hk, hnone, Option.map_none]
    · simp only [if_neg hk, Option.map_id']
  · next c hc =>
    simp only
    by_cases hk : k = pf.fd
    · rw [hk, AList.lookup_insert, hc, Option.map_some, if_pos rfl]
    · rw [AList.lookup_insert_ne hk]
      simp only [if_neg hk, Option.map_id']

/-- A delivery only appends to an output. -/
theorem deliver_eq (s : Server) (pf : PendingFrame) :
    (deliver s pf).accepts = s.accepts ∧ (deliver s pf).nextCid = s.nextCid ∧
      (deliver s pf).tasks = s.tasks ∧ (deliver s pf).pendingFrames = s.pendingFrames := by
  rw [deliver]
  split <;> exact ⟨rfl, rfl, rfl, rfl⟩

theorem Numbered.deliver (h : Numbered s) (pf : PendingFrame) : Numbered (deliver s pf) := by
  obtain ⟨haccepts, hnext, htasks, hframes⟩ := deliver_eq s pf
  refine h.of_accepts_eq haccepts hnext (fun {k c'} hc' ↦ ?_) (fun t ht ↦ h.task (htasks ▸ ht))
    fun pf hpf ↦ h.frame (hframes ▸ hpf)
  rw [lookup_deliver, Option.map_eq_some_iff] at hc'
  obtain ⟨c, hc, rfl⟩ := hc'
  exact ⟨c, hc, by split <;> exact ⟨rfl, rfl⟩⟩

private theorem isCurrent_deliver (s : Server) (pf pf' : PendingFrame) :
    IsCurrent (deliver s pf) pf' ↔ IsCurrent s pf' := by
  rw [IsCurrent, IsCurrent, lookup_deliver, Option.isSome_map, (deliver_eq s pf).1]

/-- **One delivery is right exactly if the frame is current.** -/
theorem routed_deliver_iff (h : Numbered s) {pf : PendingFrame}
    (hpf : (pf.fd, pf.origin) ∈ s.accepts) :
    Routed (deliver s pf) ↔ Routed s ∧ IsCurrent s pf := by
  rw [Websockets.deliver]
  split
  · next hnone =>
    rw [IsCurrent, hnone]
    exact (and_iff_left fun hf ↦ (nomatch hf)).symm
  next c hc =>
  have hcurrent : IsCurrent s pf ↔ c.cid = pf.origin := by
    rw [IsCurrent, hc, Option.isSome_some]
    constructor
    · intro hle
      exact le_antisymm (hle rfl _ (h.accepted hc) rfl) (h.last hc _ hpf rfl)
    · rintro heq - p hp hfd
      rw [← heq]
      exact h.last hc p hp hfd
  rw [hcurrent, Routed, Routed]
  simp only [List.mem_append, List.mem_singleton]
  constructor
  · exact fun hall ↦ ⟨fun d hd ↦ hall d (.inl hd), hall ⟨pf.origin, c.cid⟩ (.inr rfl)⟩
  · rintro ⟨hall, heq⟩ d (hd | rfl)
    · exact hall d hd
    · exact heq

private theorem routed_delivers_iff (pfs : List PendingFrame) (h : Numbered s)
    (hpfs : ∀ pf ∈ pfs, (pf.fd, pf.origin) ∈ s.accepts) :
    Routed (pfs.foldl deliver s) ↔ Routed s ∧ ∀ pf ∈ pfs, IsCurrent s pf := by
  induction pfs generalizing s with
  | nil => exact (and_iff_left fun pf hpf ↦ (nomatch hpf)).symm
  | cons pf pfs ih =>
    have hrest : ∀ pf' ∈ pfs, (pf'.fd, pf'.origin) ∈ (deliver s pf).accepts := by
      rw [(deliver_eq s pf).1]
      exact fun pf' hpf' ↦ hpfs pf' (List.mem_cons_of_mem _ hpf')
    rw [List.foldl_cons, ih (h.deliver pf) hrest,
      routed_deliver_iff h (hpfs pf List.mem_cons_self), List.forall_mem_cons, and_assoc]
    simp only [isCurrent_deliver]

/-! ## Runs

Between the moment a task is scheduled and the moment its frame is drained its connection may be
closed and its number returned again. The condition looks at the frames when they are drained, and
it is exact. -/

theorem numbered_initial (bases : List UInt64) (capacity : UInt64) :
    Numbered (initial bases capacity) := by
  have hnone : ∀ {fd c}, (initial bases capacity).clients.lookup fd = some c → False := by
    intro fd c hc
    rw [initial, AList.lookup_empty] at hc
    cases hc
  exact ⟨fun hc ↦ (hnone hc).elim, fun hc ↦ (hnone hc).elim, fun hc ↦ (hnone hc).elim,
    fun hp ↦ (nomatch hp), fun ht ↦ (nomatch ht), fun hpf ↦ (nomatch hpf)⟩

theorem Numbered.step (h : Numbered s) (e : Event) : Numbered (step cfg app s e) := by
  have hkeep : ∀ {s' : Server}, s'.accepts = s.accepts → s'.nextCid = s.nextCid →
      s'.clients = s.clients → s'.tasks = s.tasks → s'.pendingFrames = s.pendingFrames →
      Numbered s' := by
    intro s' haccepts hnext hclients htasks hframes
    exact h.of_accepts_eq haccepts hnext (fun hc ↦ ⟨_, hclients ▸ hc, rfl, rfl⟩)
      (fun t ht ↦ h.task (htasks ▸ ht)) fun pf hpf ↦ h.frame (hframes ▸ hpf)
  unfold Websockets.step
  split
  · exact h
  cases e with
  | accept cfds => exact List.foldlRecOn _ _ h fun s' hs' cfd _ ↦ hs'.acceptClient cfd
  | client fd events data ending => exact h.handleClient fd events data ending
  | pending =>
    have hempty : Numbered { s with pendingFrames := [] } :=
      ⟨h.fd, h.accepted, h.last, h.accept_lt, h.task, fun hpf ↦ (nomatch hpf)⟩
    exact List.foldlRecOn _ _ hempty fun s' hs' pf _ ↦ hs'.deliver pf
  | worker k => exact h.workerStep k
  | outside elapsed sends => exact hkeep rfl rfl rfl rfl rfl
  | fcgiTake =>
    simp only
    split
    · exact h
    · exact hkeep rfl rfl rfl rfl rfl
  | fcgiReturn k =>
    simp only
    split
    · exact h
    · exact hkeep rfl rfl rfl rfl rfl

private theorem deliveries_handleClient (s : Server) (fd : ℤ) (events : IoEvents) (data : Bytes)
    (ending : RecvEnd) :
    (handleClient cfg app fd events data ending s).deliveries = s.deliveries := by
  cases hc : s.clients.lookup fd with
  | none => rw [handleClient, hc]
  | some c =>
    obtain ⟨o, -, hreplaces, -⟩ := handleClient_spec cfg app hc events data ending
    exact hreplaces.deliveries

private theorem deliveries_acceptClient (s : Server) (cfd : ℤ) :
    (acceptClient s cfd).deliveries = s.deliveries := by
  rw [acceptClient]
  split <;> rfl

private theorem deliveries_workerStep (k : ℕ) (s : Server) :
    (workerStep app k s).deliveries = s.deliveries := by
  rw [workerStep]
  split
  · rfl
  split
  · split <;> rfl
  · rfl
  · rfl

/-- **One event routes right exactly if the frames it drains are current.** -/
theorem routed_step_iff (h : Numbered s) (hrouted : Routed s) (e : Event) :
    Routed (step cfg app s e) ↔ FramesCurrent s e := by
  have hsame : ∀ {s' : Server}, s'.deliveries = s.deliveries → (Routed s' ↔ True) := by
    intro s' heq
    rw [Routed, heq]
    exact iff_true_intro hrouted
  by_cases hterminated : s.terminated = true
  · unfold step
    rw [if_pos hterminated]
    refine iff_of_true hrouted ?_
    cases e with
    | pending => exact fun hf ↦ absurd hterminated (by rw [hf]; decide)
    | accept cfds => trivial
    | client fd events data ending => trivial
    | worker k => trivial
    | outside elapsed sends => trivial
    | fcgiTake => trivial
    | fcgiReturn k => trivial
  unfold step
  rw [if_neg hterminated]
  cases e with
  | accept cfds =>
    refine hsame ?_
    exact List.foldlRecOn (motive := fun s' ↦ s'.deliveries = s.deliveries) _ _ rfl
      fun s' hs' cfd _ ↦ (deliveries_acceptClient s' cfd).trans hs'
  | client fd events data ending => exact hsame (deliveries_handleClient s fd events data ending)
  | pending =>
    set s₀ : Server := { s with pendingFrames := [] } with hs₀
    have h₀ : Numbered s₀ :=
      ⟨h.fd, h.accepted, h.last, h.accept_lt, h.task, fun hpf ↦ (nomatch hpf)⟩
    rw [FramesCurrent, forall_prop_of_true (Bool.eq_false_iff.mpr hterminated)]
    exact (routed_delivers_iff s.pendingFrames h₀ fun pf hpf ↦ h.frame hpf).trans
      (and_iff_right hrouted)
  | worker k => exact hsame (deliveries_workerStep k s)
  | outside elapsed sends => exact hsame rfl
  | fcgiTake =>
    refine hsame ?_
    simp only
    split <;> rfl
  | fcgiReturn k =>
    refine hsame ?_
    simp only
    split <;> rfl

/-- **Replies reach the connections they answer exactly as long as no drained frame has a number
that has been returned for a later connection.** -/
theorem always_routed_iff (cfg : GlobalConfig) (app : Application) (bases : List UInt64)
    (capacity : UInt64) (events : List Event) :
    Always (step cfg app) Routed (initial bases capacity) events
      ↔ Meets (step cfg app) FramesCurrent (initial bases capacity) events :=
  always_iff_meets_of_invariant (fun _ e h ↦ h.step e)
    (fun _ e h hrouted ↦ routed_step_iff h hrouted e) (numbered_initial bases capacity)
    fun _ hd ↦ (nomatch hd)

/-- A plain HTTP request. -/
def getRequest : Bytes := ascii "GET / HTTP/1.1" ++ crlfcrlf

def reader : Application := ⟨fun _ ↦ [], fun r ↦ r, none, some fun r ↦ (r, [])⟩

/-- A peer asks and leaves, another one gets its number, and the worker answers. -/
def numberReused : List Event :=
  [.accept [5], .client 5 ⟨true, false, false⟩ getRequest .again,
    .client 5 ⟨false, false, true⟩ [] .again, .accept [5], .worker 0, .worker 0, .pending]

theorem not_always_routed_numberReused :
    ¬Always (step {} reader) Routed (initial [0x10000] 0x10000) numberReused := by
  intro h
  have hdeliveries : (numberReused.foldl (step {} reader) (initial [0x10000] 0x10000)).deliveries
      = [⟨0, 1⟩] := by decide +kernel
  generalize numberReused = events at h hdeliveries
  have hrouted := h.last ⟨0, 1⟩ (by rw [hdeliveries]; exact List.mem_singleton_self _)
  exact absurd hrouted (by decide)

end Wasapi.Websockets
