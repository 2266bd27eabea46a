import Wasapi.FcgiConn.Closing
import Wasapi.FcgiConn.Reaping

/-!
# What is left of a connection

`Retains` says what flushing, serving waiting connections and releasing requests leave of a
connection: requests that no record left in `in_buf` is for keep their flags, workers stay, and
only what `send` takes is sent. Only the sweep takes a request from the map of a connection that
stays.

`Asks` follows the close queue meanwhile: whoever is put there is a connection that is flushed, by
the event itself or as one that has been waiting.
-/

namespace Wasapi.FcgiConn

open Fastcgi

variable {cfg : GlobalConfig} {app : Application} {w w' : World}

/-! ## What is left of a connection

The relation is a preorder with a budget: a connection may be flushed several times in one event,
and each flush uses up some of the `send` calls. It is closed under all the small steps between the
reading and the question. -/

/-- The number of octets that wait to be sent. -/
def unsent (c : Connection) : ℕ := c.outBuf.length - c.outPos

/-- The number of octets `send` calls with these results can take. -/
def takes : List SendResult → ℕ
  | [] => 0
  | .sent n :: sends => n + 1 + takes sends
  | .again :: sends | .error :: sends => takes sends

/-- No record in `in_buf` is for the request `id`. -/
def Untouched (c : Connection) (id : UInt16) : Prop :=
  ∀ rec ∈ recordFramer.frames c.inBuf, rec.requestId ≠ id

instance (c : Connection) (id : UInt16) : Decidable (Untouched c id) := by
  unfold Untouched
  infer_instance

/-- The connection is made by `operator[]`, and has received nothing. -/
def Vacant (c : Connection) : Prop :=
  c.accepted = false ∧ (c.closed = false → ¬Unfinished c)

/-- What is left of a connection when the coming `send` calls can take `b'` octets instead of `b`
and the requests in `gone` have left the map: an untouched request keeps its flags, the workers
stay, and only what `send` has taken is sent. -/
structure Retains (gone : UInt16 → Prop) (b b' : ℕ) (c c' : Connection) : Prop where
  cid : c'.cid = c.cid
  accepted : c'.accepted = c.accepted
  fd : c'.fd = c.fd
  isOpen : c'.closed = false → c.closed = false
  unfinished : c'.closed = false → Unfinished c' → Unfinished c
  requests {id r} : ¬gone id → Untouched c id → c.requests.lookup id = some r →
    Untouched c' id ∧ ∃ r', c'.requests.lookup id = some r' ∧ r'.flags = r.flags
  activeWorkers : c.activeWorkers ≤ c'.activeWorkers
  unsent : unsent c + b' ≤ unsent c' + b

theorem Retains.of_requests {gone : UInt16 → Prop} {c : Connection} (b : ℕ) {requests : Requests}
    (h : ∀ id r, ¬gone id → c.requests.lookup id = some r →
      ∃ r', requests.lookup id = some r' ∧ r'.flags = r.flags) :
    Retains gone b b c { c with requests := requests } where
  cid := rfl
  accepted := rfl
  fd := rfl
  isOpen := id
  unfinished _ := id
  requests hid huntouched hr := ⟨huntouched, h _ _ hid hr⟩
  activeWorkers := le_rfl
  unsent := le_rfl

theorem Retains.refl (gone : UInt16 → Prop) (b : ℕ) (c : Connection) : Retains gone b b c c :=
  .of_requests b fun _ r _ hr ↦ ⟨r, hr, rfl⟩

private theorem Retains.spend {gone : UInt16 → Prop} {b b' b'' : ℕ} {c c' : Connection}
    (h : Retains gone b b' c c') (hle : b'' ≤ b') : Retains gone b b'' c c' :=
  { h with unsent := (Nat.add_le_add_left hle _).trans h.unsent }

theorem Retains.trans {gone : UInt16 → Prop} {b₁ b₂ b₃ : ℕ} {c₁ c₂ c₃ : Connection}
    (h : Retains gone b₁ b₂ c₁ c₂) (h' : Retains gone b₂ b₃ c₂ c₃) : Retains gone b₁ b₃ c₁ c₃ where
  cid := h'.cid.trans h.cid
  accepted := h'.accepted.trans h.accepted
  fd := h'.fd.trans h.fd
  isOpen := h.isOpen ∘ h'.isOpen
  unfinished hopen hunfinished := h.unfinished (h'.isOpen hopen) (h'.unfinished hopen hunfinished)
  requests hid huntouched hr := by
    obtain ⟨huntouched₂, r₂, hr₂, hflags₂⟩ := h.requests hid huntouched hr
    obtain ⟨huntouched₃, r₃, hr₃, hflags₃⟩ := h'.requests hid huntouched₂ hr₂
    exact ⟨huntouched₃, r₃, hr₃, hflags₃.trans hflags₂⟩
  activeWorkers := h.activeWorkers.trans h'.activeWorkers
  unsent := by
    have := h.unsent
    have := h'.unsent
    omega

/-- The connections of `w'` are what is left of those of `w`, and vacant ones. -/
structure Retained (gone : ℤ → UInt16 → Prop) (w w' : World) : Prop where
  sends : takes w'.sends ≤ takes w.sends
  conns {k c'} : w'.conns.lookup k = some c' →
    (∃ c, w.conns.lookup k = some c ∧ Retains (gone k) (takes w.sends) (takes w'.sends) c c') ∨
      Vacant c'

/-- All of the requests stay. -/
def Nothing (_ : ℤ) (_ : UInt16) : Prop := False

theorem Retained.of_lookup {gone : ℤ → UInt16 → Prop} (hsends : w'.sends = w.sends)
    (hconns : ∀ k c', w'.conns.lookup k = some c' → w.conns.lookup k = some c') :
    Retained gone w w' := by
  refine ⟨(congrArg takes hsends).le, fun {k c'} hc' ↦ .inl ⟨c', hconns k c' hc', ?_⟩⟩
  rw [hsends]
  exact .refl _ _ c'

theorem Retained.refl (gone : ℤ → UInt16 → Prop) (w : World) : Retained gone w w :=
  .of_lookup rfl fun _ _ hc ↦ hc

theorem Retained.trans {gone : ℤ → UInt16 → Prop} {w₁ w₂ w₃ : World} (h : Retained gone w₁ w₂)
    (h' : Retained gone w₂ w₃) : Retained gone w₁ w₃ := by
  refine ⟨h'.sends.trans h.sends, fun hc₃ ↦ ?_⟩
  rcases h'.conns hc₃ with ⟨c₂, hc₂, hretains⟩ | hvacant
  · rcases h.conns hc₂ with ⟨c₁, hc₁, hretains'⟩ | ⟨haccepted, hfinished⟩
    · exact .inl ⟨c₁, hc₁, hretains'.trans hretains⟩
    · refine .inr ⟨hretains.accepted.trans haccepted, fun hopen hunfinished ↦ ?_⟩
      exact hfinished (hretains.isOpen hopen) (hretains.unfinished hopen hunfinished)
  · exact .inr hvacant

theorem retained_updateConn {gone : ℤ → UInt16 → Prop} (w : World) (fd : ℤ)
    {f : Connection → Connection}
    (hf : ∀ c, w.conns.lookup fd = some c → ∀ b, Retains (gone fd) b b c (f c)) :
    Retained gone w (w.updateConn fd f) := by
  have hsends : (w.updateConn fd f).sends = w.sends := by rw [World.updateConn_eq]
  refine ⟨(congrArg takes hsends).le, fun {k c'} hc' ↦ .inl ?_⟩
  rw [World.lookup_updateConn, Option.map_eq_some_iff] at hc'
  obtain ⟨c, hc, rfl⟩ := hc'
  refine ⟨c, hc, ?_⟩
  rw [hsends]
  split
  · next hk =>
    rw [hk] at hc ⊢
    exact hf c hc _
  · exact .refl _ _ c

/-! ## Flushing

A flush cannot send more than its `send` calls take. What it leaves of a larger output keeps the
connection engaged. -/

/-- **A flush sends what `send` takes**, by induction on the turns of the loop. -/
theorem unsent_flushLoop (fd : ℤ) (fuel : ℕ) (w : World) :
    takes (flushLoop fd fuel w).sends ≤ takes w.sends ∧
      ∀ c c', w.conns.lookup fd = some c → (flushLoop fd fuel w).conns.lookup fd = some c' →
        unsent c + takes (flushLoop fd fuel w).sends ≤ unsent c' + takes w.sends := by
  induction fuel generalizing w with
  | zero =>
    refine ⟨le_rfl, fun c c' hc hc' ↦ ?_⟩
    rw [Option.some.inj (hc.symm.trans hc')]
    exact le_rfl
  | succ fuel ih =>
    rw [flushLoop_succ]
    cases hc : w.conns.lookup fd with
    | none => exact ⟨le_rfl, fun c c' hc₁ ↦ (nomatch hc₁)⟩
    | some c₀ =>
      have hwant (want : Bool) : unsent (updateWriteInterest want c₀) = unsent c₀ := by
        obtain ⟨epollOut, wanted, heq⟩ := updateWriteInterest_eq want c₀
        rw [heq]
        rfl
      have hset {w₁ : World} {c₁ : Connection} (hconns : w₁.conns = w.conns.insert fd c₁)
          (hsends : takes w₁.sends ≤ takes w.sends) (hle : unsent c₀ ≤ unsent c₁) :
          takes w₁.sends ≤ takes w.sends ∧ ∀ c c', some c₀ = some c →
            w₁.conns.lookup fd = some c' →
              unsent c + takes w₁.sends ≤ unsent c' + takes w.sends := by
        refine ⟨hsends, fun c c' hc hc' ↦ ?_⟩
        rw [hconns, AList.lookup_insert] at hc'
        rw [← Option.some.inj hc, ← Option.some.inj hc']
        exact Nat.add_le_add hle hsends
      have htail : takes w.sends.tail ≤ takes w.sends := by
        rcases w.sends with _ | ⟨_ | _ | _, sends⟩ <;> simp [takes]
      simp only
      by_cases hremaining : c₀.outBuf.length - c₀.outPos = 0
      · -- all has been sent
        have hzero : unsent c₀ = 0 := hremaining
        have hany (c₁ : Connection) : unsent c₀ ≤ unsent c₁ := hzero ▸ Nat.zero_le _
        rw [if_pos hremaining]
        split
        · split
          · exact hset rfl le_rfl (hany _)
          · exact hset rfl le_rfl (hany _)
        · split
          · exact hset rfl le_rfl (hany _)
          · exact hset rfl le_rfl (hany _)
      rw [if_neg hremaining]
      split
      · exact hset rfl htail (hwant true).ge
      · exact hset rfl htail (hwant true).ge
      · next sends hsends =>
        exact hset rfl (by rw [hsends, takes]) le_rfl
      · next n sends hsends =>
        -- the call takes some octets, and the loop goes on behind them
        set c₁ : Connection :=
          { c₀ with outPos := c₀.outPos + min (n + 1) (c₀.outBuf.length - c₀.outPos) } with hc₁
        set w₁ : World := { w.setConn fd c₁ with sends := sends } with hw₁
        obtain ⟨hspent, hunsent⟩ := ih w₁
        have hlookup : w₁.conns.lookup fd = some c₁ :=
          (World.lookup_setConn fd c₁ fd).trans (if_pos rfl)
        have htakes : takes w.sends = n + 1 + takes w₁.sends := by rw [hsends, takes]
        refine ⟨by omega, fun c c' hc hc' ↦ ?_⟩
        obtain rfl := Option.some.inj hc
        have hrest := hunsent c₁ c' hlookup hc'
        have hpos : unsent c₀ ≤ unsent c₁ + (n + 1) := by
          simp only [unsent, hc₁]
          omega
        omega

theorem retained_flushConnection (fd : ℤ) (w : World) :
    Retained Nothing w (flushConnection fd w) := by
  rw [flushConnection]
  split
  · exact .refl _ w
  next c hc =>
  obtain ⟨hsends, hunsent⟩ := unsent_flushLoop fd (c.outBuf.length + 1) w
  refine ⟨hsends, fun {k c'} hc' ↦ .inl ?_⟩
  obtain ⟨c₀, hc₀, hflushed, hsame⟩ := flushed_flushLoop fd _ hc'
  refine ⟨c₀, hc₀, ?_⟩
  by_cases hk : k = fd
  · subst hk
    have hopen (hopen' : c'.closed = false) : c₀.closed = false :=
      Bool.eq_false_iff.mpr fun hclosed ↦ by
        rw [hflushed.keepsClosed hclosed] at hopen'
        cases hopen'
    constructor
    case cid => exact hflushed.cid
    case accepted => exact hflushed.accepted
    case fd => exact hflushed.fd
    case isOpen => exact hopen
    case unfinished =>
      intro _ hunfinished
      rwa [Unfinished, hflushed.inBuf, hflushed.waitingForArena] at hunfinished
    case requests =>
      intro id r _ huntouched hr
      rw [Untouched, hflushed.inBuf, hflushed.requests]
      exact ⟨huntouched, r, hr, rfl⟩
    case activeWorkers => exact hflushed.activeWorkers.ge
    case unsent => exact hunsent c₀ c' hc₀ hc'
  · rw [hsame hk]
    exact (Retains.refl _ _ c₀).spend hsends

/-! ## Serving a connection

A connection that has waited is served from what is in its `in_buf`. Records for other requests do
not touch an entry, so an entry that no record left there is for keeps its flags. -/

section Decoder

variable {σ : Type*} {limits : Limits} {cb : Callbacks σ}

variable (limits cb) in
private theorem lookup_turn_of_ne (m : Machine σ) {rec : Record} {id : UInt16}
    (hne : rec.requestId ≠ id) :
    (turn limits cb m rec).requests.lookup id = m.requests.lookup id := by
  rw [turn]
  rcases processRecord_cases limits cb rec m with ⟨-, hrec⟩ | ⟨body, r, -, -, hrec⟩ |
    ⟨body, nr, ext, -, -, -, hrec⟩ | ⟨body, ext, -, -, -, hrec⟩
  · rw [hrec]
    rfl
  · rw [hrec]
    exact lookup_touch_of_ne cb hne.symm body r m
  · rw [hrec]
    exact (lookup_touch_of_ne cb hne.symm body nr _).trans (AList.lookup_insert_ne hne.symm)
  · rw [hrec]
    split
    · rfl
    · rfl

variable (limits cb) in
/-- Records for other requests leave an entry alone. -/
theorem lookup_runRecords {recs : List Record} {id : UInt16}
    (hne : ∀ rec ∈ recs, rec.requestId ≠ id) (m : Machine σ) :
    (runRecords limits cb m recs).1.requests.lookup id = m.requests.lookup id := by
  induction recs generalizing m with
  | nil => rfl
  | cons rec recs ih =>
    have hturn := lookup_turn_of_ne limits cb m (hne rec List.mem_cons_self)
    rw [turn] at hturn
    cases hrec : processRecord limits cb rec m with
    | next m' =>
      rw [hrec] at hturn
      rw [runRecords_cons_next hrec, ih fun rec' h ↦ hne rec' (List.mem_cons_of_mem _ h)]
      exact hturn
    | deferred m' =>
      rw [hrec] at hturn
      rw [runRecords_cons_deferred hrec]
      exact hturn

end Decoder

/-- `process_fcgi` sends nothing and touches no queue of descriptors. -/
theorem sendQueues_processFcgi (cfg : GlobalConfig) (fd : ℤ) (w : World) :
    (processFcgi cfg fd w).sends = w.sends ∧ (processFcgi cfg fd w).closeQueue = w.closeQueue ∧
      (processFcgi cfg fd w).waitingConns = w.waitingConns := by
  have h : ((processFcgi cfg fd w).sends, (processFcgi cfg fd w).closeQueue,
      (processFcgi cfg fd w).waitingConns) = (w.sends, w.closeQueue, w.waitingConns) := by
    refine frame_processFcgi (g := fun w ↦ (w.sends, w.closeQueue, w.waitingConns))
      (fun r w ↦ ?_) (fun io id w ↦ ?_) (fun w fd f ↦ by rw [World.updateConn_eq]) fd w
    · rw [internalOnRequestReady]
      split
      · rfl
      split
      · rfl
      · simp only
        rw [World.updateRef_eq]
    · rw [allocateRequest]
      split
      · rfl
      simp only
      split
      · rfl
      · rfl
  rw [Prod.mk.injEq, Prod.mk.injEq] at h
  exact h

variable (cfg) in
private theorem retained_processFcgi (fd : ℤ) (w : World) :
    Retained Nothing w (processFcgi cfg fd w) := by
  have hsends : (processFcgi cfg fd w).sends = w.sends := (sendQueues_processFcgi cfg fd w).1
  refine ⟨(congrArg takes hsends).le, fun {k c'} hc' ↦ .inl ?_⟩
  rw [hsends]
  obtain ⟨c, n, hc, hworkers, ⟨-, rfl⟩ | ⟨rfl, hopen, rfl⟩⟩ := processFcgi_cases cfg hc'
  · exact ⟨c, hc, { Retains.refl _ _ c with activeWorkers := hworkers }⟩
  refine ⟨c, hc, ?_⟩
  have hout := (extends_processBuffer cfg.toLimits (callbacks cfg ⟨k, c.cid⟩) c.inBuf
    ⟨c.requests, c.outBuf, w⟩).isPrefix.length_le
  constructor
  case cid => rfl
  case accepted => rfl
  case fd => rfl
  case isOpen => exact fun _ ↦ hopen
  case unfinished =>
    intro _ hunfinished
    by_contra hfinished
    rw [Unfinished, not_or, not_ne_iff] at hfinished
    rw [Unfinished, processed, processBuffer_eq, hfinished.1,
      Framer.frames_of_none recordFramer.next_nil, Framer.rest_of_none recordFramer.next_nil,
      runRecords_nil] at hunfinished
    simp at hunfinished
  case requests =>
    intro id r _ huntouched hr
    have hlookup : (processed cfg k w c).requests.lookup id = c.requests.lookup id := by
      have hrun := lookup_runRecords cfg.toLimits (callbacks cfg ⟨k, c.cid⟩) huntouched
        ⟨c.requests, c.outBuf, w⟩
      rwa [← processBuffer_toMachine] at hrun
    refine ⟨?_, r, hlookup.trans hr, rfl⟩
    -- what is left are the same records, or none
    rw [Untouched, processed, processBuffer_eq]
    simp only
    split
    · simp only [Framer.frames_of_none (Framer.next_rest recordFramer _)]
      exact fun rec hrec ↦ absurd hrec List.not_mem_nil
    · exact huntouched
  case activeWorkers => exact hworkers
  case unsent =>
    refine Nat.add_le_add_right (Nat.sub_le_sub_right ?_ _) _
    exact hout

/-! ## Releasing requests

A release takes nothing from a map by itself; the caller does. So all the releases of an event
together leave of another connection what serving leaves of it. -/

theorem retained_act (w : World) {a : Action} (ha : a.Serving) :
    Retained Nothing w (act cfg app w a) := by
  have hrequests (w : World) (fd : ℤ) {id : UInt16} {r : Request} (r' : Request)
      (hr : ((w.conns.lookup fd).bind fun c ↦ c.requests.lookup id) = some r)
      (hflags : r'.flags = r.flags) : Retained Nothing w (w.updateConn fd fun c ↦
        { c with requests := c.requests.insert id r' }) := by
    refine retained_updateConn w fd fun c hc b ↦ .of_requests b fun i ri _ hri ↦ ?_
    by_cases hi : i = id
    · rw [hc, Option.bind_some, ← hi, hri, Option.some.injEq] at hr
      rw [hi, AList.lookup_insert]
      exact ⟨r', rfl, by rw [hflags, hr]⟩
    · rw [AList.lookup_insert_ne hi]
      exact ⟨ri, hri, rfl⟩
  cases ha with
  | process fd => exact retained_processFcgi cfg fd w
  | flush fd => exact retained_flushConnection fd w
  | finalize fd id =>
    rw [act, finalizeRequest]
    split
    · exact .refl _ w
    next r hr =>
    refine ⟨(hrequests w fd _ hr ?_).sends, (hrequests w fd _ hr ?_).conns⟩
    · rfl
    · rfl
  | destroy fd id =>
    rw [act, destroyRequest]
    split
    · exact .refl _ w
    next r hr =>
    have hmark := hrequests w fd { r with released := true } hr rfl
    simp only
    split
    · exact hmark
    · exact ⟨hmark.sends, hmark.conns⟩
  | queues closeQueue waitingConns acceptPaused => exact .of_lookup rfl fun _ _ hc ↦ hc

theorem retained_acts (h : Acts cfg app Action.Serving w w') : Retained Nothing w w' :=
  h.invariant (I := Retained Nothing w) (fun _ _ ha hw ↦ hw.trans (retained_act _ ha)) (.refl _ w)

theorem retained_indexConns (fd : ℤ) (w : World) : Retained Nothing w (indexConns fd w) := by
  rw [indexConns]
  split
  · exact .refl _ w
  refine ⟨le_rfl, fun {k c'} hc' ↦ ?_⟩
  simp only at hc'
  rw [World.lookup_setConn] at hc'
  split at hc'
  · obtain rfl := Option.some.inj hc'
    exact .inr ⟨rfl, fun _ hunfinished ↦ hunfinished.elim (absurd rfl) Bool.false_ne_true⟩
  · exact .inl ⟨c', hc', .refl _ _ c'⟩

/-- A connection that is closed leaves the others alone. -/
theorem retained_closeConnection (w : World) (fd : ℤ) :
    Retained Nothing w (closeConnection cfg w fd) := by
  rw [closeConnection]
  split
  · exact .refl _ w
  have hcleanup : Retained Nothing w ((requestIds fd w).foldl (cleanupRequest cfg fd) w) :=
    retained_acts (acts_foldl cfg silent (acts_cleanupRequest cfg silent fd) (requestIds fd w) w)
  rw [cleanupConnectionRequests]
  set w₁ := (requestIds fd w).foldl (cleanupRequest cfg fd) w
  refine hcleanup.trans ?_
  rw [eraseConnection]
  split
  · next hnone =>
    -- nobody is there
    rw [World.lookup_updateConn, Option.map_eq_none_iff] at hnone
    rw [World.updateConn_of_none hnone]
    exact .refl _ w₁
  · refine .of_lookup (by rw [World.updateConn_eq]) fun k c' hc' ↦ ?_
    simp only at hc'
    by_cases hk : k = fd
    · rw [hk, AList.lookup_erase] at hc'
      cases hc'
    · rw [AList.lookup_erase_ne hk, World.lookup_updateConn] at hc'
      simpa [hk] using hc'

theorem retained_drainTurn (w : World) (cfd : ℤ) : Retained Nothing w (drainTurn cfg w cfd) := by
  rw [drainTurn]
  refine (retained_indexConns cfd w).trans ?_
  split
  · exact retained_closeConnection _ cfd
  · exact .refl _ _

/-! ## The close queue

`flush_connection` puts a connection in the close queue when its output has been sent and the
predicate says so. Whoever is taken from the queue at the end of an event has therefore been flushed
in it, or was in the queue before. -/

/-- Whoever is in the close queue satisfies `A`, as does the descriptor of whoever may be flushed,
which are the connections in `B`. -/
structure Asks (A B : ℤ → Prop) (w : World) : Prop where
  closeQueue {k} : k ∈ w.closeQueue → A k
  waitingConns {k} : k ∈ w.waitingConns → B k
  fd {k c} : B k → w.conns.lookup k = some c → A c.fd

section Asks

variable {A B : ℤ → Prop}

theorem Asks.of_conns (h : Asks A B w) (hclose : w'.closeQueue = w.closeQueue)
    (hwaiting : w'.waitingConns = w.waitingConns)
    (hconns : ∀ k c', w'.conns.lookup k = some c' →
      ∃ c, w.conns.lookup k = some c ∧ c'.fd = c.fd) : Asks A B w' := by
  refine ⟨fun hk ↦ h.closeQueue (hclose ▸ hk), fun hk ↦ h.waitingConns (hwaiting ▸ hk),
    fun {k c'} hk hc' ↦ ?_⟩
  obtain ⟨c, hc, hfd⟩ := hconns k c' hc'
  rw [hfd]
  exact h.fd hk hc

theorem Asks.updateConn (h : Asks A B w) (fd : ℤ) {f : Connection → Connection}
    (hf : ∀ c, (f c).fd = c.fd) : Asks A B (w.updateConn fd f) := by
  refine h.of_conns (by rw [World.updateConn_eq]) (by rw [World.updateConn_eq]) fun k c' hc' ↦ ?_
  rw [World.lookup_updateConn, Option.map_eq_some_iff] at hc'
  obtain ⟨c, hc, rfl⟩ := hc'
  refine ⟨c, hc, ?_⟩
  split
  · exact hf c
  · rfl

theorem Asks.processFcgi (h : Asks A B w) (fd : ℤ) : Asks A B (processFcgi cfg fd w) := by
  obtain ⟨-, hclose, hwaiting⟩ := sendQueues_processFcgi cfg fd w
  refine h.of_conns hclose hwaiting fun k c' hc' ↦ ?_
  obtain ⟨c, n, hc, -, ⟨-, rfl⟩ | ⟨-, -, rfl⟩⟩ := processFcgi_cases cfg hc'
  · exact ⟨c, hc, rfl⟩
  · exact ⟨c, hc, rfl⟩

/-- A flush puts nobody in the queue but the connection it flushes. -/
theorem closeQueue_flushLoop {fd k : ℤ} {fuel : ℕ}
    (hk : k ∈ (flushLoop fd fuel w).closeQueue) :
    k ∈ w.closeQueue ∨ ∃ c, w.conns.lookup fd = some c ∧ c.fd = k := by
  induction fuel generalizing w with
  | zero => exact .inl hk
  | succ fuel ih =>
    rw [flushLoop_succ] at hk
    cases hc : w.conns.lookup fd with
    | none =>
      rw [hc] at hk
      exact .inl hk
    | some c =>
      rw [hc] at hk
      obtain ⟨epollOut, wanted, hwant⟩ := updateWriteInterest_eq false c
      have hpush {c₁ : Connection} (hfd : c₁.fd = c.fd) (hk : k ∈ w.closeQueue ++ [c₁.fd]) :
          k ∈ w.closeQueue ∨ ∃ c₀, some c = some c₀ ∧ c₀.fd = k := by
        rw [List.mem_append, List.mem_singleton] at hk
        exact hk.imp_right fun hk ↦ ⟨c, rfl, (hk.trans hfd).symm⟩
      simp only at hk
      split at hk
      · rw [hwant] at hk
        split at hk
        · split at hk
          · exact hpush rfl hk
          · exact .inl hk
        · split at hk
          · exact hpush rfl hk
          · exact .inl hk
      split at hk
      · exact .inl hk
      · exact .inl hk
      · exact .inl hk
      · rcases ih hk with hk | ⟨c₁, hc₁, hfd⟩
        · exact .inl hk
        · simp only at hc₁
          rw [World.lookup_setConn, if_pos rfl, Option.some.injEq] at hc₁
          exact .inr ⟨c, rfl, by rw [← hfd, ← hc₁]⟩

theorem Asks.flushConnection (h : Asks A B w) {fd : ℤ} (hfd : B fd) :
    Asks A B (flushConnection fd w) := by
  refine ⟨fun {k} hk ↦ ?_, fun {k} hk ↦ ?_, fun {k c'} hk hc' ↦ ?_⟩
  · rw [FcgiConn.flushConnection] at hk
    split at hk
    · exact h.closeQueue hk
    · rcases closeQueue_flushLoop hk with hk | ⟨c, hc, rfl⟩
      · exact h.closeQueue hk
      · exact h.fd hfd hc
  · obtain ⟨conns, sends, closeQueue, heq⟩ := flushConnection_eq fd w
    rw [heq] at hk
    exact h.waitingConns hk
  · obtain ⟨c, hc, hflushed, -⟩ := flushed_flushConnection hc'
    rw [hflushed.fd]
    exact h.fd hk hc

/-- **Who is served has been waiting**, by induction on the turns. -/
theorem Asks.waitingLoop (h : Asks A B w) (n budget : ℕ) :
    Asks A B (waitingLoop cfg n budget w) := by
  induction n generalizing budget w with
  | zero => exact h
  | succ n ih =>
    rw [FcgiConn.waitingLoop]
    split
    · exact h
    split
    · exact h
    next fd fds hwaiting =>
    have hfd : B fd := h.waitingConns (by rw [hwaiting]; exact List.mem_cons_self)
    have hpop : Asks A B { w with waitingConns := fds } :=
      ⟨h.closeQueue, fun hk ↦ h.waitingConns (by rw [hwaiting]; exact List.mem_cons_of_mem _ hk),
        h.fd⟩
    simp only
    split
    · exact ih hpop _
    split
    · exact ih hpop _
    have hserved : Asks A B (FcgiConn.processFcgi cfg fd { w with waitingConns := fds }) :=
      hpop.processFcgi fd
    set w₁ := FcgiConn.processFcgi cfg fd { w with waitingConns := fds }
    split
    · exact ih (hserved.flushConnection hfd) _
    split
    · refine ih (w := { w₁ with waitingConns := w₁.waitingConns ++ [fd] })
        ⟨hserved.closeQueue, fun hk ↦ ?_, hserved.fd⟩ _
      rw [List.mem_append, List.mem_singleton] at hk
      exact hk.elim hserved.waitingConns fun hk ↦ hk ▸ hfd
    · exact ih hserved _

theorem Asks.sweepRequest (h : Asks A B w) (fd : ℤ) (id : UInt16) :
    Asks A B (sweepRequest cfg fd w id) := by
  have hfinalize : Asks A B (finalizeRequest cfg fd id w) := by
    rw [finalizeRequest]
    split
    · exact h
    · refine ⟨(h.updateConn fd ?_).closeQueue, (h.updateConn fd ?_).waitingConns,
        (h.updateConn fd ?_).fd⟩
      · exact fun _ ↦ rfl
      · exact fun _ ↦ rfl
      · exact fun _ ↦ rfl
  have hdestroy {w : World} (h : Asks A B w) : Asks A B (destroyRequest fd id w) := by
    rw [destroyRequest]
    split
    · exact h
    next r _ =>
    have hmark := h.updateConn fd (f := fun c ↦
      { c with requests := c.requests.insert id { r with released := true } }) fun _ ↦ rfl
    simp only
    split
    · exact hmark
    · exact ⟨hmark.closeQueue, hmark.waitingConns, hmark.fd⟩
  have hrelease {w : World} (h : Asks A B w) :
      Asks A B (eraseRequest fd id (releaseRequest cfg fd id w)) := by
    refine Asks.updateConn ?_ fd fun _ ↦ rfl
    rw [releaseRequest, processWaitingConnections]
    refine Asks.waitingLoop ?_ _ _
    split
    · exact ⟨(hdestroy h).closeQueue, (hdestroy h).waitingConns, (hdestroy h).fd⟩
    · exact hdestroy h
  rcases sweepRequest_cases cfg fd w id with heq | ⟨r, -, -, ⟨-, heq⟩ | ⟨-, -, heq⟩⟩
  · rw [heq]
    exact h
  · rw [heq]
    exact hrelease hfinalize
  · rw [heq]
    exact hrelease h

end Asks

end Wasapi.FcgiConn
