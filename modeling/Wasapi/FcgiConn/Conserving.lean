import Wasapi.FcgiConn.Interruptions
import Wasapi.FcgiConn.Waiting

/-!
# Work conservation

Nobody should wait for an arena while there is one. Whoever waits is queued, and what it waits for
is still in its input, so serving it takes an arena; hence a release serves the queue until it is
empty or no arena is left. The pool is shared with the websocket tasks, which give their arenas back
without a look at the queue.

So it matters when they do. Between two handlers an arena that comes back while somebody waits stays
where it is until the next release, and `always_workConserving_iff` says that nothing else goes
wrong. In the middle of a handler the tasks have to be more careful: what comes back while somebody
waits may be more than the budget of the loop over the queue, and what comes back after `get` has
found nothing is missed by the connection that is about to wait for it.
-/

namespace Wasapi.FcgiConn

open Fastcgi

variable {cfg : GlobalConfig} {app : Application} {w w' : World} {n : ℕ}

/-- No open connection waits for an arena. -/
def NobodyWaits (w : World) : Prop :=
  ∀ fd ∈ w.conns.keys, ∀ c ∈ w.conns.lookup fd, ¬c.Waits

instance (w : World) : Decidable (NobodyWaits w) := by
  unfold NobodyWaits
  infer_instance

private theorem nobodyWaits_iff :
    NobodyWaits w ↔ ∀ fd c, w.conns.lookup fd = some c → ¬c.Waits := by
  constructor
  · intro h fd c hc
    exact h fd (AList.mem_keys.mp (AList.lookup_isSome.mp (by rw [hc]; rfl))) c hc
  · exact fun h fd _ c hc ↦ h fd c hc

private theorem not_nobodyWaits {fd : ℤ} {c : Connection} (hc : w.conns.lookup fd = some c)
    (hw : c.Waits) : ¬NobodyWaits w := fun h ↦ nobodyWaits_iff.mp h fd c hc hw

/-- Nobody waits while an arena is available. -/
def WorkConserving (w : World) : Prop := 0 < w.available → NobodyWaits w

/-- The property holds if no handler is running. -/
def AtRest (P : World → Prop) (x : Process World Point) : Prop :=
  x.program.coming = none → P x.state

/-- In the middle of a handler the websocket tasks give arenas back only when nobody waits, and no
arena has come back when a connection begins to wait because there was none. -/
def SparesHandlers (x : Process World Point) : Move → Prop
  | .interfere (.giveBack k) =>
    x.program.coming ≠ none → k < x.state.wsArenas.length → NobodyWaits x.state
  | .proceed => x.program.coming = some .deferring → x.state.available = 0
  | .start _ | .interfere .take => True

/-- Between two handlers the websocket tasks give arenas back only when nobody waits. -/
def ReturnsToNobody (x : Process World Point) : Move → Prop
  | .interfere (.giveBack k) =>
    x.program.coming = none → k < x.state.wsArenas.length → NobodyWaits x.state
  | .start _ | .proceed | .interfere .take => True

instance (x : Process World Point) : ∀ i : Move, Decidable (SparesHandlers x i)
  | .interfere (.giveBack _) | .proceed => inferInstanceAs (Decidable (_ → _))
  | .start _ | .interfere .take => .isTrue trivial

instance (x : Process World Point) : ∀ i : Move, Decidable (ReturnsToNobody x i)
  | .interfere (.giveBack _) => inferInstanceAs (Decidable (_ → _))
  | .start _ | .proceed | .interfere .take => .isTrue trivial

/-! ## Interference

A websocket task that behaves may take any arena, and gives one back only when nobody waits. While
somebody waits, therefore, the number of free arenas can only go down, and this is all a handler has
to know about the tasks. -/

/-- The pool is in order, and the websocket tasks hold arenas of it. -/
structure Stocked (cfg : GlobalConfig) (n : ℕ) (w : World) : Prop where
  pool : Pooled cfg n w.arenas
  ws {i h} : (i, h) ∈ w.wsArenas → i < n

theorem Stocked.of_eq (h : Stocked cfg n w) (harenas : w'.arenas = w.arenas)
    (hws : w'.wsArenas = w.wsArenas) : Stocked cfg n w' :=
  ⟨harenas ▸ h.pool, fun hmem ↦ h.ws (hws ▸ hmem)⟩

/-- What the websocket tasks may do between two steps. -/
structure Polite (cfg : GlobalConfig) (n : ℕ) (w w' : World) : Prop where
  conns : w'.conns = w.conns
  waitingConns : w'.waitingConns = w.waitingConns
  stocked : Stocked cfg n w → Stocked cfg n w'
  available : ¬NobodyWaits w → w'.available ≤ w.available

private theorem Polite.refl (w : World) : Polite cfg n w w := ⟨rfl, rfl, fun h ↦ h, fun _ ↦ le_rfl⟩

private theorem Polite.nobodyWaits (h : Polite cfg n w w') (hw : NobodyWaits w') :
    NobodyWaits w := by rwa [NobodyWaits, h.conns] at hw

private theorem Polite.trans {w₁ w₂ w₃ : World} (h : Polite cfg n w₁ w₂)
    (h' : Polite cfg n w₂ w₃) : Polite cfg n w₁ w₃ where
  conns := h'.conns.trans h.conns
  waitingConns := h'.waitingConns.trans h.waitingConns
  stocked hstocked := h'.stocked (h.stocked hstocked)
  available hwaits := (h'.available fun hw ↦ hwaits (h.nobodyWaits hw)).trans (h.available hwaits)

variable (cfg n app) in
/-- A task that gives its arena back to nobody is polite. -/
theorem polite_interfere (w : World) (o : Websocket)
    (h : ∀ k, o = .giveBack k → k < w.wsArenas.length → NobodyWaits w) :
    Polite cfg n w (interfere cfg app w o) := by
  cases o with
  | take =>
    rw [interfere, step]
    split
    · exact .refl w
    next i m hget =>
    refine ⟨rfl, rfl, fun hw ↦ ⟨hw.pool.get hget, fun hmem ↦ ?_⟩, fun _ ↦ ?_⟩
    · rcases List.mem_append.mp hmem with hmem | hmem
      · exact hw.ws hmem
      · obtain ⟨rfl, -⟩ := Prod.mk.inj (List.mem_singleton.mp hmem)
        exact (hw.pool.counted.get hget).2
    · rw [World.available, World.available, (ArenaManager.arenas_get hget).2]
      exact Nat.sub_le _ _
  | giveBack k =>
    rw [interfere, step]
    split
    · exact .refl w
    next i owner hsome =>
    have hlt : k < w.wsArenas.length := (List.getElem?_eq_some_iff.mp hsome).1
    exact ⟨rfl, rfl, fun hw ↦ ⟨hw.pool.release _, fun hmem ↦ hw.ws (List.mem_of_mem_eraseIdx hmem)⟩,
      fun hwaits ↦ absurd (h k rfl hlt) hwaits⟩

variable (cfg app) in
/-- Whoever gives an arena back to somebody leaves it available. -/
theorem workConserving_giveBack_iff (h : Stocked cfg n w) {k : ℕ} (hk : k < w.wsArenas.length) :
    WorkConserving (interfere cfg app w (.giveBack k)) ↔ NobodyWaits w := by
  rw [interfere, step, List.getElem?_eq_getElem hk]
  have hpos : 0 < (w.arenas.release w.wsArenas[k].1).availableCount := by
    refine (h.pool.counted.release _).pos (h.ws (List.getElem_mem hk)) ?_
    rw [ArenaManager.holder_release]
    exact if_pos rfl
  exact ⟨fun hworks ↦ hworks hpos, fun hnobody _ ↦ hnobody⟩

/-! ## Serving the queue

What is carried from step to step says that the loop over the queue has enough turns and a budget
large enough for those that wait. Outside of the loop it has no turns left and no budget, which is
to say that nobody waits while an arena is available. -/

/-- Whoever waits is queued with what it waits for, unless it is `popped`, and if arenas are there
then `budget` is no less than their number and whoever waits is among the next `m`. -/
structure Serving (cfg : GlobalConfig) (n m budget : ℕ) (popped : Option ℤ) (w : World) :
    Prop where
  stocked : Stocked cfg n w
  deferred {fd c} : w.conns.lookup fd = some c → c.Waits → Deferred c
  queued {fd c} : w.conns.lookup fd = some c → c.Waits → fd ∈ popped ∨ fd ∈ w.waitingConns
  served {fd c} : 0 < w.available → w.conns.lookup fd = some c → c.Waits →
    w.available ≤ budget ∧ (fd ∈ popped ∨ fd ∈ w.waitingConns.take m)

/-- A step that is taken when `waiting_for_arena` is set finds no arena. -/
def FindsNone : Point → World → Prop
  | .deferring, w => w.available = 0
  | _, _ => True

/-- Whatever polite tasks do meanwhile, the handler ends in a state with the property. -/
abbrev Leads (cfg : GlobalConfig) (n : ℕ) (p : Handler) (post : World → Prop) : World → Prop :=
  p.Safe (Polite cfg n) FindsNone (fun _ _ ↦ True) post

section Serving

variable {m budget : ℕ} {popped : Option ℤ} {P post : World → Prop}

private theorem leads_step (hP : Program.Stable (Polite cfg n) P) (h : P w) {p : Point}
    {f : World → World} {next : World → Handler}
    (hnext : ∀ w, P w → FindsNone p w → Leads cfg n (next w) post (f w)) :
    Leads cfg n (.step p f next) post w :=
  Program.safe_step hP h trivial hnext

private theorem leads_plainly (hP : Program.Stable (Polite cfg n) P) (h : P w) {f : World → World}
    (hf : ∀ w, P w → post (f w)) : Leads cfg n (plainly f) post w :=
  leads_step hP h fun w hw _ ↦ hf w hw

private theorem leads_look (hP : Program.Stable (Polite cfg n) P) (h : P w)
    {next : World → Handler} (hnext : ∀ w, P w → Leads cfg n (next w) post w) :
    Leads cfg n (look next) post w :=
  leads_step hP h fun w hw _ ↦ hnext w hw

private theorem stable_serving :
    Program.Stable (Polite cfg n) (Serving cfg n m budget popped) := by
  intro w w' hw h
  refine ⟨hw.stocked h.stocked, fun hc ↦ h.deferred (hw.conns ▸ hc), fun hc hwaits ↦ ?_,
    fun hpos hc hwaits ↦ ?_⟩
  · rw [hw.waitingConns]
    exact h.queued (hw.conns ▸ hc) hwaits
  · rw [hw.conns] at hc
    have hle := hw.available (not_nobodyWaits hc hwaits)
    obtain ⟨hbudget, hmem⟩ := h.served (hpos.trans_le hle) hc hwaits
    rw [hw.waitingConns]
    exact ⟨hle.trans hbudget, hmem⟩

theorem Serving.calm (h : Serving cfg n m budget popped w) (hcalm : Calm w w') :
    Serving cfg n m budget popped w' := by
  have havailable : w'.available = w.available := by
    rw [World.available, hcalm.arenas, World.available]
  refine ⟨h.stocked.of_eq hcalm.arenas hcalm.wsArenas, fun hc' hw ↦ ?_, fun hc' hw ↦ ?_,
    fun hpos hc' hw ↦ ?_⟩
  · obtain ⟨c, hc, hcalmer⟩ := hcalm.conns hc' hw
    exact hcalmer.deferred hw (h.deferred hc (hcalmer hw).1)
  · obtain ⟨c, hc, hcalmer⟩ := hcalm.conns hc' hw
    rw [hcalm.waitingConns]
    exact h.queued hc (hcalmer hw).1
  · obtain ⟨c, hc, hcalmer⟩ := hcalm.conns hc' hw
    rw [havailable, hcalm.waitingConns]
    exact h.served (havailable ▸ hpos) hc (hcalmer hw).1

private theorem Serving.leads_calm (h : Serving cfg n m budget popped w) {f : World → World}
    (hf : ∀ w, Calm w (f w)) : Leads cfg n (plainly f) (Serving cfg n m budget popped) w :=
  leads_plainly stable_serving h fun w hw ↦ hw.calm (hf w)

theorem Serving.workConserving (h : Serving cfg n 0 0 none w) : WorkConserving w := by
  refine fun hpos ↦ nobodyWaits_iff.mpr fun fd c hc hwaits ↦ ?_
  exact hpos.ne' (Nat.le_zero.mp (h.served hpos hc hwaits).1)

/-- The loop has come to its end. -/
theorem Serving.rest (h : Serving cfg n m budget none w)
    (hend : budget = 0 ∨ w.waitingConns.take m = []) : Serving cfg n 0 0 none w := by
  refine ⟨h.stocked, h.deferred, h.queued, fun hpos hc hwaits ↦ ?_⟩
  obtain ⟨hbudget, hmem | hmem⟩ := h.served hpos hc hwaits
  · cases hmem
  rcases hend with rfl | hnil
  · exact absurd (Nat.le_zero.mp hbudget) hpos.ne'
  · rw [hnil] at hmem
    exact absurd hmem List.not_mem_nil

/-- The loop begins with a turn for everybody in the queue and a budget of all that is available. -/
theorem serving_start (hstocked : Stocked cfg n w)
    (hdeferred : ∀ {fd c}, w.conns.lookup fd = some c → c.Waits → Deferred c)
    (hqueued : ∀ {fd c}, w.conns.lookup fd = some c → c.Waits → fd ∈ none ∨ fd ∈ w.waitingConns) :
    Serving cfg n w.waitingConns.length w.available none w := by
  refine ⟨hstocked, hdeferred, hqueued, fun _ hc hwaits ↦ ⟨le_rfl, ?_⟩⟩
  rw [List.take_length]
  exact hqueued hc hwaits

end Serving

/-! ## `process_fcgi`

While a connection waits the tasks leave it what is free, so a connection that gets past the record
it was deferred at has taken an arena. A connection that begins to wait does so because there is
none. -/

/-- What `process_fcgi` leaves that was called in `w₀` for the connection at `fd`. -/
structure Handled (cfg : GlobalConfig) (n : ℕ) (fd : ℤ) (w₀ w : World) : Prop where
  stocked : Stocked cfg n w
  deferred {k c} : w.conns.lookup k = some c → c.Waits → Deferred c
  waitingConns : w₀.waitingConns <+: w.waitingConns
  waits {k c} : w.conns.lookup k = some c → c.Waits →
    k = fd ∨ ∃ c₀, w₀.conns.lookup k = some c₀ ∧ c₀.Waits
  opened {c} : w.conns.lookup fd = some c → c.closed = false →
    ∃ c₀, w₀.conns.lookup fd = some c₀ ∧ c₀.closed = false
  exhausted {c} : w.conns.lookup fd = some c → c.Waits → w.available = 0
  available : ¬NobodyWaits w → ¬NobodyWaits w₀ → w.available ≤ w₀.available
  taken {c₀} : ¬NobodyWaits w → w₀.conns.lookup fd = some c₀ → c₀.Waits →
    (w.conns.lookup fd).any (fun c ↦ c.waitingForArena) = false → w.available < w₀.available

/-- Where `process_buffer` is that was called in `w₀` for the input of `c`. -/
structure Spending (cfg : GlobalConfig) (n : ℕ) (w₀ : World) (c : Connection) (offset : ℕ)
    (requests : Requests) (w : World) : Prop where
  stocked : Stocked cfg n w
  conns : Evolves SameButWorkers w₀ w
  waitingConns : w.waitingConns = w₀.waitingConns
  available : ¬NobodyWaits w₀ → w.available ≤ w₀.available
  taken {id} : id ∈ requests → id ∉ c.requests → ¬NobodyWaits w₀ → w.available < w₀.available
  opened {rec} : rec ∈ recordFramer.frames c.inBuf → Opens rec →
    rec ∈ recordFramer.frames (c.inBuf.drop offset) ∨ rec.requestId ∈ requests
  left {rec} : rec ∈ recordFramer.frames (c.inBuf.drop offset) → rec ∈ recordFramer.frames c.inBuf

section Process

variable {fd : ℤ} {w₀ : World} {c : Connection} {offset : ℕ} {requests : Requests}

private theorem stable_handled : Program.Stable (Polite cfg n) (Handled cfg n fd w₀) := by
  intro w w' hw h
  refine ⟨hw.stocked h.stocked, fun hc ↦ h.deferred (hw.conns ▸ hc),
    hw.waitingConns ▸ h.waitingConns, fun hc ↦ h.waits (hw.conns ▸ hc),
    fun hc ↦ h.opened (hw.conns ▸ hc), fun hc hwaits ↦ ?_, fun hwaits ↦ ?_, fun hwaits ↦ ?_⟩
  · rw [hw.conns] at hc
    have hle := hw.available (not_nobodyWaits hc hwaits)
    rwa [h.exhausted hc hwaits, Nat.le_zero] at hle
  · have hwaits' : ¬NobodyWaits w := fun hnobody ↦ hwaits (by rwa [NobodyWaits, hw.conns])
    exact fun hwaits₀ ↦ (hw.available hwaits').trans (h.available hwaits' hwaits₀)
  · have hwaits' : ¬NobodyWaits w := fun hnobody ↦ hwaits (by rwa [NobodyWaits, hw.conns])
    rw [hw.conns]
    exact fun hc₀ hwaits₀ hnot ↦ (hw.available hwaits').trans_lt (h.taken hwaits' hc₀ hwaits₀ hnot)

/-- The same connections wait, whatever the workers do. -/
private theorem nobodyWaits_of_evolves (h : Evolves SameButWorkers w w') (hw : NobodyWaits w') :
    NobodyWaits w := by
  refine nobodyWaits_iff.mpr fun fd c hc hwaits ↦ ?_
  obtain ⟨c', hc', active, -, rfl⟩ := h.lookup_right hc
  exact nobodyWaits_iff.mp hw fd _ hc' hwaits

private theorem stable_spending :
    Program.Stable (Polite cfg n) (Spending cfg n w₀ c offset requests) := by
  intro w w' hw h
  have hle (hwaits₀ : ¬NobodyWaits w₀) : w'.available ≤ w.available :=
    hw.available fun hnobody ↦ hwaits₀ (nobodyWaits_of_evolves h.conns hnobody)
  refine ⟨hw.stocked h.stocked, fun k ↦ hw.conns ▸ h.conns k, hw.waitingConns.trans h.waitingConns,
    fun hwaits₀ ↦ (hle hwaits₀).trans (h.available hwaits₀), fun hid hnew hwaits₀ ↦
      (hle hwaits₀).trans_lt (h.taken hid hnew hwaits₀), h.opened, h.left⟩

private theorem spending_start (h : Stocked cfg n w₀) (hw : Polite cfg n w₀ w) :
    Spending cfg n w₀ c 0 c.requests w where
  stocked := hw.stocked h
  conns k := by
    rw [hw.conns]
    exact Evolves.refl .refl w₀ k
  waitingConns := hw.waitingConns
  available := hw.available
  taken hid hnew := absurd hid hnew
  opened hrec _ := .inl hrec
  left hrec := hrec

/-- **A turn of the loop.** -/
theorem Spending.turn (h : Spending cfg n w₀ c offset requests w) {io : ConnRef} {out e : Bytes}
    {rec : Record} (hnext : nextRecord (c.inBuf.drop offset) = some (rec, e)) {m : Machine World}
    (hm : processRecord cfg.toLimits (callbacks cfg io) rec ⟨requests, out, w⟩ = .next m) :
    Spending cfg n w₀ c (offset + rec.header.totalLen) m.requests m.ext := by
  obtain ⟨hdrop, -⟩ := drop_of_nextRecord hnext
  have hframes : recordFramer.frames (c.inBuf.drop offset) = rec :: recordFramer.frames e :=
    Framer.frames_of_some hnext
  obtain ⟨m', hm', hspends, hpooled, hopened⟩ : ∃ m', processRecord cfg.toLimits (callbacks cfg io)
      rec ⟨requests, out, w⟩ = .next m' ∧ Spends ⟨requests, out, w⟩ m' ∧
        Pooled cfg n m'.ext.arenas ∧ (Opens rec → rec.requestId ∈ m'.requests) := by
    rcases turn_spends cfg.toLimits io (m := ⟨requests, out, w⟩) h.stocked.pool rec with
      hspends | ⟨hdeferred, -⟩
    · exact hspends
    · cases hdeferred.symm.trans hm
  obtain rfl : m' = m := Turn.next.inj (hm'.symm.trans hm)
  obtain ⟨hqueue, hws⟩ := queue_turn cfg io ⟨requests, out, w⟩ rec
  have hevolves := evolves_turn cfg cfg.toLimits io ⟨requests, out, w⟩ rec
  rw [Fastcgi.turn, hm] at hqueue hws hevolves
  refine ⟨⟨hpooled, fun hmem ↦ h.stocked.ws (hws ▸ hmem)⟩, h.conns.trans .trans hevolves,
    hqueue.trans h.waitingConns, fun hwaits₀ ↦ hspends.available.trans (h.available hwaits₀),
    fun {id} hid hnew hwaits₀ ↦ ?_, fun {r} hr hopens ↦ ?_, fun {r} hr ↦ ?_⟩
  · by_cases hold : id ∈ requests
    · exact hspends.available.trans_lt (h.taken hold hnew hwaits₀)
    · exact (hspends.taken hid hold).trans_le (h.available hwaits₀)
  · rw [hdrop]
    rcases h.opened hr hopens with hleft | hid
    · rw [hframes] at hleft
      rcases List.mem_cons.mp hleft with rfl | hleft
      · exact .inr (hopened hopens)
      · exact .inl hleft
    · exact .inr (hspends.kept hid)
  · rw [hdrop] at hr
    exact h.left (hframes ▸ List.mem_cons_of_mem _ hr)

/-- **The end of `process_fcgi`.** Either a record has been deferred and no arena is left, or all of
them have been handled. -/
theorem Spending.writeBack (h : Spending cfg n w₀ c offset requests w)
    (hdeferred : ∀ {k c₀}, w₀.conns.lookup k = some c₀ → c₀.Waits → Deferred c₀)
    (hc : w₀.conns.lookup fd = some c) (hopen : c.closed = false) {res : ProcessResult World}
    (hext : res.ext = w) (hrequests : res.requests = requests)
    (hwaiting : res.waitingForArena = true → w.available = 0 ∧ res.inBuf = c.inBuf ∧
      ∃ rec ∈ recordFramer.frames (c.inBuf.drop offset), Opens rec ∧ rec.requestId ∉ requests)
    (hdone : res.waitingForArena = false → recordFramer.frames (c.inBuf.drop offset) = []) :
    Handled cfg n fd w₀ (writeBack fd res) := by
  subst hext hrequests
  have havailable : (FcgiConn.writeBack fd res).available = res.ext.available := by
    rw [World.available, FcgiConn.writeBack, World.arenas_updateConn, World.available]
  have hothers {k : ℤ} {c' : Connection}
      (hc' : (FcgiConn.writeBack fd res).conns.lookup k = some c') (hk : k ≠ fd) :
      ∃ c₀, w₀.conns.lookup k = some c₀ ∧ SameButWorkers c₀ c' := by
    rw [FcgiConn.writeBack, World.lookup_updateConn] at hc'
    simp only [if_neg hk, Option.map_id'] at hc'
    exact h.conns.lookup_left hc'
  have hself {c' : Connection} (hc' : (FcgiConn.writeBack fd res).conns.lookup fd = some c') :
      c'.waitingForArena = res.waitingForArena ∧ c'.inBuf = res.inBuf ∧
        c'.requests = res.requests := by
    rw [FcgiConn.writeBack, World.lookup_updateConn, Option.map_eq_some_iff] at hc'
    obtain ⟨c₁, -, rfl⟩ := hc'
    rw [if_pos rfl]
    exact ⟨rfl, rfl, rfl⟩
  refine ⟨h.stocked.of_eq (World.arenas_updateConn _ _) (World.wsArenas_updateConn _ _), ?_, ?_, ?_,
    fun _ _ ↦ ⟨c, hc, hopen⟩, ?_, fun _ hwaits₀ ↦ havailable ▸ h.available hwaits₀, ?_⟩
  · intro k c' hc' hwaits
    by_cases hk : k = fd
    · subst hk
      obtain ⟨hwait, hbuf, hreq⟩ := hself hc'
      obtain ⟨-, hsame, rec, hrec, hopens, hid⟩ := hwaiting (hwait ▸ hwaits.2)
      exact ⟨rec, by rw [hbuf, hsame]; exact h.left hrec, hopens, hreq ▸ hid⟩
    · obtain ⟨c₀, hc₀, active, -, rfl⟩ := hothers hc' hk
      have hold : Deferred c₀ := hdeferred hc₀ hwaits
      exact hold
  · rw [FcgiConn.writeBack, World.updateConn_eq, ← h.waitingConns]
  · intro k c' hc' hwaits
    by_cases hk : k = fd
    · exact .inl hk
    · obtain ⟨c₀, hc₀, active, -, rfl⟩ := hothers hc' hk
      exact .inr ⟨c₀, hc₀, hwaits⟩
  · intro c' hc' hwaits
    rw [havailable]
    exact (hwaiting ((hself hc').1 ▸ hwaits.2)).1
  · intro c₀ _ hc₀ hwaits hnot
    obtain rfl := Option.some.inj (hc.symm.trans hc₀)
    obtain ⟨c₁, hc₁, -⟩ := h.conns.lookup_right hc
    obtain ⟨c', hc'⟩ : ∃ c', (FcgiConn.writeBack fd res).conns.lookup fd = some c' := by
      rw [FcgiConn.writeBack, World.lookup_updateConn, hc₁]
      exact ⟨_, rfl⟩
    rw [hc', Option.any_some, (hself hc').1] at hnot
    -- what it was deferred at has been handled, and so has taken an arena
    obtain ⟨rec, hrec, hopens, hnew⟩ := hdeferred hc hwaits
    rw [havailable]
    rcases h.opened hrec hopens with hleft | hid
    · rw [hdone hnot] at hleft
      exact absurd hleft List.not_mem_nil
    · exact h.taken hid hnew (not_nobodyWaits hc hwaits)

private theorem Spending.leads (h : Spending cfg n w₀ c offset requests w)
    (hdeferred : ∀ {k c₀}, w₀.conns.lookup k = some c₀ → c₀.Waits → Deferred c₀)
    (hc : w₀.conns.lookup fd = some c) (hopen : c.closed = false) (out : Bytes) {fuel : ℕ}
    (hfuel : c.inBuf.length ≤ offset + fuel) :
    Leads cfg n (decodeProgram cfg ⟨fd, c.cid⟩ c.inBuf fuel offset requests out)
      (Handled cfg n fd w₀) w := by
  have hend {offset : ℕ} {requests : Requests} {w : World}
      (h : Spending cfg n w₀ c offset requests w) (out : Bytes)
      (hnone : recordFramer.next (c.inBuf.drop offset) = none) :
      Leads cfg n (plainly fun w ↦ FcgiConn.writeBack fd
        (exitResult c.inBuf ⟨offset, false, ⟨requests, out, w⟩⟩)) (Handled cfg n fd w₀) w :=
    leads_plainly stable_spending h fun w hw ↦ hw.writeBack hdeferred hc hopen rfl rfl
      (fun hwaiting ↦ absurd hwaiting Bool.false_ne_true) fun _ ↦ Framer.frames_of_none hnone
  induction fuel generalizing offset requests out w with
  | zero =>
    have hnil : c.inBuf.drop offset = [] := List.drop_eq_nil_of_le hfuel
    exact hend h out (hnil ▸ recordFramer.next_nil)
  | succ fuel ih =>
    rw [decodeProgram]
    split
    · next hnone => exact hend h out hnone
    next rec e hnext =>
    obtain ⟨-, hpos, -⟩ := drop_of_nextRecord hnext
    refine leads_step stable_spending h fun w hw _ ↦ ?_
    have hturn {m : Machine World} (hm : processRecord cfg.toLimits (callbacks cfg ⟨fd, c.cid⟩) rec
        ⟨requests, out, w⟩ = .next m) := hw.turn hnext hm
    rw [Fastcgi.turn]
    cases hrec : processRecord cfg.toLimits (callbacks cfg ⟨fd, c.cid⟩) rec ⟨requests, out, w⟩ with
    | next m => exact ih (hturn hrec) m.outBuf (by omega)
    | deferred m =>
      rcases turn_spends cfg.toLimits ⟨fd, c.cid⟩ (m := ⟨requests, out, w⟩) hw.stocked.pool rec with
        ⟨m', hm', -⟩ | ⟨hdeferred', hopens, hid, -⟩
      · cases hm'.symm.trans hrec
      obtain rfl : ⟨requests, out, w⟩ = m := Turn.deferred.inj (hdeferred'.symm.trans hrec)
      refine leads_step stable_spending hw fun w hw hnone ↦
        hw.writeBack hdeferred hc hopen rfl rfl (fun _ ↦ ⟨hnone, rfl, rec, ?_, hopens, hid⟩)
          fun hdone ↦ ?_
      · rw [Framer.frames_of_some hnext]
        exact List.mem_cons_self
      · cases hdone

/-- Nobody is there to be served. -/
private theorem Serving.handled {m budget : ℕ} {popped : Option ℤ}
    (h : Serving cfg n m budget popped w₀) (hw : Polite cfg n w₀ w)
    (hclosed : ∀ c, w.conns.lookup fd = some c → c.closed = true) : Handled cfg n fd w₀ w where
  stocked := hw.stocked h.stocked
  deferred hc := h.deferred (hw.conns ▸ hc)
  waitingConns := hw.waitingConns ▸ List.prefix_rfl
  waits hc hwaits := .inr ⟨_, hw.conns ▸ hc, hwaits⟩
  opened hc hopen := absurd (hopen.symm.trans (hclosed _ hc)) Bool.false_ne_true
  exhausted hc hwaits := absurd (hwaits.1.symm.trans (hclosed _ hc)) Bool.false_ne_true
  available _ hwaits₀ := hw.available hwaits₀
  taken _ hc₀ hwaits _ :=
    absurd (hwaits.1.symm.trans (hclosed _ (hw.conns.symm ▸ hc₀))) Bool.false_ne_true

theorem Serving.leads_process {m budget : ℕ} {popped : Option ℤ}
    (h : Serving cfg n m budget popped w₀) (fd : ℤ) :
    Leads cfg n (processProgram cfg fd) (Handled cfg n fd w₀) w₀ := by
  refine leads_look (P := Polite cfg n w₀) (fun _ _ hw' hw ↦ hw.trans hw') (.refl w₀)
    fun w hw ↦ ?_
  split
  · next hnone => exact h.handled hw fun c hc ↦ by cases hnone.symm.trans hc
  next c hc =>
  split
  · next hclosed =>
    refine h.handled hw fun c' hc' ↦ ?_
    rwa [← Option.some.inj (hc.symm.trans hc')]
  · next hopen =>
    exact (spending_start h.stocked hw).leads h.deferred (hw.conns ▸ hc)
      (Bool.eq_false_iff.mpr hopen) c.outBuf (Nat.zero_add _).ge

theorem Handled.push (h : Handled cfg n fd w₀ w) :
    Handled cfg n fd w₀ { w with waitingConns := w.waitingConns ++ [fd] } :=
  ⟨h.stocked.of_eq rfl rfl, h.deferred, h.waitingConns.trans (List.prefix_append _ _), h.waits,
    h.opened, h.exhausted, h.available, h.taken⟩

/-- Behind `process_fcgi` the loop can go on, with a budget `b` that is still enough, if the
connection has been queued again or does not wait. -/
theorem Handled.serving {m budget b : ℕ} {popped : Option ℤ} (h : Handled cfg n fd w₀ w)
    (h₀ : Serving cfg n m budget popped w₀) (hpopped : ∀ k ∈ popped, k = fd)
    (hqueued : ∀ c, w.conns.lookup fd = some c → c.Waits → fd ∈ w.waitingConns)
    (hb : ¬NobodyWaits w → ¬NobodyWaits w₀ → w₀.available ≤ budget → w.available ≤ b) :
    Serving cfg n m b none w := by
  refine ⟨h.stocked, h.deferred, fun {k c} hc hwaits ↦ .inr ?_, fun {k c} hpos hc hwaits ↦ ?_⟩
  · by_cases hk : k = fd
    · exact hk ▸ hqueued c (hk ▸ hc) hwaits
    obtain ⟨c₀, hc₀, hwaits₀⟩ := (h.waits hc hwaits).resolve_left hk
    rcases h₀.queued hc₀ hwaits₀ with hmem | hmem
    · exact absurd (hpopped k hmem) hk
    · exact h.waitingConns.subset hmem
  · have hk : k ≠ fd := by
      rintro rfl
      exact hpos.ne' (h.exhausted hc hwaits)
    obtain ⟨c₀, hc₀, hwaits₀⟩ := (h.waits hc hwaits).resolve_left hk
    have hsome := not_nobodyWaits hc hwaits
    have hsome₀ := not_nobodyWaits hc₀ hwaits₀
    obtain ⟨hbudget, hmem | hmem⟩ :=
      h₀.served (hpos.trans_le (h.available hsome hsome₀)) hc₀ hwaits₀
    · exact absurd (hpopped k hmem) hk
    · exact ⟨hb hsome hsome₀ hbudget, .inr ((h.waitingConns.take m).subset hmem)⟩

end Process

/-! ## The loop over the queue

Each turn takes a connection from the queue. It is served and has taken an arena, or it still waits
and no arena is left, or it has not waited at all; in every case what is left of the budget and of
the turns is enough for those that wait. -/

section Loops

variable {m budget : ℕ} {popped : Option ℤ}

theorem Serving.pop {fd : ℤ} {fds : List ℤ} (h : Serving cfg n (m + 1) budget none w)
    (hqueue : w.waitingConns = fd :: fds) :
    Serving cfg n m budget (some fd) { w with waitingConns := fds } := by
  refine ⟨h.stocked.of_eq rfl rfl, h.deferred, fun {k c} hc hwaits ↦ ?_,
    fun {k c} hpos hc hwaits ↦ ?_⟩
  · have hmem := (h.queued hc hwaits).resolve_left fun hnone ↦ by cases hnone
    rw [hqueue] at hmem
    exact (List.mem_cons.mp hmem).imp_left fun hk ↦ Option.mem_some_iff.mpr hk.symm
  · obtain ⟨hbudget, hmem⟩ := h.served hpos hc hwaits
    have hmem := hmem.resolve_left fun hnone ↦ by cases hnone
    rw [hqueue, List.take_succ_cons] at hmem
    exact ⟨hbudget, (List.mem_cons.mp hmem).imp_left fun hk ↦ Option.mem_some_iff.mpr hk.symm⟩

/-- The connection that was popped does not wait. -/
theorem Serving.skip {fd : ℤ} (h : Serving cfg n m budget (some fd) w)
    (hnot : ∀ c, w.conns.lookup fd = some c → ¬c.Waits) : Serving cfg n m budget none w := by
  have hk {k : ℤ} {c : Connection} (hc : w.conns.lookup k = some c) (hwaits : c.Waits) :
      k ∉ some fd := by
    rw [Option.mem_some_iff]
    rintro rfl
    exact hnot c hc hwaits
  refine ⟨h.stocked, h.deferred, fun hc hwaits ↦ .inr ((h.queued hc hwaits).resolve_left
    (hk hc hwaits)), fun hpos hc hwaits ↦ ?_⟩
  obtain ⟨hbudget, hmem⟩ := h.served hpos hc hwaits
  exact ⟨hbudget, .inr (hmem.resolve_left (hk hc hwaits))⟩

/-- **The loop serves the queue**, by induction on its turns. -/
theorem Serving.leads_waiting (h : Serving cfg n m budget none w) :
    Leads cfg n (waitingProgram cfg m budget) (Serving cfg n 0 0 none) w := by
  induction m generalizing budget w with
  | zero => exact h.rest (.inr List.take_zero)
  | succ m ih =>
    rw [waitingProgram]
    split
    · next hzero => exact h.rest (.inl hzero)
    refine leads_look stable_serving h fun w hw ↦ ?_
    split
    · next hnil => exact hw.rest (.inr (by rw [hnil, List.take_nil]))
    next fd fds hqueue =>
    have hpop : Leads cfg n (plainly fun w ↦ { w with waitingConns := fds })
        (Serving cfg n m budget (some fd)) w := by
      refine leads_plainly (P := fun w ↦ Serving cfg n (m + 1) budget none w ∧
        w.waitingConns = fd :: fds) (fun w w' hw' h ↦ ?_) ⟨hw, hqueue⟩ fun w hw ↦ hw.1.pop hw.2
      exact ⟨stable_serving w w' hw' h.1, hw'.waitingConns.trans h.2⟩
    refine hpop.seq fun w hw ↦ leads_look stable_serving hw fun w hw ↦ ?_
    split
    · next hnone => exact ih (hw.skip fun c hc ↦ by cases hnone.symm.trans hc)
    next c hc =>
    split
    · next hclosed =>
      refine ih (hw.skip fun c' hc' hwaits ↦ ?_)
      rw [Option.some.inj (hc.symm.trans hc'), hwaits.1] at hclosed
      cases hclosed
    next hopen =>
    have hpopped : ∀ k ∈ some fd, k = fd := fun k hk ↦ (Option.mem_some_iff.mp hk).symm
    refine (hw.leads_process fd).seq fun w₁ hhandled ↦
      leads_look stable_handled hhandled fun w₁ hhandled ↦ ?_
    have hnot (hdone : (w₁.conns.lookup fd).any (fun c ↦ c.waitingForArena) = false)
        (c' : Connection) (hc' : w₁.conns.lookup fd = some c') (hwaits : c'.Waits) :
        fd ∈ w₁.waitingConns := by
      rw [hc', Option.any_some, hwaits.2] at hdone
      cases hdone
    simp only
    split
    · -- it has been served, and has taken an arena
      next hdone =>
      rw [Bool.and_eq_true, Bool.not_eq_true'] at hdone
      have hwaited : c.Waits := ⟨Bool.eq_false_iff.mpr hopen, hdone.1⟩
      have hserved : Serving cfg n m (budget - 1) none w₁ :=
        hhandled.serving hw hpopped (hnot hdone.2) fun hsome _ hbudget ↦
          Nat.le_sub_one_of_lt ((hhandled.taken hsome hc hwaited hdone.2).trans_le hbudget)
      exact (hserved.leads_calm (calm_flushConnection fd)).seq fun w hw ↦ ih hw
    split
    · -- it still waits
      refine (leads_plainly stable_handled hhandled fun w₂ hhandled ↦ ?_).seq fun w hw ↦ ih hw
      refine hhandled.push.serving hw hpopped (fun _ _ _ ↦ ?_) fun hsome hsome₀ hbudget ↦ ?_
      · exact List.mem_append_right _ (List.mem_singleton_self _)
      · exact (hhandled.available hsome hsome₀).trans hbudget
    · next hdone =>
      refine ih (hhandled.serving hw hpopped (hnot (Bool.not_eq_true _ ▸ hdone)) ?_)
      exact fun hsome hsome₀ hbudget ↦ (hhandled.available hsome hsome₀).trans hbudget

/-! ## Releasing requests

An arena that a release gives back is there for those that wait, and the loop behind it begins with
as many turns as there are connections in the queue and a budget of all that is available. -/

/-- Whoever waits is queued, and the loop may begin. -/
def Attended (cfg : GlobalConfig) (n : ℕ) (w : World) : Prop :=
  ∃ m budget, Serving cfg n m budget none w

private theorem stable_attended : Program.Stable (Polite cfg n) (Attended cfg n) :=
  fun w w' hw ⟨m, budget, h⟩ ↦ ⟨m, budget, stable_serving w w' hw h⟩

theorem Serving.destroyRequest (h : Serving cfg n m budget none w) (fd : ℤ) (id : UInt16) :
    Attended cfg n (destroyRequest fd id w) := by
  obtain ⟨hcalm, harenas⟩ := calm_destroyRequest fd id w
  have hcalmed := h.calm hcalm
  have hpool : Pooled cfg n (FcgiConn.destroyRequest fd id w).arenas := by
    rcases harenas with heq | ⟨i, heq⟩
    · exact heq ▸ h.stocked.pool
    · exact heq ▸ h.stocked.pool.release i
  exact ⟨_, _, serving_start ⟨hpool, hcalmed.stocked.ws⟩ hcalmed.deferred hcalmed.queued⟩

/-- **A release serves the queue.** -/
theorem Serving.leads_release (h : Serving cfg n 0 0 none w) (fd : ℤ) (id : UInt16) :
    Leads cfg n (releaseProgram cfg fd id) (Serving cfg n 0 0 none) w := by
  refine (leads_plainly stable_serving h fun w hw ↦ hw.destroyRequest fd id).seq fun w hw ↦
    leads_step stable_attended hw fun w hw _ ↦ ?_
  have htested : Attended cfg n (testResume w) := by
    obtain ⟨m, budget, hw⟩ := hw
    rw [testResume]
    split
    · exact ⟨m, budget, hw.calm (.of_lookup (fun _ ↦ rfl) rfl rfl rfl)⟩
    · exact ⟨m, budget, hw⟩
  exact leads_look stable_attended htested fun w ⟨_, _, hw⟩ ↦
    (serving_start hw.stocked hw.deferred hw.queued).leads_waiting

private theorem Serving.leads_sweepRequest (h : Serving cfg n 0 0 none w) (fd : ℤ) (id : UInt16) :
    Leads cfg n (sweepRequestProgram cfg fd id) (Serving cfg n 0 0 none) w := by
  have hrelease {w : World} (hw : Serving cfg n 0 0 none w) :
      Leads cfg n ((releaseProgram cfg fd id).seq (plainly (eraseRequest fd id)))
        (Serving cfg n 0 0 none) w :=
    (hw.leads_release fd id).seq fun w hw ↦ hw.leads_calm (calm_eraseRequest fd id)
  refine leads_look stable_serving h fun w hw ↦ ?_
  split
  · exact hw
  split
  · exact hw
  split
  · exact (hw.leads_calm (calm_finalizeRequest cfg fd id)).seq fun w hw ↦ hrelease hw
  split
  · exact hrelease hw
  · exact hw

private theorem Serving.leads_close (h : Serving cfg n 0 0 none w) (fd : ℤ) :
    Leads cfg n (closeProgram cfg fd) (Serving cfg n 0 0 none) w := by
  have hrequest (id : UInt16) (w : World) (hw : Serving cfg n 0 0 none w) :
      Leads cfg n (cleanupRequestProgram cfg fd id) (Serving cfg n 0 0 none) w := by
    refine leads_look stable_serving hw fun w hw ↦ ?_
    split
    · exact hw
    next r _ =>
    have hfinalized : Leads cfg n (if r.flags.responded then .done
        else plainly (finalizeRequest cfg fd id)) (Serving cfg n 0 0 none) w := by
      split
      · exact hw
      · exact hw.leads_calm (calm_finalizeRequest cfg fd id)
    exact hfinalized.seq fun w hw ↦ hw.leads_release fd id
  have hcleanup {w : World} (hw : Serving cfg n 0 0 none w) :
      Leads cfg n (cleanupProgram cfg fd) (Serving cfg n 0 0 none) w :=
    leads_look stable_serving hw fun w hw ↦
      (Program.safe_each hrequest (requestIds fd w) hw).seq fun w hw ↦
        leads_step stable_serving hw fun w hw _ ↦ hw.calm (calm_clear fd w)
  refine leads_look stable_serving h fun w hw ↦ ?_
  split
  · exact hw
  · exact (hcleanup hw).seq fun w hw ↦ hw.leads_calm (calm_eraseConnection fd)

private theorem Serving.leads_drain (h : Serving cfg n 0 0 none w) :
    Leads cfg n (drainProgram cfg) (Serving cfg n 0 0 none) w := by
  have hempty (w : World) : Calm w { w with closeQueue := [] } :=
    .of_lookup (fun _ ↦ rfl) rfl rfl rfl
  have hturn (cfd : ℤ) (w : World) (hw : Serving cfg n 0 0 none w) :
      Leads cfg n (drainTurnProgram cfg cfd) (Serving cfg n 0 0 none) w := by
    refine (hw.leads_calm (calm_indexConns cfd)).seq fun w hw ↦
      leads_look stable_serving hw fun w hw ↦ ?_
    split
    · exact hw.leads_close cfd
    · exact hw
  exact leads_look stable_serving h fun w hw ↦ (hw.leads_calm hempty).seq fun w hw ↦
    Program.safe_each hturn _ hw

end Loops

/-! ## The handlers

Who starts to wait in `handle_io` is put in the queue right behind `process_fcgi`. Everything else
the handlers do is calm, or a release. -/

section Handlers

private theorem Serving.leads_handleInput (h : Serving cfg n 0 0 none w) (fd : ℤ) (data : Bytes)
    (ending : RecvEnd) :
    Leads cfg n (handleInputProgram cfg fd data ending) (Serving cfg n 0 0 none) w := by
  refine (h.leads_calm (calm_readAll fd data ending)).seq fun w hw ↦
    leads_look stable_serving hw fun w₀ hw₀ ↦ (hw₀.leads_process fd).seq fun w hhandled ↦ ?_
  refine Program.Safe.seq ?_ fun w (hw : Serving cfg n 0 0 none w) ↦
    hw.leads_calm (calm_flushConnection fd)
  refine leads_plainly stable_handled hhandled fun w hhandled ↦ ?_
  have hpopped : ∀ k ∈ (none : Option ℤ), k = fd := fun _ hk ↦ by cases hk
  simp only
  split
  · refine hhandled.push.serving hw₀ hpopped (fun _ _ _ ↦ ?_) fun hsome hsome₀ hbudget ↦ ?_
    · exact List.mem_append_right _ (List.mem_singleton_self _)
    · exact (hhandled.available hsome hsome₀).trans hbudget
  · next hold =>
    refine hhandled.serving hw₀ hpopped (fun c hc hwaits ↦ ?_) fun hsome hsome₀ hbudget ↦ ?_
    · -- it has waited before, and has been queued since
      rw [hc, Option.any_some, hwaits.2, Bool.and_true, Bool.not_eq_true', Bool.not_eq_false,
        Option.any_eq_true] at hold
      obtain ⟨c₀, hc₀, hwaited⟩ := hold
      obtain ⟨c₁, hc₁, hopen⟩ := hhandled.opened hc hwaits.1
      obtain rfl := Option.some.inj (hc₀.symm.trans hc₁)
      have hmem := (hw₀.queued hc₀ ⟨hopen, hwaited⟩).resolve_left fun hnone ↦ by cases hnone
      exact hhandled.waitingConns.subset hmem
    · exact (hhandled.available hsome hsome₀).trans hbudget

private theorem Serving.leads_handleIo (h : Serving cfg n 0 0 none w) (fd : ℤ) (events : IoEvents)
    (data : Bytes) (ending : RecvEnd) :
    Leads cfg n (handleIoProgram cfg fd events data ending) (Serving cfg n 0 0 none) w := by
  have hhup (w : World) : Calm w (if events.hupOrErr then
      w.updateConn fd fun c ↦ { c with closed := true } else w) := by
    split
    · exact calm_hangUp fd w
    · exact .refl w
  have hin {w : World} (hw : Serving cfg n 0 0 none w) :
      Leads cfg n (if events.epollIn then handleInputProgram cfg fd data ending else .done)
        (Serving cfg n 0 0 none) w := by
    split
    · exact hw.leads_handleInput fd data ending
    · exact hw
  have hout {w : World} (hw : Serving cfg n 0 0 none w) :
      Leads cfg n (if events.epollOut then plainly (flushConnection fd) else .done)
        (Serving cfg n 0 0 none) w := by
    split
    · exact hw.leads_calm (calm_flushConnection fd)
    · exact hw
  have hserve {w : World} (hw : Serving cfg n 0 0 none w) :
      Leads cfg n (serveIoProgram cfg fd events data ending) (Serving cfg n 0 0 none) w :=
    (hw.leads_calm hhup).seq fun w hw ↦ (hin hw).seq fun w hw ↦ hout hw
  have hsweep {w : World} (hw : Serving cfg n 0 0 none w) :
      Leads cfg n (sweepProgram cfg fd) (Serving cfg n 0 0 none) w :=
    leads_look stable_serving hw fun w hw ↦
      Program.safe_each (fun id w hw ↦ hw.leads_sweepRequest fd id) _ hw
  have hqueue (w : World) : Calm w (queueClose fd w) := by
    rw [queueClose]
    split
    · exact .of_lookup (fun _ ↦ rfl) rfl rfl rfl
    · exact .refl w
  refine leads_look stable_serving h fun w hw ↦ ?_
  split
  · exact hw
  · exact (hserve hw).seq fun w hw ↦ (hsweep hw).seq fun w hw ↦ (hw.leads_calm hqueue).seq
      fun w hw ↦ hw.leads_drain

private theorem Serving.leads_newConnections (h : Serving cfg n 0 0 none w) (cfds : List ℤ) :
    Leads cfg n (newConnectionsProgram cfds) (Serving cfg n 0 0 none) w := by
  have hpause (w : World) : Calm w (testPause w) := by
    rw [testPause]
    split
    · exact .of_lookup (fun _ ↦ rfl) rfl rfl rfl
    · exact .refl w
  have haccept : ∀ {w : World}, Serving cfg n 0 0 none w →
      Leads cfg n (acceptProgram cfds) (Serving cfg n 0 0 none) w := by
    induction cfds with
    | nil => exact fun hw ↦ hw
    | cons cfd cfds ih =>
      refine fun hw ↦ leads_look stable_serving hw fun w hw ↦ ?_
      split
      · exact hw
      refine (hw.leads_calm (calm_acceptConnection cfd)).seq fun w hw ↦
        leads_step stable_serving hw fun w hw _ ↦ ?_
      split
      · exact hw.calm (hpause w)
      · exact ih (hw.calm (hpause w))
  refine leads_step stable_serving h fun w hw _ ↦ ?_
  split
  · exact hw.calm (hpause w)
  · exact haccept (hw.calm (hpause w))

/-- **Every handler serves the queue** as long as there are arenas. -/
theorem Serving.leads_handler (h : Serving cfg n 0 0 none w) (e : Event) :
    Leads cfg n (handler cfg app e) (Serving cfg n 0 0 none) w := by
  cases e with
  | io fd events data ending => exact h.leads_handleIo fd events data ending
  | housekeeping =>
    refine (h.leads_calm fun w ↦ calm_foldl (calm_timeoutRequests cfg) _ w).seq fun w hw ↦
      leads_look stable_serving hw fun w hw ↦
        Program.safe_each (fun fd w hw ↦ hw.leads_close fd) _ hw
  | accept cfds => exact h.leads_newConnections cfds
  | pendingOutput => exact h.leads_calm (calm_processPendingOutput app)
  | worker k => exact h.leads_calm (calm_workerStep app k)
  | outside elapsed sends =>
    exact h.leads_calm fun w ↦ .of_lookup (fun _ ↦ rfl) rfl rfl rfl
  | wsTake => exact h
  | wsReturn k => exact h
  | rehash fds fd ids => exact h.leads_calm fun w ↦ calm_rehash cfg app w fds fd ids

end Handlers

/-! ## Runs -/

private theorem serving_initial {bases : List UInt64} {capacity : UInt64} (hfits : ∀ base ∈ bases,
    (Arena.alloc { data := base, capacity := capacity } cfg.sizeofRequest
      cfg.alignofRequest).block?.isSome) :
    Serving cfg bases.length 0 0 none (initial bases capacity) := by
  have hnobody {fd : ℤ} {c : Connection} :
      (initial bases capacity).conns.lookup fd ≠ some c := fun hc ↦ by cases hc
  exact ⟨⟨⟨ArenaManager.counted_createArenas bases capacity, roomy_createArenas hfits⟩,
    fun hmem ↦ absurd hmem List.not_mem_nil⟩, fun hc ↦ absurd hc hnobody,
    fun hc ↦ absurd hc hnobody, fun _ hc ↦ absurd hc hnobody⟩

/-- What is left of the handler serves the queue. -/
private def Continues (cfg : GlobalConfig) (n : ℕ) (x : Process World Point) : Prop :=
  Leads cfg n x.program (Serving cfg n 0 0 none) x.state

variable (cfg app) in
private theorem Continues.move {x : Process World Point} (h : Continues cfg n x) {i : Move}
    (hspares : SparesHandlers x i) (hreturns : ReturnsToNobody x i) :
    Continues cfg n (move cfg app x i) := by
  refine Process.safe_move Polite.refl (fun _ _ _ ↦ Polite.trans)
    (fun _ _ _ _ _ ↦ trivial) stable_serving (fun e w hw ↦ hw.leads_handler e) h ?_ fun o ho ↦ ?_
  · cases i with
    | proceed =>
      rintro label hlabel
      cases label with
      | deferring => exact hspares hlabel
      | _ => exact trivial
    | _ => exact trivial
  · subst ho
    refine polite_interfere cfg app n x.state o fun k hk hlt ↦ ?_
    subst hk
    by_cases hrest : x.program.coming = none
    · exact hreturns hrest hlt
    · exact hspares hrest hlt

/-- An arena that comes back between two handlers stays where it is, whoever waits. -/
private theorem Continues.not_workConserving {x : Process World Point} (h : Continues cfg n x)
    {i : Move} (hreturns : ¬ReturnsToNobody x i) :
    ¬AtRest WorkConserving (FcgiConn.move cfg app x i) := by
  obtain ⟨w, p⟩ := x
  rcases i with e | _ | o
  · exact absurd trivial hreturns
  · exact absurd trivial hreturns
  cases o with
  | take => exact absurd trivial hreturns
  | giveBack k =>
    rw [ReturnsToNobody, Classical.not_imp, Classical.not_imp] at hreturns
    obtain ⟨hrest, hlt, hwaits⟩ := hreturns
    cases p with
    | step p f next => cases hrest
    | done =>
    exact fun hworks ↦ hwaits
      ((workConserving_giveBack_iff cfg app h.stocked hlt).mp (hworks rfl))

/-- **When a free arena is given to whoever waits.** Throughout a run in which the websocket tasks
spare the handlers, nobody waits between two handlers while an arena is available, exactly if the
tasks give theirs back between two handlers only when nobody waits: every release of a FastCGI
request serves the queue. A request has to fit into an arena. -/
theorem always_workConserving_iff (cfg : GlobalConfig) (app : Application) {bases : List UInt64}
    {capacity : UInt64} (hfits : ∀ base ∈ bases, (Arena.alloc { data := base, capacity := capacity }
      cfg.sizeofRequest cfg.alignofRequest).block?.isSome) {moves : List Move}
    (hspares : Meets (move cfg app) SparesHandlers (idle (initial bases capacity)) moves) :
    Always (move cfg app) (AtRest WorkConserving) (idle (initial bases capacity)) moves
      ↔ Meets (move cfg app) ReturnsToNobody (idle (initial bases capacity)) moves := by
  refine hspares.always_iff (I := Continues cfg bases.length) (fun x hx hrest ↦ ?_)
    (fun x i hx ↦ hx.move cfg app) (fun x i hx _ ↦ hx.not_workConserving) (serving_initial hfits)
  obtain ⟨w, p⟩ := x
  cases p with
  | done => exact hx.workConserving
  | step p f next => cases hrest

/-- A websocket task holds the second of two arenas when a second request begins. -/
def beginsDuringWebsocket : List Move :=
  .start (.accept [5]) :: (proceeds 10 ++
    .start (.io 5 ⟨true, false, false⟩ [1, 1, 0, 1, 0, 8, 0, 0, 0, 1, 0, 0, 0, 0, 0, 0] .again) ::
    (proceeds 40 ++ .interfere .take ::
    [.start (.io 5 ⟨true, false, false⟩ [1, 1, 0, 2, 0, 8, 0, 0, 0, 1, 0, 0, 0, 0, 0, 0] .again)]))

/-- The arena comes back between two handlers, and the connection goes on waiting. -/
theorem not_always_workConserving_beginsDuringWebsocket :
    ¬Always (move {} silent) (AtRest WorkConserving) (idle (initial [0x10000, 0x20000] 0x10000))
      (beginsDuringWebsocket ++ (proceeds 40 ++ [.interfere (.giveBack 0)])) := by
  rw [always_workConserving_iff {} silent (List.forall_mem_cons.mpr
    ⟨by decide +kernel, List.forall_mem_singleton.mpr (by decide +kernel)⟩) (by decide +kernel)]
  decide +kernel

/-- An arena that comes back behind `get` is missed as well, although nobody waits yet. -/
example :
    let x := (beginsDuringWebsocket ++ (proceeds 6 ++ .interfere (.giveBack 0) ::
      proceeds 30)).foldl (move {} silent) (idle (initial [0x10000, 0x20000] 0x10000))
    x.program.coming = none ∧ 0 < x.state.available ∧ ¬NobodyWaits x.state := by decide +kernel

end Wasapi.FcgiConn
