import Wasapi.Fastcgi.Isolation

/-!
# Invariants of the decoder

A record does one of three things to its request: it changes flags, and then takes back neither
FAILED nor RESPONDED; it stores pairs; or it appends to the body. The last two happen only to a
request that has not failed, and within the limits. `recordBody_invariant` is the rule this gives
for what every record keeps of a request, and `Entries.turn` carries it to the requests map.

`watching` lets one see the calls of `on_request_ready` and changes nothing else. A request whose
flags rule out readiness for good is `Withheld`: there is no call for its id any more.
-/

namespace Wasapi.Fastcgi

/-! ## Records

There is a case for each of four types, and every one of them makes changes of three kinds only. A
property of a request that each kind keeps is kept by every record, whatever its type and content.
-/

/-- A pair that is read was there to be read. -/
theorem length_of_mem_pairsOf {fuel : ℕ} {p : Bytes} {q : Bytes × Bytes} (hq : q ∈ pairsOf fuel p) :
    q.1.length + q.2.length ≤ p.length := by
  induction fuel generalizing p with
  | zero => cases hq
  | succ fuel ih =>
    rw [pairsOf] at hq
    split at hq
    · cases hq
    next hne =>
    rw [List.isEmpty_iff] at hne
    split at hq
    · cases hq
    next pair rest hnext =>
    rcases List.mem_cons.mp hq with rfl | hq
    · have h₁ := length_decodeLength_le p
      have h₂ := length_decodeLength_le (decodeLength p).2
      rw [nextPair] at hnext
      split at hnext
      · cases hnext
      · obtain ⟨rfl, -⟩ := Prod.mk.inj (Option.some.inj hnext)
        simp only [List.length_take, List.length_drop]
        omega
    · exact (ih hq).trans (length_nextPair_lt hne hnext).le

/-- Neither FAILED nor RESPONDED is taken back. -/
structure FlagsGrow (f f' : RequestFlags) : Prop where
  failed : f.failed = true → f'.failed = true
  responded : f.responded = true → f'.responded = true

section Rule

variable {limits : Limits} {Q : RequestCore → Prop}

/-- **The invariant rule for records.** -/
theorem recordBody_invariant {rec : Record} {body : RequestCore → Bytes → RequestCore × Bytes}
    (h : recordBody limits rec = some body)
    (hflags : ∀ (c : RequestCore) (f : RequestFlags), FlagsGrow c.flags f → Q c →
      Q { c with flags := f })
    (hpair : ∀ (c : RequestCore) (name value : Bytes), c.flags.failed = false →
      name.length + value.length < 2 ^ 16 →
      sizeT (c.paramsBytes + name.length + value.length) ≤ limits.maxParamsBytes → Q c →
      Q { c with
        env := c.env.assign name (.string value)
        paramsBytes := sizeT (c.paramsBytes + name.length + value.length) })
    (hcontent : ∀ (c : RequestCore) (content : Bytes), c.flags.failed = false →
      content.length < 2 ^ 16 → sizeT (c.bodyBytes + content.length) ≤ limits.maxStdinBytes →
      Q c → Q { c with
        body := c.body ++ content
        bodyBytes := sizeT (c.bodyBytes + content.length) })
    (c : RequestCore) (out : Bytes) (hc : Q c) : Q (body c out).1 := by
  have hfail (c : RequestCore) (status : ProtocolStatus) (hc : Q c) :
      Q (failRequest c out status).1 := by
    rw [failRequest]
    split
    · exact hc
    · exact hflags c _ ⟨fun _ ↦ rfl, fun _ ↦ rfl⟩ hc
  have hstore (ps : List (Bytes × Bytes)) (hps : ∀ q ∈ ps, q.1.length + q.2.length < 2 ^ 16)
      (c : RequestCore) (hfailed : c.flags.failed = false) (hc : Q c) :
      Q (storePairs limits ps c out).1 := by
    induction ps generalizing c with
    | nil => exact hc
    | cons q ps ih =>
      obtain ⟨name, value⟩ := q
      rw [storePairs]
      split
      · exact hfail c _ hc
      · next hfits =>
        refine ih (fun q hq ↦ hps q (List.mem_cons_of_mem _ hq)) _ hfailed ?_
        exact hpair c name value hfailed (hps _ List.mem_cons_self) (not_lt.mp hfits) hc
  rw [recordBody] at h
  split at h
  · split at h
    · obtain rfl := Option.some.inj h
      exact hflags c _ ⟨id, id⟩ hc
    · cases h
  split at h
  · obtain rfl := Option.some.inj h
    rw [paramsRecord]
    split
    · exact hflags c _ ⟨id, id⟩ hc
    split
    · exact hc
    · next hfailed =>
      rw [paramsLoop_eq]
      refine hstore _ (fun q hq ↦ ?_) c (Bool.eq_false_iff.mpr hfailed) hc
      exact (length_of_mem_pairsOf hq).trans_lt rec.content_lt
  split at h
  · obtain rfl := Option.some.inj h
    rw [stdinRecord]
    split
    · exact hflags c _ ⟨id, id⟩ hc
    split
    · exact hc
    next hfailed =>
    split
    · exact hfail c _ hc
    · next hfits =>
      exact hcontent c rec.content (Bool.eq_false_iff.mpr hfailed) rec.content_lt
        (not_lt.mp hfits) hc
  split at h
  · obtain rfl := Option.some.inj h
    exact hfail _ _ (hflags c _ ⟨id, id⟩ hc)
  · cases h

theorem id_recordBody {rec : Record} {body : RequestCore → Bytes → RequestCore × Bytes}
    (h : recordBody limits rec = some body) (c : RequestCore) (out : Bytes) :
    (body c out).1.id = c.id :=
  recordBody_invariant (Q := fun c' ↦ c'.id = c.id) h (fun _ _ _ hc ↦ hc) (fun _ _ _ _ _ _ hc ↦ hc)
    (fun _ _ _ _ _ hc ↦ hc) c out rfl

end Rule

/-! ## The requests map

An entry comes from `allocate_request`, is changed by the switch and then possibly by
`on_request_ready`. What the three keep holds of every entry in every state of the decoder. -/

section Entries

variable {σ : Type*} {limits : Limits} {cb : Callbacks σ} {Q : UInt16 → Request → Prop}

/-- What holds of every entry. -/
def Entries (Q : UInt16 → Request → Prop) (requests : Requests) : Prop :=
  ∀ id r, requests.lookup id = some r → Q id r

theorem Entries.empty : Entries Q ∅ := fun _ _ hr ↦ nomatch hr

theorem Entries.insert {requests : Requests} (h : Entries Q requests) {id : UInt16} {r : Request}
    (hr : Q id r) : Entries Q (requests.insert id r) := by
  intro i r' hr'
  by_cases hi : i = id
  · subst hi
    rw [AList.lookup_insert, Option.some.injEq] at hr'
    exact hr' ▸ hr
  · rw [AList.lookup_insert_ne hi] at hr'
    exact h i r' hr'

/-- What the callbacks and the records keep of an entry. -/
structure KeepsEntries (limits : Limits) (cb : Callbacks σ) (Q : UInt16 → Request → Prop) :
    Prop where
  allocated {id s r} : (cb.allocateRequest id s).1 = some r → Q id r
  called {id r} (s : σ) : isReady r.flags = true → Q id r → Q id (cb.onRequestReady r s).1
  record {rec body id r} (out : Bytes) : recordBody limits rec = some body → Q id r →
    Q id (r.withCore (body r.toRequestCore out).1)

theorem Entries.touch (hQ : KeepsEntries limits cb Q) {s : Machine σ} (h : Entries Q s.requests)
    {rec : Record} {body : RequestCore → Bytes → RequestCore × Bytes}
    (hbody : recordBody limits rec = some body) {id : UInt16} {r : Request} (hr : Q id r) :
    Entries Q (touch cb id body r s).requests := by
  have hcore := hQ.record s.outBuf hbody hr
  rw [Fastcgi.touch]
  split
  · next hready => exact h.insert (hQ.called s.ext hready hcore)
  · exact h.insert hcore

/-- **The invariant rule for turns.** -/
theorem Entries.turn (hQ : KeepsEntries limits cb Q) {s : Machine σ} (h : Entries Q s.requests)
    (rec : Record) : Entries Q (turn limits cb s rec).requests := by
  rw [Fastcgi.turn]
  rcases processRecord_cases limits cb rec s with ⟨-, hrec⟩ | ⟨body, r, hbody, hr, hrec⟩ |
    ⟨body, nr, ext, hbody, -, halloc, hrec⟩ | ⟨body, ext, -, -, -, hrec⟩
  · rw [hrec]
    exact h
  · rw [hrec]
    exact h.touch hQ hbody (h _ r hr)
  · have hnr : Q rec.requestId nr := hQ.allocated (congrArg Prod.fst halloc)
    have hinsert : Entries Q { s with requests := s.requests.insert rec.requestId nr
                                      ext := ext }.requests := h.insert hnr
    rw [hrec]
    exact hinsert.touch hQ hbody hnr
  · rw [hrec]
    split
    · exact h
    · exact h

theorem Entries.processBuffer (hQ : KeepsEntries limits cb Q) {s : Machine σ}
    (h : Entries Q s.requests) (inBuf : Bytes) :
    Entries Q (processBuffer limits cb inBuf s).requests := by
  have hrun := List.foldlRecOn (processTurns limits cb inBuf s) (Fastcgi.turn limits cb)
    (motive := fun s : Machine σ ↦ Entries Q s.requests) h fun s hs rec _ ↦ hs.turn hQ rec
  rwa [← processBuffer_eq_foldl] at hrun

end Entries

/-! ## Watching the calls

The calls are not part of the state of the decoder, so a second pair of callbacks writes them down.
Its runs are those of the first with a list beside them. -/

section Watching

variable {σ : Type*} {limits : Limits}

/-- The callbacks with a list of the requests `on_request_ready` has been called with. -/
def watching (cb : Callbacks σ) : Callbacks (σ × List Request) where
  allocateRequest id s := ((cb.allocateRequest id s.1).1, ((cb.allocateRequest id s.1).2, s.2))
  onRequestReady r s :=
    ((cb.onRequestReady r s.1).1, ((cb.onRequestReady r s.1).2, s.2 ++ [r]))

/-- The machine without the list. -/
def Machine.unwatched (s : Machine (σ × List Request)) : Machine σ :=
  ⟨s.requests, s.outBuf, s.ext.1⟩

variable (cb : Callbacks σ)

private theorem unwatched_touch (id : UInt16) (body : RequestCore → Bytes → RequestCore × Bytes)
    (r : Request) (s : Machine (σ × List Request)) :
    (touch (watching cb) id body r s).unwatched = touch cb id body r s.unwatched := by
  have hout : s.unwatched.outBuf = s.outBuf := rfl
  rw [touch, touch, hout]
  by_cases hready : isReady (body r.toRequestCore s.outBuf).1.flags = true
  · rw [if_pos hready, if_pos hready]
    rfl
  · rw [if_neg hready, if_neg hready]
    rfl

private theorem processRecord_unwatched (rec : Record) (s : Machine (σ × List Request)) :
    processRecord limits cb rec s.unwatched =
      match processRecord limits (watching cb) rec s with
      | .next s' => .next s'.unwatched
      | .deferred s' => .deferred s'.unwatched := by
  rcases processRecord_cases limits (watching cb) rec s with ⟨hbody, hrec⟩ |
    ⟨body, r, hbody, hr, hrec⟩ | ⟨body, nr, ext, hbody, hr, halloc, hrec⟩ |
    ⟨body, ext, hbody, hr, halloc, hrec⟩
  · rw [hrec, processRecord_of_body_none hbody]
  · have hr' : s.unwatched.requests.lookup rec.requestId = some r := hr
    rw [hrec, processRecord_active hbody hr']
    exact congrArg Turn.next (unwatched_touch cb rec.requestId body r s).symm
  · obtain ⟨hnr, rfl⟩ := Prod.mk.inj halloc
    have hr' : s.unwatched.requests.lookup rec.requestId = none := hr
    have halloc' : cb.allocateRequest rec.requestId s.unwatched.ext
        = (some nr, (cb.allocateRequest rec.requestId s.ext.1).2) := Prod.ext hnr rfl
    rw [hrec, processRecord_allocated hbody hr' halloc']
    exact congrArg Turn.next (unwatched_touch cb rec.requestId body nr
      { s with
        requests := s.requests.insert rec.requestId nr
        ext := ((cb.allocateRequest rec.requestId s.ext.1).2, s.ext.2) }).symm
  · obtain ⟨hnr, rfl⟩ := Prod.mk.inj halloc
    have hr' : s.unwatched.requests.lookup rec.requestId = none := hr
    have halloc' : cb.allocateRequest rec.requestId s.unwatched.ext
        = (none, (cb.allocateRequest rec.requestId s.ext.1).2) := Prod.ext hnr rfl
    rw [hrec, processRecord_refused hbody hr' halloc']
    split
    · rfl
    · rfl

/-- **Watching changes nothing.** -/
theorem processBuffer_watching (inBuf : Bytes) (s : Machine (σ × List Request)) :
    processBuffer limits cb inBuf s.unwatched =
      { (processBuffer limits (watching cb) inBuf s).unwatched with
        inBuf := (processBuffer limits (watching cb) inBuf s).inBuf
        waitingForArena := (processBuffer limits (watching cb) inBuf s).waitingForArena
        status := (processBuffer limits (watching cb) inBuf s).status } := by
  have hrun (recs : List Record) (s : Machine (σ × List Request)) :
      runRecords limits cb s.unwatched recs
        = ((runRecords limits (watching cb) s recs).1.unwatched,
          (runRecords limits (watching cb) s recs).2) := by
    induction recs generalizing s with
    | nil => rfl
    | cons rec recs ih =>
      rw [runRecords, runRecords, processRecord_unwatched]
      cases processRecord limits (watching cb) rec s with
      | next s' => exact ih s'
      | deferred s' => rfl
  rw [processBuffer_eq, processBuffer_eq, hrun]
  simp only
  split
  · rfl
  · rfl

end Watching

/-! ## Requests that are not ready any more

FAILED and RESPONDED are never taken back, so once one of them is set there is no further call for
the request, as long as its entry stays in the map. -/

section Withheld

variable {σ : Type*} {limits : Limits} {cb : Callbacks σ} {P : RequestCore → Prop}

/-- Requests are allocated under their ids and keep them. -/
abbrev KeepsIds (limits : Limits) (cb : Callbacks σ) : Prop :=
  KeepsEntries limits cb fun id r ↦ r.id = id

/-- What every record keeps of a request, and what rules out that it is ready. -/
structure Withholds (limits : Limits) (P : RequestCore → Prop) : Prop where
  record {rec body} : recordBody limits rec = some body → ∀ c out, P c → P (body c out).1
  notReady {c} : P c → isReady c.flags = false

section

variable (hP : Withholds limits P) {s : Machine σ} {id : UInt16}

include hP

/-- A record of the request itself. -/
theorem turn_of_withheld {r : Request} (hr : s.requests.lookup id = some r)
    (hPr : P r.toRequestCore) {rec : Record} (hid : rec.requestId = id) :
    (turn limits cb s rec).ext = s.ext ∧
      ∃ r', (turn limits cb s rec).requests.lookup id = some r' ∧ P r'.toRequestCore := by
  subst hid
  rw [turn]
  cases hbody : recordBody limits rec with
  | none =>
    rw [processRecord_of_body_none hbody]
    exact ⟨rfl, r, hr, hPr⟩
  | some body =>
    have hPcore := hP.record hbody r.toRequestCore s.outBuf hPr
    rw [processRecord_active hbody hr, Turn.machine, touch,
      if_neg (Bool.eq_false_iff.mp (hP.notReady hPcore))]
    exact ⟨rfl, _, AList.lookup_insert _, hPcore⟩

end

/-- The entry of `id` satisfies `P`, and there has been no call for `id`. -/
structure Withheld (P : RequestCore → Prop) (id : UInt16) (s : Machine (σ × List Request)) :
    Prop where
  keyed : Entries (fun id r ↦ r.id = id) s.requests
  entry : ∃ r, s.requests.lookup id = some r ∧ P r.toRequestCore
  uncalled : ∀ called ∈ s.ext.2, called.id ≠ id

theorem KeepsEntries.watching {Q : UInt16 → Request → Prop} (hQ : KeepsEntries limits cb Q) :
    KeepsEntries limits (watching cb) Q :=
  ⟨fun halloc ↦ hQ.allocated halloc, fun s hready hr ↦ hQ.called s.1 hready hr,
    fun out hbody hr ↦ hQ.record out hbody hr⟩

/-- A record of another request. -/
theorem Withheld.touch_of_ne {id i : UInt16} {s : Machine (σ × List Request)}
    (h : Withheld P id s) (hids : KeepsIds limits cb) (hi : i ≠ id) {rec : Record}
    {body : RequestCore → Bytes → RequestCore × Bytes} (hbody : recordBody limits rec = some body)
    {r : Request} (hr : r.id = i) : Withheld P id (touch (watching cb) i body r s) := by
  refine ⟨h.keyed.touch hids.watching hbody hr, ?_, fun called hcalled ↦ ?_⟩
  · obtain ⟨r', hr', hP⟩ := h.entry
    exact ⟨r', (lookup_touch_of_ne (watching cb) hi.symm body r s).trans hr', hP⟩
  · rw [touch] at hcalled
    split at hcalled
    · rcases List.mem_append.mp hcalled with hold | hnew
      · exact h.uncalled called hold
      · obtain rfl := List.mem_singleton.mp hnew
        have hid : (r.withCore (body r.toRequestCore s.outBuf).1).id = i :=
          (id_recordBody hbody _ _).trans hr
        rw [hid]
        exact hi
    · exact h.uncalled called hcalled

/-- **A request withheld stays withheld.** -/
theorem Withheld.turn {id : UInt16} {s : Machine (σ × List Request)} (h : Withheld P id s)
    (hids : KeepsIds limits cb) (hP : Withholds limits P) (rec : Record) :
    Withheld P id (turn limits (watching cb) s rec) := by
  obtain ⟨r₀, hr₀, hPr₀⟩ := h.entry
  by_cases hi : rec.requestId = id
  · -- its own record finds it, and leaves it not ready
    obtain ⟨hext, hentry⟩ := @turn_of_withheld _ limits (watching cb) P hP s id r₀ hr₀ hPr₀ rec hi
    refine ⟨h.keyed.turn hids.watching rec, hentry, ?_⟩
    rw [hext]
    exact h.uncalled
  rw [Fastcgi.turn]
  rcases processRecord_cases limits (watching cb) rec s with
    ⟨-, hrec⟩ | ⟨body, r, hbody, hr, hrec⟩ | ⟨body, nr, ext, hbody, -, halloc, hrec⟩
      | ⟨body, ext, -, -, halloc, hrec⟩
  · rw [hrec]
    exact h
  · rw [hrec]
    exact h.touch_of_ne hids hi hbody (h.keyed _ r hr)
  · obtain ⟨hnr, rfl⟩ := Prod.mk.inj halloc
    have hid : nr.id = rec.requestId := hids.allocated hnr
    have hinsert : Withheld P id { s with
        requests := s.requests.insert rec.requestId nr
        ext := ((cb.allocateRequest rec.requestId s.ext.1).2, s.ext.2) } :=
      ⟨h.keyed.insert hid, ⟨r₀, (AList.lookup_insert_ne (Ne.symm hi)).trans hr₀, hPr₀⟩, h.uncalled⟩
    rw [hrec]
    exact hinsert.touch_of_ne hids hi hbody hid
  · obtain ⟨-, rfl⟩ := Prod.mk.inj halloc
    rw [hrec]
    split
    · exact ⟨h.keyed, h.entry, h.uncalled⟩
    · exact ⟨h.keyed, h.entry, h.uncalled⟩

theorem Withheld.processBuffer {id : UInt16} {s : Machine (σ × List Request)}
    (h : Withheld P id s) (hids : KeepsIds limits cb) (hP : Withholds limits P) (inBuf : Bytes) :
    Withheld P id (processBuffer limits (watching cb) inBuf s).toMachine := by
  rw [processBuffer_eq_foldl]
  exact List.foldlRecOn _ _ h fun s hs rec _ ↦ hs.turn hids hP rec

end Withheld

end Wasapi.Fastcgi
