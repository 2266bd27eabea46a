import Wasapi.Fastcgi.Deferral
import Wasapi.Fastcgi.Dispatch

/-!
# Records of requests that were never begun

All four record types look their request up with one helper, which allocates a request when there is
none. A PARAMS, STDIN or ABORT_REQUEST record whose id is not in use is therefore ignored only if
there happens to be no arena for it; otherwise it opens a request that no BEGIN_REQUEST record has
initialized, and such a request can be handed to `on_request_ready`.

`StraysRefused` says, from the records of the buffer, the ids in use and the answers of
`allocate_request`, that no stray record is given an arena.
-/

namespace Wasapi.Fastcgi

section

variable {σ : Type*}

/-- A record for an id that is not in use, other than BEGIN_REQUEST. -/
def IsStray (s : Machine σ) (rec : Record) : Prop :=
  (rec.type = FCGI_PARAMS ∨ rec.type = FCGI_STDIN ∨ rec.type = FCGI_ABORT_REQUEST) ∧
    rec.requestId ∉ s.requests

/-- A stray record changes nothing: not the map, not the output, and nothing of the rest of the
program, where the arenas and the calls of `on_request_ready` are. -/
def IgnoresStray (limits : Limits) (cb : Callbacks σ) (s : Machine σ) (rec : Record) : Prop :=
  IsStray s rec → turn limits cb s rec = s

end

/-- Every request has been opened by a BEGIN_REQUEST record. -/
def AllInitialized (requests : Requests) : Prop :=
  ∀ i r, requests.lookup i = some r → r.flags.initialized = true

/-- No stray record is given an arena. -/
def StraysRefused {α : Type*} (alloc : UInt16 → α → Option Request × α) :
    List UInt16 → α → List Record → Prop
  | _, _, [] => True
  | known, a, rec :: recs =>
    if addressesRequest rec && rec.requestId ∉ known then
      match alloc rec.requestId a with
      | (some _, a') =>
        rec.type = FCGI_BEGIN_REQUEST ∧ StraysRefused alloc (rec.requestId :: known) a' recs
      | (none, a') =>
        -- a refused BEGIN_REQUEST record ends the call
        rec.type = FCGI_BEGIN_REQUEST ∨ a' = a ∧ StraysRefused alloc known a' recs
    else StraysRefused alloc known a recs

private theorem initialized_recordBody {limits : Limits} {rec : Record}
    {body : RequestCore → Bytes → RequestCore × Bytes} (h : recordBody limits rec = some body)
    (r : RequestCore) (out : Bytes)
    (hr : r.flags.initialized = true ∨ rec.type = FCGI_BEGIN_REQUEST) :
    (body r out).1.flags.initialized = true := by
  rw [recordBody] at h
  split at h
  · split at h
    · obtain rfl := Option.some.inj h
      rfl
    · cases h
  · next hbegin =>
    obtain hr := hr.resolve_right hbegin
    split at h
    · obtain rfl := Option.some.inj h
      rw [paramsRecord]
      split
      · exact hr
      · split
        · exact hr
        · rw [paramsLoop_eq, flags_storePairs]
          split <;> exact hr
    · split at h
      · obtain rfl := Option.some.inj h
        rw [stdinRecord]
        split
        · exact hr
        · split
          · exact hr
          · split
            · rw [failRequest_fst]
              split <;> exact hr
            · exact hr
      · split at h
        · obtain rfl := Option.some.inj h
          rw [abortRequest, failRequest_fst]
          split <;> exact hr
        · cases h

section

variable {α : Type*} {limits : Limits} {alloc : UInt16 → α → Option Request × α}

private theorem turn_eq_of_next {σ : Type*} {cb : Callbacks σ} {s s' : Machine σ} {rec : Record}
    (h : processRecord limits cb rec s = .next s') : turn limits cb s rec = s' := by
  rw [turn, h]
  rfl

private theorem turnsTaken_of_next {σ : Type*} {cb : Callbacks σ} {s s' : Machine σ} {rec : Record}
    (h : processRecord limits cb rec s = .next s') (recs : List Record) :
    turnsTaken limits cb s (rec :: recs) = rec :: turnsTaken limits cb s' recs := by
  rw [turnsTaken, h]

private theorem not_begin_of_isStray {σ : Type*} {s : Machine σ} {rec : Record}
    (h : IsStray s rec) : rec.type ≠ FCGI_BEGIN_REQUEST := by
  obtain ⟨h | h | h, -⟩ := h <;> rw [h] <;> decide

private theorem isStray_of_body {σ : Type*} {s : Machine σ} {rec : Record}
    {body : RequestCore → Bytes → RequestCore × Bytes} (hbody : recordBody limits rec = some body)
    (hbegin : rec.type ≠ FCGI_BEGIN_REQUEST) (hnot : rec.requestId ∉ s.requests) :
    IsStray s rec := by
  refine ⟨?_, hnot⟩
  have hsome := recordBody_isSome limits rec
  rw [hbody, Option.isSome_some, addressesRequest, decide_eq_false hbegin, Bool.false_and,
    Bool.false_or, eq_comm] at hsome
  simpa [or_assoc] using hsome

/-- Stray records are ignored in a buffer exactly when none is given an arena. -/
theorem meets_ignoresStray_iff (limits : Limits) (recs : List Record) (known : List UInt16)
    {s : Machine (α × List Request)} (hknown : ∀ id, id ∈ known ↔ id ∈ s.requests) :
    Meets (turn limits (recording alloc)) (IgnoresStray limits (recording alloc)) s
        (turnsTaken limits (recording alloc) s recs)
      ↔ StraysRefused alloc known s.ext.1 recs := by
  induction recs generalizing known s with
  | nil => exact Iff.rfl
  | cons rec recs ih =>
    have hsome := recordBody_isSome limits rec
    rw [StraysRefused]
    obtain ⟨hbody, h⟩ | ⟨body, r, hbody, hr, h⟩ | ⟨body, nr, ext, hbody, hr, ha, h⟩ |
      ⟨body, ext, hbody, hr, ha, h⟩ := processRecord_cases limits (recording alloc) rec s
    · -- no request is looked up
      rw [hbody, Option.isSome_none] at hsome
      rw [← hsome, Bool.false_and, if_neg Bool.false_ne_true, turnsTaken_of_next h, meets_cons,
        turn_eq_of_next h, ih known hknown]
      exact and_iff_right fun _ ↦ turn_eq_of_next h
    · have hmem : rec.requestId ∈ s.requests := AList.lookup_isSome.mp (by rw [hr]; rfl)
      have hcond : (addressesRequest rec && decide (rec.requestId ∉ known)) = false := by
        simp [(hknown _).mpr hmem]
      rw [hcond, if_neg Bool.false_ne_true, turnsTaken_of_next h, meets_cons, turn_eq_of_next h,
        ih known fun id ↦ ?_, ext_touch_recording]
      · exact and_iff_right fun hstray ↦ absurd hmem hstray.2
      · rw [mem_touch_recording, hknown]
        exact ⟨Or.inr, fun hid ↦ hid.elim (fun e ↦ e ▸ hmem) fun h ↦ h⟩
    · have hnot : rec.requestId ∉ s.requests := AList.lookup_eq_none.mp hr
      rw [hbody, Option.isSome_some] at hsome
      have halloc : alloc rec.requestId s.ext.1 = (some nr, ext.1) := by
        obtain ⟨h₁, h₂⟩ := Prod.mk.inj ha
        rw [← h₂, ← h₁]
      rw [← hsome, if_pos (by simp [hknown, hnot]), halloc]
      simp only
      rw [turnsTaken_of_next h, meets_cons, turn_eq_of_next h,
        ih (rec.requestId :: known) fun id ↦ ?_, ext_touch_recording]
      · refine and_congr_left fun _ ↦ ?_
        constructor
        · -- a stray record has put its request into the map
          intro hign
          by_contra hbegin
          have hstray := isStray_of_body hbody hbegin hnot
          have hsame := (turn_eq_of_next h).symm.trans (hign hstray)
          apply hnot
          rw [← hsame, mem_touch_recording]
          exact .inl rfl
        · exact fun hbegin hstray ↦ absurd hbegin (not_begin_of_isStray hstray)
      · rw [mem_touch_recording, List.mem_cons, hknown, AList.mem_insert]
        tauto
    · have hnot : rec.requestId ∉ s.requests := AList.lookup_eq_none.mp hr
      rw [hbody, Option.isSome_some] at hsome
      obtain ⟨h₁, h₂⟩ := Prod.mk.inj ha
      have halloc : alloc rec.requestId s.ext.1 = (none, ext.1) := by rw [← h₂, ← h₁]
      have hlog : ext.2 = s.ext.2 := by rw [← h₂]
      rw [← hsome, if_pos (by simp [hknown, hnot]), halloc]
      simp only
      by_cases hbegin : rec.type = FCGI_BEGIN_REQUEST
      · rw [if_pos hbegin] at h
        have htaken : turnsTaken limits (recording alloc) s (rec :: recs) = [rec] := by
          rw [turnsTaken, h]
        rw [htaken, meets_cons]
        exact iff_of_true ⟨fun hstray ↦ absurd hbegin (not_begin_of_isStray hstray), trivial⟩
          (.inl hbegin)
      · rw [if_neg hbegin] at h
        rw [turnsTaken_of_next h, meets_cons, turn_eq_of_next h, or_iff_right hbegin,
          ih (s := { s with ext := ext }) known hknown]
        refine and_congr_left fun _ ↦ ?_
        have hstray := isStray_of_body hbody hbegin hnot
        rw [IgnoresStray, turn_eq_of_next h, forall_prop_of_true hstray]
        constructor
        · intro hsame
          exact congrArg (fun s ↦ s.ext.1) hsame
        · intro hsame
          have hext : ext = s.ext := Prod.ext hsame hlog
          rw [hext]

/-- All requests, and all those handed over since the log was `log`, are initialized. -/
private def InitializedSince (log : List Request) (s : Machine (α × List Request)) : Prop :=
  AllInitialized s.requests ∧
    ∃ calls, s.ext.2 = log ++ calls ∧ ∀ r ∈ calls, r.flags.initialized = true

private theorem initializedSince_touch {log : List Request} {s : Machine (α × List Request)}
    (hs : InitializedSince log s) (id : UInt16) (body : RequestCore → Bytes → RequestCore × Bytes)
    (r : Request) (hr : (body r.toRequestCore s.outBuf).1.flags.initialized = true) :
    InitializedSince log (touch (recording alloc) id body r s) := by
  obtain ⟨hall, calls, hlog, hcalls⟩ := hs
  set r' := r.withCore (body r.toRequestCore s.outBuf).1 with hr'
  have hinit : r'.flags.initialized = true := hr
  have hinsert : AllInitialized (s.requests.insert id r') := by
    intro i r₁ h
    by_cases hi : i = id
    · subst hi
      rw [AList.lookup_insert, Option.some.injEq] at h
      rw [← h, hinit]
    · rw [AList.lookup_insert_ne hi] at h
      exact hall i r₁ h
  rw [touch]
  split
  · refine ⟨hinsert, calls ++ [r'], ?_, fun r₁ h₁ ↦ ?_⟩
    · rw [← List.append_assoc, ← hlog]
      rfl
    · obtain h₁ | h₁ := List.mem_append.mp h₁
      · exact hcalls r₁ h₁
      · rw [List.mem_singleton.mp h₁, hinit]
  · exact ⟨hinsert, calls, hlog, hcalls⟩

/-- The step rule: while strays are ignored, only BEGIN_REQUEST records open requests. -/
private theorem initializedSince_turn {log : List Request} (s : Machine (α × List Request))
    (rec : Record) (hs : InitializedSince log s)
    (hign : IgnoresStray limits (recording alloc) s rec) :
    InitializedSince log (turn limits (recording alloc) s rec) := by
  obtain ⟨-, h⟩ | ⟨body, r, hbody, hr, h⟩ | ⟨body, nr, ext, hbody, hr, ha, h⟩ |
    ⟨body, ext, hbody, hr, ha, h⟩ := processRecord_cases limits (recording alloc) rec s
  · rwa [turn_eq_of_next h]
  · rw [turn_eq_of_next h]
    exact initializedSince_touch hs _ body r
      (initialized_recordBody hbody _ _ (.inl (hs.1 _ r hr)))
  · by_cases hbegin : rec.type = FCGI_BEGIN_REQUEST
    · obtain ⟨-, h₂⟩ := Prod.mk.inj ha
      have hlog : ext.2 = s.ext.2 := by rw [← h₂]
      have hinit := initialized_recordBody hbody nr.toRequestCore s.outBuf (.inr hbegin)
      have htouch : turn limits (recording alloc) s rec
          = touch (recording alloc) rec.requestId body nr { s with ext := ext } :=
        (turn_eq_of_next h).trans
          (touch_insert (recording alloc) rec.requestId body nr nr { s with ext := ext })
      obtain ⟨hall, calls, hcalls⟩ := hs
      have hs' : InitializedSince log { s with ext := ext } := ⟨hall, calls, hlog ▸ hcalls⟩
      rw [htouch]
      exact initializedSince_touch hs' _ body nr hinit
    · rwa [hign (isStray_of_body hbody hbegin (AList.lookup_eq_none.mp hr))]
  · obtain ⟨-, h₂⟩ := Prod.mk.inj ha
    have hlog : ext.2 = s.ext.2 := by rw [← h₂]
    have hturn : turn limits (recording alloc) s rec = { s with ext := ext } := by
      rw [turn, h]
      split <;> rfl
    obtain ⟨hall, calls, hcalls⟩ := hs
    rw [hturn]
    exact ⟨hall, calls, hlog ▸ hcalls⟩

/-- **When stray records are ignored.** Whatever the buffer, the map and the allocator: every stray
record of the buffer leaves the map, the arenas and the output as they are and leads to no call,
and the requests handed over by `process_buffer` have all been opened by BEGIN_REQUEST records,
exactly when no stray record is given an arena. -/
theorem strays_ignored_iff (limits : Limits) (alloc : UInt16 → α → Option Request × α)
    (inBuf : Bytes) (s : Machine (α × List Request)) :
    (Meets (turn limits (recording alloc)) (IgnoresStray limits (recording alloc)) s
        (processTurns limits (recording alloc) inBuf s) ∧
      (AllInitialized s.requests →
        ∃ calls, (processBuffer limits (recording alloc) inBuf s).ext.2 = s.ext.2 ++ calls ∧
          ∀ r ∈ calls, r.flags.initialized = true)) ↔
      StraysRefused alloc s.requests.keys s.ext.1 (recordFramer.frames inBuf) := by
  rw [← meets_ignoresStray_iff limits (recordFramer.frames inBuf) _ fun id ↦ AList.mem_keys.symm,
    processTurns]
  refine and_iff_left_of_imp fun hmeets hall ↦ ?_
  have hstart : InitializedSince s.ext.2 s := ⟨hall, [], (List.append_nil _).symm, by simp⟩
  have hend := hmeets.foldl (I := InitializedSince s.ext.2) initializedSince_turn hstart
  rw [← processTurns, ← processBuffer_eq_foldl] at hend
  exact hend.2

end

/-- PARAMS and STDIN records of a request that was never begun hand it over. -/
theorem not_strays_ignored_params_stdin :
    let cb := recording nextArena
    let s : Machine (ℕ × List Request) := ⟨∅, [], (0, [])⟩
    let inBuf := (recordOne FCGI_PARAMS [] (by decide)).encode
      ++ (recordOne FCGI_STDIN [] (by decide)).encode
    let res := processBuffer {} cb inBuf s
    res.requests.keys = [1] ∧ res.ext.1 = 1 ∧
      res.ext.2.map (fun r ↦ r.flags.initialized) = [false] ∧
      ¬(Meets (turn {} cb) (IgnoresStray {} cb) s (processTurns {} cb inBuf s) ∧
        (AllInitialized s.requests →
          ∃ calls, res.ext.2 = s.ext.2 ++ calls ∧ ∀ r ∈ calls, r.flags.initialized = true)) := by
  intro cb s inBuf res
  refine ⟨by decide, by decide, by decide, ?_⟩
  rintro ⟨-, h⟩
  obtain ⟨calls, hcalls, hinit⟩ := h fun _ _ h ↦ (nomatch h)
  have hmem : false ∈ res.ext.2.map fun r ↦ r.flags.initialized := by decide
  obtain ⟨r, hr, hfalse⟩ := List.mem_map.mp hmem
  rw [hcalls] at hr
  exact absurd ((hinit r hr).symm.trans hfalse) (by decide)

end Wasapi.Fastcgi
