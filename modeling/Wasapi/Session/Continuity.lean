import Wasapi.Json.Integers
import Wasapi.Session.Files

/-!
# What has been saved is loaded

As long as no operation touches the file of a session, every load finds the text saved last,
through the cache or past it. The text is that of the session unless there is a longer integer in
it. Whether a later request gets at that session is another matter: `session_start` loads the
session of the id it has chosen, and it chooses without a look at the cookies.
-/

namespace Wasapi.Session

open FileIo Json

variable {κ : Type*} {cfg : GlobalConfig} {resolve : Bytes → κ}

/-- The file of the session has this content, and so has its entry in the cache. -/
structure Stores (cfg : GlobalConfig) (resolve : Bytes → κ) (id content : Bytes)
    (s : FileStore κ) : Prop where
  accounted : Accounted cfg (s.now + 1) s.cache
  disk : ∃ mtime, s.disk (resolve (sessionPath cfg id)) = some ⟨content, mtime⟩
  cache : ∀ f, s.cache.fileCache.lookup (sessionPath cfg id) = some f → f.content = content

variable {sid content : Bytes} {session : DynamicVariable}

/-! ## Loading

The file and the entry in the cache have the same content, so it does not matter which of them a
load finds. -/

/-- The file is read, or its entry in the cache is used. -/
theorem content_of_stores {s : FileStore κ} (h : Stores cfg resolve sid content s) {io : Io}
    (hstat : io.statOk = true) (hread : io.readOk = true) :
    (readEntireFileCached cfg resolve io (sessionPath cfg sid) (s.tick io)).1 = content := by
  obtain ⟨mtime, hdisk⟩ := h.disk
  obtain ⟨-, -, -, -, hresult⟩ := readEntireFileCached_spec resolve io
    (Accounted.tick h.accounted io) (sessionPath cfg sid)
  obtain ⟨f, hf, heq⟩ | ⟨file, hfile, heq⟩ | ⟨-, hfail | hnone⟩ := hresult.cases
  · rw [heq, h.cache f hf]
  · rw [heq, Option.some.inj (hfile.symm.trans hdisk)]
  · rw [hstat, hread] at hfail
    cases hfail
  · cases hnone.symm.trans hdisk

private theorem ne_nil_of_parseJson (hparse : parseJson content = .ok session) : content ≠ [] := by
  rintro rfl
  rw [show parseJson [] = .error 0 from rfl] at hparse
  cases hparse

private theorem sessionLoad_of_stores {s : FileStore κ} (h : Stores cfg resolve sid content s)
    (hparse : parseJson content = .ok session) {io : Io} (hstat : io.statOk = true)
    (hread : io.readOk = true) {r : Request} (hid : r.sessionId = sid) (hne : sid ≠ []) :
    ∃ s', sessionLoad cfg resolve io r (s.tick io) = (true, { r with session := session }, s') := by
  refine ⟨(readEntireFileCached cfg resolve io (sessionPath cfg r.sessionId) (s.tick io)).2, ?_⟩
  rw [sessionLoad, if_neg (by rwa [List.isEmpty_iff, hid])]
  simp only
  rw [hid, content_of_stores h hstat hread,
    if_neg (by rw [List.isEmpty_iff]; exact ne_nil_of_parseJson hparse), hparse]

/-- A session is loaded from a text that can be parsed. -/
theorem parseJson_of_sessionLoad {s : FileStore κ} (h : Stores cfg resolve sid content s)
    {io : Io} (hstat : io.statOk = true) (hread : io.readOk = true) {r : Request}
    (hid : r.sessionId = sid) (hload : (sessionLoad cfg resolve io r (s.tick io)).1 = true) :
    ∃ session, parseJson content = .ok session := by
  rw [sessionLoad] at hload
  simp only at hload
  rw [hid, content_of_stores h hstat hread] at hload
  by_cases hsid : sid.isEmpty = true
  · rw [if_pos hsid] at hload
    cases hload
  by_cases hempty : content.isEmpty = true
  · rw [if_neg hsid, if_pos hempty] at hload
    cases hload
  rw [if_neg hsid, if_neg hempty] at hload
  cases hparse : parseJson content with
  | ok session => exact ⟨session, rfl⟩
  | error pos =>
    rw [hparse] at hload
    cases hload

/-! ## Runs

Other sessions may be saved, loaded and cleared meanwhile, and time may pass. None of these touches
the file, and what the cache forgets is read again. -/

variable [DecidableEq κ]

theorem Stores.step {w : World κ} (h : Stores cfg resolve sid content w.toFileStore) {op : Op}
    (hop : op.Spares cfg resolve sid) :
    Stores cfg resolve sid content (Session.step cfg resolve w op).toFileStore := by
  have htouches := touches_step resolve h.accounted op
  obtain ⟨mtime, hdisk⟩ := h.disk
  refine ⟨htouches.accounted, ⟨mtime, (htouches.disk _ hop).trans hdisk⟩, fun f' hf' ↦ ?_⟩
  have hpath : ∀ sid' ∈ op.changes, sessionPath cfg sid ≠ sessionPath cfg sid' :=
    fun sid' hid' heq ↦ hop sid' hid' (congrArg resolve heq)
  obtain ⟨f, hf, heq⟩ | ⟨file, hfile, heq⟩ := htouches.cache _ f' hpath hf'
  · rw [heq, h.cache f hf]
  · rw [heq, Option.some.inj (hfile.symm.trans hdisk)]

theorem Stores.foldl {w : World κ} (h : Stores cfg resolve sid content w.toFileStore)
    {ops : List Op} (hops : ∀ op ∈ ops, op.Spares cfg resolve sid) :
    Stores cfg resolve sid content (ops.foldl (Session.step cfg resolve) w).toFileStore :=
  List.foldlRecOn (motive := fun w' : World κ ↦ Stores cfg resolve sid content w'.toFileStore)
    ops _ h fun _ hw op hop ↦ hw.step (hops op hop)

/-- A save that succeeds. -/
theorem stores_of_sessionSave {w : World κ} (h : Accounted cfg (w.now + 1) w.cache) {io : Io}
    {r : Request} (hsave : (sessionSave cfg resolve io r (w.tick io)).1 = true) :
    r.sessionId ≠ [] ∧ ∃ content, toJson r.session false 0 = some content ∧
      Stores cfg resolve r.sessionId content
        (Session.step cfg resolve w (.save io r)).toFileStore := by
  obtain ⟨haccounted, hnow, -, -, hdone⟩ := sessionSave_spec resolve io (Accounted.tick h io) r
  obtain ⟨hne, content, hjson, hdisk, hcache⟩ := hdone hsave
  refine ⟨hne, content, hjson, ?_, hdisk, hcache⟩
  rw [Session.step, hnow]
  exact haccounted

/-- The state after a save, and after what has been done since. -/
def afterSave (cfg : GlobalConfig) (resolve : Bytes → κ) (disk : κ → Option StoredFile)
    (before : List Op) (io : Io) (saved : Request) (after : List Op) : World κ :=
  (before ++ .save io saved :: after).foldl (step cfg resolve) (initial disk)

/-- What has been saved is still there. -/
theorem stores_afterSave (disk : κ → Option StoredFile) {before after : List Op} {io : Io}
    {saved : Request} (hsave : (sessionSave cfg resolve io saved
      ((before.foldl (step cfg resolve) (initial disk)).tick io)).1 = true)
    (hafter : ∀ op ∈ after, op.Spares cfg resolve saved.sessionId) :
    saved.sessionId ≠ [] ∧ ∃ content, toJson saved.session false 0 = some content ∧
      Stores cfg resolve saved.sessionId content
        (afterSave cfg resolve disk before io saved after).toFileStore := by
  obtain ⟨hne, content, hjson, hstores⟩ := stores_of_sessionSave (accounted_run disk before) hsave
  refine ⟨hne, content, hjson, ?_⟩
  rw [afterSave, List.foldl_append, List.foldl_cons]
  exact hstores.foldl hafter

/-- **Session continuity.** A new request whose cookies name a saved session gets that session
exactly when the id drawn at random happens to be that of the session. -/
theorem sessionStart_afterSave_iff (disk : κ → Option StoredFile) {before after : List Op} {io : Io}
    {saved : Request} (hplain : Plain saved.session)
    (hsave : (sessionSave cfg resolve io saved
      ((before.foldl (step cfg resolve) (initial disk)).tick io)).1 = true)
    (hafter : ∀ op ∈ after, op.Spares cfg resolve saved.sessionId)
    {io' : Io} (hstat : io'.statOk = true) (hread : io'.readOk = true) (random : Bytes)
    {fresh : Request} (hfresh : fresh.sessionId = [])
    (_hcookie : fresh.cookies.find cfg.sessionCookieName = some (.string saved.sessionId)) :
    ((sessionStart cfg resolve io' random fresh
        ((afterSave cfg resolve disk before io saved after).tick io')).2.1.sessionId
          = saved.sessionId ∧
      (sessionStart cfg resolve io' random fresh
        ((afterSave cfg resolve disk before io saved after).tick io')).2.1.session
          = saved.session) ↔
      random = saved.sessionId := by
  obtain ⟨hne, content, hjson, hrun⟩ := stores_afterSave disk hsave hafter
  set w := afterSave cfg resolve disk before io saved after
  have hid : (sessionGetId true random fresh).1 = random := by
    rw [sessionGetId, hfresh]
    rfl
  obtain ⟨r', hr', hstart⟩ := sessionStart_eq cfg resolve io' random fresh (w.tick io')
  rw [hid] at hr'
  rw [hstart]
  constructor
  · rintro ⟨hsession, -⟩
    have hkept := (sessionLoad_spec resolve io' (Accounted.tick hrun.accounted io') r').2.2.2.2
    rw [← hr', ← hkept, ← hsession]
    simp only
    split <;> rfl
  · intro hrandom
    obtain ⟨s', hload⟩ := sessionLoad_of_stores hrun (parseJson_toJson hplain hjson) hstat hread
      (hr'.trans hrandom) hne
    rw [hload]
    exact ⟨hr'.trans hrandom, rfl⟩

/-- **Sessions with integers.** A saved session whose numbers are integers can be loaded again
exactly if they have at most six digits. -/
theorem sessionLoad_afterSave_integers (disk : κ → Option StoredFile) {before after : List Op}
    {io : Io} {saved : Request} (hintegral : Integral saved.session)
    (hsave : (sessionSave cfg resolve io saved
      ((before.foldl (step cfg resolve) (initial disk)).tick io)).1 = true)
    (hafter : ∀ op ∈ after, op.Spares cfg resolve saved.sessionId)
    {io' : Io} (hstat : io'.statOk = true) (hread : io'.readOk = true) {r : Request}
    (hid : r.sessionId = saved.sessionId) :
    (sessionLoad cfg resolve io' r
        ((afterSave cfg resolve disk before io saved after).tick io')).1 = true
      ↔ SixDigits saved.session := by
  obtain ⟨hne, content, hjson, hrun⟩ := stores_afterSave disk hsave hafter
  constructor
  · intro hload
    obtain ⟨session, hparse⟩ := parseJson_of_sessionLoad hrun hstat hread hid hload
    exact holds_of_parseJson_toJson written_integers hintegral hjson hparse
  · intro hsix
    have hparse := parseJson_toJson_of_holds written_integers hintegral hsix hjson
    obtain ⟨s', hload⟩ := sessionLoad_of_stores hrun hparse hstat hread hid hne
    rw [hload]

/-- What `random_hex(16)` has returned, -/
def savedId : Bytes := ascii "5f1c0a9be27d4438a6b0c3d9127ee4f0"

/-- a request that saves a session under it, -/
def savedRequest : Request where
  sessionId := savedId
  session := .object [(ascii "user", .string (ascii "ada"))]

/-- what is done meanwhile, -/
def meanwhile : List Op :=
  [.load {} savedRequest, .save {} { sessionId := ascii "08d77b65fe91423c9a3e5c1b60a2f84d" }]

/-- and a new request that brings the cookie. -/
def returningRequest : Request where
  cookies := .object [(ascii "session_id", .string savedId)]

private theorem plain_savedRequest : Plain savedRequest.session := by
  simp [savedRequest, Plain, PlainFields, ascii]

private theorem meanwhile_spares : ∀ op ∈ meanwhile, op.Spares {} id savedId := by
  intro op hop
  rw [meanwhile, List.mem_pair] at hop
  obtain rfl | rfl := hop
  · intro id' hid'
    cases hid'
  · intro id' hid'
    obtain rfl := Option.some.inj hid'
    decide

/-- The same id is drawn again. -/
theorem sessionStart_afterSave_sameId :
    let returned := (sessionStart {} id {} savedId returningRequest
      ((afterSave {} id (fun _ ↦ none) [] {} savedRequest meanwhile).tick {})).2.1
    returned.sessionId = savedRequest.sessionId ∧ returned.session = savedRequest.session :=
  (sessionStart_afterSave_iff (fun _ ↦ none) plain_savedRequest (by decide +kernel)
    meanwhile_spares rfl rfl savedId rfl rfl).mpr rfl

/-- The user comes back with the cookie and gets another id and an empty session. -/
theorem not_sessionStart_afterSave_otherId :
    let returned := (sessionStart {} id {} (ascii "c3924e0d71fa4b56811d6e2f90bb3a7c")
      returningRequest
      ((afterSave {} id (fun _ ↦ none) [] {} savedRequest meanwhile).tick {})).2.1
    (sessionSave {} id {} savedRequest (FileStore.tick {} { disk := fun _ ↦ none })).1 = true ∧
      (returningRequest.cookies.find (ascii "session_id")).isSome = true ∧
      returned.sessionId ≠ savedRequest.sessionId ∧
      (returned.session.find (ascii "user")).isNone = true := by
  decide +kernel

end Wasapi.Session
