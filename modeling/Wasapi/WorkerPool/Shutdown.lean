import Wasapi.WorkerPool

/-!
# The life of the worker pool

`WorkerPool` from `start` to the end of `shutdown`, with the workers leaving their loops, `enqueue`
refusing tasks once `stopping` is set, and the joins. As before `enqueue` runs without the mutex:
its look at `stopping`, its push and its notification are steps of their own.

`q.push` itself is taken as one step, as are the `front` and `pop` of a worker. The mutex does not
make it one: two calls of `q.push` that overlap, or one that overlaps a worker's `pop`, are a race
on the `std::queue`, and what the program does then is not defined. All that is said here of the
order of the tasks, of which are taken and which are dropped is said of the runs without such a
race; the interleavings are those of whole pushes and pops.

What has been pushed is taken in that order and by one worker each. A worker leaves only when it
finds `stopping` set and the queue empty, so all that has been pushed when the last worker leaves
has been taken; a thread that has found `stopping` unset may still push behind that, and such a task
is dropped. `shutdown` always comes to its end: nobody goes to sleep once `stopping` is set.
-/

namespace Wasapi.WorkerPool.Life

/-- Where a worker is in `run`. -/
inductive WorkerPhase (τ : Type*) where
  /-- without the mutex, at the head of the loop -/
  | outside
  /-- holds the mutex and has not looked at the predicate -/
  | locked
  /-- holds the mutex and has found the predicate true -/
  | ready
  /-- holds the mutex and has found the predicate false -/
  | drowsy
  /-- waits on the condition variable -/
  | blocked
  /-- has been woken and wants the mutex back -/
  | woken
  /-- holds the mutex and has decided to take a task -/
  | taking
  | running (task : τ)
  /-- has left the loop -/
  | exited
  deriving DecidableEq

/-- Where a thread is in `enqueue`. -/
inductive Caller (τ : Type*) where
  | idle
  /-- has found `stopping` unset -/
  | entered (task : τ)
  /-- has pushed its task and not called `notify_one` yet -/
  | pushed

/-- How far `shutdown` has got. -/
inductive Stage where
  /-- `shutdown` has not been called -/
  | running
  /-- `stopping` is set -/
  | stopping
  /-- `notify_all` has been called, and the threads are being joined -/
  | joining
  /-- the threads are joined and the queue is cleared -/
  | done
  deriving DecidableEq

/-- A pool of `n` workers with `m` threads that call `enqueue`. -/
structure Pool (n m : ℕ) (τ : Type*) where
  queue : List τ := []
  /-- the holder of `mtx` among the workers -/
  owner : Option (Fin n) := none
  worker : Fin n → WorkerPhase τ := fun _ ↦ .outside
  caller : Fin m → Caller τ := fun _ ↦ .idle
  stage : Stage := .running
  /-- all tasks that have been pushed -/
  pushed : List τ := []
  /-- the tasks the workers have taken -/
  taken : List τ := []
  /-- the tasks `shutdown` has cleared away -/
  dropped : List τ := []
  /-- the tasks that had been pushed when last a worker left -/
  pushedAtExit : List τ := []

inductive Event (n m : ℕ) (τ : Type*) where
  /-- `enqueue` looks at `stopping` -/
  | enter (j : Fin m) (task : τ)
  /-- `q.push`, taken as one step although `enqueue` does not hold the mutex -/
  | push (j : Fin m)
  /-- `cv.notify_one`, with the worker it wakes -/
  | notify (j : Fin m) (i : Option (Fin n))
  | acquire (i : Fin n)
  /-- the predicate of `cv.wait` -/
  | test (i : Fin n)
  /-- a worker blocks and releases the mutex -/
  | block (i : Fin n)
  /-- a worker wakes although nobody has notified it -/
  | wake (i : Fin n)
  /-- the check behind `cv.wait` -/
  | check (i : Fin n)
  /-- a worker takes a task and releases the mutex -/
  | pop (i : Fin n)
  /-- a task comes to its end -/
  | finish (i : Fin n)
  /-- `shutdown` sets `stopping` under the mutex -/
  | stop
  /-- `cv.notify_all` -/
  | notifyAll
  /-- the last join, and the queue is cleared -/
  | join

section

variable {n m : ℕ} {τ : Type*}

/-- `stopping` -/
def Pool.stopping (s : Pool n m τ) : Prop := s.stage ≠ .running

instance (s : Pool n m τ) : Decidable s.stopping := inferInstanceAs (Decidable (s.stage ≠ .running))

def Pool.setWorker (s : Pool n m τ) (i : Fin n) (phase : WorkerPhase τ) : Pool n m τ :=
  { s with worker := Function.update s.worker i phase }

def Pool.setCaller (s : Pool n m τ) (j : Fin m) (caller : Caller τ) : Pool n m τ :=
  { s with caller := Function.update s.caller j caller }

def WorkerPhase.isExited : WorkerPhase τ → Bool
  | .exited => true
  | _ => false

def WorkerPhase.isBlocked : WorkerPhase τ → Bool
  | .blocked => true
  | _ => false

/-- `notify_all` on a worker. -/
def WorkerPhase.notified : WorkerPhase τ → WorkerPhase τ
  | .blocked => .woken
  | phase => phase

/-- A step that cannot be taken leaves everything as it is. -/
def step (s : Pool n m τ) : Event n m τ → Pool n m τ
  | .enter j task =>
    match s.caller j with
    | .idle => if s.stopping then s else s.setCaller j (.entered task)
    | _ => s
  | .push j =>
    match s.caller j with
    | .entered task =>
      { s.setCaller j .pushed with queue := s.queue ++ [task], pushed := s.pushed ++ [task] }
    | _ => s
  | .notify j none =>
    match s.caller j with
    | .pushed => if ∀ i, ¬(s.worker i).isBlocked then s.setCaller j .idle else s
    | _ => s
  | .notify j (some i) =>
    match s.caller j, s.worker i with
    | .pushed, .blocked => (s.setCaller j .idle).setWorker i .woken
    | _, _ => s
  | .acquire i =>
    match s.owner, s.worker i with
    | none, .outside | none, .woken => { s.setWorker i .locked with owner := some i }
    | _, _ => s
  | .test i =>
    match s.worker i with
    | .locked => s.setWorker i (if s.stopping ∨ s.queue ≠ [] then .ready else .drowsy)
    | _ => s
  | .block i =>
    match s.worker i with
    | .drowsy => { s.setWorker i .blocked with owner := none }
    | _ => s
  | .wake i =>
    match s.worker i with
    | .blocked => s.setWorker i .woken
    | _ => s
  | .check i =>
    match s.worker i with
    | .ready =>
      if s.stopping ∧ s.queue = [] then
        { s.setWorker i .exited with owner := none, pushedAtExit := s.pushed }
      else s.setWorker i .taking
    | _ => s
  | .pop i =>
    match s.worker i, s.queue with
    | .taking, task :: queue =>
      { s.setWorker i (.running task) with
        queue := queue
        owner := none
        taken := s.taken ++ [task] }
    | _, _ => s
  | .finish i =>
    match s.worker i with
    | .running _ => s.setWorker i .outside
    | _ => s
  | .stop => if s.stage = .running ∧ s.owner = none then { s with stage := .stopping } else s
  | .notifyAll =>
    if s.stage = .stopping then
      { s with stage := .joining, worker := fun i ↦ (s.worker i).notified }
    else s
  | .join =>
    if s.stage = .joining ∧ ∀ i, (s.worker i).isExited then
      { s with stage := .done, queue := [], dropped := s.queue }
    else s

/-- The pool behind `start`. -/
def initial (n m : ℕ) (τ : Type*) : Pool n m τ := {}

/-! ## What a step can do

The step function asks for the phase of the thread, for the queue and for the stage, and does
nothing wherever the step cannot be taken. What remains is a list of moves, each with what it finds
and what it leaves, and every invariant is proved move by move. -/

/-- The steps that change anything. -/
inductive Moves (s : Pool n m τ) : Pool n m τ → Prop
  | enter (j : Fin m) (task : τ) (hj : s.caller j = .idle) (hrunning : ¬s.stopping) :
    Moves s (s.setCaller j (.entered task))
  | push (j : Fin m) (task : τ) (hj : s.caller j = .entered task) :
    Moves s
      { s.setCaller j .pushed with queue := s.queue ++ [task], pushed := s.pushed ++ [task] }
  | notifyNone (j : Fin m) (hj : s.caller j = .pushed) : Moves s (s.setCaller j .idle)
  | notify (j : Fin m) (i : Fin n) (hj : s.caller j = .pushed) (hi : s.worker i = .blocked) :
    Moves s ((s.setCaller j .idle).setWorker i .woken)
  | acquire (i : Fin n) (howner : s.owner = none)
      (hi : s.worker i = .outside ∨ s.worker i = .woken) :
    Moves s { s.setWorker i .locked with owner := some i }
  | test (i : Fin n) (hi : s.worker i = .locked) :
    Moves s (s.setWorker i (if s.stopping ∨ s.queue ≠ [] then .ready else .drowsy))
  | block (i : Fin n) (hi : s.worker i = .drowsy) :
    Moves s { s.setWorker i .blocked with owner := none }
  | wake (i : Fin n) (hi : s.worker i = .blocked) : Moves s (s.setWorker i .woken)
  | leave (i : Fin n) (hi : s.worker i = .ready) (hstopping : s.stopping) (hqueue : s.queue = []) :
    Moves s { s.setWorker i .exited with owner := none, pushedAtExit := s.pushed }
  | stay (i : Fin n) (hi : s.worker i = .ready) (hstay : ¬(s.stopping ∧ s.queue = [])) :
    Moves s (s.setWorker i .taking)
  | pop (i : Fin n) (task : τ) (queue : List τ) (hi : s.worker i = .taking)
      (hqueue : s.queue = task :: queue) :
    Moves s { s.setWorker i (.running task) with
      queue := queue
      owner := none
      taken := s.taken ++ [task] }
  | finish (i : Fin n) (task : τ) (hi : s.worker i = .running task) :
    Moves s (s.setWorker i .outside)
  | stop (hstage : s.stage = .running) (howner : s.owner = none) :
    Moves s { s with stage := .stopping }
  | notifyAll (hstage : s.stage = .stopping) :
    Moves s { s with stage := .joining, worker := fun i ↦ (s.worker i).notified }
  | join (hstage : s.stage = .joining) (hexited : ∀ i, (s.worker i).isExited) :
    Moves s { s with stage := .done, queue := [], dropped := s.queue }

/-- **What a step can do.** -/
theorem step_cases (s : Pool n m τ) (e : Event n m τ) : step s e = s ∨ Moves s (step s e) := by
  cases e with
  | enter j task =>
    rw [step]
    split
    · next hj =>
      split
      · exact .inl rfl
      · next hrunning => exact .inr (.enter j task hj hrunning)
    · exact .inl rfl
  | push j =>
    rw [step]
    split
    · next task hj => exact .inr (.push j task hj)
    · exact .inl rfl
  | notify j i =>
    cases i with
    | none =>
      rw [step]
      split
      · next hj =>
        split
        · exact .inr (.notifyNone j hj)
        · exact .inl rfl
      · exact .inl rfl
    | some i =>
      rw [step]
      split
      · next hj hi => exact .inr (.notify j i hj hi)
      · exact .inl rfl
  | acquire i =>
    rw [step]
    split
    · next howner hi => exact .inr (.acquire i howner (.inl hi))
    · next howner hi => exact .inr (.acquire i howner (.inr hi))
    · exact .inl rfl
  | test i =>
    rw [step]
    split
    · next hi => exact .inr (.test i hi)
    · exact .inl rfl
  | block i =>
    rw [step]
    split
    · next hi => exact .inr (.block i hi)
    · exact .inl rfl
  | wake i =>
    rw [step]
    split
    · next hi => exact .inr (.wake i hi)
    · exact .inl rfl
  | check i =>
    rw [step]
    split
    · next hi =>
      split
      · next hleave => exact .inr (.leave i hi hleave.1 hleave.2)
      · next hstay => exact .inr (.stay i hi hstay)
    · exact .inl rfl
  | pop i =>
    rw [step]
    split
    · next task queue hi hqueue => exact .inr (.pop i task queue hi hqueue)
    · exact .inl rfl
  | finish i =>
    rw [step]
    split
    · next task hi => exact .inr (.finish i task hi)
    · exact .inl rfl
  | stop =>
    rw [step]
    split
    · next h => exact .inr (.stop h.1 h.2)
    · exact .inl rfl
  | notifyAll =>
    rw [step]
    split
    · next h => exact .inr (.notifyAll h)
    · exact .inl rfl
  | join =>
    rw [step]
    split
    · next h => exact .inr (.join h.1 h.2)
    · exact .inl rfl

/-! ## The invariant

A worker with the mutex knows something of the queue that stays true because nobody else may take
from it. Beside that the invariant keeps the books: what has been pushed is what has been taken,
then what has been dropped, then what is in the queue. -/

/-- The worker has the mutex. -/
def WorkerPhase.Holds : WorkerPhase τ → Prop
  | .locked | .ready | .drowsy | .taking => True
  | _ => False

/-- What a worker has found out about the queue and about `shutdown` is still so. -/
def WorkerPhase.Fits (queue : List τ) (stage : Stage) : WorkerPhase τ → Prop
  | .ready => stage ≠ .running ∨ queue ≠ []
  | .drowsy => stage = .running
  | .blocked => stage = .running ∨ stage = .stopping
  | .taking => queue ≠ []
  | _ => True

structure Sound (s : Pool n m τ) : Prop where
  /-- Workers exclude each other. -/
  exclusive : ∀ i, (s.worker i).Holds ↔ s.owner = some i
  fits : ∀ i, (s.worker i).Fits s.queue s.stage
  done : s.stage = .done → ∀ i, (s.worker i).isExited = true
  order : s.pushed = s.taken ++ s.dropped ++ s.queue
  dropped : s.stage ≠ .done → s.dropped = []
  /-- The last worker that left had seen all of it taken. -/
  left : 0 < n → (∀ i, (s.worker i).isExited = true) → s.taken = s.pushedAtExit

theorem sound_initial : Sound (initial n m τ) where
  exclusive _ := iff_of_false id (Option.some_ne_none _).symm
  fits _ := trivial
  done hdone := by cases hdone
  order := rfl
  dropped _ := rfl
  left hn hall := absurd (hall ⟨0, hn⟩) Bool.false_ne_true

/-- A worker that has not left comes to another phase. -/
theorem Sound.moveWorker {s s' : Pool n m τ} (h : Sound s) (i : Fin n) (phase : WorkerPhase τ)
    (hi : (s.worker i).isExited = false) (hphase : phase.isExited = false)
    (hworker : s'.worker = Function.update s.worker i phase) (hstage : s'.stage = s.stage)
    (hqueue : s'.queue = s.queue)
    (hlists : s'.pushed = s.pushed ∧ s'.taken = s.taken ∧ s'.dropped = s.dropped)
    (hfits : phase.Fits s.queue s.stage) (hself : phase.Holds ↔ s'.owner = some i)
    (hothers : ∀ k, k ≠ i → ((s.worker k).Holds ↔ s'.owner = some k)) : Sound s' := by
  have hat : s'.worker i = phase := by rw [hworker, Function.update_self]
  have hof {k : Fin n} (hk : k ≠ i) : s'.worker k = s.worker k := by
    rw [hworker, Function.update_of_ne hk]
  have hnotall {p : Prop} (hall : ∀ k, (s'.worker k).isExited = true) : p := by
    have := hall i
    rw [hat, hphase] at this
    cases this
  constructor
  · intro k
    by_cases hki : k = i
    · rw [hki, hat]
      exact hself
    · rw [hof hki]
      exact hothers k hki
  · intro k
    rw [hqueue, hstage]
    by_cases hki : k = i
    · rw [hki, hat]
      exact hfits
    · rw [hof hki]
      exact h.fits k
  · intro hdone
    have := h.done (hstage ▸ hdone) i
    rw [hi] at this
    cases this
  · rw [hlists.1, hlists.2.1, hlists.2.2, hqueue]
    exact h.order
  · intro hdone
    rw [hlists.2.2]
    exact h.dropped (hstage ▸ hdone)
  · exact fun _ hall ↦ hnotall hall

/-- Whoever has not got the mutex does not care about the queue. -/
theorem WorkerPhase.Fits.of_not_holds {phase : WorkerPhase τ} {queue : List τ} {stage : Stage}
    (h : phase.Fits queue stage) (hnot : ¬phase.Holds) (queue' : List τ) :
    phase.Fits queue' stage := by
  cases phase with
  | ready => exact absurd trivial hnot
  | taking => exact absurd trivial hnot
  | _ => exact h

theorem WorkerPhase.Fits.push {phase : WorkerPhase τ} {queue : List τ} {stage : Stage}
    (h : phase.Fits queue stage) (task : τ) : phase.Fits (queue ++ [task]) stage := by
  cases phase with
  | ready => exact .inr (List.append_ne_nil_of_right_ne_nil _ (List.cons_ne_nil _ _))
  | taking => exact List.append_ne_nil_of_right_ne_nil _ (List.cons_ne_nil _ _)
  | _ => exact h

/-- While a worker has the mutex nobody else has it. -/
theorem Sound.not_holds_of_ne {s : Pool n m τ} (h : Sound s) {i k : Fin n}
    (hi : (s.worker i).Holds) (hki : k ≠ i) : ¬(s.worker k).Holds := fun hk ↦
  hki (Option.some.inj (((h.exclusive k).mp hk).symm.trans ((h.exclusive i).mp hi)))

/-- The mutex is free again when the worker that had it gives it back. -/
theorem Sound.exclusive_release {s : Pool n m τ} (h : Sound s) {i : Fin n}
    (hi : (s.worker i).Holds) {phase : WorkerPhase τ} (hphase : ¬phase.Holds) (k : Fin n) :
    ((s.setWorker i phase).worker k).Holds ↔ none = some k := by
  refine iff_of_false ?_ (Option.some_ne_none k).symm
  by_cases hki : k = i
  · simp only [Pool.setWorker, hki, Function.update_self]
    exact hphase
  · simp only [Pool.setWorker, Function.update_of_ne hki]
    exact h.not_holds_of_ne hi hki

private theorem Sound.stage_ne_done {s : Pool n m τ} (h : Sound s) {i : Fin n}
    (hi : (s.worker i).isExited = false) : s.stage ≠ .done := by
  intro hdone
  have hexited := h.done hdone i
  rw [hi] at hexited
  cases hexited

/-- **Taking a task.** -/
theorem Sound.pop {s : Pool n m τ} (h : Sound s) {i : Fin n} {task : τ} {queue : List τ}
    (hi : s.worker i = .taking) (hqueue : s.queue = task :: queue) :
    Sound { s.setWorker i (.running task) with
      queue := queue
      owner := none
      taken := s.taken ++ [task] } := by
  have hholds : (s.worker i).Holds := hi ▸ trivial
  have hnotdone := h.stage_ne_done (i := i) (by rw [hi]; rfl)
  constructor
  · exact h.exclusive_release hholds id
  · intro k
    by_cases hki : k = i
    · simp only [Pool.setWorker, hki, Function.update_self]
      exact trivial
    · simp only [Pool.setWorker, Function.update_of_ne hki]
      exact (h.fits k).of_not_holds (h.not_holds_of_ne hholds hki) queue
  · exact fun hdone ↦ absurd hdone hnotdone
  · have horder := h.order
    rw [h.dropped hnotdone, hqueue] at horder
    simp only [Pool.setWorker, horder, h.dropped hnotdone]
    simp
  · exact fun hdone ↦ h.dropped hdone
  · intro _ hall
    have := hall i
    simp only [Pool.setWorker, Function.update_self] at this
    cases this

/-- **A worker leaves** when everything that has been pushed has been taken. -/
theorem Sound.leave {s : Pool n m τ} (h : Sound s) {i : Fin n} (hi : s.worker i = .ready)
    (hqueue : s.queue = []) :
    Sound { s.setWorker i .exited with owner := none, pushedAtExit := s.pushed } := by
  have hholds : (s.worker i).Holds := hi ▸ trivial
  have hnotdone := h.stage_ne_done (i := i) (by rw [hi]; rfl)
  constructor
  · exact h.exclusive_release hholds id
  · intro k
    by_cases hki : k = i
    · simp only [Pool.setWorker, hki, Function.update_self]
      exact trivial
    · simp only [Pool.setWorker, Function.update_of_ne hki]
      exact h.fits k
  · exact fun hdone ↦ absurd hdone hnotdone
  · exact h.order
  · exact fun hdone ↦ h.dropped hdone
  · intro _ _
    have horder := h.order
    rw [h.dropped hnotdone, hqueue, List.append_nil, List.append_nil] at horder
    exact horder.symm

theorem Sound.moves {s s' : Pool n m τ} (h : Sound s) (hmoves : Moves s s') : Sound s' := by
  have hfree {i : Fin n} (hi : (s.worker i).Holds) {k : Fin n} (hki : k ≠ i) :=
    h.not_holds_of_ne hi hki
  -- a worker that neither gets the mutex nor gives it back
  have hwithout {i : Fin n} {phase : WorkerPhase τ} (hi : ¬(s.worker i).Holds)
      (hphase : ¬phase.Holds) : phase.Holds ↔ s.owner = some i :=
    iff_of_false hphase fun howner ↦ hi ((h.exclusive i).mpr howner)
  cases hmoves with
  | enter j task hj hrunning =>
    exact ⟨h.exclusive, h.fits, h.done, h.order, h.dropped, h.left⟩
  | push j task hj =>
    refine ⟨h.exclusive, fun i ↦ (h.fits i).push task, h.done, ?_, h.dropped, h.left⟩
    simp only [h.order, List.append_assoc]
    rfl
  | notifyNone j hj => exact ⟨h.exclusive, h.fits, h.done, h.order, h.dropped, h.left⟩
  | notify j i hj hi =>
    exact h.moveWorker i .woken (hi ▸ rfl) rfl rfl rfl rfl ⟨rfl, rfl, rfl⟩
      trivial (hwithout (hi ▸ id) id) fun k _ ↦ h.exclusive k
  | acquire i howner hi =>
    have hnot : (s.worker i).isExited = false := by
      rcases hi with hi | hi
      · exact hi ▸ rfl
      · exact hi ▸ rfl
    refine h.moveWorker i .locked hnot rfl rfl rfl rfl ⟨rfl, rfl, rfl⟩ trivial
      (iff_of_true trivial rfl) fun k hki ↦ ?_
    rw [h.exclusive k, howner]
    exact iff_of_false (Option.some_ne_none k).symm fun hik ↦ hki (Option.some.inj hik).symm
  | test i hi =>
    have howner := (h.exclusive i).mp (hi ▸ trivial)
    by_cases hwake : s.stopping ∨ s.queue ≠ []
    · rw [if_pos hwake]
      exact h.moveWorker i .ready (hi ▸ rfl) rfl rfl rfl rfl ⟨rfl, rfl, rfl⟩
        hwake (iff_of_true trivial howner) fun k _ ↦ h.exclusive k
    · rw [if_neg hwake]
      refine h.moveWorker i .drowsy (hi ▸ rfl) rfl rfl rfl rfl ⟨rfl, rfl, rfl⟩
        ?_ (iff_of_true trivial howner) fun k _ ↦ h.exclusive k
      exact not_not.mp fun hstage ↦ hwake (.inl hstage)
  | block i hi =>
    refine h.moveWorker i .blocked (hi ▸ rfl) rfl rfl rfl rfl ⟨rfl, rfl, rfl⟩
      ?_ (iff_of_false id (Option.some_ne_none i).symm) fun k hki ↦ ?_
    · have hfits := h.fits i
      rw [hi] at hfits
      exact .inl hfits
    · exact iff_of_false (hfree (hi ▸ trivial) hki) (Option.some_ne_none k).symm
  | wake i hi =>
    exact h.moveWorker i .woken (hi ▸ rfl) rfl rfl rfl rfl ⟨rfl, rfl, rfl⟩
      trivial (hwithout (hi ▸ id) id) fun k _ ↦ h.exclusive k
  | leave i hi hstopping hqueue => exact h.leave hi hqueue
  | stay i hi hstay =>
    have howner := (h.exclusive i).mp (hi ▸ trivial)
    refine h.moveWorker i .taking (hi ▸ rfl) rfl rfl rfl rfl ⟨rfl, rfl, rfl⟩ ?_
      (iff_of_true trivial howner) fun k _ ↦ h.exclusive k
    have hfits := h.fits i
    rw [hi] at hfits
    intro hqueue
    exact hfits.elim (fun hstopping ↦ hstay ⟨hstopping, hqueue⟩) fun hne ↦ hne hqueue
  | pop i task queue hi hqueue => exact h.pop hi hqueue
  | finish i task hi =>
    exact h.moveWorker i .outside (hi ▸ rfl) rfl rfl rfl rfl ⟨rfl, rfl, rfl⟩
      trivial (hwithout (hi ▸ id) id) fun k _ ↦ h.exclusive k
  | stop hstage howner =>
    refine ⟨h.exclusive, fun i ↦ ?_, fun hdone ↦ ?_, h.order, fun _ ↦ ?_, h.left⟩
    · -- the mutex is free, so nobody has just looked at the predicate
      have hnot : ¬(s.worker i).Holds := fun hholds ↦
        Option.some_ne_none i (((h.exclusive i).mp hholds).symm.trans howner)
      have hfits := h.fits i
      cases hi : s.worker i with
      | blocked => exact .inr rfl
      | ready => exact absurd (hi ▸ trivial) hnot
      | drowsy => exact absurd (hi ▸ trivial) hnot
      | taking => exact absurd (hi ▸ trivial) hnot
      | _ => exact trivial
    · cases hdone
    · exact h.dropped (hstage ▸ by decide)
  | notifyAll hstage =>
    have hnotified (i : Fin n) : ((s.worker i).notified.Holds ↔ (s.worker i).Holds) ∧
        (s.worker i).notified.isExited = (s.worker i).isExited := by
      cases s.worker i <;> exact ⟨Iff.rfl, rfl⟩
    refine ⟨fun i ↦ (hnotified i).1.trans (h.exclusive i), fun i ↦ ?_,
      fun hdone ↦ ?_, h.order, fun _ ↦ h.dropped (hstage ▸ by decide), fun hn hall ↦ ?_⟩
    · have hfits := h.fits i
      rw [hstage] at hfits
      simp only
      cases hi : s.worker i with
      | ready => exact .inl (by decide)
      | drowsy =>
        rw [hi] at hfits
        cases hfits
      | taking =>
        rw [hi] at hfits
        exact hfits
      | _ => exact trivial
    · cases hdone
    · exact h.left hn fun i ↦ (hnotified i).2 ▸ hall i
  | join hstage hexited =>
    have hphase (i : Fin n) : s.worker i = .exited := by
      have hi := hexited i
      cases hw : s.worker i with
      | exited => rfl
      | _ =>
        rw [hw] at hi
        cases hi
    refine ⟨h.exclusive, fun i ↦ ?_, fun _ ↦ hexited, ?_, fun hnot ↦ absurd rfl hnot, h.left⟩
    · rw [hphase i]
      exact trivial
    · have horder := h.order
      rw [h.dropped (hstage ▸ by decide), List.append_nil] at horder
      rw [List.append_nil]
      exact horder

theorem Sound.step {s : Pool n m τ} (h : Sound s) (e : Event n m τ) : Sound (step s e) := by
  rcases step_cases s e with heq | hmoves
  · rwa [heq]
  · exact h.moves hmoves

/-! ## Before `shutdown`

Until `stopping` is set this is the pool of `Wasapi.WorkerPool` with the body of `enqueue` and the
running of a task written out: a worker that has decided to take a task is still ready there, one
that runs it is outside, and a thread that has only looked at `stopping` has not begun. Each step is
a step there or changes nothing there, so what is proved of wakeups there holds here. -/

/-- The phase in the pool that is not shut down. -/
def WorkerPhase.erase : WorkerPhase τ → WorkerPool.WorkerPhase
  | .outside | .running _ | .exited => .outside
  | .locked => .locked
  | .ready | .taking => .ready
  | .drowsy => .drowsy
  | .blocked => .blocked
  | .woken => .woken

def Caller.hasPushed : Caller τ → Bool
  | .pushed => true
  | .idle | .entered _ => false

/-- The pool without what belongs to `shutdown`. -/
def Pool.erase (s : Pool n m τ) : WorkerPool.Pool n m τ where
  queue := s.queue
  owner := s.owner
  worker i := (s.worker i).erase
  pushed j := (s.caller j).hasPushed

/-- Nothing is pushed while a worker has found the queue empty and is not blocked yet. -/
def NoneDrowsy (s : Pool n m τ) : Event n m τ → Prop
  | .push _ => ∀ i, s.worker i ≠ .drowsy
  | _ => True

private theorem WorkerPhase.erase_eq_drowsy {phase : WorkerPhase τ} :
    phase.erase = .drowsy ↔ phase = .drowsy := by
  cases phase <;> simp [WorkerPhase.erase]

private theorem WorkerPhase.erase_eq_blocked {phase : WorkerPhase τ} :
    phase.erase = .blocked ↔ phase.isBlocked = true := by
  cases phase <;> simp [WorkerPhase.erase, WorkerPhase.isBlocked]

private theorem erase_updateWorker (s : Pool n m τ) (i : Fin n) (phase : WorkerPhase τ) :
    (fun k ↦ (Function.update s.worker i phase k).erase)
      = Function.update s.erase.worker i phase.erase :=
  funext fun k ↦ Function.apply_update (fun _ ↦ WorkerPhase.erase) s.worker i phase k

private theorem erase_updateCaller (s : Pool n m τ) (j : Fin m) (caller : Caller τ) :
    (fun k ↦ (Function.update s.caller j caller k).hasPushed)
      = Function.update s.erase.pushed j caller.hasPushed :=
  funext fun k ↦ Function.apply_update (fun _ ↦ Caller.hasPushed) s.caller j caller k

private theorem erase_setWorker (s : Pool n m τ) (i : Fin n) (phase : WorkerPhase τ) :
    (s.setWorker i phase).erase = s.erase.setWorker i phase.erase := by
  rw [Pool.erase, WorkerPool.Pool.setWorker, ← erase_updateWorker]
  rfl

/-- A worker that stays where it is in the other pool. -/
theorem erase_setWorker_self (s : Pool n m τ) (i : Fin n) (phase : WorkerPhase τ)
    (h : phase.erase = (s.worker i).erase) : (s.setWorker i phase).erase = s.erase := by
  rw [erase_setWorker, h, WorkerPool.Pool.setWorker]
  have hworker : Function.update s.erase.worker i (s.worker i).erase = s.erase.worker :=
    Function.update_eq_self i s.erase.worker
  rw [hworker]

private theorem erase_setCaller (s : Pool n m τ) (j : Fin m) (caller : Caller τ) :
    (s.setCaller j caller).erase
      = { s.erase with pushed := Function.update s.erase.pushed j caller.hasPushed } := by
  rw [Pool.erase, ← erase_updateCaller]
  rfl

/-- **Before `shutdown` each step is one of the other pool**, or changes nothing there. -/
theorem erase_step (s : Pool n m τ) (e : Event n m τ) (hrunning : ¬(step s e).stopping) :
    (step s e).erase = s.erase ∨ ∃ e', (NoneDrowsy s e → WorkerPool.NoneDrowsy s.erase e') ∧
      (step s e).erase = WorkerPool.step s.erase e' := by
  cases e with
  | enter j task =>
    left
    rw [step]
    split
    · next hj =>
      split
      · rfl
      · rw [erase_setCaller]
        have hpushed : Function.update s.erase.pushed j (Caller.entered task).hasPushed
            = s.erase.pushed := by
          rw [Function.update_eq_self_iff]
          simp [Pool.erase, hj, Caller.hasPushed]
        rw [hpushed]
    · rfl
  | push j =>
    rw [step]
    split
    · next task hj =>
      refine .inr ⟨.push j task, fun h i hi ↦ h i (WorkerPhase.erase_eq_drowsy.mp hi), ?_⟩
      have hpushed : s.erase.pushed j = false := by simp [Pool.erase, hj, Caller.hasPushed]
      rw [WorkerPool.step, hpushed, if_neg Bool.false_ne_true]
      change WorkerPool.Pool.mk _ _ _ _ = _
      rw [← show (Caller.pushed : Caller τ).hasPushed = true from rfl, ← erase_updateCaller]
      rfl
    · exact .inl rfl
  | notify j i =>
    cases i with
    | none =>
      rw [step]
      split
      · next hj =>
        split
        · next hnone =>
          refine .inr ⟨.notify j none, fun _ ↦ trivial, ?_⟩
          have hpushed : s.erase.pushed j = true := by simp [Pool.erase, hj, Caller.hasPushed]
          have hblocked (i : Fin n) : s.erase.worker i ≠ .blocked := fun hi ↦
            hnone i (WorkerPhase.erase_eq_blocked.mp hi)
          rw [WorkerPool.step, if_pos ⟨hpushed, hblocked⟩, erase_setCaller]
          rfl
        · exact .inl rfl
      · exact .inl rfl
    | some i =>
      rw [step]
      split
      · next hj hi =>
        refine .inr ⟨.notify j (some i), fun _ ↦ trivial, ?_⟩
        have hpushed : s.erase.pushed j = true := by simp [Pool.erase, hj, Caller.hasPushed]
        have hblocked : s.erase.worker i = .blocked := by simp [Pool.erase, hi, WorkerPhase.erase]
        rw [WorkerPool.step, if_pos ⟨hpushed, hblocked⟩, erase_setWorker, erase_setCaller]
        rfl
      · exact .inl rfl
  | acquire i =>
    have hacquire (hi : s.erase.worker i = .outside ∨ s.erase.worker i = .woken)
        (howner : s.owner = none) :
        Pool.erase { s.setWorker i .locked with owner := some i }
          = WorkerPool.step s.erase (.acquire i) := by
      rw [WorkerPool.step, if_pos ⟨howner, hi⟩, ← show (WorkerPhase.locked : WorkerPhase τ).erase
        = .locked from rfl, ← erase_setWorker]
      rfl
    rw [step]
    split
    · next howner hi =>
      exact .inr ⟨.acquire i, fun _ ↦ trivial,
        hacquire (.inl (by simp [Pool.erase, hi, WorkerPhase.erase])) howner⟩
    · next howner hi =>
      exact .inr ⟨.acquire i, fun _ ↦ trivial,
        hacquire (.inr (by simp [Pool.erase, hi, WorkerPhase.erase])) howner⟩
    · exact .inl rfl
  | test i =>
    rw [step] at hrunning ⊢
    split
    · next hi =>
      rw [hi] at hrunning
      refine .inr ⟨.test i, fun _ ↦ trivial, ?_⟩
      have hlocked : s.erase.worker i = .locked := by simp [Pool.erase, hi, WorkerPhase.erase]
      have hnot : ¬s.stopping := hrunning
      rw [WorkerPool.step, if_pos hlocked, erase_setWorker]
      by_cases hqueue : s.queue = []
      · simp [hnot, hqueue, WorkerPhase.erase, Pool.erase]
      · simp [hqueue, WorkerPhase.erase, Pool.erase]
    · exact .inl rfl
  | block i =>
    rw [step]
    split
    · next hi =>
      refine .inr ⟨.block i, fun _ ↦ trivial, ?_⟩
      have hdrowsy : s.erase.worker i = .drowsy := by simp [Pool.erase, hi, WorkerPhase.erase]
      rw [WorkerPool.step, if_pos hdrowsy, ← show (WorkerPhase.blocked : WorkerPhase τ).erase
        = .blocked from rfl, ← erase_setWorker]
      rfl
    · exact .inl rfl
  | wake i =>
    rw [step]
    split
    · next hi =>
      refine .inr ⟨.wake i, fun _ ↦ trivial, ?_⟩
      have hblocked : s.erase.worker i = .blocked := by simp [Pool.erase, hi, WorkerPhase.erase]
      rw [WorkerPool.step, if_pos hblocked, erase_setWorker]
      rfl
    · exact .inl rfl
  | check i =>
    left
    rw [step] at hrunning ⊢
    split
    · next hi =>
      rw [hi] at hrunning
      split
      · next hleave =>
        simp only [if_pos hleave] at hrunning
        exact absurd hleave.1 hrunning
      · exact erase_setWorker_self s i .taking (by rw [hi]; rfl)
    · rfl
  | pop i =>
    rw [step]
    split
    · next task queue hi hqueue =>
      refine .inr ⟨.pop i, fun _ ↦ trivial, ?_⟩
      have hready : s.erase.worker i = .ready := by simp [Pool.erase, hi, WorkerPhase.erase]
      have htail : s.erase.queue.tail = queue := by simp [Pool.erase, hqueue]
      rw [WorkerPool.step, if_pos hready, htail, ← show (WorkerPhase.running task).erase
        = .outside from rfl, ← erase_setWorker]
      rfl
    · exact .inl rfl
  | finish i =>
    left
    rw [step]
    split
    · next task hi => exact erase_setWorker_self s i .outside (by rw [hi]; rfl)
    · rfl
  | stop =>
    left
    rw [step]
    split <;> rfl
  | notifyAll =>
    rw [step] at hrunning ⊢
    split
    · next hstage =>
      rw [if_pos hstage] at hrunning
      exact absurd (by decide : Stage.joining ≠ .running) hrunning
    · exact .inl rfl
  | join =>
    rw [step] at hrunning ⊢
    split
    · next hjoin =>
      rw [if_pos hjoin] at hrunning
      exact absurd (by decide : Stage.done ≠ .running) hrunning
    · exact .inl rfl

private theorem Moves.stopping {s s' : Pool n m τ} (h : Moves s s') (hstopping : s.stopping) :
    s'.stopping := by
  cases h with
  | stop hstage howner => exact (by decide : Stage.stopping ≠ .running)
  | notifyAll hstage => exact (by decide : Stage.joining ≠ .running)
  | join hstage hexited => exact (by decide : Stage.done ≠ .running)
  | _ => exact hstopping

/-- **No wakeup is lost before `shutdown`** in a run in which nothing is pushed behind the back of
a drowsy worker. -/
theorem noLostWakeup_untilStopped (hn : 0 < n) {events : List (Event n m τ)}
    (hmeets : Meets step NoneDrowsy (initial n m τ) events) :
    Always step (fun s ↦ ¬s.stopping → NoLostWakeup s.erase) (initial n m τ) events := by
  have hrun : Always step (fun s ↦ ¬s.stopping → Attended s.erase) (initial n m τ) events := by
    refine hmeets.always (fun s e h hguard hrunning ↦ ?_) fun _ ↦ attended_initial
    have hbefore : ¬s.stopping := fun hstopping ↦ by
      rcases step_cases s e with heq | hmoves
      · exact hrunning (by rwa [heq])
      · exact hrunning (hmoves.stopping hstopping)
    rcases erase_step s e hrunning with heq | ⟨e', hguard', heq⟩
    · rw [heq]
      exact h hbefore
    · rw [heq]
      exact (h hbefore).step hn (hguard' hguard)
  exact hrun.mono fun s h hrunning ↦ (h hrunning).noLostWakeup

/-! ## Tasks are taken in order

Tasks enter at one end and leave at the other, so the order needs no argument beyond the invariant.
What does need one is that `front` never meets an empty queue: the worker that pops has seen the
queue while it had the mutex, and has it still. -/

/-- What has been pushed has been taken, dropped or is in the queue, in this order; only one worker
has the mutex; and `front` is not called on an empty queue. -/
structure InOrder (s : Pool n m τ) : Prop where
  order : s.pushed = s.taken ++ s.dropped ++ s.queue
  exclusive : ∀ i k, (s.worker i).Holds → (s.worker k).Holds → i = k
  nonempty : ∀ i, s.worker i = .taking → s.queue ≠ []

private theorem Sound.inOrder {s : Pool n m τ} (h : Sound s) : InOrder s where
  order := h.order
  exclusive i k hi hk :=
    Option.some.inj (((h.exclusive i).mp hi).symm.trans ((h.exclusive k).mp hk))
  nonempty i hi := by
    have hfits := h.fits i
    rwa [hi] at hfits

/-- **Every task is taken once and in the order of the pushes**, whatever the threads do. -/
theorem always_takenInOrder (events : List (Event n m τ)) :
    Always step InOrder (initial n m τ) events :=
  (always_of_invariant (fun _ e h ↦ h.step e) sound_initial events).mono fun _ h ↦ h.inOrder

/-! ## What `shutdown` drops

A thread that has found `stopping` unset pushes later, possibly when nobody is left to see it. There
is one such task for each thread at most, since the next call of `enqueue` looks at `stopping`
again; the sum over the threads makes this a bound on the queue. -/

/-- One entry of a sum changes. -/
theorem sum_update {k : ℕ} {α : Type*} (g : α → ℕ) (f : Fin k → α) (i : Fin k) (a : α) :
    (∑ j, g (Function.update f i a j)) + g (f i) = (∑ j, g (f j)) + g a := by
  have hupdate :
      (fun j ↦ g (Function.update f i a j)) = Function.update (fun j ↦ g (f j)) i (g a) :=
    funext fun j ↦ Function.apply_update (fun _ ↦ g) f i a j
  have hsum := Finset.sum_update_of_mem (Finset.mem_univ i) (fun j ↦ g (f j)) (g a)
  have hself := Finset.add_sum_erase Finset.univ (fun j ↦ g (f j)) (Finset.mem_univ i)
  rw [← Finset.erase_eq] at hsum
  rw [hupdate, hsum]
  omega

/-- Whether the thread will push a task. -/
def Caller.willPush : Caller τ → ℕ
  | .entered _ => 1
  | _ => 0

/-- The threads that will push a task although `stopping` may be set by now. -/
def Pool.entered (s : Pool n m τ) : ℕ := ∑ j, (s.caller j).willPush

private theorem entered_le (s : Pool n m τ) : s.entered ≤ m := by
  have hle : ∀ j ∈ Finset.univ, (s.caller j).willPush ≤ 1 := by
    intro j _
    cases s.caller j <;> simp [Caller.willPush]
  have hsum := Finset.sum_le_card_nsmul Finset.univ (fun j ↦ (s.caller j).willPush) 1 hle
  rwa [Finset.card_univ, Fintype.card_fin, smul_eq_mul, Nat.mul_one] at hsum

/-- What is pushed behind the back of a worker that has left comes from threads that had entered
before. -/
def Bounded (s : Pool n m τ) : Prop :=
  (∃ i, (s.worker i).isExited = true) →
    s.stopping ∧ s.pushed.length + s.entered ≤ s.pushedAtExit.length + m

private theorem entered_setCaller (s : Pool n m τ) (j : Fin m) (caller : Caller τ) :
    (s.setCaller j caller).entered + (s.caller j).willPush = s.entered + caller.willPush :=
  sum_update Caller.willPush s.caller j caller

/-- Only the phase of a worker that has not left changes, and it does not leave. -/
theorem Bounded.moveWorker {s s' : Pool n m τ} (h : Bounded s) {i : Fin n} {phase : WorkerPhase τ}
    (hphase : phase.isExited = false) (hworker : s'.worker = Function.update s.worker i phase)
    (hstage : s'.stage = s.stage) (hcaller : s'.entered ≤ s.entered)
    (hlists : s'.pushed = s.pushed ∧ s'.pushedAtExit = s.pushedAtExit) : Bounded s' := by
  rintro ⟨k, hk⟩
  have hki : k ≠ i := by
    rintro rfl
    rw [hworker, Function.update_self, hphase] at hk
    cases hk
  rw [hworker, Function.update_of_ne hki] at hk
  obtain ⟨hstopping, hle⟩ := h ⟨k, hk⟩
  refine ⟨?_, ?_⟩
  · rw [Pool.stopping, hstage]
    exact hstopping
  · rw [hlists.1, hlists.2]
    omega

theorem Bounded.moves {s s' : Pool n m τ} (h : Bounded s) (hmoves : Moves s s') : Bounded s' := by
  cases hmoves with
  | enter j task hj hrunning => exact fun hexited ↦ absurd (h hexited).1 hrunning
  | push j task hj =>
    intro hexited
    obtain ⟨hstopping, hle⟩ := h hexited
    have hentered := entered_setCaller s j .pushed
    rw [hj] at hentered
    simp only [Caller.willPush] at hentered
    refine ⟨hstopping, ?_⟩
    have hsame : Pool.entered { s.setCaller j .pushed with
        queue := s.queue ++ [task], pushed := s.pushed ++ [task] }
        = (s.setCaller j .pushed).entered := rfl
    rw [hsame]
    simp only [Pool.setCaller, List.length_append, List.length_singleton] at hentered ⊢
    omega
  | notifyNone j hj =>
    intro hexited
    obtain ⟨hstopping, hle⟩ := h hexited
    have hentered := entered_setCaller s j .idle
    rw [hj] at hentered
    simp only [Caller.willPush] at hentered
    refine ⟨hstopping, ?_⟩
    simp only [Pool.setCaller] at hentered ⊢
    omega
  | notify j i hj hi =>
    have hentered := entered_setCaller s j .idle
    rw [hj] at hentered
    exact h.moveWorker (i := i) rfl rfl rfl hentered.le ⟨rfl, rfl⟩
  | acquire i howner hi => exact h.moveWorker (i := i) rfl rfl rfl le_rfl ⟨rfl, rfl⟩
  | test i hi =>
    refine h.moveWorker (i := i) ?_ rfl rfl le_rfl ⟨rfl, rfl⟩
    split <;> rfl
  | block i hi => exact h.moveWorker (i := i) rfl rfl rfl le_rfl ⟨rfl, rfl⟩
  | wake i hi => exact h.moveWorker (i := i) rfl rfl rfl le_rfl ⟨rfl, rfl⟩
  | leave i hi hstopping hqueue =>
    intro _
    refine ⟨hstopping, ?_⟩
    have hle := entered_le s
    simp only [Pool.setWorker]
    exact Nat.add_le_add_left hle _
  | stay i hi hstay => exact h.moveWorker (i := i) rfl rfl rfl le_rfl ⟨rfl, rfl⟩
  | pop i task queue hi hqueue => exact h.moveWorker (i := i) rfl rfl rfl le_rfl ⟨rfl, rfl⟩
  | finish i task hi => exact h.moveWorker (i := i) rfl rfl rfl le_rfl ⟨rfl, rfl⟩
  | stop hstage howner =>
    intro hexited
    exact ⟨(by decide : Stage.stopping ≠ .running), (h hexited).2⟩
  | notifyAll hstage =>
    rintro ⟨k, hk⟩
    have hexited : (s.worker k).isExited = true := by
      cases hw : s.worker k with
      | exited => rfl
      | _ =>
        simp only [hw] at hk
        cases hk
    exact ⟨(by decide : Stage.joining ≠ .running), (h ⟨k, hexited⟩).2⟩
  | join hstage hexited =>
    intro hleft
    exact ⟨(by decide : Stage.done ≠ .running), (h hleft).2⟩

/-- What is left when `shutdown` has returned: the workers have taken and finished everything that
had been pushed when the last of them left, and what they have not seen is at most one task of each
thread. -/
structure ShutDown (s : Pool n m τ) : Prop where
  taken : s.taken = s.pushedAtExit
  pushed : s.pushed = s.pushedAtExit ++ (s.dropped ++ s.queue)
  unseen : (s.dropped ++ s.queue).length ≤ m
  finished : ∀ i, (s.worker i).isExited = true

/-- **`shutdown` drops nothing the workers could have seen**, whatever the threads do. -/
theorem always_shutDown (hn : 0 < n) (events : List (Event n m τ)) :
    Always step (fun s ↦ s.stage = .done → ShutDown s) (initial n m τ) events := by
  have hrun : Always step (fun s ↦ Sound s ∧ Bounded s) (initial n m τ) events := by
    refine always_of_invariant (fun s e h ↦ ⟨h.1.step e, ?_⟩) ⟨sound_initial, ?_⟩ events
    · rcases step_cases s e with heq | hmoves
      · rw [heq]
        exact h.2
      · exact h.2.moves hmoves
    · rintro ⟨i, hi⟩
      cases hi
  refine hrun.mono fun s ⟨hsound, hbounded⟩ hdone ↦ ?_
  have hall := hsound.done hdone
  have htaken := hsound.left hn hall
  have hpushed : s.pushed = s.pushedAtExit ++ (s.dropped ++ s.queue) := by
    rw [← htaken, ← List.append_assoc]
    exact hsound.order
  refine ⟨htaken, hpushed, ?_, hall⟩
  have hle := (hbounded ⟨⟨0, hn⟩, hall _⟩).2
  rw [hpushed, List.length_append] at hle
  omega

/-! ## `shutdown` returns

Once `notify_all` has been called nobody goes to sleep any more, and a thread that looks at
`stopping` finds it set. So there is a measure that every step makes smaller: the steps left to each
thread, and what the tasks in the queue and those still to come cost the workers. -/

/-- The steps a worker may still take, but for what the tasks in the queue cost it. -/
def WorkerPhase.weight : WorkerPhase τ → ℕ
  | .running _ => 5
  | .outside | .woken => 4
  | .locked => 3
  | .ready => 2
  | .taking => 1
  | .drowsy | .blocked | .exited => 0

def Caller.weight : Caller τ → ℕ
  | .idle => 0
  | .pushed => 1
  | .entered _ => 7

def Stage.weight : Stage → ℕ
  | .joining => 1
  | _ => 0

/-- The steps that can still be taken while the threads are joined. -/
def Pool.left (s : Pool n m τ) : ℕ :=
  (∑ i, (s.worker i).weight) + 5 * s.queue.length + (∑ j, (s.caller j).weight) + s.stage.weight

theorem left_le (s : Pool n m τ) : s.left ≤ 5 * n + 5 * s.queue.length + 7 * m + 1 := by
  have hworkers : ∀ i ∈ Finset.univ, (s.worker i).weight ≤ 5 := by
    intro i _
    cases s.worker i <;> simp [WorkerPhase.weight]
  have hcallers : ∀ j ∈ Finset.univ, (s.caller j).weight ≤ 7 := by
    intro j _
    cases s.caller j <;> simp [Caller.weight]
  have h₁ := Finset.sum_le_card_nsmul Finset.univ (fun i ↦ (s.worker i).weight) 5 hworkers
  have h₂ := Finset.sum_le_card_nsmul Finset.univ (fun j ↦ (s.caller j).weight) 7 hcallers
  have h₃ : s.stage.weight ≤ 1 := by cases s.stage <;> decide
  rw [Finset.card_univ, Fintype.card_fin, smul_eq_mul] at h₁ h₂
  rw [Pool.left]
  omega

/-- `notify_all` has been called. -/
def Pool.leaving (s : Pool n m τ) : Prop := s.stage = .joining ∨ s.stage = .done

private theorem Moves.leaving {s s' : Pool n m τ} (h : Moves s s') (hleaving : s.leaving) :
    s'.leaving := by
  cases h with
  | stop hstage _ => rcases hleaving with h | h <;> cases hstage.symm.trans h
  | notifyAll hstage => exact .inl rfl
  | join hstage hexited => exact .inr rfl
  | _ => exact hleaving

/-- Nobody sleeps any more. -/
theorem Sound.awake {s : Pool n m τ} (h : Sound s) (hleaving : s.leaving) (i : Fin n) :
    s.worker i ≠ .drowsy ∧ s.worker i ≠ .blocked := by
  have hfits := h.fits i
  refine ⟨fun hi ↦ ?_, fun hi ↦ ?_⟩
  · rw [hi] at hfits
    rcases hleaving with hstage | hstage <;> cases hstage.symm.trans hfits
  · rw [hi] at hfits
    rcases hleaving with hstage | hstage <;> rcases hfits with hf | hf <;>
      cases hstage.symm.trans hf

/-- A worker comes to a phase of less weight. -/
theorem left_moveWorker {s s' : Pool n m τ} (i : Fin n) (phase : WorkerPhase τ) (k : ℕ)
    (hworker : s'.worker = Function.update s.worker i phase) (hcaller : s'.caller = s.caller)
    (hstage : s'.stage = s.stage) (hqueue : 5 * s'.queue.length + k = 5 * s.queue.length)
    (hlt : phase.weight < (s.worker i).weight + k) : s'.left < s.left := by
  have hsum := sum_update WorkerPhase.weight s.worker i phase
  rw [Pool.left, Pool.left, hworker, hcaller, hstage]
  omega

private theorem left_setCaller (s : Pool n m τ) (j : Fin m) (caller : Caller τ) :
    (s.setCaller j caller).left + (s.caller j).weight = s.left + caller.weight := by
  have hsum := sum_update Caller.weight s.caller j caller
  simp only [Pool.left, Pool.setCaller]
  omega

/-- **Every step brings the end nearer** once `notify_all` has been called. -/
theorem Sound.left_lt {s s' : Pool n m τ} (h : Sound s) (hleaving : s.leaving)
    (hmoves : Moves s s') : s'.left < s.left := by
  have hstopping : s.stopping := by
    rcases hleaving with hstage | hstage <;> rw [Pool.stopping, hstage] <;> decide
  cases hmoves with
  | enter j task hj hrunning => exact absurd hstopping hrunning
  | push j task hj =>
    have hsum := sum_update Caller.weight s.caller j .pushed
    rw [hj, show (Caller.entered task).weight = 7 from rfl,
      show (Caller.pushed : Caller τ).weight = 1 from rfl] at hsum
    simp only [Pool.left, Pool.setCaller, List.length_append, List.length_singleton]
    omega
  | notifyNone j hj =>
    have hsum := left_setCaller s j .idle
    rw [hj, show (Caller.pushed : Caller τ).weight = 1 from rfl,
      show (Caller.idle : Caller τ).weight = 0 from rfl] at hsum
    omega
  | notify j i hj hi => exact absurd hi (h.awake hleaving i).2
  | acquire i howner hi =>
    refine left_moveWorker i .locked 0 rfl rfl rfl rfl ?_
    rcases hi with hi | hi
    · simp [hi, WorkerPhase.weight]
    · simp [hi, WorkerPhase.weight]
  | test i hi =>
    rw [if_pos (.inl hstopping)]
    exact left_moveWorker i .ready 0 rfl rfl rfl rfl <| by
      simp [hi, WorkerPhase.weight]
  | block i hi => exact absurd hi (h.awake hleaving i).1
  | wake i hi => exact absurd hi (h.awake hleaving i).2
  | leave i hi _ hqueue =>
    exact left_moveWorker i .exited 0 rfl rfl rfl rfl <| by
      simp [hi, WorkerPhase.weight]
  | stay i hi hstay =>
    exact left_moveWorker i .taking 0 rfl rfl rfl rfl <| by
      simp [hi, WorkerPhase.weight]
  | pop i task queue hi hqueue =>
    refine left_moveWorker i (.running task) 5 rfl rfl rfl ?_ ?_
    · rw [hqueue, List.length_cons]
      rfl
    · simp [hi, WorkerPhase.weight]
  | finish i task hi =>
    exact left_moveWorker i .outside 0 rfl rfl rfl rfl <| by
      simp [hi, WorkerPhase.weight]
  | stop hstage _ => exact absurd hstage hstopping
  | notifyAll hstage =>
    rcases hleaving with hleaving | hleaving <;> cases hstage.symm.trans hleaving
  | join hstage hexited =>
    simp only [Pool.left, hstage, List.length_nil, Stage.weight]
    omega

private theorem step_ne {s : Pool n m τ} {e : Event n m τ} {i : Fin n}
    (h : (step s e).worker i ≠ s.worker i) : step s e ≠ s :=
  fun heq ↦ h (by rw [heq])

/-- **`shutdown` is never stuck**: until the threads are joined somebody can take a step. -/
theorem Sound.exists_step {s : Pool n m τ} (h : Sound s) (hstage : s.stage = .joining) :
    ∃ e, Life.step s e ≠ s := by
  have hstopping : s.stopping := by
    rw [Pool.stopping, hstage]
    decide
  by_cases hall : ∀ i, (s.worker i).isExited = true
  · refine ⟨.join, fun heq ↦ ?_⟩
    have hdone : (Life.step s .join).stage = .done := by rw [Life.step, if_pos ⟨hstage, hall⟩]
    rw [heq, hstage] at hdone
    cases hdone
  obtain ⟨i, hi⟩ := not_forall.mp hall
  -- the worker that has the mutex, or any that has not left
  have hmoves (k : Fin n) (hk : s.owner = none ∨ s.owner = some k)
      (hleft : (s.worker k).isExited = false) : ∃ e, Life.step s e ≠ s := by
    have hfree (hnot : ¬(s.worker k).Holds) : s.owner = none :=
      hk.resolve_right fun howner ↦ hnot ((h.exclusive k).mpr howner)
    obtain ⟨hdrowsy, hblocked⟩ := h.awake (.inl hstage) k
    have hfits := h.fits k
    cases hphase : s.worker k with
    | drowsy => exact absurd hphase hdrowsy
    | blocked => exact absurd hphase hblocked
    | exited =>
      rw [hphase] at hleft
      cases hleft
    | running task =>
      refine ⟨.finish k, step_ne (i := k) ?_⟩
      simp [Life.step, hphase, Pool.setWorker]
    | locked =>
      refine ⟨.test k, step_ne (i := k) ?_⟩
      simp [Life.step, hphase, Pool.setWorker, hstopping]
    | ready =>
      refine ⟨.check k, step_ne (i := k) ?_⟩
      simp only [Life.step, hphase]
      split <;> simp [Pool.setWorker]
    | taking =>
      rw [hphase] at hfits
      obtain ⟨task, queue, hqueue⟩ := List.exists_cons_of_ne_nil hfits
      refine ⟨.pop k, step_ne (i := k) ?_⟩
      simp [Life.step, hphase, hqueue, Pool.setWorker]
    | outside =>
      have howner : s.owner = none := hfree fun hholds ↦ by rwa [hphase] at hholds
      refine ⟨.acquire k, step_ne (i := k) ?_⟩
      simp [Life.step, hphase, howner, Pool.setWorker]
    | woken =>
      have howner : s.owner = none := hfree fun hholds ↦ by rwa [hphase] at hholds
      refine ⟨.acquire k, step_ne (i := k) ?_⟩
      simp [Life.step, hphase, howner, Pool.setWorker]
  cases howner : s.owner with
  | none => exact hmoves i (.inl howner) (Bool.eq_false_iff.mpr hi)
  | some k =>
    refine hmoves k (.inr howner) ?_
    have hholds := (h.exclusive k).mpr howner
    cases hphase : s.worker k with
    | exited =>
      rw [hphase] at hholds
      exact hholds.elim
    | _ => rfl

/-- **`shutdown` returns.** From the moment `notify_all` has been called the threads can take only
so many steps, in whatever order they take them, and wherever they can take no more `shutdown` has
returned. The tasks are taken to come to their ends. -/
theorem shutdown_returns (events : List (Event n m τ)) :
    let s := events.foldl step (initial n m τ)
    s.leaving → ∀ es, Effective step s es →
      es.length ≤ 5 * n + 5 * s.queue.length + 7 * m + 1 ∧
        ((∀ e, step (es.foldl step s) e = es.foldl step s) → (es.foldl step s).stage = .done) := by
  intro s hleaving es hes
  have hs : Sound s := List.foldlRecOn events step sound_initial fun _ h e _ ↦ h.step e
  have hkept (s : Pool n m τ) (e : Event n m τ) (h : Sound s ∧ s.leaving) :
      Sound (step s e) ∧ (step s e).leaving := by
    refine ⟨h.1.step e, ?_⟩
    rcases step_cases s e with heq | hmoves
    · rw [heq]
      exact h.2
    · exact hmoves.leaving h.2
  have hlength := hes.length_add_le (I := fun s ↦ Sound s ∧ s.leaving) (μ := Pool.left) hkept
    (fun s e h hne ↦ h.1.left_lt h.2 ((step_cases s e).resolve_left hne)) ⟨hs, hleaving⟩
  have hle := left_le s
  refine ⟨by omega, fun hstuck ↦ ?_⟩
  have hlast : Sound (es.foldl step s) ∧ (es.foldl step s).leaving :=
    List.foldlRecOn es step (motive := fun s ↦ Sound s ∧ s.leaving) ⟨hs, hleaving⟩
      fun s h e _ ↦ hkept s e h
  refine hlast.2.resolve_left fun hstage ↦ ?_
  obtain ⟨e, he⟩ := hlast.1.exists_step hstage
  exact he (hstuck e)

end

/-- The only worker, or the only other thread. -/
def only : Fin 1 := ⟨0, Nat.one_pos⟩

/-- A thread finds `stopping` unset and pushes its task when the only worker has left. -/
def pushedLate : List (Event 1 1 ℕ) :=
  [.enter only 7, .stop, .notifyAll, .acquire only, .test only, .check only, .push only, .join]

/-- `enqueue` returns true, and the task is dropped. -/
theorem always_shutDown_pushedLate :
    Always step (fun s ↦ s.stage = .done → ShutDown s) (initial 1 1 ℕ) pushedLate ∧
      (pushedLate.foldl step (initial 1 1 ℕ)).dropped = [7] :=
  ⟨always_shutDown (by decide) pushedLate, by decide⟩

/-- The only worker leaves, and the threads are joined. -/
theorem shutdown_returns_idle :
    (([.acquire only, .test only, .check only, .join] : List (Event 1 0 ℕ)).foldl step
      ([.stop, .notifyAll].foldl step (initial 1 0 ℕ))).stage = .done := by
  refine (shutdown_returns ([.stop, .notifyAll] : List (Event 1 0 ℕ)) (.inl (by decide))
    [.acquire only, .test only, .check only, .join] ?_).2 ?_
  · refine ⟨step_ne (i := only) (by decide), step_ne (i := only) (by decide),
      step_ne (i := only) (by decide), fun h ↦ ?_, trivial⟩
    exact absurd (congrArg Pool.stage h) (by decide)
  · -- nobody can do anything any more
    intro e
    cases e with
    | enter j => exact j.elim0
    | push j => exact j.elim0
    | notify j => exact j.elim0
    | acquire i => exact Subsingleton.elim 0 i ▸ rfl
    | test i => exact Subsingleton.elim 0 i ▸ rfl
    | block i => exact Subsingleton.elim 0 i ▸ rfl
    | wake i => exact Subsingleton.elim 0 i ▸ rfl
    | check i => exact Subsingleton.elim 0 i ▸ rfl
    | pop i => exact Subsingleton.elim 0 i ▸ rfl
    | finish i => exact Subsingleton.elim 0 i ▸ rfl
    | _ => rfl

end Wasapi.WorkerPool.Life
