import Wasapi.Library.Transitions

/-!
# The worker pool

`WorkerPool::enqueue` and `WorkerPool::run`, each thread taking the steps between which other
threads can run. The mutex excludes workers from each other: it is held from the moment a worker
acquires it until the worker blocks or has popped a task. `enqueue` pushes without it; the push is
taken as one step all the same.

A worker that has found the queue empty still holds the mutex and does not sleep yet, and a
notification it is not waiting for is lost. A push at that moment goes unnoticed until the next one.
-/

namespace Wasapi.WorkerPool

/-- Where a worker is in `run`. -/
inductive WorkerPhase where
  /-- without the mutex: at the head of the loop, or running a task -/
  | outside
  /-- holds the mutex and has not looked at the predicate -/
  | locked
  /-- holds the mutex and has found the predicate true -/
  | ready
  /-- holds the mutex and has found the predicate false -/
  | drowsy
  /-- waits on the condition variable -/
  | blocked
  /-- has been woken and wants the mutex back -/
  | woken
  deriving DecidableEq

/-- A pool of `n` workers with `m` threads that call `enqueue`, before `shutdown`. -/
structure Pool (n m : ℕ) (τ : Type*) where
  queue : List τ := []
  /-- the holder of `mtx` -/
  owner : Option (Fin n) := none
  worker : Fin n → WorkerPhase := fun _ ↦ .outside
  /-- whether the thread has pushed a task and not called `notify_one` yet -/
  pushed : Fin m → Bool := fun _ ↦ false

inductive Event (n m : ℕ) (τ : Type*) where
  /-- `q.push` -/
  | push (j : Fin m) (task : τ)
  /-- `cv.notify_one`, with the worker it wakes -/
  | notify (j : Fin m) (i : Option (Fin n))
  | acquire (i : Fin n)
  /-- the predicate of `cv.wait` -/
  | test (i : Fin n)
  /-- a worker blocks and releases the mutex -/
  | block (i : Fin n)
  /-- a worker wakes although nobody has notified it -/
  | wake (i : Fin n)
  /-- a worker takes a task and releases the mutex -/
  | pop (i : Fin n)

section

variable {n m : ℕ} {τ : Type*}

def Pool.setWorker (s : Pool n m τ) (i : Fin n) (phase : WorkerPhase) : Pool n m τ :=
  { s with worker := Function.update s.worker i phase }

/-- A step that cannot be taken leaves everything as it is. -/
def step (s : Pool n m τ) : Event n m τ → Pool n m τ
  | .push j task =>
    if s.pushed j then s
    else { s with queue := s.queue ++ [task], pushed := Function.update s.pushed j true }
  -- the notification is lost only if nobody waits for it
  | .notify j none =>
    if s.pushed j ∧ ∀ i, s.worker i ≠ .blocked then
      { s with pushed := Function.update s.pushed j false }
    else s
  | .notify j (some i) =>
    if s.pushed j ∧ s.worker i = .blocked then
      { s.setWorker i .woken with pushed := Function.update s.pushed j false }
    else s
  | .acquire i =>
    if s.owner = none ∧ (s.worker i = .outside ∨ s.worker i = .woken) then
      { s.setWorker i .locked with owner := some i }
    else s
  -- the mutex is kept while the predicate is evaluated, and by a worker that goes to sleep
  | .test i =>
    if s.worker i = .locked then s.setWorker i (if s.queue = [] then .drowsy else .ready) else s
  | .block i =>
    if s.worker i = .drowsy then { s.setWorker i .blocked with owner := none } else s
  | .wake i => if s.worker i = .blocked then s.setWorker i .woken else s
  | .pop i =>
    if s.worker i = .ready then
      { s.setWorker i .outside with queue := s.queue.tail, owner := none }
    else s

/-- The pool at start. -/
def initial (n m : ℕ) (τ : Type*) : Pool n m τ := {}

/-! ## Wakeups

A notification reaches blocked workers only. So the invariant says of a task in the queue that some
worker is awake, or some thread is still going to notify; and a push behind the back of a drowsy
worker, which is neither awake nor blocked, has to be left out by hypothesis. -/

/-- **No wakeup is lost**: a task is not left in the queue with every worker blocked and nobody
about to notify one. -/
def NoLostWakeup (s : Pool n m τ) : Prop :=
  ¬(s.queue ≠ [] ∧ (∀ i, s.worker i = .blocked) ∧ ∀ j, s.pushed j = false)

/-- Nothing is pushed while a worker has found the queue empty and is not blocked yet. -/
def NoneDrowsy (s : Pool n m τ) : Event n m τ → Prop
  | .push _ _ => ∀ i, s.worker i ≠ .drowsy
  | _ => True

/-- A worker that will look at the queue before it blocks. -/
def WorkerPhase.Awake (phase : WorkerPhase) : Prop := phase ≠ .blocked ∧ phase ≠ .drowsy

/-- The invariant: a drowsy worker is right about the queue, and a task in the queue has somebody to
see to it. -/
structure Attended (s : Pool n m τ) : Prop where
  empty : ∀ i, s.worker i = .drowsy → s.queue = []
  attended : s.queue ≠ [] → (∃ j, s.pushed j = true) ∨ ∃ i, (s.worker i).Awake

theorem Attended.noLostWakeup {s : Pool n m τ} (h : Attended s) : NoLostWakeup s := by
  rintro ⟨hqueue, hblocked, hpushed⟩
  rcases h.attended hqueue with ⟨j, hj⟩ | ⟨i, hi, -⟩
  · rw [hpushed j] at hj
    cases hj
  · exact hi (hblocked i)

theorem attended_initial : Attended (initial n m τ) :=
  ⟨fun _ hi ↦ (nomatch hi), fun hqueue ↦ absurd rfl hqueue⟩

/-- A worker comes to a phase in which it is awake. -/
theorem Attended.setWorker_awake {s s' : Pool n m τ} (h : Attended s) {i : Fin n}
    {phase : WorkerPhase} (hphase : phase.Awake)
    (hworker : s'.worker = Function.update s.worker i phase)
    (hqueue : s.queue = [] → s'.queue = []) : Attended s' := by
  constructor
  · intro k hk
    rw [hworker] at hk
    by_cases hki : k = i
    · rw [hki, Function.update_self] at hk
      exact absurd hk hphase.2
    · rw [Function.update_of_ne hki] at hk
      exact hqueue (h.empty k hk)
  · intro _
    refine .inr ⟨i, ?_⟩
    rw [hworker, Function.update_self]
    exact hphase

/-- **Every step keeps the invariant**, if nothing is pushed behind the back of a drowsy worker. -/
theorem Attended.step {s : Pool n m τ} (hn : 0 < n) (h : Attended s) {e : Event n m τ}
    (hguard : NoneDrowsy s e) : Attended (step s e) := by
  cases e with
  | push j task =>
    rw [WorkerPool.step]
    split
    · exact h
    · refine ⟨fun i hi ↦ absurd hi (hguard i), fun _ ↦ .inl ⟨j, ?_⟩⟩
      exact Function.update_self _ _ _
  | notify j i =>
    cases i with
    | none =>
      rw [WorkerPool.step]
      split
      · next hnotify =>
        -- nobody is blocked and the queue is not empty, so every worker is awake
        refine ⟨h.empty, fun hqueue ↦ .inr ⟨⟨0, hn⟩, hnotify.2 _, fun hdrowsy ↦ ?_⟩⟩
        exact hqueue (h.empty _ hdrowsy)
      · exact h
    | some i =>
      rw [WorkerPool.step]
      split
      · exact h.setWorker_awake (i := i) (⟨by decide, by decide⟩ : WorkerPhase.Awake .woken) rfl id
      · exact h
  | acquire i =>
    rw [WorkerPool.step]
    split
    · exact h.setWorker_awake (i := i) (⟨by decide, by decide⟩ : WorkerPhase.Awake .locked) rfl id
    · exact h
  | test i =>
    rw [WorkerPool.step]
    split
    · by_cases hqueue : s.queue = []
      · rw [if_pos hqueue]
        exact ⟨fun _ _ ↦ hqueue, fun hne ↦ absurd hqueue hne⟩
      · rw [if_neg hqueue]
        exact h.setWorker_awake (i := i) (⟨by decide, by decide⟩ : WorkerPhase.Awake .ready) rfl id
    · exact h
  | block i =>
    rw [WorkerPool.step]
    split
    · next hdrowsy =>
      have hqueue := h.empty i hdrowsy
      exact ⟨fun _ _ ↦ hqueue, fun hne ↦ absurd hqueue hne⟩
    · exact h
  | wake i =>
    rw [WorkerPool.step]
    split
    · exact h.setWorker_awake (i := i) (⟨by decide, by decide⟩ : WorkerPhase.Awake .woken) rfl id
    · exact h
  | pop i =>
    rw [WorkerPool.step]
    split
    · refine h.setWorker_awake (i := i) (⟨by decide, by decide⟩ : WorkerPhase.Awake .outside)
        rfl fun hqueue ↦ ?_
      simp only [hqueue, List.tail_nil]
    · exact h

/-- **No wakeup is lost in a run** in which nothing is pushed while a worker has found the queue
empty and is not blocked yet, if there is a worker. -/
theorem always_noLostWakeup (hn : 0 < n) {events : List (Event n m τ)}
    (hmeets : Meets step NoneDrowsy (initial n m τ) events) :
    Always step NoLostWakeup (initial n m τ) events :=
  (hmeets.always (fun _ _ h hguard ↦ h.step hn hguard) attended_initial).mono
    fun _ h ↦ h.noLostWakeup

end

/-- One task is pushed, popped, and the worker goes to sleep. -/
def served : List (Event 1 1 ℕ) :=
  [.push 0 7, .acquire 0, .notify 0 none, .test 0, .pop 0, .acquire 0, .test 0, .block 0]

theorem always_noLostWakeup_served : Always step NoLostWakeup (initial 1 1 ℕ) served :=
  always_noLostWakeup (by decide) (by
    simp only [served, meets_cons, meets_nil, NoneDrowsy]
    decide)

/-- A task is pushed while the worker goes to sleep. -/
def missed : List (Event 1 1 ℕ) :=
  [.acquire 0, .test 0, .push 0 7, .notify 0 none, .block 0]

theorem not_always_noLostWakeup :
    ¬∀ (n m : ℕ) (events : List (Event n m ℕ)), 0 < n →
      Always step NoLostWakeup (initial n m ℕ) events := by
  intro hall
  have hlast : NoLostWakeup (missed.foldl step (initial 1 1 ℕ)) :=
    (hall 1 1 missed (by decide)).last
  exact hlast (by decide)

/-! ## Pushing under the mutex

A drowsy worker has the mutex. If `enqueue` took it too, nothing could be pushed behind the back of
a drowsy worker, and the hypothesis of `always_noLostWakeup` would be met by every run. -/

section

variable {n m : ℕ} {τ : Type*}

/-- Whoever pushes finds the mutex free. -/
def PushesLocked (s : Pool n m τ) : Event n m τ → Prop
  | .push _ _ => s.owner = none
  | _ => True

/-- The worker has the mutex. -/
def WorkerPhase.Holds (phase : WorkerPhase) : Prop :=
  phase = .locked ∨ phase = .ready ∨ phase = .drowsy

/-- A worker that has the mutex is its owner, so at most one has it. -/
def Exclusive (s : Pool n m τ) : Prop := ∀ i, (s.worker i).Holds → s.owner = some i

private theorem exclusive_initial : Exclusive (initial n m τ) := by
  rintro i (h | h | h) <;> cases h

private theorem noneDrowsy_of_pushesLocked {s : Pool n m τ} (h : Exclusive s) {e : Event n m τ}
    (hpush : PushesLocked s e) : NoneDrowsy s e := by
  cases e with
  | push j task =>
    intro i hi
    have howner := h i (.inr (.inr hi))
    rw [PushesLocked] at hpush
    rw [hpush] at howner
    cases howner
  | _ => exact trivial

/-- One worker comes to another phase. -/
theorem Exclusive.update {s s' : Pool n m τ} {i : Fin n} {phase : WorkerPhase}
    (hworker : s'.worker = Function.update s.worker i phase)
    (hself : phase.Holds → s'.owner = some i)
    (hothers : ∀ k, k ≠ i → (s.worker k).Holds → s'.owner = some k) : Exclusive s' := by
  intro k hk
  rw [hworker] at hk
  by_cases hki : k = i
  · rw [hki, Function.update_self] at hk
    rw [hki]
    exact hself hk
  · rw [Function.update_of_ne hki] at hk
    exact hothers k hki hk

/-- The owner gives the mutex back. -/
theorem Exclusive.release {s s' : Pool n m τ} (h : Exclusive s) {i : Fin n}
    (hi : (s.worker i).Holds) {phase : WorkerPhase} (hphase : ¬phase.Holds)
    (hworker : s'.worker = Function.update s.worker i phase) : Exclusive s' := by
  refine .update hworker (fun hself ↦ absurd hself hphase) fun k hki hk ↦ absurd ?_ hki
  exact Option.some.inj ((h k hk).symm.trans (h i hi))

/-- **Workers exclude each other.** -/
theorem Exclusive.step {s : Pool n m τ} (h : Exclusive s) (e : Event n m τ) :
    Exclusive (step s e) := by
  have houtside {s' : Pool n m τ} {i : Fin n} {phase : WorkerPhase} (hphase : ¬phase.Holds)
      (hworker : s'.worker = Function.update s.worker i phase) (howner : s'.owner = s.owner) :
      Exclusive s' :=
    .update hworker (fun hself ↦ absurd hself hphase) fun k _ hk ↦ howner.trans (h k hk)
  have hnot {phase : WorkerPhase} (h₁ : phase ≠ .locked) (h₂ : phase ≠ .ready)
      (h₃ : phase ≠ .drowsy) : ¬phase.Holds := by
    rintro (hp | hp | hp)
    · exact h₁ hp
    · exact h₂ hp
    · exact h₃ hp
  cases e with
  | push j task =>
    rw [WorkerPool.step]
    split
    · exact h
    · exact h
  | notify j i =>
    cases i with
    | none =>
      rw [WorkerPool.step]
      split
      · exact h
      · exact h
    | some i =>
      rw [WorkerPool.step]
      split
      · exact houtside (i := i) (hnot (by decide) (by decide) (by decide)) rfl rfl
      · exact h
  | acquire i =>
    rw [WorkerPool.step]
    split
    · next hfree =>
      refine .update (i := i) rfl (fun _ ↦ rfl) fun k _ hk ↦ ?_
      -- nobody had it
      have howner := h k hk
      rw [hfree.1] at howner
      cases howner
    · exact h
  | test i =>
    rw [WorkerPool.step]
    split
    · next hlocked =>
      exact .update (i := i) rfl (fun _ ↦ h i (.inl hlocked)) fun k _ hk ↦ h k hk
    · exact h
  | block i =>
    rw [WorkerPool.step]
    split
    · next hdrowsy =>
      exact h.release (i := i) (.inr (.inr hdrowsy))
        (hnot (by decide) (by decide) (by decide)) rfl
    · exact h
  | wake i =>
    rw [WorkerPool.step]
    split
    · exact houtside (i := i) (hnot (by decide) (by decide) (by decide)) rfl rfl
    · exact h
  | pop i =>
    rw [WorkerPool.step]
    split
    · next hready =>
      exact h.release (i := i) (.inr (.inl hready)) (hnot (by decide) (by decide) (by decide)) rfl
    · exact h

/-- **A mutex around the push would do.** -/
theorem noLostWakeup_of_pushesLocked (hn : 0 < n) {events : List (Event n m τ)}
    (hmeets : Meets step PushesLocked (initial n m τ) events) :
    Always step NoLostWakeup (initial n m τ) events := by
  have hrun : Always step (fun s ↦ Exclusive s ∧ Attended s) (initial n m τ) events :=
    hmeets.always
      (fun s e h hpush ↦ ⟨h.1.step e, h.2.step hn (noneDrowsy_of_pushesLocked h.1 hpush)⟩)
      ⟨exclusive_initial, attended_initial⟩
  exact hrun.mono fun _ h ↦ h.2.noLostWakeup

end

end Wasapi.WorkerPool
