import Wasapi.Library.Transitions

/-!
# Programs that others interrupt

A `Program` takes one step after the other on a state it shares with others, who may change the
state before each of its steps. A step has a label, and what comes behind it depends on the state
in which it is taken. Left alone, a program is the function `run`.

A `Process` is a state with what is left of a program that works on it. `Process.move` lets the
program take its next step, lets the others interfere, or starts a new program when there is none.

`Safe` is the reasoning by rely and guarantee: whatever the others do before each step, if every
step is taken in a state in which the guard of its label holds, then the invariant of every coming
label holds when it comes, and the postcondition holds in the end. `safe_move` says what this means
for a move, and `always_of_safe` for a run.
-/

namespace Wasapi

universe u v

inductive Program (σ : Type u) (ℓ : Type v) where
  | done
  | step (label : ℓ) (f : σ → σ) (next : σ → Program σ ℓ)

namespace Program

variable {σ : Type u} {ℓ : Type v} {α : Type*}

/-- What the program does if nobody interferes. -/
def run : Program σ ℓ → σ → σ
  | .done, s => s
  | .step _ f next, s => (next s).run (f s)

/-- The label of the next step. -/
def coming : Program σ ℓ → Option ℓ
  | .done => none
  | .step label _ _ => some label

/-- One program behind the other. -/
def seq : Program σ ℓ → Program σ ℓ → Program σ ℓ
  | .done, q => q
  | .step label f next, q => .step label f fun s ↦ (next s).seq q

/-- A program for each of these, one behind the other. -/
def each (body : α → Program σ ℓ) : List α → Program σ ℓ
  | [] => .done
  | a :: as => (body a).seq (each body as)

theorem run_seq (p q : Program σ ℓ) (s : σ) : (p.seq q).run s = q.run (p.run s) := by
  induction p generalizing s with
  | done => rfl
  | step label f next ih => exact ih s (f s)

theorem run_each (body : α → Program σ ℓ) (as : List α) (s : σ) :
    (each body as).run s = as.foldl (fun s a ↦ (body a).run s) s := by
  induction as generalizing s with
  | nil => rfl
  | cons a as ih => rw [each, run_seq, ih, List.foldl_cons]

/-! ## Rely and guarantee

The guard of a label is what the run is known to do, its invariant is what is to be proved when the
label comes. Between the two stands what the others do, so an invariant is of use only if it is
stable. The rules below follow the shape of programs. -/

/-- What the others may do leads from a state with the property only to such states. -/
def Stable (others : σ → σ → Prop) (P : σ → Prop) : Prop := ∀ s s', others s s' → P s → P s'

section Safe

variable (others : σ → σ → Prop) (guard I : ℓ → σ → Prop)

def Safe (post : σ → Prop) : Program σ ℓ → σ → Prop
  | .done, s => post s
  | .step label f next, s =>
    I label s ∧ ∀ s', others s s' → guard label s' → Safe post (next s') (f s')

variable {others guard I} {post post' P : σ → Prop} {p q : Program σ ℓ} {s s' : σ}

theorem Safe.mono (h : p.Safe others guard I post s) (hpost : ∀ s, post s → post' s) :
    p.Safe others guard I post' s := by
  induction p generalizing s with
  | done => exact hpost s h
  | step label f next ih => exact ⟨h.1, fun s' hs' hguard ↦ ih s' (h.2 s' hs' hguard)⟩

/-- **The rule for programs in a row.** -/
theorem Safe.seq (h : p.Safe others guard I post s)
    (hq : ∀ s, post s → q.Safe others guard I post' s) :
    (p.seq q).Safe others guard I post' s := by
  induction p generalizing s with
  | done => exact hq s h
  | step label f next ih => exact ⟨h.1, fun s' hs' hguard ↦ ih s' (h.2 s' hs' hguard)⟩

/-- **The rule for loops.** -/
theorem safe_each {body : α → Program σ ℓ}
    (hbody : ∀ a s, P s → (body a).Safe others guard I P s) (as : List α) (h : P s) :
    (each body as).Safe others guard I P s := by
  induction as generalizing s with
  | nil => exact h
  | cons a as ih => exact (hbody a s h).seq fun s hs ↦ ih hs

/-- **The rule for a step.** -/
theorem safe_step {label : ℓ} {f : σ → σ} {next : σ → Program σ ℓ} (hP : Stable others P)
    (h : P s) (hI : I label s)
    (hnext : ∀ s, P s → guard label s → (next s).Safe others guard I post (f s)) :
    (Program.step label f next).Safe others guard I post s :=
  ⟨hI, fun s' hs' hguard ↦ hnext s' (hP s s' hs' h) hguard⟩

/-- What the others do does no harm. -/
theorem Safe.of_others (h : p.Safe others guard I post s) (hs' : others s s')
    (htrans : ∀ s₁ s₂ s₃, others s₁ s₂ → others s₂ s₃ → others s₁ s₃)
    (hI : ∀ label, Stable others (I label)) (hpost : Stable others post) :
    p.Safe others guard I post s' := by
  cases p with
  | done => exact hpost s s' hs' h
  | step label f next =>
    exact ⟨hI label s s' hs' h.1, fun s₂ hs₂ ↦ h.2 s₂ (htrans s s' s₂ hs' hs₂)⟩

end Safe

end Program

/-! ## Processes

A run is cut at any point, also in the middle of a program. So the invariant of a process is an
alternative: a program is on its way and is safe from here, or there is none and the property
between programs holds. -/

structure Process (σ : Type u) (ℓ : Type v) where
  state : σ
  /-- what is left of the program -/
  program : Program σ ℓ

namespace Process

variable {σ : Type u} {ℓ : Type v} {ε ο : Type*}

/-- What can happen next. -/
inductive Move (ε ο : Type*) where
  /-- a new program, if there is none -/
  | start (e : ε)
  /-- the next step of the program -/
  | proceed
  | interfere (o : ο)

def proceed (x : Process σ ℓ) : Process σ ℓ :=
  match x.program with
  | .done => x
  | .step _ f next => ⟨f x.state, next x.state⟩

def start (p : Program σ ℓ) (x : Process σ ℓ) : Process σ ℓ :=
  match x.program with
  | .done => ⟨x.state, p⟩
  | .step .. => x

def move (program : ε → Program σ ℓ) (interfere : σ → ο → σ) (x : Process σ ℓ) :
    Move ε ο → Process σ ℓ
  | .start e => x.start (program e)
  | .proceed => x.proceed
  | .interfere o => { x with state := interfere x.state o }

/-- The guard of the coming label holds when its step is taken. -/
def Guarded (guard : ℓ → σ → Prop) (x : Process σ ℓ) : Move ε ο → Prop
  | .proceed => ∀ label ∈ x.program.coming, guard label x.state
  | _ => True

instance {guard : ℓ → σ → Prop} [∀ label s, Decidable (guard label s)] {x : Process σ ℓ} :
    ∀ i : Move ε ο, Decidable (x.Guarded guard i)
  | .proceed => inferInstanceAs (Decidable (∀ label ∈ x.program.coming, _))
  | .start _ | .interfere _ => .isTrue trivial

/-- The invariant of the coming label, or that between two programs. -/
def Holds (I : ℓ → σ → Prop) (J : σ → Prop) (x : Process σ ℓ) : Prop :=
  match x.program.coming with
  | none => J x.state
  | some label => I label x.state

variable {program : ε → Program σ ℓ} {interfere : σ → ο → σ} {I : ℓ → σ → Prop} {J : σ → Prop}

variable (program interfere) in
/-- **A program that nobody interrupts** comes to its end and has done what `run` says. -/
theorem exists_foldl_proceed (x : Process σ ℓ) :
    ∃ n, (List.replicate n (.proceed : Move ε ο)).foldl (move program interfere) x =
      ⟨x.program.run x.state, .done⟩ := by
  obtain ⟨s, p⟩ := x
  induction p generalizing s with
  | done => exact ⟨0, rfl⟩
  | step label f next ih =>
    obtain ⟨n, hn⟩ := ih s (f s)
    exact ⟨n + 1, hn⟩

section Safe

variable {guard : ℓ → σ → Prop} {others : σ → σ → Prop} (hrefl : ∀ s, others s s)
  (htrans : ∀ s₁ s₂ s₃, others s₁ s₂ → others s₂ s₃ → others s₁ s₃)
  (hI : ∀ label, Program.Stable others (I label)) (hJ : Program.Stable others J)
  (hsafe : ∀ e s, J s → (program e).Safe others guard I J s)

include hrefl htrans hI hJ hsafe

/-- **Safe processes.** If every program keeps `J` as seen between two programs, a guarded move
leaves what is left of the program safe, be it a step, a start, or something the others may do. -/
theorem safe_move {x : Process σ ℓ} (h : x.program.Safe others guard I J x.state) {i : Move ε ο}
    (hguard : x.Guarded guard i)
    (hinterfere : ∀ o, i = .interfere o → others x.state (interfere x.state o)) :
    (x.move program interfere i).program.Safe others guard I J
      (x.move program interfere i).state := by
  obtain ⟨s, p⟩ := x
  cases i with
  | start e =>
    cases p with
    | done => exact hsafe e s h
    | step label f next => exact h
  | proceed =>
    cases p with
    | done => exact h
    | step label f next => exact h.2 s (hrefl s) (hguard label rfl)
  | interfere o => exact h.of_others (hinterfere o rfl) htrans hI hJ

/-- **Safe programs.** Throughout a guarded run every coming step finds its invariant. -/
theorem always_of_safe (hinterfere : ∀ s o, others s (interfere s o)) {s : σ} (h : J s)
    {moves : List (Move ε ο)}
    (hmeets : Meets (move program interfere) (Guarded guard) ⟨s, .done⟩ moves) :
    Always (move program interfere) (Holds I J) ⟨s, .done⟩ moves := by
  have hsafety := hmeets.always (I := fun x ↦ x.program.Safe others guard I J x.state)
    (fun x i hx hguard ↦ safe_move hrefl htrans hI hJ hsafe hx hguard
      fun o _ ↦ hinterfere x.state o) h
  refine hsafety.mono fun x hx ↦ ?_
  obtain ⟨s, p⟩ := x
  cases p with
  | done => exact hx
  | step label f next => exact hx.1

end Safe

end Process

end Wasapi
