import Mathlib

/-!
# Guarded runs of a deterministic step

A run is a list of labels folded over a state by a step function. `Meets` says that every step of
a run is taken from a state in which its guard holds; `Always` that a property holds in every state
the run reaches, the first and the last included. The two are related by the usual rules: an
invariant kept by every guarded step holds throughout a guarded run, and when a property survives
a step exactly if the step's guard holds, it survives a run exactly if every guard does.
-/

namespace Wasapi

variable {σ ι : Type*}

/-- Every step of the run is taken from a state in which the guard of its label holds. -/
def Meets (step : σ → ι → σ) (guard : σ → ι → Prop) : σ → List ι → Prop
  | _, [] => True
  | s, i :: is => guard s i ∧ Meets step guard (step s i) is

/-- The property holds in every state the run reaches. -/
def Always (step : σ → ι → σ) (P : σ → Prop) : σ → List ι → Prop
  | s, [] => P s
  | s, i :: is => P s ∧ Always step P (step s i) is

variable {step : σ → ι → σ} {guard guard' : σ → ι → Prop} {P Q I : σ → Prop}

@[simp] theorem meets_nil (s : σ) : Meets step guard s [] := trivial

@[simp] theorem meets_cons (s : σ) (i : ι) (is : List ι) :
    Meets step guard s (i :: is) ↔ guard s i ∧ Meets step guard (step s i) is := Iff.rfl

@[simp] theorem always_nil (s : σ) : Always step P s [] ↔ P s := Iff.rfl

@[simp] theorem always_cons (s : σ) (i : ι) (is : List ι) :
    Always step P s (i :: is) ↔ P s ∧ Always step P (step s i) is := Iff.rfl

instance decidableMeets [∀ s i, Decidable (guard s i)] :
    ∀ (s : σ) (is : List ι), Decidable (Meets step guard s is)
  | _, [] => .isTrue trivial
  | s, i :: is => @instDecidableAnd _ _ _ (decidableMeets (step s i) is)

theorem meets_append (s : σ) (is js : List ι) :
    Meets step guard s (is ++ js)
      ↔ Meets step guard s is ∧ Meets step guard (is.foldl step s) js := by
  induction is generalizing s with
  | nil => simp
  | cons i is ih => rw [List.cons_append, meets_cons, meets_cons, ih, List.foldl_cons, and_assoc]

theorem Meets.mono_of_invariant (hI : ∀ s i, I s → I (step s i))
    (h : ∀ s i, I s → guard s i → guard' s i) {s : σ} {is : List ι} (h0 : I s)
    (hm : Meets step guard s is) : Meets step guard' s is := by
  induction is generalizing s with
  | nil => exact trivial
  | cons i is ih => exact ⟨h s i h0 hm.1, ih (hI s i h0) hm.2⟩

theorem Meets.mono (h : ∀ s i, guard s i → guard' s i) {s : σ} {is : List ι}
    (hm : Meets step guard s is) : Meets step guard' s is :=
  hm.mono_of_invariant (I := fun _ ↦ True) (fun _ _ _ ↦ trivial) (fun s i _ ↦ h s i) trivial

/-- The labels of a run may be assumed to be among its labels. -/
theorem Meets.mem {s : σ} {is js : List ι} (h : Meets step guard s is) (hsub : is ⊆ js) :
    Meets step (fun s i ↦ guard s i ∧ i ∈ js) s is := by
  induction is generalizing s with
  | nil => exact trivial
  | cons i is ih =>
    exact ⟨⟨h.1, hsub List.mem_cons_self⟩, ih h.2 fun j hj ↦ hsub (List.mem_cons_of_mem i hj)⟩

/-- What is known of every label of a run and stays known, whatever the steps, is known at its
own step. -/
theorem meets_of_forall_mem {J : ι → σ → Prop} (hJ : ∀ s i j, J j s → J j (step s i))
    (h : ∀ s i, J i s → guard s i) {s : σ} {is : List ι} (his : ∀ i ∈ is, J i s) :
    Meets step guard s is := by
  induction is generalizing s with
  | nil => exact trivial
  | cons i is ih =>
    exact ⟨h s i (his i List.mem_cons_self),
      ih fun j hj ↦ hJ s i j (his j (List.mem_cons_of_mem i hj))⟩

theorem Always.head {s : σ} {is : List ι} (h : Always step P s is) : P s := by
  cases is with
  | nil => exact h
  | cons i is => exact h.1

theorem Always.last {s : σ} {is : List ι} (h : Always step P s is) : P (is.foldl step s) := by
  induction is generalizing s with
  | nil => exact h
  | cons i is ih => exact ih h.2

theorem Always.mono (h : ∀ s, P s → Q s) {s : σ} {is : List ι} (ha : Always step P s is) :
    Always step Q s is := by
  induction is generalizing s with
  | nil => exact h s ha
  | cons i is ih => exact ⟨h s ha.1, ih ha.2⟩

/-- **The invariant rule.** -/
theorem Meets.always (hstep : ∀ s i, I s → guard s i → I (step s i)) {s : σ} {is : List ι}
    (h0 : I s) (hm : Meets step guard s is) : Always step I s is := by
  induction is generalizing s with
  | nil => exact h0
  | cons i is ih => exact ⟨h0, ih (hstep s i h0 hm.1) hm.2⟩

/-- The invariant rule, if every step keeps the invariant. -/
theorem always_of_invariant (hstep : ∀ s i, I s → I (step s i)) {s : σ} (h0 : I s)
    (is : List ι) : Always step I s is := by
  induction is generalizing s with
  | nil => exact h0
  | cons i is ih => exact ⟨h0, ih (hstep s i h0)⟩

theorem Meets.foldl (hstep : ∀ s i, I s → guard s i → I (step s i)) {s : σ} {is : List ι}
    (h0 : I s) (hm : Meets step guard s is) : I (is.foldl step s) :=
  (hm.always hstep h0).last

/-- Two guards that agree wherever an invariant holds admit the same runs, if the invariant is kept
by every step one of them admits. -/
theorem meets_congr_of_invariant (hstep : ∀ s i, I s → guard s i → I (step s i))
    (hiff : ∀ s i, I s → (guard' s i ↔ guard s i)) {s : σ} {is : List ι} (h0 : I s) :
    Meets step guard' s is ↔ Meets step guard s is := by
  induction is generalizing s with
  | nil => exact Iff.rfl
  | cons i is ih =>
    rw [meets_cons, meets_cons, hiff s i h0]
    exact and_congr_right fun hi ↦ ih (hstep s i h0 hi)

/-- **Exact guards, on some runs.** If, among the steps that meet one guard, those that meet another
one keep an invariant that gives the property, and those that do not lose the property, a run of
steps that meet the first keeps the property throughout exactly if all of them meet the second. -/
theorem Meets.always_iff (hI : ∀ s, I s → P s)
    (hstep : ∀ s i, I s → guard s i → guard' s i → I (step s i))
    (hfail : ∀ s i, I s → guard s i → ¬guard' s i → ¬P (step s i)) {s : σ} {is : List ι} (h0 : I s)
    (hm : Meets step guard s is) : Always step P s is ↔ Meets step guard' s is := by
  induction is generalizing s with
  | nil => exact iff_of_true (hI s h0) trivial
  | cons i is ih =>
    rw [always_cons, meets_cons]
    by_cases hi : guard' s i
    · rw [ih (hstep s i h0 hm.1 hi) hm.2]
      exact and_congr_left' (iff_of_true (hI s h0) hi)
    · exact iff_of_false (fun h ↦ hfail s i h0 hm.1 hi h.2.head) fun h ↦ hi h.1

/-- **Exact guards.** If every guarded step keeps an invariant that gives the property, and every
unguarded step from the invariant loses the property, a run keeps the property throughout exactly
when every guard along the run holds. -/
theorem always_iff_meets_of_guarded (hI : ∀ s, I s → P s)
    (hstep : ∀ s i, I s → guard s i → I (step s i))
    (hfail : ∀ s i, I s → ¬guard s i → ¬P (step s i)) {s : σ} {is : List ι} (h0 : I s) :
    Always step P s is ↔ Meets step guard s is := by
  have hany : Meets step (fun _ _ ↦ True) s is :=
    meets_of_forall_mem (J := fun _ _ ↦ True) (fun _ _ _ h ↦ h) (fun _ _ h ↦ h) fun _ _ ↦ trivial
  exact hany.always_iff hI (fun s i h _ ↦ hstep s i h) (fun s i h _ ↦ hfail s i h) h0

/-- Exact guards, when a step keeps the property exactly when its guard holds. An invariant of all
steps may be assumed on the way. -/
theorem always_iff_meets_of_invariant (hI : ∀ s i, I s → I (step s i))
    (hstep : ∀ s i, I s → P s → (P (step s i) ↔ guard s i)) {s : σ} {is : List ι} (hs : I s)
    (h0 : P s) : Always step P s is ↔ Meets step guard s is :=
  always_iff_meets_of_guarded (I := fun s ↦ I s ∧ P s) (fun _ h ↦ h.2)
    (fun s i h hi ↦ ⟨hI s i h.1, (hstep s i h.1 h.2).mpr hi⟩)
    (fun s i h hi hP ↦ hi ((hstep s i h.1 h.2).mp hP)) ⟨hs, h0⟩

theorem always_iff_meets (hstep : ∀ s i, P s → (P (step s i) ↔ guard s i)) {s : σ} {is : List ι}
    (h0 : P s) : Always step P s is ↔ Meets step guard s is :=
  always_iff_meets_of_invariant (I := fun _ ↦ True) (fun _ _ _ ↦ trivial)
    (fun s i _ ↦ hstep s i) trivial h0

/-- **The step that matters.** If every step keeps `J` or brings `K` about, the step of `i` brings
`K` about, and `K` stays, then `K` holds behind a run in which `i` occurs. -/
theorem foldl_of_mem {J K : σ → Prop} {i : ι} (hJ : ∀ s j, J s → J (step s j) ∨ K (step s j))
    (hi : ∀ s, J s → K (step s i)) (hK : ∀ s j, K s → K (step s j)) {is : List ι} (hmem : i ∈ is)
    {s : σ} (h : J s) : K (is.foldl step s) := by
  obtain ⟨js, ks, rfl⟩ := List.append_of_mem hmem
  have hbefore : J (js.foldl step s) ∨ K (js.foldl step s) :=
    List.foldlRecOn js step (motive := fun s ↦ J s ∨ K s) (.inl h)
      fun s hs j _ ↦ hs.elim (hJ s j) fun hs ↦ .inr (hK s j hs)
  rw [List.foldl_append, List.foldl_cons]
  have hat : K (step (js.foldl step s) i) := hbefore.elim (hi _) (hK _ i)
  exact List.foldlRecOn ks step (motive := K) hat fun s hs j _ ↦ hK s j hs

/-! ## Runs that come to an end

A run in which every step changes something is as long as its measure allows. Measures are usually
sums over a list of parties, of which a step moves one. -/

/-- Every step of the run changes the state. -/
def Effective (step : σ → ι → σ) : σ → List ι → Prop
  | _, [] => True
  | s, i :: is => step s i ≠ s ∧ Effective step (step s i) is

/-- **The measure rule.** If every step from the invariant that changes the state makes the measure
smaller, a run of such steps is no longer than the measure. -/
theorem Effective.length_add_le {μ : σ → ℕ} (hI : ∀ s i, I s → I (step s i))
    (hμ : ∀ s i, I s → step s i ≠ s → μ (step s i) < μ s) {s : σ} {is : List ι} (h0 : I s)
    (h : Effective step s is) : is.length + μ (is.foldl step s) ≤ μ s := by
  induction is generalizing s with
  | nil => exact (Nat.zero_add _).le
  | cons i is ih =>
    have hlt := hμ s i h0 h.1
    have hle := ih (hI s i h0) h.2
    rw [List.length_cons, List.foldl_cons]
    omega

section Measures

variable {α : Type*} (μ : α → ℕ) {l : List α} {k : ℕ} {a b : α}

theorem sum_map_eq_of_getElem? (h : l[k]? = some a) :
    (l.map μ).sum = μ a + ((l.eraseIdx k).map μ).sum := by
  obtain ⟨hlt, rfl⟩ := List.getElem?_eq_some_iff.mp h
  have hperm := (List.getElem_cons_eraseIdx_perm hlt).map μ
  rw [← hperm.sum_eq, List.map_cons, List.sum_cons]

/-- One entry of a list comes nearer to its end. -/
theorem sum_map_set_lt (h : l[k]? = some a) (hlt : μ b < μ a) :
    ((l.set k b).map μ).sum < (l.map μ).sum := by
  have hk := (List.getElem?_eq_some_iff.mp h).1
  have hperm := (List.set_perm_cons_eraseIdx hk b).map μ
  rw [sum_map_eq_of_getElem? μ h, hperm.sum_eq, List.map_cons, List.sum_cons]
  exact Nat.add_lt_add_right hlt _

/-- One entry of a list comes to its end. -/
theorem sum_map_eraseIdx_lt (h : l[k]? = some a) (hpos : 0 < μ a) :
    ((l.eraseIdx k).map μ).sum < (l.map μ).sum := by
  rw [sum_map_eq_of_getElem? μ h]
  exact Nat.lt_add_of_pos_left hpos

end Measures

/-! ## Two runs with the same relevant labels

For systems that serve several parties side by side: what one of them sees is compared in two runs
which agree on the labels that concern it, and which may differ in everything else. -/

section Interleaving

variable {τ : Type*} {step' : τ → ι → τ} {R : σ → τ → Prop} {p : ι → Bool}

private theorem foldl_rel_of_irrelevant (left : ∀ s t i, R s t → p i = false → R (step s i) t)
    {is : List ι} (his : ∀ i ∈ is, p i = false) {s : σ} {t : τ} (h : R s t) :
    R (is.foldl step s) t := by
  induction is generalizing s with
  | nil => exact h
  | cons i is ih =>
    exact ih (fun j hj ↦ his j (List.mem_cons_of_mem i hj))
      (left s t i h (his i List.mem_cons_self))

/-- **Irrelevant labels may be interleaved at will.** If labels outside `p` keep a relation from
either side and labels in `p` keep it when both sides take them, then it survives any two runs
with the same labels in `p`, in the same order. -/
theorem foldl_rel_of_filter_eq (left : ∀ s t i, R s t → p i = false → R (step s i) t)
    (right : ∀ s t i, R s t → p i = false → R s (step' t i))
    (both : ∀ s t i, R s t → p i = true → R (step s i) (step' t i)) {is js : List ι}
    (h : is.filter p = js.filter p) {s : σ} {t : τ} (hst : R s t) :
    R (is.foldl step s) (js.foldl step' t) := by
  have right' : ∀ {ks : List ι} {s : σ} {t : τ}, (∀ k ∈ ks, p k = false) → R s t →
      R s (ks.foldl step' t) := fun hks hst ↦
    foldl_rel_of_irrelevant (R := fun t s ↦ R s t) (fun t s i ↦ right s t i) hks hst
  induction is generalizing s t js with
  | nil =>
    rw [List.filter_nil, eq_comm, List.filter_eq_nil_iff] at h
    exact right' (fun k hk ↦ Bool.eq_false_iff.mpr (h k hk)) hst
  | cons i is ih =>
    cases hi : p i with
    | false =>
      rw [List.filter_cons_of_neg (by simp [hi])] at h
      exact ih h (left s t i hst hi)
    | true =>
      -- the other run reaches the same label after some irrelevant ones
      rw [List.filter_cons_of_pos hi, eq_comm, List.filter_eq_cons_iff] at h
      obtain ⟨ks, ls, rfl, hks, -, h⟩ := h
      rw [List.foldl_cons, List.foldl_append, List.foldl_cons]
      refine ih h.symm (both s _ i (right' (fun k hk ↦ Bool.eq_false_iff.mpr (hks k hk)) hst) hi)

end Interleaving

end Wasapi
