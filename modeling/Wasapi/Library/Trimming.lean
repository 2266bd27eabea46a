import Mathlib

/-!
# Trimming a list at both ends

`trim p s` is `s` without the elements of `p` at its two ends. A list that neither begins nor ends
with one is found again whatever elements of `p` are put around it.
-/

namespace Wasapi

variable {α : Type*} {p : α → Bool} {l r s t : List α} {a : α}

def trim (p : α → Bool) (s : List α) : List α := (s.dropWhile p).rdropWhile p

/-- Neither the first element nor the last is one of `p`. -/
def Trimmed (p : α → Bool) (s : List α) : Prop :=
  (∀ a ∈ s.head?, p a = false) ∧ ∀ a ∈ s.getLast?, p a = false

instance (p : α → Bool) (s : List α) : Decidable (Trimmed p s) :=
  inferInstanceAs (Decidable ((∀ a ∈ s.head?, p a = false) ∧ ∀ a ∈ s.getLast?, p a = false))

theorem trim_eq_nil (h : ∀ b ∈ s, p b = true) : trim p s = [] := by
  rw [trim, List.dropWhile_eq_nil_iff.mpr h, List.rdropWhile_nil]

theorem rdropWhile_append_of_pos (hr : ∀ b ∈ r, p b = true) :
    (s ++ r).rdropWhile p = s.rdropWhile p := by
  rw [List.rdropWhile, List.reverse_append,
    List.dropWhile_append_of_pos fun b hb ↦ hr b (List.mem_reverse.mp hb), List.rdropWhile]

theorem rdropWhile_append_cons (ha : p a = false) (l t : List α) :
    (l ++ a :: t).rdropWhile p = l ++ a :: t.rdropWhile p := by
  induction t using List.reverseRecOn with
  | nil =>
    have hneg : ¬p a = true := by
      rw [ha]
      exact Bool.false_ne_true
    rw [List.rdropWhile_concat_neg _ _ _ hneg, List.rdropWhile_nil]
  | append_singleton t b ih =>
    rw [← List.cons_append, ← List.append_assoc, List.rdropWhile_concat, List.rdropWhile_concat]
    split
    · exact ih
    · rw [List.append_assoc, List.cons_append]

theorem Trimmed.dropWhile (h : Trimmed p s) : s.dropWhile p = s := by
  cases s with
  | nil => rfl
  | cons a s => exact List.dropWhile_cons_of_neg (by rw [h.1 a rfl]; exact Bool.false_ne_true)

theorem Trimmed.rdropWhile (h : Trimmed p s) : s.rdropWhile p = s := by
  rw [List.rdropWhile_eq_self_iff]
  intro hne
  rw [h.2 _ (List.getLast?_eq_some_getLast hne)]
  exact Bool.false_ne_true

/-- **What stands between blanks is found again.** -/
theorem trim_append (hl : ∀ b ∈ l, p b = true) (hr : ∀ b ∈ r, p b = true) (h : Trimmed p s) :
    trim p (l ++ (s ++ r)) = s := by
  rw [trim, List.dropWhile_append_of_pos hl]
  cases s with
  | nil => rw [List.nil_append, List.dropWhile_eq_nil_iff.mpr hr, List.rdropWhile_nil]
  | cons a s =>
    have hfirst : (a :: (s ++ r)).dropWhile p = a :: (s ++ r) :=
      List.dropWhile_cons_of_neg (by rw [h.1 a rfl]; exact Bool.false_ne_true)
    rw [List.cons_append, hfirst, ← List.cons_append, rdropWhile_append_of_pos hr, h.rdropWhile]

theorem trim_eq_self (h : Trimmed p s) : trim p s = s := by
  rw [trim, h.dropWhile, h.rdropWhile]

/-- Trimming at the end first changes nothing. -/
theorem trim_rdropWhile (s : List α) : trim p (s.rdropWhile p) = trim p s := by
  by_cases hall : ∀ b ∈ s, p b = true
  · rw [List.rdropWhile_eq_nil_iff.mpr hall, trim_eq_nil hall]
    rfl
  · -- the two ends are apart
    push Not at hall
    obtain ⟨a, hmem, ha⟩ := hall
    rw [ne_eq, Bool.not_eq_true] at ha
    obtain ⟨l, t, rfl⟩ := List.append_of_mem hmem
    have hdrop (t : List α) : (l ++ a :: t).dropWhile p = l.dropWhile p ++ a :: t := by
      rw [List.dropWhile_append]
      split
      · next hnil =>
        rw [List.isEmpty_iff.mp hnil, List.nil_append]
        exact List.dropWhile_cons_of_neg (by rw [ha]; exact Bool.false_ne_true)
      · rfl
    rw [rdropWhile_append_cons ha, trim, trim, hdrop, hdrop, rdropWhile_append_cons ha,
      rdropWhile_append_cons ha, List.rdropWhile_idempotent]

theorem trimmed_trim (p : α → Bool) (s : List α) : Trimmed p (trim p s) := by
  have hprefix : trim p s <+: s.dropWhile p := List.rdropWhile_prefix p _
  refine ⟨fun a ha ↦ ?_, fun a ha ↦ ?_⟩
  · obtain ⟨t, ht⟩ := hprefix
    have hnot := List.head?_dropWhile_not p s
    rwa [← ht, List.head?_append, Option.mem_def.mp ha] at hnot
  · obtain ⟨hne, rfl⟩ := List.mem_getLast?_eq_getLast ha
    exact Bool.eq_false_iff.mpr (List.rdropWhile_last_not p _ hne)

theorem trim_trim (s : List α) : trim p (trim p s) = trim p s := trim_eq_self (trimmed_trim p s)

end Wasapi
