import Mathlib

/-!
# Searching a list for a pattern

`findPattern pat s` is the first position of `s` at which `pat` occurs. What is appended to `s` does
not change a position that has been found; that a pattern is not found can change.
-/

namespace Wasapi

variable {α : Type*} [DecidableEq α]

/-- The first position at which `pat` occurs. -/
def findPattern (pat : List α) : List α → Option ℕ
  | [] => if pat.isPrefixOf [] then some 0 else none
  | a :: s => if pat.isPrefixOf (a :: s) then some 0 else (findPattern pat s).map (· + 1)

variable {pat : List α}

theorem findPattern_eq_zero {s : List α} (h : pat <+: s) : findPattern pat s = some 0 := by
  cases s with
  | nil => rw [findPattern, if_pos (List.isPrefixOf_iff_prefix.mpr h)]
  | cons a s => rw [findPattern, if_pos (List.isPrefixOf_iff_prefix.mpr h)]

theorem findPattern_cons_of_not {a : α} {s : List α} (h : ¬pat <+: a :: s) :
    findPattern pat (a :: s) = (findPattern pat s).map (· + 1) := by
  rw [findPattern, if_neg]
  rwa [List.isPrefixOf_iff_prefix]

/-- The pattern occurs where it is found. -/
theorem prefix_drop_of_findPattern {s : List α} {i : ℕ} (h : findPattern pat s = some i) :
    pat <+: s.drop i := by
  induction s generalizing i with
  | nil =>
    rw [findPattern] at h
    split at h
    · next hp =>
      obtain rfl := Option.some.inj h
      exact List.isPrefixOf_iff_prefix.mp hp
    · cases h
  | cons a s ih =>
    by_cases hp : pat <+: a :: s
    · rw [findPattern_eq_zero hp, Option.some.injEq] at h
      rwa [← h, List.drop_zero]
    · rw [findPattern_cons_of_not hp, Option.map_eq_some_iff] at h
      obtain ⟨j, hj, rfl⟩ := h
      exact ih hj

theorem length_le_of_findPattern {s : List α} {i : ℕ} (h : findPattern pat s = some i)
    (hne : pat ≠ []) : i + pat.length ≤ s.length := by
  have hlen := (prefix_drop_of_findPattern h).length_le
  have hpos := List.length_pos_of_ne_nil hne
  rw [List.length_drop] at hlen
  omega

/-- Nothing is found in front of the first occurrence. -/
theorem not_prefix_of_lt_findPattern {s : List α} {i j : ℕ} (h : findPattern pat s = some i)
    (hj : j < i) : ¬pat <+: s.drop j := by
  induction s generalizing i j with
  | nil =>
    intro _
    rw [findPattern] at h
    split at h
    · obtain ⟨rfl⟩ := h
      exact Nat.not_lt_zero j hj
    · cases h
  | cons a s ih =>
    by_cases hp : pat <+: a :: s
    · rw [findPattern_eq_zero hp] at h
      obtain ⟨rfl⟩ := h
      exact absurd hj (Nat.not_lt_zero j)
    · rw [findPattern_cons_of_not hp, Option.map_eq_some_iff] at h
      obtain ⟨i, hi, rfl⟩ := h
      cases j with
      | zero => exact hp
      | succ j => exact ih hi (Nat.lt_of_succ_lt_succ hj)

theorem findPattern_drop {s : List α} {n k : ℕ} (h : findPattern pat s = some n) (hk : k ≤ n) :
    findPattern pat (s.drop k) = some (n - k) := by
  induction k with
  | zero => exact h
  | succ k ih =>
    have hprev := ih (Nat.le_of_succ_le hk)
    have hnot := not_prefix_of_lt_findPattern h hk
    rw [← List.drop_drop]
    cases hs : s.drop k with
    | nil =>
      rw [hs, findPattern] at hprev
      split at hprev
      · have hzero : 0 = n - k := Option.some.inj hprev
        omega
      · cases hprev
    | cons a t =>
      rw [hs] at hprev hnot
      rw [findPattern_cons_of_not hnot, Option.map_eq_some_iff] at hprev
      obtain ⟨m, hm, heq⟩ := hprev
      rw [List.drop_one, List.tail_cons, hm]
      congr 1
      omega

/-- In front of the pattern there is nothing to find if its first symbol does not occur. -/
theorem findPattern_append_of_not_mem {a : α} {s : List α} (hs : a ∉ s) (t : List α) :
    findPattern (a :: pat) (s ++ t) = (findPattern (a :: pat) t).map (· + s.length) := by
  induction s with
  | nil =>
    rw [List.nil_append, List.length_nil]
    exact Option.map_id'.symm
  | cons b s ih =>
    have hne : ¬a :: pat <+: b :: (s ++ t) := by
      intro hp
      rw [List.cons_prefix_cons] at hp
      exact hs (hp.1 ▸ List.mem_cons_self)
    rw [List.cons_append, findPattern_cons_of_not hne,
      ih fun hmem ↦ hs (List.mem_cons_of_mem b hmem), Option.map_map]
    rfl

theorem findPattern_behind {a : α} {s t : List α} (hs : a ∉ s) (ht : a :: pat <+: t) :
    findPattern (a :: pat) (s ++ t) = some s.length := by
  rw [findPattern_append_of_not_mem hs, findPattern_eq_zero ht, Option.map_some, Nat.zero_add]

/-- In front of the pattern there is nothing to find, if its first symbol occurs in it once only
and the pattern does not occur earlier. -/
theorem findPattern_of_not_infix {a : α} (ha : a ∉ pat) {s : List α} (hs : ¬a :: pat <:+: s)
    (t : List α) : findPattern (a :: pat) (s ++ (a :: pat ++ t)) = some s.length := by
  induction s with
  | nil => exact findPattern_eq_zero (List.prefix_append _ _)
  | cons b s ih =>
    have hne : ¬a :: pat <+: b :: (s ++ (a :: pat ++ t)) := by
      intro hp
      obtain ⟨rfl, hpat⟩ := List.cons_prefix_cons.mp hp
      by_cases hlen : pat.length ≤ s.length
      · -- it would occur in front
        have hoccurs := List.prefix_of_prefix_length_le hpat (List.prefix_append s _) hlen
        exact hs (List.cons_prefix_cons.mpr ⟨rfl, hoccurs⟩).isInfix
      · -- it would reach the first symbol of the pattern
        have hreach : s ++ [a] <+: pat := by
          refine List.prefix_of_prefix_length_le ?_ hpat ?_
          · rw [List.prefix_append_right_inj, List.cons_append, List.cons_prefix_cons]
            exact ⟨rfl, List.nil_prefix⟩
          · rw [List.length_append, List.length_singleton]
            omega
        exact ha (hreach.subset (List.mem_append_right s List.mem_cons_self))
    rw [List.cons_append, findPattern_cons_of_not hne,
      ih fun hoccurs ↦ hs (hoccurs.trans (List.suffix_cons b s).isInfix), Option.map_some,
      List.length_cons]

/-- A pattern that occurs is found. -/
theorem exists_findPattern {s : List α} (h : pat <:+: s) : ∃ i, findPattern pat s = some i := by
  induction s with
  | nil => exact ⟨0, findPattern_eq_zero (List.infix_nil.mp h ▸ List.nil_prefix)⟩
  | cons a s ih =>
    by_cases hp : pat <+: a :: s
    · exact ⟨0, findPattern_eq_zero hp⟩
    · obtain ⟨i, hi⟩ := ih ((List.infix_cons_iff.mp h).resolve_left hp)
      exact ⟨i + 1, by rw [findPattern_cons_of_not hp, hi, Option.map_some]⟩

theorem findPattern_eq_none {a : α} {s : List α} (h : a ∉ s) : findPattern (a :: pat) s = none := by
  cases hfound : findPattern (a :: pat) s with
  | none => rfl
  | some i =>
    have hmem := (prefix_drop_of_findPattern hfound).subset List.mem_cons_self
    exact absurd (List.mem_of_mem_drop hmem) h

/-- An occurrence does not reach over a symbol that is not in the pattern. -/
theorem findPattern_append_cons {a : α} {s : List α} (ha : a ∉ pat)
    (hs : findPattern pat s = none) (hne : pat ≠ []) (t : List α) :
    findPattern pat (s ++ a :: t) = (findPattern pat t).map (· + (s.length + 1)) := by
  induction s with
  | nil =>
    have hnot : ¬pat <+: a :: t := by
      intro hp
      obtain ⟨b, pat, rfl⟩ := List.exists_cons_of_ne_nil hne
      exact ha ((List.cons_prefix_cons.mp hp).1 ▸ List.mem_cons_self)
    rw [List.nil_append, findPattern_cons_of_not hnot, List.length_nil]
  | cons b s ih =>
    have hhead : ¬pat <+: b :: s := by
      intro hp
      rw [findPattern_eq_zero hp] at hs
      cases hs
    have hnot : ¬pat <+: b :: (s ++ a :: t) := by
      intro hp
      by_cases hlen : pat.length ≤ (b :: s).length
      · exact hhead (List.prefix_of_prefix_length_le hp (List.prefix_append (b :: s) _) hlen)
      · have hreach : b :: s ++ [a] <+: pat := by
          refine List.prefix_of_prefix_length_le ?_ hp ?_
          · rw [← List.cons_append, List.prefix_append_right_inj, List.cons_prefix_cons]
            exact ⟨rfl, List.nil_prefix⟩
          · rw [List.length_append, List.length_singleton]
            omega
        exact ha (hreach.subset (List.mem_append_right _ List.mem_cons_self))
    rw [findPattern_cons_of_not hhead, Option.map_eq_none_iff] at hs
    rw [List.cons_append, findPattern_cons_of_not hnot, ih hs, Option.map_map]
    rfl

/-- **A position that has been found stays.** -/
theorem findPattern_append {s : List α} {i : ℕ} (h : findPattern pat s = some i) (t : List α) :
    findPattern pat (s ++ t) = some i := by
  induction s generalizing i with
  | nil =>
    rw [findPattern] at h
    split at h
    · next hp =>
      obtain rfl := Option.some.inj h
      exact findPattern_eq_zero
        ((List.isPrefixOf_iff_prefix.mp hp).trans (List.nil_prefix))
    · cases h
  | cons a s ih =>
    by_cases hp : pat <+: a :: s
    · rw [findPattern_eq_zero hp, Option.some.injEq] at h
      rw [← h, findPattern_eq_zero (hp.trans (List.prefix_append _ t))]
    · rw [findPattern_cons_of_not hp, Option.map_eq_some_iff] at h
      obtain ⟨j, hj, rfl⟩ := h
      -- the pattern is no longer than what it was found in
      have hlen : pat.length ≤ (a :: s).length := by
        have hle := (prefix_drop_of_findPattern hj).length_le
        rw [List.length_drop] at hle
        rw [List.length_cons]
        omega
      have hnot : ¬pat <+: a :: (s ++ t) := fun hp' ↦
        hp (List.prefix_of_prefix_length_le hp' (List.prefix_append (a :: s) t) hlen)
      rw [List.cons_append, findPattern_cons_of_not hnot, ih hj, Option.map_some]

/-- A pattern that stands only at the end is not found before the end has come. -/
theorem findPattern_of_initial {s t : List α} (hne : pat ≠ [])
    (h : findPattern pat s = some (s.length - pat.length)) (hinitial : t <+: s)
    (hlt : t.length < s.length) : findPattern pat t = none := by
  cases hn : findPattern pat t with
  | none => rfl
  | some n =>
    obtain ⟨u, rfl⟩ := hinitial
    have hfound := findPattern_append hn u
    rw [h] at hfound
    have heq : (t ++ u).length - pat.length = n := Option.some.inj hfound
    have hle := length_le_of_findPattern hn hne
    omega

end Wasapi
