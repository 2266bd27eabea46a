import Mathlib
import Wasapi.Library.Search

/-!
# Loops over the pieces of a list

A loop that looks for the next separator, works on what stands in front of it and goes on behind it,
until nothing is left. It works on the pieces of `List.splitOn` one after the other. What stands
behind the last separator is a piece only if it is not empty, so this takes a loop that an empty
piece leaves where it is.
-/

namespace Wasapi

variable {α σ : Type*} [DecidableEq α] {sep : α} {f : σ → List α → σ}

/-- The loop; `rest` is what has not been looked at. -/
def foldPieces (sep : α) (f : σ → List α → σ) : ℕ → List α → σ → σ
  | 0, _, s => s
  | fuel + 1, rest, s =>
    if rest = [] then s
    else
      let stop := (findPattern [sep] rest).getD rest.length
      foldPieces sep f fuel (rest.drop (stop + 1)) (f s (rest.take stop))

/-- A list is one piece, or its first piece stands in front of the first separator. -/
theorem piece_cases (sep : α) (rest : List α) :
    (findPattern [sep] rest = none ∧ rest.splitOn sep = [rest]) ∨
    ∃ piece tail, rest = piece ++ sep :: tail ∧ findPattern [sep] rest = some piece.length ∧
      rest.splitOn sep = piece :: tail.splitOn sep := by
  by_cases hmem : sep ∈ rest
  · obtain ⟨piece, tail, rfl, hnot⟩ := List.eq_append_cons_of_mem hmem
    refine .inr ⟨piece, tail, rfl, findPattern_behind hnot ?_, ?_⟩
    · exact List.cons_prefix_cons.mpr ⟨rfl, List.nil_prefix⟩
    · exact List.splitOn_append_cons_self_of_not_mem hnot tail
  · exact .inl ⟨findPattern_eq_none hmem, List.splitOn_eq_singleton hmem⟩

theorem sublist_of_mem_splitOn {s piece : List α} (h : piece ∈ s.splitOn sep) :
    piece.Sublist s := by
  induction hn : s.length using Nat.strong_induction_on generalizing s with
  | _ n ih =>
    rcases piece_cases sep s with ⟨-, hsplit⟩ | ⟨first, tail, rfl, -, hsplit⟩
    · rw [hsplit, List.mem_singleton] at h
      rw [h]
    · rw [hsplit, List.mem_cons] at h
      rcases h with rfl | h
      · exact List.sublist_append_left piece _
      · have hlt : tail.length < n := by
          rw [← hn, List.length_append, List.length_cons]
          omega
        have htail : piece.Sublist tail := ih _ hlt h rfl
        exact (htail.cons sep).trans (List.sublist_append_right first _)

/-- **The loop works on the pieces.** -/
theorem foldPieces_eq (hf : ∀ s, f s [] = s) {fuel : ℕ} {rest : List α}
    (hfuel : rest.length ≤ fuel) (s : σ) :
    foldPieces sep f fuel rest s = (rest.splitOn sep).foldl f s := by
  induction fuel generalizing rest s with
  | zero =>
    obtain rfl := List.length_eq_zero_iff.mp (Nat.le_zero.mp hfuel)
    exact (hf s).symm
  | succ fuel ih =>
    rw [foldPieces]
    by_cases hrest : rest = []
    · subst hrest
      exact (hf s).symm
    rw [if_neg hrest]
    have hpos := List.length_pos_of_ne_nil hrest
    rcases piece_cases sep rest with ⟨hfind, hsplit⟩ | ⟨piece, tail, rfl, hfind, hsplit⟩
    · have hdrop : rest.drop (rest.length + 1) = [] := List.drop_eq_nil_of_le (Nat.le_succ _)
      rw [hfind, Option.getD_none]
      dsimp only
      rw [hdrop, List.take_length, hsplit, ih (Nat.zero_le _)]
      exact hf _
    · have hdrop : (piece ++ sep :: tail).drop (piece.length + 1) = tail := by
        rw [← List.drop_drop, List.drop_left, List.drop_one, List.tail_cons]
      rw [List.length_append, List.length_cons] at hfuel
      rw [hfind, Option.getD_some]
      dsimp only
      rw [hdrop, List.take_left, hsplit, ih (by omega), List.foldl_cons]

/-- On joined pieces the loop works on what was joined. -/
theorem foldPieces_intercalate (hf : ∀ s, f s [] = s) {pieces : List (List α)}
    (hpieces : ∀ piece ∈ pieces, sep ∉ piece) (s : σ) :
    foldPieces sep f ([sep].intercalate pieces).length ([sep].intercalate pieces) s
      = pieces.foldl f s := by
  rw [foldPieces_eq hf le_rfl]
  by_cases hne : pieces = []
  · subst hne
    exact hf s
  · rw [List.splitOn_intercalate sep hpieces hne]

end Wasapi
