import Mathlib

/-!
# Maps with weights

The values of a finite map have weights. `weightSum` is the weight of the map, and changes by the
weight of the value when an entry comes or goes.
-/

namespace Wasapi

variable {κ β : Type*} (weight : β → ℕ)

def weightSum (m : AList fun _ : κ ↦ β) : ℕ := (m.entries.map fun e ↦ weight e.2).sum

variable [DecidableEq κ]

private theorem entries_erase (m : AList fun _ : κ ↦ β) (k : κ) :
    (m.erase k).entries = m.entries.kerase k := rfl

theorem weightSum_erase {m : AList fun _ : κ ↦ β} {k : κ} {v : β} (h : m.lookup k = some v) :
    weightSum weight (m.erase k) + weight v = weightSum weight m := by
  have hmem : k ∈ m.entries.keys := AList.lookup_isSome.mp (by rw [h]; rfl)
  obtain ⟨v', l₁, l₂, hk, heq, herase⟩ := List.exists_of_kerase hmem
  have hv : v' = v := by
    have hlookup : m.lookup k = some v' := by
      rw [← Option.mem_def, AList.mem_lookup_iff, heq]
      exact List.mem_append_right _ List.mem_cons_self
    rw [h, Option.some.injEq] at hlookup
    exact hlookup.symm
  rw [weightSum, weightSum, entries_erase, herase, heq, hv]
  simp only [List.map_append, List.map_cons, List.sum_append, List.sum_cons]
  omega

theorem weightSum_insert (m : AList fun _ : κ ↦ β) (k : κ) (v : β) :
    weightSum weight (m.insert k v) = weightSum weight (m.erase k) + weight v := by
  rw [weightSum, AList.entries_insert, List.map_cons, List.sum_cons, Nat.add_comm]
  rfl

theorem weightSum_erase_of_none {m : AList fun _ : κ ↦ β} {k : κ} (h : m.lookup k = none) :
    weightSum weight (m.erase k) = weightSum weight m := by
  rw [weightSum, entries_erase, List.kerase_of_notMem_keys (AList.lookup_eq_none.mp h), weightSum]

/-- Replacing a value by one of the same weight. -/
theorem weightSum_insert_of_eq {m : AList fun _ : κ ↦ β} {k : κ} {v v' : β}
    (h : m.lookup k = some v) (hw : weight v' = weight v) :
    weightSum weight (m.insert k v') = weightSum weight m := by
  rw [weightSum_insert, hw, weightSum_erase weight h]

theorem weight_le_weightSum {m : AList fun _ : κ ↦ β} {k : κ} {v : β} (h : m.lookup k = some v) :
    weight v ≤ weightSum weight m := by
  rw [← weightSum_erase weight h]
  exact Nat.le_add_left _ _

theorem length_entries_erase {m : AList fun _ : κ ↦ β} {k : κ} {v : β} (h : m.lookup k = some v) :
    (m.erase k).entries.length + 1 = m.entries.length := by
  have hone : ∀ m : AList fun _ : κ ↦ β, weightSum (fun _ ↦ 1) m = m.entries.length := by
    intro m
    rw [weightSum, List.map_const', List.sum_replicate, smul_eq_mul, Nat.mul_one]
  rw [← hone, ← hone, ← weightSum_erase (fun _ ↦ 1) h]

theorem weightSum_congr {weight weight' : β → ℕ} {m : AList fun _ : κ ↦ β}
    (h : ∀ k v, m.lookup k = some v → weight v = weight' v) :
    weightSum weight m = weightSum weight' m := by
  rw [weightSum, weightSum]
  congr 1
  exact List.map_congr_left fun e he ↦ h e.1 e.2 (AList.mem_lookup_iff.mpr he)

/-- A map in which one value only has a weight weighs what this value weighs. -/
theorem weightSum_of_only {m : AList fun _ : κ ↦ β} {k : κ} {v : β} (h : m.lookup k = some v)
    (honly : ∀ k' v', m.lookup k' = some v' → k' ≠ k → weight v' = 0) :
    weightSum weight m = weight v := by
  have hzero : weightSum weight (m.erase k) = 0 := by
    rw [weightSum, List.sum_eq_zero_iff]
    intro w hw
    obtain ⟨⟨k', v'⟩, hmem, rfl⟩ := List.mem_map.mp hw
    have hlookup : (m.erase k).lookup k' = some v' := AList.mem_lookup_iff.mpr hmem
    by_cases hk : k' = k
    · rw [hk, AList.lookup_erase] at hlookup
      cases hlookup
    · rw [AList.lookup_erase_ne hk] at hlookup
      exact honly k' v' hlookup hk
  rw [← weightSum_erase weight h, hzero, Nat.zero_add]

end Wasapi
