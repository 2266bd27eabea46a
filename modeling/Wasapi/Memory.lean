import Wasapi.DynamicVariable

/-!
# Arenas

Every request is constructed inside an arena taken from one fixed pool. `size_t` is `UInt64`, so
the address arithmetic of `Arena.alloc` wraps exactly as the source's does. The bytes an arena
holds are not modelled, only which part of it is taken; but `alloc` clears what it hands out, and
whether `memset` is told to write outside of the arena is.

An arena of the pool is named by its `management_flag`, its index in the pool. Besides the source's
`in_use` bit the pool remembers who was given the arena: the bit is set when there is a holder.
-/

namespace Wasapi

structure Arena where
  /-- The address `malloc` returned. -/
  data : UInt64
  capacity : UInt64
  offset : UInt64 := 0
  managementFlag : ℕ := 0
  deriving DecidableEq

namespace Arena

def reset (a : Arena) : Arena := { a with offset := 0 }

/-- How a call of `alloc` ends. -/
inductive Allocation where
  /-- null is returned before anything is taken -/
  | null
  /-- the address is returned, and the arena is left like this -/
  | block (address : UInt64) (a : Arena)
  /-- `memset` is told to clear bytes outside of the arena, and the call does not return -/
  | fault
  deriving DecidableEq

/-- What has been taken, if anything has. -/
def Allocation.block? : Allocation → Option (UInt64 × Arena)
  | .block address a => some (address, a)
  | .null | .fault => none

/-- The bytes `memset` clears at `address` are those of the arena. -/
def Clears (a : Arena) (address sz : UInt64) : Prop :=
  sz = 0 ∨ (a.data.toNat ≤ address.toNat ∧
    address.toNat + sz.toNat ≤ a.data.toNat + a.capacity.toNat)

instance (a : Arena) (address sz : UInt64) : Decidable (a.Clears address sz) :=
  inferInstanceAs (Decidable (_ ∨ _))

/-- Take `sz` bytes aligned to `align` and clear them, as `ARENA_ZERO_CLEAR` is defined. -/
def alloc (a : Arena) (sz align : UInt64) : Allocation :=
  let cur := a.data + a.offset
  let aligned := (cur + (align - 1)) &&& ~~~(align - 1)
  let newOff := aligned - a.data + sz
  if a.capacity < newOff then .null
  else if a.Clears aligned sz then .block aligned { a with offset := newOff }
  else .fault

end Arena

/-- The pool. `inUse[i]` is the holder of arena `i`, if it is in use. -/
structure ArenaManager where
  arenas : List Arena
  inUse : List (Option ℕ)
  availableCount : ℕ
  deriving DecidableEq

namespace ArenaManager

/-- `create_arenas`: `bases` are the addresses `malloc` returns, one for each arena. -/
def createArenas (bases : List UInt64) (capacity : UInt64) : ArenaManager where
  arenas := bases.zipIdx.map fun p ↦
    { data := p.1, capacity := capacity, managementFlag := p.2 }
  inUse := bases.map fun _ ↦ none
  availableCount := bases.length

/-- The first arena not in use, now held by `holder`. -/
def get (m : ArenaManager) (holder : ℕ) : Option (ℕ × ArenaManager) :=
  match m.inUse.findIdx? Option.isNone with
  | none => none
  | some i =>
    some (i, { m with
      inUse := m.inUse.set i (some holder)
      availableCount := m.availableCount - 1 })

/-- Give arena `i` back. An arena that is not in use is left alone. -/
def release (m : ArenaManager) (i : ℕ) : ArenaManager :=
  match m.inUse[i]? with
  | some (some _) =>
    { arenas := m.arenas.modify i Arena.reset
      inUse := m.inUse.set i none
      availableCount := m.availableCount + 1 }
  | _ => m

/-- The holder of arena `i`. -/
def holder (m : ArenaManager) (i : ℕ) : Option ℕ := (m.inUse[i]?).join

theorem holder_get {m m' : ArenaManager} {h i : ℕ} (hget : m.get h = some (i, m')) (j : ℕ) :
    m'.holder j = if j = i then some h else m.holder j := by
  rw [get] at hget
  split at hget
  · cases hget
  · next k hk =>
    rw [Option.some.injEq, Prod.mk.injEq] at hget
    obtain ⟨rfl, rfl⟩ := hget
    have hlt : k < m.inUse.length := (List.findIdx?_eq_some_iff_getElem.mp hk).1
    rw [holder, holder, List.getElem?_set]
    by_cases hj : j = k
    · subst hj
      rw [if_pos rfl, if_pos hlt, if_pos rfl, Option.join_some]
    · rw [if_neg (Ne.symm hj), if_neg hj]

/-- What `get` hands out was free. -/
theorem holder_of_get {m m' : ArenaManager} {h i : ℕ} (hget : m.get h = some (i, m')) :
    m.holder i = none := by
  rw [get] at hget
  split at hget
  · cases hget
  · next k hk =>
    rw [Option.some.injEq, Prod.mk.injEq] at hget
    obtain ⟨rfl, rfl⟩ := hget
    obtain ⟨hlt, hnone, -⟩ := List.findIdx?_eq_some_iff_getElem.mp hk
    rw [holder, List.getElem?_eq_getElem hlt, Option.join_some]
    exact Option.isNone_iff_eq_none.mp hnone

theorem holder_release (m : ArenaManager) (i j : ℕ) :
    (m.release i).holder j = if j = i then none else m.holder j := by
  rw [release]
  split
  · next h =>
    rw [holder, holder, List.getElem?_set]
    have hlt : i < m.inUse.length := (List.getElem?_eq_some_iff.mp h).1
    by_cases hj : j = i
    · subst hj
      rw [if_pos rfl, if_pos hlt, if_pos rfl, Option.join_some]
    · rw [if_neg (Ne.symm hj), if_neg hj]
  · next h =>
    by_cases hj : j = i
    · subst hj
      rw [if_pos rfl, holder]
      cases hx : m.inUse[j]? with
      | none => rfl
      | some x =>
        cases x with
        | none => rfl
        | some y => exact absurd hx (h y)
    · rw [if_neg hj]

/-- An arena that has come back is available. -/
theorem availableCount_release_pos {m : ArenaManager} {i n : ℕ} (h : m.holder i = some n) :
    0 < (m.release i).availableCount := by
  rw [holder, Option.join_eq_some_iff] at h
  rw [release, h]
  exact Nat.succ_pos _

/-- A pool of `n` arenas whose `available_count` is the number of those not in use. -/
structure Counted (m : ArenaManager) (n : ℕ) : Prop where
  length : m.inUse.length = n
  count : m.availableCount = m.inUse.count none

theorem counted_createArenas (bases : List UInt64) (capacity : UInt64) :
    (createArenas bases capacity).Counted bases.length := by
  constructor
  · exact List.length_map _
  · have hnone : ∀ b ∈ bases.map fun _ ↦ (none : Option ℕ), none = b := by
      intro b hb
      obtain ⟨-, -, rfl⟩ := List.mem_map.mp hb
      rfl
    rw [createArenas, List.count_eq_length.mpr hnone, List.length_map]

/-- Taking one of the free arenas. -/
theorem Counted.get {m m' : ArenaManager} {n h i : ℕ} (hm : m.Counted n)
    (hget : m.get h = some (i, m')) : m'.Counted n ∧ i < n := by
  rw [ArenaManager.get] at hget
  split at hget
  · cases hget
  next k hk =>
  rw [Option.some.injEq, Prod.mk.injEq] at hget
  obtain ⟨rfl, rfl⟩ := hget
  obtain ⟨hlt, hfree, -⟩ := List.findIdx?_eq_some_iff_getElem.mp hk
  rw [Option.isNone_iff_eq_none] at hfree
  refine ⟨⟨?_, ?_⟩, hm.length ▸ hlt⟩
  · rw [List.length_set, hm.length]
  · rw [List.count_set hlt, hfree]
    simp [hm.count]

theorem Counted.release {m : ArenaManager} {n : ℕ} (hm : m.Counted n) (i : ℕ) :
    (m.release i).Counted n := by
  rw [ArenaManager.release]
  split
  · next h =>
    obtain ⟨hlt, hheld⟩ := List.getElem?_eq_some_iff.mp h
    constructor
    · rw [List.length_set, hm.length]
    · rw [List.count_set hlt, hheld]
      simp [hm.count]
  · exact hm

theorem Counted.pos {m : ArenaManager} {n i : ℕ} (hm : m.Counted n) (hi : i < n)
    (hfree : m.holder i = none) : 0 < m.availableCount := by
  have hlt : i < m.inUse.length := by rw [hm.length]; exact hi
  rw [hm.count, List.count_pos_iff, List.mem_iff_getElem]
  refine ⟨i, hlt, ?_⟩
  rwa [holder, List.getElem?_eq_getElem hlt, Option.join_some] at hfree

end ArenaManager

end Wasapi
