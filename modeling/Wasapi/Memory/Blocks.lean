import Wasapi.Memory
import Wasapi.Library.Alignment
import Wasapi.Library.Transitions

/-!
# The blocks an arena hands out

A run of one arena: requests for blocks, each with an alignment, and resets, beside the blocks
returned since the last reset. `Arena.alloc` compares the sum of the rounded position and the size
with the capacity once, after it was taken modulo `2 ^ 64`. The calls it answers soundly are those
whose sum does not wrap, those it refuses in spite of a wrap, and those for an empty block at the
very top of the address space. Every other call gets past the comparison and does not come back from
clearing its block.
-/

namespace Wasapi

namespace Arena

/-- The constructor; `data` is the address `malloc` returned, and every field keeps its default when
that is null. -/
def construct (data cap : UInt64) : Arena :=
  if data = 0 then { data := 0, capacity := 0 } else reset { data := data, capacity := cap }

theorem offset_construct (data cap : UInt64) : (construct data cap).offset = 0 := by
  rw [construct]
  split <;> rfl

/-- A power of two. -/
structure Alignment where
  word : UInt64
  two_pow : ∃ k, word.toNat = 2 ^ k

inductive Call where
  | alloc (sz : UInt64) (align : Alignment)
  | reset

/-- A block: its address and its size. -/
structure Block where
  address : UInt64
  size : UInt64

/-- The addresses of a block. -/
def Block.range (b : Block) : Set ℕ := Set.Ico b.address.toNat (b.address.toNat + b.size.toNat)

/-- An arena and the blocks it returned since the last reset. -/
structure Usage where
  arena : Arena
  blocks : List Block := []

namespace Usage

/-- Nothing comes behind a fault. -/
def step (u : Usage) : Call → Usage
  | .alloc sz align =>
    match u.arena.alloc sz align.word with
    | .null | .fault => u
    | .block address a =>
      { arena := a
        blocks := if address = 0 then u.blocks else { address := address, size := sz } :: u.blocks }
  | .reset => { arena := u.arena.reset }

/-- A block that is aligned, inside the arena and apart from every block returned before. -/
structure Fits (u : Usage) (align : Alignment) (b : Block) : Prop where
  aligned : b.address.toNat % align.word.toNat = 0
  inside : u.arena.data.toNat ≤ b.address.toNat ∧
    b.address.toNat + b.size.toNat ≤ u.arena.data.toNat + u.arena.capacity.toNat
  apart : ∀ c ∈ u.blocks, Disjoint b.range c.range

/-- A call that returns null leaves the offset unchanged, any other returns a block that fits. The
address `0` is null. -/
def SoundCall (u : Usage) : Call → Prop
  | .alloc sz align =>
    match u.arena.alloc sz align.word with
    | .null => True
    | .block address a =>
      if address = 0 then a.offset = u.arena.offset
      else u.Fits align { address := address, size := sz }
    | .fault => False
  | .reset => True

/-- The position of the next block, in the natural numbers. -/
def position (u : Usage) (align : Alignment) : ℕ :=
  roundUp (u.arena.data.toNat + u.arena.offset.toNat) align.word.toNat

/-- The offset behind a block of `sz` bytes at that position, in the natural numbers. -/
def needed (u : Usage) (sz : UInt64) (align : Alignment) : ℕ :=
  u.position align - u.arena.data.toNat + sz.toNat

/-- The calls whose position and offset are below `2 ^ 64`, those whose wrapped offset is more than
the capacity, and those for an empty block at `2 ^ 64` when all the space up to there is taken. -/
def Answerable (u : Usage) : Call → Prop
  | .alloc sz align =>
    (u.position align < 2 ^ 64 ∧ u.needed sz align < 2 ^ 64) ∨
    u.arena.capacity.toNat < u.needed sz align % 2 ^ 64 ∨
    (u.position align = 2 ^ 64 ∧ u.needed sz align = u.arena.offset.toNat)
  | .reset => True

instance (u : Usage) : DecidablePred u.Answerable
  | .alloc sz align => inferInstanceAs (Decidable
      ((u.position align < 2 ^ 64 ∧ u.needed sz align < 2 ^ 64) ∨
      u.arena.capacity.toNat < u.needed sz align % 2 ^ 64 ∨
      (u.position align = 2 ^ 64 ∧ u.needed sz align = u.arena.offset.toNat)))
  | .reset => .isTrue trivial

/-- What every answerable call keeps. -/
structure WellPlaced (u : Usage) : Prop where
  top : u.arena.data.toNat + u.arena.capacity.toNat ≤ 2 ^ 64
  null : u.arena.data = 0 → u.arena.capacity = 0
  offset : u.arena.offset.toNat ≤ u.arena.capacity.toNat
  blocks : ∀ b ∈ u.blocks,
    b.address.toNat + b.size.toNat ≤ u.arena.data.toNat + u.arena.offset.toNat

variable {u : Usage} {sz : UInt64} {align : Alignment}

theorem Alignment.pos : 0 < align.word.toNat := by
  obtain ⟨k, hk⟩ := align.two_pow
  exact hk ▸ Nat.two_pow_pos k

private theorem le_position (u : Usage) (align : Alignment) :
    u.arena.data.toNat + u.arena.offset.toNat ≤ u.position align := le_roundUp Alignment.pos _

/-- The top of the address space is aligned, so a position is not behind it. -/
theorem WellPlaced.position_le (hu : u.WellPlaced) (align : Alignment) :
    u.position align ≤ 2 ^ 64 := by
  obtain ⟨k, hk⟩ := align.two_pow
  have hlt : 2 ^ k < 2 ^ 64 := hk ▸ align.word.toNat_lt
  have hdvd : align.word.toNat ∣ 2 ^ 64 :=
    hk ▸ Nat.pow_dvd_pow 2 ((Nat.pow_lt_pow_iff_right Nat.one_lt_two).mp hlt).le
  exact roundUp_le Alignment.pos hdvd ((Nat.add_le_add_left hu.offset _).trans hu.top)

/-- `alloc` computes the position and the offset behind the block modulo `2 ^ 64`. -/
theorem alloc_eq (u : Usage) (sz : UInt64) (align : Alignment) :
    u.arena.alloc sz align.word =
      if u.arena.capacity.toNat < u.needed sz align % 2 ^ 64 then .null
      else if u.arena.Clears (UInt64.ofNat (u.position align)) sz then
        .block (UInt64.ofNat (u.position align))
          { u.arena with offset := UInt64.ofNat (u.needed sz align) }
      else .fault := by
  obtain ⟨k, hk⟩ := align.two_pow
  have hbase : u.arena.data.toNat ≤ u.position align :=
    (Nat.le_add_right _ _).trans (u.le_position align)
  have hcur : (u.arena.data + u.arena.offset).toNat
      = (u.arena.data.toNat + u.arena.offset.toNat) % 2 ^ 64 := UInt64.toNat_add _ _
  have hpos : (u.arena.data + u.arena.offset + (align.word - 1)) &&& ~~~(align.word - 1)
      = UInt64.ofNat (u.position align) := by
    rw [← UInt64.toNat_inj, UInt64.toNat_ofNat', position, hk]
    exact toNat_add_sub_one_and_complement hcur hk
  have hoff : UInt64.ofNat (u.position align) - u.arena.data + sz
      = UInt64.ofNat (u.needed sz align) := by
    rw [needed, UInt64.ofNat_add, UInt64.ofNat_sub hbase, UInt64.ofNat_toNat, UInt64.ofNat_toNat]
  simp only [alloc, hpos, hoff, UInt64.lt_iff_toNat_lt, UInt64.toNat_ofNat']

private theorem alloc_refused (h : u.arena.capacity.toNat < u.needed sz align % 2 ^ 64) :
    u.arena.alloc sz align.word = .null := by
  rw [alloc_eq, if_pos h]

private theorem alloc_taken (h : ¬u.arena.capacity.toNat < u.needed sz align % 2 ^ 64)
    (hclears : u.arena.Clears (UInt64.ofNat (u.position align)) sz) :
    u.arena.alloc sz align.word = .block (UInt64.ofNat (u.position align))
      { u.arena with offset := UInt64.ofNat (u.needed sz align) } := by
  rw [alloc_eq, if_neg h, if_pos hclears]

private theorem alloc_faults (h : ¬u.arena.capacity.toNat < u.needed sz align % 2 ^ 64)
    (hclears : ¬u.arena.Clears (UInt64.ofNat (u.position align)) sz) :
    u.arena.alloc sz align.word = .fault := by
  rw [alloc_eq, if_neg h, if_neg hclears]

private theorem toNat_ofNat_of_lt {n : ℕ} (h : n < 2 ^ 64) : (UInt64.ofNat n).toNat = n :=
  UInt64.toNat_ofNat_of_lt' h

private theorem ofNat_position_eq_zero (hu : u.WellPlaced) :
    UInt64.ofNat (u.position align) = 0 ↔ u.position align = 0 ∨ u.position align = 2 ^ 64 := by
  have hle := hu.position_le align
  rw [← UInt64.toNat_inj, UInt64.toNat_ofNat', UInt64.toNat_zero]
  omega

/-- The end of the next block, as an offset. -/
theorem position_add (u : Usage) (sz : UInt64) (align : Alignment) :
    u.position align + sz.toNat = u.arena.data.toNat + u.needed sz align := by
  have hle := u.le_position align
  rw [needed]
  omega

/-- Only the arena without storage has a block at address `0`. -/
theorem WellPlaced.of_position_eq_zero (hu : u.WellPlaced) (h : u.position align = 0)
    (sz : UInt64) :
    u.arena.offset.toNat = 0 ∧ u.arena.capacity.toNat = 0 ∧ u.needed sz align = sz.toNat := by
  have hle := u.le_position align
  have hdata : u.arena.data = 0 := by
    rw [← UInt64.toNat_inj, UInt64.toNat_zero]
    omega
  have hadd := u.position_add sz align
  refine ⟨by omega, ?_, by omega⟩
  rw [hu.null hdata, UInt64.toNat_zero]

/-- A block behind the present offset is apart from every block returned before. -/
theorem WellPlaced.apart (hu : u.WellPlaced) {b : Block}
    (hb : u.arena.data.toNat + u.arena.offset.toNat ≤ b.address.toNat) :
    ∀ c ∈ u.blocks, Disjoint b.range c.range := by
  intro c hc
  have hend := hu.blocks c hc
  rw [Block.range, Block.range, Set.Ico_disjoint_Ico]
  exact (min_le_right _ _).trans ((hend.trans hb).trans (le_max_left _ _))

/-- A block at its own position fits if its end does. -/
theorem WellPlaced.fits_iff (hu : u.WellPlaced) (hpos : u.position align < 2 ^ 64) :
    u.Fits align { address := UInt64.ofNat (u.position align), size := sz }
      ↔ u.needed sz align ≤ u.arena.capacity.toNat := by
  have hle := u.le_position align
  have hadd := u.position_add sz align
  have haddress : (UInt64.ofNat (u.position align)).toNat = u.position align :=
    toNat_ofNat_of_lt hpos
  constructor
  · intro h
    have hin : u.position align + sz.toNat ≤ u.arena.data.toNat + u.arena.capacity.toNat :=
      haddress ▸ h.inside.2
    omega
  · intro h
    have hend : u.position align + sz.toNat ≤ u.arena.data.toNat + u.arena.capacity.toNat := by
      omega
    refine ⟨?_, ⟨?_, ?_⟩, hu.apart ?_⟩
    · rw [haddress]
      exact Nat.mod_eq_zero_of_dvd (dvd_roundUp _ _)
    · rw [haddress]
      exact (Nat.le_add_right _ _).trans hle
    · rw [haddress]
      exact hend
    · rw [haddress]
      exact hle

/-- An arena that reaches up to the top of the address space has storage. -/
theorem WellPlaced.data_pos (hu : u.WellPlaced) (h : u.position align = 2 ^ 64) :
    0 < u.arena.data.toNat := by
  rw [Nat.pos_iff_ne_zero]
  intro hzero
  have hcap : u.arena.capacity = 0 := hu.null (UInt64.toNat_inj.mp (by rw [hzero]; rfl))
  have hoff := hu.offset
  rw [hcap, UInt64.toNat_zero] at hoff
  have hle : u.position align ≤ 0 :=
    roundUp_le Alignment.pos (Nat.dvd_zero _) (by omega)
  omega

/-- **Which blocks can be cleared** behind the comparison: those whose end does not wrap, and an
empty one. -/
theorem WellPlaced.clears_iff (hu : u.WellPlaced)
    (h : ¬u.arena.capacity.toNat < u.needed sz align % 2 ^ 64) :
    u.arena.Clears (UInt64.ofNat (u.position align)) sz ↔
      (u.position align < 2 ^ 64 ∧ u.needed sz align < 2 ^ 64) ∨
        (u.position align = 2 ^ 64 ∧ sz = 0) := by
  have hle := u.le_position align
  have hadd := u.position_add sz align
  have hcap := u.arena.capacity.toNat_lt
  have hzero : sz = 0 ↔ sz.toNat = 0 := by rw [← UInt64.toNat_inj, UInt64.toNat_zero]
  rw [Clears, hzero]
  rcases (hu.position_le align).lt_or_eq with hpos | hpos
  · rw [toNat_ofNat_of_lt hpos]
    omega
  · have hdata := hu.data_pos hpos
    rw [hpos, UInt64.toNat_ofNat', Nat.mod_self]
    omega

private theorem WellPlaced.soundCall_iff (hu : u.WellPlaced) (c : Call) :
    u.SoundCall c ↔ u.Answerable c := by
  cases c with
  | reset => exact Iff.rfl
  | alloc sz align =>
    by_cases href : u.arena.capacity.toNat < u.needed sz align % 2 ^ 64
    · rw [SoundCall, alloc_refused href]
      exact iff_of_true trivial (.inr (.inl href))
    have hadd := u.position_add sz align
    have htop := hu.top
    have hoff := hu.offset
    have hclears := hu.clears_iff href
    have hzero : sz = 0 ↔ sz.toNat = 0 := by rw [← UInt64.toNat_inj, UInt64.toNat_zero]
    by_cases hc : u.arena.Clears (UInt64.ofNat (u.position align)) sz
    · rw [SoundCall, alloc_taken href hc, Answerable]
      rcases hclears.mp hc with hlt | ⟨hpos, hsz⟩
      · -- the end of the block is the one it seems to be
        refine iff_of_true ?_ (.inl hlt)
        simp only
        split
        · next hnull =>
          have hpos := ((ofNat_position_eq_zero hu).mp hnull).resolve_right hlt.1.ne
          obtain ⟨hoffset, hcap, hneeded⟩ := hu.of_position_eq_zero hpos sz
          rw [← UInt64.toNat_inj, UInt64.toNat_ofNat']
          omega
        · exact (hu.fits_iff hlt.1).mpr (by omega)
      · -- an empty block at the top
        have hdata := hu.data_pos hpos
        have hsize := hzero.mp hsz
        simp only
        rw [if_pos ((ofNat_position_eq_zero hu).mpr (.inr hpos)), ← UInt64.toNat_inj,
          UInt64.toNat_ofNat']
        omega
    · rw [SoundCall, alloc_faults href hc, Answerable]
      refine iff_of_false id ?_
      rintro (hlt | hcap | ⟨hpos, hneeded⟩)
      · exact hc (hclears.mpr (.inl hlt))
      · exact href hcap
      · exact hc (hclears.mpr (.inr ⟨hpos, hzero.mpr (by omega)⟩))

theorem WellPlaced.step (hu : u.WellPlaced) {c : Call} (hc : u.Answerable c) :
    (u.step c).WellPlaced := by
  cases c with
  | reset => exact ⟨hu.top, hu.null, Nat.zero_le _, fun b hb ↦ absurd hb List.not_mem_nil⟩
  | alloc sz align =>
    by_cases href : u.arena.capacity.toNat < u.needed sz align % 2 ^ 64
    · rw [Usage.step, alloc_refused href]
      exact hu
    by_cases hclears : u.arena.Clears (UInt64.ofNat (u.position align)) sz
    swap
    · rw [Usage.step, alloc_faults href hclears]
      exact hu
    rw [Usage.step, alloc_taken href hclears]
    dsimp only
    have hle := u.le_position align
    have hadd := u.position_add sz align
    have hnew : (UInt64.ofNat (u.needed sz align)).toNat = u.needed sz align % 2 ^ 64 :=
      UInt64.toNat_ofNat'
    have hneeded : u.needed sz align < 2 ^ 64 := by
      have hoff := hu.offset
      have hcap := u.arena.capacity.toNat_lt
      rw [Answerable] at hc
      omega
    rw [Nat.mod_eq_of_lt hneeded] at hnew href
    -- the offset does not move backwards
    have hoff : u.arena.offset.toNat ≤ u.needed sz align := by omega
    refine ⟨hu.top, hu.null, hnew.le.trans (Nat.le_of_not_lt href), fun b hb ↦ ?_⟩
    have hold : b ∈ u.blocks → b.address.toNat + b.size.toNat
        ≤ u.arena.data.toNat + u.needed sz align := fun hb ↦
      (hu.blocks b hb).trans (Nat.add_le_add_left hoff _)
    dsimp only at hb ⊢
    rw [hnew]
    split at hb
    · exact hold hb
    · next hnull =>
      rcases List.mem_cons.mp hb with rfl | hb
      · have htop : u.position align ≠ 2 ^ 64 := fun h ↦
          hnull ((ofNat_position_eq_zero hu).mpr (.inr h))
        rw [toNat_ofNat_of_lt (lt_of_le_of_ne (hu.position_le align) htop)]
        exact hadd.le
      · exact hold hb

end Usage

/-- A new arena, no block of it returned yet. -/
def unused (data cap : UInt64) : Usage where
  arena := construct data cap

private theorem wellPlaced_unused {data cap : UInt64} (h : data.toNat + cap.toNat ≤ 2 ^ 64) :
    (unused data cap).WellPlaced := by
  rw [unused, construct]
  split
  · exact ⟨Nat.zero_le _, fun _ ↦ rfl, le_rfl, fun b hb ↦ absurd hb List.not_mem_nil⟩
  · next hdata =>
    exact ⟨h, fun h0 ↦ absurd h0 hdata, Nat.zero_le _, fun b hb ↦ absurd hb List.not_mem_nil⟩

/-- A block that is small against the address space above the arena can be cleared. -/
theorem Usage.WellPlaced.alloc_ne_fault {u : Usage} (hu : u.WellPlaced) {sz : UInt64}
    {align : Alignment} (h : u.arena.data.toNat + u.arena.capacity.toNat + align.word.toNat +
      sz.toNat ≤ 2 ^ 64) : u.arena.alloc sz align.word ≠ .fault := by
  have hoff := hu.offset
  have hpos : u.position align < u.arena.data.toNat + u.arena.offset.toNat + align.word.toNat :=
    roundUp_lt Usage.Alignment.pos _
  have hadd := u.position_add sz align
  rw [Usage.alloc_eq]
  split
  · exact Allocation.noConfusion
  · next href =>
    rw [if_pos ((hu.clears_iff href).mpr (.inl ⟨by omega, by omega⟩))]
    exact Allocation.noConfusion

/-- **Sound allocation.** In a run of one arena every call is answered soundly exactly when every
call is answerable where it is made. -/
theorem soundCalls_iff {data cap : UInt64} (h : data.toNat + cap.toNat ≤ 2 ^ 64)
    (calls : List Call) :
    Meets Usage.step Usage.SoundCall (unused data cap) calls
      ↔ Meets Usage.step Usage.Answerable (unused data cap) calls :=
  meets_congr_of_invariant (fun _ _ hu hc ↦ hu.step hc) (fun _ c hu ↦ hu.soundCall_iff c)
    (wellPlaced_unused h)

/-- Three blocks of an arena of 1024 bytes, the second of them too large. -/
theorem soundCalls_iff_small :
    Meets Usage.step Usage.SoundCall (unused 65536 1024)
      [.alloc 3 ⟨16, 4, rfl⟩, .alloc 1024 ⟨16, 4, rfl⟩, .alloc 8 ⟨16, 4, rfl⟩] :=
  (soundCalls_iff (by decide) _).mpr (by decide +kernel)

/-- Behind a block of 16 bytes in an arena of 1024, a request for `2 ^ 64 - 8` is not refused: the
call dies in `memset`. -/
theorem not_soundCalls_wrapped :
    (65536 : UInt64).toNat + (1024 : UInt64).toNat ≤ 2 ^ 64 ∧
    ¬Meets Usage.step Usage.SoundCall (unused 65536 1024)
      [.alloc 16 ⟨8, 3, rfl⟩, .alloc 18446744073709551608 ⟨8, 3, rfl⟩] := by
  refine ⟨by decide, fun h ↦ ?_⟩
  have hfault : (Usage.step (unused 65536 1024) (.alloc 16 ⟨8, 3, rfl⟩)).arena.alloc
      18446744073709551608 8 = .fault := by decide +kernel
  have hsecond := h.2.1
  rw [Usage.SoundCall, hfault] at hsecond
  exact hsecond

end Arena

end Wasapi
