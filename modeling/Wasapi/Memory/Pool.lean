import Wasapi.Memory.Blocks

/-!
# The pool and its holders

A run of the pool: holders take arenas, allocate inside them and give them back. Beside the pool
stands a list of what is held at present, kept by the holders alone: an arena is entered when `get`
returns it and struck out when its holder gives it back. The discipline says how the pool's own
`in_use` bits, counter and offsets relate to that list.

An `Arena *` is the position of the arena in the pool. `release` does not look at that position but
at the arena's `management_flag`.
-/

namespace Wasapi

namespace ArenaManager

/-- `create_arenas`; `blocks` are the addresses the calls of `malloc` return. -/
def createArenasFrom (blocks : List UInt64) (capacity : UInt64) : ArenaManager where
  arenas := blocks.zipIdx.map fun p ↦
    { Arena.construct p.1 capacity with managementFlag := p.2 }
  inUse := blocks.map fun _ ↦ none
  availableCount := blocks.length

/-- `release`: the bit is found by the arena's `management_flag`. -/
def releaseArena (m : ArenaManager) : Option ℕ → ArenaManager
  | none => m
  | some p =>
    match m.arenas[p]? with
    | none => m
    | some a =>
      match m.inUse[a.managementFlag]? with
      | some (some _) =>
        { arenas := m.arenas.modify p Arena.reset
          inUse := m.inUse.set a.managementFlag none
          availableCount := m.availableCount + 1 }
      | _ => m

/-- A request for `sz` bytes of arena `p`. -/
def allocIn (m : ArenaManager) (p : ℕ) (sz align : UInt64) : ArenaManager :=
  { m with arenas := m.arenas.modify p fun a ↦ ((a.alloc sz align).block?.map Prod.snd).getD a }

/-- When no `malloc` fails the pool is the one of `createArenas`. -/
theorem createArenasFrom_eq {blocks : List UInt64} (h : 0 ∉ blocks) (capacity : UInt64) :
    createArenasFrom blocks capacity = createArenas blocks capacity := by
  rw [createArenasFrom, createArenas, ArenaManager.mk.injEq]
  refine ⟨List.map_congr_left fun p hp ↦ ?_, rfl, rfl⟩
  have hne : p.1 ≠ 0 := fun h0 ↦ h (h0 ▸ List.fst_mem_of_mem_zipIdx hp)
  rw [Arena.construct, if_neg hne, Arena.reset]

theorem arena_of_modify {arenas : List Arena} {f : Arena → Arena} {p q : ℕ} {a : Arena}
    (h : (arenas.modify p f)[q]? = some a) :
    ∃ b, arenas[q]? = some b ∧ a = if p = q then f b else b := by
  rw [List.getElem?_modify, Option.map_eq_map, Option.map_eq_some_iff] at h
  obtain ⟨b, hb, heq⟩ := h
  exact ⟨b, hb, heq.symm⟩

/-- An arena is found at the position its flag names. -/
def Flagged (m : ArenaManager) : Prop :=
  ∀ (p : ℕ) (a : Arena), m.arenas[p]? = some a → a.managementFlag = p

private theorem releaseArena_eq {m : ArenaManager} (hm : m.Flagged) {p : ℕ}
    (hp : p < m.arenas.length) :
    m.releaseArena (some p) = m.release p := by
  have hget := List.getElem?_eq_getElem hp
  rcases hused : m.inUse[p]? with _ | _ | _
  · simp only [releaseArena, release, hget, hm p _ hget, hused]
  · simp only [releaseArena, release, hget, hm p _ hget, hused]
  · simp only [releaseArena, release, hget, hm p _ hget, hused]

/-- `get` changes no arena. -/
theorem arenas_get {m m' : ArenaManager} {h p : ℕ} (hget : m.get h = some (p, m')) :
    m'.arenas = m.arenas ∧ m'.availableCount = m.availableCount - 1 := by
  rw [get] at hget
  split at hget
  · cases hget
  · rw [Option.some.injEq, Prod.mk.injEq] at hget
    obtain ⟨-, rfl⟩ := hget
    exact ⟨rfl, rfl⟩

theorem release_of_holder {m : ArenaManager} {h p : ℕ} (hp : m.holder p = some h) :
    m.release p =
      { arenas := m.arenas.modify p Arena.reset
        inUse := m.inUse.set p none
        availableCount := m.availableCount + 1 } := by
  rw [holder, Option.join_eq_some_iff] at hp
  rw [release, hp]

theorem get_eq_none_iff (m : ArenaManager) (h : ℕ) :
    m.get h = none ↔ ∀ p < m.inUse.length, m.holder p ≠ none := by
  have hget : m.get h = none ↔ m.inUse.findIdx? Option.isNone = none := by
    rw [get]
    split
    · next hfind => simp [hfind]
    · next hfind => simp [hfind]
  rw [hget, List.findIdx?_eq_none_iff]
  constructor
  · intro hall p hp hnone
    rw [holder, List.getElem?_eq_getElem hp, Option.join_some] at hnone
    have hbit := hall _ (List.getElem_mem hp)
    rw [hnone] at hbit
    cases hbit
  · intro hall b hb
    obtain ⟨p, hp, rfl⟩ := List.mem_iff_getElem.mp hb
    have hheld := hall p hp
    rw [holder, List.getElem?_eq_getElem hp, Option.join_some] at hheld
    rwa [Option.isNone_eq_false_iff, Option.isSome_iff_ne_none]

end ArenaManager

/-- The pool and the list of the arenas held, each with its holder. -/
structure Loans where
  manager : ArenaManager
  held : List (ℕ × ℕ) := []

namespace Loans

inductive Event where
  | get (holder : ℕ)
  | release (holder : ℕ) (arena : Option ℕ)
  | alloc (holder arena : ℕ) (sz align : UInt64)

def step (s : Loans) : Event → Loans
  | .get h =>
    match s.manager.get h with
    | none => s
    | some (p, m) => { manager := m, held := (h, p) :: s.held }
  | .release h arena =>
    { manager := s.manager.releaseArena arena
      held := arena.elim s.held fun p ↦ s.held.erase (h, p) }
  | .alloc _ p sz align => { s with manager := s.manager.allocIn p sz align }

/-- Only the holder of an arena gives it back or allocates in it. -/
def ByHolder (s : Loans) : Event → Prop
  | .get _ => True
  | .release h arena => ∀ p ∈ arena, (h, p) ∈ s.held
  | .alloc h p _ _ => (h, p) ∈ s.held

instance (s : Loans) : DecidablePred s.ByHolder
  | .get _ => .isTrue trivial
  | .release h arena => inferInstanceAs (Decidable (∀ p ∈ arena, (h, p) ∈ s.held))
  | .alloc h p _ _ => inferInstanceAs (Decidable ((h, p) ∈ s.held))

/-- What holds of a pool of `n` arenas at every moment. -/
structure Disciplined (n : ℕ) (s : Loans) : Prop where
  /-- No arena is held twice. -/
  exclusive : (s.held.map Prod.snd).Nodup
  /-- The counter counts the arenas not in use. -/
  available : s.manager.availableCount = s.manager.inUse.count none
  /-- Those are the arenas not held. -/
  total : s.manager.availableCount + s.held.length = n
  /-- `get` returns null exactly when every arena is held. -/
  full : ∀ h, s.manager.get h = none ↔ ∀ p < n, ∃ h', (h', p) ∈ s.held
  /-- An arena `get` returns was held by nobody, and its offset is 0. -/
  fresh : ∀ h p m, s.manager.get h = some (p, m) →
    (∀ h', (h', p) ∉ s.held) ∧ ∃ a, m.arenas[p]? = some a ∧ a.offset = 0

/-- The invariant: the bits are set for what is held, and an arena nobody holds is empty. -/
structure Kept (n : ℕ) (s : Loans) : Prop where
  counted : s.manager.Counted n
  arenas : s.manager.arenas.length = n
  flagged : s.manager.Flagged
  holders : ∀ h p, (h, p) ∈ s.held ↔ s.manager.holder p = some h
  exclusive : (s.held.map Prod.snd).Nodup
  total : s.manager.availableCount + s.held.length = n
  clean : ∀ (p : ℕ) (a : Arena),
    s.manager.arenas[p]? = some a → s.manager.holder p = none → a.offset = 0

variable {n : ℕ} {s : Loans}

private theorem Kept.disciplined (hs : s.Kept n) : s.Disciplined n := by
  refine ⟨hs.exclusive, hs.counted.count, hs.total, fun h ↦ ?_, fun h p m hget ↦ ?_⟩
  · rw [ArenaManager.get_eq_none_iff, hs.counted.length]
    refine forall₂_congr fun p _ ↦ ?_
    rw [Option.ne_none_iff_exists']
    exact exists_congr fun h' ↦ (hs.holders h' p).symm
  · have hfree := ArenaManager.holder_of_get hget
    have hlt : p < s.manager.arenas.length := hs.arenas ▸ (hs.counted.get hget).2
    have harenas : m.arenas = s.manager.arenas := (ArenaManager.arenas_get hget).1
    refine ⟨fun h' hmem ↦ ?_, s.manager.arenas[p], ?_, ?_⟩
    · rw [hs.holders, hfree] at hmem
      cases hmem
    · rw [harenas, List.getElem?_eq_getElem hlt]
    · exact hs.clean p _ (List.getElem?_eq_getElem hlt) hfree

/-- An arena taken from the pool. -/
theorem Kept.get {h p : ℕ} {m : ArenaManager} (hs : s.Kept n)
    (hget : s.manager.get h = some (p, m)) :
    Kept n { manager := m, held := (h, p) :: s.held } := by
  have hfree := ArenaManager.holder_of_get hget
  have hholder := ArenaManager.holder_get hget
  obtain ⟨hcounted, hlt⟩ := hs.counted.get hget
  obtain ⟨harenas, hcount⟩ := ArenaManager.arenas_get hget
  have hnotheld : ∀ h', (h', p) ∉ s.held := by
    intro h' hmem
    rw [hs.holders, hfree] at hmem
    cases hmem
  refine ⟨hcounted, harenas ▸ hs.arenas, ?_, fun h' q ↦ ?_, ?_, ?_, fun q a hq hnone ↦ ?_⟩
  · rw [ArenaManager.Flagged, harenas]
    exact hs.flagged
  · rw [List.mem_cons, Prod.mk.injEq, hholder, hs.holders]
    split
    · next hqp =>
      subst hqp
      simp [hfree, eq_comm]
    · next hqp => simp [hqp]
  · rw [List.map_cons, List.nodup_cons]
    refine ⟨fun hmem ↦ ?_, hs.exclusive⟩
    obtain ⟨⟨h', q⟩, hq, rfl⟩ := List.mem_map.mp hmem
    exact hnotheld h' hq
  · have hpos := hs.counted.pos hlt hfree
    have htotal := hs.total
    rw [hcount, List.length_cons]
    omega
  · rw [hholder] at hnone
    rw [harenas] at hq
    split at hnone
    · cases hnone
    · exact hs.clean q a hq hnone

/-- An arena given back by its holder. -/
theorem Kept.release {h p : ℕ} (hs : s.Kept n) (hheld : (h, p) ∈ s.held) :
    Kept n { manager := s.manager.releaseArena (some p), held := s.held.erase (h, p) } := by
  have hholder := (hs.holders h p).mp hheld
  have hlt : p < s.manager.arenas.length := by
    rw [hs.arenas, ← hs.counted.length]
    rw [ArenaManager.holder, Option.join_eq_some_iff] at hholder
    exact (List.getElem?_eq_some_iff.mp hholder).1
  have hrelease := ArenaManager.release_of_holder hholder
  have hreleased := ArenaManager.holder_release s.manager p
  have hnodup : s.held.Nodup := hs.exclusive.of_map
  rw [ArenaManager.releaseArena_eq hs.flagged hlt]
  refine ⟨hs.counted.release p, ?_, fun q a hq ↦ ?_, fun h' q ↦ ?_,
    hs.exclusive.sublist (List.erase_sublist.map _), ?_, fun q a hq hnone ↦ ?_⟩
  · rw [hrelease, List.length_modify, hs.arenas]
  · rw [hrelease] at hq
    obtain ⟨b, hb, rfl⟩ := ArenaManager.arena_of_modify hq
    rw [← hs.flagged q b hb]
    split <;> rfl
  · rw [hnodup.mem_erase_iff, hs.holders, hreleased, ne_eq, Prod.mk.injEq]
    split
    · next hqp =>
      subst hqp
      simp [hholder, eq_comm]
    · next hqp => simp [hqp]
  · have hlen := List.length_erase_of_mem hheld
    have hpos := List.length_pos_of_mem hheld
    have htotal := hs.total
    rw [hrelease]
    dsimp only
    omega
  · rw [hrelease] at hq
    obtain ⟨b, hb, rfl⟩ := ArenaManager.arena_of_modify hq
    rw [hreleased] at hnone
    by_cases hqp : p = q
    · rw [if_pos hqp]
      rfl
    · rw [if_neg hqp]
      rw [if_neg (Ne.symm hqp)] at hnone
      exact hs.clean q b hb hnone

/-- An allocation leaves the arena its place in the pool. -/
theorem managementFlag_alloc (a : Arena) (sz align : UInt64) :
    (((a.alloc sz align).block?.map Prod.snd).getD a).managementFlag = a.managementFlag := by
  rw [Arena.alloc]
  split
  · rfl
  · split <;> rfl

/-- A holder's own allocation. -/
theorem Kept.alloc {h p : ℕ} (hs : s.Kept n) (hheld : (h, p) ∈ s.held) (sz align : UInt64) :
    Kept n { s with manager := s.manager.allocIn p sz align } := by
  have hholder := (hs.holders h p).mp hheld
  refine ⟨⟨hs.counted.length, hs.counted.count⟩, ?_, fun q a hq ↦ ?_, hs.holders, hs.exclusive,
    hs.total, fun q a hq hnone ↦ ?_⟩
  · rw [ArenaManager.allocIn, List.length_modify, hs.arenas]
  · obtain ⟨b, hb, rfl⟩ := ArenaManager.arena_of_modify hq
    rw [← hs.flagged q b hb]
    split
    · exact managementFlag_alloc b sz align
    · rfl
  · obtain ⟨b, hb, rfl⟩ := ArenaManager.arena_of_modify hq
    have hqp : p ≠ q := by
      rintro rfl
      exact Option.some_ne_none h (hholder.symm.trans hnone)
    rw [if_neg hqp]
    exact hs.clean q b hb hnone

theorem Kept.step {e : Event} (hs : s.Kept n) (he : s.ByHolder e) : (s.step e).Kept n := by
  cases e with
  | get h =>
    rw [Loans.step]
    split
    · exact hs
    · next hget => exact hs.get hget
  | release h arena =>
    cases arena with
    | none => exact hs
    | some p => exact hs.release (he p rfl)
  | alloc h p sz align => exact hs.alloc he sz align

/-- The pool of a fresh `create_arenas`. -/
def created (blocks : List UInt64) (capacity : UInt64) : Loans where
  manager := ArenaManager.createArenasFrom blocks capacity

private theorem kept_created (blocks : List UInt64) (capacity : UInt64) :
    (created blocks capacity).Kept blocks.length := by
  have hcounted := ArenaManager.counted_createArenas blocks capacity
  have hget : ∀ (p : ℕ) (a : Arena), (created blocks capacity).manager.arenas[p]? = some a →
      a.managementFlag = p ∧ a.offset = 0 := by
    intro p a hp
    rw [created, ArenaManager.createArenasFrom, List.getElem?_map, List.getElem?_zipIdx,
      Option.map_map, Option.map_eq_some_iff] at hp
    obtain ⟨b, -, rfl⟩ := hp
    exact ⟨Nat.zero_add p, Arena.offset_construct b capacity⟩
  refine ⟨⟨hcounted.length, hcounted.count⟩, ?_, fun p a hp ↦ (hget p a hp).1, fun h p ↦ ?_,
    List.nodup_nil, rfl, fun p a hp _ ↦ (hget p a hp).2⟩
  · rw [created, ArenaManager.createArenasFrom, List.length_map, List.length_zipIdx]
  · refine ⟨fun hmem ↦ absurd hmem List.not_mem_nil, fun hholder ↦ ?_⟩
    rw [ArenaManager.holder, Option.join_eq_some_iff] at hholder
    have hbit := List.mem_of_getElem? hholder
    obtain ⟨-, -, hnone⟩ := List.mem_map.mp hbit
    cases hnone

/-- **The pool discipline.** Whatever the holders do with the arenas they hold, in any order. -/
theorem always_disciplined (blocks : List UInt64) (capacity : UInt64) {events : List Event}
    (h : Meets step ByHolder (created blocks capacity) events) :
    Always step (Disciplined blocks.length) (created blocks capacity) events :=
  (h.always (fun _ _ hs he ↦ hs.step he) (kept_created blocks capacity)).mono
    fun _ hs ↦ hs.disciplined

/-- Three holders share two arenas: the third gets one when the first has given its own back. -/
theorem always_disciplined_two :
    Always step (Disciplined 2) (created [4096, 8192] 1024)
      [.get 1, .get 2, .get 3, .alloc 1 0 16 8, .release 1 (some 0), .get 3] :=
  always_disciplined [4096, 8192] 1024 (by decide +kernel)

end Loans

end Wasapi
