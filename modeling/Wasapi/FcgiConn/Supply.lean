import Wasapi.FcgiConn.Housing
import Wasapi.Memory.Pool

/-!
# What requests take from the pool

As long as every arena holds a request, `allocate_request` fails only when no arena is available.
Then a turn of the record machine either handles its record, and a BEGIN_REQUEST has its request and
a new request its arena, or it is deferred because no arena is left.
-/

namespace Wasapi.FcgiConn

open Fastcgi

variable {cfg : GlobalConfig} {w : World} {n : ℕ}

/-! ## Room in the pool

Whether a request fits is a matter of the arena and not of the moment: an arena that is not in use
is reset before it is given out. So if all arenas have room at the start they have room for good. -/

/-- A request fits into every arena that is not in use. -/
structure Roomy (cfg : GlobalConfig) (m : ArenaManager) : Prop where
  length : m.inUse.length ≤ m.arenas.length
  clean {i : ℕ} {a : Arena} : m.arenas[i]? = some a → m.holder i = none → a.offset = 0
  fits {i : ℕ} {a : Arena} :
    m.arenas[i]? = some a → (a.reset.alloc cfg.sizeofRequest cfg.alignofRequest).block?.isSome

/-- Whether a block fits depends on where the arena begins, what it holds and what is taken. -/
theorem isSome_alloc {a b : Arena} (hdata : a.data = b.data) (hcapacity : a.capacity = b.capacity)
    (hoffset : a.offset = b.offset) (sz align : UInt64) :
    (a.alloc sz align).block?.isSome = (b.alloc sz align).block?.isSome := by
  have hclears (p : UInt64) : a.Clears p sz ↔ b.Clears p sz := by
    rw [Arena.Clears, Arena.Clears, hdata, hcapacity]
  simp only [Arena.alloc, hclears, hdata, hcapacity, hoffset]
  by_cases hlarge : b.capacity <
      ((b.data + b.offset + (align - 1)) &&& ~~~(align - 1)) - b.data + sz
  · rw [if_pos hlarge, if_pos hlarge]
  · rw [if_neg hlarge, if_neg hlarge]
    split
    · rfl
    · rfl

/-- What has been taken does not matter once the arena is reset. -/
theorem reset_alloc {a b : Arena} {sz align p : UInt64}
    (h : (a.alloc sz align).block? = some (p, b)) : b.reset = a.reset := by
  rw [Arena.alloc] at h
  split at h
  · cases h
  split at h
  · rw [Arena.Allocation.block?, Option.some.injEq, Prod.mk.injEq] at h
    rw [← h.2]
    rfl
  · cases h

theorem roomy_createArenas {bases : List UInt64} {capacity : UInt64}
    (h : ∀ base ∈ bases, (Arena.alloc { data := base, capacity := capacity } cfg.sizeofRequest
      cfg.alignofRequest).block?.isSome) : Roomy cfg (.createArenas bases capacity) := by
  have harena {i : ℕ} {a : Arena}
      (ha : (ArenaManager.createArenas bases capacity).arenas[i]? = some a) :
      ∃ base ∈ bases, a = { data := base, capacity := capacity, managementFlag := i } := by
    rw [ArenaManager.createArenas, List.getElem?_map, List.getElem?_zipIdx, Option.map_map,
      Option.map_eq_some_iff] at ha
    obtain ⟨base, hbase, rfl⟩ := ha
    exact ⟨base, List.mem_of_getElem? hbase, by simp⟩
  refine ⟨?_, fun ha _ ↦ ?_, fun ha ↦ ?_⟩
  · rw [ArenaManager.createArenas, List.length_map, List.length_map, List.length_zipIdx]
  · obtain ⟨base, -, rfl⟩ := harena ha
    rfl
  · obtain ⟨base, hbase, rfl⟩ := harena ha
    refine (isSome_alloc ?_ ?_ ?_ _ _).trans (h base hbase)
    · rfl
    · rfl
    · rfl

theorem Roomy.get {m m' : ArenaManager} {h i : ℕ} (hm : Roomy cfg m)
    (hget : m.get h = some (i, m')) : Roomy cfg m' := by
  obtain ⟨harenas, -⟩ := ArenaManager.arenas_get hget
  refine ⟨?_, fun ha hfree ↦ ?_, fun ha ↦ hm.fits (harenas ▸ ha)⟩
  · rw [ArenaManager.get] at hget
    split at hget
    · cases hget
    · rw [Option.some.injEq, Prod.mk.injEq] at hget
      obtain ⟨-, rfl⟩ := hget
      rw [List.length_set]
      exact hm.length
  · rw [ArenaManager.holder_get hget] at hfree
    split at hfree
    · cases hfree
    · exact hm.clean (harenas ▸ ha) hfree

theorem Roomy.release {m : ArenaManager} (hm : Roomy cfg m) (i : ℕ) : Roomy cfg (m.release i) := by
  cases hheld : m.holder i with
  | none =>
    have hsame : m.release i = m := by
      rw [ArenaManager.release]
      split
      · next hused =>
        rw [ArenaManager.holder, hused, Option.join_some] at hheld
        cases hheld
      · rfl
    rwa [hsame]
  | some h =>
    have hholder := ArenaManager.holder_release m i
    rw [ArenaManager.release_of_holder hheld] at hholder ⊢
    refine ⟨?_, fun {j a} ha hfree ↦ ?_, fun {j a} ha ↦ ?_⟩
    · rw [List.length_set, List.length_modify]
      exact hm.length
    · obtain ⟨b, hb, rfl⟩ := ArenaManager.arena_of_modify ha
      rw [hholder] at hfree
      by_cases hij : i = j
      · rw [if_pos hij]
        rfl
      · rw [if_neg hij]
        rw [if_neg (Ne.symm hij)] at hfree
        exact hm.clean hb hfree
    · obtain ⟨b, hb, rfl⟩ := ArenaManager.arena_of_modify ha
      have hfits := hm.fits hb
      split
      · exact hfits
      · exact hfits

/-- The pool of a server in which every arena holds a request. -/
structure Pooled (cfg : GlobalConfig) (n : ℕ) (m : ArenaManager) : Prop where
  counted : m.Counted n
  roomy : Roomy cfg m

theorem Pooled.release {m : ArenaManager} (h : Pooled cfg n m) (i : ℕ) :
    Pooled cfg n (m.release i) := ⟨h.counted.release i, h.roomy.release i⟩

theorem Pooled.get {m m' : ArenaManager} {h i : ℕ} (hm : Pooled cfg n m)
    (hget : m.get h = some (i, m')) : Pooled cfg n m' :=
  ⟨(hm.counted.get hget).1, hm.roomy.get hget⟩

/-- **An allocation fails only when no arena is available**, and takes one otherwise. -/
theorem Pooled.allocateRequest (h : Pooled cfg n w.arenas) (io : ConnRef) (id : UInt16) :
    (FcgiConn.allocateRequest cfg io id w = (none, w) ∧ w.available = 0) ∨
    ∃ r w', FcgiConn.allocateRequest cfg io id w = (some r, w') ∧ Pooled cfg n w'.arenas ∧
      w'.available < w.available := by
  rw [FcgiConn.allocateRequest]
  cases hget : w.arenas.get w.nextHandle with
  | none =>
    refine .inl ⟨rfl, ?_⟩
    rw [ArenaManager.get_eq_none_iff] at hget
    rw [World.available, ← Nat.le_zero, ← Nat.not_lt]
    intro hpos
    rw [h.counted.count, List.count_pos_iff, List.mem_iff_getElem] at hpos
    obtain ⟨i, hi, hnone⟩ := hpos
    refine hget i hi ?_
    rw [ArenaManager.holder, List.getElem?_eq_getElem hi, hnone, Option.join_some]
  | some p =>
    obtain ⟨i, m⟩ := p
    right
    have hm := h.get hget
    obtain ⟨harenas, havailable⟩ := ArenaManager.arenas_get hget
    have hfree := ArenaManager.holder_of_get hget
    have hi := (h.counted.get hget).2
    have hpos := h.counted.pos hi hfree
    -- the arena is there and empty, so the request fits
    have hlt : i < w.arenas.arenas.length :=
      (h.counted.length.symm ▸ hi : i < w.arenas.inUse.length).trans_le h.roomy.length
    have hlookup : m.arenas[i]? = some w.arenas.arenas[i] := by
      rw [harenas, List.getElem?_eq_getElem hlt]
    have hreset : w.arenas.arenas[i].reset = w.arenas.arenas[i] := by
      rw [Arena.reset, ← h.roomy.clean (List.getElem?_eq_getElem hlt) hfree]
    have hfits := h.roomy.fits (List.getElem?_eq_getElem hlt)
    rw [hreset, Option.isSome_iff_exists] at hfits
    obtain ⟨⟨p, a⟩, halloc⟩ := hfits
    simp only [hlookup, Option.bind_some, halloc]
    refine ⟨_, _, rfl, ⟨⟨hm.counted.length, hm.counted.count⟩, ?_⟩, ?_⟩
    · refine ⟨?_, fun {j b} hb hnone ↦ ?_, fun {j b} hb ↦ ?_⟩
      · rw [List.length_set]
        exact hm.roomy.length
      · have hij : i ≠ j := by
          rintro rfl
          have hheld := ArenaManager.holder_get hget i
          rw [if_pos rfl] at hheld
          cases hheld.symm.trans hnone
        rw [List.getElem?_set_ne hij] at hb
        exact hm.roomy.clean hb hnone
      · by_cases hij : i = j
        · subst hij
          rw [List.getElem?_set_self (harenas ▸ hlt), Option.some.injEq] at hb
          rw [← hb, reset_alloc halloc]
          exact h.roomy.fits (List.getElem?_eq_getElem hlt)
        · rw [List.getElem?_set_ne hij] at hb
          exact hm.roomy.fits hb
    · simp only [World.available, havailable]
      exact Nat.sub_lt hpos Nat.one_pos

/-! ## What the record machine takes

The number of free arenas goes down whenever a request appears. A record is handled, or finds no
arena; there is no third way. -/

/-- The record opens a request. -/
def Opens (rec : Record) : Prop :=
  rec.type = FCGI_BEGIN_REQUEST ∧ beginRequestBodySize ≤ rec.content.length

theorem Opens.recordBody {limits : Limits} {rec : Record} (h : Opens rec) :
    Fastcgi.recordBody limits rec ≠ none := by
  rw [Fastcgi.recordBody, if_pos h.1, if_pos h.2]
  exact Option.some_ne_none _

/-- No request is lost on the way from `m` to `m'`, and a new one has taken an arena. -/
structure Spends (m m' : Machine World) : Prop where
  kept {id} : id ∈ m.requests → id ∈ m'.requests
  available : m'.ext.available ≤ m.ext.available
  taken {id} : id ∈ m'.requests → id ∉ m.requests → m'.ext.available < m.ext.available

theorem Spends.refl (m : Machine World) : Spends m m := ⟨id, le_rfl, fun h hn ↦ absurd h hn⟩

/-- The requests map and the pool behind the switch and the ready check. -/
theorem touch_spec (cfg : GlobalConfig) (io : ConnRef) (id : UInt16)
    (body : RequestCore → Bytes → RequestCore × Bytes) (r : Request) (m : Machine World) :
    (∀ i, i ∈ (touch (callbacks cfg io) id body r m).requests ↔ i = id ∨ i ∈ m.requests) ∧
      (touch (callbacks cfg io) id body r m).ext.arenas = m.ext.arenas := by
  rw [touch]
  split
  · exact ⟨fun i ↦ AList.mem_insert _, arenas_internalOnRequestReady cfg _ m.ext⟩
  · exact ⟨fun i ↦ AList.mem_insert _, rfl⟩

/-- **One turn.** The record is handled, and if it opens a request the request is there; or there
is no arena for it. -/
theorem turn_spends (limits : Limits) (io : ConnRef) {m : Machine World}
    (h : Pooled cfg n m.ext.arenas) (rec : Record) :
    (∃ m', processRecord limits (callbacks cfg io) rec m = .next m' ∧ Spends m m' ∧
      Pooled cfg n m'.ext.arenas ∧ (Opens rec → rec.requestId ∈ m'.requests)) ∨
    (processRecord limits (callbacks cfg io) rec m = .deferred m ∧ Opens rec ∧
      rec.requestId ∉ m.requests ∧ m.ext.available = 0) := by
  have halloc := h.allocateRequest io rec.requestId
  rcases processRecord_cases limits (callbacks cfg io) rec m with ⟨hnone, hrec⟩ |
    ⟨body, r, -, hr, hrec⟩ | ⟨body, nr, w', -, hr, heq, hrec⟩ | ⟨body, w', hbody, hr, heq, hrec⟩
  · exact .inl ⟨m, hrec, .refl m, h, fun hopens ↦ absurd hnone hopens.recordBody⟩
  · -- its request is there
    obtain ⟨hmem, harenas⟩ := touch_spec cfg io rec.requestId body r m
    have hid : rec.requestId ∈ m.requests := AList.lookup_isSome.mp (by rw [hr]; rfl)
    refine .inl ⟨_, hrec, ⟨fun hi ↦ (hmem _).mpr (.inr hi), ?_, fun hi hnew ↦ ?_⟩, ?_, fun _ ↦ ?_⟩
    · rw [World.available, harenas, ← World.available]
    · rcases (hmem _).mp hi with rfl | hi
      · exact absurd hid hnew
      · exact absurd hi hnew
    · exact harenas.symm ▸ h
    · exact (hmem _).mpr (.inl rfl)
  · -- it is allocated
    obtain ⟨hmem, harenas⟩ := touch_spec cfg io rec.requestId body nr
      { m with requests := m.requests.insert rec.requestId nr, ext := w' }
    have hlt : Pooled cfg n w'.arenas ∧ w'.available < m.ext.available := by
      rcases halloc with ⟨hfail, -⟩ | ⟨r, v, hsome, hpooled, hlt⟩
      · cases hfail.symm.trans heq
      · cases hsome.symm.trans heq
        exact ⟨hpooled, hlt⟩
    have havailable : (touch (callbacks cfg io) rec.requestId body nr
        { m with requests := m.requests.insert rec.requestId nr, ext := w' }).ext.available
          < m.ext.available := by
      rw [World.available, harenas]
      exact hlt.2
    refine .inl ⟨_, hrec, ⟨fun hi ↦ ?_, havailable.le, fun _ _ ↦ havailable⟩, ?_, fun _ ↦ ?_⟩
    · exact (hmem _).mpr (.inr ((AList.mem_insert _).mpr (.inr hi)))
    · exact harenas.symm ▸ hlt.1
    · exact (hmem _).mpr (.inl rfl)
  · -- no arena for one
    have hsame : w' = m.ext ∧ m.ext.available = 0 := by
      rcases halloc with ⟨hfail, hzero⟩ | ⟨r, v, hsome, -⟩
      · cases hfail.symm.trans heq
        exact ⟨rfl, hzero⟩
      · cases hsome.symm.trans heq
    obtain ⟨rfl, hzero⟩ := hsame
    have hid : rec.requestId ∉ m.requests := AList.lookup_eq_none.mp hr
    by_cases htype : rec.type = FCGI_BEGIN_REQUEST
    · rw [if_pos htype] at hrec
      refine .inr ⟨hrec, ⟨htype, ?_⟩, hid, hzero⟩
      by_contra hshort
      rw [recordBody, if_pos htype, if_neg hshort] at hbody
      cases hbody
    · rw [if_neg htype] at hrec
      exact .inl ⟨m, hrec, .refl m, h, fun hopens ↦ absurd hopens.1 htype⟩

end Wasapi.FcgiConn
