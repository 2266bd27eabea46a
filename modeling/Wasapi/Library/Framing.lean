import Mathlib

/-!
# Framed streams

A *framer* takes one item off the front of a buffer, or says that the buffer does not hold a whole
item yet. A loop that calls it until it gives up, keeps what is left and is called again when more
symbols have been appended computes the same items however the stream was cut.

Two facts about the single step are all that is needed, and they are carried as fields: an item
takes at least one symbol, and symbols appended behind a whole item do not change it.
-/

namespace Wasapi

variable {α φ σ : Type*}

/-- A step that takes one item off the front of a buffer. -/
structure Framer (α φ : Type*) where
  /-- The first item and what follows it, if the buffer starts with a whole item. -/
  next : List α → Option (φ × List α)
  /-- An item takes at least one symbol. -/
  length_lt : ∀ {b : List α} {f : φ} {r : List α}, next b = some (f, r) → r.length < b.length
  /-- What follows an item does not matter to it. -/
  next_append : ∀ {b : List α} {f : φ} {r : List α} (e : List α),
    next b = some (f, r) → next (b ++ e) = some (f, r ++ e)

namespace Framer

variable (F : Framer α φ)

/-- The whole items at the front of a buffer, at most `fuel` of them, and what follows them. -/
def splitFuel (F : Framer α φ) : ℕ → List α → List φ × List α
  | 0, b => ([], b)
  | fuel + 1, b =>
    match F.next b with
    | none => ([], b)
    | some (f, r) => (f :: (splitFuel F fuel r).1, (splitFuel F fuel r).2)

/-- The whole items at the front of a buffer. There are no more of them than symbols. -/
def frames (b : List α) : List φ := (F.splitFuel b.length b).1

/-- What follows the whole items at the front of a buffer. -/
def rest (b : List α) : List α := (F.splitFuel b.length b).2

theorem next_nil (F : Framer α φ) : F.next [] = none := by
  cases h : F.next [] with
  | none => rfl
  | some p => exact absurd (F.length_lt h) (by simp)

private theorem splitFuel_eq (F : Framer α φ) {m n : ℕ} {b : List α} (hm : b.length ≤ m)
    (hn : b.length ≤ n) : F.splitFuel m b = F.splitFuel n b := by
  induction m generalizing n b with
  | zero =>
    have hb : b = [] := List.eq_nil_of_length_eq_zero (by omega)
    cases n with
    | zero => rfl
    | succ n => rw [splitFuel, splitFuel, hb, F.next_nil]
  | succ m ih =>
    cases n with
    | zero =>
      have hb : b = [] := List.eq_nil_of_length_eq_zero (by omega)
      rw [splitFuel, splitFuel, hb, F.next_nil]
    | succ n =>
      rw [splitFuel, splitFuel]
      cases h : F.next b with
      | none => rfl
      | some p =>
        have hlt := F.length_lt h
        simp only [ih (n := n) (b := p.2) (by omega) (by omega)]

variable {F}

private theorem splitFuel_of_none {n : ℕ} {b : List α} (h : F.next b = none) :
    F.splitFuel n b = ([], b) := by
  cases n with
  | zero => rfl
  | succ n => rw [splitFuel, h]

private theorem splitFuel_of_some {b r : List α} {f : φ} (h : F.next b = some (f, r)) :
    F.splitFuel b.length b = (f :: F.frames r, F.rest r) := by
  have hlt := F.length_lt h
  obtain ⟨n, hn⟩ : ∃ n, b.length = n + 1 := ⟨b.length - 1, by omega⟩
  rw [hn, splitFuel, h]
  simp only [frames, rest, F.splitFuel_eq (m := n) (n := r.length) (by omega) le_rfl]

theorem frames_of_none {b : List α} (h : F.next b = none) : F.frames b = [] := by
  rw [frames, splitFuel_of_none h]

theorem rest_of_none {b : List α} (h : F.next b = none) : F.rest b = b := by
  rw [rest, splitFuel_of_none h]

theorem frames_of_some {b r : List α} {f : φ} (h : F.next b = some (f, r)) :
    F.frames b = f :: F.frames r := by
  rw [frames, splitFuel_of_some h]

theorem rest_of_some {b r : List α} {f : φ} (h : F.next b = some (f, r)) :
    F.rest b = F.rest r := by
  rw [rest, splitFuel_of_some h]

/-- Induction along the items of a buffer. -/
theorem buffer_induction (F : Framer α φ) {P : List α → Prop}
    (stop : ∀ b, F.next b = none → P b)
    (item : ∀ b f r, F.next b = some (f, r) → P r → P b) (b : List α) : P b := by
  induction hn : b.length using Nat.strong_induction_on generalizing b with
  | _ n ih =>
    cases h : F.next b with
    | none => exact stop b h
    | some p =>
      obtain ⟨f, r⟩ := p
      exact item b f r h (ih r.length (hn ▸ F.length_lt h) r rfl)

theorem next_rest (F : Framer α φ) (b : List α) : F.next (F.rest b) = none := by
  induction b using F.buffer_induction with
  | stop b h => rwa [rest_of_none h]
  | item b f r h ih => rwa [rest_of_some h]

/-! ## Cutting the stream

What has been taken off the front stays taken, so the items of a buffer with something appended are
those of the buffer and those of its rest with the same appended. The whole section follows from
this by induction on the chunks. -/

theorem frames_append (F : Framer α φ) (b e : List α) :
    F.frames (b ++ e) = F.frames b ++ F.frames (F.rest b ++ e) := by
  induction b using F.buffer_induction with
  | stop b h => rw [frames_of_none h, rest_of_none h, List.nil_append]
  | item b f r h ih =>
    rw [frames_of_some (F.next_append e h), frames_of_some h, rest_of_some h, ih, List.cons_append]

theorem rest_append (F : Framer α φ) (b e : List α) :
    F.rest (b ++ e) = F.rest (F.rest b ++ e) := by
  induction b using F.buffer_induction with
  | stop b h => rw [rest_of_none h]
  | item b f r h ih => rw [rest_of_some (F.next_append e h), rest_of_some h, ih]

/-- The items delivered when the stream arrives in `chunks` and the loop runs after each, and the
buffer at the end. -/
def deliver (F : Framer α φ) : List α → List (List α) → List φ × List α
  | buf, [] => ([], buf)
  | buf, c :: cs =>
    (F.frames (buf ++ c) ++ (deliver F (F.rest (buf ++ c)) cs).1,
      (deliver F (F.rest (buf ++ c)) cs).2)

/-- **Cuts do not matter.** A buffer left behind by the loop holds no whole item, and from such a
buffer every way of cutting the same stream delivers the same items and leaves the same rest. -/
theorem deliver_eq (F : Framer α φ) {buf : List α} (hbuf : F.next buf = none)
    (chunks : List (List α)) :
    F.deliver buf chunks = (F.frames (buf ++ chunks.flatten), F.rest (buf ++ chunks.flatten)) := by
  induction chunks generalizing buf with
  | nil => rw [deliver, List.flatten_nil, List.append_nil, frames_of_none hbuf, rest_of_none hbuf]
  | cons c cs ih =>
    rw [deliver, ih (F.next_rest _), List.flatten_cons, ← List.append_assoc,
      F.frames_append (buf ++ c), F.rest_append (buf ++ c)]

/-! ## Encoders

When a stream is written by an encoder whose every item is read back in front of anything, the items
of the stream are those that were written. Nothing else is asked of the encoder, so its choices
(padding, length forms, keys) may be part of the item. -/

section Encoders

variable {ψ : Type*}

/-- A list of encoded items is read back item by item, in front of whatever follows. -/
theorem frames_flatMap_map {enc : ψ → List α} {dec : ψ → φ} {fs : List ψ}
    (h : ∀ f ∈ fs, ∀ r, F.next (enc f ++ r) = some (dec f, r)) (tail : List α) :
    F.frames (fs.flatMap enc ++ tail) = fs.map dec ++ F.frames tail := by
  induction fs with
  | nil => rfl
  | cons f fs ih =>
    rw [List.flatMap_cons, List.append_assoc, frames_of_some (h f List.mem_cons_self _),
      ih fun g hg ↦ h g (List.mem_cons_of_mem f hg), List.map_cons, List.cons_append]

theorem rest_flatMap_map {enc : ψ → List α} {dec : ψ → φ} {fs : List ψ}
    (h : ∀ f ∈ fs, ∀ r, F.next (enc f ++ r) = some (dec f, r)) (tail : List α) :
    F.rest (fs.flatMap enc ++ tail) = F.rest tail := by
  induction fs with
  | nil => rfl
  | cons f fs ih =>
    rw [List.flatMap_cons, List.append_assoc, rest_of_some (h f List.mem_cons_self _),
      ih fun g hg ↦ h g (List.mem_cons_of_mem f hg)]

end Encoders

/-- `enc` writes items that the framer reads back. -/
def Reads (F : Framer α φ) (enc : φ → List α) (f : φ) : Prop :=
  ∀ r, F.next (enc f ++ r) = some (f, r)

theorem frames_flatMap {enc : φ → List α} {fs : List φ} (h : ∀ f ∈ fs, F.Reads enc f)
    (tail : List α) : F.frames (fs.flatMap enc ++ tail) = fs ++ F.frames tail := by
  rw [frames_flatMap_map h, List.map_id']

theorem rest_flatMap {enc : φ → List α} {fs : List φ} (h : ∀ f ∈ fs, F.Reads enc f)
    (tail : List α) : F.rest (fs.flatMap enc ++ tail) = F.rest tail :=
  rest_flatMap_map h tail

end Framer

end Wasapi
