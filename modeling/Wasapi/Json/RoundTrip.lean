import Wasapi.Json.PrintedText

/-!
# Printing and parsing back

Values without numbers survive `to_json` followed by `parse_json`: the printed text is a document
whose meaning is the value. What can fail is the printer, which computes the indentation of a line
in an `int`.

Objects are unordered maps, so values are compared up to the order of fields (`SameValue`).
-/

namespace Wasapi.Json

/-! ## Values

A map has no order, but its text does. Two values are compared up to the order of their fields, at
every level. -/

mutual

/-- Built from null, booleans, strings, arrays and objects. An object has no key twice. -/
def Plain : DynamicVariable → Prop
  | .null => True
  | .bool _ => True
  | .number _ => False
  | .string _ => True
  | .array a => PlainItems a
  | .object o => (o.map Prod.fst).Nodup ∧ PlainFields o

def PlainItems : List DynamicVariable → Prop
  | [] => True
  | v :: a => Plain v ∧ PlainItems a

def PlainFields : List (Bytes × DynamicVariable) → Prop
  | [] => True
  | (_, v) :: o => Plain v ∧ PlainFields o

end

mutual

/-- How many arrays and objects that are not empty lie within each other. -/
def nesting : DynamicVariable → ℕ
  | .null => 0
  | .bool _ => 0
  | .number _ => 0
  | .string _ => 0
  | .array a => if a.isEmpty then 0 else nestingItems a + 1
  | .object o => if o.isEmpty then 0 else nestingFields o + 1

def nestingItems : List DynamicVariable → ℕ
  | [] => 0
  | v :: a => max (nesting v) (nestingItems a)

def nestingFields : List (Bytes × DynamicVariable) → ℕ
  | [] => 0
  | (_, v) :: o => max (nesting v) (nestingFields o)

end

mutual

/-- The values are the same when the fields of an object are not ordered. -/
inductive SameValue : DynamicVariable → DynamicVariable → Prop
  | null : SameValue .null .null
  | bool (b : Bool) : SameValue (.bool b) (.bool b)
  | number (num : ℚ) : SameValue (.number num) (.number num)
  | string (s : Bytes) : SameValue (.string s) (.string s)
  | array {a a' : List DynamicVariable} : SameItems a a' → SameValue (.array a) (.array a')
  | object {o o₁ o' : List (Bytes × DynamicVariable)} : SameFields o o₁ → o₁.Perm o' →
    SameValue (.object o) (.object o')

inductive SameItems : List DynamicVariable → List DynamicVariable → Prop
  | nil : SameItems [] []
  | cons {v v' : DynamicVariable} {a a' : List DynamicVariable} : SameValue v v' →
    SameItems a a' → SameItems (v :: a) (v' :: a')

/-- The same keys in the same order, with the same values. -/
inductive SameFields : List (Bytes × DynamicVariable) → List (Bytes × DynamicVariable) → Prop
  | nil : SameFields [] []
  | cons (key : Bytes) {v v' : DynamicVariable} {o o' : List (Bytes × DynamicVariable)} :
    SameValue v v' → SameFields o o' → SameFields ((key, v) :: o) ((key, v') :: o')

end

/-! ## Printing and parsing

Values without numbers are a case of the general statement in which nothing is asked of numbers. -/

mutual

/-- A plain value has no numbers. -/
theorem plain_iff_holds : ∀ {v : DynamicVariable}, Plain v ↔ Holds (fun _ ↦ False) v
  | .null => Iff.rfl
  | .bool _ => Iff.rfl
  | .number _ => Iff.rfl
  | .string _ => Iff.rfl
  | .array _ => plainItems_iff_holds
  | .object _ => and_congr_right fun _ ↦ plainFields_iff_holds

private theorem plainItems_iff_holds : ∀ {a : List DynamicVariable},
    PlainItems a ↔ HoldsItems (fun _ ↦ False) a
  | [] => Iff.rfl
  | _ :: _ => and_congr plain_iff_holds plainItems_iff_holds

private theorem plainFields_iff_holds : ∀ {o : List (Bytes × DynamicVariable)},
    PlainFields o ↔ HoldsFields (fun _ ↦ False) o
  | [] => Iff.rfl
  | _ :: _ => and_congr plain_iff_holds plainFields_iff_holds

end

variable {pretty : Bool} {indent depth : ℕ} {t : Bytes}

/-- **A printed text is parsed to the value.** -/
theorem parseJson_toJson {v : DynamicVariable} (hv : Plain v)
    (h : toJson v pretty indent = some t) : parseJson t = .ok v := by
  have hnum : Written (fun _ ↦ False) fun _ ↦ False := fun _ hfalse ↦ hfalse.elim
  have hholds := plain_iff_holds.mp hv
  exact parseJson_toJson_of_holds hnum hholds hholds h

/-! ## When there is a text

The indentation of a line is its depth times the width, computed in `int`. The deepest line decides,
and a line is as deep as the arrays and objects around it that are not empty. -/

/-- The depth and the indentation of a line fit an `int`. -/
def Fits (pretty : Bool) (indent d : ℕ) : Prop :=
  d < 2 ^ 31 ∧ (pretty = true → d * indent < 2 ^ 31)

theorem Fits.mono {d d' : ℕ} (h : Fits pretty indent d') (hle : d ≤ d') : Fits pretty indent d :=
  ⟨hle.trans_lt h.1, fun hp ↦ (Nat.mul_le_mul_right indent hle).trans_lt (h.2 hp)⟩

private theorem fits_max {d d' : ℕ} :
    Fits pretty indent (max d d') ↔ Fits pretty indent d ∧ Fits pretty indent d' := by
  refine ⟨fun h ↦ ⟨h.mono (le_max_left d d'), h.mono (le_max_right d d')⟩, fun ⟨h, h'⟩ ↦ ?_⟩
  rcases max_choice d d' with heq | heq <;> rw [heq]
  · exact h
  · exact h'

private theorem isSome_indentFn (h : Fits pretty indent depth) :
    (indentFn pretty indent depth).isSome = true := by
  rw [indentFn]
  split
  · next hp => rw [Option.isSome_map, toInt, if_pos (h.2 hp), Option.isSome_some]
  · rfl

private theorem fits_of_isSome_indentFn {d : ℕ} (hd : d < 2 ^ 31)
    (h : (indentFn pretty indent d).isSome = true) : Fits pretty indent d := by
  refine ⟨hd, fun hp ↦ ?_⟩
  by_contra hlt
  rw [indentFn, if_pos hp, toInt, if_neg hlt] at h
  cases h

/-- The text of an array or object, from that of its items or fields. -/
theorem isSome_bracketed (h : Fits pretty indent depth) {body : ℕ → Option Bytes} {n : ℕ}
    (hind : (body (depth + 1)).isSome = true → (indentFn pretty indent (depth + 1)).isSome = true)
    (hbody : Fits pretty indent (depth + 1) →
      ((body (depth + 1)).isSome = true ↔ Fits pretty indent (depth + 1 + n)))
    (wrap : Bytes → Bytes → Bytes) :
    (((toInt (depth + 1)).bind fun d ↦ (body d).bind fun items ↦
        (indentFn pretty indent depth).bind fun ind ↦ some (wrap items ind)).isSome = true)
      ↔ Fits pretty indent (depth + (n + 1)) := by
  have hadd : depth + (n + 1) = depth + 1 + n := by omega
  rw [hadd, toInt]
  by_cases hdepth : depth + 1 < 2 ^ 31
  · rw [if_pos hdepth, Option.bind_some]
    obtain ⟨ind, hclose⟩ := Option.isSome_iff_exists.mp (isSome_indentFn h)
    have hsome : ((body (depth + 1)).bind fun items ↦ (indentFn pretty indent depth).bind fun ind ↦
        some (wrap items ind)).isSome = (body (depth + 1)).isSome := by
      rw [hclose]
      cases body (depth + 1) <;> rfl
    rw [hsome]
    constructor
    · intro hitems
      exact (hbody (fits_of_isSome_indentFn hdepth (hind hitems))).mp hitems
    · intro hfits
      exact (hbody (hfits.mono (Nat.le_add_right _ n))).mpr hfits
  · rw [if_neg hdepth, Option.bind_none]
    exact iff_of_false Bool.false_ne_true fun hfits ↦
      hdepth ((Nat.le_add_right _ n).trans_lt hfits.1)

/-- The text of an item or field and of those behind it. -/
theorem isSome_listed (h : Fits pretty indent depth) {text more : Option Bytes} {n m : ℕ}
    (htext : text.isSome = true ↔ Fits pretty indent (depth + n))
    (hmore : more.isSome = true ↔ Fits pretty indent (depth + m))
    (join : Bytes → Bytes → Bytes → Bytes) :
    (((indentFn pretty indent depth).bind fun ind ↦ text.bind fun t ↦ more.bind fun t' ↦
        some (join ind t t')).isSome = true)
      ↔ Fits pretty indent (depth + max n m) := by
  rw [← Nat.add_max_add_left, fits_max, ← htext, ← hmore]
  obtain ⟨ind, hind⟩ := Option.isSome_iff_exists.mp (isSome_indentFn h)
  rw [hind, Option.bind_some]
  cases text with
  | none => simp
  | some t => cases more <;> simp

mutual

/-- **A value has a text exactly if its deepest lines fit.** -/
theorem isSome_toJsonInner : ∀ (v : DynamicVariable) {depth : ℕ}, Fits pretty indent depth →
    ((toJsonInner pretty indent depth v).isSome = true ↔ Fits pretty indent (depth + nesting v))
  | .null, _, h => iff_of_true rfl h
  | .bool _, _, h => iff_of_true rfl h
  | .number _, _, h => iff_of_true rfl h
  | .string _, _, h => iff_of_true rfl h
  | .array [], _, h => iff_of_true rfl h
  | .array (v :: a), depth, h => by
    rw [toJsonInner, nesting, if_neg (by simp), if_neg (by simp)]
    refine isSome_bracketed h (fun hitems ↦ ?_) (fun h' ↦ isSome_itemsText (v :: a) h') _
    obtain ⟨t, ht⟩ := Option.isSome_iff_exists.mp hitems
    obtain ⟨ind, hind, -⟩ := Option.bind_eq_some_iff.mp (itemsText.eq_2 .. ▸ ht)
    rw [hind, Option.isSome_some]
  | .object [], _, h => iff_of_true rfl h
  | .object ((key, v) :: o), depth, h => by
    rw [toJsonInner, nesting, if_neg (by simp), if_neg (by simp)]
    refine isSome_bracketed h (fun hfields ↦ ?_) (fun h' ↦ isSome_fieldsText ((key, v) :: o) h') _
    obtain ⟨t, ht⟩ := Option.isSome_iff_exists.mp hfields
    obtain ⟨ind, hind, -⟩ := Option.bind_eq_some_iff.mp (fieldsText.eq_2 .. ▸ ht)
    rw [hind, Option.isSome_some]

private theorem isSome_itemsText :
    ∀ (a : List DynamicVariable) {depth : ℕ}, Fits pretty indent depth →
    ((itemsText pretty indent depth a).isSome = true
      ↔ Fits pretty indent (depth + nestingItems a))
  | [], _, h => iff_of_true rfl h
  | v :: a, depth, h => by
    rw [itemsText, nestingItems]
    exact isSome_listed h (isSome_toJsonInner v h) (isSome_itemsText a h) _

private theorem isSome_fieldsText : ∀ (o : List (Bytes × DynamicVariable)) {depth : ℕ},
    Fits pretty indent depth → ((fieldsText pretty indent depth o).isSome = true
      ↔ Fits pretty indent (depth + nestingFields o))
  | [], _, h => iff_of_true rfl h
  | (key, v) :: o, depth, h => by
    rw [fieldsText, nestingFields]
    exact isSome_listed h (isSome_toJsonInner v h) (isSome_fieldsText o h) _

end

private theorem isSome_toJson (v : DynamicVariable) (pretty : Bool) (indent : ℕ) :
    (toJson v pretty indent).isSome = true ↔ Fits pretty indent (nesting v) := by
  have h0 : Fits pretty indent 0 := ⟨by decide, fun _ ↦ by rw [Nat.zero_mul]; decide⟩
  rw [toJson, isSome_toJsonInner v h0, Nat.zero_add]

/-! ## The order of fields

The map is iterated in some order when it is printed, and the parser enters the fields in the order
of the text. Neither matters to the value. -/

private theorem holdsFields_iff {P : ℚ → Prop} {o : List (Bytes × DynamicVariable)} :
    HoldsFields P o ↔ ∀ f ∈ o, Holds P f.2 := by
  induction o with
  | nil => exact iff_of_true trivial fun f hf ↦ (nomatch hf)
  | cons f o ih => rw [HoldsFields, ih, List.forall_mem_cons]

private theorem nestingFields_perm {o o' : List (Bytes × DynamicVariable)} (h : o.Perm o') :
    nestingFields o = nestingFields o' := by
  induction h with
  | nil => rfl
  | cons f _ ih => rw [nestingFields, nestingFields, ih]
  | swap f f' o =>
    rw [nestingFields, nestingFields, nestingFields, nestingFields, max_left_comm]
  | trans _ _ ih ih' => exact ih.trans ih'

theorem SameFields.keys {o o' : List (Bytes × DynamicVariable)} (h : SameFields o o') :
    o'.map Prod.fst = o.map Prod.fst := by
  induction o generalizing o' with
  | nil =>
    cases h
    rfl
  | cons f o ih =>
    cases h with
    | cons key _ ho => rw [List.map_cons, List.map_cons, ih ho]

mutual

theorem SameValue.holds {P : ℚ → Prop} : ∀ {v v' : DynamicVariable}, SameValue v v' →
    (Holds P v ↔ Holds P v')
  | _, _, .null => Iff.rfl
  | _, _, .bool _ => Iff.rfl
  | _, _, .number _ => Iff.rfl
  | _, _, .string _ => Iff.rfl
  | _, _, .array ha => ha.holds
  | _, _, @SameValue.object o o₁ o' ho hperm => by
    have hkeys : (o.map Prod.fst).Nodup ↔ (o'.map Prod.fst).Nodup := by
      rw [← ho.keys]
      exact (hperm.map Prod.fst).nodup_iff
    have hfields : HoldsFields P o ↔ HoldsFields P o' := by
      rw [ho.holds, holdsFields_iff, holdsFields_iff]
      exact ⟨fun h f hf ↦ h f (hperm.mem_iff.mpr hf), fun h f hf ↦ h f (hperm.mem_iff.mp hf)⟩
    rw [Holds, Holds, hkeys, hfields]

theorem SameItems.holds {P : ℚ → Prop} : ∀ {a a' : List DynamicVariable}, SameItems a a' →
    (HoldsItems P a ↔ HoldsItems P a')
  | _, _, .nil => Iff.rfl
  | _, _, .cons hv ha => and_congr hv.holds ha.holds

theorem SameFields.holds {P : ℚ → Prop} : ∀ {o o' : List (Bytes × DynamicVariable)},
    SameFields o o' → (HoldsFields P o ↔ HoldsFields P o')
  | _, _, .nil => Iff.rfl
  | _, _, .cons _ hv ho => and_congr hv.holds ho.holds

end

theorem SameValue.plain {v v' : DynamicVariable} (h : SameValue v v') (hv : Plain v) :
    Plain v' := plain_iff_holds.mpr (h.holds.mp (plain_iff_holds.mp hv))

theorem SameItems.isEmpty {a a' : List DynamicVariable} (h : SameItems a a') :
    a'.isEmpty = a.isEmpty := by
  cases h <;> rfl

mutual

private theorem SameValue.nesting_eq : ∀ {v v' : DynamicVariable}, SameValue v v' →
    nesting v' = nesting v
  | _, _, .null => rfl
  | _, _, .bool _ => rfl
  | _, _, .number _ => rfl
  | _, _, .string _ => rfl
  | _, _, .array ha => by rw [nesting, nesting, ha.isEmpty, ha.nesting_eq]
  | _, _, @SameValue.object o _ o' ho hperm => by
    have hempty : o'.isEmpty = o.isEmpty := by
      rw [Bool.eq_iff_iff, List.isEmpty_iff_length_eq_zero, List.isEmpty_iff_length_eq_zero,
        ← hperm.length_eq, ← List.length_map Prod.fst, ho.keys, List.length_map]
    rw [nesting, nesting, hempty, ← nestingFields_perm hperm, ho.nesting_eq]

private theorem SameItems.nesting_eq : ∀ {a a' : List DynamicVariable}, SameItems a a' →
    nestingItems a' = nestingItems a
  | _, _, .nil => rfl
  | _, _, .cons hv ha => by rw [nestingItems, nestingItems, hv.nesting_eq, ha.nesting_eq]

private theorem SameFields.nesting_eq : ∀ {o o' : List (Bytes × DynamicVariable)}, SameFields o o' →
    nestingFields o' = nestingFields o
  | _, _, .nil => rfl
  | _, _, .cons _ hv ho => by rw [nestingFields, nestingFields, hv.nesting_eq, ho.nesting_eq]

end

/-- **The JSON round trip.** In whatever order the maps of `v` are iterated in (that of `v'`), `v`
is printed and parsed back exactly if its deepest lines fit. -/
theorem parseJson_toJson_iff {v v' : DynamicVariable} (hv : Plain v) (hsame : SameValue v v')
    (pretty : Bool) (indent : ℕ) :
    (∃ text out, toJson v' pretty indent = some text ∧ parseJson text = .ok out ∧ SameValue v out)
      ↔ nesting v < 2 ^ 31 ∧ (pretty = true → nesting v * indent < 2 ^ 31) := by
  have hfits := isSome_toJson v' pretty indent
  rw [hsame.nesting_eq] at hfits
  constructor
  · rintro ⟨text, out, htext, -⟩
    exact hfits.mp (by rw [htext, Option.isSome_some])
  · intro h
    obtain ⟨text, htext⟩ := Option.isSome_iff_exists.mp (hfits.mpr h)
    exact ⟨text, v', htext, parseJson_toJson (hsame.plain hv) htext, hsame⟩

def twoFields : DynamicVariable := .object [([97], .string [0, 34]), ([98], .array [.null])]

/-- The same fields in the other order. -/
def twoFieldsSwapped : DynamicVariable := .object [([98], .array [.null]), ([97], .string [0, 34])]

theorem parseJson_toJson_iff_twoFields :
    (∃ text out, toJson twoFieldsSwapped true 2 = some text ∧ parseJson text = .ok out ∧
        SameValue twoFields out)
      ↔ nesting twoFields < 2 ^ 31 ∧ (true = true → nesting twoFields * 2 < 2 ^ 31) := by
  have hfields : SameFields [([97], .string [0, 34]), ([98], .array [.null])]
      [([97], .string [0, 34]), ([98], .array [.null])] :=
    .cons _ (.string _) (.cons _ (.array (.cons .null .nil)) .nil)
  refine parseJson_toJson_iff ?_ (.object hfields (.swap _ _ _)) true 2
  exact ⟨by decide, trivial, ⟨trivial, trivial⟩, trivial⟩

/-- Two levels of indentation of 2 ^ 30 each are too much for an `int`. -/
theorem not_parseJson_toJson_wideIndent :
    ¬∃ text out, toJson (.array [.array [.null]]) true (2 ^ 30) = some text ∧
      parseJson text = .ok out ∧ SameValue (.array [.array [.null]]) out := by
  rintro ⟨text, out, htext, -⟩
  have hfits := (isSome_toJson (.array [.array [.null]]) true (2 ^ 30)).mp
    (by rw [htext, Option.isSome_some])
  exact absurd (hfits.2 rfl) (by decide)

end Wasapi.Json
