import Wasapi.Json.RoundTrip
import Wasapi.Json.SixDigits

/-!
# What is left after one round trip

Printing rounds a number to six digits, so that a value with other numbers is not read back as it
was. But it has lost all it can lose then: the value that has been read is printed as the same text
again, and is read back as it is from now on.
-/

namespace Wasapi.Json

/-! ## Other numbers in the same value

The printer looks at a number through its text only. So numbers can be exchanged for others with the
same text, wherever they stand. -/

mutual

/-- The value with other numbers. -/
def mapNumbers (r : ℚ → ℚ) : DynamicVariable → DynamicVariable
  | .null => .null
  | .bool b => .bool b
  | .number num => .number (r num)
  | .string s => .string s
  | .array a => .array (mapItems r a)
  | .object o => .object (mapFields r o)

def mapItems (r : ℚ → ℚ) : List DynamicVariable → List DynamicVariable
  | [] => []
  | v :: a => mapNumbers r v :: mapItems r a

def mapFields (r : ℚ → ℚ) : List (Bytes × DynamicVariable) → List (Bytes × DynamicVariable)
  | [] => []
  | (key, v) :: o => (key, mapNumbers r v) :: mapFields r o

end

private theorem keys_mapFields (r : ℚ → ℚ) (o : List (Bytes × DynamicVariable)) :
    (mapFields r o).map Prod.fst = o.map Prod.fst := by
  induction o with
  | nil => rfl
  | cons f o ih => rw [mapFields, List.map_cons, List.map_cons, ih]

private theorem isEmpty_mapItems (r : ℚ → ℚ) (a : List DynamicVariable) :
    (mapItems r a).isEmpty = a.isEmpty := by
  cases a <;> rfl

private theorem isEmpty_mapFields (r : ℚ → ℚ) (o : List (Bytes × DynamicVariable)) :
    (mapFields r o).isEmpty = o.isEmpty := by
  cases o <;> rfl

mutual

private theorem holds_mapNumbers {P : ℚ → Prop} {r : ℚ → ℚ} : ∀ {v : DynamicVariable},
    Holds P (mapNumbers r v) ↔ Holds (fun num ↦ P (r num)) v
  | .null => Iff.rfl
  | .bool _ => Iff.rfl
  | .number _ => Iff.rfl
  | .string _ => Iff.rfl
  | .array _ => holdsItems_mapItems
  | .object o => by
    rw [mapNumbers, Holds, Holds, keys_mapFields]
    exact and_congr_right fun _ ↦ holdsFields_mapFields

private theorem holdsItems_mapItems {P : ℚ → Prop} {r : ℚ → ℚ} : ∀ {a : List DynamicVariable},
    HoldsItems P (mapItems r a) ↔ HoldsItems (fun num ↦ P (r num)) a
  | [] => Iff.rfl
  | _ :: _ => and_congr holds_mapNumbers holdsItems_mapItems

private theorem holdsFields_mapFields {P : ℚ → Prop} {r : ℚ → ℚ} :
    ∀ {o : List (Bytes × DynamicVariable)},
    HoldsFields P (mapFields r o) ↔ HoldsFields (fun num ↦ P (r num)) o
  | [] => Iff.rfl
  | _ :: _ => and_congr holds_mapNumbers holdsFields_mapFields

end

mutual

theorem Holds.mono {P Q : ℚ → Prop} (hPQ : ∀ num, P num → Q num) : ∀ {v : DynamicVariable},
    Holds P v → Holds Q v
  | .null, _ => trivial
  | .bool _, _ => trivial
  | .number num, h => hPQ num h
  | .string _, _ => trivial
  | .array _, h => HoldsItems.mono hPQ h
  | .object _, h => ⟨h.1, HoldsFields.mono hPQ h.2⟩

theorem HoldsItems.mono {P Q : ℚ → Prop} (hPQ : ∀ num, P num → Q num) :
    ∀ {a : List DynamicVariable}, HoldsItems P a → HoldsItems Q a
  | [], _ => trivial
  | _ :: _, h => ⟨Holds.mono hPQ h.1, HoldsItems.mono hPQ h.2⟩

theorem HoldsFields.mono {P Q : ℚ → Prop} (hPQ : ∀ num, P num → Q num) :
    ∀ {o : List (Bytes × DynamicVariable)}, HoldsFields P o → HoldsFields Q o
  | [], _ => trivial
  | _ :: _, h => ⟨Holds.mono hPQ h.1, HoldsFields.mono hPQ h.2⟩

end

variable {pretty : Bool} {indent : ℕ}

mutual

/-- Numbers with the same text do not change the text of the value. -/
theorem toJsonInner_mapNumbers {r : ℚ → ℚ} (hr : ∀ num, formatNumber (r num) = formatNumber num) :
    ∀ (depth : ℕ) (v : DynamicVariable),
    toJsonInner pretty indent depth (mapNumbers r v) = toJsonInner pretty indent depth v
  | _, .null => rfl
  | _, .bool _ => rfl
  | _, .number num => congrArg some (hr num)
  | _, .string _ => rfl
  | depth, .array a => by
    rw [mapNumbers, toJsonInner, toJsonInner, isEmpty_mapItems]
    simp only [fun d ↦ itemsText_mapItems hr d a]
  | depth, .object o => by
    rw [mapNumbers, toJsonInner, toJsonInner, isEmpty_mapFields]
    simp only [fun d ↦ fieldsText_mapFields hr d o]

private theorem itemsText_mapItems {r : ℚ → ℚ}
    (hr : ∀ num, formatNumber (r num) = formatNumber num) :
    ∀ (depth : ℕ) (a : List DynamicVariable),
    itemsText pretty indent depth (mapItems r a) = itemsText pretty indent depth a
  | _, [] => rfl
  | depth, v :: a => by
    rw [mapItems, itemsText, itemsText, isEmpty_mapItems, toJsonInner_mapNumbers hr depth v,
      itemsText_mapItems hr depth a]

private theorem fieldsText_mapFields {r : ℚ → ℚ}
    (hr : ∀ num, formatNumber (r num) = formatNumber num) :
    ∀ (depth : ℕ) (o : List (Bytes × DynamicVariable)),
    fieldsText pretty indent depth (mapFields r o) = fieldsText pretty indent depth o
  | _, [] => rfl
  | depth, (key, v) :: o => by
    rw [mapFields, fieldsText, fieldsText, isEmpty_mapFields, toJsonInner_mapNumbers hr depth v,
      fieldsText_mapFields hr depth o]

end

/-! ## Round trips

A number that has been read has the digits it was written with, and is read again as it is. So
whatever is lost is lost the first time. -/

/-- The number needs an exponent, or is read back as it is. -/
def Settled (num : ℚ) : Prop := ¬Fixed num ∨ reread num = num

private theorem settled_reread (num : ℚ) : Settled (reread num) := .inr (reread_reread num)

/-- A settled number is written as one of the grammar, and read back if it needs no exponent. -/
theorem written_settled : Written Settled Fixed := by
  intro num hnum
  by_cases hfixed : Fixed num
  · have hreread : reread num = num := hnum.resolve_left (not_not_intro hfixed)
    obtain ⟨k, htext, hexp, hdouble⟩ : ∃ k : JsonNumber, k.text = formatNumber num ∧
        k.exp = none ∧ toDouble k.value = some num := by
      by_cases hzero : num = 0
      · obtain ⟨k, htext, hread, hvalue⟩ := exists_number_formatNumber 0
        rw [Int.cast_zero] at htext hvalue
        subst hzero
        exact ⟨k, htext, (hread.mpr (by decide)).1, hvalue (by decide)⟩
      · obtain ⟨hlo, hhi⟩ := hfixed.resolve_left hzero
        obtain ⟨k, htext, hexp, hvalue⟩ := exists_number_fixed hzero hlo hhi
        refine ⟨k, htext, hexp, ?_⟩
        rw [hvalue, (reread_spec hzero hfixed).1, hreread]
    refine ⟨k, htext, iff_of_true ⟨hexp, ?_⟩ hfixed, fun _ ↦ hdouble⟩
    rw [hdouble, Option.isSome_some]
  · obtain ⟨k, htext, hexp⟩ := exists_number_exponent hfixed
    exact ⟨k, htext, iff_of_false (fun hread ↦ hexp hread.1) hfixed, fun h ↦ absurd h hfixed⟩

/-- **One round trip is enough.** The text of a value is accepted exactly if no number is written
with an exponent. What is read then has every number to one part in a hundred thousand, is printed
as the same texts, and in whatever order its maps are iterated in, it is printed and read back as it
is. -/
theorem parseJson_toJson_settles {v : DynamicVariable} (hv : Holds (fun _ ↦ True) v) {text : Bytes}
    (htext : toJson v pretty indent = some text) :
    ((∃ out, parseJson text = .ok out) ↔
        Holds (fun num ↦ num = 0 ∨ (9999995 / 10 ^ 11 ≤ |num| ∧ |num| < 9999995 / 10)) v) ∧
      ∀ out, parseJson text = .ok out →
        out = mapNumbers reread v ∧
        Holds (fun num ↦ |reread num - num| ≤ |num| / 10 ^ 5) v ∧
        (∀ pretty' indent', toJson out pretty' indent' = toJson v pretty' indent') ∧
        ∀ out', SameValue out out' → ∀ pretty' indent' text',
          toJson out' pretty' indent' = some text' → parseJson text' = .ok out' := by
  simp only [← fixed_iff]
  have hsame (pretty : Bool) (indent : ℕ) :
      toJson (mapNumbers reread v) pretty indent = toJson v pretty indent :=
    toJsonInner_mapNumbers formatNumber_reread 0 v
  have hsettled : Holds Settled (mapNumbers reread v) :=
    holds_mapNumbers.mpr (Holds.mono (fun num _ ↦ settled_reread num) hv)
  have hfixed : Holds Fixed (mapNumbers reread v) ↔ Holds Fixed v := by
    simp only [holds_mapNumbers, fixed_reread]
  have htext' : toJson (mapNumbers reread v) pretty indent = some text :=
    (hsame pretty indent).trans htext
  have hread (hF : Holds Fixed (mapNumbers reread v)) :
      parseJson text = .ok (mapNumbers reread v) :=
    parseJson_toJson_of_holds written_settled hsettled hF htext'
  refine ⟨⟨fun ⟨out, hout⟩ ↦ ?_, fun h ↦ ⟨_, hread (hfixed.mpr h)⟩⟩, fun out hout ↦ ?_⟩
  · exact hfixed.mp (holds_of_parseJson_toJson written_settled hsettled htext' hout)
  · have hF := holds_of_parseJson_toJson written_settled hsettled htext' hout
    obtain rfl : mapNumbers reread v = out := Except.ok.inj ((hread hF).symm.trans hout)
    refine ⟨rfl, Holds.mono (fun num _ ↦ abs_reread_sub_le num) hv, hsame, ?_⟩
    intro out' hout' pretty' indent' text' htext'
    exact parseJson_toJson_of_holds written_settled (hout'.holds.mp hsettled)
      (hout'.holds.mp hF) htext'

/-- A value that is not read back as it was. -/
def third : DynamicVariable := .array [.number (1 / 3), .null]

theorem parseJson_toJson_settles_third :
    ∃ out, parseJson (ascii "[0.333333,null]") = .ok out ∧
      toJson out true 2 = toJson third true 2 := by
  have htext : toJson third false 0 = some (ascii "[0.333333,null]") := by decide +kernel
  have hsettles := parseJson_toJson_settles (v := third) ⟨trivial, trivial, trivial⟩ htext
  obtain ⟨out, hout⟩ := hsettles.1.mpr ⟨.inr (by norm_num [abs_of_pos]), trivial, trivial⟩
  exact ⟨out, hout, (hsettles.2 out hout).2.2.1 true 2⟩

end Wasapi.Json
