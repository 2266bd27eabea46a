import Wasapi.Json.IntegerText
import Wasapi.Json.RoundTrip

/-!
# Integers printed and parsed back

A value whose numbers are integers survives `to_json` followed by `parse_json` exactly if its
integers have at most six digits. One longer integer, however deep, makes the text of the whole
value unreadable: it is printed with an exponent.

What is printed is a document of the grammar, so that the proof only has to build its syntax tree.
-/

namespace Wasapi.Json

/-- All numbers are integers. -/
def Integral (v : DynamicVariable) : Prop := Holds (fun num ↦ ∃ n : ℤ, num = n) v

/-- All numbers have at most six digits. -/
def SixDigits (v : DynamicVariable) : Prop := Holds (fun num ↦ |num| < 10 ^ 6) v

/-- Integers are written as numbers of the grammar. -/
theorem written_integers :
    Written (fun num ↦ ∃ n : ℤ, num = n) fun num ↦ |num| < 10 ^ 6 := by
  rintro num ⟨n, rfl⟩
  obtain ⟨k, htext, hread, hvalue⟩ := exists_number_formatNumber n
  have hsix : |(n : ℚ)| < 10 ^ 6 ↔ n.natAbs < 10 ^ 6 := by
    rw [abs_intCast]
    exact_mod_cast Iff.rfl
  exact ⟨k, htext, hread.trans hsix.symm, fun h ↦ hvalue (hsix.mp h)⟩

/-- **Integers printed and parsed back.** In whatever order the maps of `v` are iterated in (that of
`v'`), the text of a value that holds integers is parsed to it exactly if no integer has more than
six digits. -/
theorem parseJson_toJson_integers_iff {v v' : DynamicVariable} (hv : Integral v)
    (hsame : SameValue v v') {pretty : Bool} {indent : ℕ} {text : Bytes}
    (htext : toJson v' pretty indent = some text) :
    (∃ out, parseJson text = .ok out ∧ SameValue v out) ↔ SixDigits v := by
  have hv' : Holds (fun num ↦ ∃ n : ℤ, num = n) v' := hsame.holds.mp hv
  constructor
  · rintro ⟨out, hout, -⟩
    exact hsame.holds.mpr (holds_of_parseJson_toJson written_integers hv' htext hout)
  · intro h
    have hsix : Holds (fun num ↦ |num| < 10 ^ 6) v' := hsame.holds.mp h
    exact ⟨v', parseJson_toJson_of_holds written_integers hv' hsix htext, hsame⟩

/-- A session with a counter and the numbers of two visits. -/
def visits : DynamicVariable :=
  .object [([110], .number 42), ([118], .array [.number (-7), .number 999999])]

/-- The same fields in the other order. -/
def visitsSwapped : DynamicVariable :=
  .object [([118], .array [.number (-7), .number 999999]), ([110], .number 42)]

theorem parseJson_toJson_integers_iff_visits :
    (∃ out, parseJson (ascii "\x7b\"v\":[-7,999999],\"n\":42\x7d") = .ok out ∧ SameValue visits out)
      ↔ SixDigits visits := by
  have hfields : SameFields
      [([110], .number 42), ([118], .array [.number (-7), .number 999999])]
      [([110], .number 42), ([118], .array [.number (-7), .number 999999])] :=
    .cons _ (.number _) (.cons _ (.array (.cons (.number _) (.cons (.number _) .nil))) .nil)
  have hsame : SameValue visits visitsSwapped := .object hfields (.swap _ _ _)
  have hv : Integral visits := by
    refine ⟨by decide, ⟨42, rfl⟩, ⟨⟨-7, by norm_num⟩, ⟨999999, by norm_num⟩, trivial⟩, trivial⟩
  have htext :
      toJson visitsSwapped false 0 = some (ascii "\x7b\"v\":[-7,999999],\"n\":42\x7d") := by
    decide +kernel
  exact parseJson_toJson_integers_iff hv hsame htext

/-- A million is printed as `1e+06`, which is not parsed. -/
theorem not_parseJson_toJson_million :
    toJson (.number ((1000000 : ℤ) : ℚ)) false 0 = some (ascii "1e+06")
      ∧ ¬∃ out, parseJson (ascii "1e+06") = .ok out
        ∧ SameValue (.number ((1000000 : ℤ) : ℚ)) out := by
  have herror : (parseJson (ascii "1e+06")).toOption.isNone = true := by decide +kernel
  refine ⟨by decide +kernel, ?_⟩
  rintro ⟨out, hout, -⟩
  rw [hout] at herror
  exact Bool.false_ne_true herror

end Wasapi.Json
