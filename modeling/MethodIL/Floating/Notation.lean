import MethodIL.Floating.Shortest
set_option autoImplicit false

/-!
# Written decimals

Two written forms of a floating-point number share the shortest digits.  `plain` never uses an
exponent and writes whole numbers without a point.  `exact` marks every number as fractional: a
whole number ends in `.0`, and a very large or very small one is written with an exponent.
-/

namespace MethodIL.Floating

/-- A run of zeros. -/
def zeros (n : Nat) : String :=
  String.ofList (List.replicate n '0')

namespace Decimal

/-- The digits as text. -/
def digitText (d : Decimal) : String :=
  toString d.digits

/-- The exponent of the leading digit. -/
def leading (d : Decimal) : Int :=
  d.exponent + d.digitText.length - 1

/-- Positional notation; a whole number is followed by `tail`. -/
def positional (tail : String) (d : Decimal) : String :=
  let text := d.digitText.toList
  if 0 ≤ d.exponent then
    d.digitText ++ zeros d.exponent.toNat ++ tail
  else if 0 ≤ d.leading then
    let whole := d.leading.toNat + 1
    String.ofList (text.take whole) ++ "." ++ String.ofList (text.drop whole)
  else
    "0." ++ zeros (-d.leading - 1).toNat ++ d.digitText

/-- One digit, the others behind a point, and the exponent of the first. -/
def scientific (d : Decimal) : String :=
  let text := d.digitText.toList
  let rest := text.drop 1
  String.ofList (text.take 1) ++ (if rest.isEmpty then "" else "." ++ String.ofList rest)
    ++ "e" ++ toString d.leading

end Decimal

/-- Put the sign in front. -/
def withSign (negative : Bool) (text : String) : String :=
  if negative then "-" ++ text else text

/-- The form without exponent and without a point on whole numbers. -/
def Value.plain : Value → String
  | .nan => "NaN"
  | .infinite negative => withSign negative "inf"
  | .zero negative => withSign negative "0"
  | .finite negative b => withSign negative (b.shortest.positional "")

/-- The form that tells a floating-point number from an integer.  Numbers from `10 ^ (-4)` up to,
but not including, `10 ^ 16` are positional. -/
def Value.exact : Value → String
  | .nan => "NaN"
  | .infinite negative => withSign negative "inf"
  | .zero negative => withSign negative "0.0"
  | .finite negative b =>
      let d := b.shortest
      withSign negative
        (if -4 ≤ d.leading && d.leading < 16 then d.positional ".0" else d.scientific)

end MethodIL.Floating
