set_option autoImplicit false

/-!
# Text of numbers

Hexadecimal digits padded to a width, decimal numbers with an explicit sign, and lists in
brackets.  Every message and listing of the library is put together from these.
-/

namespace MethodIL.Text

/-- The base sixteen digits of `n` in lower case, with leading zeros up to `width`. -/
def hex (width n : Nat) : String :=
  let digits := Nat.toDigits 16 n
  String.ofList (List.replicate (width - digits.length) '0' ++ digits)

/-- The base sixteen digits of `n` in upper case, with leading zeros up to `width`. -/
def hexUpper (width n : Nat) : String :=
  (hex width n).toUpper

/-- Eight bits as two digits each, in order. -/
def hexBytes (bytes : List UInt8) : String :=
  String.join (bytes.map fun b => hex 2 b.toNat)

/-- An integer in decimal that shows its sign even when it is not negative. -/
def signed (n : Int) : String :=
  if 0 ≤ n then "+" ++ toString n else toString n

/-- Items separated by a comma and a blank. -/
def commaList (items : List String) : String :=
  ", ".intercalate items

/-- Items in square brackets. -/
def bracketed (items : List String) : String :=
  "[" ++ commaList items ++ "]"

end MethodIL.Text
