import Mathlib

/-!
# Amounts as text (`cryptonote_format_utils.cpp`)

`print_money` writes an amount of atomic units as a decimal number with `decimal_point`
fraction digits: `std::to_string` of the amount, zeros in front up to one integer digit, and
the point before the last `decimal_point` digits. `parse_amount` reads one back at the
default decimal point: it trims the white space, drops the trailing zeros of the fraction past
`default_decimal_point` digits and refuses a longer fraction, erases the point, pads the
fraction with zeros to `default_decimal_point` digits, and converts the digits with
`get_xtype_from_string`.

Strings are lists of characters. `default_decimal_point`, which `set_default_decimal_point`
sets to one of 0, 3, 6, 9 and 12, is a parameter. `boost::lexical_cast<uint64_t>` of a string
of digits is its decimal value (`Nat.ofDigitChars`), and fails past `2 ^ 64 - 1`.
-/

set_option autoImplicit false

namespace Wazn

namespace Cryptonote

/-- `std::isspace` in the "C" locale, the white space `boost::algorithm::trim` removes. -/
def isSpace (c : Char) : Bool :=
  c = ' ' || c = '\t' || c = '\n' || c = '\x0b' || c = '\x0c' || c = '\r'

/-- `boost::algorithm::trim`. -/
def trim (s : List Char) : List Char :=
  (s.dropWhile isSpace).rdropWhile isSpace

/-- `string_tools::get_xtype_from_string` for `uint64_t`: digits only, then
`boost::lexical_cast`, which fails on the empty string and past `2 ^ 64 - 1`. -/
def getXtypeFromString (strId : List Char) : Option UInt64 :=
  if strId.all Char.isDigit then
    if strId ≠ [] ∧ Nat.ofDigitChars 10 strId 0 < 2 ^ 64 then
      some (UInt64.ofNat (Nat.ofDigitChars 10 strId 0))
    else none
  else none

/-- The loop of `parse_amount` that drops the fraction's trailing zeros while it has more than
`default_decimal_point` digits: the string and `fraction_size` after it. -/
def dropFractionZeros (defaultDecimalPoint : ℕ) (strAmount : List Char) :
    ℕ → List Char × ℕ
  | 0 => (strAmount, 0)
  | fractionSize + 1 =>
    if defaultDecimalPoint < fractionSize + 1 ∧ strAmount.getLast? = some '0' then
      dropFractionZeros defaultDecimalPoint strAmount.dropLast fractionSize
    else (strAmount, fractionSize + 1)

/-- The first half of `parse_amount`: the string with the fraction's trailing zeros dropped and
the point erased, and `fraction_size`; `none` where the fraction keeps more than
`default_decimal_point` digits. -/
def erasePoint (defaultDecimalPoint : ℕ) (strAmount : List Char) : Option (List Char × ℕ) :=
  match strAmount.idxOf? '.' with
  | none => some (strAmount, 0)
  | some pointIndex =>
    let (strAmount, fractionSize) :=
      dropFractionZeros defaultDecimalPoint strAmount (strAmount.length - pointIndex - 1)
    if defaultDecimalPoint < fractionSize then none
    else some (strAmount.eraseIdx pointIndex, fractionSize)

/-- `parse_amount(amount, str_amount)` at `default_decimal_point`: `none` where it returns
`false`. -/
def parseAmount (defaultDecimalPoint : ℕ) (strAmount : List Char) : Option UInt64 := do
  let (strAmount, fractionSize) ← erasePoint defaultDecimalPoint (trim strAmount)
  if strAmount = [] then none
  else
    let strAmount :=
      if fractionSize < defaultDecimalPoint then
        strAmount ++ List.replicate (defaultDecimalPoint - fractionSize) '0'
      else strAmount
    getXtypeFromString strAmount

/-- `insert_money_decimal_point(s, decimal_point)`; `none` is `-1`, which stands for
`default_decimal_point`. -/
def insertMoneyDecimalPoint (defaultDecimalPoint : ℕ) (s : List Char)
    (decimalPoint : Option ℕ) : List Char :=
  let decimalPoint := decimalPoint.getD defaultDecimalPoint
  let s :=
    if s.length < decimalPoint + 1 then List.replicate (decimalPoint + 1 - s.length) '0' ++ s
    else s
  if 0 < decimalPoint then s.take (s.length - decimalPoint) ++ '.' :: s.drop (s.length - decimalPoint)
  else s

/-- `print_money(amount, decimal_point)`. -/
def printMoney (defaultDecimalPoint : ℕ) (amount : UInt64) (decimalPoint : Option ℕ) :
    List Char :=
  insertMoneyDecimalPoint defaultDecimalPoint (Nat.toDigits 10 amount.toNat) decimalPoint

end Cryptonote

end Wazn
