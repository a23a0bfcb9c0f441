import StyleRules.Text.Basic

namespace StyleRules

namespace Text

/-- The numeral of a positive decimal, given its digits without zeros at the end and the place of
the point, counted from before the first digit. -/
def ofDigits (digits : Text) (point : Int) : Text :=
  let size : Int := digits.length
  if -4 < point ∧ point ≤ 0 then
    '0' :: '.' :: List.replicate (-point).toNat '0' ++ digits
  else if size ≤ point ∧ point ≤ 16 then
    digits ++ List.replicate (point - size).toNat '0' ++ ['.', '0']
  else if 0 < point ∧ point ≤ 16 then
    digits.take point.toNat ++ '.' :: digits.drop point.toNat
  else
    let exponent := point - 1
    let places := ofNat exponent.natAbs
    digits.take 1 ++ (if 1 < digits.length then '.' :: digits.drop 1 else [])
      ++ 'e' :: (if exponent < 0 then '-' else '+')
      :: List.replicate (2 - places.length) '0' ++ places

/-- The numeral of `mantissa * 10 ^ exponent`, with at least one digit after the point unless it
has an exponent. -/
def ofDecimal (mantissa exponent : Int) : Text :=
  let all := ofNat mantissa.natAbs
  let digits := (all.reverse.dropWhile (· == '0')).reverse
  let sign := if mantissa < 0 then ['-'] else []
  if digits = [] then "0.0".toList else sign ++ ofDigits digits (all.length + exponent)

end Text

end StyleRules
