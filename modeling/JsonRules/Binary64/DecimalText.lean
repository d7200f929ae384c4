import JsonRules.Binary64.Decimal

/-!
Written forms of a decimal: positional, and scientific with a signed exponent. Both start from the
significant digits and the place of the decimal point.
-/
namespace JsonRules.Binary64.Decimal

def significant (d : Decimal) : List Char :=
  ((Nat.toDigits 10 d.coefficient).reverse.dropWhile (· == '0')).reverse

def point (d : Decimal) : Int := (Nat.toDigits 10 d.coefficient).length + d.exponent

def isWhole (d : Decimal) : Bool := d.significant.length ≤ d.point

def positional (d : Decimal) : List Char :=
  if d.point ≤ 0 then
    '0' :: '.' :: List.replicate (-d.point).toNat '0' ++ d.significant
  else if d.isWhole then
    d.significant ++ List.replicate (d.point.toNat - d.significant.length) '0'
  else
    d.significant.take d.point.toNat ++ '.' :: d.significant.drop d.point.toNat

def scientific (d : Decimal) : List Char :=
  let exponent := d.point - 1
  let sign := if exponent < 0 then '-' else '+'
  let power := 'e' :: sign :: Nat.toDigits 10 exponent.natAbs
  match d.significant with
  | [] => '0' :: power
  | [c] => c :: power
  | c :: rest => c :: '.' :: rest ++ power

end JsonRules.Binary64.Decimal
