/-!
How far a number at the front of a text reaches, in bytes. Each part of a number may be missing: a scan of
a part that does not stand at a place ends at that place.
-/
namespace JsonRules.Text

def isSign (c : Char) : Bool := c == '+' || c == '-'

def isPoint (c : Char) : Bool := c == '.'

def isExponentLetter (c : Char) : Bool := c == 'e' || c == 'E'

def isAt (bs : List UInt8) (i : Nat) (is : Char → Bool) : Bool :=
  bs[i]?.any fun b => is (Char.ofUInt8 b)

def signEnd (bs : List UInt8) (i : Nat) : Nat := if isAt bs i isSign then i + 1 else i

def digitsEnd (bs : List UInt8) (i : Nat) : Nat :=
  i + ((bs.drop i).takeWhile fun b => (Char.ofUInt8 b).isDigit).length

def fractionEnd (bs : List UInt8) (i : Nat) : Nat :=
  if isAt bs i isPoint && isAt bs (i + 1) Char.isDigit then digitsEnd bs (i + 1) else i

def exponentEnd (bs : List UInt8) (i : Nat) : Nat :=
  if isAt bs i isExponentLetter then
    let start := signEnd bs (i + 1)
    let stop := digitsEnd bs start
    if start < stop then stop else i
  else
    i

def numberEnd? (bs : List UInt8) : Option Nat :=
  let start := signEnd bs 0
  let stop := fractionEnd bs (digitsEnd bs start)
  if stop = start then none else some (exponentEnd bs stop)

end JsonRules.Text
