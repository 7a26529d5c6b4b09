/-
**Binary floating-point formats.**

`binaryValue`: the number that a bit pattern stands for, in a format of so many exponent bits and
mantissa bits. The highest exponent counts as any other: infinities and NaNs are not numbers, and
who has them looks at the bits.
-/

import Mathlib.Algebra.Order.Field.Power
import Mathlib.Tactic.NormNum

namespace FreeToken

def minExponent (expBits manBits : Nat) : Int := 2 - 2 ^ (expBits - 1) - manBits

def binaryValue (expBits manBits bits : Nat) : ℚ :=
  let mantissa := bits % 2 ^ manBits
  let exponent := bits / 2 ^ manBits % 2 ^ expBits
  let sign : ℚ := if bits / 2 ^ (manBits + expBits) % 2 = 1 then -1 else 1
  if exponent = 0 then sign * mantissa * 2 ^ minExponent expBits manBits
  else sign * (2 ^ manBits + mantissa : ℕ) * 2 ^ (minExponent expBits manBits + exponent - 1)

end FreeToken
