/-
**The codes of FP8 tensors.**
-/

import FreeToken.Lib.Binary

namespace FreeToken

def e4m3Half (code : BitVec 8) : BitVec 16 :=
  (code &&& 0x80).setWidth 16 <<< 8 ||| (code &&& 0x7F).setWidth 16 <<< 7

/-- `e4m3_u8_to_f32`. -/
def e4m3ToF32 (code : BitVec 8) : ℚ := binaryValue 5 10 (e4m3Half code).toNat * 256

/-- The scale of a code: `exp2(code - 127)`. -/
def e8m0 (code : BitVec 8) : ℚ := 2 ^ ((code.toNat : Int) - 127)

@[simp] theorem e4m3ToF32_one : e4m3ToF32 0x38#8 = 1 := by
  have bits : (e4m3Half 0x38#8).toNat = 0x1C00 := rfl
  norm_num [e4m3ToF32, bits, binaryValue, minExponent]

@[simp] theorem e4m3ToF32_zero : e4m3ToF32 0#8 = 0 := by
  have bits : (e4m3Half 0#8).toNat = 0 := rfl
  norm_num [e4m3ToF32, bits, binaryValue]

@[simp] theorem e8m0_one : e8m0 127#8 = 1 := by
  have code : (127#8).toNat = 127 := rfl
  norm_num [e8m0, code]

end FreeToken
