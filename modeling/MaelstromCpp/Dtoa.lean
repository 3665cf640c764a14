/-
The shortest text of a float.

`dump_float` writes a float with the bundled Grisu2 (`dtoa_impl`), on integers only.  A
failed assertion, a shift by the width of the word, a division by zero and a write
behind the end of `number_buffer` have no result.
-/
import MaelstromCpp.Parser

namespace MaelstromCpp.Dtoa

/-! ### Numbers with a binary exponent -/

/-- `f * 2^e` -/
structure Diyfp where
  f : UInt64
  e : ℤ
  deriving DecidableEq

namespace Diyfp

def sub (x y : Diyfp) : Option Diyfp :=
  if x.e = y.e ∧ y.f ≤ x.f then some ⟨x.f - y.f, x.e⟩ else none

/-- The upper half of the product, rounded, from the halves of the factors. -/
def mul (x y : Diyfp) : Diyfp :=
  let uLo := x.f &&& 0xFFFFFFFF
  let uHi := x.f >>> 32
  let vLo := y.f &&& 0xFFFFFFFF
  let vHi := y.f >>> 32
  let p0 := uLo * vLo
  let p1 := uLo * vHi
  let p2 := uHi * vLo
  let p3 := uHi * vHi
  -- rounded, ties up
  let q := (p0 >>> 32) + (p1 &&& 0xFFFFFFFF) + (p2 &&& 0xFFFFFFFF) + ((1 : UInt64) <<< (31 : UInt64))
  ⟨p3 + (p2 >>> 32) + (p1 >>> 32) + (q >>> 32), x.e + y.e + 64⟩

/-- One round of `normalize`; the assertion is kept by every round. -/
def normalizeBody (x : Diyfp) : Diyfp ⊕ Option Diyfp :=
  if x.f = 0 then .inr none
  else if x.f >>> 63 = 0 then .inl ⟨x.f <<< 1, x.e - 1⟩
  else .inr (some x)

theorem toNat_shiftLeft_one {f : UInt64} (h : f >>> 63 = 0) : (f <<< 1).toNat = 2 * f.toNat := by
  have hlt : f.toNat / 2 ^ 63 = 0 := by
    rw [← Nat.shiftRight_eq_div_pow]
    exact congrArg UInt64.toNat h
  rw [UInt64.toNat_shiftLeft]
  show f.toNat <<< 1 % 2 ^ 64 = _
  rw [Nat.shiftLeft_eq]
  omega

theorem normalizeBody_lt {x x' : Diyfp} (h : x.normalizeBody = .inl x') :
    63 - x'.f.toNat.log2 < 63 - x.f.toNat.log2 := by
  rw [normalizeBody] at h
  split_ifs at h with hzero htop
  obtain rfl := Sum.inl.inj h
  have hne : x.f.toNat ≠ 0 := fun heq => hzero (UInt64.toNat_inj.mp heq)
  have hlt : (x.f <<< 1).toNat.log2 < 64 :=
    (Nat.log2_lt (by rw [toNat_shiftLeft_one htop]; omega)).mpr (UInt64.toNat_lt _)
  show 63 - (x.f <<< 1).toNat.log2 < 63 - x.f.toNat.log2
  rw [toNat_shiftLeft_one htop, Nat.log2_two_mul hne] at hlt ⊢
  omega

def normalizeLoop : Loop Diyfp (Option Diyfp) where
  body := normalizeBody
  rank x := 63 - x.f.toNat.log2
  rank_lt _ _ := normalizeBody_lt

def normalize (x : Diyfp) : Option Diyfp := normalizeLoop.run x

def normalizeTo (x : Diyfp) (targetExponent : ℤ) : Option Diyfp :=
  let delta := x.e - targetExponent
  let shift := UInt64.ofNat delta.toNat
  if 0 ≤ delta ∧ delta < 64 ∧ (x.f <<< shift) >>> shift = x.f then
    some ⟨x.f <<< shift, targetExponent⟩
  else none

end Diyfp

/-! ### A float and its neighbourhood -/

structure Boundaries where
  w : Diyfp
  minus : Diyfp
  plus : Diyfp
  deriving DecidableEq

def kBias : ℤ := 1075

def kHiddenBit : UInt64 := (1 : UInt64) <<< (52 : UInt64)

/-- The `F` and the `E` of the bits. -/
def fractionOf (bits : UInt64) : UInt64 := bits &&& (kHiddenBit - 1)

def exponentOf (bits : UInt64) : UInt64 := bits >>> 52

/-- The float as `v = f * 2^e`. -/
def toDiyfp (value : UInt64) : Diyfp :=
  if exponentOf value = 0 then ⟨fractionOf value, 1 - kBias⟩
  else ⟨fractionOf value + kHiddenBit, (exponentOf value).toNat - kBias⟩

def lowerBoundaryIsCloser (value : UInt64) : Bool :=
  fractionOf value = 0 && 1 < exponentOf value

/-- `compute_boundaries`, for a positive float. -/
def computeBoundaries (value : UInt64) : Option Boundaries :=
  if isFinite value ∧ value >>> 63 = 0 ∧ value ≠ 0 then
    let v := toDiyfp value
    let mPlus : Diyfp := ⟨2 * v.f + 1, v.e - 1⟩
    let mMinus : Diyfp :=
      if lowerBoundaryIsCloser value then ⟨4 * v.f - 1, v.e - 2⟩ else ⟨2 * v.f - 1, v.e - 1⟩
    do
      let wPlus ← mPlus.normalize
      let wMinus ← mMinus.normalizeTo wPlus.e
      return ⟨← v.normalize, wMinus, wPlus⟩
  else none

/-! ### Powers of ten -/

/-- `f * 2^e`, close to `10^k`. -/
structure CachedPower where
  f : UInt64
  e : ℤ
  k : ℤ
  deriving DecidableEq

def kAlpha : ℤ := -60

def kGamma : ℤ := -32

def kCachedPowers : List CachedPower :=
  [
    ⟨0xAB70FE17C79AC6CA, -1060, -300⟩,
    ⟨0xFF77B1FCBEBCDC4F, -1034, -292⟩,
    ⟨0xBE5691EF416BD60C, -1007, -284⟩,
    ⟨0x8DD01FAD907FFC3C, -980, -276⟩,
    ⟨0xD3515C2831559A83, -954, -268⟩,
    ⟨0x9D71AC8FADA6C9B5, -927, -260⟩,
    ⟨0xEA9C227723EE8BCB, -901, -252⟩,
    ⟨0xAECC49914078536D, -874, -244⟩,
    ⟨0x823C12795DB6CE57, -847, -236⟩,
    ⟨0xC21094364DFB5637, -821, -228⟩,
    ⟨0x9096EA6F3848984F, -794, -220⟩,
    ⟨0xD77485CB25823AC7, -768, -212⟩,
    ⟨0xA086CFCD97BF97F4, -741, -204⟩,
    ⟨0xEF340A98172AACE5, -715, -196⟩,
    ⟨0xB23867FB2A35B28E, -688, -188⟩,
    ⟨0x84C8D4DFD2C63F3B, -661, -180⟩,
    ⟨0xC5DD44271AD3CDBA, -635, -172⟩,
    ⟨0x936B9FCEBB25C996, -608, -164⟩,
    ⟨0xDBAC6C247D62A584, -582, -156⟩,
    ⟨0xA3AB66580D5FDAF6, -555, -148⟩,
    ⟨0xF3E2F893DEC3F126, -529, -140⟩,
    ⟨0xB5B5ADA8AAFF80B8, -502, -132⟩,
    ⟨0x87625F056C7C4A8B, -475, -124⟩,
    ⟨0xC9BCFF6034C13053, -449, -116⟩,
    ⟨0x964E858C91BA2655, -422, -108⟩,
    ⟨0xDFF9772470297EBD, -396, -100⟩,
    ⟨0xA6DFBD9FB8E5B88F, -369, -92⟩,
    ⟨0xF8A95FCF88747D94, -343, -84⟩,
    ⟨0xB94470938FA89BCF, -316, -76⟩,
    ⟨0x8A08F0F8BF0F156B, -289, -68⟩,
    ⟨0xCDB02555653131B6, -263, -60⟩,
    ⟨0x993FE2C6D07B7FAC, -236, -52⟩,
    ⟨0xE45C10C42A2B3B06, -210, -44⟩,
    ⟨0xAA242499697392D3, -183, -36⟩,
    ⟨0xFD87B5F28300CA0E, -157, -28⟩,
    ⟨0xBCE5086492111AEB, -130, -20⟩,
    ⟨0x8CBCCC096F5088CC, -103, -12⟩,
    ⟨0xD1B71758E219652C, -77, -4⟩,
    ⟨0x9C40000000000000, -50, 4⟩,
    ⟨0xE8D4A51000000000, -24, 12⟩,
    ⟨0xAD78EBC5AC620000, 3, 20⟩,
    ⟨0x813F3978F8940984, 30, 28⟩,
    ⟨0xC097CE7BC90715B3, 56, 36⟩,
    ⟨0x8F7E32CE7BEA5C70, 83, 44⟩,
    ⟨0xD5D238A4ABE98068, 109, 52⟩,
    ⟨0x9F4F2726179A2245, 136, 60⟩,
    ⟨0xED63A231D4C4FB27, 162, 68⟩,
    ⟨0xB0DE65388CC8ADA8, 189, 76⟩,
    ⟨0x83C7088E1AAB65DB, 216, 84⟩,
    ⟨0xC45D1DF942711D9A, 242, 92⟩,
    ⟨0x924D692CA61BE758, 269, 100⟩,
    ⟨0xDA01EE641A708DEA, 295, 108⟩,
    ⟨0xA26DA3999AEF774A, 322, 116⟩,
    ⟨0xF209787BB47D6B85, 348, 124⟩,
    ⟨0xB454E4A179DD1877, 375, 132⟩,
    ⟨0x865B86925B9BC5C2, 402, 140⟩,
    ⟨0xC83553C5C8965D3D, 428, 148⟩,
    ⟨0x952AB45CFA97A0B3, 455, 156⟩,
    ⟨0xDE469FBD99A05FE3, 481, 164⟩,
    ⟨0xA59BC234DB398C25, 508, 172⟩,
    ⟨0xF6C69A72A3989F5C, 534, 180⟩,
    ⟨0xB7DCBF5354E9BECE, 561, 188⟩,
    ⟨0x88FCF317F22241E2, 588, 196⟩,
    ⟨0xCC20CE9BD35C78A5, 614, 204⟩,
    ⟨0x98165AF37B2153DF, 641, 212⟩,
    ⟨0xE2A0B5DC971F303A, 667, 220⟩,
    ⟨0xA8D9D1535CE3B396, 694, 228⟩,
    ⟨0xFB9B7CD9A4A7443C, 720, 236⟩,
    ⟨0xBB764C4CA7A44410, 747, 244⟩,
    ⟨0x8BAB8EEFB6409C1A, 774, 252⟩,
    ⟨0xD01FEF10A657842C, 800, 260⟩,
    ⟨0x9B10A4E5E9913129, 827, 268⟩,
    ⟨0xE7109BFBA19C0C9D, 853, 276⟩,
    ⟨0xAC2820D9623BF429, 880, 284⟩,
    ⟨0x80444B5E7AA7CF85, 907, 292⟩,
    ⟨0xBF21E44003ACDD2D, 933, 300⟩,
    ⟨0x8E679C2F5E44FF8F, 960, 308⟩,
    ⟨0xD433179D9C8CB841, 986, 316⟩,
    ⟨0x9E19DB92B4E31BA9, 1013, 324⟩]

/-- `get_cached_power_for_binary_exponent` -/
def getCachedPower (e : ℤ) : Option CachedPower :=
  if -1500 ≤ e ∧ e ≤ 1500 then
    let f := kAlpha - e - 1
    let k := (f * 78913).tdiv (1 <<< 18) + if 0 < f then 1 else 0
    let index := (300 + k + (8 - 1)).tdiv 8
    if 0 ≤ index then do
      let cached ← kCachedPowers[index.toNat]?
      if kAlpha ≤ cached.e + e + 64 ∧ cached.e + e + 64 ≤ kGamma then some cached else none
    else none
  else none

/-! ### Digits -/

/-- The number of decimal digits, and the power of ten of the first one. -/
def findLargestPow10 (n : UInt32) : ℕ × UInt32 :=
  if 1000000000 ≤ n then (10, 1000000000)
  else if 100000000 ≤ n then (9, 100000000)
  else if 10000000 ≤ n then (8, 10000000)
  else if 1000000 ≤ n then (7, 1000000)
  else if 100000 ≤ n then (6, 100000)
  else if 10000 ≤ n then (5, 10000)
  else if 1000 ≤ n then (4, 1000)
  else if 100 ≤ n then (3, 100)
  else if 10 ≤ n then (2, 10)
  else (1, 1)

/-- The loop of `grisu2_round`, on the last digit. -/
def roundLast (dist delta tenK rest : UInt64) : ℕ → Option ℕ
  | 0 =>
    if rest < dist ∧ tenK ≤ delta - rest ∧
        (rest + tenK < dist ∨ rest + tenK - dist < dist - rest) then none
    else some 0
  | d + 1 =>
    if rest < dist ∧ tenK ≤ delta - rest ∧
        (rest + tenK < dist ∨ rest + tenK - dist < dist - rest) then
      roundLast dist delta tenK (rest + tenK) d
    else some (d + 1)

/-- The digits in the buffer, as numbers. -/
abbrev Digits := List ℕ

def grisu2Round (buf : Digits) (dist delta rest tenK : UInt64) : Option Digits := do
  let last ← buf.getLast?
  if dist ≤ delta ∧ rest ≤ delta ∧ 0 < tenK then
    return buf.dropLast ++ [← roundLast dist delta tenK rest last]
  else none

/-- The digits of a decimal and its exponent. -/
abbrev Decimal := Digits × ℤ

/-- One, with the exponent. -/
def oneOf (e : ℤ) : Diyfp := ⟨1 <<< UInt64.ofNat (-e).toNat, e⟩

/-- What is shifted by to multiply or divide by one. -/
def shiftOf (one : Diyfp) : UInt64 := UInt64.ofNat (-one.e).toNat

/-- The digits after the point, while there is room in the buffer. -/
def genFraction (one : Diyfp) (decimalExponent : ℤ) :
    ℕ → Digits → ℕ → (p2 delta dist : UInt64) → Option Decimal
  | 0, _, _, _, _, _ => none
  | room + 1, buffer, m, p2, delta, dist =>
    let d := (p2 * 10) >>> shiftOf one
    let r := (p2 * 10) &&& (one.f - 1)
    if p2 ≤ 0xFFFFFFFFFFFFFFFF / 10 ∧ d ≤ 9 then
      let buffer := buffer ++ [d.toNat]
      if r ≤ delta * 10 then do
        return (← grisu2Round buffer (dist * 10) (delta * 10) r one.f, decimalExponent - (m + 1))
      else genFraction one decimalExponent room buffer (m + 1) r (delta * 10) (dist * 10)
    else none

/-- The digits before the point, `n` of which are to come. -/
def genIntegral (one : Diyfp) (decimalExponent : ℤ) (p2 delta dist : UInt64) :
    ℕ → ℕ → Digits → (p1 pow10 : UInt32) → Option Decimal
  | 0, room, buffer, _, _ =>
    if delta < p2 then genFraction one decimalExponent room buffer 0 p2 delta dist else none
  | _ + 1, 0, _, _, _ => none
  | n + 1, room + 1, buffer, p1, pow10 =>
    let d := p1 / pow10
    let r := p1 % pow10
    if pow10 ≠ 0 ∧ d ≤ 9 then
      let buffer := buffer ++ [d.toNat]
      let rest := (r.toUInt64 <<< shiftOf one) + p2
      if rest ≤ delta then do
        return (← grisu2Round buffer dist delta rest (pow10.toUInt64 <<< shiftOf one),
          decimalExponent + n)
      else genIntegral one decimalExponent p2 delta dist n room buffer r (pow10 / 10)
    else none

/-- `grisu2_digit_gen`, with `room` bytes in the buffer. -/
def grisu2DigitGen (room : ℕ) (decimalExponent : ℤ) (mMinus w mPlus : Diyfp) : Option Decimal :=
  if kAlpha ≤ mPlus.e ∧ mPlus.e ≤ kGamma then do
    let delta ← mPlus.sub mMinus
    let dist ← mPlus.sub w
    let one := oneOf mPlus.e
    let p1 := (mPlus.f >>> shiftOf one).toUInt32
    let p2 := mPlus.f &&& (one.f - 1)
    if 0 < p1 then
      let (k, pow10) := findLargestPow10 p1
      genIntegral one decimalExponent p2 delta.f dist.f k room [] p1 pow10
    else none
  else none

/-- `grisu2` -/
def grisu2 (room : ℕ) (b : Boundaries) : Option Decimal :=
  if b.plus.e = b.minus.e ∧ b.plus.e = b.w.e then do
    let cached ← getCachedPower b.plus.e
    let cMinusK : Diyfp := ⟨cached.f, cached.e⟩
    let w := b.w.mul cMinusK
    let wMinus := b.minus.mul cMinusK
    let wPlus := b.plus.mul cMinusK
    grisu2DigitGen room (-cached.k) ⟨wMinus.f + 1, wMinus.e⟩ w ⟨wPlus.f - 1, wPlus.e⟩
  else none

/-! ### Text -/

def digitChar (d : ℕ) : UInt8 := (0x30 + d).toUInt8

/-- The digits of an exponent, two at least. -/
def exponentDigits (k : ℕ) : Digits :=
  if k < 10 then [0, k]
  else if k < 100 then [k / 10, k % 10]
  else [k / 100, k % 100 / 10, k % 100 % 10]

/-- `append_exponent` -/
def appendExponent (e : ℤ) : Option Bytes :=
  if -1000 < e ∧ e < 1000 then
    some ((if e < 0 then chr '-' else chr '+') :: (exponentDigits e.natAbs).map digitChar)
  else none

/-- `format_buffer` -/
def formatBuffer (buf : Bytes) (decimalExponent minExp maxExp : ℤ) : Option Bytes :=
  let k : ℤ := buf.length
  let n := k + decimalExponent
  if minExp < 0 ∧ 0 < maxExp then
    if k ≤ n ∧ n ≤ maxExp then
      -- digits[000]
      some (buf ++ List.replicate (n - k).toNat (chr '0') ++ ascii ".0")
    else if 0 < n ∧ n ≤ maxExp then
      -- dig.its
      if n < k then some (buf.take n.toNat ++ [chr '.'] ++ buf.drop n.toNat) else none
    else if minExp < n ∧ n ≤ 0 then
      -- 0.[000]digits
      some (ascii "0." ++ List.replicate (-n).toNat (chr '0') ++ buf)
    else do
      let exponent ← appendExponent (n - 1)
      match buf with
      | [] => none
      | [d] => return [d] ++ [chr 'e'] ++ exponent
      | d :: igits => return [d] ++ [chr '.'] ++ igits ++ [chr 'e'] ++ exponent
  else none

/-- `to_chars`, into a buffer of this size. -/
def toCharsIn (size : ℕ) (value : UInt64) : Option Bytes :=
  if isFinite value then
    let negative := value >>> 63 = 1
    let sign := if negative then [chr '-'] else []
    let value := if negative then value ^^^ ((1 : UInt64) <<< (63 : UInt64)) else value
    let room := size - sign.length
    if value = 0 then some (sign ++ ascii "0.0")
    else if 17 ≤ room then do
      let (digits, decimalExponent) ← grisu2 room (← computeBoundaries value)
      if digits.length ≤ 17 ∧ 15 + 2 ≤ room ∧ 2 + (4 - 1) + 17 ≤ room ∧ 17 + 6 ≤ room then
        let text ← formatBuffer (digits.map digitChar) decimalExponent (-4) 15
        if text.length ≤ room then return sign ++ text else none
      else none
    else none
  else none

/-- `to_chars`, into `number_buffer`. -/
def toChars (value : UInt64) : Option Bytes := toCharsIn 64 value

end MaelstromCpp.Dtoa

namespace MaelstromCpp

/-- What `dump_float` writes of a finite float. -/
def floatText (bits : UInt64) : Bytes := (Dtoa.toChars bits).getD []

end MaelstromCpp
