import Plibsys.Ini.PString
import Plibsys.Support.CString
import Mathlib.Data.Rat.Defs
import Mathlib.Algebra.Order.Field.Rat

/-! # Strings

`pstring.c` over memory: a string is a region, `NULL` is `none`, and every read is checked.
`zstrtod` computes in exact arithmetic here; its exponent is a 32-bit counter, as in the
source.
-/

namespace Plibsys.Strings

open Support

/-- `zstrdup`, with the outcome of its allocation. -/
def zstrdup (malloc : Bool) : Option Region → Exec (Option Region)
  | none => pure none
  | some str => do
      let len ← str.strlen
      if malloc then
        let ret ← (Region.zeros (len + 1)).memcpy 0 str 0 (len + 1)
        pure (some ret)
      else
        pure none

/-- `while (pos_start < pos_end && isspace (*ptr++)) ++pos_start` -/
def startScan (str : Region) (posEnd : Int) : Nat → Int → Int → Exec Int
  | 0, _, _ => .error .outOfFuel
  | fuel + 1, ptr, posStart =>
      if posStart < posEnd then do
        let c ← str.deref ptr
        if isspace c then startScan str posEnd fuel (ptr + 1) (posStart + 1) else pure posStart
      else
        pure posStart

/-- `while (pos_end > 0 && isspace (*ptr--)) --pos_end` -/
def endScan (str : Region) : Nat → Int → Int → Exec Int
  | 0, _, _ => .error .outOfFuel
  | fuel + 1, ptr, posEnd =>
      if posEnd > 0 then do
        let c ← str.deref ptr
        if isspace c then endScan str fuel (ptr - 1) (posEnd - 1) else pure posEnd
      else
        pure posEnd

/-- `pos_end == pos_start && isspace (*(str + pos_end))` -/
def meetsAtBlank (str : Region) (posStart posEnd : Int) : Exec Bool :=
  if posEnd = posStart then do
    let c ← str.deref posEnd
    pure (isspace c)
  else
    pure false

/-- `zstrchomp`, with the outcome of its allocation. -/
def zstrchomp (malloc : Bool) : Option Region → Exec (Option Region)
  | none => pure none
  | some str => do
      let len ← str.strlen
      let posStart ← startScan str ((len : Int) - 1) (len + 1) 0 0
      let posEnd ← endScan str (len + 1) ((len : Int) - 1) ((len : Int) - 1)
      if posEnd < posStart then
        zstrdup malloc (some (cString []))
      else
        let blank ← meetsAtBlank str posStart posEnd
        if blank then
          zstrdup malloc (some (cString []))
        else
          let strLen := (posEnd - posStart + 2).toNat
          if malloc then
            let ret ← (Region.zeros strLen).memcpy 0 str posStart.toNat (strLen - 1)
            let ret ← ret.store (strLen - 1) 0
            pure (some ret)
          else
            pure none

/-- `isdigit` -/
def isdigit (c : Byte) : Bool := 0x30 ≤ c ∧ c ≤ 0x39

/-- `*strp - '0'` -/
def digit (c : Byte) : Nat := c.toNat - 48

/-- An optional sign: whether it is a minus, and the rest. -/
def readSign : List Byte → Bool × List Byte
  | [] => (false, [])
  | c :: strp =>
      if c = ascii '-' then (true, strp)
      else if c = ascii '+' then (false, strp)
      else (false, c :: strp)

/-- The digits before the decimal point. -/
def integerLoop : List Byte → ℚ → ℚ × List Byte
  | [], value => (value, [])
  | c :: strp, value =>
      if isdigit c then integerLoop strp (value * 10 + digit c) else (value, c :: strp)

/-- The digits after the decimal point. -/
def fractionLoop : List Byte → ℚ → ℚ → ℚ × List Byte
  | [], value, _ => (value, [])
  | c :: strp, value, pow10 =>
      if isdigit c then fractionLoop strp (value + digit c / pow10) (pow10 * 10)
      else (value, c :: strp)

/-- The digits around the decimal point. -/
def readValue (strp : List Byte) : ℚ × List Byte :=
  match integerLoop strp 0 with
  | (value, c :: strp) => if c = ascii '.' then fractionLoop strp value 10 else (value, c :: strp)
  | (value, []) => (value, [])

/-- The digits of the exponent. -/
def exponentLoop : List Byte → PUInt → PUInt
  | [], expon => expon
  | c :: strp, expon =>
      if isdigit c then exponentLoop strp (expon * 10 + BitVec.ofNat 32 (digit c)) else expon

/-- `P_STR_MAX_EXPON` -/
def strMaxExpon : PUInt := 308

/-- `while (expon >= step) { scale *= factor; expon -= step; }`, for a step above zero. -/
def scaleLoop (step : PUInt) (factor : ℚ) (positive : 0 < step) (scale : ℚ) (expon : PUInt) : ℚ × PUInt :=
  if step ≤ expon then scaleLoop step factor positive (scale * factor) (expon - step) else (scale, expon)
termination_by expon.toNat
decreasing_by bv_omega

/-- The scaling factor that the three loops accumulate. -/
def scaleOf (expon : PUInt) : ℚ :=
  let expon := if expon > strMaxExpon then strMaxExpon else expon
  let (scale, expon) := scaleLoop 50 (10 ^ 50) (by decide) 1 expon
  let (scale, expon) := scaleLoop 8 (10 ^ 8) (by decide) scale expon
  (scaleLoop 1 10 (by decide) scale expon).1

/-- What `zstrtod` has read when it computes its answer. -/
structure Scanned where
  sign : ℚ
  value : ℚ
  frac : Bool
  scale : ℚ

/-- The scan of `zstrtod`. -/
def scanNumber (strp : List Byte) : Scanned :=
  let (minus, strp) := readSign strp
  let sign : ℚ := if minus then -1 else 1
  match readValue strp with
  | (value, []) => ⟨sign, value, false, 1⟩
  | (value, c :: strp) =>
      if c = ascii 'e' ∨ c = ascii 'E' then
        let (frac, strp) := readSign strp
        ⟨sign, value, frac, scaleOf (exponentLoop strp 0)⟩
      else
        ⟨sign, value, false, 1⟩

/-- `zstrtod`, with the outcome of the allocation in `zstrchomp`. -/
def zstrtod (malloc : Bool) (str : Option (List Byte)) : ℚ :=
  match if malloc then str.map Ini.zstrchomp else none with
  | none => 0
  | some origStr =>
      let scanned := scanNumber origStr
      scanned.sign *
        if scanned.frac then scanned.value / scanned.scale else scanned.value * scanned.scale

end Plibsys.Strings
