import Plibsys.Strings.Trimming
import Mathlib.Algebra.Order.Ring.Rat
import Mathlib.Algebra.Order.Ring.Abs
import Mathlib.Tactic.Linarith
import Mathlib.Tactic.Positivity

/-! # Exponents

`zstrtod` on a mantissa with an exponent.  The exponent is accumulated in 32 bits and
clamped afterwards, so an exponent that is long enough wraps before the clamp sees it.
-/

namespace Plibsys.Strings

open Support

/-- The number that a string of digits stands for. -/
def decimal (digits : List Byte) : Nat := digits.foldl (fun value c => value * 10 + digit c) 0

/-- A sign, or none. -/
def IsSign (sign : List Byte) : Prop := sign = [] ∨ sign = [ascii '-'] ∨ sign = [ascii '+']

/-- A text that no digit starts. -/
def StopsDigits (rest : List Byte) : Prop := ∀ c, rest.head? = some c → isdigit c = false

structure Mantissa where
  sign : List Byte
  whole : List Byte
  fraction : Option (List Byte)
  isSign : IsSign sign
  wholeDigits : ∀ c ∈ whole, isdigit c
  fractionDigits : ∀ digits, fraction = some digits → ∀ c ∈ digits, isdigit c

/-- The decimal point and the digits after it. -/
def Mantissa.point (mantissa : Mantissa) : List Byte :=
  match mantissa.fraction with
  | none => []
  | some digits => ascii '.' :: digits

def Mantissa.text (mantissa : Mantissa) : List Byte :=
  mantissa.sign ++ (mantissa.whole ++ mantissa.point)

/-- The value that the digits of a mantissa are read as. -/
def Mantissa.value (mantissa : Mantissa) : ℚ := (readValue (mantissa.whole ++ mantissa.point)).1

structure Exponent where
  mark : Byte
  sign : List Byte
  digits : List Byte
  isMark : mark = ascii 'e' ∨ mark = ascii 'E'
  isSign : IsSign sign
  areDigits : ∀ c ∈ digits, isdigit c

def Exponent.text (exponent : Exponent) : List Byte :=
  exponent.mark :: (exponent.sign ++ exponent.digits)

/-- The exponent that is meant, or the largest one that the source allows. -/
def Exponent.saturated (exponent : Exponent) : Nat := min (decimal exponent.digits) 308

/-- The exponents that the 32-bit counter clamps to the right number: those it can hold, and
    those that wrap to a number from 308 on. -/
def Exponent.Clamped (exponent : Exponent) : Prop :=
  decimal exponent.digits < 2 ^ 32 ∨ 308 ≤ decimal exponent.digits % 2 ^ 32

section Characters

theorem digit_le {c : Byte} (isDigit : isdigit c) : 0x30 ≤ c.toNat ∧ c.toNat ≤ 0x39 := by
  simp only [isdigit, Bool.decide_and, Bool.and_eq_true, decide_eq_true_eq] at isDigit
  constructor <;> bv_omega

theorem digit_solid {c : Byte} (isDigit : isdigit c) : isspace c = false := by
  have bounds := digit_le isDigit
  simp only [isspace, decide_eq_false_iff_not]
  rintro (blank | ⟨above, below⟩) <;> bv_omega

theorem digit_ne {c : Byte} (isDigit : isdigit c) : c ≠ ascii '-' ∧ c ≠ ascii '+' := by
  constructor <;> rintro rfl <;> exact absurd isDigit (by decide)

theorem IsSign.solid {sign : List Byte} (isSign : IsSign sign) : ∀ c ∈ sign, isspace c = false := by
  rcases isSign with rfl | rfl | rfl <;> decide

/-- Text without blanks stays as it is. -/
theorem zstrchomp_solid_text {s : List Byte} (solid : ∀ c ∈ s, isspace c = false) : Ini.zstrchomp s = s :=
  Trims.eq_zstrchomp
    { parts := ⟨[], [], by simp, by simp, by simp⟩
      head := fun c first => solid c (List.mem_of_head? first)
      last := fun c final => solid c (List.mem_of_getLast? final) }

end Characters

section Scan

variable {digits rest : List Byte}

theorem readSign_append {sign : List Byte} (isSign : IsSign sign)
    (noSign : ∀ c, rest.head? = some c → c ≠ ascii '-' ∧ c ≠ ascii '+') :
    readSign (sign ++ rest) = (decide (sign = [ascii '-']), rest) := by
  rcases isSign with rfl | rfl | rfl
  · cases rest with
    | nil => rfl
    | cons c rest =>
        have other := noSign c rfl
        rw [List.nil_append, readSign, if_neg other.1, if_neg other.2]
        rfl
  · rfl
  · rfl

theorem integerLoop_append (areDigits : ∀ c ∈ digits, isdigit c) (stops : StopsDigits rest) (value : ℚ) :
    integerLoop (digits ++ rest) value = ((integerLoop digits value).1, rest) := by
  induction digits generalizing value with
  | nil =>
      cases rest with
      | nil => rfl
      | cons c rest =>
          simp [integerLoop, stops c rfl]
  | cons c digits ih =>
      have first := areDigits c List.mem_cons_self
      rw [List.cons_append, integerLoop, integerLoop, if_pos first, if_pos first]
      exact ih (fun b inside => areDigits b (List.mem_cons_of_mem _ inside)) _

theorem fractionLoop_append (areDigits : ∀ c ∈ digits, isdigit c) (stops : StopsDigits rest) (value pow10 : ℚ) :
    fractionLoop (digits ++ rest) value pow10 = ((fractionLoop digits value pow10).1, rest) := by
  induction digits generalizing value pow10 with
  | nil =>
      cases rest with
      | nil => rfl
      | cons c rest =>
          simp [fractionLoop, stops c rfl]
  | cons c digits ih =>
      have first := areDigits c List.mem_cons_self
      rw [List.cons_append, fractionLoop, fractionLoop, if_pos first, if_pos first]
      exact ih (fun b inside => areDigits b (List.mem_cons_of_mem _ inside)) _ _

/-- The counter holds the number modulo its range. -/
theorem exponentLoop_digits (areDigits : ∀ c ∈ digits, isdigit c) (n : Nat) :
    exponentLoop digits (BitVec.ofNat 32 n) =
      BitVec.ofNat 32 (digits.foldl (fun value c => value * 10 + digit c) n) := by
  induction digits generalizing n with
  | nil => rfl
  | cons c digits ih =>
      have step : BitVec.ofNat 32 n * 10 + BitVec.ofNat 32 (digit c) = BitVec.ofNat 32 (n * 10 + digit c) := by
        bv_omega
      rw [exponentLoop, if_pos (areDigits c List.mem_cons_self), step, List.foldl_cons]
      exact ih (fun b inside => areDigits b (List.mem_cons_of_mem _ inside)) _

theorem Exponent.stopsDigits (exponent : Exponent) : StopsDigits exponent.text := by
  intro c first
  obtain rfl : exponent.mark = c := Option.some.inj first
  rcases exponent.isMark with mark | mark <;> rw [mark] <;> decide

/-- The digits around the decimal point are read up to the exponent. -/
theorem readValue_mantissa (mantissa : Mantissa) (exponent : Exponent) :
    readValue (mantissa.whole ++ mantissa.point ++ exponent.text) = (mantissa.value, exponent.text) := by
  have notPoint : exponent.mark ≠ ascii '.' := by
    rcases exponent.isMark with mark | mark <;> rw [mark] <;> decide
  unfold Mantissa.value Mantissa.point
  cases points : mantissa.fraction with
  | none =>
      have alone : integerLoop (mantissa.whole ++ []) 0 = _ :=
        integerLoop_append mantissa.wholeDigits (fun c first => by cases first) 0
      rw [List.append_nil] at alone
      have whole := integerLoop_append mantissa.wholeDigits exponent.stopsDigits 0
      rw [List.append_nil, readValue, readValue, whole, alone]
      simp only [Exponent.text, if_neg notPoint]
  | some digits =>
      have stops : StopsDigits (ascii '.' :: digits) := by
        rintro c first
        obtain rfl : ascii '.' = c := Option.some.inj first
        decide
      have stopsBefore : StopsDigits (ascii '.' :: (digits ++ exponent.text)) := stops
      have areDigits := mantissa.fractionDigits digits points
      have fraction := fractionLoop_append areDigits exponent.stopsDigits (integerLoop mantissa.whole 0).1 10
      rw [List.append_assoc, List.cons_append, readValue, readValue,
        integerLoop_append mantissa.wholeDigits stopsBefore, integerLoop_append mantissa.wholeDigits stops]
      simp only [if_true, fraction]

/-- What `zstrtod` has read at the end of a mantissa with an exponent. -/
theorem scanNumber_text (mantissa : Mantissa) (exponent : Exponent) :
    scanNumber (mantissa.text ++ exponent.text) =
      ⟨if mantissa.sign = [ascii '-'] then -1 else 1, mantissa.value, decide (exponent.sign = [ascii '-']),
        scaleOf (BitVec.ofNat 32 (decimal exponent.digits))⟩ := by
  have noSign : ∀ c, (mantissa.whole ++ mantissa.point ++ exponent.text).head? = some c →
      c ≠ ascii '-' ∧ c ≠ ascii '+' := by
    intro c first
    cases whole : mantissa.whole with
    | cons b digits =>
        rw [whole] at first
        obtain rfl : b = c := Option.some.inj first
        exact digit_ne (mantissa.wholeDigits b (whole ▸ List.mem_cons_self))
    | nil =>
        rw [whole, List.nil_append, Mantissa.point] at first
        split at first
        · obtain rfl : exponent.mark = c := Option.some.inj first
          rcases exponent.isMark with mark | mark <;> rw [mark] <;> decide
        · obtain rfl : ascii '.' = c := Option.some.inj first
          decide
  have signRead := readSign_append mantissa.isSign noSign
  have expSignRead : readSign (exponent.sign ++ exponent.digits) = _ :=
    readSign_append exponent.isSign fun c first => digit_ne (exponent.areDigits c (List.mem_of_head? first))
  have counted := exponentLoop_digits exponent.areDigits 0
  have valueRead := readValue_mantissa mantissa exponent
  rw [scanNumber, Mantissa.text, List.append_assoc, signRead]
  simp only [valueRead]
  simp only [Exponent.text, if_pos exponent.isMark, expSignRead, decide_eq_true_eq]
  rw [decimal, ← counted]
  rfl

end Scan

section Scale

/-- A scaling loop multiplies once for each time that the step goes into the exponent. -/
theorem scaleLoop_eq (step : PUInt) (factor : ℚ) (positive : 0 < step) (scale : ℚ) (expon : PUInt) :
    scaleLoop step factor positive scale expon =
      (scale * factor ^ (expon.toNat / step.toNat), BitVec.ofNat 32 (expon.toNat % step.toNat)) := by
  have above : 0 < step.toNat := by bv_omega
  fun_induction scaleLoop step factor positive scale expon with
  | case1 scale expon more ih =>
      have enough : step.toNat ≤ expon.toNat := by bv_omega
      have less : (expon - step).toNat = expon.toNat - step.toNat := by bv_omega
      rw [ih, less, mul_assoc, ← pow_succ', Nat.div_eq_sub_div above enough, Nat.mod_eq_sub_mod enough]
  | case2 scale expon last =>
      have below : expon.toNat < step.toNat := by bv_omega
      rw [Nat.div_eq_of_lt below, Nat.mod_eq_of_lt below]
      simp

/-- The scale is ten to the clamped exponent. -/
theorem scaleOf_eq (expon : PUInt) : scaleOf expon = 10 ^ min expon.toNat 308 := by
  have clamped : (if expon > strMaxExpon then strMaxExpon else expon).toNat = min expon.toNat 308 := by
    split
    · have wide : 308 < expon.toNat := by simp only [strMaxExpon] at *; bv_omega
      rw [Nat.min_eq_right (by omega)]
      rfl
    · have narrow : expon.toNat ≤ 308 := by simp only [strMaxExpon] at *; bv_omega
      rw [Nat.min_eq_left narrow]
  simp only [scaleOf, scaleLoop_eq, clamped]
  have below : min expon.toNat 308 ≤ 308 := Nat.min_le_right _ _
  generalize min expon.toNat 308 = n at below ⊢
  have rest : (BitVec.ofNat 32 (n % 50)).toNat = n % 50 := Nat.mod_eq_of_lt (by omega)
  have last : (BitVec.ofNat 32 (n % 50 % 8)).toNat = n % 50 % 8 := Nat.mod_eq_of_lt (by omega)
  have fifty : (50 : PUInt).toNat = 50 := rfl
  have eight : (8 : PUInt).toNat = 8 := rfl
  have one : (1 : PUInt).toNat = 1 := rfl
  rw [fifty, eight, one, rest, last, one_mul, ← pow_mul, ← pow_mul, ← pow_add, ← pow_add]
  congr 1
  omega

end Scale

section Results

variable (mantissa : Mantissa) (exponent : Exponent)

/-- The scale factor that `zstrtod` accumulates on a string. -/
def scaleFactor (str : List Byte) : ℚ := (scanNumber (Ini.zstrchomp str)).scale

theorem text_solid : ∀ c ∈ mantissa.text ++ exponent.text, isspace c = false := by
  intro c inside
  simp only [Mantissa.text, Exponent.text, List.mem_append, List.mem_cons] at inside
  rcases inside with (sign | whole | point) | mark | sign | digits
  · exact mantissa.isSign.solid c sign
  · exact digit_solid (mantissa.wholeDigits c whole)
  · rw [Mantissa.point] at point
    split at point
    · cases point
    · rename_i digits points
      rcases List.mem_cons.mp point with rfl | inside
      · decide
      · exact digit_solid (mantissa.fractionDigits digits points c inside)
  · rcases exponent.isMark with isMark | isMark <;> rw [mark, isMark] <;> decide
  · exact exponent.isSign.solid c sign
  · exact digit_solid (exponent.areDigits c digits)

theorem scaleFactor_text : scaleFactor (mantissa.text ++ exponent.text) =
    10 ^ min (decimal exponent.digits % 2 ^ 32) 308 := by
  rw [scaleFactor, zstrchomp_solid_text (text_solid mantissa exponent), scanNumber_text, scaleOf_eq,
    BitVec.toNat_ofNat]

/-- The counter clamps to the right number just for the exponents named above. -/
theorem clamp_eq_iff : min (decimal exponent.digits % 2 ^ 32) 308 = exponent.saturated ↔ exponent.Clamped := by
  unfold Exponent.saturated Exponent.Clamped
  omega

theorem scaleFactor_iff :
    scaleFactor (mantissa.text ++ exponent.text) = 10 ^ exponent.saturated ↔ exponent.Clamped := by
  rw [scaleFactor_text, ← clamp_eq_iff]
  exact pow_right_inj₀ (by norm_num) (by norm_num)

theorem abs_zstrtod_text : |zstrtod true (some (mantissa.text ++ exponent.text))| =
    if exponent.sign = [ascii '-'] then |mantissa.value| / scaleFactor (mantissa.text ++ exponent.text)
    else |mantissa.value| * scaleFactor (mantissa.text ++ exponent.text) := by
  have positive : 0 < scaleFactor (mantissa.text ++ exponent.text) := by
    rw [scaleFactor_text]
    positivity
  have solid := zstrchomp_solid_text (text_solid mantissa exponent)
  have unit : |(if mantissa.sign = [ascii '-'] then -1 else 1 : ℚ)| = 1 := by
    split <;> simp
  unfold scaleFactor at positive ⊢
  simp only [zstrtod, if_true, Option.map_some, solid] at positive ⊢
  rw [scanNumber_text] at positive ⊢
  simp only [abs_mul, unit, one_mul, decide_eq_true_eq]
  split
  · rw [abs_div, abs_of_pos positive]
  · rw [abs_mul, abs_of_pos positive]

/-- Of two exponents without a minus that are clamped right, the larger one does not give a
    result of smaller magnitude. -/
theorem abs_zstrtod_mono (larger : Exponent) (clamped : exponent.Clamped) (largerClamped : larger.Clamped)
    (plus : exponent.sign ≠ [ascii '-']) (largerPlus : larger.sign ≠ [ascii '-'])
    (ordered : decimal exponent.digits ≤ decimal larger.digits) :
    |zstrtod true (some (mantissa.text ++ exponent.text))| ≤ |zstrtod true (some (mantissa.text ++ larger.text))| := by
  have exact := (scaleFactor_iff mantissa exponent).mpr clamped
  have largerExact := (scaleFactor_iff mantissa larger).mpr largerClamped
  have saturated : exponent.saturated ≤ larger.saturated := min_le_min_right 308 ordered
  have scales : (10 : ℚ) ^ exponent.saturated ≤ 10 ^ larger.saturated := pow_le_pow_right₀ (by norm_num) saturated
  rw [abs_zstrtod_text, abs_zstrtod_text, if_neg plus, if_neg largerPlus, exact, largerExact]
  exact mul_le_mul_of_nonneg_left scales (abs_nonneg _)

/-- The three loops scale by ten to the exponent, or to 308 above that, exactly when the
    counter clamps to the right number; among these exponents results grow with them. -/
theorem zstrtod_exponent :
    (scaleFactor (mantissa.text ++ exponent.text) = 10 ^ exponent.saturated ↔ exponent.Clamped) ∧
      ∀ larger : Exponent, exponent.Clamped → larger.Clamped →
        exponent.sign ≠ [ascii '-'] → larger.sign ≠ [ascii '-'] →
          decimal exponent.digits ≤ decimal larger.digits →
            |zstrtod true (some (mantissa.text ++ exponent.text))| ≤
              |zstrtod true (some (mantissa.text ++ larger.text))| :=
  ⟨scaleFactor_iff mantissa exponent,
    fun larger clamped largerClamped plus largerPlus ordered =>
      abs_zstrtod_mono mantissa exponent larger clamped largerClamped plus largerPlus ordered⟩

/-- The mantissa `1` -/
def oneMantissa : Mantissa where
  sign := []
  whole := asciiString "1"
  fraction := none
  isSign := Or.inl rfl
  wholeDigits := by decide
  fractionDigits := by simp

/-- `e` and some digits -/
def plainExponent (digits : List Byte) (areDigits : ∀ c ∈ digits, isdigit c) : Exponent where
  mark := ascii 'e'
  sign := []
  digits := digits
  isMark := Or.inl rfl
  isSign := Or.inl rfl
  areDigits := areDigits

/-- `1e7` and `1e310` -/
theorem zstrtod_exponent_small :
    |zstrtod true (some (asciiString "1e7"))| ≤ |zstrtod true (some (asciiString "1e310"))| :=
  (zstrtod_exponent oneMantissa (plainExponent (asciiString "7") (by decide))).2
    (plainExponent (asciiString "310") (by decide)) (Or.inl (by decide)) (Or.inl (by decide))
    (by decide) (by decide) (by decide)

/-- `1e4294967296` is read as `1e0`, not as `1e308`. -/
theorem zstrtod_exponent_wraps :
    scaleFactor (asciiString "1e4294967296") = 1 ∧
      ¬ scaleFactor (asciiString "1e4294967296") = 10 ^ min (decimal (asciiString "4294967296")) 308 := by
  have read : scaleFactor (asciiString "1e4294967296") = 1 :=
    (scaleFactor_text oneMantissa (plainExponent (asciiString "4294967296") (by decide))).trans (by
      rw [show decimal (plainExponent (asciiString "4294967296") (by decide)).digits = 4294967296 by decide]
      norm_num)
  refine ⟨read, ?_⟩
  have large : (1 : ℚ) < 10 ^ 308 := one_lt_pow₀ (by norm_num) (by norm_num)
  rw [read, show min (decimal (asciiString "4294967296")) 308 = 308 by decide]
  exact large.ne

end Results

end Plibsys.Strings
