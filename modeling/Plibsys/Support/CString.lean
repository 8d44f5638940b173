import Plibsys.Support.Region

/-! # C strings in memory

A C string is a region with a NUL; a pointer into it is a signed offset, and reading
through an offset outside the region faults.  `strlen`, `strcpy` and `strcat` read a string
up to its NUL.
-/

namespace Plibsys.Support

/-- The region that holds a string and its NUL, and nothing else. -/
def cString (text : List (BitVec 8)) : Region := Region.ofList (text ++ [0])

namespace Region

/-- `*(m + a)` -/
def deref (m : Region) (a : Int) : Exec (BitVec 8) :=
  if 0 ≤ a then m.load a.toNat else .error .fault

/-- The scan of `strlen` from an offset. -/
def strlenLoop (m : Region) : Nat → Nat → Exec Nat
  | 0, _ => .error .outOfFuel
  | fuel + 1, a => do
      let c ← m.load a
      if c = 0 then pure a else strlenLoop m fuel (a + 1)

/-- `strlen (m)` -/
def strlen (m : Region) : Exec Nat := strlenLoop m (m.size + 1) 0

/-- `strcpy (dst, src)` -/
def strcpy (dst src : Region) : Exec Region := do
  let len ← src.strlen
  dst.memcpy 0 src 0 (len + 1)

/-- `strcat (dst, src)` -/
def strcat (dst src : Region) : Exec Region := do
  let off ← dst.strlen
  let len ← src.strlen
  dst.memcpy off src 0 (len + 1)

end Region

section

variable {text more : List (BitVec 8)} {n : Nat}

@[simp] theorem size_cString (text : List (BitVec 8)) : (cString text).size = text.length + 1 := by
  simp [cString, Region.ofList]

theorem byte_cString {a : Nat} (inside : a ≤ text.length) : (cString text).byte a = text.getD a 0 := by
  simp only [cString, Region.ofList]
  rcases Nat.lt_or_eq_of_le inside with below | rfl
  · rw [List.getD_append _ _ _ _ below]
  · rw [List.getD_append_right _ _ _ _ (Nat.le_refl _), List.getD_eq_default text _ (Nat.le_refl _), Nat.sub_self]
    rfl

theorem load_cString {a : Nat} (inside : a ≤ text.length) :
    (cString text).load a = .ok (text.getD a 0) := by
  rw [Region.load_ok (by rw [size_cString]; omega), byte_cString inside]

theorem deref_cString {a : Nat} (inside : a ≤ text.length) :
    (cString text).deref (a : Int) = .ok (text.getD a 0) := by
  rw [Region.deref, if_pos (Int.natCast_nonneg a), Int.toNat_natCast, load_cString inside]

theorem getD_ne_zero {a : Nat} (noNul : 0 ∉ text) (inside : a < text.length) : text.getD a 0 ≠ 0 := by
  rw [List.getD_eq_getElem _ _ inside]
  intro zero
  exact noNul (zero ▸ List.getElem_mem inside)

/-- A string at the start of a region, with its NUL. -/
structure StartsWith (m : Region) (text : List (BitVec 8)) : Prop where
  noNul : 0 ∉ text
  fits : text.length < m.size
  bytes : ∀ a, a ≤ text.length → m.byte a = text.getD a 0

theorem startsWith_cString (noNul : 0 ∉ text) : StartsWith (cString text) text where
  noNul := noNul
  fits := by rw [size_cString]; omega
  bytes _ inside := byte_cString inside

namespace StartsWith

variable {m dst src : Region}

theorem strlenLoop (starts : StartsWith m text) (fuel a : Nat) (inside : a ≤ text.length)
    (enough : text.length < a + fuel) : m.strlenLoop fuel a = .ok text.length := by
  induction fuel generalizing a with
  | zero => omega
  | succ fuel ih =>
      have fits := starts.fits
      rw [Region.strlenLoop, Region.load_ok (by omega), Exec.ok_bind, starts.bytes a inside]
      rcases Nat.lt_or_eq_of_le inside with below | rfl
      · rw [if_neg (getD_ne_zero starts.noNul below)]
        exact ih (a + 1) below (by omega)
      · rw [List.getD_eq_default text _ (Nat.le_refl _), if_pos rfl]
        rfl

theorem strlen (starts : StartsWith m text) : m.strlen = .ok text.length :=
  starts.strlenLoop _ 0 (Nat.zero_le _) (by have := starts.fits; omega)

/-- The bytes of the string with its NUL. -/
theorem slice (starts : StartsWith m text) : m.slice 0 (text.length + 1) = text ++ [0] := by
  apply List.ext_getElem
  · simp
  · intro a inside inside'
    rw [List.length_append, List.length_singleton] at inside'
    simp only [Region.slice, List.getElem_map, List.getElem_range, Nat.zero_add]
    rw [starts.bytes a (by omega), ← byte_cString (show a ≤ text.length by omega)]
    simp [cString, Region.ofList, inside']

theorem strcpy (starts : StartsWith src text) (room : text.length + 1 ≤ dst.size) :
    dst.strcpy src = .ok (dst.patch 0 (text ++ [0])) := by
  have fits := starts.fits
  rw [Region.strcpy, starts.strlen, Exec.ok_bind, Region.memcpy_ok (by omega) (by omega), starts.slice]

theorem strcat (first : StartsWith dst text) (second : StartsWith src more)
    (room : text.length + more.length + 1 ≤ dst.size) :
    dst.strcat src = .ok (dst.patch text.length (more ++ [0])) := by
  have fits := second.fits
  rw [Region.strcat, first.strlen, Exec.ok_bind, second.strlen, Exec.ok_bind,
    Region.memcpy_ok (by omega) (by omega), second.slice]

end StartsWith

/-- After a copy the string stands at the start of the destination. -/
theorem startsWith_patch (m : Region) (noNul : 0 ∉ text) (room : text.length < m.size) :
    StartsWith (m.patch 0 (text ++ [0])) text where
  noNul := noNul
  fits := room
  bytes a inside := by
    have below : a < (text ++ [0]).length := by
      rw [List.length_append, List.length_singleton]
      omega
    have copied : (m.patch 0 (text ++ [0])).byte (0 + a) = _ := Region.byte_patch_inside below
    rw [Nat.zero_add] at copied
    rw [copied, ← byte_cString inside]
    simp [cString, Region.ofList, Nat.lt_succ_of_le inside]

/-- Filled with a string and its NUL, a block of zeros of just this length is the string. -/
theorem zeros_patch (text : List (BitVec 8)) :
    (Region.zeros (text.length + 1)).patch 0 (text ++ [0]) = cString text := by
  simp [Region.zeros, Region.patch, cString, Region.ofList]

/-- `strcpy` and `strcat` into a block of zeros of just the length of both strings. -/
theorem strcpy_strcat {src : Region} (starts : StartsWith src text) (noNul : 0 ∉ more)
    (size : n = text.length + more.length + 1) :
    (do
      let ret ← (Region.zeros n).strcpy src
      ret.strcat (cString more)) = .ok (cString (text ++ more)) := by
  have copied := startsWith_patch (Region.zeros n) starts.noNul (by rw [Region.size_zeros]; omega)
  rw [starts.strcpy (by rw [Region.size_zeros]; omega), Exec.ok_bind,
    copied.strcat (startsWith_cString noNul) (by rw [Region.size_patch, Region.size_zeros]; omega)]
  have apart : ((Region.zeros n).patch 0 text).patch (0 + text.length) [0] = _ := Region.patch_append text [0]
  have joined : ((Region.zeros n).patch 0 text).patch (0 + text.length) (more ++ [0]) = _ :=
    Region.patch_append text (more ++ [0])
  rw [Nat.zero_add] at apart joined
  rw [← apart, Region.patch_patch _ _ (by simp), joined, ← List.append_assoc, ← zeros_patch, size,
    List.length_append]

end

end Plibsys.Support
