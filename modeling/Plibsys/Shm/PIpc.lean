import Plibsys.Strings.Trimming

/-! # Temporary directories of System V IPC

`pipc.c`: the directory of the key files, with one slash at its end.  The scan over the
trailing slashes has no lower bound.
-/

namespace Plibsys.Shm

open Support Strings

def slash : Byte := ascii '/'

/-- What `zipc_unix_get_temzdir` is built with and what it finds at run time. -/
structure TmpDirs where
  /-- The macro `P_tmpdir`, where it is defined. -/
  pTmpdir : Option (List Byte)
  /-- `getenv ("TMPDIR")` -/
  tmzenv : Option (List Byte)

/-- The string whose trailing slashes are dropped; without one, the answer is `"/tmp/"`. -/
def TmpDirs.accepted (dirs : TmpDirs) : Option (List Byte) :=
  match dirs.pTmpdir with
  | some macroText => if macroText.length > 0 then some macroText else none
  | none => dirs.tmzenv

/-- `while (*(str + --len) == '/')` -/
def slashScan (str : Region) : Nat → PSize → Exec PSize
  | 0, _ => .error .outOfFuel
  | fuel + 1, len => do
      let c ← str.load (len - 1).toNat
      if c = slash then slashScan str fuel (len - 1) else pure (len - 1)

/-- The outcomes of the two allocations. -/
structure TmpMallocs where
  str : Bool
  ret : Bool

/-- `zipc_unix_get_temzdir` -/
def zipcUnixGetTemzdir (mallocs : TmpMallocs) (dirs : TmpDirs) : Exec (Option Region) :=
  match dirs.accepted with
  | none => zstrdup mallocs.ret (some (cString (asciiString "/tmp/")))
  | some dir => do
      let copied ← zstrdup mallocs.str (some (cString dir))
      match copied with
      | none => .error .fault
      | some str =>
          let size ← str.strlen
          let len ← slashScan str (size + 1) (BitVec.ofNat 64 size)
          let len := len + 1
          let str ← str.store len.toNat 0
          if mallocs.ret then
            let ret ← (Region.zeros (len + 2).toNat).strcpy str
            let ret ← ret.strcat (cString [slash])
            pure (some ret)
          else
            pure none

/-- A directory without its trailing slashes. -/
def withoutSlashes (dir : List Byte) : List Byte := dir.rdropWhile fun c => c = slash

variable {dir : List Byte}

/-- Over slashes only, the scan leaves the buffer at its start. -/
theorem slashScan_slashes (str : Region) (small : str.size < 2 ^ 64) (fuel k : Nat) (enough : k < fuel) (inside : k ≤ str.size)
    (slashes : ∀ a, a < k → str.byte a = slash) : slashScan str fuel (BitVec.ofNat 64 k) = .error .fault := by
  induction k generalizing fuel with
  | zero =>
      obtain ⟨fuel, rfl⟩ := Nat.exists_eq_succ_of_ne_zero (Nat.ne_of_gt enough)
      have before : (BitVec.ofNat 64 0 - 1).toNat = 2 ^ 64 - 1 := by decide
      rw [slashScan, before, Region.load, if_neg (by omega)]
      rfl
  | succ k ih =>
      obtain ⟨fuel, rfl⟩ := Nat.exists_eq_succ_of_ne_zero (Nat.ne_of_gt (Nat.zero_lt_of_lt enough))
      have back : BitVec.ofNat 64 (k + 1) - 1 = BitVec.ofNat 64 k := by bv_omega
      have index : (BitVec.ofNat 64 k).toNat = k := Nat.mod_eq_of_lt (by omega)
      rw [slashScan, back, index, Region.load_ok (by omega), Exec.ok_bind, slashes k (by omega), if_pos rfl]
      exact ih fuel (by omega) (by omega) (fun a below => slashes a (by omega))

/-- The scan stops at the last byte that is not a slash. -/
theorem slashScan_stops (str : Region) (small : str.size < 2 ^ 64) (fuel last count : Nat) (enough : count < fuel)
    (inside : last + 1 + count ≤ str.size) (solid : str.byte last ≠ slash)
    (slashes : ∀ a, last < a → a < last + 1 + count → str.byte a = slash) :
    slashScan str fuel (BitVec.ofNat 64 (last + 1 + count)) = .ok (BitVec.ofNat 64 last) := by
  induction count generalizing fuel with
  | zero =>
      obtain ⟨fuel, rfl⟩ := Nat.exists_eq_succ_of_ne_zero (Nat.ne_of_gt enough)
      have back : BitVec.ofNat 64 (last + 1 + 0) - 1 = BitVec.ofNat 64 last := by bv_omega
      have index : (BitVec.ofNat 64 last).toNat = last := Nat.mod_eq_of_lt (by omega)
      rw [slashScan, back, index, Region.load_ok (by omega), Exec.ok_bind, if_neg solid]
      rfl
  | succ count ih =>
      obtain ⟨fuel, rfl⟩ := Nat.exists_eq_succ_of_ne_zero (Nat.ne_of_gt (Nat.zero_lt_of_lt enough))
      have back : BitVec.ofNat 64 (last + 1 + (count + 1)) - 1 = BitVec.ofNat 64 (last + 1 + count) := by bv_omega
      have index : (BitVec.ofNat 64 (last + 1 + count)).toNat = last + 1 + count := Nat.mod_eq_of_lt (by omega)
      rw [slashScan, back, index, Region.load_ok (by omega), Exec.ok_bind, slashes _ (by omega) (by omega),
        if_pos rfl]
      exact ih fuel (by omega) (by omega) (fun a above below => slashes a above (by omega))

section Directory

variable {dirs : TmpDirs}

/-- With the directory copied, the rest is the scan, the new end and the joined string. -/
theorem zipcUnixGetTemzdir_eq (accepted : dirs.accepted = some dir) (noNul : 0 ∉ dir) :
    zipcUnixGetTemzdir ⟨true, true⟩ dirs = (do
      let len ← slashScan (cString dir) (dir.length + 1) (BitVec.ofNat 64 dir.length)
      let str ← (cString dir).store (len + 1).toNat 0
      let ret ← (Region.zeros (len + 1 + 2).toNat).strcpy str
      let ret ← ret.strcat (cString [slash])
      pure (some ret)) := by
  simp only [zipcUnixGetTemzdir, accepted, zstrdup_cString noNul, Exec.ok_bind,
    (startsWith_cString noNul).strlen, if_true]

theorem zipcUnixGetTemzdir_slashes (accepted : dirs.accepted = some dir) (noNul : 0 ∉ dir)
    (fits : dir.length < 2 ^ 63) (slashes : ∀ c ∈ dir, c = slash) :
    zipcUnixGetTemzdir ⟨true, true⟩ dirs = .error .fault := by
  have outside := slashScan_slashes (cString dir) (by rw [size_cString]; omega) (dir.length + 1) dir.length
    (by omega) (by rw [size_cString]; omega) (fun a below => by
      rw [byte_cString (by omega)]
      exact slashes _ (Ini.getD_mem below))
  rw [zipcUnixGetTemzdir_eq accepted noNul, outside]
  rfl

theorem zipcUnixGetTemzdir_text (accepted : dirs.accepted = some dir) (noNul : 0 ∉ dir)
    (fits : dir.length < 2 ^ 63) (solid : ∃ c ∈ dir, c ≠ slash) :
    zipcUnixGetTemzdir ⟨true, true⟩ dirs = .ok (some (cString (withoutSlashes dir ++ [slash]))) := by
  have parts : withoutSlashes dir ++ dir.rtakeWhile (fun c => c = slash) = dir :=
    List.rdropWhile_append_rtakeWhile
  have slashes : ∀ c ∈ dir.rtakeWhile (fun c => c = slash), c = slash := fun c inside => by
    simpa using List.mem_rtakeWhile_imp inside
  have nonempty : withoutSlashes dir ≠ [] := by
    intro empty
    obtain ⟨c, inside, other⟩ := solid
    have allSlashes := List.rdropWhile_eq_nil_iff.mp empty c inside
    exact other (by simpa using allSlashes)
  have lastSolid : (withoutSlashes dir).getLast nonempty ≠ slash := fun last =>
    List.rdropWhile_last_not (fun c => decide (c = slash)) dir nonempty (decide_eq_true last)
  generalize withoutSlashes dir = text at parts nonempty lastSolid ⊢
  generalize dir.rtakeWhile (fun c => c = slash) = tail at parts slashes
  subst parts
  have positive := List.length_pos_iff.mpr nonempty
  rw [List.length_append] at fits
  have noNulText : 0 ∉ text := fun inside => noNul (List.mem_append_left _ inside)
  have scanned : slashScan (cString (text ++ tail)) ((text ++ tail).length + 1)
      (BitVec.ofNat 64 (text ++ tail).length) = .ok (BitVec.ofNat 64 (text.length - 1)) := by
    have total : (text ++ tail).length = text.length - 1 + 1 + tail.length := by
      rw [List.length_append]
      omega
    have stops := slashScan_stops (cString (text ++ tail)) (by rw [size_cString]; omega)
      ((text ++ tail).length + 1) (text.length - 1) tail.length (by omega) (by rw [size_cString]; omega)
    rw [← total] at stops
    apply stops
    · rw [byte_cString (by omega), List.getD_append _ _ _ _ (by omega), List.getD_eq_getElem _ _ (by omega),
        ← List.getLast_eq_getElem nonempty]
      exact lastSolid
    · intro a above below
      rw [byte_cString (by omega), List.getD_append_right _ _ _ _ (by omega)]
      exact slashes _ (Ini.getD_mem (by omega))
  have ended : BitVec.ofNat 64 (text.length - 1) + 1 = BitVec.ofNat 64 text.length := by bv_omega
  have index : (BitVec.ofNat 64 text.length).toNat = text.length := Nat.mod_eq_of_lt (by omega)
  have size : (BitVec.ofNat 64 text.length + 2).toNat = text.length + [slash].length + 1 := by
    rw [List.length_singleton]
    bv_omega
  rw [zipcUnixGetTemzdir_eq accepted noNul, scanned, Exec.ok_bind, ended, index,
    Region.store_ok (by rw [size_cString, List.length_append]; omega), Exec.ok_bind]
  have cut : StartsWith ((cString (text ++ tail)).patch text.length [0]) text := by
    refine ⟨noNulText, by rw [Region.size_patch, size_cString, List.length_append]; omega, ?_⟩
    intro a inside
    rcases Nat.lt_or_eq_of_le inside with below | rfl
    · rw [Region.byte_patch_outside (Or.inl below), byte_cString (by rw [List.length_append]; omega),
        List.getD_append _ _ _ _ below]
    · rw [List.getD_eq_default text _ (Nat.le_refl _)]
      simp [Region.patch]
  have noNulSlash : (0 : Byte) ∉ [slash] := by decide
  have joined := strcpy_strcat cut noNulSlash size
  rw [← bind_assoc, joined]
  rfl

/-- The scan stays inside the buffer, and the answer ends with just one slash, exactly when
    the directory has another character than slashes. -/
theorem zipcUnixGetTemzdir_iff (dirs : TmpDirs) (dir : List Byte) (accepted : dirs.accepted = some dir)
    (noNul : 0 ∉ dir) (fits : dir.length < 2 ^ 63) :
    zipcUnixGetTemzdir ⟨true, true⟩ dirs = .ok (some (cString (withoutSlashes dir ++ [slash]))) ↔
      ∃ c ∈ dir, c ≠ slash := by
  constructor
  · intro answered
    by_contra none
    have slashes : ∀ c ∈ dir, c = slash := fun c inside => by_contra fun other => none ⟨c, inside, other⟩
    rw [zipcUnixGetTemzdir_slashes accepted noNul fits slashes] at answered
    cases answered
  · exact zipcUnixGetTemzdir_text accepted noNul fits

/-- `TMPDIR=/var/tmp//` -/
theorem zipcUnixGetTemzdir_var_tmp :
    zipcUnixGetTemzdir ⟨true, true⟩ ⟨none, some (asciiString "/var/tmp//")⟩ =
      .ok (some (cString (asciiString "/var/tmp/"))) := by
  have answered := (zipcUnixGetTemzdir_iff ⟨none, some (asciiString "/var/tmp//")⟩ (asciiString "/var/tmp//") rfl
    (by decide) (by decide)).mpr ⟨ascii 'v', by decide, by decide⟩
  have text : withoutSlashes (asciiString "/var/tmp//") ++ [slash] = asciiString "/var/tmp/" := by decide
  rwa [text] at answered

/-- `TMPDIR=/` -/
theorem zipcUnixGetTemzdir_root_faults :
    zipcUnixGetTemzdir ⟨true, true⟩ ⟨none, some (asciiString "/")⟩ = .error .fault ∧
      zipcUnixGetTemzdir ⟨true, true⟩ ⟨none, some []⟩ = .error .fault := by
  constructor
  · exact zipcUnixGetTemzdir_slashes rfl (by decide) (by decide) (by decide)
  · exact zipcUnixGetTemzdir_slashes rfl (by decide) (by decide) (by decide)

end Directory

end Plibsys.Shm
