import Plibsys.Shm.RingOps
import Plibsys.Support.CountedLoop

/-! # Transfer lengths

The copy loops of `pshmbuffer.c` count with 32 bits to a bound of 64 bits, and a read
reports its length as a 32-bit signed number.
-/

namespace Plibsys.Shm

open Support

/-- How far a position has moved around a ring of size `n`. -/
def advanced (n before after : Nat) : Nat := (after + n - before) % n

namespace PShmBuffer

variable {n fuel : Nat} {buf : PShmBuffer} {mem storage data : Region} {len pos : PSize}

/-- One pass of the copy loop of a read. -/
def readBody (buf : PShmBuffer) (mem : Region) (pos : PSize) (i : Nat) (storage : Region) : Exec Region :=
  storage.memcpy i mem (buf.slot pos (BitVec.ofNat 32 i)) 1

/-- One pass of the copy loop of a write. -/
def writeBody (buf : PShmBuffer) (data : Region) (pos : PSize) (i : Nat) (mem : Region) : Exec Region :=
  mem.memcpy (buf.slot pos (BitVec.ofNat 32 i)) data i 1

/-- The storage after this many bytes were copied out of the ring, one by one. -/
def readCopies (buf : PShmBuffer) (mem : Region) (pos : PSize) (count : Nat) (storage : Region) : Region :=
  (List.range count).foldl
    (fun storage i => storage.patch i (mem.slice (buf.slot pos (BitVec.ofNat 32 i)) 1)) storage

/-- The segment after this many bytes were copied into the ring, one by one. -/
def writeCopies (buf : PShmBuffer) (data : Region) (pos : PSize) (count : Nat) (mem : Region) : Region :=
  (List.range count).foldl
    (fun mem i => mem.patch (buf.slot pos (BitVec.ofNat 32 i)) (data.slice i 1)) mem

/-- How many bytes a read has to transfer. -/
def readCount (buf : PShmBuffer) (mem : Region) (len : PSize) : Nat :=
  min (usedIn buf.size.toNat mem) len.toNat

/-- There is not enough free space for a write. -/
def Refused (buf : PShmBuffer) (mem : Region) (len : PSize) : Prop :=
  buf.size.toNat - 1 - usedIn buf.size.toNat mem < len.toNat

instance (buf : PShmBuffer) (mem : Region) (len : PSize) : Decidable (buf.Refused mem len) :=
  inferInstanceAs (Decidable (_ < _))

/-- How many bytes a write has to transfer. -/
def writeCount (buf : PShmBuffer) (mem : Region) (len : PSize) : Nat :=
  if buf.Refused mem len then 0 else len.toNat

/-- A read ends, and it reports what it has transferred. -/
def ReadReports (buf : PShmBuffer) (mem storage : Region) (len : PSize) : Prop :=
  ∃ fuel count mem', buf.zshmBufferRead fuel .granted storage len mem =
      .ok (.ok count, buf.readCopies mem (mem.word readOffset) (buf.readCount mem len) storage, mem') ∧
    count.toInt = buf.readCount mem len ∧
    advanced buf.size.toNat (readPos mem) (readPos mem') ≤ buf.readCount mem len

/-- A write ends, and it reports what it has transferred. -/
def WriteReports (buf : PShmBuffer) (mem data : Region) (len : PSize) : Prop :=
  ∃ fuel count mem', buf.zshmBufferWrite fuel .granted data len mem = .ok (.ok count, mem') ∧
    area mem' = area (buf.writeCopies data (mem.word writeOffset) (buf.writeCount mem len) mem) ∧
    count.toInt = buf.writeCount mem len ∧
    advanced buf.size.toNat (writePos mem) (writePos mem') ≤ buf.writeCount mem len

section Loops

theorem slot_lt (buf : PShmBuffer) (positive : 0 < buf.size.toNat) (pos : PSize) (i : PUInt) :
    buf.slot pos i < dataOffset + buf.size.toNat := by
  unfold slot
  rw [BitVec.toNat_umod]
  exact Nat.add_lt_add_left (Nat.mod_lt _ positive) _

theorem readLoop_counted (buf : PShmBuffer) (mem : Region) (pos toCopy : PSize) (fuel : Nat) (i : PUInt)
    (storage : Region) :
    buf.readLoop mem pos toCopy fuel i storage = countedLoop (buf.readBody mem pos) toCopy.toNat fuel i storage := by
  induction fuel generalizing i storage with
  | zero => rfl
  | succ fuel ih =>
      have test : i.setWidth 64 < toCopy ↔ i.toNat < toCopy.toNat := by rw [BitVec.lt_def, setWidth_toNat]
      have index : BitVec.ofNat 32 i.toNat = i := BitVec.eq_of_toNat_eq (Nat.mod_eq_of_lt i.isLt)
      simp only [readLoop, countedLoop, readBody, test, index, ih]

theorem writeLoop_counted (buf : PShmBuffer) (data : Region) (pos len : PSize) (fuel : Nat) (i : PUInt)
    (mem : Region) :
    buf.writeLoop data pos len fuel i mem = countedLoop (buf.writeBody data pos) len.toNat fuel i mem := by
  induction fuel generalizing i mem with
  | zero => rfl
  | succ fuel ih =>
      have test : i.setWidth 64 < len ↔ i.toNat < len.toNat := by rw [BitVec.lt_def, setWidth_toNat]
      have index : BitVec.ofNat 32 i.toNat = i := BitVec.eq_of_toNat_eq (Nat.mod_eq_of_lt i.isLt)
      simp only [writeLoop, countedLoop, writeBody, test, index, ih]

theorem readBody_runs (ring : InRing buf.size.toNat mem) (pos : PSize) (bound i : Nat) (storage : Region)
    (below : i < bound) (room : bound ≤ storage.size) :
    buf.readBody mem pos i storage = .ok (storage.patch i (mem.slice (buf.slot pos (BitVec.ofNat 32 i)) 1)) ∧
      bound ≤ (storage.patch i (mem.slice (buf.slot pos (BitVec.ofNat 32 i)) 1)).size := by
  have fits := ring.fits
  have inside := slot_lt buf (Nat.zero_lt_of_lt ring.readBelow) pos (BitVec.ofNat 32 i)
  exact ⟨Region.memcpy_ok (by omega) (by omega), room⟩

theorem writeBody_runs (buf : PShmBuffer) (positive : 0 < buf.size.toNat) (pos : PSize) (source : len.toNat ≤ data.size) (i : Nat)
    (mem : Region) (below : i < len.toNat) (fits : dataOffset + buf.size.toNat ≤ mem.size) :
    buf.writeBody data pos i mem = .ok (mem.patch (buf.slot pos (BitVec.ofNat 32 i)) (data.slice i 1)) ∧
      dataOffset + buf.size.toNat ≤ (mem.patch (buf.slot pos (BitVec.ofNat 32 i)) (data.slice i 1)).size := by
  have inside := slot_lt buf positive pos (BitVec.ofNat 32 i)
  exact ⟨Region.memcpy_ok (by omega) (by omega), fits⟩

end Loops

section Copies

/-- Copies into the ring leave the header alone. -/
theorem writeCopies_header (buf : PShmBuffer) (data : Region) (pos : PSize) (count : Nat) (mem : Region) :
    (buf.writeCopies data pos count mem).size = mem.size ∧
      ∀ a < dataOffset, (buf.writeCopies data pos count mem).byte a = mem.byte a := by
  unfold writeCopies
  induction List.range count generalizing mem with
  | nil => exact ⟨rfl, fun _ _ => rfl⟩
  | cons i rest ih =>
      rw [List.foldl_cons]
      obtain ⟨size, header⟩ := ih (mem.patch (buf.slot pos (BitVec.ofNat 32 i)) (data.slice i 1))
      refine ⟨size, fun a inside => (header a inside).trans (Region.byte_patch_outside (Or.inl ?_))⟩
      unfold slot
      omega

/-- A position never moves further than by the count that is added to it, even where the sum
    wraps. -/
theorem advanced_le (buf : PShmBuffer) (pos count : PSize) (below : pos.toNat < buf.size.toNat) (turn : count.toNat < buf.size.toNat) :
    advanced buf.size.toNat pos.toNat ((pos + count) % buf.size).toNat ≤ count.toNat := by
  have wide := buf.size.isLt
  unfold advanced
  rw [BitVec.toNat_umod, BitVec.toNat_add]
  generalize buf.size.toNat = n at below turn wide ⊢
  generalize pos.toNat = p at below ⊢
  generalize count.toNat = k at turn ⊢
  by_cases wraps : p + k < 2 ^ 64
  · rw [Nat.mod_eq_of_lt wraps, Ring.mod_eq (show p + k < 2 * n by omega)]
    split
    · rw [show p + k + n - p = k + n by omega, Nat.add_mod_right]
      exact Nat.mod_le _ _
    · rw [show p + k - n + n - p = k by omega]
      exact Nat.mod_le _ _
  · have wrapped : (p + k) % 2 ^ 64 = p + k - 2 ^ 64 := by
      rw [Nat.mod_eq_sub_mod (by omega), Nat.mod_eq_of_lt (by omega)]
    rw [wrapped, Nat.mod_eq_of_lt (show p + k - 2 ^ 64 < n by omega)]
    exact Nat.le_trans (Nat.mod_le _ _) (by omega)

end Copies

section Read

/-- A read of a ring of any size. -/
theorem zshmBufferRead_eq (ring : InRing buf.size.toNat mem) (asked : len ≠ 0) :
    buf.zshmBufferRead fuel .granted storage len mem =
      if mem.word readOffset = mem.word writeOffset then .ok (.ok 0, storage, mem)
      else (do
        let storage ← buf.readLoop mem (mem.word readOffset) (BitVec.ofNat 64 (buf.readCount mem len)) fuel 0 storage
        .ok (.ok ((BitVec.ofNat 64 (buf.readCount mem len)).setWidth 32), storage,
          mem.patch readOffset
            (encode 8 ((mem.word readOffset + BitVec.ofNat 64 (buf.readCount mem len)) % buf.size).toNat))) := by
  have fits := ring.fits
  have usedBelow := ring.usedIn_lt
  have wide := buf.size.isLt
  have copies : (if BitVec.ofNat 64 (usedIn buf.size.toNat mem) ≤ len then
      BitVec.ofNat 64 (usedIn buf.size.toNat mem) else len) = BitVec.ofNat 64 (buf.readCount mem len) := by
    unfold readCount
    generalize usedIn buf.size.toNat mem = used at usedBelow ⊢
    split <;> bv_omega
  have stored : ∀ value, mem.storeWord readOffset value = .ok (mem.patch readOffset (encode 8 value.toNat)) :=
    fun value => Region.storeWord_ok (by unfold readOffset dataOffset at *; omega)
  unfold zshmBufferRead
  rw [if_neg asked]
  simp only [LockCalls.granted, LockCalls.unlocked, loadRead ring, loadWrite ring, Exec.ok_bind,
    getUsedSpace_eq ring rfl, copies, stored, Exec.pure_eq_ok]

theorem readCount_empty (buf : PShmBuffer) (len : PSize) (empty : mem.word readOffset = mem.word writeOffset) :
    buf.readCount mem len = 0 := by
  simp [readCount, usedIn, Ring.used, readPos, writePos, empty]

theorem readCount_toNat (ring : InRing buf.size.toNat mem) (len : PSize) :
    (BitVec.ofNat 64 (buf.readCount mem len)).toNat = buf.readCount mem len := by
  have usedBelow := ring.usedIn_lt
  have wide := buf.size.isLt
  exact Nat.mod_eq_of_lt (Nat.lt_of_le_of_lt (Nat.min_le_left _ _) (by omega))

/-- The low 32 bits are the number itself, as a signed number, just below `2 ^ 31`. -/
theorem report_toInt (count : Nat) (narrow : count < 2 ^ 32) :
    ((BitVec.ofNat 64 count).setWidth 32).toInt = count ↔ count < 2 ^ 31 := by
  have low : ((BitVec.ofNat 64 count).setWidth 32).toNat = count := by
    rw [BitVec.toNat_setWidth, BitVec.toNat_ofNat]
    omega
  rw [BitVec.toInt_eq_toNat_cond, low]
  omega

theorem readReports_iff (ring : InRing buf.size.toNat mem) (asked : len ≠ 0) (room : len.toNat ≤ storage.size) :
    buf.ReadReports mem storage len ↔ buf.readCount mem len < 2 ^ 31 := by
  have turn : buf.readCount mem len < buf.size.toNat := Nat.lt_of_le_of_lt (Nat.min_le_left _ _) ring.usedIn_lt
  have bound : buf.readCount mem len ≤ storage.size := Nat.le_trans (Nat.min_le_right _ _) room
  have toNat := readCount_toNat ring len
  have runs := readBody_runs ring (mem.word readOffset) (buf.readCount mem len)
  unfold ReadReports
  by_cases empty : mem.word readOffset = mem.word writeOffset
  · have none := readCount_empty buf len empty
    rw [none]
    refine ⟨fun _ => by decide, fun _ => ⟨0, 0, mem, ?_, rfl, ?_⟩⟩
    · rw [zshmBufferRead_eq ring asked, if_pos empty]
      rfl
    · simp [advanced]
  · constructor
    · rintro ⟨fuel, count, mem', answered, reported, -⟩
      rw [zshmBufferRead_eq ring asked, if_neg empty, readLoop_counted, toNat] at answered
      by_cases narrow : buf.readCount mem len < 2 ^ 32
      · cases ran : countedLoop (buf.readBody mem (mem.word readOffset)) (buf.readCount mem len) fuel (0 : PUInt)
            storage with
        | error trap =>
            rw [ran] at answered
            cases answered
        | ok copied =>
            rw [ran, Exec.ok_bind] at answered
            obtain ⟨rfl, -⟩ : (BitVec.ofNat 64 (buf.readCount mem len)).setWidth 32 = count ∧ _ := by
              simpa using answered
            exact (report_toInt _ narrow).mp reported
      · rw [countedLoop_stuck (by omega) runs fuel 0 bound] at answered
        cases answered
    · intro small
      have ended := countedLoop_start (w := 32) (by omega) runs (Nat.lt_succ_self _) bound
      refine ⟨buf.readCount mem len + 1, (BitVec.ofNat 64 (buf.readCount mem len)).setWidth 32,
        mem.patch readOffset
          (encode 8 ((mem.word readOffset + BitVec.ofNat 64 (buf.readCount mem len)) % buf.size).toNat), ?_,
        (report_toInt _ (by omega)).mpr small, ?_⟩
      · rw [zshmBufferRead_eq ring asked, if_neg empty, readLoop_counted, toNat, ended]
        rfl
      · rw [readPos_moved]
        have moved := advanced_le buf (mem.word readOffset) (BitVec.ofNat 64 (buf.readCount mem len))
          ring.readBelow (by rw [toNat]; exact turn)
        rwa [toNat] at moved

end Read

section Write

/-- A write into a ring of any size. -/
theorem zshmBufferWrite_eq (ring : InRing buf.size.toNat mem) (asked : len ≠ 0) :
    buf.zshmBufferWrite fuel .granted data len mem =
      if buf.Refused mem len then .ok (.ok 0, mem)
      else (do
        let mem' ← buf.writeLoop data (mem.word writeOffset) len fuel 0 mem
        let mem' ← mem'.storeWord writeOffset ((mem.word writeOffset + len) % buf.size)
        .ok (.ok len, mem')) := by
  have usedBelow := ring.usedIn_lt
  have wide := buf.size.isLt
  have refused : BitVec.ofNat 64 (buf.size.toNat - 1 - usedIn buf.size.toNat mem) < len ↔ buf.Refused mem len := by
    unfold Refused
    generalize usedIn buf.size.toNat mem = used at usedBelow ⊢
    generalize buf.size.toNat = n at usedBelow wide ⊢
    rw [BitVec.lt_def, BitVec.toNat_ofNat, Nat.mod_eq_of_lt (by omega)]
  unfold zshmBufferWrite
  rw [if_neg asked]
  simp only [LockCalls.granted, LockCalls.unlocked, loadRead ring, loadWrite ring, Exec.ok_bind,
    getFreeSpace_eq ring rfl, refused, Exec.pure_eq_ok]

theorem writeReports_iff (ring : InRing buf.size.toNat mem) (asked : len ≠ 0) (source : len.toNat ≤ data.size) :
    buf.WriteReports mem data len ↔ buf.Refused mem len ∨ len.toNat < 2 ^ 32 := by
  have fits := ring.fits
  have runs := writeBody_runs buf (Nat.zero_lt_of_lt ring.writeBelow)
    (mem.word writeOffset) source
  unfold WriteReports
  by_cases refused : buf.Refused mem len
  · have none : buf.writeCount mem len = 0 := if_pos refused
    rw [none]
    refine ⟨fun _ => Or.inl refused, fun _ => ⟨0, 0, mem, ?_, rfl, rfl, ?_⟩⟩
    · rw [zshmBufferWrite_eq ring asked, if_pos refused]
    · simp [advanced]
  · have all : buf.writeCount mem len = len.toNat := if_neg refused
    have turn : len.toNat < buf.size.toNat := by
      have usedBelow := ring.usedIn_lt
      unfold Refused at refused
      omega
    rw [all]
    constructor
    · rintro ⟨fuel, count, mem', answered, -⟩
      rw [zshmBufferWrite_eq ring asked, if_neg refused, writeLoop_counted] at answered
      by_contra wide
      rw [countedLoop_stuck (by omega) runs fuel 0 fits] at answered
      cases answered
    · intro narrow
      have small : len.toNat < 2 ^ 32 := narrow.resolve_left refused
      have ended := countedLoop_start (w := 32) small runs (Nat.lt_succ_self _) fits
      obtain ⟨size, header⟩ := writeCopies_header buf data (mem.word writeOffset) len.toNat mem
      have room : writeOffset + 8 ≤ (buf.writeCopies data (mem.word writeOffset) len.toNat mem).size := by
        unfold writeOffset dataOffset at *
        omega
      refine ⟨len.toNat + 1, len, (buf.writeCopies data (mem.word writeOffset) len.toNat mem).patch writeOffset
        (encode 8 ((mem.word writeOffset + len) % buf.size).toNat), ?_, ?_, ?_, ?_⟩
      · rw [zshmBufferWrite_eq ring asked, if_neg refused, writeLoop_counted, ended, Exec.ok_bind]
        exact congrArg (fun run => run >>= fun mem' => Except.ok (Except.ok len, mem')) (Region.storeWord_ok room)
      · exact area_moved _ _ (by decide)
      · rw [BitVec.toInt_eq_toNat_cond, if_pos (by omega)]
      · rw [writePos_moved]
        exact advanced_le buf (mem.word writeOffset) len ring.writeBelow turn

end Write

/-- For a ring of any size: a read ends and reports the bytes that it has transferred exactly
    when they are less than `2 ^ 31`, a write exactly when it is refused or asked for less
    than `2 ^ 32`. -/
theorem transfer_lengths (buf : PShmBuffer) (mem storage data : Region) (len : PSize)
    (ring : InRing buf.size.toNat mem) (asked : len ≠ 0) (room : len.toNat ≤ storage.size)
    (source : len.toNat ≤ data.size) :
    (buf.ReadReports mem storage len ↔ buf.readCount mem len < 2 ^ 31) ∧
      (buf.WriteReports mem data len ↔ buf.Refused mem len ∨ len.toNat < 2 ^ 32) :=
  ⟨readReports_iff ring asked room, writeReports_iff ring asked source⟩

section LargeRing

/-- A handle of a segment of eight gigabytes. -/
def eightGigabytes : PShmBuffer :=
  ⟨⟨true, "/large", BitVec.ofNat 64 (2 ^ 33), .readwrite⟩, BitVec.ofNat 64 (2 ^ 33 - 16),
    show 17 < (BitVec.ofNat 64 (2 ^ 33)).toNat by decide,
    show BitVec.ofNat 64 (2 ^ 33 - 16) = BitVec.ofNat 64 (2 ^ 33) - BitVec.ofNat 64 16 by decide⟩

/-- Its segment with the first `used` bytes of the ring filled. -/
def filledUpTo (used : PSize) : Region := (Region.zeros (2 ^ 33)).patch writeOffset (encode 8 used.toNat)

theorem readPos_filledUpTo (used : PSize) : readPos (filledUpTo used) = 0 := by
  rw [filledUpTo, readPos_kept, readPos, Region.word_zeros]
  rfl

theorem inRing_filledUpTo {used : PSize} (below : used.toNat < eightGigabytes.size.toNat) :
    InRing eightGigabytes.size.toNat (filledUpTo used) where
  fits := show dataOffset + eightGigabytes.size.toNat ≤ 2 ^ 33 by decide
  readBelow := by
    rw [readPos_filledUpTo]
    decide
  writeBelow := by rwa [filledUpTo, writePos_moved]

theorem usedIn_filledUpTo (used : PSize) :
    usedIn eightGigabytes.size.toNat (filledUpTo used) = used.toNat := by
  rw [usedIn, readPos_filledUpTo, filledUpTo, writePos_moved, Ring.used, if_pos (Nat.zero_le _), Nat.sub_zero]

/-- One byte, out of a ring that holds two gigabytes and into it. -/
theorem transfer_lengths_one_byte :
    eightGigabytes.ReadReports (filledUpTo (BitVec.ofNat 64 (2 ^ 31))) (Region.zeros 1) 1 ∧
      eightGigabytes.WriteReports (filledUpTo (BitVec.ofNat 64 (2 ^ 31))) (Region.zeros 1) 1 := by
  have lengths := transfer_lengths eightGigabytes (filledUpTo (BitVec.ofNat 64 (2 ^ 31))) (Region.zeros 1)
    (Region.zeros 1) 1 (inRing_filledUpTo (by decide)) (by decide) (by decide) (by decide)
  refine ⟨lengths.1.mpr ?_, lengths.2.mpr (Or.inr (by decide))⟩
  exact Nat.lt_of_le_of_lt (Nat.min_le_right _ _) (by decide)

/-- Reading two gigabytes does not report them; a write of four gigabytes does not end. -/
theorem transfer_lengths_fail :
    ¬ eightGigabytes.ReadReports (filledUpTo (BitVec.ofNat 64 (2 ^ 31))) (Region.zeros (2 ^ 31))
        (BitVec.ofNat 64 (2 ^ 31)) ∧
      ¬ eightGigabytes.WriteReports (filledUpTo 0) (Region.zeros (2 ^ 32)) (BitVec.ofNat 64 (2 ^ 32)) := by
  constructor
  · rw [readReports_iff (inRing_filledUpTo (by decide)) (by decide) (by decide), readCount, usedIn_filledUpTo]
    decide
  · rw [writeReports_iff (inRing_filledUpTo (by decide)) (by decide) (by decide), Refused, usedIn_filledUpTo]
    decide

end LargeRing

end PShmBuffer

end Plibsys.Shm
