import Plibsys.Shm.PShmBuffer
import Plibsys.Support.Ring

/-! # The ring of a shared buffer

What the functions of `pshmbuffer.c` do to a segment with a ring of size `n`, through a
handle of that size: each is one operation of a bounded queue of bytes.
-/

namespace Plibsys.Shm

open Support

/-- The data area, by position in the ring. -/
def area (mem : Region) (p : Nat) : Byte := mem.byte (dataOffset + p)

def readPos (mem : Region) : Nat := (mem.word readOffset).toNat

def writePos (mem : Region) : Nat := (mem.word writeOffset).toNat

/-- The number of bytes in a ring of size `n`. -/
def usedIn (n : Nat) (mem : Region) : Nat := Ring.used n (readPos mem) (writePos mem)

/-- The bytes in a ring of size `n`, oldest first. -/
def held (n : Nat) (mem : Region) : List Byte := Ring.contents (area mem) n (readPos mem) (usedIn n mem)

/-- A segment with a ring of size `n`. -/
structure Ready (n : Nat) (mem : Region) : Prop where
  fits : dataOffset + n ≤ mem.size
  readBelow : readPos mem < n
  writeBelow : writePos mem < n
  small : n < 2 ^ 63

/-- A segment with a ring of any size `n`, with both positions inside it. -/
structure InRing (n : Nat) (mem : Region) : Prop where
  fits : dataOffset + n ≤ mem.size
  readBelow : readPos mem < n
  writeBelow : writePos mem < n

theorem Ready.inRing {n : Nat} {mem : Region} (ready : Ready n mem) : InRing n mem :=
  ⟨ready.fits, ready.readBelow, ready.writeBelow⟩

@[simp] theorem length_held {n : Nat} {mem : Region} : (held n mem).length = usedIn n mem :=
  Ring.length_contents

theorem held_nil {n : Nat} {mem : Region} (readZero : readPos mem = 0) (writeZero : writePos mem = 0) :
    held n mem = [] := by
  apply List.eq_nil_of_length_eq_zero
  rw [length_held, usedIn, readZero, writeZero]
  simp [Ring.used]

section Header

variable {n : Nat} {mem mem' : Region}

theorem area_patch_byte (p : Nat) (b : Byte) :
    area (mem.patch (dataOffset + p) [b]) = Function.update (area mem) p b := by
  funext q
  by_cases same : q = p
  · subst same
    rw [Function.update_self]
    exact Region.byte_patch_inside (i := 0) (by simp)
  · rw [Function.update_of_ne same]
    exact Region.byte_patch_outside (by simp; omega)

theorem area_patch_header {off : Nat} {bytes : List Byte} (header : off + bytes.length ≤ dataOffset) :
    area (mem.patch off bytes) = area mem := by
  funext p
  exact Region.byte_patch_outside (by omega)

theorem readPos_moved (mem : Region) (pos : PSize) :
    readPos (mem.patch readOffset (encode 8 pos.toNat)) = pos.toNat := by
  rw [readPos, Region.word_patch_word]

theorem writePos_moved (mem : Region) (pos : PSize) :
    writePos (mem.patch writeOffset (encode 8 pos.toNat)) = pos.toNat := by
  rw [writePos, Region.word_patch_word]

theorem writePos_kept (mem : Region) (pos : PSize) :
    writePos (mem.patch readOffset (encode 8 pos.toNat)) = writePos mem := by
  rw [writePos, Region.word_patch_outside, writePos]
  simp [readOffset, writeOffset]

theorem readPos_kept (mem : Region) (pos : PSize) :
    readPos (mem.patch writeOffset (encode 8 pos.toNat)) = readPos mem := by
  rw [readPos, Region.word_patch_outside, readPos]
  simp [readOffset, writeOffset]

theorem area_moved (mem : Region) (pos : PSize) {off : Nat} (header : off + 8 ≤ dataOffset) :
    area (mem.patch off (encode 8 pos.toNat)) = area mem :=
  area_patch_header (by rwa [length_encode])

theorem InRing.usedIn_lt (ring : InRing n mem) : usedIn n mem < n := Ring.used_lt ring.readBelow ring.writeBelow

theorem usedIn_lt (ready : Ready n mem) : usedIn n mem < n := ready.inRing.usedIn_lt

end Header

namespace PShmBuffer

variable {n fuel : Nat} {buf : PShmBuffer} {mem : Region}

theorem loadRead (ring : InRing n mem) : mem.loadWord readOffset = .ok (mem.word readOffset) :=
  Region.loadWord_ok (by have := ring.fits; unfold readOffset dataOffset at *; omega)

theorem loadWrite (ring : InRing n mem) : mem.loadWord writeOffset = .ok (mem.word writeOffset) :=
  Region.loadWord_ok (by have := ring.fits; unfold writeOffset dataOffset at *; omega)

theorem getUsedSpace_eq (ring : InRing n mem) (same : buf.size.toNat = n) :
    buf.pzshmBufferGetUsedSpace mem = .ok (BitVec.ofNat 64 (usedIn n mem)) := by
  have readBelow := ring.readBelow
  have writeBelow := ring.writeBelow
  unfold pzshmBufferGetUsedSpace usedIn Ring.used
  unfold readPos writePos at *
  simp only [loadRead ring, loadWrite ring, Exec.ok_bind, Exec.pure_eq_ok]
  subst same
  clear ring
  generalize mem.word readOffset = r, mem.word writeOffset = w, buf.size = size at *
  by_cases ahead : w > r
  · rw [if_pos ahead, if_pos (show r.toNat ≤ w.toNat by bv_omega)]
    congr 1
    bv_omega
  · by_cases behind : w < r
    · rw [if_neg ahead, if_pos behind, if_neg (show ¬ r.toNat ≤ w.toNat by bv_omega)]
      congr 1
      bv_omega
    · rw [if_neg ahead, if_neg behind, if_pos (show r.toNat ≤ w.toNat by bv_omega)]
      congr 1
      bv_omega

theorem getFreeSpace_eq (ring : InRing n mem) (same : buf.size.toNat = n) :
    buf.pzshmBufferGetFreeSpace mem = .ok (BitVec.ofNat 64 (n - 1 - usedIn n mem)) := by
  have readBelow := ring.readBelow
  have writeBelow := ring.writeBelow
  unfold pzshmBufferGetFreeSpace usedIn Ring.used
  unfold readPos writePos at *
  simp only [loadRead ring, loadWrite ring, Exec.ok_bind, Exec.pure_eq_ok]
  subst same
  clear ring
  generalize mem.word readOffset = r, mem.word writeOffset = w, buf.size = size at *
  by_cases behind : w < r
  · rw [if_pos behind, if_neg (show ¬ r.toNat ≤ w.toNat by bv_omega)]
    congr 1
    bv_omega
  · rw [if_neg behind, if_pos (show r.toNat ≤ w.toNat by bv_omega)]
    split
    · congr 1
      bv_omega
    · congr 1
      bv_omega

/-- Below `2 ^ 63` no position wraps before it is taken modulo the size. -/
theorem slot_eq {pos : PSize} {i : PUInt} (same : buf.size.toNat = n) (below : pos.toNat < 2 ^ 63) :
    buf.slot pos i = dataOffset + (pos.toNat + i.toNat) % n := by
  unfold slot
  have short := i.isLt
  rw [BitVec.toNat_umod, BitVec.toNat_add, BitVec.toNat_setWidth, same, Nat.mod_eq_of_lt (show i.toNat < 2 ^ 64 by omega),
    Nat.mod_eq_of_lt (show pos.toNat + i.toNat < 2 ^ 64 by omega)]

theorem setWidth_toNat (i : PUInt) : (i.setWidth 64).toNat = i.toNat := by
  have short := i.isLt
  rw [BitVec.toNat_setWidth, Nat.mod_eq_of_lt (by omega)]

theorem succ_toNat {i : PUInt} {bound : Nat} (below : i.toNat < bound) (small : bound < 2 ^ 32) :
    (i + 1).toNat = i.toNat + 1 := by
  bv_omega

/-- Below `2 ^ 63` a position does not wrap before it is moved around the ring. -/
theorem advance_toNat {pos count : PSize} (same : buf.size.toNat = n) (below : pos.toNat < 2 ^ 63)
    (short : count.toNat < 2 ^ 63) :
    ((pos + count) % buf.size).toNat = (pos.toNat + count.toNat) % n := by
  rw [BitVec.toNat_umod, BitVec.toNat_add, same, Nat.mod_eq_of_lt (show pos.toNat + count.toNat < 2 ^ 64 by omega)]

theorem readLoop_eq (ready : Ready n mem) (same : buf.size.toNat = n) {pos toCopy : PSize}
    (below : pos.toNat < n) (short : toCopy.toNat < 2 ^ 32) {k : Nat} {i : PUInt} {storage : Region}
    (steps : i.toNat + k = toCopy.toNat) (enough : k < fuel) (room : toCopy.toNat ≤ storage.size) :
    buf.readLoop mem pos toCopy fuel i storage =
      .ok (storage.patch i.toNat (Ring.contents (area mem) n (pos.toNat + i.toNat) k)) := by
  have small := ready.small
  induction k generalizing fuel i storage with
  | zero =>
      obtain ⟨fuel, rfl⟩ := Nat.exists_eq_succ_of_ne_zero (Nat.ne_of_gt enough)
      have done : ¬ i.setWidth 64 < toCopy := by
        rw [BitVec.lt_def, setWidth_toNat]
        omega
      simp [readLoop, done, Ring.contents]
  | succ k ih =>
      obtain ⟨fuel, rfl⟩ := Nat.exists_eq_succ_of_ne_zero (Nat.ne_of_gt (Nat.zero_lt_of_lt enough))
      have more : i.setWidth 64 < toCopy := by
        rw [BitVec.lt_def, setWidth_toNat]
        omega
      have inRing : (pos.toNat + i.toNat) % n < n := Nat.mod_lt _ (by omega)
      have next : (i + 1).toNat = i.toNat + 1 := succ_toNat (show i.toNat < toCopy.toNat by omega) short
      have fits := ready.fits
      have copied : storage.memcpy i.toNat mem (buf.slot pos i) 1 =
          .ok (storage.patch i.toNat [area mem ((pos.toNat + i.toNat) % n)]) := by
        rw [slot_eq same (by omega)]
        exact Region.memcpy_ok (by omega) (by omega)
      rw [readLoop, if_pos more, copied, Exec.ok_bind,
        ih (i := i + 1) (by omega) (by omega) (by simpa using room), next, Ring.contents_succ]
      exact congrArg Except.ok (Region.patch_append [_] _)

theorem readLoop_start (ready : Ready n mem) (same : buf.size.toNat = n) {toCopy : PSize} {storage : Region}
    (short : toCopy.toNat < 2 ^ 32) (enough : toCopy.toNat < fuel) (room : toCopy.toNat ≤ storage.size) :
    buf.readLoop mem (mem.word readOffset) toCopy fuel 0 storage =
      .ok (storage.patch 0 (Ring.contents (area mem) n (readPos mem) toCopy.toNat)) := by
  have ran := readLoop_eq (i := 0) ready same ready.readBelow short (Nat.zero_add _) enough room
  rwa [show (0 : PUInt).toNat = 0 from rfl, Nat.add_zero] at ran

theorem writeLoop_eq (fits : dataOffset + n ≤ mem.size) (same : buf.size.toNat = n) {pos len : PSize}
    {data : Region} (below : pos.toNat < n) (small : n < 2 ^ 63) (short : len.toNat < 2 ^ 32)
    (turn : len.toNat < n) {k : Nat} {i : PUInt}
    (steps : i.toNat + k = len.toNat) (enough : k < fuel) (room : len.toNat ≤ data.size) :
    ∃ mem', buf.writeLoop data pos len fuel i mem = .ok mem' ∧ mem'.size = mem.size ∧
      Ring.Stored (area mem) (area mem') n (pos.toNat + i.toNat) (data.slice i.toNat k) ∧
      ∀ a < dataOffset, mem'.byte a = mem.byte a := by
  induction k generalizing fuel i mem with
  | zero =>
      obtain ⟨fuel, rfl⟩ := Nat.exists_eq_succ_of_ne_zero (Nat.ne_of_gt enough)
      have done : ¬ i.setWidth 64 < len := by
        rw [BitVec.lt_def, setWidth_toNat]
        omega
      exact ⟨mem, by simp [writeLoop, done], rfl, Ring.Stored.nil, fun _ _ => rfl⟩
  | succ k ih =>
      obtain ⟨fuel, rfl⟩ := Nat.exists_eq_succ_of_ne_zero (Nat.ne_of_gt (Nat.zero_lt_of_lt enough))
      have more : i.setWidth 64 < len := by
        rw [BitVec.lt_def, setWidth_toNat]
        omega
      have inRing : (pos.toNat + i.toNat) % n < n := Nat.mod_lt _ (by omega)
      have next : (i + 1).toNat = i.toNat + 1 := succ_toNat (show i.toNat < len.toNat by omega) short
      have copied : mem.memcpy (buf.slot pos i) data i.toNat 1 =
          .ok (mem.patch (dataOffset + (pos.toNat + i.toNat) % n) [data.byte i.toNat]) := by
        rw [slot_eq same (by omega)]
        exact Region.memcpy_ok (by omega) (by omega)
      have stillFits : dataOffset + n ≤
          (mem.patch (dataOffset + (pos.toNat + i.toNat) % n) [data.byte i.toNat]).size := fits
      obtain ⟨mem', ran, size, stored, header⟩ :=
        ih (i := i + 1) stillFits (by omega) (show k < fuel by omega)
      refine ⟨mem', by rw [writeLoop, if_pos more, copied, Exec.ok_bind, ran], size, ?_, ?_⟩
      · rw [area_patch_byte, next, ← Nat.add_assoc] at stored
        rw [Region.slice_succ]
        exact Ring.Stored.cons (by simp; omega) stored
      · intro a inHeader
        rw [header a inHeader]
        exact Region.byte_patch_outside (by omega)

/-- Moving the read position by `count` drops the head of the queue. -/
theorem ready_read (ready : Ready n mem) (same : buf.size.toNat = n) {count : PSize}
    (available : count.toNat ≤ usedIn n mem) :
    ∃ mem', mem.storeWord readOffset ((mem.word readOffset + count) % buf.size) = .ok mem' ∧
      Ready n mem' ∧ held n mem' = (held n mem).drop count.toNat ∧ mem'.size = mem.size := by
  have fits := ready.fits
  have small := ready.small
  have readBelow := ready.readBelow
  have usedBelow := usedIn_lt ready
  have moved : ((mem.word readOffset + count) % buf.size).toNat = (readPos mem + count.toNat) % n :=
    advance_toNat same (show readPos mem < 2 ^ 63 by omega) (by omega)
  refine ⟨_, Region.storeWord_ok (by unfold readOffset dataOffset at *; omega), ?_, ?_, rfl⟩
  · constructor
    · exact fits
    · rw [readPos_moved, moved]
      exact Nat.mod_lt _ (by omega)
    · rw [writePos_kept]
      exact ready.writeBelow
    · exact small
  · rw [held, held, usedIn, readPos_moved, writePos_kept, area_moved _ _ (by decide), moved,
      Ring.used_pop readBelow ready.writeBelow available, usedIn, Ring.contents_pop available,
      List.drop_left' Ring.length_contents]

/-- A read takes the oldest bytes, as many as there are and fit. -/
theorem read_spec (ready : Ready n mem) (same : buf.size.toNat = n) {storage : Region} {len : PSize}
    (positive : 0 < len.toNat) (short : len.toNat < 2 ^ 31) (room : len.toNat ≤ storage.size)
    (enough : 2 ^ 31 ≤ fuel) :
    ∃ mem', buf.zshmBufferRead fuel .granted storage len mem =
        .ok (.ok (BitVec.ofNat 32 (min len.toNat (usedIn n mem))),
          storage.patch 0 ((held n mem).take len.toNat), mem') ∧
      Ready n mem' ∧ held n mem' = (held n mem).drop len.toNat ∧ mem'.size = mem.size := by
  have nonzero : len ≠ 0 := by
    intro zero
    simp [zero] at positive
  have small := ready.small
  have usedBelow := usedIn_lt ready
  unfold zshmBufferRead
  rw [if_neg nonzero]
  simp only [LockCalls.granted, LockCalls.unlocked, loadRead ready.inRing, loadWrite ready.inRing, Exec.ok_bind,
    getUsedSpace_eq ready.inRing same]
  by_cases empty : mem.word readOffset = mem.word writeOffset
  · have none : usedIn n mem = 0 := by simp [usedIn, Ring.used, readPos, writePos, empty]
    have nothing : held n mem = [] := List.eq_nil_of_length_eq_zero (by rw [length_held, none])
    exact ⟨mem, by simp [empty, none, nothing], ready, by simp [nothing], rfl⟩
  · rw [if_neg empty]
    have copies : (if BitVec.ofNat 64 (usedIn n mem) ≤ len then BitVec.ofNat 64 (usedIn n mem) else len) =
        BitVec.ofNat 64 (min len.toNat (usedIn n mem)) := by
      split <;> bv_omega
    have takes : (held n mem).take len.toNat = (held n mem).take (min len.toNat (usedIn n mem)) := by
      rw [← length_held, List.take_eq_take_min]
    have drops : (held n mem).drop len.toNat = (held n mem).drop (min len.toNat (usedIn n mem)) := by
      rw [← length_held, List.drop_eq_drop_min]
    rw [copies, takes, drops]
    generalize countEq : min len.toNat (usedIn n mem) = count
    have countToNat : (BitVec.ofNat 64 count).toNat = count := by
      rw [BitVec.toNat_ofNat, Nat.mod_eq_of_lt (by omega)]
    have available : (BitVec.ofNat 64 count).toNat ≤ usedIn n mem := by omega
    have copied : buf.readLoop mem (mem.word readOffset) (BitVec.ofNat 64 count) fuel 0 storage = _ :=
      readLoop_start ready same (by omega) (by omega) (by omega)
    obtain ⟨mem', stored, ready', held', size⟩ := ready_read ready same available
    rw [countToNat] at copied held'
    have oldest : Ring.contents (area mem) n (readPos mem) count = (held n mem).take count := by
      rw [held, usedIn, Ring.contents_pop (countToNat ▸ available), List.take_left' Ring.length_contents]
    refine ⟨mem', ?_, ready', held', size⟩
    rw [copied, Exec.ok_bind, stored, Exec.ok_bind, oldest]
    simp

/-- The data that a write copies leaves the header and everything behind the ring alone. -/
theorem writeLoop_start (ready : Ready n mem) (same : buf.size.toNat = n) {data : Region} {len : PSize}
    (short : len.toNat < 2 ^ 32) (turn : len.toNat < n) (enough : len.toNat < fuel)
    (room : len.toNat ≤ data.size) :
    ∃ mem', buf.writeLoop data (mem.word writeOffset) len fuel 0 mem = .ok mem' ∧ mem'.size = mem.size ∧
      Ring.Stored (area mem) (area mem') n (writePos mem) (data.slice 0 len.toNat) ∧
      ∀ a, a < dataOffset ∨ dataOffset + n ≤ a → mem'.byte a = mem.byte a := by
  obtain ⟨mem', ran, size, stored, header⟩ := writeLoop_eq (i := 0) ready.fits same ready.writeBelow
    ready.small short turn (Nat.zero_add _) enough room
  rw [show (0 : PUInt).toNat = 0 from rfl, Nat.add_zero] at stored
  refine ⟨mem', ran, size, stored, ?_⟩
  rintro a (inHeader | behind)
  · exact header a inHeader
  · obtain ⟨p, rfl⟩ := Nat.exists_eq_add_of_le behind
    rw [Nat.add_assoc]
    apply stored.kept
    intro i inside
    have inRing : ((mem.word writeOffset).toNat + i) % n < n := Nat.mod_lt _ (by omega)
    omega

/-- Moving the write position behind stored data appends to the queue. -/
theorem ready_write {stored : Region} (ready : Ready n mem) (same : buf.size.toNat = n) {len : PSize}
    {data : List Byte} (size : stored.size = mem.size)
    (header : ∀ a < dataOffset, stored.byte a = mem.byte a) (lenEq : data.length = len.toNat)
    (placed : Ring.Stored (area mem) (area stored) n (writePos mem) data)
    (room : usedIn n mem + len.toNat < n) :
    ∃ mem', stored.storeWord writeOffset ((mem.word writeOffset + len) % buf.size) = .ok mem' ∧
      Ready n mem' ∧ held n mem' = held n mem ++ data ∧ mem'.size = mem.size ∧
      readPos mem' = readPos mem ∧
      ∀ a, a < writeOffset ∨ dataOffset ≤ a → mem'.byte a = stored.byte a := by
  have fits := ready.fits
  have small := ready.small
  have writeBelow := ready.writeBelow
  have moved : ((mem.word writeOffset + len) % buf.size).toNat = (writePos mem + len.toNat) % n :=
    advance_toNat same (show writePos mem < 2 ^ 63 by omega) (by omega)
  have sameRead : readPos stored = readPos mem := by
    unfold readPos
    rw [Region.word_congr]
    intro a _ below
    exact header a (by unfold readOffset dataOffset at *; omega)
  have readBelow : readPos stored < n := sameRead ▸ ready.readBelow
  have room' : Ring.used n (readPos stored) (writePos mem) + data.length < n := by
    rw [sameRead, lenEq]
    exact room
  refine ⟨_, Region.storeWord_ok (by unfold writeOffset dataOffset at *; omega), ?_, ?_, size, ?_, ?_⟩
  · constructor
    · rw [Region.size_patch, size]
      exact fits
    · rw [readPos_kept]
      exact readBelow
    · rw [writePos_moved, moved]
      exact Nat.mod_lt _ (by omega)
    · exact small
  · rw [held, held, usedIn, readPos_kept, writePos_moved, area_moved _ _ (by decide), moved, ← lenEq,
      Ring.used_push readBelow writeBelow room', Ring.contents_push readBelow writeBelow room' placed,
      usedIn, sameRead]
  · rw [readPos_kept, sameRead]
  · intro a outside
    apply Region.byte_patch_outside
    rw [length_encode]
    unfold writeOffset dataOffset at *
    omega

/-- A write without room changes nothing. -/
theorem write_refused (ready : Ready n mem) (same : buf.size.toNat = n) {data : Region} {len : PSize}
    (full : n - 1 - usedIn n mem < len.toNat) :
    buf.zshmBufferWrite fuel .granted data len mem = .ok (.ok 0, mem) := by
  have nonzero : len ≠ 0 := by
    intro zero
    simp [zero] at full
  have small := ready.small
  have refused : BitVec.ofNat 64 (n - 1 - usedIn n mem) < len := by
    rw [BitVec.lt_def, BitVec.toNat_ofNat, Nat.mod_eq_of_lt (by omega)]
    exact full
  unfold zshmBufferWrite
  rw [if_neg nonzero]
  simp [LockCalls.granted, LockCalls.unlocked, loadRead ready.inRing, loadWrite ready.inRing,
    getFreeSpace_eq ready.inRing same, refused]

/-- A write with room appends all bytes. -/
theorem write_spec (ready : Ready n mem) (same : buf.size.toNat = n) {data : Region} {len : PSize}
    (positive : 0 < len.toNat) (short : len.toNat < 2 ^ 31) (room : len.toNat ≤ n - 1 - usedIn n mem)
    (readable : len.toNat ≤ data.size) (enough : 2 ^ 31 ≤ fuel) :
    ∃ mem', buf.zshmBufferWrite fuel .granted data len mem = .ok (.ok len, mem') ∧ Ready n mem' ∧
      held n mem' = held n mem ++ data.slice 0 len.toNat ∧ mem'.size = mem.size ∧
      readPos mem' = readPos mem ∧ ∀ a, dataOffset + n ≤ a → mem'.byte a = mem.byte a := by
  have nonzero : len ≠ 0 := by
    intro zero
    simp [zero] at positive
  have small := ready.small
  have usedBelow := usedIn_lt ready
  have accepted : ¬ BitVec.ofNat 64 (n - 1 - usedIn n mem) < len := by
    rw [BitVec.lt_def, BitVec.toNat_ofNat, Nat.mod_eq_of_lt (by omega)]
    omega
  obtain ⟨copied, ran, size, stored, untouched⟩ :=
    writeLoop_start ready same (by omega) (show len.toNat < n by omega) (show len.toNat < fuel by omega) readable
  obtain ⟨mem', moved, ready', held', size', sameRead, rest⟩ := ready_write ready same size
    (fun a inHeader => untouched a (Or.inl inHeader)) Region.length_slice stored
    (show usedIn n mem + len.toNat < n by omega)
  refine ⟨mem', ?_, ready', held', size', sameRead, ?_⟩
  · unfold zshmBufferWrite
    rw [if_neg nonzero]
    simp only [LockCalls.granted, LockCalls.unlocked, loadRead ready.inRing, loadWrite ready.inRing,
      getFreeSpace_eq ready.inRing same, accepted, ran, moved, Exec.ok_bind, if_false]
    rfl
  · intro a behind
    rw [rest a (Or.inr (by omega)), untouched a (Or.inr behind)]

theorem shmSize_eq (same : buf.size.toNat = n) : buf.shm.size.toNat = dataOffset + n := by
  have large := buf.large
  have sizeEq := buf.size_eq
  unfold dataOffset at *
  bv_omega

theorem clear_spec (ready : Ready n mem) (same : buf.size.toNat = n) :
    ∃ mem', buf.zshmBufferClear .granted mem = .ok mem' ∧ Ready n mem' ∧ held n mem' = [] ∧
      mem'.size = mem.size := by
  have fits := ready.fits
  have readBelow := ready.readBelow
  have cleared : buf.zshmBufferClear .granted mem =
      .ok (mem.patch 0 (List.replicate (dataOffset + n) 0)) := by
    rw [zshmBufferClear, LockCalls.granted, shmSize_eq same]
    exact Region.memset_ok fits
  have zero : ∀ off, off + 8 ≤ dataOffset →
      (mem.patch 0 (List.replicate (dataOffset + n) 0)).word off = 0 := by
    intro off header
    rw [← Region.word_zeros off 0]
    apply Region.word_congr
    intro a _ below
    have inside : a < (List.replicate (dataOffset + n) (0 : Byte)).length := by
      rw [List.length_replicate]
      omega
    rw [← Nat.zero_add a, Region.byte_patch_inside inside]
    simp [Region.zeros]
  have readZero : readPos (mem.patch 0 (List.replicate (dataOffset + n) 0)) = 0 := by
    rw [readPos, zero readOffset (by decide)]
    rfl
  have writeZero : writePos (mem.patch 0 (List.replicate (dataOffset + n) 0)) = 0 := by
    rw [writePos, zero writeOffset (by decide)]
    rfl
  refine ⟨_, cleared, ⟨fits, ?_, ?_, ready.small⟩, ?_, rfl⟩
  · rw [readZero]
    omega
  · rw [writeZero]
    omega
  · exact held_nil readZero writeZero

end PShmBuffer

theorem readPos_zeros (size : Nat) : readPos (Region.zeros size) = 0 := by
  rw [readPos, Region.word_zeros]
  rfl

theorem writePos_zeros (size : Nat) : writePos (Region.zeros size) = 0 := by
  rw [writePos, Region.word_zeros]
  rfl

theorem ready_zeros {n size : Nat} (positive : 0 < n) (small : n < 2 ^ 63) (fits : dataOffset + n ≤ size) :
    Ready n (Region.zeros size) where
  fits := fits
  readBelow := by rwa [readPos_zeros]
  writeBelow := by rwa [writePos_zeros]
  small := small

theorem held_zeros (n size : Nat) : held n (Region.zeros size) = [] :=
  held_nil (readPos_zeros size) (writePos_zeros size)

end Plibsys.Shm
