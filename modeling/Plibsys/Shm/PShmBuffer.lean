import Plibsys.Shm.PShm

/-! # Shared memory buffers

`pshmbuffer.c`: a circular buffer in a shared segment.  The segment starts with the read
position and the write position; the data area follows.  The size of the ring is kept in
each handle.
-/

namespace Plibsys.Shm

open Support

def readOffset : Nat := 0

def writeOffset : Nat := 8

def dataOffset : Nat := 16

/-- A `PShmBuffer`, as `zshm_buffer_new` makes them. -/
structure PShmBuffer where
  shm : PShm
  size : PSize
  large : dataOffset + 1 < shm.size.toNat
  size_eq : size = shm.size - BitVec.ofNat 64 dataOffset

/-- The outcome of `zshm_lock` and `zshm_unlock`. -/
structure LockCalls where
  lock : Option PIpcError
  unlock : Option PIpcError

/-- Lock and unlock succeed. -/
def LockCalls.granted : LockCalls := ⟨none, none⟩

/-- The answer of a call that has to unlock before it returns. -/
def LockCalls.unlocked {α : Type} (locks : LockCalls) (answer : α) : Except PIpcError α :=
  match locks.unlock with
  | some error => .error error
  | none => .ok answer

def invalidInput : PIpcError := ⟨.invalidArgument, 0, "Invalid input argument"⟩

/-- The size of the segment that `zshm_buffer_new` asks for. -/
def segmentSize (size : PSize) : PSize :=
  if size ≠ 0 then size + BitVec.ofNat 64 dataOffset + 1 else 0

/-- `zshm_buffer_new`, with the outcome of the allocation of the handle. -/
def zshmBufferNew (platformKey : String → String) (calls : ShmCalls) (mallocBuffer : Bool)
    (name : String) (size : PSize) (objects : Objects) : Except PIpcError PShmBuffer × Objects :=
  match zshmNew platformKey calls name (segmentSize size) .readwrite objects with
  | (.error error, objects) => (.error error, objects)
  | (.ok shm, objects) =>
      if large : dataOffset + 1 < shm.size.toNat then
        if mallocBuffer then
          (.ok ⟨shm, shm.size - BitVec.ofNat 64 dataOffset, large, rfl⟩, objects)
        else
          (.error ⟨.noResources, 0, "Failed to allocate memory for shared buffer"⟩,
            zshmFree shm objects)
      else
        (.error ⟨.invalidArgument, 0, "Too small memory segment to hold required data"⟩,
          zshmFree shm objects)

namespace PShmBuffer

/-- `pzshm_buffer_get_free_space` -/
def pzshmBufferGetFreeSpace (buf : PShmBuffer) (mem : Region) : Exec PSize := do
  let readPos ← mem.loadWord readOffset
  let writePos ← mem.loadWord writeOffset
  if writePos < readPos then
    pure (readPos - writePos - 1)
  else if writePos > readPos then
    pure (buf.size - (writePos - readPos) - 1)
  else
    pure (buf.size - 1)

/-- `pzshm_buffer_get_used_space` -/
def pzshmBufferGetUsedSpace (buf : PShmBuffer) (mem : Region) : Exec PSize := do
  let readPos ← mem.loadWord readOffset
  let writePos ← mem.loadWord writeOffset
  if writePos > readPos then
    pure (writePos - readPos)
  else if writePos < readPos then
    pure (buf.size - (readPos - writePos))
  else
    pure 0

/-- The offset of the byte that a copy loop reaches with its counter. -/
def slot (buf : PShmBuffer) (pos : PSize) (i : PUInt) : Nat :=
  dataOffset + ((pos + i.setWidth 64) % buf.size).toNat

/-- The copy loop of `zshm_buffer_read`.  Its counter has 32 bits. -/
def readLoop (buf : PShmBuffer) (mem : Region) (readPos toCopy : PSize) :
    Nat → PUInt → Region → Exec Region
  | 0, _, _ => .error .outOfFuel
  | fuel + 1, i, storage =>
      if i.setWidth 64 < toCopy then do
        let storage ← storage.memcpy i.toNat mem (buf.slot readPos i) 1
        readLoop buf mem readPos toCopy fuel (i + 1) storage
      else
        pure storage

/-- `zshm_buffer_read`: the answer, the storage and the segment. -/
def zshmBufferRead (fuel : Nat) (locks : LockCalls) (buf : PShmBuffer) (storage : Region) (len : PSize)
    (mem : Region) : Exec (Except PIpcError PInt × Region × Region) :=
  if len = 0 then
    pure (.error invalidInput, storage, mem)
  else
    match locks.lock with
    | some error => pure (.error error, storage, mem)
    | none => do
        let readPos ← mem.loadWord readOffset
        let writePos ← mem.loadWord writeOffset
        if readPos = writePos then
          pure (locks.unlocked 0, storage, mem)
        else
          let dataAval ← buf.pzshmBufferGetUsedSpace mem
          let toCopy := if dataAval ≤ len then dataAval else len
          let storage ← readLoop buf mem readPos toCopy fuel 0 storage
          let mem ← mem.storeWord readOffset ((readPos + toCopy) % buf.size)
          pure (locks.unlocked (toCopy.setWidth 32), storage, mem)

/-- The copy loop of `zshm_buffer_write`. -/
def writeLoop (buf : PShmBuffer) (data : Region) (writePos len : PSize) :
    Nat → PUInt → Region → Exec Region
  | 0, _, _ => .error .outOfFuel
  | fuel + 1, i, mem =>
      if i.setWidth 64 < len then do
        let mem ← mem.memcpy (buf.slot writePos i) data i.toNat 1
        writeLoop buf data writePos len fuel (i + 1) mem
      else
        pure mem

/-- `zshm_buffer_write`: the answer and the segment. -/
def zshmBufferWrite (fuel : Nat) (locks : LockCalls) (buf : PShmBuffer) (data : Region) (len : PSize)
    (mem : Region) : Exec (Except PIpcError PSize × Region) :=
  if len = 0 then
    pure (.error invalidInput, mem)
  else
    match locks.lock with
    | some error => pure (.error error, mem)
    | none => do
        let _readPos ← mem.loadWord readOffset
        let writePos ← mem.loadWord writeOffset
        let free ← buf.pzshmBufferGetFreeSpace mem
        if free < len then
          pure (locks.unlocked 0, mem)
        else
          let mem ← writeLoop buf data writePos len fuel 0 mem
          let mem ← mem.storeWord writeOffset ((writePos + len) % buf.size)
          pure (locks.unlocked len, mem)

/-- A space function under the lock. -/
def underLock (locks : LockCalls) (space : Exec PSize) : Exec (Except PIpcError PSize) :=
  match locks.lock with
  | some error => pure (.error error)
  | none => do
      let size ← space
      pure (locks.unlocked size)

/-- `zshm_buffer_get_free_space` -/
def zshmBufferGetFreeSpace (locks : LockCalls) (buf : PShmBuffer) (mem : Region) :
    Exec (Except PIpcError PSize) :=
  underLock locks (buf.pzshmBufferGetFreeSpace mem)

/-- `zshm_buffer_get_used_space` -/
def zshmBufferGetUsedSpace (locks : LockCalls) (buf : PShmBuffer) (mem : Region) :
    Exec (Except PIpcError PSize) :=
  underLock locks (buf.pzshmBufferGetUsedSpace mem)

/-- `zshm_buffer_clear` -/
def zshmBufferClear (locks : LockCalls) (buf : PShmBuffer) (mem : Region) : Exec Region :=
  match locks.lock with
  | some _ => pure mem
  | none => mem.memset 0 buf.shm.size.toNat

end PShmBuffer

end Plibsys.Shm
