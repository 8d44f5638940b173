import Plibsys.Shm.RingOps

/-! # Shared buffers are queues

Clients of a shared buffer call its functions through handles of their own, one call at
a time under the lock.  Through handles that agree on the size of the ring, the bytes
come out in the order in which they went in.
-/

namespace Plibsys.Shm

open Support

/-- A call on a handle.  The storage of a read has the length that is asked for. -/
inductive BufferOp where
  | read (storage : Region)
  | write (data : List Byte)
  | clear
  | getFreeSpace
  | getUsedSpace

/-- A request of 1 to `2 ^ 31 - 1` bytes. -/
def BufferOp.Valid : BufferOp → Prop
  | .read storage => 0 < storage.size ∧ storage.size < 2 ^ 31
  | .write data => 0 < data.length ∧ data.length < 2 ^ 31
  | _ => True

inductive Reply where
  | read (answer : Except PIpcError PInt) (storage : Region)
  | wrote (answer : Except PIpcError PSize)
  | cleared
  | space (answer : Except PIpcError PSize)

namespace PShmBuffer

def step (fuel : Nat) (buf : PShmBuffer) (op : BufferOp) (mem : Region) : Exec (Reply × Region) :=
  match op with
  | .read storage => do
      let (answer, storage, mem) ←
        buf.zshmBufferRead fuel .granted storage (BitVec.ofNat 64 storage.size) mem
      pure (.read answer storage, mem)
  | .write data => do
      let (answer, mem) ←
        buf.zshmBufferWrite fuel .granted (Region.ofList data) (BitVec.ofNat 64 data.length) mem
      pure (.wrote answer, mem)
  | .clear => do
      let mem ← buf.zshmBufferClear .granted mem
      pure (.cleared, mem)
  | .getFreeSpace => do
      let answer ← buf.zshmBufferGetFreeSpace .granted mem
      pure (.space answer, mem)
  | .getUsedSpace => do
      let answer ← buf.zshmBufferGetUsedSpace .granted mem
      pure (.space answer, mem)

end PShmBuffer

/-- A run of calls, each through its own handle, with what was called and answered. -/
def runCalls (fuel : Nat) :
    List (PShmBuffer × BufferOp) → Region → Exec (List (BufferOp × Reply) × Region)
  | [], mem => pure ([], mem)
  | (buf, op) :: calls, mem => do
      let (reply, mem) ← buf.step fuel op mem
      let (history, mem) ← runCalls fuel calls mem
      pure ((op, reply) :: history, mem)

/-- The bytes that went into the ring and came out of it since it was last cleared. -/
structure Flow where
  written : List Byte
  returned : List Byte

def Flow.after (flow : Flow) : BufferOp × Reply → Flow
  | (.clear, _) => ⟨[], []⟩
  | (.write data, .wrote (.ok count)) => { flow with written := flow.written ++ data.take count.toNat }
  | (.read _, .read (.ok count) storage) =>
      { flow with returned := flow.returned ++ storage.slice 0 count.toNat }
  | _ => flow

theorem Flow.after_read (flow : Flow) (storage storage' : Region) (count : PInt) :
    flow.after (.read storage, .read (.ok count) storage') =
      ⟨flow.written, flow.returned ++ storage'.slice 0 count.toNat⟩ := rfl

theorem Flow.after_write (flow : Flow) (data : List Byte) (count : PSize) :
    flow.after (.write data, .wrote (.ok count)) =
      ⟨flow.written ++ data.take count.toNat, flow.returned⟩ := rfl

def Flow.of (history : List (BufferOp × Reply)) : Flow := history.foldl Flow.after ⟨[], []⟩

/-- The bytes returned are the first of the bytes written, and the ring holds the rest. -/
def Flow.Fifo (n : Nat) (flow : Flow) (mem : Region) : Prop :=
  flow.returned ++ held n mem = flow.written

/-- What holds of the segment between two calls. -/
structure SegmentLaw (n : Nat) (mem : Region) : Prop where
  readBelow : readPos mem < n
  writeBelow : writePos mem < n
  spaces : ∀ buf : PShmBuffer, buf.size.toNat = n → ∃ used free,
    buf.zshmBufferGetUsedSpace .granted mem = .ok (.ok used) ∧
    buf.zshmBufferGetFreeSpace .granted mem = .ok (.ok free) ∧
    used.toNat + free.toNat = n - 1 ∧ (held n mem).length = used.toNat

/-- The data copied by a write goes into the ring only. -/
def StaysInRing (n fuel : Nat) (buf : PShmBuffer) (data : List Byte) (mem : Region) : Prop :=
  ∃ copied, buf.writeLoop (Region.ofList data) (mem.word writeOffset) (BitVec.ofNat 64 data.length) fuel 0 mem =
      .ok copied ∧
    ∀ a, a < dataOffset ∨ dataOffset + n ≤ a → copied.byte a = mem.byte a

/-- What a call answers and does. -/
def CallLaw (n fuel : Nat) (buf : PShmBuffer) (mem : Region) (reply : Reply) (mem' : Region) :
    BufferOp → Prop
  | .read storage => ∃ used count storage',
      buf.zshmBufferGetUsedSpace .granted mem = .ok (.ok used) ∧
      reply = .read (.ok count) storage' ∧ count.toInt = min storage.size used.toNat
  | .write data => ∃ free, buf.zshmBufferGetFreeSpace .granted mem = .ok (.ok free) ∧
      (reply = .wrote (.ok (BitVec.ofNat 64 data.length)) ∧ held n mem' = held n mem ++ data ∨
        reply = .wrote (.ok 0) ∧ mem' = mem) ∧
      (reply = .wrote (.ok 0) ↔ free.toNat < data.length) ∧
      (data.length ≤ free.toNat → StaysInRing n fuel buf data mem) ∧
      mem'.size = mem.size ∧ readPos mem' = readPos mem ∧
      ∀ a, dataOffset + n ≤ a → mem'.byte a = mem.byte a
  | .clear => held n mem' = []
  | .getFreeSpace => mem' = mem
  | .getUsedSpace => mem' = mem

section Laws

variable {n fuel : Nat} {buf : PShmBuffer} {mem : Region}

theorem usedSpace_granted (ready : Ready n mem) (same : buf.size.toNat = n) :
    buf.zshmBufferGetUsedSpace .granted mem = .ok (.ok (BitVec.ofNat 64 (usedIn n mem))) := by
  unfold PShmBuffer.zshmBufferGetUsedSpace PShmBuffer.underLock
  rw [PShmBuffer.getUsedSpace_eq ready.inRing same]
  rfl

theorem freeSpace_granted (ready : Ready n mem) (same : buf.size.toNat = n) :
    buf.zshmBufferGetFreeSpace .granted mem = .ok (.ok (BitVec.ofNat 64 (n - 1 - usedIn n mem))) := by
  unfold PShmBuffer.zshmBufferGetFreeSpace PShmBuffer.underLock
  rw [PShmBuffer.getFreeSpace_eq ready.inRing same]
  rfl

theorem toNat_size {k : Nat} (small : k < 2 ^ 63) : (BitVec.ofNat 64 k).toNat = k := by
  rw [BitVec.toNat_ofNat, Nat.mod_eq_of_lt (by omega)]

theorem segmentLaw (ready : Ready n mem) : SegmentLaw n mem where
  readBelow := ready.readBelow
  writeBelow := ready.writeBelow
  spaces := by
    intro buf same
    have small := ready.small
    have usedBelow := usedIn_lt ready
    refine ⟨_, _, usedSpace_granted ready same, freeSpace_granted ready same, ?_, ?_⟩
    · rw [toNat_size (by omega), toNat_size (by omega)]
      omega
    · rw [length_held, toNat_size (by omega)]

theorem read_step (ready : Ready n mem) (same : buf.size.toNat = n) {storage : Region} {flow : Flow}
    (valid : (BufferOp.read storage).Valid) (enough : 2 ^ 31 ≤ fuel) (fifo : flow.Fifo n mem) :
    ∃ reply mem', buf.step fuel (.read storage) mem = .ok (reply, mem') ∧ Ready n mem' ∧
      (flow.after (.read storage, reply)).Fifo n mem' ∧
      CallLaw n fuel buf mem reply mem' (.read storage) := by
  obtain ⟨positive, short⟩ := valid
  have small := ready.small
  have usedBelow := usedIn_lt ready
  have lenEq : (BitVec.ofNat 64 storage.size).toNat = storage.size := toNat_size (by omega)
  have room : (BitVec.ofNat 64 storage.size).toNat ≤ storage.size := Nat.le_of_eq lenEq
  obtain ⟨mem', ran, ready', rest, -⟩ := PShmBuffer.read_spec ready same (by omega) (by omega) room enough
  rw [lenEq] at ran rest
  have counted : (BitVec.ofNat 32 (min storage.size (usedIn n mem))).toNat = min storage.size (usedIn n mem) := by
    rw [BitVec.toNat_ofNat, Nat.mod_eq_of_lt (by omega)]
  refine ⟨_, mem', by rw [PShmBuffer.step, ran]; rfl, ready', ?_, ?_⟩
  · have taken : (storage.patch 0 ((held n mem).take storage.size)).slice 0
        (min storage.size (usedIn n mem)) = (held n mem).take storage.size := by
      have patched := Region.slice_patch storage 0 ((held n mem).take storage.size)
      rwa [List.length_take, length_held] at patched
    unfold Flow.Fifo
    rw [Flow.after_read, counted, taken, rest, List.append_assoc, List.take_append_drop]
    exact fifo
  · refine ⟨_, _, _, usedSpace_granted ready same, rfl, ?_⟩
    rw [toNat_size (by omega), BitVec.toInt_eq_toNat_of_lt (by omega), counted]

theorem write_step (ready : Ready n mem) (same : buf.size.toNat = n) {data : List Byte} {flow : Flow}
    (valid : (BufferOp.write data).Valid) (enough : 2 ^ 31 ≤ fuel) (fifo : flow.Fifo n mem) :
    ∃ reply mem', buf.step fuel (.write data) mem = .ok (reply, mem') ∧ Ready n mem' ∧
      (flow.after (.write data, reply)).Fifo n mem' ∧
      CallLaw n fuel buf mem reply mem' (.write data) := by
  obtain ⟨positive, short⟩ := valid
  have small := ready.small
  have usedBelow := usedIn_lt ready
  have lenEq : (BitVec.ofNat 64 data.length).toNat = data.length := toNat_size (by omega)
  have freeEq : (BitVec.ofNat 64 (n - 1 - usedIn n mem)).toNat = n - 1 - usedIn n mem := toNat_size (by omega)
  by_cases full : n - 1 - usedIn n mem < data.length
  · have ran : buf.zshmBufferWrite fuel .granted (Region.ofList data) (BitVec.ofNat 64 data.length) mem = _ :=
      PShmBuffer.write_refused ready same (by omega)
    refine ⟨.wrote (.ok 0), mem, by rw [PShmBuffer.step, ran]; rfl, ready, ?_, ?_⟩
    · simpa [Flow.after, Flow.Fifo] using fifo
    · refine ⟨_, freeSpace_granted ready same, Or.inr ⟨rfl, rfl⟩, ?_, ?_, rfl, rfl, fun _ _ => rfl⟩
      · rw [freeEq]
        exact ⟨fun _ => full, fun _ => rfl⟩
      · rw [freeEq]
        omega
  · have readable : (BitVec.ofNat 64 data.length).toNat ≤ (Region.ofList data).size := Nat.le_of_eq lenEq
    obtain ⟨mem', ran, ready', rest, size, sameRead, untouched⟩ :=
      PShmBuffer.write_spec ready same (by omega) (by omega) (by omega) readable enough
    rw [lenEq, Region.slice_ofList] at rest
    refine ⟨.wrote (.ok (BitVec.ofNat 64 data.length)), mem', by rw [PShmBuffer.step, ran]; rfl, ready',
      ?_, ?_⟩
    · unfold Flow.Fifo
      rw [Flow.after_write, lenEq, List.take_length, rest, ← List.append_assoc]
      exact congrArg (· ++ data) fifo
    · have nonzero : BitVec.ofNat 64 data.length ≠ 0 := by
        intro zero
        rw [zero] at lenEq
        simp at lenEq
        omega
      refine ⟨_, freeSpace_granted ready same, Or.inl ⟨rfl, rest⟩, ?_, ?_, size, sameRead, untouched⟩
      · rw [freeEq]
        simp only [Reply.wrote.injEq, Except.ok.injEq, nonzero, false_iff]
        exact full
      · intro _
        obtain ⟨copied, copiedEq, -, -, kept⟩ := PShmBuffer.writeLoop_start ready same (by omega) (by omega)
          (show (BitVec.ofNat 64 data.length).toNat < fuel by omega) readable
        exact ⟨copied, copiedEq, kept⟩

/-- One call through a handle of the right size keeps the ring a queue. -/
theorem call_step (ready : Ready n mem) (same : buf.size.toNat = n) {op : BufferOp} {flow : Flow}
    (valid : op.Valid) (enough : 2 ^ 31 ≤ fuel) (fifo : flow.Fifo n mem) :
    ∃ reply mem', buf.step fuel op mem = .ok (reply, mem') ∧ Ready n mem' ∧
      (flow.after (op, reply)).Fifo n mem' ∧ CallLaw n fuel buf mem reply mem' op := by
  cases op with
  | read storage => exact read_step ready same valid enough fifo
  | write data => exact write_step ready same valid enough fifo
  | clear =>
      obtain ⟨mem', ran, ready', empty, -⟩ := PShmBuffer.clear_spec ready same
      refine ⟨.cleared, mem', by rw [PShmBuffer.step, ran]; rfl, ready', ?_, empty⟩
      unfold Flow.Fifo Flow.after
      rw [empty]
      rfl
  | getFreeSpace =>
      have ran := freeSpace_granted ready same
      exact ⟨_, mem, by rw [PShmBuffer.step, ran]; rfl, ready, fifo, rfl⟩
  | getUsedSpace =>
      have ran := usedSpace_granted ready same
      exact ⟨_, mem, by rw [PShmBuffer.step, ran]; rfl, ready, fifo, rfl⟩

theorem runCalls_fifo {calls : List (PShmBuffer × BufferOp)} {flow : Flow} (ready : Ready n mem)
    (same : ∀ call ∈ calls, call.1.size.toNat = n) (valid : ∀ call ∈ calls, call.2.Valid)
    (enough : 2 ^ 31 ≤ fuel) (fifo : flow.Fifo n mem) :
    ∃ history mem', runCalls fuel calls mem = .ok (history, mem') ∧ Ready n mem' ∧
      (history.foldl Flow.after flow).Fifo n mem' := by
  induction calls generalizing mem flow with
  | nil => exact ⟨[], mem, rfl, ready, fifo⟩
  | cons call calls ih =>
      obtain ⟨buf, op⟩ := call
      obtain ⟨reply, mem₁, stepped, ready₁, fifo₁, -⟩ := call_step ready
        (same (buf, op) List.mem_cons_self) (valid (buf, op) List.mem_cons_self) enough fifo
      obtain ⟨history, mem₂, ran, ready₂, fifo₂⟩ := ih ready₁
        (fun call inside => same call (List.mem_cons_of_mem _ inside))
        (fun call inside => valid call (List.mem_cons_of_mem _ inside)) fifo₁
      refine ⟨(op, reply) :: history, mem₂, ?_, ready₂, fifo₂⟩
      rw [runCalls, stepped]
      simp only [Exec.ok_bind, ran]
      rfl

end Laws

/-- Calls through handles with one ring size on a zeroed segment, in any order, treat the
    ring as a bounded queue of `n - 1` bytes. -/
theorem shm_buffer_is_fifo {n size : Nat} (atLeast : 2 ≤ n) (small : n < 2 ^ 31)
    (fits : dataOffset + n ≤ size) {calls : List (PShmBuffer × BufferOp)}
    (same : ∀ call ∈ calls, call.1.size.toNat = n) (valid : ∀ call ∈ calls, call.2.Valid)
    {fuel : Nat} (enough : 2 ^ 31 ≤ fuel) (k : Nat) :
    ∃ history mem, runCalls fuel (calls.take k) (Region.zeros size) = .ok (history, mem) ∧
      SegmentLaw n mem ∧ (Flow.of history).Fifo n mem ∧
      ∀ buf op, calls[k]? = some (buf, op) → ∃ reply mem',
        buf.step fuel op mem = .ok (reply, mem') ∧ CallLaw n fuel buf mem reply mem' op := by
  have fifo : (Flow.mk [] []).Fifo n (Region.zeros size) := held_zeros n size
  obtain ⟨history, mem, ran, ready, fifo'⟩ := runCalls_fifo (ready_zeros (by omega) (show n < 2 ^ 63 by omega) fits)
    (fun call inside => same call (List.mem_of_mem_take inside))
    (fun call inside => valid call (List.mem_of_mem_take inside)) enough fifo
  refine ⟨history, mem, ran, segmentLaw ready, fifo', ?_⟩
  intro buf op called
  have inside := List.mem_of_getElem? called
  obtain ⟨reply, mem', stepped, -, -, law⟩ :=
    call_step ready (same _ inside) (valid _ inside) enough fifo'
  exact ⟨reply, mem', stepped, law⟩

/-- A handle with a ring of four bytes. -/
def fourBytes (created : Bool) : PShmBuffer :=
  ⟨⟨created, "/ring", 20, .readwrite⟩, 4, show 17 < 20 by decide,
    show (4 : PSize) = 20 - BitVec.ofNat 64 16 by decide⟩

theorem shm_buffer_is_fifo_four_bytes :
    let calls : List (PShmBuffer × BufferOp) := [(fourBytes true, .write [1, 2, 3]),
      (fourBytes false, .read (Region.zeros 2)), (fourBytes true, .write [4, 5])]
    ∃ history mem, runCalls (2 ^ 31) (calls.take 2) (Region.zeros 20) = .ok (history, mem) ∧
      SegmentLaw 4 mem ∧ (Flow.of history).Fifo 4 mem ∧
      ∀ buf op, calls[2]? = some (buf, op) → ∃ reply mem',
        buf.step (2 ^ 31) op mem = .ok (reply, mem') ∧ CallLaw 4 (2 ^ 31) buf mem reply mem' op := by
  intro calls
  have same : ∀ call ∈ calls, call.1.size.toNat = 4 := by simp [calls, fourBytes]
  have valid : ∀ call ∈ calls, call.2.Valid := by simp [calls, BufferOp.Valid, Region.zeros]
  exact shm_buffer_is_fifo (by decide) (by decide) (by decide) same valid (Nat.le_refl _) 2

end Plibsys.Shm
