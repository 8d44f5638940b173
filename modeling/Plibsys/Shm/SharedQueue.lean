import Plibsys.Shm.Fifo
import Plibsys.Shm.PSemaphore
import Plibsys.Support.CriticalSections

/-! # One buffer, many processes

Processes that opened the same shared buffer call its functions at the same time.  Every
`memcpy` from or to the segment is an access of its own, and the accesses of the processes
come in any order; only `zshm_lock` makes a process wait.  To the processes the buffer is a
bounded queue on which each call acts at once.
-/

namespace Plibsys.Shm

open Support

/-- A queue of at most `n - 1` bytes, with the answers of the functions of the buffer. -/
def boundedQueue (n : Nat) : BufferOp → List Byte → List Byte × Reply
  | .read storage, queue =>
      (queue.drop storage.size,
        .read (.ok (BitVec.ofNat 32 (min storage.size queue.length))) (storage.patch 0 (queue.take storage.size)))
  | .write data, queue =>
      if n - 1 - queue.length < data.length then
        (queue, .wrote (.ok 0))
      else
        (queue ++ data, .wrote (.ok (BitVec.ofNat 64 data.length)))
  | .clear, _ => ([], .cleared)
  | .getFreeSpace, queue => (queue, .space (.ok (BitVec.ofNat 64 (n - 1 - queue.length))))
  | .getUsedSpace, queue => (queue, .space (.ok (BitVec.ofNat 64 queue.length)))

/-! ## The functions, access by access -/

namespace PShmBuffer

variable {ρ : Type}

/-- `memcpy (&pos, addr + off, sizeof (pos))` -/
def fetchPos (off : Nat) (rest : PSize → Code Region ρ) : Code Region ρ := .get (fun mem => mem.loadWord off) rest

/-- `memcpy (addr + off, &pos, sizeof (pos))` -/
def storePos (off : Nat) (pos : PSize) (rest : Code Region ρ) : Code Region ρ :=
  .put (fun mem => mem.storeWord off pos) rest

/-- `pzshm_buffer_get_free_space` -/
def freeSpaceCode (buf : PShmBuffer) (rest : PSize → Code Region ρ) : Code Region ρ :=
  fetchPos readOffset fun readPos => fetchPos writeOffset fun writePos =>
    rest (if writePos < readPos then readPos - writePos - 1
      else if writePos > readPos then buf.size - (writePos - readPos) - 1
      else buf.size - 1)

/-- `pzshm_buffer_get_used_space` -/
def usedSpaceCode (buf : PShmBuffer) (rest : PSize → Code Region ρ) : Code Region ρ :=
  fetchPos readOffset fun readPos => fetchPos writeOffset fun writePos =>
    rest (if writePos > readPos then writePos - readPos
      else if writePos < readPos then buf.size - (readPos - writePos)
      else 0)

/-- The copy loop of `zshm_buffer_read`. -/
def readLoopCode (buf : PShmBuffer) (readPos toCopy : PSize) (rest : Region → Code Region ρ) :
    Nat → PUInt → Region → Code Region ρ
  | 0, _, _ => .trap .outOfFuel
  | fuel + 1, i, storage =>
      if i.setWidth 64 < toCopy then
        .get (fun mem => storage.memcpy i.toNat mem (buf.slot readPos i) 1) fun storage =>
          readLoopCode buf readPos toCopy rest fuel (i + 1) storage
      else
        rest storage

/-- The copy loop of `zshm_buffer_write`. -/
def writeLoopCode (buf : PShmBuffer) (data : Region) (writePos len : PSize) (rest : Code Region ρ) :
    Nat → PUInt → Code Region ρ
  | 0, _ => .trap .outOfFuel
  | fuel + 1, i =>
      if i.setWidth 64 < len then
        .put (fun mem => mem.memcpy (buf.slot writePos i) data i.toNat 1)
          (writeLoopCode buf data writePos len rest fuel (i + 1))
      else
        rest

/-- What a function does between `zshm_lock` and `zshm_unlock`. -/
def sectionCode (fuel : Nat) (buf : PShmBuffer) : BufferOp → Code Region Reply
  | .read storage =>
      let len := BitVec.ofNat 64 storage.size
      fetchPos readOffset fun readPos => fetchPos writeOffset fun writePos =>
        if readPos = writePos then
          .done (.read (.ok 0) storage)
        else
          buf.usedSpaceCode fun dataAval =>
            let toCopy := if dataAval ≤ len then dataAval else len
            buf.readLoopCode readPos toCopy
              (fun storage => storePos readOffset ((readPos + toCopy) % buf.size)
                (.done (.read (.ok (toCopy.setWidth 32)) storage)))
              fuel 0 storage
  | .write data =>
      let len := BitVec.ofNat 64 data.length
      fetchPos readOffset fun _readPos => fetchPos writeOffset fun writePos =>
        buf.freeSpaceCode fun free =>
          if free < len then
            .done (.wrote (.ok 0))
          else
            buf.writeLoopCode (Region.ofList data) writePos len
              (storePos writeOffset ((writePos + len) % buf.size) (.done (.wrote (.ok len)))) fuel 0
  | .clear => .put (fun mem => mem.memset 0 buf.shm.size.toNat) (.done .cleared)
  | .getFreeSpace => buf.freeSpaceCode fun size => .done (.space (.ok size))
  | .getUsedSpace => buf.usedSpaceCode fun size => .done (.space (.ok size))

variable {buf : PShmBuffer} {mem : Region}

theorem run_freeSpaceCode (rest : PSize → Code Region ρ) :
    (buf.freeSpaceCode rest).run mem = buf.pzshmBufferGetFreeSpace mem >>= fun size => (rest size).run mem := by
  simp only [freeSpaceCode, fetchPos, Code.run_get, pzshmBufferGetFreeSpace, bind_assoc]
  congr 1
  funext readPos
  congr 1
  funext writePos
  split
  · rfl
  · split <;> rfl

theorem run_usedSpaceCode (rest : PSize → Code Region ρ) :
    (buf.usedSpaceCode rest).run mem = buf.pzshmBufferGetUsedSpace mem >>= fun size => (rest size).run mem := by
  simp only [usedSpaceCode, fetchPos, Code.run_get, pzshmBufferGetUsedSpace, bind_assoc]
  congr 1
  funext readPos
  congr 1
  funext writePos
  split
  · rfl
  · split <;> rfl

theorem run_readLoopCode (readPos toCopy : PSize) (rest : Region → Code Region ρ) (fuel : Nat) (i : PUInt)
    (storage : Region) :
    (buf.readLoopCode readPos toCopy rest fuel i storage).run mem =
      buf.readLoop mem readPos toCopy fuel i storage >>= fun storage => (rest storage).run mem := by
  induction fuel generalizing i storage with
  | zero => rfl
  | succ fuel ih =>
      rw [readLoopCode, readLoop]
      split
      · simp only [Code.run_get, ih, bind_assoc]
      · rfl

theorem run_writeLoopCode (data : Region) (writePos len : PSize) (rest : Code Region ρ) (fuel : Nat) (i : PUInt)
    (mem : Region) :
    (buf.writeLoopCode data writePos len rest fuel i).run mem =
      buf.writeLoop data writePos len fuel i mem >>= rest.run := by
  induction fuel generalizing i mem with
  | zero => rfl
  | succ fuel ih =>
      rw [writeLoopCode, writeLoop]
      split
      · simp only [Code.run_put, bind_assoc]
        congr 1
        funext mem
        exact ih (i + 1) mem
      · rfl

theorem valid_ne_zero {size : Nat} (positive : 0 < size) (short : size < 2 ^ 31) : BitVec.ofNat 64 size ≠ 0 := by
  intro zero
  have numbers := congrArg BitVec.toNat zero
  rw [BitVec.toNat_ofNat, Nat.mod_eq_of_lt (by omega)] at numbers
  simp at numbers
  omega

/-- Nobody else on the segment: the call is the function. -/
theorem run_sectionCode (fuel : Nat) {op : BufferOp} (valid : op.Valid) :
    (buf.sectionCode fuel op).run mem = buf.step fuel op mem >>= fun outcome => .ok (outcome.2, outcome.1) := by
  cases op with
  | read storage =>
      have nonzero := valid_ne_zero valid.1 valid.2
      simp only [sectionCode, fetchPos, storePos, Code.run_get, step, zshmBufferRead, nonzero, if_false,
        LockCalls.granted, LockCalls.unlocked, bind_assoc]
      congr 1
      funext readPos
      congr 1
      funext writePos
      split
      · rfl
      · simp only [run_usedSpaceCode, run_readLoopCode, Code.run_put, bind_assoc]
        rfl
  | write data =>
      have nonzero := valid_ne_zero valid.1 valid.2
      simp only [sectionCode, fetchPos, storePos, Code.run_get, step, zshmBufferWrite, nonzero, if_false,
        LockCalls.granted, LockCalls.unlocked, bind_assoc]
      congr 1
      funext readPos
      congr 1
      funext writePos
      rw [run_freeSpaceCode]
      congr 1
      funext free
      split
      · rfl
      · simp only [run_writeLoopCode, bind_assoc]
        rfl
  | clear =>
      simp only [sectionCode, Code.run_put, step, zshmBufferClear, LockCalls.granted, bind_assoc]
      rfl
  | getFreeSpace =>
      simp only [sectionCode, run_freeSpaceCode, step, zshmBufferGetFreeSpace, underLock, LockCalls.granted,
        LockCalls.unlocked, bind_assoc]
      rfl
  | getUsedSpace =>
      simp only [sectionCode, run_usedSpaceCode, step, zshmBufferGetUsedSpace, underLock, LockCalls.granted,
        LockCalls.unlocked, bind_assoc]
      rfl

end PShmBuffer

/-! ## Calls of a process -/

/-- A call through a handle with a ring of size `n`, under the semaphore `id`. -/
structure BufferCall (n id : Nat) where
  buf : PShmBuffer
  sem : PSemaphore
  op : BufferOp
  same : buf.size.toNat = n
  opened : sem.semHdl = some id
  valid : op.Valid

theorem semWait_one {ns : SemNamespace} {id : Nat} (one : ns.values[id]? = some 1) :
    ∃ taken, ns.semWait id = some taken ∧ taken.values[id]? = some 0 := by
  have inside : id < ns.values.length := (List.getElem?_eq_some_iff.mp one).1
  unfold SemNamespace.semWait
  rw [one]
  exact ⟨_, rfl, by simp [inside]⟩

theorem semPost_zero {ns : SemNamespace} {id : Nat} (zero : ns.values[id]? = some 0) :
    ∃ released, ns.semPost id = .ok released ∧ released.values[id]? = some 1 := by
  have inside : id < ns.values.length := (List.getElem?_eq_some_iff.mp zero).1
  unfold SemNamespace.semPost
  rw [zero]
  exact ⟨_, rfl, by simp [inside]⟩

/-- The semaphore of a segment.  The first `zshm_new` of the segment gives it the value 1. -/
def segmentLock (id : Nat) (ns : SemNamespace) (one : ns.values[id]? = some 1) : Lock where
  State := SemNamespace
  start := ns
  free := fun ns => ns.values[id]? = some 1
  held := fun ns => ns.values[id]? = some 0
  attempt := fun ns =>
    match ns.semWait id with
    | some taken => (taken, true)
    | none => (ns, false)
  -- the post cannot fail while the lock is held
  release := fun ns => (ns.semPost id).toOption.getD ns
  start_free := one
  attempt_free := by
    intro ns free
    obtain ⟨taken, waited, zero⟩ := semWait_one free
    rw [waited]
    exact ⟨zero, rfl⟩
  attempt_held := by
    intro ns held
    simp [SemNamespace.semWait, held]
  release_held := by
    intro ns held
    obtain ⟨released, posted, one⟩ := semPost_zero held
    rw [posted]
    exact one

section Calls

variable {n id fuel : Nat}

/-- `zshm_lock` of every process takes the one semaphore. -/
theorem BufferCall.attempt_eq (call : BufferCall n id) (shm : PShm) {ns now : SemNamespace}
    {one : ns.values[id]? = some 1} :
    (segmentLock id ns one).attempt now =
      ((LockedShm.mk shm call.sem).zshmLock now).elim (now, false) (fun taken => (taken, true)) := by
  have locks : (LockedShm.mk shm call.sem).zshmLock now = now.semWait id := by
    rw [LockedShm.zshmLock, zsemaphoreAcquire, call.opened]
    rfl
  rw [locks]
  show (match now.semWait id with | some taken => (taken, true) | none => (now, false)) = _
  cases now.semWait id <;> rfl

/-- `zshm_unlock` of the process that has it gives it back. -/
theorem BufferCall.unlock_eq (call : BufferCall n id) (shm : PShm) {ns : SemNamespace} (held : ns.values[id]? = some 0) :
    (LockedShm.mk shm call.sem).zshmUnlock ns = (none, (ns.semPost id).toOption.getD ns) := by
  obtain ⟨released, posted, -⟩ := semPost_zero held
  rw [LockedShm.zshmUnlock, zsemaphoreRelease, call.opened, Option.elim_some, posted]
  rfl

/-- The calls of the processes, access by access. -/
def sharedBuffer (n id fuel : Nat) (lock : Lock) : Implementation (Region × lock.State) (BufferCall n id) Reply :=
  guarded lock fun call => call.buf.sectionCode fuel call.op

/-- Alone, a call acts on the queue that the ring holds. -/
theorem section_runs (call : BufferCall n id) (enough : 2 ^ 31 ≤ fuel) {mem : Region} (ready : Ready n mem) :
    ∃ mem' reply, (call.buf.sectionCode fuel call.op).run mem = .ok (mem', reply) ∧ Ready n mem' ∧
      boundedQueue n call.op (held n mem) = (held n mem', reply) := by
  obtain ⟨buf, sem, op, same, opened, valid⟩ := call
  have small := ready.small
  have usedBelow := usedIn_lt ready
  rw [PShmBuffer.run_sectionCode fuel valid]
  cases op with
  | read storage =>
      obtain ⟨positive, short⟩ := valid
      have lenEq : (BitVec.ofNat 64 storage.size).toNat = storage.size := toNat_size (by omega)
      have room : (BitVec.ofNat 64 storage.size).toNat ≤ storage.size := Nat.le_of_eq lenEq
      obtain ⟨mem', ran, ready', rest, -⟩ := PShmBuffer.read_spec ready same (by omega) (by omega) room enough
      rw [lenEq] at ran rest
      refine ⟨mem', _, by rw [PShmBuffer.step, ran]; rfl, ready', ?_⟩
      rw [boundedQueue, rest, length_held]
  | write data =>
      obtain ⟨positive, short⟩ := valid
      have lenEq : (BitVec.ofNat 64 data.length).toNat = data.length := toNat_size (by omega)
      by_cases full : n - 1 - usedIn n mem < data.length
      · have ran : buf.zshmBufferWrite fuel .granted (Region.ofList data) (BitVec.ofNat 64 data.length) mem = _ :=
          PShmBuffer.write_refused ready same (by omega)
        refine ⟨mem, _, by rw [PShmBuffer.step, ran]; rfl, ready, ?_⟩
        rw [boundedQueue, length_held, if_pos full]
      · have readable : (BitVec.ofNat 64 data.length).toNat ≤ (Region.ofList data).size := Nat.le_of_eq lenEq
        obtain ⟨mem', ran, ready', rest, -⟩ :=
          PShmBuffer.write_spec ready same (by omega) (by omega) (by omega) readable enough
        rw [lenEq, Region.slice_ofList] at rest
        refine ⟨mem', _, by rw [PShmBuffer.step, ran]; rfl, ready', ?_⟩
        rw [boundedQueue, length_held, if_neg full, rest]
  | clear =>
      obtain ⟨mem', ran, ready', empty, -⟩ := PShmBuffer.clear_spec ready same
      refine ⟨mem', .cleared, by rw [PShmBuffer.step, ran]; rfl, ready', ?_⟩
      rw [boundedQueue, empty]
  | getFreeSpace =>
      refine ⟨mem, _, by rw [PShmBuffer.step, freeSpace_granted ready same]; rfl, ready, ?_⟩
      rw [boundedQueue, length_held]
  | getUsedSpace =>
      refine ⟨mem, _, by rw [PShmBuffer.step, usedSpace_granted ready same]; rfl, ready, ?_⟩
      rw [boundedQueue, length_held]

theorem sections (enough : 2 ^ 31 ≤ fuel) :
    Bodies (fun call : BufferCall n id => call.buf.sectionCode fuel call.op) (fun call => boundedQueue n call.op)
      (held n) (Ready n) where
  runs := fun call _ ready => section_runs call enough ready

end Calls

/-! ## The order of the bytes -/

/-- What the calls wrote and read since the last of them that cleared the buffer. -/
def flowOf {ι : Type} {n id : Nat} (log : List (Effect ι (BufferCall n id) Reply)) : Flow :=
  Flow.of (log.map fun e => (e.op.op, e.reply))

theorem boundedQueue_fifo {n : Nat} (op : BufferOp) (valid : op.Valid) {queue : List Byte} (fits : queue.length < n)
    (short : n < 2 ^ 31) {flow : Flow} (fifo : flow.returned ++ queue = flow.written) :
    (boundedQueue n op queue).1.length < n ∧
      (flow.after (op, (boundedQueue n op queue).2)).returned ++ (boundedQueue n op queue).1 =
        (flow.after (op, (boundedQueue n op queue).2)).written := by
  cases op with
  | read storage =>
      have counted : (BitVec.ofNat 32 (min storage.size queue.length)).toNat = min storage.size queue.length := by
        rw [BitVec.toNat_ofNat, Nat.mod_eq_of_lt (by omega)]
      have taken : (storage.patch 0 (queue.take storage.size)).slice 0 (min storage.size queue.length) =
          queue.take storage.size := by
        have patched := Region.slice_patch storage 0 (queue.take storage.size)
        rwa [List.length_take] at patched
      constructor
      · rw [boundedQueue, List.length_drop]
        omega
      · rw [boundedQueue, Flow.after_read, counted, taken, List.append_assoc, List.take_append_drop]
        exact fifo
  | write data =>
      have lenEq : (BitVec.ofNat 64 data.length).toNat = data.length := toNat_size (by have := valid.2; omega)
      rw [boundedQueue]
      split
      · exact ⟨fits, by simpa [Flow.after] using fifo⟩
      · constructor
        · rw [List.length_append]
          omega
        · rw [Flow.after_write, lenEq, List.take_length, ← List.append_assoc]
          exact congrArg (· ++ data) fifo
  | clear => exact ⟨show 0 < n by omega, rfl⟩
  | getFreeSpace | getUsedSpace => exact ⟨fits, fifo⟩

theorem replays_fifo {ι : Type} {n id : Nat} (short : n < 2 ^ 31) {log : List (Effect ι (BufferCall n id) Reply)}
    {queue final : List Byte} (replays : Replays (fun call => boundedQueue n call.op) queue log final)
    (fits : queue.length < n) {flow : Flow} (fifo : flow.returned ++ queue = flow.written) :
    let flow' := (log.map fun e => (e.op.op, e.reply)).foldl Flow.after flow
    final.length < n ∧ flow'.returned ++ final = flow'.written := by
  induction log generalizing queue flow with
  | nil =>
      obtain rfl : final = queue := replays
      exact ⟨fits, fifo⟩
  | cons e log ih =>
      obtain ⟨replied, rest⟩ := replays
      obtain ⟨fits', fifo'⟩ := boundedQueue_fifo e.op.op e.op.valid fits short fifo
      rw [replied] at fifo'
      exact ih rest fits' fifo'

section Processes

variable {ι : Type} [DecidableEq ι] {n size id fuel : Nat} {ns : SemNamespace} {one : ns.values[id]? = some 1}
  {events : List (Event ι (BufferCall n id) Reply)}
  {s : Callers ι (Region × (segmentLock id ns one).State) (Place Region (BufferCall n id) Reply) Reply}

/-- In any interleaving of the processes the buffer is a bounded queue: each call acts at one
    moment between its begin and its end, the bytes come out in the order in which they went
    in, no access leaves the segment, and between the calls the ring holds the queue.  The lock
    is `zshm_lock` and `zshm_unlock` of the handle of each call. -/
theorem shared_buffer_linearizable (atLeast : 2 ≤ n) (short : n < 2 ^ 31) (fits : dataOffset + n ≤ size)
    (enough : 2 ^ 31 ≤ fuel)
    (run : (sharedBuffer n id fuel (segmentLock id ns one)).Run (Region.zeros size, ns) events s) :
    (∃ log queue, Linearizes (fun call => boundedQueue n call.op) [] events log queue ∧ queue.length < n ∧
      (flowOf log).returned ++ queue = (flowOf log).written ∧
      ((∀ t code, s.turns t ≠ .busy (.inside code)) → Ready n s.shared.1 ∧ held n s.shared.1 = queue)) ∧
    (∀ t place, s.turns t = .busy place →
      ∃ shared next, (sharedBuffer n id fuel (segmentLock id ns one)).access place s.shared = .ok (shared, next)) ∧
    ∀ (call : BufferCall n id) (shm : PShm) (now : SemNamespace),
      (segmentLock id ns one).attempt now =
          ((LockedShm.mk shm call.sem).zshmLock now).elim (now, false) (fun taken => (taken, true)) ∧
        ((segmentLock id ns one).held now →
          (LockedShm.mk shm call.sem).zshmUnlock now = (none, (segmentLock id ns one).release now)) := by
  have ready : Ready n (Region.zeros size) := ready_zeros (by omega) (by omega) fits
  refine ⟨?_, ?_, fun call shm now => ⟨call.attempt_eq shm, call.unlock_eq shm⟩⟩
  · obtain ⟨log, queue, linearizes, quiet⟩ := Guarded.linearizes (sections enough) ready run
    rw [held_zeros] at linearizes
    obtain ⟨below, fifo⟩ := replays_fifo short linearizes.replays (show [].length < n by simp; omega)
      (show (Flow.mk [] []).returned ++ [] = (Flow.mk [] []).written from rfl)
    refine ⟨log, queue, linearizes, below, fifo, fun nobody => ?_⟩
    obtain ⟨ready', same⟩ := quiet nobody
    exact ⟨ready', same.symm⟩
  · intro t place turn
    exact (Guarded.simulates (sections enough) ready).safe run turn

end Processes

/-- One semaphore, with the value 1. -/
def oneSemaphore : SemNamespace := ⟨fun _ => none, [1], by simp⟩

def fourBytesCall (op : BufferOp) (valid : op.Valid) : BufferCall 4 0 :=
  ⟨fourBytes true, ⟨true, "/ring", some 0, .create, 1⟩, op, rfl, rfl, valid⟩

def writeThree : BufferCall 4 0 := fourBytesCall (.write [1, 2, 3]) (by simp [BufferOp.Valid])

def readTwo : BufferCall 4 0 := fourBytesCall (.read (Region.zeros 2)) (by simp [BufferOp.Valid])

/-- A read that comes while another process writes waits for the semaphore. -/
theorem shared_buffer_linearizable_write_and_read :
    ∃ log queue, Linearizes (fun call : BufferCall 4 0 => boundedQueue 4 call.op) []
      [.invoke false writeThree, .invoke true readTwo, .respond false (.wrote (.ok 3))] log queue ∧
      (flowOf log).returned ++ queue = (flowOf log).written := by
  have started : (sharedBuffer 4 0 (2 ^ 31) (segmentLock 0 oneSemaphore rfl)).Run (ι := Bool)
      (Region.zeros 20, oneSemaphore) [] (.new _) := .start
  have entered := ((started.invoke false writeThree rfl).access false rfl rfl).invoke true readTwo rfl
  have waited := entered.access true rfl rfl
  have positions := (waited.access false rfl rfl).access false rfl rfl
  have spaces := (positions.access false rfl rfl).access false rfl rfl
  have copied := spaces.access false rfl (by with_unfolding_all rfl)
  have copied := copied.access false rfl (by with_unfolding_all rfl)
  have copied := copied.access false rfl (by with_unfolding_all rfl)
  have moved := copied.access false rfl (by with_unfolding_all rfl)
  have left := moved.access false rfl (by with_unfolding_all rfl)
  have ended := left.respond false (by with_unfolding_all rfl)
  obtain ⟨⟨log, queue, linearizes, -, fifo, -⟩, -⟩ :=
    shared_buffer_linearizable (by decide) (by decide) (by decide) (Nat.le_refl _) ended
  exact ⟨log, queue, linearizes, fifo⟩

end Plibsys.Shm
