import Plibsys.Support.CriticalSections
import Plibsys.Types

/-! # Atomic operations

The same functions in four ways: with the builtins of the compiler (`patomic-c11.c`), under
one mutex (`patomic-sim.c`), with the interlocked functions of Windows, some of them as loops
for older compilers (`patomic-win.c`), and with the builtins of DEC C (`patomic-decc.c`).  The
additions wrap around, as those of the builtins do.
-/

namespace Plibsys.Threads

open Support

/-- What the functions operate on: integers and pointers of `w` bits. -/
structure Cells (w : Nat) where
  ints : Addr → BitVec 32
  pointers : Addr → BitVec w

namespace Cells

variable {w : Nat}

def setInt (cells : Cells w) (atomic : Addr) (val : BitVec 32) : Cells w :=
  { cells with ints := Function.update cells.ints atomic val }

def setPointer (cells : Cells w) (atomic : Addr) (val : BitVec w) : Cells w :=
  { cells with pointers := Function.update cells.pointers atomic val }

@[simp] theorem setInt_self (cells : Cells w) (atomic : Addr) : cells.setInt atomic (cells.ints atomic) = cells := by
  simp [setInt]

@[simp] theorem setPointer_self (cells : Cells w) (atomic : Addr) :
    cells.setPointer atomic (cells.pointers atomic) = cells := by
  simp [setPointer]

end Cells

/-- A call of one of the functions. -/
inductive AtomicOp (w : Nat) where
  | zatomicIntGet (atomic : Addr)
  | zatomicIntSet (atomic : Addr) (val : BitVec 32)
  | zatomicIntInc (atomic : Addr)
  | zatomicIntDecAndTest (atomic : Addr)
  | zatomicIntCompareAndExchange (atomic : Addr) (oldval newval : BitVec 32)
  | zatomicIntAdd (atomic : Addr) (val : BitVec 32)
  | zatomicIntAnd (atomic : Addr) (val : BitVec 32)
  | zatomicIntOr (atomic : Addr) (val : BitVec 32)
  | zatomicIntXor (atomic : Addr) (val : BitVec 32)
  | zatomicPointerGet (atomic : Addr)
  | zatomicPointerSet (atomic : Addr) (val : BitVec w)
  | zatomicPointerCompareAndExchange (atomic : Addr) (oldval newval : BitVec w)
  | zatomicPointerAdd (atomic : Addr) (val : BitVec w)
  | zatomicPointerAnd (atomic : Addr) (val : BitVec w)
  | zatomicPointerOr (atomic : Addr) (val : BitVec w)
  | zatomicPointerXor (atomic : Addr) (val : BitVec w)

inductive AtomicReply (w : Nat) where
  | void
  | boolean (b : Bool)
  | int (value : BitVec 32)
  | pointer (value : BitVec w)

variable {w : Nat}

/-! ## The builtins -/

/-- `__atomic_fetch_*` on an integer: the cell changes, and its old value is the result. -/
def fetchInt (atomic : Addr) (f : BitVec 32 → BitVec 32) (cells : Cells w) : Cells w × BitVec 32 :=
  (cells.setInt atomic (f (cells.ints atomic)), cells.ints atomic)

def fetchPointer (atomic : Addr) (f : BitVec w → BitVec w) (cells : Cells w) : Cells w × BitVec w :=
  (cells.setPointer atomic (f (cells.pointers atomic)), cells.pointers atomic)

/-- `__atomic_compare_exchange_n` on an integer: whether the exchange took place, and the value
    that was found. -/
def compareExchangeInt (atomic : Addr) (oldval newval : BitVec 32) (cells : Cells w) : Cells w × Bool × BitVec 32 :=
  let found := cells.ints atomic
  if found = oldval then (cells.setInt atomic newval, true, found) else (cells, false, found)

def compareExchangePointer (atomic : Addr) (oldval newval : BitVec w) (cells : Cells w) : Cells w × Bool × BitVec w :=
  let found := cells.pointers atomic
  if found = oldval then (cells.setPointer atomic newval, true, found) else (cells, false, found)

def AtomicReply.asInt : Cells w × BitVec 32 → Cells w × AtomicReply w
  | (cells, value) => (cells, .int value)

def AtomicReply.asPointer : Cells w × BitVec w → Cells w × AtomicReply w
  | (cells, value) => (cells, .pointer value)

/-- `patomic-c11.c`; `patomic-sync.c` has the same functions with older builtins. -/
def c11 : AtomicOp w → Cells w → Cells w × AtomicReply w
  | .zatomicIntGet atomic, cells => (cells, .int (cells.ints atomic))
  | .zatomicIntSet atomic val, cells => (cells.setInt atomic val, .void)
  | .zatomicIntInc atomic, cells => ((fetchInt atomic (· + 1) cells).1, .void)
  | .zatomicIntDecAndTest atomic, cells =>
      let (cells, old) := fetchInt atomic (· - 1) cells
      (cells, .boolean (old == 1))
  | .zatomicIntCompareAndExchange atomic oldval newval, cells =>
      let (cells, exchanged, _) := compareExchangeInt atomic oldval newval cells
      (cells, .boolean exchanged)
  | .zatomicIntAdd atomic val, cells => AtomicReply.asInt (fetchInt atomic (· + val) cells)
  | .zatomicIntAnd atomic val, cells => AtomicReply.asInt (fetchInt atomic (· &&& val) cells)
  | .zatomicIntOr atomic val, cells => AtomicReply.asInt (fetchInt atomic (· ||| val) cells)
  | .zatomicIntXor atomic val, cells => AtomicReply.asInt (fetchInt atomic (· ^^^ val) cells)
  | .zatomicPointerGet atomic, cells => (cells, .pointer (cells.pointers atomic))
  | .zatomicPointerSet atomic val, cells => (cells.setPointer atomic val, .void)
  | .zatomicPointerCompareAndExchange atomic oldval newval, cells =>
      let (cells, exchanged, _) := compareExchangePointer atomic oldval newval cells
      (cells, .boolean exchanged)
  | .zatomicPointerAdd atomic val, cells => AtomicReply.asPointer (fetchPointer atomic (· + val) cells)
  | .zatomicPointerAnd atomic val, cells => AtomicReply.asPointer (fetchPointer atomic (· &&& val) cells)
  | .zatomicPointerOr atomic val, cells => AtomicReply.asPointer (fetchPointer atomic (· ||| val) cells)
  | .zatomicPointerXor atomic val, cells => AtomicReply.asPointer (fetchPointer atomic (· ^^^ val) cells)

/-! ## Under a mutex -/

namespace Sim

abbrev Body (w : Nat) := Code (Cells w) (AtomicReply w)

def readInt (atomic : Addr) (rest : BitVec 32 → Body w) : Body w :=
  .access .ok fun cells => rest (cells.ints atomic)

def writeInt (atomic : Addr) (val : BitVec 32) (rest : Body w) : Body w :=
  .access (fun cells => .ok (cells.setInt atomic val)) fun _ => rest

def readPointer (atomic : Addr) (rest : BitVec w → Body w) : Body w :=
  .access .ok fun cells => rest (cells.pointers atomic)

def writePointer (atomic : Addr) (val : BitVec w) (rest : Body w) : Body w :=
  .access (fun cells => .ok (cells.setPointer atomic val)) fun _ => rest

/-- `patomic-sim.c`, between `zmutex_lock` and `zmutex_unlock`. -/
def body : AtomicOp w → Body w
  | .zatomicIntGet atomic => readInt atomic fun value => .done (.int value)
  | .zatomicIntSet atomic val => writeInt atomic val (.done .void)
  | .zatomicIntInc atomic => readInt atomic fun value => writeInt atomic (value + 1) (.done .void)
  | .zatomicIntDecAndTest atomic =>
      readInt atomic fun value => writeInt atomic (value - 1) (.done (.boolean (value - 1 == 0)))
  | .zatomicIntCompareAndExchange atomic oldval newval =>
      readInt atomic fun value =>
        if value = oldval then writeInt atomic newval (.done (.boolean true)) else .done (.boolean false)
  | .zatomicIntAdd atomic val =>
      readInt atomic fun oldval => writeInt atomic (oldval + val) (.done (.int oldval))
  | .zatomicIntAnd atomic val =>
      readInt atomic fun oldval => writeInt atomic (oldval &&& val) (.done (.int oldval))
  | .zatomicIntOr atomic val =>
      readInt atomic fun oldval => writeInt atomic (oldval ||| val) (.done (.int oldval))
  | .zatomicIntXor atomic val =>
      readInt atomic fun oldval => writeInt atomic (oldval ^^^ val) (.done (.int oldval))
  | .zatomicPointerGet atomic => readPointer atomic fun value => .done (.pointer value)
  | .zatomicPointerSet atomic val => writePointer atomic val (.done .void)
  | .zatomicPointerCompareAndExchange atomic oldval newval =>
      readPointer atomic fun value =>
        if value = oldval then writePointer atomic newval (.done (.boolean true)) else .done (.boolean false)
  | .zatomicPointerAdd atomic val =>
      readPointer atomic fun oldval => writePointer atomic (oldval + val) (.done (.pointer oldval))
  | .zatomicPointerAnd atomic val =>
      readPointer atomic fun oldval => writePointer atomic (oldval &&& val) (.done (.pointer oldval))
  | .zatomicPointerOr atomic val =>
      readPointer atomic fun oldval => writePointer atomic (oldval ||| val) (.done (.pointer oldval))
  | .zatomicPointerXor atomic val =>
      readPointer atomic fun oldval => writePointer atomic (oldval ^^^ val) (.done (.pointer oldval))

/-- `pzatomic_mutex`, as the system's mutexes behave: locking it succeeds when it is not
    locked, and waits otherwise. -/
def pzatomicMutex : Lock where
  State := Bool
  start := false
  free := fun locked => locked = false
  held := fun locked => locked = true
  attempt := fun locked => (true, !locked)
  release := fun _ => false
  start_free := rfl
  attempt_free := by decide
  attempt_held := by decide
  release_held := by decide

def atomics : Implementation (Cells w × Bool) (AtomicOp w) (AtomicReply w) := guarded pzatomicMutex body

theorem sub_one_eq_zero (x : BitVec 32) : (x - 1 == 0) = (x == 1) := by
  rw [Bool.eq_iff_iff, beq_iff_eq, beq_iff_eq]
  constructor <;> intro same <;> bv_omega

/-- Alone, a body does what the builtin does. -/
theorem run_body (op : AtomicOp w) (cells : Cells w) : (body op).run cells = .ok (c11 op cells) := by
  cases op with
  | zatomicIntGet | zatomicIntSet | zatomicIntInc | zatomicPointerGet | zatomicPointerSet => rfl
  | zatomicIntAdd | zatomicIntAnd | zatomicIntOr | zatomicIntXor => rfl
  | zatomicPointerAdd | zatomicPointerAnd | zatomicPointerOr | zatomicPointerXor => rfl
  | zatomicIntDecAndTest atomic =>
      simp only [body, readInt, writeInt, Code.run, Exec.ok_bind, sub_one_eq_zero]
      rfl
  | zatomicIntCompareAndExchange atomic oldval newval =>
      by_cases same : cells.ints atomic = oldval
      · simp [body, readInt, writeInt, Code.run, c11, compareExchangeInt, same]
      · simp [body, readInt, Code.run, c11, compareExchangeInt, same]
  | zatomicPointerCompareAndExchange atomic oldval newval =>
      by_cases same : cells.pointers atomic = oldval
      · simp [body, readPointer, writePointer, Code.run, c11, compareExchangePointer, same]
      · simp [body, readPointer, Code.run, c11, compareExchangePointer, same]

theorem bodies : Bodies (body : AtomicOp w → Body w) c11 id fun _ => True where
  runs := fun op cells _ => ⟨_, _, run_body op cells, trivial, rfl⟩

end Sim

/-! ## Loops of exchanges -/

namespace Win

/-- The functions that are loops for the older compilers, where a pointer has 32 bits. -/
inductive LoopOp where
  | intAnd (atomic : Addr) (val : BitVec 32)
  | intOr (atomic : Addr) (val : BitVec 32)
  | intXor (atomic : Addr) (val : BitVec 32)
  | pointerAnd (atomic : Addr) (val : BitVec 32)
  | pointerOr (atomic : Addr) (val : BitVec 32)
  | pointerXor (atomic : Addr) (val : BitVec 32)

namespace LoopOp

def op : LoopOp → AtomicOp 32
  | intAnd atomic val => .zatomicIntAnd atomic val
  | intOr atomic val => .zatomicIntOr atomic val
  | intXor atomic val => .zatomicIntXor atomic val
  | pointerAnd atomic val => .zatomicPointerAnd atomic val
  | pointerOr atomic val => .zatomicPointerOr atomic val
  | pointerXor atomic val => .zatomicPointerXor atomic val

/-- The new value that `ppInterlockedAnd`, `ppInterlockedOr` and `ppInterlockedXor` propose. -/
def proposal (i : BitVec 32) : LoopOp → BitVec 32
  | intAnd _ val | pointerAnd _ val => i &&& val
  | intOr _ val | pointerOr _ val => i ||| val
  | intXor _ val | pointerXor _ val => i ^^^ val

/-- `*atomic` -/
def current (cells : Cells 32) : LoopOp → BitVec 32
  | intAnd atomic _ | intOr atomic _ | intXor atomic _ => cells.ints atomic
  | pointerAnd atomic _ | pointerOr atomic _ | pointerXor atomic _ => cells.pointers atomic

/-- `InterlockedCompareExchange`, which returns the value that it found. -/
def interlockedCompareExchange (newval oldval : BitVec 32) (cells : Cells 32) : LoopOp → Cells 32 × BitVec 32
  | intAnd atomic _ | intOr atomic _ | intXor atomic _ =>
      let (cells, _, found) := compareExchangeInt atomic oldval newval cells
      (cells, found)
  | pointerAnd atomic _ | pointerOr atomic _ | pointerXor atomic _ =>
      let (cells, _, found) := compareExchangePointer atomic oldval newval cells
      (cells, found)

def reply (j : BitVec 32) : LoopOp → AtomicReply 32
  | intAnd _ _ | intOr _ _ | intXor _ _ => .int j
  | pointerAnd _ _ | pointerOr _ _ | pointerXor _ _ => .pointer j

end LoopOp

/-- Where a call is. -/
inductive Step where
  | single (op : AtomicOp 32)
  /-- At `j = *atomic`. -/
  | first (loop : LoopOp)
  /-- At the exchange, with `i = j`. -/
  | exchange (loop : LoopOp) (i : BitVec 32)

def enter : AtomicOp 32 → Step
  | .zatomicIntAnd atomic val => .first (.intAnd atomic val)
  | .zatomicIntOr atomic val => .first (.intOr atomic val)
  | .zatomicIntXor atomic val => .first (.intXor atomic val)
  | .zatomicPointerAnd atomic val => .first (.pointerAnd atomic val)
  | .zatomicPointerOr atomic val => .first (.pointerOr atomic val)
  | .zatomicPointerXor atomic val => .first (.pointerXor atomic val)
  | op => .single op

/-- The functions that are one access or one interlocked function. -/
def single : AtomicOp 32 → Cells 32 → Cells 32 × AtomicReply 32
  | .zatomicIntDecAndTest atomic, cells =>
      -- InterlockedDecrement returns the new value
      (cells.setInt atomic (cells.ints atomic - 1), .boolean (cells.ints atomic - 1 == 0))
  | .zatomicIntCompareAndExchange atomic oldval newval, cells =>
      let (cells, _, found) := compareExchangeInt atomic oldval newval cells
      (cells, .boolean (found == oldval))
  | .zatomicPointerCompareAndExchange atomic oldval newval, cells =>
      let (cells, _, found) := compareExchangePointer atomic oldval newval cells
      (cells, .boolean (found == oldval))
  | op, cells => c11 op cells

/-- `patomic-win.c` -/
def atomics : Implementation (Cells 32) (AtomicOp 32) (AtomicReply 32) where
  Local := Step
  enter := enter
  access
    | .single op, cells => .ok ((single op cells).1, .inr (single op cells).2)
    | .first loop, cells => .ok (cells, .inl (.exchange loop (loop.current cells)))
    | .exchange loop i, cells =>
        let (cells, j) := loop.interlockedCompareExchange (loop.proposal i) i cells
        .ok (cells, if i ≠ j then .inl (.exchange loop j) else .inr (loop.reply j))

def opOf : Step → AtomicOp 32
  | .single op => op
  | .first loop | .exchange loop _ => loop.op

theorem opOf_enter (op : AtomicOp 32) : opOf (enter op) = op := by
  cases op <;> rfl

theorem single_eq (op : AtomicOp 32) (cells : Cells 32) : single op cells = c11 op cells := by
  cases op with
  | zatomicIntDecAndTest atomic =>
      simp only [single, Sim.sub_one_eq_zero]
      rfl
  | zatomicIntCompareAndExchange atomic oldval newval =>
      by_cases same : cells.ints atomic = oldval <;> simp [single, c11, compareExchangeInt, same]
  | zatomicPointerCompareAndExchange atomic oldval newval =>
      by_cases same : cells.pointers atomic = oldval <;> simp [single, c11, compareExchangePointer, same]
  | _ => rfl

/-- An exchange that finds the expected value is the whole operation. -/
theorem exchange_succeeds (loop : LoopOp) (cells : Cells 32) :
    loop.interlockedCompareExchange (loop.proposal (loop.current cells)) (loop.current cells) cells =
        ((c11 loop.op cells).1, loop.current cells) ∧
      loop.reply (loop.current cells) = (c11 loop.op cells).2 := by
  cases loop <;>
    simp [LoopOp.interlockedCompareExchange, LoopOp.proposal, LoopOp.current, LoopOp.op, LoopOp.reply, compareExchangeInt,
      compareExchangePointer, c11, fetchInt, fetchPointer, AtomicReply.asInt, AtomicReply.asPointer]

/-- Another value makes it fail. -/
theorem exchange_fails (loop : LoopOp) (newval : BitVec 32) {i : BitVec 32} {cells : Cells 32}
    (other : loop.current cells ≠ i) :
    loop.interlockedCompareExchange newval i cells = (cells, loop.current cells) := by
  cases loop <;> simp only [LoopOp.current] at other <;>
    simp [LoopOp.interlockedCompareExchange, LoopOp.current, compareExchangeInt, compareExchangePointer, other]

theorem tries (step : Step) (cells : Cells 32) : atomics.Tries c11 opOf step cells := by
  cases step with
  | single op => exact .inr (by simp only [atomics, opOf, single_eq])
  | first loop => exact .inl ⟨_, rfl, rfl⟩
  | exchange loop i =>
      by_cases same : loop.current cells = i
      · right
        subst same
        obtain ⟨exchanged, replied⟩ := exchange_succeeds loop cells
        simp only [atomics, exchanged, ne_eq, not_true_eq_false, if_false, opOf, replied]
      · left
        refine ⟨.exchange loop (loop.current cells), ?_, rfl⟩
        simp only [atomics, exchange_fails loop _ same, ne_eq, Ne.symm same, not_false_eq_true, if_true]

end Win

namespace Decc

/-- Where a call is. -/
inductive Step (w : Nat) where
  | single (op : AtomicOp w)
  /-- In `zatomic_int_xor`, at `i = *atomic`. -/
  | intRead (atomic : Addr) (val : BitVec 32)
  | intExchange (atomic : Addr) (val i : BitVec 32)
  /-- In `zatomic_pointer_xor`, at `i = *atomic`. -/
  | pointerRead (atomic : Addr) (val : BitVec w)
  | pointerExchange (atomic : Addr) (val i : BitVec w)

/-- `patomic-decc.c` -/
def atomics : Implementation (Cells w) (AtomicOp w) (AtomicReply w) where
  Local := Step w
  enter
    | .zatomicIntXor atomic val => .intRead atomic val
    | .zatomicPointerXor atomic val => .pointerRead atomic val
    | op => .single op
  access
    | .single op, cells => .ok ((c11 op cells).1, .inr (c11 op cells).2)
    | .intRead atomic val, cells => .ok (cells, .inl (.intExchange atomic val (cells.ints atomic)))
    | .intExchange atomic val i, cells =>
        let (cells, exchanged, _) := compareExchangeInt atomic i (i ^^^ val) cells
        .ok (cells, if exchanged then .inr (.int i) else .inl (.intRead atomic val))
    | .pointerRead atomic val, cells => .ok (cells, .inl (.pointerExchange atomic val (cells.pointers atomic)))
    | .pointerExchange atomic val i, cells =>
        let (cells, exchanged, _) := compareExchangePointer atomic i (i ^^^ val) cells
        .ok (cells, if exchanged then .inr (.pointer i) else .inl (.pointerRead atomic val))

def opOf : Step w → AtomicOp w
  | .single op => op
  | .intRead atomic val | .intExchange atomic val _ => .zatomicIntXor atomic val
  | .pointerRead atomic val | .pointerExchange atomic val _ => .zatomicPointerXor atomic val

theorem opOf_enter (op : AtomicOp w) : opOf (atomics.enter op) = op := by
  cases op <;> rfl

theorem tries (step : Step w) (cells : Cells w) : atomics.Tries c11 opOf step cells := by
  cases step with
  | single op => exact .inr rfl
  | intRead atomic val | pointerRead atomic val => exact .inl ⟨_, rfl, rfl⟩
  | intExchange atomic val i =>
      by_cases same : cells.ints atomic = i
      · right
        subst same
        simp only [atomics, compareExchangeInt, if_true]
        rfl
      · left
        refine ⟨.intRead atomic val, ?_, rfl⟩
        simp [atomics, compareExchangeInt, same]
  | pointerExchange atomic val i =>
      by_cases same : cells.pointers atomic = i
      · right
        subst same
        simp only [atomics, compareExchangePointer, if_true]
        rfl
      · left
        refine ⟨.pointerRead atomic val, ?_, rfl⟩
        simp [atomics, compareExchangePointer, same]

end Decc

/-- The ports with loops. -/
inductive LoopPort : Nat → Type where
  | win : LoopPort 32
  | decc (w : Nat) : LoopPort w

def LoopPort.atomics : LoopPort w → Implementation (Cells w) (AtomicOp w) (AtomicReply w)
  | win => Win.atomics
  | decc _ => Decc.atomics

/-! ## What the callers see -/

section Linearizable

variable {ι : Type} [DecidableEq ι] {start : Cells w} {events : List (Event ι (AtomicOp w) (AtomicReply w))}

/-- Under the mutex, whatever the order of the reads and the writes, the functions are those
    of the compiler: every call takes effect at once between its begin and its end. -/
theorem simulated_atomics_linearizable
    {s : Callers ι (Cells w × Bool) (Place (Cells w) (AtomicOp w) (AtomicReply w)) (AtomicReply w)}
    (run : Sim.atomics.Run (start, false) events s) :
    ∃ log final, Linearizes c11 start events log final ∧
      ((∀ t code, s.turns t ≠ .busy (.inside code)) → s.shared.1 = final) ∧
      ∀ t u code code', s.turns t = .busy (.inside code) → s.turns u = .busy (.inside code') → t = u := by
  obtain ⟨log, final, linearizes, quiet⟩ := Guarded.linearizes Sim.bodies trivial run
  refine ⟨log, final, linearizes, fun nobody => (quiet nobody).2.symm, ?_⟩
  intro t u code code' inside inside'
  exact Guarded.exclusive Sim.bodies trivial run inside inside'

/-- A read between the read and the write of an increment waits for the mutex. -/
theorem simulated_atomics_linearizable_increment_and_get :
    ∃ log final, Linearizes c11 (⟨fun _ => 0, fun _ => 0⟩ : Cells 64)
      [.invoke false (.zatomicIntInc 8), .invoke true (.zatomicIntGet 8), .respond false .void] log final := by
  have started : (Sim.atomics : Implementation (Cells 64 × Bool) (AtomicOp 64) (AtomicReply 64)).Run (ι := Bool)
      (⟨fun _ => 0, fun _ => 0⟩, false) [] (.new _) := .start
  have reading := ((started.invoke false (.zatomicIntInc 8) rfl).access false rfl rfl).access false rfl rfl
  have meanwhile := (reading.invoke true (.zatomicIntGet 8) rfl).access true rfl rfl
  have written := (meanwhile.access false rfl rfl).access false rfl rfl
  obtain ⟨log, final, linearizes, -, -⟩ := simulated_atomics_linearizable (written.respond false rfl)
  exact ⟨log, final, linearizes⟩

/-- However often the exchanges fail, the functions with loops are those of the compiler. -/
theorem exchange_loops_linearizable (port : LoopPort w) {s : Callers ι (Cells w) port.atomics.Local (AtomicReply w)}
    (run : port.atomics.Run start events s) : ∃ log, Linearizes c11 start events log s.shared := by
  cases port with
  | win => exact Implementation.linearizes_of_tries Win.opOf Win.opOf_enter Win.tries run
  | decc => exact Implementation.linearizes_of_tries Decc.opOf Decc.opOf_enter Decc.tries run

/-- A cell that is set between the read and the exchange makes the exchange fail once. -/
theorem exchange_loops_linearizable_retry :
    ∃ log final, Linearizes c11 (⟨fun _ => 0, fun _ => 0⟩ : Cells 32)
      [.invoke false (.zatomicIntXor 8 5), .invoke true (.zatomicIntSet 8 7), .respond true .void,
        .respond false (.int 7)] log final := by
  have started : LoopPort.win.atomics.Run (ι := Bool) ⟨fun _ => 0, fun _ => 0⟩ [] (.new _) := .start
  have reading := (started.invoke false (.zatomicIntXor 8 5) rfl).access false rfl rfl
  have meanwhile := ((reading.invoke true (.zatomicIntSet 8 7) rfl).access true rfl rfl).respond true rfl
  have exchanged := (meanwhile.access false rfl rfl).access false rfl rfl
  obtain ⟨log, linearizes⟩ := exchange_loops_linearizable .win (exchanged.respond false rfl)
  exact ⟨log, _, linearizes⟩

end Linearizable

end Plibsys.Threads
