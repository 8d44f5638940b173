import Plibsys.Support.LinkedList
import Plibsys.Types

/-! # Condition variables with a list of waiters

`pcondvariable-amiga.c`, `pcondvariable-beos.c` and `pcondvariable-atheos.c` keep the
waiting threads in a linked list.  What a call does under the internal spinlock is one step.
The ports differ in how a thread is put to sleep and woken: on AmigaOS by a signal that the
thread has allocated, on BeOS and AtheOS by suspending and resuming the thread.
-/

namespace Plibsys.Threads

open Support

inductive Port where
  | amiga
  | beos
  | atheos
  deriving Repr, DecidableEq

/-- A task or thread of the system. -/
abbrev ThreadId := Nat

/-- `PCondThread`; `sigmask` is there on AmigaOS only. -/
structure PCondThread where
  thread : ThreadId
  next : Addr
  sigmask : Nat
  deriving Repr, DecidableEq

/-- A `PCondVariable` with the nodes of its list. -/
structure PCondVariable where
  nodes : Heap PCondThread
  waitHead : Addr
  waitCount : PInt

/-- How a thread is woken. -/
inductive Wake where
  | signal (thread : ThreadId) (sigmask : Nat)
  | resume (thread : ThreadId)
  deriving Repr, DecidableEq

def Wake.thread : Wake → ThreadId
  | .signal thread _ => thread
  | .resume thread => thread

/-- `IExec->Signal` or `resume_thread` -/
def wake (port : Port) (node : PCondThread) : Wake :=
  match port with
  | .amiga => .signal node.thread node.sigmask
  | .beos => .resume node.thread
  | .atheos => .resume node.thread

/-- `zcond_variable_new` -/
def zcondVariableNew : PCondVariable := ⟨Heap.empty, 0, 0⟩

namespace PCondVariable

/-- The section of `zcond_variable_wait` under the spinlock. -/
def register (node : Addr) (cond : PCondVariable) : Exec PCondVariable :=
  if cond.waitHead ≠ 0 then do
    let nodes ← cond.nodes.modify cond.waitHead fun head => { head with next := node }
    pure { cond with nodes := nodes, waitCount := cond.waitCount + 1 }
  else
    pure { cond with waitHead := node, waitCount := cond.waitCount + 1 }

/-- `zcond_variable_wait` up to the sleep, and whether the thread goes to sleep.  `malloc` is
    the allocation of the node, `signal` the answer of `AllocSignal` on AmigaOS. -/
def zcondVariableWait (port : Port) (malloc : Option Allocator) (thread : ThreadId) (signal : Option Nat)
    (cond : PCondVariable) : Exec (Bool × PCondVariable) :=
  match malloc with
  | none => pure (false, cond)
  | some A =>
      let node := A.next cond.nodes
      let allocated := fun sigmask =>
        { cond with nodes := cond.nodes.insert node (A.next_nonnull cond.nodes) ⟨thread, 0, sigmask⟩ }
      match port, signal with
      | .amiga, none => pure (false, allocated 0)
      | .amiga, some signal => do
          let cond ← (allocated (1 <<< signal)).register node
          pure (true, cond)
      | .beos, _ => do
          let cond ← (allocated 0).register node
          pure (true, cond)
      | .atheos, _ => do
          let cond ← (allocated 0).register node
          pure (true, cond)

/-- `zcond_variable_signal` -/
def zcondVariableSignal (port : Port) (cond : PCondVariable) : Exec (List Wake × PCondVariable) :=
  if cond.waitHead = 0 then
    pure ([], cond)
  else do
    let waitThread ← cond.nodes.load cond.waitHead
    let nodes ← cond.nodes.free cond.waitHead
    pure ([wake port waitThread], ⟨nodes, waitThread.next, cond.waitCount - 1⟩)

/-- The loop of `zcond_variable_broadcast`. -/
def broadcastLoop (port : Port) : Nat → Addr → Heap PCondThread → Exec (List Wake × Heap PCondThread)
  | 0, _, _ => .error .outOfFuel
  | fuel + 1, curThread, nodes => do
      let node ← nodes.load curThread
      let nodes ← nodes.free curThread
      if node.next ≠ 0 then
        let (wakes, nodes) ← broadcastLoop port fuel node.next nodes
        pure (wake port node :: wakes, nodes)
      else
        pure ([wake port node], nodes)

/-- `zcond_variable_broadcast` -/
def zcondVariableBroadcast (port : Port) (fuel : Nat) (cond : PCondVariable) :
    Exec (List Wake × PCondVariable) :=
  if cond.waitHead = 0 then
    pure ([], cond)
  else do
    let (wakes, nodes) ← broadcastLoop port fuel cond.waitHead cond.nodes
    pure (wakes, ⟨nodes, 0, 0⟩)

end PCondVariable

/-- A call by some thread. -/
inductive CondOp where
  | wait (malloc : Option Allocator) (thread : ThreadId) (signal : Option Nat)
  | signal
  | broadcast

/-- Whether a call of `zcond_variable_wait` gets what it needs to register its thread. -/
def registers (port : Port) (malloc : Option Allocator) (signal : Option Nat) : Bool :=
  malloc.isSome && (port != .amiga || signal.isSome)

namespace PCondVariable

def step (port : Port) (fuel : Nat) (op : CondOp) (cond : PCondVariable) : Exec (List Wake × PCondVariable) :=
  match op with
  | .wait malloc thread signal => do
      let (_, cond) ← cond.zcondVariableWait port malloc thread signal
      pure ([], cond)
  | .signal => cond.zcondVariableSignal port
  | .broadcast => cond.zcondVariableBroadcast port fuel

end PCondVariable

end Plibsys.Threads
