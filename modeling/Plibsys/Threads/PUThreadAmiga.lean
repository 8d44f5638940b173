import Plibsys.Support.Heap
import Plibsys.Types
import Mathlib.Data.Fintype.Basic
import Mathlib.Data.List.FinRange

/-! # Thread-local values on AmigaOS

`puthread-amiga.c`: every thread has a table of values, one for each key.  When a thread
ends, and when the library is shut down, destructors are called for the values that are
left.  A destructor is user code: it may store new values, under any key.
-/

namespace Plibsys.Threads

open Support

/-- `PUTHREAD_AMIGA_MAX_TLS_KEYS` -/
def maxTlsKeys : Nat := 128

/-- `PUTHREAD_AMIGA_MAX_CLEANS` -/
def maxCleans : Nat := 4

/-- `PUThreadTLSKey` -/
structure PUThreadTLSKey where
  inUse : Bool
  freeFunc : PPointer

/-- `PUThreadInfo`, without the jump buffer. -/
structure PUThreadInfo where
  id : PInt
  task : PPointer
  tlsValues : Fin maxTlsKeys → PPointer

/-- `pzuthread_tls_keys`, `pzuthread_list` and what else user code may change. -/
structure TlsState (World : Type) where
  tlsKeys : Fin maxTlsKeys → PUThreadTLSKey
  list : List PUThreadInfo
  world : World

namespace TlsState

variable {World : Type}

def tasks (s : TlsState World) : List PPointer := s.list.map PUThreadInfo.task

/-- `thread_info->tls_values[i] = value` for the thread at a position of the list. -/
def setValue (s : TlsState World) (p : Nat) (i : Fin maxTlsKeys) (value : PPointer) : TlsState World :=
  { s with list := s.list.modify p fun info => { info with tlsValues := Function.update info.tlsValues i value } }

@[simp] theorem tasks_setValue (s : TlsState World) (p : Nat) (i : Fin maxTlsKeys) (value : PPointer) :
    (s.setValue p i value).tasks = s.tasks := by
  apply List.ext_getElem
  · simp [tasks, setValue]
  · intro q inside inside'
    simp only [tasks, setValue, List.getElem_map, List.getElem_modify]
    split <;> rfl

theorem length_list (s : TlsState World) : s.list.length = s.tasks.length := by simp [tasks]

end TlsState

/-- `zuthread_set_local` under a key of the table.  A task without an entry gets the new one,
    where its id and its memory could be had. -/
def zuthreadSetLocal {World : Type} (task : PPointer) (created : Option PUThreadInfo) (tlsKey : Fin maxTlsKeys)
    (value : PPointer) (s : TlsState World) : TlsState World :=
  let found := s.list.findIdx? fun info => info.task = task
  match found, created with
  | some p, _ => if (s.tlsKeys tlsKey).inUse then s.setValue p tlsKey value else s
  | none, none => s
  | none, some info =>
      let s := { s with list := s.list ++ [{ info with task := task, tlsValues := fun _ => 0 }] }
      if (s.tlsKeys tlsKey).inUse then s.setValue (s.list.length - 1) tlsKey value else s

/-- What destructors do when they are called by a task: anything, but the list of threads
    can only get the entry of that task. -/
structure Destructors (World : Type) (task : PPointer) where
  call : PPointer → PPointer → TlsState World → TlsState World
  tasks : ∀ destFunc destData s, (call destFunc destData s).tasks = s.tasks ∨
    (task ∉ s.tasks ∧ (call destFunc destData s).tasks = s.tasks ++ [task])

section Shutdown

variable {World : Type} {task : PPointer}

/-- How often the loop over the threads can still go on. -/
def threadsLeft (task : PPointer) (s : TlsState World) (p : Nat) : Nat :=
  s.list.length - p + if task ∈ s.tasks then 0 else 1

theorem threadsLeft_call (destructors : Destructors World task) (destFunc destData : PPointer)
    (s : TlsState World) (p : Nat) (inside : p < s.list.length) :
    threadsLeft task (destructors.call destFunc destData s) (p + 1) < threadsLeft task s p := by
  unfold threadsLeft
  rw [TlsState.length_list] at inside ⊢
  rw [TlsState.length_list s]
  rcases destructors.tasks destFunc destData s with same | ⟨absent, appended⟩
  · rw [same]
    omega
  · rw [appended, if_neg absent, if_pos (by simp), List.length_append, List.length_singleton]
    omega

/-- The loop of `zuthread_shutdown_internal` over the threads, for one key. -/
def threadLoop (destructors : Destructors World task) (destFunc : PPointer) (i : Fin maxTlsKeys) (p : Nat)
    (s : TlsState World) (needPass : Bool) : TlsState World × Bool :=
  if inside : p < s.list.length then
    let destData := (s.list.get ⟨p, inside⟩).tlsValues i
    if destData ≠ 0 then
      threadLoop destructors destFunc i (p + 1) (destructors.call destFunc destData (s.setValue p i 0)) true
    else
      threadLoop destructors destFunc i (p + 1) s needPass
  else
    (s, needPass)
termination_by threadsLeft task s p
decreasing_by
  · have same : threadsLeft task (s.setValue p i 0) p = threadsLeft task s p := by
      simp only [threadsLeft, TlsState.length_list, TlsState.tasks_setValue]
    rw [← same]
    exact threadsLeft_call destructors _ _ _ _ (by simpa [TlsState.setValue] using inside)
  · unfold threadsLeft
    omega

/-- One key of a pass. -/
def keyStep (destructors : Destructors World task) (run : TlsState World × Bool) (i : Fin maxTlsKeys) :
    TlsState World × Bool :=
  if (run.1.tlsKeys i).inUse = false then run
  else if (run.1.tlsKeys i).freeFunc = 0 then run
  else threadLoop destructors (run.1.tlsKeys i).freeFunc i 0 run.1 run.2

/-- A pass of `zuthread_shutdown_internal` over the keys: the state after it and `need_pass`. -/
def pass (destructors : Destructors World task) (s : TlsState World) : TlsState World × Bool :=
  (List.finRange maxTlsKeys).foldl (keyStep destructors) (s, false)

/-- The clean-up loop of `zuthread_shutdown_internal`, which leaves `clean_counter` as it is. -/
def shutdownLoop (destructors : Destructors World task) :
    Nat → Bool → Nat → TlsState World → Exec (TlsState World)
  | 0, _, _, _ => .error .outOfFuel
  | fuel + 1, needPass, cleanCounter, s =>
      if needPass ∧ cleanCounter < maxCleans then
        shutdownLoop destructors fuel (pass destructors s).2 cleanCounter (pass destructors s).1
      else
        pure s

/-- `zuthread_shutdown_internal`, with a bound on the number of loop tests. -/
def zuthreadShutdownInternal (destructors : Destructors World task) (fuel : Nat) (s : TlsState World) :
    Exec (TlsState World) := do
  let s ← shutdownLoop destructors fuel true 0 s
  pure { s with list := [] }

end Shutdown

section ThreadExit

variable {World : Type} {task : PPointer}

/-- One key of a pass of the thread that ends, which has the position `p` in the list. -/
def exitStep (destructors : Destructors World task) (p : Nat) (run : TlsState World × Bool) (i : Fin maxTlsKeys) :
    TlsState World × Bool :=
  if (run.1.tlsKeys i).inUse then
    match run.1.list[p]? with
    | none => run
    | some info =>
        if (run.1.tlsKeys i).freeFunc ≠ 0 ∧ info.tlsValues i ≠ 0 then
          (destructors.call (run.1.tlsKeys i).freeFunc (info.tlsValues i) (run.1.setValue p i 0), true)
        else
          run
  else
    run

def exitPass (destructors : Destructors World task) (p : Nat) (s : TlsState World) : TlsState World × Bool :=
  (List.finRange maxTlsKeys).foldl (exitStep destructors p) (s, false)

/-- The clean-up loop of `pzuthread_amiga_proxy`. -/
def exitLoop (destructors : Destructors World task) (p : Nat) :
    Nat → Bool → Nat → TlsState World → Exec (TlsState World)
  | 0, _, _, _ => .error .outOfFuel
  | fuel + 1, needPass, cleanCounter, s =>
      if needPass ∧ cleanCounter < maxCleans then
        exitLoop destructors p fuel (exitPass destructors p s).2 (cleanCounter + 1) (exitPass destructors p s).1
      else
        pure s

/-- What `pzuthread_amiga_proxy` does after the thread's function has returned. -/
def amigaProxyCleanUp (destructors : Destructors World task) (p fuel : Nat) (s : TlsState World) :
    Exec (TlsState World) := do
  let s ← exitLoop destructors p fuel true 0 s
  pure { s with list := s.list.eraseIdx p }

end ThreadExit

end Plibsys.Threads
