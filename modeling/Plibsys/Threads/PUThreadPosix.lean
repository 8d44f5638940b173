import Plibsys.Support.Heap
import Mathlib.Logic.Function.Basic
import Mathlib.Logic.Relation

/-! # Thread-local keys on POSIX

`puthread-posix.c`: `pzuthread_get_tls_key` creates the `pthread_key_t` of a `PUThreadKey`
when it is first needed.  Calls run concurrently; each atomic operation, each call of the
system and each allocation is one step.

A block of storage remembers the call that allocated it, and a live key the call that
created it.  The lists of deletions and frees are there to be counted.
-/

namespace Plibsys.Threads

open Support

/-- `pthread_key_t` -/
abbrev PthreadKey := Nat

/-- Where a call of `pzuthread_get_tls_key` is, with its `thread_key`. -/
inductive TlsCall where
  | start
  /-- `zatomic_pointer_get` gave `NULL`. -/
  | absent
  | allocated (threadKey : Addr)
  | created (threadKey : Addr)
  /-- The exchange failed. -/
  | lost (threadKey : Addr)
  | deleted (threadKey : Addr)
  | freed
  | returned (threadKey : Addr)
  deriving Repr, DecidableEq

/-- The storage of a `pthread_key_t`. -/
structure KeyBlock (ι : Type) where
  value : PthreadKey
  allocatedBy : ι

/-- A `PUThreadKey` with the storage and the keys of the process, and the calls on it. -/
structure TlsKeys (ι : Type) where
  /-- `key->key` -/
  key : Addr
  storage : Heap (KeyBlock ι)
  /-- The live keys, with the calls that created them. -/
  live : PthreadKey → Option ι
  call : ι → TlsCall
  /-- The key that a call has created. -/
  created : ι → Option PthreadKey
  /-- Who has deleted the key that a call created. -/
  deletions : ι → List ι
  /-- Who has freed the storage that a call allocated. -/
  frees : ι → List ι

/-- After `zuthread_local_new`. -/
def TlsKeys.initial (ι : Type) : TlsKeys ι where
  key := 0
  storage := Heap.empty
  live _ := none
  call _ := .start
  created _ := none
  deletions _ := []
  frees _ := []

variable {ι : Type} [DecidableEq ι]

/-- The call moves on. -/
def TlsKeys.goto (s : TlsKeys ι) (i : ι) (next : TlsCall) : TlsKeys ι :=
  { s with call := Function.update s.call i next }

/-- One step of a call. -/
inductive TlsStep (i : ι) : TlsKeys ι → TlsKeys ι → Prop where
  | getPublished {s : TlsKeys ι} (at_i : s.call i = .start) (published : s.key ≠ 0) :
      TlsStep i s (s.goto i (.returned s.key))
  | getNull {s : TlsKeys ι} (at_i : s.call i = .start) (null : s.key = 0) :
      TlsStep i s (s.goto i .absent)
  /-- `zmalloc0` gives any free address. -/
  | malloc {s : TlsKeys ι} (threadKey : Addr) (at_i : s.call i = .absent) (nonnull : threadKey ≠ 0)
      (free : s.storage.cell threadKey = none) :
      TlsStep i s ({ s with storage := s.storage.insert threadKey nonnull ⟨0, i⟩ }.goto i (.allocated threadKey))
  /-- `pthread_key_create` gives any key that is not live. -/
  | keyCreate {s : TlsKeys ι} (threadKey : Addr) (k : PthreadKey) (at_i : s.call i = .allocated threadKey)
      (unused : s.live k = none) (readable : (s.storage.cell threadKey).isSome) :
      TlsStep i s ({ s with
        storage := s.storage.adjust threadKey fun block => { block with value := k }
        live := Function.update s.live k (some i)
        created := Function.update s.created i (some k) }.goto i (.created threadKey))
  | exchangeWon {s : TlsKeys ι} (threadKey : Addr) (at_i : s.call i = .created threadKey) (null : s.key = 0) :
      TlsStep i s ({ s with key := threadKey }.goto i (.returned threadKey))
  | exchangeLost {s : TlsKeys ι} (threadKey : Addr) (at_i : s.call i = .created threadKey)
      (published : s.key ≠ 0) : TlsStep i s (s.goto i (.lost threadKey))
  /-- `pthread_key_delete (*thread_key)` -/
  | keyDelete {s : TlsKeys ι} (threadKey : Addr) (block : KeyBlock ι) (creator : ι)
      (at_i : s.call i = .lost threadKey) (read : s.storage.cell threadKey = some block)
      (alive : s.live block.value = some creator) :
      TlsStep i s ({ s with
        live := Function.update s.live block.value none
        deletions := Function.update s.deletions creator (s.deletions creator ++ [i]) }.goto i (.deleted threadKey))
  /-- `zfree (thread_key)` -/
  | free {s : TlsKeys ι} (threadKey : Addr) (block : KeyBlock ι) (at_i : s.call i = .deleted threadKey)
      (read : s.storage.cell threadKey = some block) :
      TlsStep i s ({ s with
        storage := s.storage.erase threadKey
        frees := Function.update s.frees block.allocatedBy (s.frees block.allocatedBy ++ [i]) }.goto i .freed)
  /-- `thread_key = key->key` -/
  | reread {s : TlsKeys ι} (at_i : s.call i = .freed) : TlsStep i s (s.goto i (.returned s.key))

/-- A step of some call. -/
def TlsMove (s s' : TlsKeys ι) : Prop := ∃ i, TlsStep i s s'

/-- Any interleaving of steps. -/
def TlsRun : TlsKeys ι → TlsKeys ι → Prop := Relation.ReflTransGen TlsMove

end Plibsys.Threads
