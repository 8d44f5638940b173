import Plibsys.Threads.PUThreadAmiga
import Mathlib.Algebra.Order.Group.Nat
import Mathlib.Logic.Function.Iterate

/-! # Passes of the TLS clean-up

A pass calls a destructor exactly when some value is left under a key that has one.  The
loop of a thread that ends counts its passes; the loop of the shutdown does not.
-/

namespace Plibsys.Threads

open Support

variable {World : Type} {task : PPointer} (destructors : Destructors World task)

/-- No thread has a value under this key, or the key has no destructor. -/
def TlsState.KeyQuiet (s : TlsState World) (i : Fin maxTlsKeys) : Prop :=
  (s.tlsKeys i).inUse → (s.tlsKeys i).freeFunc ≠ 0 → ∀ info ∈ s.list, info.tlsValues i = 0

/-- No value is left for a destructor. -/
def TlsState.Quiet (s : TlsState World) : Prop := ∀ i, s.KeyQuiet i

/-- The state after some passes. -/
def passes (n : Nat) (s : TlsState World) : TlsState World :=
  (fun s => (pass destructors s).1)^[n] s

section Threads

theorem threadLoop_quiet (destFunc : PPointer) (i : Fin maxTlsKeys) (p : Nat) (s : TlsState World)
    (needPass : Bool) (quiet : ∀ info ∈ s.list, info.tlsValues i = 0) :
    threadLoop destructors destFunc i p s needPass = (s, needPass) := by
  fun_induction threadLoop destructors destFunc i p s needPass with
  | case1 p s needPass inside destData some ih =>
      exact absurd (quiet _ (List.get_mem _ _)) some
  | case2 p s needPass inside destData none ih => exact ih quiet
  | case3 p s needPass outside => rfl

/-- Once a pass is needed, it stays so. -/
theorem threadLoop_flag (destFunc : PPointer) (i : Fin maxTlsKeys) (p : Nat) (s : TlsState World) :
    (threadLoop destructors destFunc i p s true).2 = true := by
  generalize flag : true = needPass
  fun_induction threadLoop destructors destFunc i p s needPass with
  | case1 p s needPass inside destData some ih => exact (ih rfl).trans flag
  | case2 p s needPass inside destData none ih => exact ih flag
  | case3 p s needPass outside => rfl

/-- A value that is left at the position or after it calls for a pass. -/
theorem threadLoop_value (destFunc : PPointer) (i : Fin maxTlsKeys) (p : Nat) (s : TlsState World)
    (needPass : Bool) (q : Nat) (after : p ≤ q) (inside : q < s.list.length)
    (value : (s.list.get ⟨q, inside⟩).tlsValues i ≠ 0) :
    (threadLoop destructors destFunc i p s needPass).2 = true := by
  fun_induction threadLoop destructors destFunc i p s needPass with
  | case1 p s needPass here destData some ih => exact threadLoop_flag destructors _ _ _ _
  | case2 p s needPass here destData none ih =>
      have later : p ≠ q := by
        rintro rfl
        exact none value
      exact ih (by omega) inside value
  | case3 p s needPass outside => omega

end Threads

section Keys

theorem keyStep_quiet {s : TlsState World} {i : Fin maxTlsKeys} (needPass : Bool) (quiet : s.KeyQuiet i) :
    keyStep destructors (s, needPass) i = (s, needPass) := by
  unfold keyStep
  split
  · rfl
  · split
    · rfl
    · rename_i used hasFunc
      exact threadLoop_quiet destructors _ i 0 s needPass (quiet (by simpa using used) hasFunc)

theorem keyStep_flag (s : TlsState World) (i : Fin maxTlsKeys) :
    (keyStep destructors (s, true) i).2 = true := by
  unfold keyStep
  split
  · rfl
  · split
    · rfl
    · exact threadLoop_flag destructors _ i 0 s

theorem keyStep_busy {s : TlsState World} {i : Fin maxTlsKeys} (needPass : Bool) (busy : ¬ s.KeyQuiet i) :
    (keyStep destructors (s, needPass) i).2 = true := by
  simp only [TlsState.KeyQuiet, not_forall] at busy
  obtain ⟨used, hasFunc, info, inside, value⟩ := busy
  obtain ⟨q, rfl⟩ := List.get_of_mem inside
  unfold keyStep
  rw [if_neg (by rw [used]; exact Bool.true_eq_false_eq_False), if_neg hasFunc]
  exact threadLoop_value destructors _ i 0 s needPass q.val (Nat.zero_le _) q.isLt value

theorem foldl_keyStep_flag (keys : List (Fin maxTlsKeys)) (s : TlsState World) :
    (keys.foldl (keyStep destructors) (s, true)).2 = true := by
  induction keys generalizing s with
  | nil => rfl
  | cons i keys ih =>
      rw [List.foldl_cons, ← Prod.mk.eta (p := keyStep destructors (s, true) i), keyStep_flag]
      exact ih _

theorem foldl_keyStep_quiet (keys : List (Fin maxTlsKeys)) {s : TlsState World} (needPass : Bool)
    (quiet : ∀ i ∈ keys, s.KeyQuiet i) : keys.foldl (keyStep destructors) (s, needPass) = (s, needPass) := by
  induction keys with
  | nil => rfl
  | cons i keys ih =>
      rw [List.foldl_cons, keyStep_quiet destructors needPass (quiet i List.mem_cons_self)]
      exact ih fun j inside => quiet j (List.mem_cons_of_mem _ inside)

theorem foldl_keyStep_busy (keys : List (Fin maxTlsKeys)) {s : TlsState World} (needPass : Bool)
    (busy : ∃ i ∈ keys, ¬ s.KeyQuiet i) : (keys.foldl (keyStep destructors) (s, needPass)).2 = true := by
  induction keys generalizing needPass with
  | nil => simp at busy
  | cons i keys ih =>
      rw [List.foldl_cons]
      by_cases quiet : s.KeyQuiet i
      · rw [keyStep_quiet destructors needPass quiet]
        obtain ⟨j, inside, busyKey⟩ := busy
        rcases List.mem_cons.mp inside with rfl | later
        · exact absurd quiet busyKey
        · exact ih needPass ⟨j, later, busyKey⟩
      · rw [← Prod.mk.eta (p := keyStep destructors (s, needPass) i), keyStep_busy destructors needPass quiet]
        exact foldl_keyStep_flag destructors keys _

end Keys

section Passes

/-- A pass with nothing to do changes nothing. -/
theorem pass_quiet {s : TlsState World} (quiet : s.Quiet) : pass destructors s = (s, false) :=
  foldl_keyStep_quiet destructors _ false fun i _ => quiet i

theorem pass_busy {s : TlsState World} (busy : ¬ s.Quiet) : (pass destructors s).2 = true := by
  simp only [TlsState.Quiet, not_forall] at busy
  obtain ⟨i, busyKey⟩ := busy
  exact foldl_keyStep_busy destructors _ false ⟨i, List.mem_finRange i, busyKey⟩

/-- The loop of the shutdown ends with its first pass over a quiet state. -/
theorem shutdownLoop_ok_iff (fuel : Nat) (s : TlsState World) :
    (∃ final, shutdownLoop destructors (fuel + 1) true 0 s = .ok final) ↔
      ∃ n < fuel, (passes destructors n s).Quiet := by
  induction fuel generalizing s with
  | zero =>
      rw [shutdownLoop, if_pos ⟨rfl, by decide⟩]
      simp [shutdownLoop]
  | succ fuel ih =>
      rw [shutdownLoop, if_pos ⟨rfl, by decide⟩]
      by_cases quiet : s.Quiet
      · rw [pass_quiet destructors quiet, shutdownLoop, if_neg (by simp)]
        exact ⟨fun _ => ⟨0, Nat.succ_pos fuel, quiet⟩, fun _ => ⟨s, rfl⟩⟩
      · rw [pass_busy destructors quiet, ih]
        constructor
        · rintro ⟨n, below, later⟩
          exact ⟨n + 1, Nat.succ_lt_succ below, later⟩
        · rintro ⟨n, below, later⟩
          cases n with
          | zero => exact absurd later quiet
          | succ n => exact ⟨n, Nat.lt_of_succ_lt_succ below, later⟩

/-- The loop of a thread that ends stops when its counter does. -/
theorem exitLoop_ends (p left cleanCounter : Nat) (needPass : Bool) (s : TlsState World)
    (enough : maxCleans ≤ cleanCounter + left) :
    ∃ final, exitLoop destructors p (left + 1) needPass cleanCounter s = .ok final := by
  induction left generalizing cleanCounter needPass s with
  | zero => exact ⟨s, by rw [exitLoop, if_neg (by omega)]; rfl⟩
  | succ left ih =>
      rw [exitLoop]
      split
      · exact ih _ _ _ (by omega)
      · exact ⟨s, rfl⟩

/-- After at most `maxCleans` passes the clean-up of the shutdown is over exactly when one of
    the states before these passes is quiet; that of a thread's end always is. -/
theorem zuthreadShutdownInternal_passes (s : TlsState World) :
    ((∃ final, zuthreadShutdownInternal destructors (maxCleans + 1) s = .ok final) ↔
      ∃ n < maxCleans, (passes destructors n s).Quiet) ∧
    ∀ p, ∃ final, amigaProxyCleanUp destructors p (maxCleans + 1) s = .ok final := by
  constructor
  · rw [← shutdownLoop_ok_iff]
    unfold zuthreadShutdownInternal
    cases shutdownLoop destructors (maxCleans + 1) true 0 s with
    | ok final => exact ⟨fun _ => ⟨final, rfl⟩, fun _ => ⟨{ final with list := [] }, rfl⟩⟩
    | error trap => simp
  · intro p
    obtain ⟨final, ended⟩ := exitLoop_ends destructors p maxCleans 0 true s (by omega)
    refine ⟨{ final with list := final.list.eraseIdx p }, ?_⟩
    rw [amigaProxyCleanUp, ended]
    rfl

end Passes

section Reborn

/-- Storing a value is something that a destructor may do. -/
theorem zuthreadSetLocal_tasks (task : PPointer) (created : Option PUThreadInfo) (tlsKey : Fin maxTlsKeys)
    (value : PPointer) (s : TlsState World) :
    (zuthreadSetLocal task created tlsKey value s).tasks = s.tasks ∨
      (task ∉ s.tasks ∧ (zuthreadSetLocal task created tlsKey value s).tasks = s.tasks ++ [task]) := by
  unfold zuthreadSetLocal
  cases found : s.list.findIdx? fun info => info.task = task with
  | some p =>
      left
      dsimp only
      split
      · exact TlsState.tasks_setValue s p tlsKey value
      · rfl
  | none =>
      cases created with
      | none => exact Or.inl rfl
      | some info =>
          have absent : task ∉ s.tasks := by
            intro inside
            obtain ⟨other, inList, same⟩ := List.mem_map.mp inside
            have other_ne := List.findIdx?_eq_none_iff.mp found other inList
            simp [same] at other_ne
          refine Or.inr ⟨absent, ?_⟩
          dsimp only
          split
          · rw [TlsState.tasks_setValue]
            simp [TlsState.tasks]
          · simp [TlsState.tasks]

def firstKey : Fin maxTlsKeys := ⟨0, by decide⟩

/-- A destructor that stores the value again, under the first key. -/
def reborn (task : PPointer) : Destructors Unit task where
  call _ destData s := zuthreadSetLocal task none firstKey destData s
  tasks _ destData s := zuthreadSetLocal_tasks task none _ destData s

/-- A task with one value, under a key with a destructor. -/
def oneValue : TlsState Unit where
  tlsKeys := Function.update (fun _ => ⟨false, 0⟩) firstKey ⟨true, 1⟩
  list := [⟨1, 1, Function.update (fun _ => 0) firstKey 7⟩]
  world := ()

/-- A step over the first key leaves the value there again; no other key is in use. -/
theorem keyStep_reborn (needPass : Bool) (i : Fin maxTlsKeys) :
    (keyStep (reborn 1) (oneValue, needPass) i).1 = oneValue := by
  by_cases first : i = firstKey
  · subst first
    have stored : (reborn 1).call 1 7 (oneValue.setValue 0 firstKey 0) = oneValue := by
      simp [reborn, zuthreadSetLocal, oneValue, TlsState.setValue]
    have key : oneValue.tlsKeys firstKey = ⟨true, 1⟩ := rfl
    have value : (oneValue.list.get ⟨0, by decide⟩).tlsValues firstKey = 7 := rfl
    simp only [keyStep, key]
    rw [if_neg (by decide), if_neg (by decide), threadLoop, dif_pos (by decide), value, if_pos (by decide), stored,
      threadLoop, dif_neg (by decide)]
  · have unused : oneValue.tlsKeys i = ⟨false, 0⟩ := by
      simp [oneValue, first]
    simp only [keyStep, unused, if_true]

theorem not_quiet_oneValue : ¬ oneValue.Quiet := fun quiet =>
  absurd (quiet firstKey rfl (by decide) _ List.mem_cons_self) (by decide)

/-- After a pass the value is there again. -/
theorem pass_reborn : pass (reborn 1) oneValue = (oneValue, true) := by
  have same : ∀ (keys : List (Fin maxTlsKeys)) (needPass : Bool),
      (keys.foldl (keyStep (reborn 1)) (oneValue, needPass)).1 = oneValue := by
    intro keys
    induction keys with
    | nil => exact fun _ => rfl
    | cons i keys ih =>
        intro needPass
        rw [List.foldl_cons, ← Prod.mk.eta (p := keyStep (reborn 1) (oneValue, needPass) i), keyStep_reborn]
        exact ih _
  exact Prod.ext (same _ false) (pass_busy (reborn 1) not_quiet_oneValue)

/-- With such a destructor the shutdown never ends. -/
theorem reborn_never_ends :
    ¬ ∃ fuel final, zuthreadShutdownInternal (reborn 1) fuel oneValue = .ok final := by
  have stuck : ∀ fuel, shutdownLoop (reborn 1) fuel true 0 oneValue = .error .outOfFuel := by
    intro fuel
    induction fuel with
    | zero => rfl
    | succ fuel ih =>
        rw [shutdownLoop, if_pos ⟨rfl, by decide⟩, pass_reborn]
        exact ih
  rintro ⟨fuel, final, ended⟩
  rw [zuthreadShutdownInternal, stuck fuel] at ended
  cases ended

end Reborn

end Plibsys.Threads
