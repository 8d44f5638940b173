import Plibsys.Threads.PCondVariable

/-! # Lost waiters

A thread that registers becomes the second of the list: the head is linked to it, whatever
the head was linked to before.  With two waiters the list is a queue; a third one cuts the
second off, and nobody wakes that thread any more.
-/

namespace Plibsys.Threads

open Support

def waitLinks : Links PCondThread ThreadId := ⟨PCondThread.next, PCondThread.thread⟩

/-- The waiters that have not been woken, after a call that woke some threads. -/
def outstandingAfter (port : Port) (op : CondOp) (out : List ThreadId) (wakes : List Wake) : List ThreadId :=
  match op with
  | .wait malloc thread signal => if registers port malloc signal then out ++ [thread] else out
  | .signal => out.diff (wakes.map Wake.thread)
  | .broadcast => out.diff (wakes.map Wake.thread)

/-- The list holds the outstanding waiters, each once, and the counter is its length. -/
def Matches (cond : PCondVariable) (out : List ThreadId) : Prop :=
  ∃ chain, waitLinks.Segment cond.nodes 0 cond.waitHead chain ∧ (chain.map Prod.snd).Perm out ∧
    cond.waitCount.toInt = chain.length

/-- A signal wakes one waiter if there is any, and a broadcast wakes all of them. -/
def WakesRight (op : CondOp) (out : List ThreadId) (wakes : List Wake) : Prop :=
  match op with
  | .wait _ _ _ => wakes = []
  | .signal => if out = [] then wakes = [] else ∃ thread ∈ out, wakes.map Wake.thread = [thread]
  | .broadcast => (wakes.map Wake.thread).Perm out

/-- Every state of a run matches its outstanding waiters and every call wakes the right ones. -/
def Lawful (port : Port) (fuel : Nat) : List CondOp → PCondVariable → List ThreadId → Prop
  | [], cond, out => Matches cond out
  | op :: ops, cond, out => Matches cond out ∧ ∃ wakes cond', cond.step port fuel op = .ok (wakes, cond') ∧
      WakesRight op out wakes ∧ Lawful port fuel ops cond' (outstandingAfter port op out wakes)

/-- No thread registers while two others are waiting; the number is that of the waiters at
    the start. -/
def AtMostTwo (port : Port) : List CondOp → Nat → Prop
  | [], _ => True
  | .wait malloc _ signal :: ops, waiting =>
      if registers port malloc signal then waiting ≤ 1 ∧ AtMostTwo port ops (waiting + 1)
      else AtMostTwo port ops waiting
  | .signal :: ops, waiting => AtMostTwo port ops (waiting - 1)
  | .broadcast :: ops, _ => AtMostTwo port ops 0

/-- A list of at most two waiters, in the order of their registration. -/
structure Queued (cond : PCondVariable) (chain : List (Addr × ThreadId)) : Prop where
  linked : waitLinks.Segment cond.nodes 0 cond.waitHead chain
  count : cond.waitCount = BitVec.ofNat 32 chain.length
  short : chain.length ≤ 2

variable {port : Port} {fuel : Nat} {cond : PCondVariable} {chain : List (Addr × ThreadId)}

theorem Queued.matches (queued : Queued cond chain) : Matches cond (chain.map Prod.snd) := by
  refine ⟨chain, queued.linked, List.Perm.refl _, ?_⟩
  have short := queued.short
  have exact : (BitVec.ofNat 32 chain.length).toNat = chain.length := by
    rw [BitVec.toNat_ofNat]
    omega
  rw [queued.count, BitVec.toInt_eq_toNat_of_lt (by omega), exact]

theorem queued_new : Queued zcondVariableNew [] := ⟨rfl, rfl, Nat.zero_le 2⟩

/-- What a new waiter does to the list. -/
theorem register_linked {node : Addr} {c : PCondThread} (linked : waitLinks.Segment cond.nodes 0 cond.waitHead chain)
    (nonnull : node ≠ 0) (fresh : cond.nodes.cell node = none) (last : c.next = 0) :
    ∃ cond', PCondVariable.register node { cond with nodes := cond.nodes.insert node nonnull c } = .ok cond' ∧
      waitLinks.Segment cond'.nodes 0 cond'.waitHead (chain.take 1 ++ [(node, c.thread)]) ∧
      cond'.waitCount = cond.waitCount + 1 := by
  unfold PCondVariable.register
  cases chain with
  | nil =>
      rw [if_neg (by simpa using (show cond.waitHead = 0 from linked))]
      exact ⟨_, rfl, ⟨rfl, c, by simp, rfl, last⟩, rfl⟩
  | cons e rest =>
      have nonnullHead : cond.waitHead ≠ 0 := by
        rw [linked.1]
        exact linked.nonnull (d := e.2) List.mem_cons_self
      obtain ⟨start, head, at_head, stored, -⟩ := linked
      have other : cond.waitHead ≠ node := by
        intro same
        rw [← start, same, fresh] at at_head
        cases at_head
      have kept : (cond.nodes.insert node nonnull c).cell cond.waitHead = some head := by
        rw [Heap.cell_insert, if_neg other, start, at_head]
      rw [if_pos nonnullHead, Heap.modify_of_cell kept]
      refine ⟨_, rfl, ⟨start, { head with next := node }, ?_, stored, rfl, c, ?_, rfl, last⟩, rfl⟩
      · rw [← start, Heap.cell_adjust_self, kept]
        rfl
      · rw [Heap.cell_adjust_ne _ other.symm, Heap.cell_insert, if_pos rfl]

/-- A call that registers its thread puts it behind the head. -/
theorem wait_registers (fuel : Nat) (queued : Queued cond chain) {malloc : Option Allocator} {signal : Option Nat}
    (registered : registers port malloc signal = true) (thread : ThreadId) :
    ∃ node cond', cond.step port fuel (.wait malloc thread signal) = .ok ([], cond') ∧
      waitLinks.Segment cond'.nodes 0 cond'.waitHead (chain.take 1 ++ [(node, thread)]) ∧
      cond'.waitCount = cond.waitCount + 1 := by
  cases malloc with
  | none => simp [registers] at registered
  | some A =>
      have linked : ∀ sigmask, ∃ cond', PCondVariable.register (A.next cond.nodes) { cond with
          nodes := cond.nodes.insert (A.next cond.nodes) (A.next_nonnull cond.nodes) ⟨thread, 0, sigmask⟩ } =
          .ok cond' ∧ waitLinks.Segment cond'.nodes 0 cond'.waitHead
            (chain.take 1 ++ [(A.next cond.nodes, thread)]) ∧ cond'.waitCount = cond.waitCount + 1 :=
        fun sigmask => register_linked queued.linked (A.next_nonnull cond.nodes) (A.next_free cond.nodes) rfl
      refine ⟨A.next cond.nodes, ?_⟩
      unfold PCondVariable.step PCondVariable.zcondVariableWait
      cases port with
      | amiga =>
          cases signal with
          | none => simp [registers] at registered
          | some signal =>
              obtain ⟨cond', ran, rest⟩ := linked (1 <<< signal)
              exact ⟨cond', by simp only [ran]; rfl, rest⟩
      | beos =>
          obtain ⟨cond', ran, rest⟩ := linked 0
          exact ⟨cond', by simp only [ran]; rfl, rest⟩
      | atheos =>
          obtain ⟨cond', ran, rest⟩ := linked 0
          exact ⟨cond', by simp only [ran]; rfl, rest⟩

/-- A call that does not register its thread leaves the list alone. -/
theorem wait_refused (fuel : Nat) (queued : Queued cond chain) {malloc : Option Allocator} {signal : Option Nat}
    (refused : registers port malloc signal = false) (thread : ThreadId) :
    ∃ cond', cond.step port fuel (.wait malloc thread signal) = .ok ([], cond') ∧ Queued cond' chain := by
  unfold PCondVariable.step PCondVariable.zcondVariableWait
  cases malloc with
  | none => exact ⟨cond, rfl, queued⟩
  | some A =>
      cases port with
      | amiga =>
          cases signal with
          | some signal => simp [registers] at refused
          | none =>
              refine ⟨_, rfl, queued.linked.frame fun e inside => ?_, queued.count, queued.short⟩
              obtain ⟨c, at_e, -⟩ := queued.linked.cell inside
              have other : e.1 ≠ A.next cond.nodes := by
                intro same
                rw [same, A.next_free] at at_e
                cases at_e
              rw [Heap.cell_insert, if_neg other]
      | beos => simp [registers] at refused
      | atheos => simp [registers] at refused

theorem wake_thread (node : PCondThread) : (wake port node).thread = node.thread := by
  cases port <;> rfl

/-- A signal wakes the head. -/
theorem signal_head (port : Port) (fuel : Nat) {e : Addr × ThreadId} (queued : Queued cond (e :: chain)) :
    ∃ w cond', cond.step port fuel .signal = .ok ([w], cond') ∧ w.thread = e.2 ∧ Queued cond' chain := by
  have nonnull := queued.linked.nonnull (d := e.2) List.mem_cons_self
  have linked := queued.linked
  obtain ⟨start, node, at_head, stored, rest⟩ := id linked
  have at_start : cond.nodes.cell cond.waitHead = some node := by rw [start, at_head]
  refine ⟨wake port node, ⟨cond.nodes.erase cond.waitHead, node.next, cond.waitCount - 1⟩, ?_, ?_, ?_, ?_, ?_⟩
  · unfold PCondVariable.step PCondVariable.zcondVariableSignal
    rw [if_neg (start ▸ nonnull), Heap.load_of_cell at_start, Exec.ok_bind, Heap.free_of_cell at_start]
    rfl
  · rw [wake_thread]
    exact stored
  · rw [start]
    exact linked.unlinkHead at_head
  · simp only [queued.count, List.length_cons]
    bv_omega
  · have short := queued.short
    rw [List.length_cons] at short
    omega

theorem broadcastLoop_eq (port : Port) {nodes : Heap PCondThread} {p : Addr} {e : Addr × ThreadId}
    (linked : waitLinks.Segment nodes 0 p (e :: chain)) (enough : chain.length < fuel) :
    ∃ wakes nodes', PCondVariable.broadcastLoop port fuel p nodes = .ok (wakes, nodes') ∧
      wakes.map Wake.thread = (e :: chain).map Prod.snd := by
  induction chain generalizing p e nodes fuel with
  | nil =>
      cases fuel with
      | zero => simp at enough
      | succ fuel =>
          obtain ⟨rfl, node, at_p, stored, last⟩ := linked
          refine ⟨[wake port node], nodes.erase e.1, ?_, ?_⟩
          · rw [PCondVariable.broadcastLoop, Heap.load_of_cell at_p, Exec.ok_bind, Heap.free_of_cell at_p,
              Exec.ok_bind, if_neg (by simpa using (show node.next = 0 from last))]
            rfl
          · rw [List.map_singleton, wake_thread]
            exact congrArg (fun t => [t]) stored
  | cons f chain ih =>
      cases fuel with
      | zero => simp at enough
      | succ fuel =>
          have whole := linked
          obtain ⟨rfl, node, at_p, stored, rest⟩ := linked
          have more : node.next ≠ 0 := by
            rw [show node.next = f.1 from rest.1]
            exact rest.nonnull (d := f.2) List.mem_cons_self
          have within : chain.length < fuel := by simpa using enough
          obtain ⟨wakes, nodes', ran, woken⟩ := ih (whole.unlinkHead at_p) within
          refine ⟨wake port node :: wakes, nodes', ?_, ?_⟩
          · rw [PCondVariable.broadcastLoop, Heap.load_of_cell at_p, Exec.ok_bind, Heap.free_of_cell at_p,
              Exec.ok_bind, if_pos more, show node.next = waitLinks.next node from rfl, ran]
            rfl
          · rw [List.map_cons, wake_thread, woken, List.map_cons]
            exact congrArg (fun t => t :: (f :: chain).map Prod.snd) stored

/-- A broadcast wakes the whole list. -/
theorem broadcast_all (port : Port) (queued : Queued cond chain) (enough : 2 ≤ fuel) :
    ∃ wakes cond', cond.step port fuel .broadcast = .ok (wakes, cond') ∧
      wakes.map Wake.thread = chain.map Prod.snd ∧ Queued cond' [] := by
  unfold PCondVariable.step PCondVariable.zcondVariableBroadcast
  cases chain with
  | nil =>
      rw [if_pos (show cond.waitHead = 0 from queued.linked)]
      exact ⟨[], cond, rfl, rfl, queued⟩
  | cons e chain =>
      have short := queued.short
      have nonnull : cond.waitHead ≠ 0 := by
        rw [queued.linked.1]
        exact queued.linked.nonnull (d := e.2) List.mem_cons_self
      have within : chain.length < fuel := by
        rw [List.length_cons] at short
        omega
      obtain ⟨wakes, nodes', ran, woken⟩ := broadcastLoop_eq port queued.linked within
      rw [if_neg nonnull, ran]
      exact ⟨wakes, ⟨nodes', 0, 0⟩, rfl, woken, rfl, rfl, Nat.zero_le 2⟩

/-- The head of an empty list. -/
theorem signal_empty (queued : Queued cond []) : cond.step port fuel .signal = .ok ([], cond) := by
  unfold PCondVariable.step PCondVariable.zcondVariableSignal
  rw [if_pos (show cond.waitHead = 0 from queued.linked)]
  rfl

theorem diff_self (out : List ThreadId) : out.diff out = [] := by
  induction out with
  | nil => rfl
  | cons thread out ih => rw [List.diff_cons, List.erase_cons_head, ih]

theorem Lawful.matches {ops : List CondOp} {out : List ThreadId} (lawful : Lawful port fuel ops cond out) :
    Matches cond out := by
  cases ops with
  | nil => exact lawful
  | cons op ops => exact lawful.1

/-- One call of a lawful run, when its outcome is known. -/
theorem lawful_cons {op : CondOp} {ops : List CondOp} {out : List ThreadId} {wakes : List Wake}
    {cond' : PCondVariable} (listed : Matches cond out) (ran : cond.step port fuel op = .ok (wakes, cond'))
    (right : WakesRight op out wakes) :
    Lawful port fuel (op :: ops) cond out ↔
      Lawful port fuel ops cond' (outstandingAfter port op out wakes) := by
  constructor
  · rintro ⟨-, wakes', cond'', ran', -, rest⟩
    rw [ran] at ran'
    cases ran'
    exact rest
  · intro rest
    exact ⟨listed, wakes, cond', ran, right, rest⟩

theorem lawful_iff (ops : List CondOp) (queued : Queued cond chain) (enough : 2 ≤ fuel) :
    Lawful port fuel ops cond (chain.map Prod.snd) ↔ AtMostTwo port ops chain.length := by
  induction ops generalizing cond chain with
  | nil => exact iff_of_true queued.matches trivial
  | cons op ops ih =>
      cases op with
      | wait malloc thread signal =>
          cases registered : registers port malloc signal with
          | false =>
              obtain ⟨cond', ran, queued'⟩ := wait_refused fuel queued registered thread
              rw [lawful_cons queued.matches ran rfl, AtMostTwo, if_neg (by simp [registered]), ← ih queued',
                outstandingAfter, if_neg (by simp [registered])]
          | true =>
              obtain ⟨node, cond', ran, linked, count⟩ := wait_registers fuel queued registered thread
              rw [lawful_cons queued.matches ran rfl, AtMostTwo, if_pos registered, outstandingAfter,
                if_pos registered]
              by_cases room : chain.length ≤ 1
              · rw [List.take_of_length_le room] at linked
                have queued' : Queued cond' (chain ++ [(node, thread)]) := by
                  refine ⟨linked, ?_, by simpa using room⟩
                  rw [count, queued.count, List.length_append, List.length_singleton, BitVec.ofNat_add]
                  rfl
                have rest := ih queued'
                rw [List.map_append, List.length_append] at rest
                rw [and_iff_right room]
                exact rest
              · apply iff_of_false
                · intro lawful
                  obtain ⟨chain', linked', same, -⟩ := lawful.matches
                  have lengths := same.length_eq
                  rw [← linked.unique linked'] at lengths
                  simp at lengths
                  omega
                · exact fun ⟨few, _⟩ => room few
      | signal =>
          cases chain with
          | nil =>
              rw [lawful_cons queued.matches (signal_empty queued) rfl, AtMostTwo]
              exact ih queued
          | cons e chain =>
              obtain ⟨w, cond', ran, woken, queued'⟩ := signal_head port fuel queued
              have right : WakesRight .signal ((e :: chain).map Prod.snd) [w] := by
                rw [WakesRight, if_neg (by simp)]
                exact ⟨e.2, by simp, by simp [woken]⟩
              rw [lawful_cons queued.matches ran right, AtMostTwo, outstandingAfter]
              simpa [woken] using ih queued'
      | broadcast =>
          obtain ⟨wakes, cond', ran, woken, queued'⟩ := broadcast_all port queued enough
          rw [lawful_cons queued.matches ran (woken ▸ List.Perm.refl _), AtMostTwo, outstandingAfter, woken]
          rw [diff_self]
          exact ih queued'

/-- In every port a run from a new condition variable loses no waiter exactly when no thread
    registers while two others are waiting. -/
theorem waiters_kept_iff (port : Port) (ops : List CondOp) (fuel : Nat) (enough : 2 ≤ fuel) :
    Lawful port fuel ops zcondVariableNew [] ↔ AtMostTwo port ops 0 :=
  lawful_iff ops queued_new enough

theorem waiters_kept_two :
    Lawful .beos 2 [.wait (some .bump) 1 none, .wait (some .bump) 2 none, .signal, .wait (some .bump) 3 none,
      .broadcast] zcondVariableNew [] :=
  (waiters_kept_iff .beos _ 2 (by decide)).mpr (by simp [AtMostTwo, registers])

/-- The third of three waiters cuts off the second: a broadcast wakes the threads 1 and 3. -/
theorem waiter_lost :
    (∃ a b c cond, zcondVariableNew.step .amiga 2 (.wait (some .bump) 1 (some 4)) = .ok ([], a) ∧
        a.step .amiga 2 (.wait (some .bump) 2 (some 5)) = .ok ([], b) ∧
        b.step .amiga 2 (.wait (some .bump) 3 (some 6)) = .ok ([], c) ∧
        c.step .amiga 2 .broadcast = .ok ([.signal 1 16, .signal 3 64], cond)) ∧
      ¬ Lawful .amiga 2 [.wait (some .bump) 1 (some 4), .wait (some .bump) 2 (some 5),
        .wait (some .bump) 3 (some 6), .broadcast] zcondVariableNew [] := by
  constructor
  · exact ⟨_, _, _, _, rfl, rfl, rfl, rfl⟩
  · intro lawful
    have few := (lawful_iff _ queued_new (Nat.le_refl 2)).mp lawful
    simp [AtMostTwo, registers] at few

end Plibsys.Threads
