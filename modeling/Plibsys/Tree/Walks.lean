import Plibsys.Tree.PTree

/-! # The walks of `ztree_foreach` and `ztree_clear`

While a walk is inside a subtree, the right link of the last node of that subtree holds
the address at which the walk continues.  `Threaded h t s` says that the cells of `h`
spell out `t` with that link set to `s`; a tree at rest is threaded with the null
address.  Both walks are followed by induction on the subtree: started at its root, a
walk reaches the continuation `s`.
-/

namespace Plibsys.Tree

open Support

section Threads

variable {X T : Type} {t l r : LTree PPointer PPointer T} {q : Label PPointer PPointer T}
variable {h h' : Heap (Node PPointer PPointer X)} {s a : Addr}

/-- Where a right link leads: to a subtree, or on to `s`. -/
def entry (r : LTree PPointer PPointer T) (s : Addr) : Addr :=
  match r with
  | .nil => s
  | .node _ q _ => q.addr

def Threaded (h : Heap (Node PPointer PPointer X)) : LTree PPointer PPointer T → Addr → Prop
  | .nil, _ => True
  | .node l q r, s =>
      (∃ x, h.cell q.addr = some ⟨l.addr, entry r s, q.key, q.value, x⟩) ∧
        Threaded h l 0 ∧ Threaded h r s

/-- The address of the last node. -/
def lastAddr : LTree PPointer PPointer T → Addr
  | .nil => 0
  | .node _ q r =>
      match r with
      | .nil => q.addr
      | .node _ _ _ => lastAddr r

theorem entry_zero (r : LTree PPointer PPointer T) : entry r 0 = r.addr := by cases r <;> rfl

theorem entry_of_ne_nil (nonempty : r ≠ .nil) (s : Addr) : entry r s = r.addr := by
  cases r with
  | nil => exact absurd rfl nonempty
  | node l q r => rfl

theorem threaded_of_linked [NodeExt X T] {p : Addr} (linked : Linked h p t) : Threaded h t 0 := by
  induction t generalizing p with
  | nil => trivial
  | node l q r ihl ihr =>
      obtain ⟨cell, left, right⟩ := linked
      exact ⟨⟨_, by rw [cell, entry_zero]; rfl⟩, ihl left, ihr right⟩

theorem Threaded.frame (threaded : Threaded h t s) (same : ∀ a ∈ t.addrs, h'.cell a = h.cell a) :
    Threaded h' t s := by
  induction t generalizing s with
  | nil => trivial
  | node l q r ihl ihr =>
      obtain ⟨⟨x, cell⟩, left, right⟩ := threaded
      refine ⟨⟨x, ?_⟩, ihl left ?_, ihr right ?_⟩
      · rw [same q.addr (by simp), cell]
      · exact fun a member => same a (by simp [member])
      · exact fun a member => same a (by simp [member])

theorem lastAddr_mem (nonempty : t ≠ .nil) : lastAddr t ∈ t.addrs := by
  induction t with
  | nil => exact absurd rfl nonempty
  | node l q r _ ihr =>
      cases r with
      | nil => simp [lastAddr]
      | node rl rq rr =>
          have inRight := ihr (by simp)
          rw [LTree.addrs_node, List.mem_append, List.mem_cons]
          exact .inr (.inr inRight)

/-- The link that holds the continuation. -/
theorem Threaded.last (threaded : Threaded h t s) (nonempty : t ≠ .nil) :
    ∃ n, h.cell (lastAddr t) = some n ∧ n.right = s := by
  induction t with
  | nil => exact absurd rfl nonempty
  | node l q r _ ihr =>
      obtain ⟨⟨x, cell⟩, -, right⟩ := threaded
      cases r with
      | nil => exact ⟨_, cell, rfl⟩
      | node rl rq rr => exact ihr right (by simp)

/-- Writing the link that holds the continuation. -/
theorem Threaded.thread (threaded : Threaded h t s) (distinct : t.addrs.Nodup) (s' : Addr) :
    Threaded (h.adjust (lastAddr t) fun n => { n with right := s' }) t s' := by
  induction t with
  | nil => trivial
  | node l q r _ ihr =>
      obtain ⟨⟨x, cell⟩, left, right⟩ := threaded
      obtain ⟨qNotL, qNotR, apart, -, rDistinct⟩ :=
        (@LTree.nodup_branch _ _ _ .left q l r).mp distinct
      cases r with
      | nil =>
          refine ⟨⟨x, ?_⟩, left.frame ?_, trivial⟩
          · simp [lastAddr, cell, entry]
          · intro a member
            exact Heap.cell_adjust_ne _ (ne_of_mem_of_not_mem member qNotL) _
      | node rl rq rr =>
          have lastIn : lastAddr (.node rl rq rr) ∈ (LTree.node rl rq rr).addrs := lastAddr_mem (by simp)
          refine ⟨⟨x, ?_⟩, left.frame ?_, ihr right rDistinct⟩
          · rw [lastAddr, Heap.cell_adjust_ne _ (ne_of_mem_of_not_mem lastIn qNotR).symm, cell]
            rfl
          · intro a member
            have different : a ≠ lastAddr (.node rl rq rr) := by
              rintro rfl
              exact apart _ member lastIn
            exact Heap.cell_adjust_ne _ different _

/-- The inner loop of a walk stops at the last node of a subtree. -/
theorem lastBefore_eq {st : TreeState X} {stop : Addr} {fuel : Nat} (threaded : Threaded st.heap t s)
    (nonempty : t ≠ .nil) (off : stop ∉ t.addrs) (nonnull : ∀ a ∈ t.addrs, a ≠ 0)
    (atEnd : s = 0 ∨ s = stop) (enough : t.size ≤ fuel) :
    PTree.lastBefore st stop fuel t.addr = .ok (lastAddr t) := by
  induction t generalizing fuel with
  | nil => exact absurd rfl nonempty
  | node l q r _ ihr =>
      obtain ⟨⟨x, cell⟩, -, right⟩ := threaded
      rw [LTree.size_node] at enough
      obtain ⟨fuel, rfl⟩ : ∃ n, fuel = n + 1 := ⟨fuel - 1, by omega⟩
      have loaded : st.load q.addr = _ := Heap.load_of_cell cell
      cases r with
      | nil =>
          rw [PTree.lastBefore, LTree.addr_node, loaded, Exec.ok_bind, if_neg]
          · rfl
          · rcases atEnd with rfl | rfl <;> simp [entry]
      | node rl rq rr =>
          have inRight : rq.addr ∈ (LTree.node l q (.node rl rq rr)).addrs := by simp
          have goOn : rq.addr ≠ 0 ∧ rq.addr ≠ stop :=
            ⟨nonnull _ inRight, ne_of_mem_of_not_mem inRight off⟩
          rw [PTree.lastBefore, LTree.addr_node, loaded, Exec.ok_bind, if_pos (by exact goOn)]
          exact ihr right (by simp) (fun member => off (by simp at member ⊢; tauto))
            (fun a member => nonnull a (by simp at member ⊢; tauto)) (by omega)

/-- Passes of the outer loop: a node with a left subtree is met twice. -/
def passes : LTree PPointer PPointer T → Nat
  | .nil => 0
  | .node l _ r =>
      match l with
      | .nil => passes r + 1
      | .node _ _ _ => passes r + 1 + passes l + 1

theorem passes_le (t : LTree PPointer PPointer T) : passes t ≤ 2 * t.size := by
  induction t with
  | nil => simp [passes]
  | node l q r ihl ihr =>
      cases l with
      | nil =>
          simp only [passes, LTree.size_node, LTree.size_nil]
          omega
      | node ll lq lr =>
          simp only [passes, LTree.size_node] at ihl ⊢
          omega

end Threads

namespace PTree

/-- Offer entries to the callback in turn. -/
def Walk.visitAll (traverse : PTraverseFunc) (entries : List (PPointer × PPointer)) (w : Walk) : Walk :=
  entries.foldl (fun w e => w.visit traverse e.1 e.2) w

section Walk

variable {traverse : PTraverseFunc} {w : Walk}

@[simp] theorem Walk.needStop_withCounter (c : PInt) : (w.withCounter c).needStop = w.needStop := rfl

@[simp] theorem Walk.modCounter_withCounter (c : PInt) : (w.withCounter c).modCounter = c := rfl

@[simp] theorem Walk.withCounter_withCounter (c c' : PInt) :
    (w.withCounter c).withCounter c' = w.withCounter c' := rfl

theorem Walk.withCounter_self : w.withCounter w.modCounter = w := rfl

@[simp] theorem Walk.modCounter_visit (key value : PPointer) :
    (w.visit traverse key value).modCounter = w.modCounter := by
  rw [visit]
  split <;> rfl

@[simp] theorem Walk.modCounter_visitAll (entries : List (PPointer × PPointer)) :
    (w.visitAll traverse entries).modCounter = w.modCounter := by
  induction entries generalizing w with
  | nil => rfl
  | cons e entries ih =>
      rw [visitAll, List.foldl_cons, ← visitAll, ih, modCounter_visit]

theorem Walk.visit_counter (c : PInt) (key value : PPointer) :
    (w.withCounter c).visit traverse key value = (w.visit traverse key value).withCounter c := by
  by_cases stop : w.needStop <;> simp [visit, withCounter, stop]

theorem Walk.visitAll_counter (c : PInt) (entries : List (PPointer × PPointer)) :
    (w.withCounter c).visitAll traverse entries = (w.visitAll traverse entries).withCounter c := by
  induction entries generalizing w with
  | nil => rfl
  | cons e entries ih =>
      simp only [visitAll, List.foldl_cons, visit_counter]
      exact ih

theorem Walk.visitAll_append (first second : List (PPointer × PPointer)) :
    w.visitAll traverse (first ++ second) = (w.visitAll traverse first).visitAll traverse second :=
  List.foldl_append

/-- Nothing is visited once the callback has asked to stop. -/
theorem Walk.visitAll_stopped (entries : List (PPointer × PPointer)) (stop : w.needStop = true) :
    w.visitAll traverse entries = w := by
  induction entries with
  | nil => rfl
  | cons e entries ih =>
      have kept : w.visit traverse e.1 e.2 = w := by rw [visit, if_pos stop]
      rw [visitAll, List.foldl_cons, kept]
      exact ih

end Walk

variable {X T : Type} {traverse : PTraverseFunc} {fuel : Nat}

/-- The state with the last link of a subtree set. -/
def threadTo (st : TreeState X) (l : LTree PPointer PPointer T) (s : Addr) : TreeState X :=
  { st with heap := st.heap.adjust (lastAddr l) fun m => { m with right := s } }

section Meetings

variable {st : TreeState X} {l : LTree PPointer PPointer T} {q : Label PPointer PPointer T}
variable {x : X} {right : Addr} {w : Walk} {n : Nat}

theorem cell_threadTo {a s : Addr} (off : a ∉ l.addrs) (nonempty : l ≠ .nil) :
    (threadTo st l s).heap.cell a = st.heap.cell a :=
  Heap.cell_adjust_ne _ (ne_of_mem_of_not_mem (lastAddr_mem nonempty) off).symm _

/-- Cutting the thread brings back the state before it was set. -/
theorem cut_threadTo (threaded : Threaded st.heap l 0) (nonempty : l ≠ .nil) (s : Addr) :
    threadTo (threadTo st l s) l 0 = st := by
  obtain ⟨m, last, null⟩ := threaded.last nonempty
  have fixed : ({ { m with right := s } with right := 0 } : Node PPointer PPointer X) = m := by
    rw [← null]
  rw [threadTo, threadTo, Heap.adjust_adjust, Heap.adjust_eq_self last fixed]

/-- The walk meets a node before its left subtree. -/
theorem walkLoop_enter (cell : st.heap.cell q.addr = some ⟨l.addr, right, q.key, q.value, x⟩)
    (qNonnull : q.addr ≠ 0) (nonempty : l ≠ .nil) (threaded : Threaded st.heap l 0)
    (off : q.addr ∉ l.addrs) (nonnull : ∀ a ∈ l.addrs, a ≠ 0) (enough : l.size ≤ fuel) :
    walkLoop traverse fuel (n + 1) q.addr w st =
      walkLoop traverse fuel n l.addr (w.withCounter (w.modCounter + 1))
        (threadTo st l q.addr) := by
  have loaded : st.load q.addr = _ := Heap.load_of_cell cell
  have lNonnull : l.addr ≠ 0 := nonnull _ (LTree.addr_mem_of_ne_nil nonempty)
  have found := lastBefore_eq threaded nonempty off nonnull (.inl rfl) enough
  obtain ⟨m, last, null⟩ := threaded.last nonempty
  have loadedLast : st.load (lastAddr l) = .ok m := Heap.load_of_cell last
  have modified := TreeState.modify_of_cell last fun m => { m with right := q.addr }
  simp only [walkLoop, qNonnull, if_false, loaded, Exec.ok_bind, lNonnull, found, loadedLast, null,
    if_true, modified]
  rfl

/-- The walk meets a node after its left subtree. -/
theorem walkLoop_leave (cell : st.heap.cell q.addr = some ⟨l.addr, right, q.key, q.value, x⟩)
    (qNonnull : q.addr ≠ 0) (nonempty : l ≠ .nil) (threaded : Threaded st.heap l 0)
    (distinct : l.addrs.Nodup) (off : q.addr ∉ l.addrs) (nonnull : ∀ a ∈ l.addrs, a ≠ 0)
    (enough : l.size ≤ fuel) :
    walkLoop traverse fuel (n + 1) q.addr w (threadTo st l q.addr) =
      if (w.visit traverse q.key q.value).needStop ∧ w.modCounter - 1 = 0 then
        .ok ((w.visit traverse q.key q.value).withCounter (w.modCounter - 1), st)
      else
        walkLoop traverse fuel n right
          ((w.visit traverse q.key q.value).withCounter (w.modCounter - 1)) st := by
  have lNonnull : l.addr ≠ 0 := nonnull _ (LTree.addr_mem_of_ne_nil nonempty)
  have loaded : (threadTo st l q.addr).load q.addr = _ :=
    Heap.load_of_cell ((cell_threadTo off nonempty).trans cell)
  have threaded' : Threaded (threadTo st l q.addr).heap l q.addr := threaded.thread distinct q.addr
  have found := lastBefore_eq threaded' nonempty off nonnull (.inr rfl) enough
  obtain ⟨m, last, isThread⟩ := threaded'.last nonempty
  have loadedLast : (threadTo st l q.addr).load (lastAddr l) = .ok m := Heap.load_of_cell last
  have modified : (threadTo st l q.addr).modify (lastAddr l) (fun m => { m with right := 0 }) =
      .ok st := by
    rw [TreeState.modify_of_cell last]
    exact congrArg Except.ok (cut_threadTo threaded nonempty q.addr)
  simp only [walkLoop, qNonnull, if_false, loaded, Exec.ok_bind, lNonnull, found, loadedLast,
    isThread, modified, Walk.modCounter_visit, Walk.needStop_withCounter, Walk.modCounter_withCounter,
    Exec.pure_eq_ok]

end Meetings

/-- From the root of a subtree the walk gets to its continuation, with every link as it
    was, or it stops on the way, and then no thread is left anywhere. -/
theorem walkLoop_subtree (traverse : PTraverseFunc) (fuel : Nat) {t : LTree PPointer PPointer T} {st : TreeState X} {s : Addr} {w : Walk} {n : Nat}
    (threaded : Threaded st.heap t s) (distinct : t.addrs.Nodup) (nonnull : ∀ a ∈ t.addrs, a ≠ 0)
    (small : w.modCounter.toNat + t.size < 2 ^ 32) (enough : t.size ≤ fuel) :
    walkLoop traverse fuel (n + passes t) (entry t s) w st =
        walkLoop traverse fuel n s (w.visitAll traverse t.entries) st ∨
      (walkLoop traverse fuel (n + passes t) (entry t s) w st =
          .ok (w.visitAll traverse t.entries, st) ∧ w.modCounter = 0) := by
  induction t generalizing st s w n with
  | nil => exact .inl rfl
  | node l q r ihl ihr =>
      obtain ⟨⟨x, cell⟩, left, right⟩ := threaded
      obtain ⟨qNotL, qNotR, apart, lDistinct, rDistinct⟩ :=
        (@LTree.nodup_branch _ _ _ .left q l r).mp distinct
      rw [LTree.size_node] at small enough
      have qNonnull : q.addr ≠ 0 := nonnull _ (by simp)
      have rNonnull : ∀ a ∈ r.addrs, a ≠ 0 := fun a member => nonnull a (by simp [member])
      have loaded : st.load q.addr = _ := Heap.load_of_cell cell
      have entries : w.visitAll traverse (LTree.node l q r).entries =
          ((w.visitAll traverse l.entries).visit traverse q.key q.value).visitAll traverse r.entries := by
        rw [LTree.entries_node, Walk.visitAll_append]
        rfl
      by_cases empty : l = .nil
      · subst empty
        have step : walkLoop traverse fuel (n + passes (.node .nil q r)) (entry (.node .nil q r) s) w st =
            walkLoop traverse fuel (n + passes r) (entry r s) (w.visit traverse q.key q.value) st := by
          rw [passes, ← Nat.add_assoc, walkLoop, entry, if_neg qNonnull, loaded]
          rfl
        rw [step, entries]
        have tail := ihr (n := n) (w := w.visit traverse q.key q.value) right rDistinct rNonnull
          (by rw [Walk.modCounter_visit]; omega) (by omega)
        rwa [Walk.modCounter_visit] at tail
      · have lNonnull : ∀ a ∈ l.addrs, a ≠ 0 := fun a member => nonnull a (by simp [member])
        have counted : n + passes (.node l q r) = n + passes r + 1 + passes l + 1 := by
          cases l with
          | nil => exact absurd rfl empty
          | node ll lq lr =>
              simp only [passes]
              omega
        have threaded' : Threaded (threadTo st l q.addr).heap l q.addr := left.thread lDistinct q.addr
        have succ : (w.modCounter + 1).toNat = w.modCounter.toNat + 1 := by
          rw [BitVec.toNat_add]
          exact Nat.mod_eq_of_lt (by simp; omega)
        have inside := ihl (n := n + passes r + 1) (w := w.withCounter (w.modCounter + 1))
          threaded' lDistinct lNonnull (by rw [Walk.modCounter_withCounter, succ]; omega) (by omega)
        have live : w.modCounter + 1 ≠ 0 := by
          intro wrapped
          have null := congrArg BitVec.toNat wrapped
          rw [succ] at null
          simp at null
        rw [counted, show entry (.node l q r) s = q.addr from rfl,
          walkLoop_enter cell qNonnull empty left qNotL lNonnull (by omega),
          ← entry_of_ne_nil empty q.addr]
        rcases inside with inside | ⟨-, stopped⟩
        · rw [inside, walkLoop_leave cell qNonnull empty left lDistinct qNotL lNonnull (by omega),
            Walk.visitAll_counter, Walk.visit_counter, entries]
          have back : w.modCounter + 1 - 1 = w.modCounter := BitVec.add_sub_cancel _ _
          have same : ((w.visitAll traverse l.entries).visit traverse q.key q.value).modCounter =
              w.modCounter := by simp
          generalize (w.visitAll traverse l.entries).visit traverse q.key q.value = w' at same ⊢
          have restored : w'.withCounter w.modCounter = w' := by rw [← same, Walk.withCounter_self]
          simp only [Walk.needStop_withCounter, Walk.modCounter_withCounter,
            Walk.withCounter_withCounter, back, restored]
          by_cases stop : w'.needStop = true ∧ w.modCounter = 0
          · rw [if_pos stop, Walk.visitAll_stopped _ stop.1]
            exact .inr ⟨rfl, stop.2⟩
          · rw [if_neg stop, ← same]
            exact ihr right rDistinct rNonnull (by rw [same]; omega) (by omega)
        · exact absurd stopped live

/-- The calls of a callback that is offered entries until it answers `TRUE`. -/
def visitedFrom (traverse : PTraverseFunc) (calls : List (PPointer × PPointer)) :
    List (PPointer × PPointer) → List (PPointer × PPointer)
  | [] => calls
  | e :: entries =>
      if traverse (calls ++ [e]) then calls ++ [e] else visitedFrom traverse (calls ++ [e]) entries

theorem calls_visitAll (c : PInt) (calls entries : List (PPointer × PPointer)) :
    (Walk.visitAll traverse entries ⟨c, false, calls⟩).calls = visitedFrom traverse calls entries := by
  induction entries generalizing calls with
  | nil => rfl
  | cons e entries ih =>
      have head : Walk.visit traverse e.1 e.2 ⟨c, false, calls⟩ =
          ⟨c, traverse (calls ++ [e]), calls ++ [e]⟩ := rfl
      rw [Walk.visitAll, List.foldl_cons, ← Walk.visitAll, head, visitedFrom]
      cases stop : traverse (calls ++ [e]) with
      | true => rw [Walk.visitAll_stopped _ rfl, if_pos rfl]
      | false => rw [ih, if_neg Bool.false_ne_true]

/-- `ztree_foreach` offers the entries in order and leaves the tree as it was. -/
theorem ztreeForeach_eq [NodeExt X T] {tree : PTree X} {t : LTree PPointer PPointer T}
    (holds : tree.nodes.Holds t) (small : t.size < 2 ^ 32) (enough : 2 * t.size < fuel) :
    tree.ztreeForeach fuel traverse = .ok (visitedFrom traverse [] t.entries, tree) := by
  have threaded := threaded_of_linked (Support.Holds.linked holds)
  have few := passes_le t
  obtain ⟨n, rfl⟩ : ∃ n, fuel = n + 1 + passes t := ⟨fuel - 1 - passes t, by omega⟩
  have rooted : tree.nodes.root = entry t 0 := by
    rw [entry_zero]
    exact Support.Holds.root_eq holds
  have walked := walkLoop_subtree traverse (n + 1 + passes t) (n := n + 1)
    (w := ⟨0, false, []⟩) threaded
    (Support.Holds.distinct holds) (fun a member => (Support.Holds.linked holds).nonnull member)
    (by simpa using small) (by omega)
  have finished : walkLoop traverse (n + 1 + passes t) (n + 1 + passes t) tree.nodes.root
      ⟨0, false, []⟩ tree.nodes = .ok (Walk.visitAll traverse t.entries ⟨0, false, []⟩, tree.nodes) := by
    rw [rooted]
    rcases walked with onward | ⟨stopped, -⟩
    · rw [onward, walkLoop, if_pos rfl]
      rfl
    · exact stopped
  rw [ztreeForeach, finished, Exec.ok_bind, ← calls_visitAll 0]
  rfl

section Clear

/-- The calls that clearing a tree makes, node by node. -/
def clearEvents (cb : Callbacks) (t : LTree PPointer PPointer T) : List Event :=
  t.labels.flatMap fun q => cb.destroy q.key q.value ++ [.nodeFree q.addr]

/-- The nodes of `t` are gone, and nothing else has changed. -/
structure Cleared (tree : PTree X) (t : LTree PPointer PPointer T) (tree' : PTree X) : Prop where
  nodeFuncs : tree'.nodeFuncs = tree.nodeFuncs
  cb : tree'.cb = tree.cb
  trace : tree'.nodes.trace = tree.nodes.trace ++ clearEvents tree.cb t
  nnodes : tree'.nnodes = tree.nnodes - BitVec.ofNat 32 t.size
  freed : ∀ a ∈ t.addrs, tree'.nodes.heap.cell a = none
  kept : ∀ a, a ∉ t.addrs → tree'.nodes.heap.cell a = tree.nodes.heap.cell a

/-- The tree without one node. -/
def dropNode (tree : PTree X) (q : Label PPointer PPointer T) : PTree X :=
  { tree with
    nodes := ⟨tree.nodes.heap.erase q.addr, tree.nodes.root,
      tree.nodes.trace ++ tree.cb.destroy q.key q.value ++ [.nodeFree q.addr]⟩
    nnodes := tree.nnodes - 1 }

variable {tree : PTree X} {l : LTree PPointer PPointer T} {q : Label PPointer PPointer T} {x : X}
variable {right : Addr} {n : Nat}

theorem clearLoop_drop (cell : tree.nodes.heap.cell q.addr = some ⟨0, right, q.key, q.value, x⟩)
    (nonnull : q.addr ≠ 0) :
    clearLoop fuel (n + 1) q.addr tree = clearLoop fuel n right (tree.dropNode q) := by
  have loaded : tree.nodes.load q.addr = _ := Heap.load_of_cell cell
  have cell' : (tree.nodes.destroyPair tree.cb q.key q.value).heap.cell q.addr = _ := cell
  simp only [clearLoop, nonnull, if_false, loaded, Exec.ok_bind, if_true, TreeState.zfree,
    Heap.free_of_cell cell', Exec.pure_eq_ok]
  rfl

/-- The tree with the left subtree of `q` in front of it. -/
def turnLeft (tree : PTree X) (l : LTree PPointer PPointer T) (q : Label PPointer PPointer T) : PTree X :=
  { tree with nodes := { tree.nodes with
      heap := (threadTo tree.nodes l q.addr).heap.adjust q.addr fun m => { m with left := 0 } } }

theorem clearLoop_turn (cell : tree.nodes.heap.cell q.addr = some ⟨l.addr, right, q.key, q.value, x⟩)
    (qNonnull : q.addr ≠ 0) (nonempty : l ≠ .nil) (threaded : Threaded tree.nodes.heap l 0)
    (off : q.addr ∉ l.addrs) (nonnull : ∀ a ∈ l.addrs, a ≠ 0) (enough : l.size ≤ fuel) :
    clearLoop fuel (n + 1) q.addr tree = clearLoop fuel n l.addr (tree.turnLeft l q) := by
  have loaded : tree.nodes.load q.addr = _ := Heap.load_of_cell cell
  have lNonnull : l.addr ≠ 0 := nonnull _ (LTree.addr_mem_of_ne_nil nonempty)
  have found := lastBefore_eq threaded nonempty (fun member => nonnull 0 member rfl) nonnull (.inl rfl)
    enough
  obtain ⟨m, last, -⟩ := threaded.last nonempty
  have threadedTo : tree.nodes.modify (lastAddr l) (fun m => { m with right := q.addr }) =
      .ok (threadTo tree.nodes l q.addr) := TreeState.modify_of_cell last _
  have cut := TreeState.modify_of_cell ((cell_threadTo (s := q.addr) off nonempty).trans cell)
    fun m => { m with left := 0 }
  simp only [clearLoop, qNonnull, if_false, loaded, Exec.ok_bind, lNonnull, found, threadedTo, cut]
  rfl

theorem Cleared.drop {r : LTree PPointer PPointer T} {tree' : PTree X} (qNotR : q.addr ∉ r.addrs)
    (cleared : Cleared (tree.dropNode q) r tree') : Cleared tree (.node .nil q r) tree' where
  nodeFuncs := cleared.nodeFuncs
  cb := cleared.cb
  trace := by
    rw [cleared.trace]
    simp [clearEvents, dropNode]
  nnodes := by
    rw [cleared.nnodes]
    simp only [dropNode, LTree.size_node, LTree.size_nil, Nat.zero_add, BitVec.ofNat_add]
    rw [BitVec.sub_sub, BitVec.add_comm]
    rfl
  freed := by
    intro a member
    rw [LTree.addrs_node, LTree.addrs_nil, List.nil_append, List.mem_cons] at member
    rcases member with rfl | member
    · rw [cleared.kept _ qNotR]
      simp [dropNode]
    · exact cleared.freed a member
  kept := by
    intro a off
    rw [LTree.addrs_node, LTree.addrs_nil, List.nil_append, List.mem_cons, not_or] at off
    rw [cleared.kept a off.2]
    simp [dropNode, off.1]

theorem Cleared.turn {r : LTree PPointer PPointer T} {tree₁ tree₂ : PTree X} (nonempty : l ≠ .nil)
    (qNotL : q.addr ∉ l.addrs) (apart : ∀ a ∈ l.addrs, a ∉ r.addrs)
    (first : Cleared (tree.turnLeft l q) l tree₁) (second : Cleared tree₁ (.node .nil q r) tree₂) :
    Cleared tree (.node l q r) tree₂ where
  nodeFuncs := second.nodeFuncs.trans first.nodeFuncs
  cb := second.cb.trans first.cb
  trace := by
    rw [second.trace, first.trace, first.cb]
    simp [clearEvents, turnLeft]
  nnodes := by
    rw [second.nnodes, first.nnodes]
    simp only [turnLeft, LTree.size_node, LTree.size_nil, Nat.zero_add, BitVec.sub_sub,
      ← BitVec.ofNat_add, Nat.add_assoc]
  freed := by
    intro a member
    by_cases inLeft : a ∈ l.addrs
    · have notQ : a ≠ q.addr := ne_of_mem_of_not_mem inLeft qNotL
      rw [second.kept a (by simp [notQ, apart a inLeft]), first.freed a inLeft]
    · exact second.freed a (by simpa [inLeft] using member)
  kept := by
    intro a off
    simp only [LTree.addrs_node, List.mem_append, List.mem_cons, not_or] at off
    rw [second.kept a (by simp [off.2.1, off.2.2]), first.kept a off.1]
    exact (Heap.cell_adjust_ne _ off.2.1 _).trans (cell_threadTo off.1 nonempty)

theorem clearLoop_subtree (fuel : Nat) {t : LTree PPointer PPointer T} {s : Addr}
    (threaded : Threaded tree.nodes.heap t s) (distinct : t.addrs.Nodup)
    (nonnull : ∀ a ∈ t.addrs, a ≠ 0) (enough : t.size ≤ fuel) :
    ∃ tree', Cleared tree t tree' ∧
      ∀ n, clearLoop fuel (n + passes t) (entry t s) tree = clearLoop fuel n s tree' := by
  induction t generalizing tree s with
  | nil =>
      refine ⟨tree, ⟨rfl, rfl, ?_, ?_, by simp, fun _ _ => rfl⟩, fun _ => rfl⟩
      · simp [clearEvents]
      · simp
  | node l q r ihl ihr =>
      obtain ⟨⟨x, cell⟩, left, right⟩ := threaded
      obtain ⟨qNotL, qNotR, apart, lDistinct, rDistinct⟩ :=
        (@LTree.nodup_branch _ _ _ .left q l r).mp distinct
      rw [LTree.size_node] at enough
      have qNonnull : q.addr ≠ 0 := nonnull _ (by simp)
      -- Whatever happened before, once the left link of `q` is null the walk drops `q`
      -- and goes on with the right subtree.
      have rest : ∀ now : PTree X,
          now.nodes.heap.cell q.addr = some ⟨0, entry r s, q.key, q.value, x⟩ →
          (∀ a ∈ r.addrs, now.nodes.heap.cell a = tree.nodes.heap.cell a) →
          ∃ tree', Cleared now (.node .nil q r) tree' ∧
            ∀ n, clearLoop fuel (n + passes r + 1) q.addr now = clearLoop fuel n s tree' := by
        intro now cellNow same
        have threadedNow : Threaded (now.dropNode q).nodes.heap r s := by
          refine right.frame fun a member => ?_
          have different : a ≠ q.addr := ne_of_mem_of_not_mem member qNotR
          simp [dropNode, different, same a member]
        obtain ⟨tree', cleared, ran⟩ := ihr threadedNow rDistinct
          (fun a member => nonnull a (by simp [member])) (by omega)
        refine ⟨tree', cleared.drop qNotR, fun n => ?_⟩
        rw [clearLoop_drop cellNow qNonnull, ran]
      by_cases empty : l = .nil
      · subst empty
        obtain ⟨tree', cleared, ran⟩ := rest tree cell (fun _ _ => rfl)
        exact ⟨tree', cleared, fun n => ran n⟩
      · have lNonnull : ∀ a ∈ l.addrs, a ≠ 0 := fun a member => nonnull a (by simp [member])
        have threaded' : Threaded (tree.turnLeft l q).nodes.heap l q.addr := by
          refine (left.thread lDistinct q.addr).frame fun a member => ?_
          exact Heap.cell_adjust_ne _ (ne_of_mem_of_not_mem member qNotL) _
        obtain ⟨tree₁, first, ran₁⟩ := ihl threaded' lDistinct lNonnull (by omega)
        obtain ⟨tree₂, second, ran₂⟩ := rest tree₁
          (by
            rw [first.kept _ qNotL]
            simp [turnLeft, cell_threadTo qNotL empty, cell])
          (by
            intro a member
            have offL : a ∉ l.addrs := fun inLeft => apart a inLeft member
            have different : a ≠ q.addr := ne_of_mem_of_not_mem member qNotR
            rw [first.kept a offL]
            simp [turnLeft, different, cell_threadTo offL empty])
        refine ⟨tree₂, first.turn empty qNotL apart second, fun n => ?_⟩
        have counted : n + passes (.node l q r) = n + passes r + 1 + passes l + 1 := by
          cases l with
          | nil => exact absurd rfl empty
          | node ll lq lr =>
              simp only [passes]
              omega
        rw [counted, show entry (.node l q r) s = q.addr from rfl,
          clearLoop_turn cell qNonnull empty left qNotL lNonnull (by omega),
          ← entry_of_ne_nil empty q.addr, ran₁, ran₂]

/-- `ztree_clear` frees every node once, in order, and leaves an empty tree. -/
theorem ztreeClear_eq [NodeExt X T] {t : LTree PPointer PPointer T} (holds : tree.nodes.Holds t)
    (enough : 2 * t.size < fuel) :
    ∃ tree' : PTree X, tree.ztreeClear fuel = .ok tree' ∧ tree'.nodeFuncs = tree.nodeFuncs ∧
      tree'.cb = tree.cb ∧ tree'.nodes.Holds (.nil : LTree PPointer PPointer T) ∧
      tree'.nodes.trace = tree.nodes.trace ++ clearEvents tree.cb t ∧
      tree'.nnodes = tree.nnodes - BitVec.ofNat 32 t.size := by
  have few := passes_le t
  obtain ⟨n, rfl⟩ : ∃ n, fuel = n + 1 + passes t := ⟨fuel - 1 - passes t, by omega⟩
  obtain ⟨tree', cleared, ran⟩ := clearLoop_subtree (n + 1 + passes t)
    (threaded_of_linked (Support.Holds.linked holds))
    (Support.Holds.distinct holds) (fun a member => (Support.Holds.linked holds).nonnull member)
    (by omega)
  have rooted : tree.nodes.root = entry t 0 := by
    rw [entry_zero]
    exact Support.Holds.root_eq holds
  refine ⟨{ tree' with nodes := { tree'.nodes with root := 0 } }, ?_, cleared.nodeFuncs, cleared.cb, ?_,
    cleared.trace, cleared.nnodes⟩
  · rw [ztreeClear, rooted, ran, clearLoop, if_pos rfl]
    rfl
  · refine ⟨trivial, rfl, by simp, ?_, by simp⟩
    intro a _
    by_cases member : a ∈ t.addrs
    · exact cleared.freed a member
    · exact (cleared.kept a member).trans (Support.Holds.beside holds a member)

end Clear

end PTree

end Plibsys.Tree
