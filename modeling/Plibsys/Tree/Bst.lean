import Plibsys.Tree.Contract

/-! # Unbalanced binary search trees

`ptree-bst.c`.  Nodes have no parent link and no tag; a removal works through the
slot that leads to the node.
-/

namespace Plibsys.Tree

open Support

abbrev BstState := TreeState Unit

namespace BstState

open TreeState

/-- `ztree_bst_insert` -/
def ztreeBstInsert (fuel : Nat) (cb : Callbacks) (malloc : Option Allocator)
    (key value : PPointer) (st : BstState) : Exec (Bool × BstState) :=
  st.insertNode () (fun _ => ()) (fun _ _ st => pure st) fuel cb malloc key value

/-- `ztree_bst_remove`.  The slot and the node of the search loop move together,
    so the node is read back from the slot. -/
def ztreeBstRemove (fuel : Nat) (cb : Callbacks) (key : PPointer) (st : BstState) :
    Exec (Bool × BstState) := do
  let (nodePointer, _) ← st.findSlot cb.compare key fuel .root st.root
  let curNode ← st.readSlot nodePointer
  if curNode = 0 then
    pure (false, st)
  else
    let (nodePointer, curNode, st) ← st.takePredecessor fuel nodePointer curNode
    let cur ← st.load curNode
    let st ← st.writeSlot nodePointer (onlyChild cur)
    let st := st.destroyPair cb cur.key cur.value
    let st ← st.zfree curNode
    pure (true, st)

def funcs : NodeFuncs Unit := ⟨ztreeBstInsert, ztreeBstRemove⟩

/-- Without parent links, rewriting the slot is all it takes to splice a node out. -/
theorem writeSlot_splice {st : BstState} {rest : Addr → Option (Node PPointer PPointer Unit)}
    {c : Path PPointer PPointer Unit} {d : Side} {q : Label PPointer PPointer Unit}
    {child : LTree PPointer PPointer Unit}
    (holds : st.HoldsBeside rest (c.plug (.branch d q child .nil))) :
    ∃ st' : BstState, st.writeSlot (slotOf c) child.addr = .ok st' ∧
      st'.HoldsBeside (detached rest q.addr (q.cell d child.addr 0 c.top)) (c.plug child) ∧
      st'.trace = st.trace := by
  refine ⟨_, writeSlot_path holds (fun _ _ => rfl) st.trace child.addr,
    splice (setLink st.heap c child.addr) holds ?_ ?_ ?_ st.trace, rfl⟩
  · intro nonempty
    rw [cell_setLink_ne]
    · exact Option.map_id'.symm
    · exact Support.Holds.ne_top holds (by simp [LTree.addr_mem_of_ne_nil nonempty])
  · rintro f above rfl
    exact cell_setLink_top (Support.Holds.path holds)
  · exact fun b _ notTop => cell_setLink_ne notTop

theorem correct : funcs.Correct (fun _ : LTree PPointer PPointer Unit => True) where
  start := trivial
  insert := by
    intro cb st t fuel malloc key value order holds ordered inv enough
    have balances : BalancesInsert (fun _ _ (st : BstState) => pure st)
        (fun _ : LTree PPointer PPointer Unit => True) () := by
      intro st c a key value fuel holds _ _
      exact ⟨st, _, rfl, holds, trivial, rfl, rfl⟩
    exact insertNode_effect @balances (fun _ => rfl) (fun _ _ => trivial) order holds
      ordered inv enough
  remove := by
    intro cb st t fuel key order holds ordered inv enough
    obtain ⟨c, s, parent, located, found, -⟩ := 
      findSlot_located cb.compare key holds (show t.size < fuel by omega)
    have sizes := congrArg LTree.size located.plugged
    rw [Path.size_plug] at sizes
    have holdsFound : st.Holds (c.plug s) := located.plugged ▸ holds
    have read := readSlot_path holdsFound
    rcases located.stop with rfl | ⟨l, q, r, rfl, equal⟩
    · refine ⟨false, st, t, ?_, holds, trivial, ?_⟩
      · simp [funcs, ztreeBstRemove, found, read]
      · rw [← located.plugged, Path.entries_plug]
        exact .absent rfl (located.toward.between order (located.plugged ▸ ordered))
    · simp only [LTree.size_node] at sizes
      obtain ⟨slot, c', l', q', r', st₁, taken, follows, doomed, holds₁, trace₁⟩ :=
        takePredecessor_doomed (slotOf c) holdsFound (show l.size < fuel by omega)
      obtain rfl := follows rfl
      obtain ⟨d, child, branched, childEntries, childAddr⟩ :=
        oneSided_branch (X := Unit) (q := q') doomed.oneSided
      have loaded := load_focus (d := .left) holds₁
      rw [branched] at holds₁
      obtain ⟨st₂, written, holds₂, trace₂⟩ := writeSlot_splice holds₁
      obtain ⟨st₃, retired, holds₃, trace₃⟩ := retire cb q'.key q'.value holds₂
      refine ⟨true, st₃, _, ?_, holds₃, trivial, ?_⟩
      · have nonnull : q.addr ≠ 0 := Support.Holds.nonnull (d := .left) holdsFound
        simp only [funcs, ztreeBstRemove, found, read, Exec.ok_bind, LTree.addr_node, nonnull,
          if_false, taken, loaded, childAddr, written, Label.cell_key, Label.cell_value, retired,
          Exec.pure_eq_ok]
      · rw [trace₃, trace₂, trace₁]
        exact removed_effect q'.addr order ordered located equal doomed (by
          rw [Path.entries_plug, childEntries])

end BstState

end Plibsys.Tree
