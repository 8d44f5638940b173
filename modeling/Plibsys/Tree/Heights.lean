import Plibsys.Tree.MapRefinement
import Mathlib.Data.Nat.Fib.Basic
import Mathlib.Data.Nat.Log

/-! # Heights of the balanced trees

A red-black tree whose ways down pass `n` black nodes has at least `2 ^ n - 1` nodes, an
AVL tree of height `h` at least `fib (h + 2) - 1`.  `ztree_lookup` compares one key on
each level, so both bound the comparisons of a search.
-/

namespace Plibsys.Tree

open Support

section Shapes

variable {K V T : Type}

/-- The nodes of a path and the height below it fit into the height of the tree. -/
theorem length_add_height_le (c : Path K V T) (t : LTree K V T) :
    c.length + height t ≤ height (c.plug t) := by
  induction c generalizing t with
  | nil => simp
  | cons f c ih =>
      have above := ih (f.fill t)
      rw [Frame.fill, height_branch] at above
      rw [List.length_cons, Path.plug_cons, Frame.fill]
      omega

theorem size_of_graded {t : LTree K V Color} {n : Nat} (graded : Graded t n) : 2 ^ n ≤ t.size + 1 := by
  induction t generalizing n with
  | nil =>
      rw [graded_nil.mp graded]
      simp
  | node l q r ihl ihr =>
      rw [LTree.size_node]
      cases tag : q.tag with
      | red =>
          obtain ⟨-, -, left, -⟩ := (graded_red (d := .left) tag).mp graded
          have below := ihl left
          omega
      | black =>
          obtain ⟨m, rfl, left, right⟩ := (graded_black (d := .left) tag).mp graded
          have belowLeft := ihl left
          have belowRight := ihr right
          rw [Nat.pow_succ]
          omega

/-- At least every second node of a way down is black. -/
theorem height_of_graded {t : LTree K V Color} {n : Nat} (graded : Graded t n) :
    height t ≤ 2 * n + if color t = .red then 1 else 0 := by
  induction t generalizing n with
  | nil => simp
  | node l q r ihl ihr =>
      rw [height, show color (.node l q r) = q.tag from rfl]
      cases tag : q.tag with
      | red =>
          obtain ⟨blackL, blackR, left, right⟩ := (graded_red (d := .left) tag).mp graded
          have belowLeft := ihl left
          have belowRight := ihr right
          simp only [blackL, blackR, reduceCtorEq, if_false] at belowLeft belowRight
          simp only [if_true]
          omega
      | black =>
          obtain ⟨m, rfl, left, right⟩ := (graded_black (d := .left) tag).mp graded
          have belowLeft := ihl left
          have belowRight := ihr right
          simp only [reduceCtorEq, if_false]
          split at belowLeft <;> split at belowRight <;> omega

theorem height_of_redBlack {t : LTree K V Color} (inv : RedBlack t) :
    height t ≤ 2 * Nat.log 2 (t.size + 1) := by
  obtain ⟨black, n, graded⟩ := inv
  have levels : n ≤ Nat.log 2 (t.size + 1) :=
    (Nat.le_log_iff_pow_le (by omega) (by omega)).mpr (size_of_graded graded)
  have bound := height_of_graded graded
  rw [black, if_neg (by simp)] at bound
  omega

theorem size_of_balanced {t : LTree K V Int} (balanced : Balanced t) :
    Nat.fib (height t + 2) ≤ t.size + 1 := by
  induction t with
  | nil => simp
  | node l q r ihl ihr =>
      obtain ⟨left, right, -, lowLeft, lowRight⟩ := balanced
      have belowLeft := ihl left
      have belowRight := ihr right
      rw [LTree.size_node, height]
      rcases Nat.le_total (height l) (height r) with le | le
      · have split : Nat.fib (height r + 1 + 2) = Nat.fib (height r + 1) + Nat.fib (height r + 2) :=
          Nat.fib_add_two
        have lower : Nat.fib (height r + 1) ≤ Nat.fib (height l + 2) := Nat.fib_mono (by omega)
        rw [Nat.max_eq_right le]
        omega
      · have split : Nat.fib (height l + 1 + 2) = Nat.fib (height l + 1) + Nat.fib (height l + 2) :=
          Nat.fib_add_two
        have lower : Nat.fib (height l + 1) ≤ Nat.fib (height r + 2) := Nat.fib_mono (by omega)
        rw [Nat.max_eq_left le]
        omega

end Shapes

namespace TreeState

variable {X : Type}

/-- `findNode`, with the keys it passes to the comparison. -/
def findNodeKeys (compare : PPointer → PPointer → Int) (key : PPointer) (st : TreeState X) :
    Nat → Addr → Exec (Addr × List PPointer)
  | 0, _ => .error .outOfFuel
  | fuel + 1, cur =>
      if cur = 0 then
        pure (0, [])
      else do
        let node ← st.load cur
        if compare key node.key < 0 then
          let (found, keys) ← st.findNodeKeys compare key fuel node.left
          pure (found, node.key :: keys)
        else if 0 < compare key node.key then
          let (found, keys) ← st.findNodeKeys compare key fuel node.right
          pure (found, node.key :: keys)
        else
          pure (cur, [node.key])

/-- Noting the keys does not change the search. -/
theorem findNodeKeys_fst (compare : PPointer → PPointer → Int) (key : PPointer) (st : TreeState X)
    (fuel : Nat) (cur : Addr) :
    (st.findNodeKeys compare key fuel cur).map Prod.fst = st.findNode compare key fuel cur := by
  induction fuel generalizing cur with
  | zero => rfl
  | succ fuel ih =>
      rw [findNodeKeys, findNode]
      by_cases null : cur = 0
      · rw [if_pos null, if_pos null]
        rfl
      · rw [if_neg null, if_neg null]
        cases st.load cur with
        | error e => rfl
        | ok node =>
            rw [Exec.ok_bind, Exec.ok_bind]
            split
            · rw [← ih]
              cases st.findNodeKeys compare key fuel node.left <;> rfl
            · split
              · rw [← ih]
                cases st.findNodeKeys compare key fuel node.right <;> rfl
              · rfl

variable {T : Type} [NodeExt X T] {st : TreeState X}
variable {rest : Addr → Option (Node PPointer PPointer X)}

/-- A search compares one key on each level. -/
theorem findNodeKeys_height {t : LTree PPointer PPointer T} {c : Path PPointer PPointer T}
    (compare : PPointer → PPointer → Int) (key : PPointer) {fuel : Nat}
    (holds : st.HoldsBeside rest (c.plug t)) (enough : t.size < fuel) :
    ∃ found keys, st.findNodeKeys compare key fuel t.addr = .ok (found, keys) ∧
      keys.length ≤ height t := by
  induction t generalizing c fuel with
  | nil =>
      obtain ⟨fuel, rfl⟩ : ∃ n, fuel = n + 1 := ⟨fuel - 1, by simp at enough; omega⟩
      exact ⟨0, [], rfl, Nat.le_refl 0⟩
  | node l q r ihl ihr =>
      obtain ⟨fuel, rfl⟩ : ∃ n, fuel = n + 1 := ⟨fuel - 1, by omega⟩
      have nonnull : q.addr ≠ 0 := Support.Holds.nonnull (d := .left) holds
      have loaded := load_focus (d := .left) holds
      rw [LTree.size_node] at enough
      simp only [findNodeKeys, LTree.addr_node, nonnull, if_false, Exec.ok_bind, loaded,
        Label.cell_key]
      split
      · obtain ⟨found, keys, ran, short⟩ :=
          ihl (c := ⟨.left, q, r⟩ :: c) holds (show l.size < fuel by omega)
        have went : st.findNodeKeys compare key fuel (q.cell (X := X) .left l.addr r.addr c.top).left =
            .ok (found, keys) := ran
        refine ⟨found, q.key :: keys, by rw [went]; rfl, ?_⟩
        rw [List.length_cons, height]
        omega
      · split
        · obtain ⟨found, keys, ran, short⟩ :=
            ihr (c := ⟨.right, q, l⟩ :: c) holds (show r.size < fuel by omega)
          have went : st.findNodeKeys compare key fuel (q.cell (X := X) .left l.addr r.addr c.top).right =
              .ok (found, keys) := ran
          refine ⟨found, q.key :: keys, by rw [went]; rfl, ?_⟩
          rw [List.length_cons, height]
          omega
        · exact ⟨q.addr, [q.key], rfl, by rw [height, List.length_singleton]; omega⟩

end TreeState

/-- A call of `ztree_insert` or `ztree_remove`. -/
def Op.Edits : Op → Prop
  | .insert _ _ _ => True
  | .remove _ => True
  | _ => False

namespace PTree

/-- `ztree_lookup`, with the keys it passes to `compare_func`. -/
def ztreeLookupKeys {X : Type} (fuel : Nat) (key : PPointer) (tree : PTree X) :
    Exec (PPointer × List PPointer) := do
  let (curNode, keys) ← tree.nodes.findNodeKeys tree.cb.compare key fuel tree.nodes.root
  if curNode = 0 then
    pure (0, keys)
  else
    let cur ← tree.nodes.load curNode
    pure (cur.value, keys)

/-- A lookup with the keys noted answers like the lookup itself. -/
theorem ztreeLookupKeys_eq {X : Type} {fuel : Nat} {key : PPointer} {tree : PTree X} {found : Addr}
    {keys : List PPointer}
    (ran : tree.nodes.findNodeKeys tree.cb.compare key fuel tree.nodes.root = .ok (found, keys)) :
    tree.ztreeLookupKeys fuel key = (tree.ztreeLookup fuel key).map fun value => (value, keys) := by
  have located := TreeState.findNodeKeys_fst tree.cb.compare key tree.nodes fuel tree.nodes.root
  rw [ran] at located
  rw [ztreeLookupKeys, ztreeLookup, ran, ← located]
  simp only [Except.map, Exec.ok_bind]
  by_cases null : found = 0
  · rw [if_pos null, if_pos null]
    rfl
  · rw [if_neg null, if_neg null]
    cases tree.nodes.load found <;> rfl

/-- Every lookup answers after at most `bound` comparisons. -/
def LookupsWithin {X : Type} (tree : PTree X) (fuel bound : Nat) : Prop :=
  ∀ key, ∃ value keys, tree.ztreeLookup fuel key = .ok value ∧
    tree.ztreeLookupKeys fuel key = .ok (value, keys) ∧ keys.length ≤ bound

variable {X T : Type} [NodeExt X T] {Inv : LTree PPointer PPointer T → Prop} {tree : PTree X}
variable {compare : PPointer → PPointer → Int} {m : List (PPointer × PPointer)} {fuel : Nat}

theorem lookupsWithin_height {t : LTree PPointer PPointer T} (represents : Represents Inv compare tree m)
    (holds : tree.nodes.Holds t) (entries : t.entries = m) (enough : m.length < fuel) :
    tree.LookupsWithin fuel (height t) := by
  intro key
  have answered := ztreeLookup_eq represents key enough
  rw [← entries, LTree.length_entries] at enough
  obtain ⟨found, keys, ran, short⟩ :=
    TreeState.findNodeKeys_height (c := []) tree.cb.compare key holds enough
  rw [← show tree.nodes.root = t.addr from Support.Holds.root_eq holds] at ran
  refine ⟨_, keys, answered, ?_, short⟩
  rw [ztreeLookupKeys_eq ran, answered]
  rfl

/-- Insertions and removals keep the tree a representation of some map. -/
theorem run_edits {ops : List Op} (edits : ∀ op ∈ ops, op.Edits)
    (represents : Represents Inv compare tree m) (enough : m.length + ops.length < fuel) :
    ∃ replies tree' m', tree.run fuel ops = .ok (replies, tree') ∧ Represents Inv compare tree' m' ∧
      m'.length ≤ m.length + ops.length := by
  induction ops generalizing tree m with
  | nil => exact ⟨[], tree, m, rfl, represents, Nat.le_refl _⟩
  | cons op ops ih =>
      rw [List.length_cons] at enough
      have stepped : ∃ reply tree₁ m₁, tree.step fuel op = .ok (reply, tree₁) ∧
          Represents Inv compare tree₁ m₁ ∧ m₁.length ≤ m.length + 1 := by
        cases op with
        | insert malloc key value =>
            obtain ⟨tree₁, result, m₁, ran, effect, -, represents₁⟩ :=
              ztreeInsert_effect represents malloc key value (show m.length + 1 < fuel by omega)
            obtain ⟨-, count⟩ := entries_insert represents.compare_eq effect
            refine ⟨.done, tree₁, m₁, by rw [step, ran]; rfl, represents₁, ?_⟩
            split at count <;> omega
        | remove key =>
            obtain ⟨tree₁, result, m₁, t, ran, -, effect, -, represents₁⟩ :=
              ztreeRemove_effect represents key (show m.length + 1 < fuel by omega)
            obtain ⟨-, count⟩ := entries_remove represents.compare_eq effect
            refine ⟨.removed result, tree₁, m₁, by rw [step, ran]; rfl, represents₁, ?_⟩
            split at count <;> omega
        | lookup key => exact (edits _ List.mem_cons_self).elim
        | clear => exact (edits _ List.mem_cons_self).elim
        | getNnodes => exact (edits _ List.mem_cons_self).elim
        | foreach traverse => exact (edits _ List.mem_cons_self).elim
      obtain ⟨reply, tree₁, m₁, called, represents₁, grows⟩ := stepped
      obtain ⟨replies, tree₂, m₂, ran, represents₂, bound⟩ :=
        ih (fun other inside => edits other (List.mem_cons_of_mem op inside)) represents₁
          (show m₁.length + ops.length < fuel by omega)
      refine ⟨reply :: replies, tree₂, m₂, ?_, represents₂, ?_⟩
      · rw [run, called]
        simp only [Exec.ok_bind, ran]
        rfl
      · rw [List.length_cons]
        omega

end PTree

/-- After any insertions and removals a red-black tree of `n` nodes has at most
    `2 * log₂ (n + 1)` nodes on a way down, an AVL tree of height `h` has at least
    `fib (h + 2) - 1` nodes, and no lookup compares more keys than that. -/
theorem heights_over_runs {compare : PPointer → PPointer → Int} (order : SignOrder compare)
    (keyDestroy valueDestroy : Bool) {ops : List Op} (edits : ∀ op ∈ ops, op.Edits) :
    (∀ tree, PTree.ztreeNewFull true .rb compare keyDestroy valueDestroy = some tree →
      ∃ N, ∀ fuel ≥ N, ∃ replies tree' t, tree.run fuel ops = .ok (replies, tree') ∧
        tree'.nodes.Holds (T := Color) t ∧
        (∀ c l q r, t = Path.plug c (.node l q r) → c.length + 1 ≤ 2 * Nat.log 2 (t.size + 1)) ∧
        tree'.LookupsWithin fuel (2 * Nat.log 2 (t.size + 1))) ∧
    (∀ tree, PTree.ztreeNewFull true .avl compare keyDestroy valueDestroy = some tree →
      ∃ N, ∀ fuel ≥ N, ∃ replies tree' t, tree.run fuel ops = .ok (replies, tree') ∧
        tree'.nodes.Holds (T := Int) t ∧ Nat.fib (height t + 2) ≤ t.size + 1 ∧
        tree'.LookupsWithin fuel (height t)) := by
  constructor
  · intro tree created
    refine ⟨ops.length + 1, fun fuel enough => ?_⟩
    obtain ⟨replies, tree', m, ran, represents, bound⟩ := PTree.run_edits edits
      (PTree.represents_new order created) (show 0 + ops.length < fuel by omega)
    rw [List.length_nil] at bound
    obtain ⟨t, holds, inv, entries⟩ :
        ∃ t : LTree PPointer PPointer Color, tree'.nodes.Holds t ∧ RedBlack t ∧ t.entries = m :=
      represents.nodes
    have low : height t ≤ 2 * Nat.log 2 (t.size + 1) := height_of_redBlack inv
    refine ⟨replies, tree', t, ran, holds, ?_, ?_⟩
    · rintro c l q r rfl
      have onPath := length_add_height_le c (.node l q r)
      rw [height] at onPath
      omega
    · intro key
      obtain ⟨value, keys, looked, noted, few⟩ :=
        PTree.lookupsWithin_height represents holds entries (show m.length < fuel by omega) key
      exact ⟨value, keys, looked, noted, few.trans low⟩
  · intro tree created
    refine ⟨ops.length + 1, fun fuel enough => ?_⟩
    obtain ⟨replies, tree', m, ran, represents, bound⟩ := PTree.run_edits edits
      (PTree.represents_new order created) (show 0 + ops.length < fuel by omega)
    rw [List.length_nil] at bound
    obtain ⟨t, holds, inv, entries⟩ :
        ∃ t : LTree PPointer PPointer Int, tree'.nodes.Holds t ∧ Balanced t ∧ t.entries = m :=
      represents.nodes
    exact ⟨replies, tree', t, ran, holds, size_of_balanced inv,
      PTree.lookupsWithin_height represents holds entries (by omega)⟩

theorem heights_over_runs_signed :
    let ops : List Op := [.insert (some .bump) 2 20, .insert (some .bump) 1 10, .insert (some .bump) 3 30,
      .insert (some .bump) 4 40, .remove 2]
    (∀ tree, PTree.ztreeNewFull true .rb signedCompare true true = some tree →
      ∃ N, ∀ fuel ≥ N, ∃ replies tree' t, tree.run fuel ops = .ok (replies, tree') ∧
        tree'.nodes.Holds (T := Color) t ∧
        (∀ c l q r, t = Path.plug c (.node l q r) → c.length + 1 ≤ 2 * Nat.log 2 (t.size + 1)) ∧
        tree'.LookupsWithin fuel (2 * Nat.log 2 (t.size + 1))) ∧
    (∀ tree, PTree.ztreeNewFull true .avl signedCompare true true = some tree →
      ∃ N, ∀ fuel ≥ N, ∃ replies tree' t, tree.run fuel ops = .ok (replies, tree') ∧
        tree'.nodes.Holds (T := Int) t ∧ Nat.fib (height t + 2) ≤ t.size + 1 ∧
        tree'.LookupsWithin fuel (height t)) := by
  intro ops
  have edits : ∀ op ∈ ops, op.Edits := by simp [ops, Op.Edits]
  exact heights_over_runs signedCompare_order true true edits

end Plibsys.Tree
