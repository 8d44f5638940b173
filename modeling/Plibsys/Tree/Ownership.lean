import Plibsys.Tree.MapRefinement
import Mathlib.Data.List.Perm.Basic
import Mathlib.Data.List.Count

/-! # Who owns keys and values

With both destroy functions given, a tree owns what is inserted: every key and every
value is either stored in a node or has been passed to its destroy function, and never
both.  A removal that finds a node with two children breaks this: the node takes over
the pair of its predecessor, and then that pair is destroyed instead of its own.
-/

namespace Plibsys.Tree

open Support

/-- The keys passed to `key_destroy_func`. -/
def destroyedKeys (trace : List Event) : List PPointer :=
  trace.filterMap fun
    | .keyDestroy key => some key
    | _ => none

/-- The values passed to `value_destroy_func`. -/
def destroyedValues (trace : List Event) : List PPointer :=
  trace.filterMap fun
    | .valueDestroy value => some value
    | _ => none

def insertedKeys (ops : List Op) : List PPointer :=
  ops.filterMap fun
    | .insert _ key _ => some key
    | _ => none

def insertedValues (ops : List Op) : List PPointer :=
  ops.filterMap fun
    | .insert _ _ value => some value
    | _ => none

/-- A call that hands over or gives up ownership; allocations succeed. -/
def Op.Owning : Op → Prop
  | .insert malloc _ _ => malloc.isSome
  | .remove _ => True
  | .clear => True
  | _ => False

namespace PTree

/-- Keys and values are accounted for: stored once or destroyed once. -/
def Owned {X T : Type} [NodeExt X T] (ops : List Op) (tree : PTree X) : Prop :=
  ∃ t : LTree PPointer PPointer T, tree.nodes.Holds t ∧
    (insertedKeys ops).Perm (t.entries.map Prod.fst ++ destroyedKeys tree.nodes.trace) ∧
    (insertedValues ops).Perm (t.entries.map Prod.snd ++ destroyedValues tree.nodes.trace) ∧
    (t.entries.map Prod.fst ++ destroyedKeys tree.nodes.trace).Nodup ∧
    (t.entries.map Prod.snd ++ destroyedValues tree.nodes.trace).Nodup

/-- The pair that a removal destroys has a key equal to `key`. -/
def DestroysOwnPair {X T : Type} [NodeExt X T] (key : PPointer) (tree : PTree X) (present : Bool)
    (tree' : PTree X) : Prop :=
  if present then
    ∃ (t : LTree PPointer PPointer T) (k v : PPointer) (node : Addr), tree.nodes.Holds t ∧
      (k, v) ∈ t.entries ∧ tree.cb.compare key k = 0 ∧
      tree'.nodes.trace = tree.nodes.trace ++ [.keyDestroy k, .valueDestroy v, .nodeFree node]
  else
    tree'.nodes.trace = tree.nodes.trace

/-- The node that a removal of `key` finds has two children. -/
def hitsInner {X : Type} (fuel : Nat) (key : PPointer) (tree : PTree X) : Bool :=
  match tree.nodes.findNode tree.cb.compare key fuel tree.nodes.root with
  | .ok node =>
      match tree.nodes.heap.cell node with
      | some n => n.left ≠ 0 && n.right ≠ 0
      | none => false
  | .error _ => false

/-- The call does not remove at a node with two children. -/
def spares {X : Type} (fuel : Nat) (op : Op) (tree : PTree X) : Bool :=
  match op with
  | .remove key => !tree.hitsInner fuel key
  | _ => true

/-- No removal of the run finds a node with two children. -/
def sparing {X : Type} (fuel : Nat) : List Op → PTree X → Bool
  | [], _ => true
  | op :: ops, tree =>
      tree.spares fuel op &&
        match tree.step fuel op with
        | .ok (_, tree') => tree'.sparing fuel ops
        | .error _ => true

variable {X T : Type} [NodeExt X T] {tree : PTree X} {t : LTree PPointer PPointer T} {fuel : Nat}
variable {key value : PPointer} {ops : List Op}

theorem hitsInner_of_endsInner (holds : tree.nodes.Holds t) (enough : t.size < fuel)
    (inner : EndsInner tree.cb.compare key t) : tree.hitsInner fuel key = true := by
  obtain ⟨l, q, r, reached, left, right⟩ := inner
  have found := TreeState.findNode_descend (c := []) tree.cb.compare key holds enough
  rw [← show tree.nodes.root = t.addr from Support.Holds.root_eq holds, reached] at found
  have located := t.located_descend tree.cb.compare key
  rw [reached] at located
  generalize (t.descend tree.cb.compare key []).1 = c at located
  have holdsFound : tree.nodes.Holds (c.plug (.node l q r)) := located.plugged ▸ holds
  have cell := Support.Holds.cell (d := .left) holdsFound
  have leftLive := TreeState.nonnull_of_ne_nil (c := ⟨.left, q, r⟩ :: c) holdsFound left
  have rightLive := TreeState.nonnull_of_ne_nil (c := ⟨.right, q, l⟩ :: c) holdsFound right
  rw [hitsInner, found]
  simp [LTree.addr_node, cell, Label.cell, leftLive, rightLive]

/-- The entries of a state do not depend on the tree through which it is seen. -/
theorem entries_unique {h : Heap (Node PPointer PPointer X)} {t' : LTree PPointer PPointer T} {p p' : Addr}
    (linked : Linked h p t) (linked' : Linked h p' t') (same : t.addr = t'.addr) :
    t.entries = t'.entries := by
  induction t generalizing t' p p' with
  | nil =>
      cases t' with
      | nil => rfl
      | node l' q' r' => exact absurd same.symm (linked'.nonnull (by simp))
  | node l q r ihl ihr =>
      cases t' with
      | nil => exact absurd same (linked.nonnull (by simp))
      | node l' q' r' =>
          obtain ⟨cell, left, right⟩ := linked
          obtain ⟨cell', left', right'⟩ := linked'
          rw [LTree.addr_node, LTree.addr_node] at same
          rw [same, cell'] at cell
          simp only [Label.cell, Option.some.injEq, Node.mk.injEq] at cell
          obtain ⟨leftEq, rightEq, keyEq, valueEq, -⟩ := cell
          rw [LTree.entries_node, LTree.entries_node, ihl left left' leftEq.symm,
            ihr right right' rightEq.symm, Label.entry, Label.entry, keyEq, valueEq]

/-- The books of the tree, before freshness is used. -/
structure Accounted (ops : List Op) (m : List (PPointer × PPointer)) (trace : List Event) : Prop where
  keys : (insertedKeys ops).Perm (m.map Prod.fst ++ destroyedKeys trace)
  values : (insertedValues ops).Perm (m.map Prod.snd ++ destroyedValues trace)

section Accounts

variable {cb : Callbacks} {m m' : List (PPointer × PPointer)} {trace trace' : List Event} {result : Bool}

/-- Both destroy functions are given. -/
structure Notifies (cb : Callbacks) : Prop where
  keys : cb.keyDestroy = true
  values : cb.valueDestroy = true

theorem destroy_eq (notifies : Notifies cb) (k v : PPointer) :
    cb.destroy k v = [.keyDestroy k, .valueDestroy v] := by
  simp [Callbacks.destroy, notifies.keys, notifies.values]

theorem accounted_insert {malloc : Option Allocator} (notifies : Notifies cb)
    (effect : InsertEffect cb key value true m trace result m' trace') (accounted : Accounted ops m trace) :
    Accounted (ops ++ [.insert malloc key value]) m' trace' := by
  obtain ⟨keys, values⟩ := accounted
  rw [List.perm_iff_count] at keys values
  cases effect with
  | replaced split _ _ =>
      subst split
      constructor <;> rw [List.perm_iff_count] <;> intro a
      · have before := keys a
        simp [insertedKeys, destroyedKeys, destroy_eq notifies, List.count_cons] at before ⊢
        omega
      · have before := values a
        simp [insertedValues, destroyedValues, destroy_eq notifies, List.count_cons] at before ⊢
        omega
  | added split _ _ =>
      subst split
      constructor <;> rw [List.perm_iff_count] <;> intro a
      · have before := keys a
        simp [insertedKeys, destroyedKeys, List.count_cons] at before ⊢
        omega
      · have before := values a
        simp [insertedValues, destroyedValues, List.count_cons] at before ⊢
        omega
  | failed _ _ failure => cases failure

theorem accounted_remove {inner : Prop} (notifies : Notifies cb)
    (effect : RemoveEffect cb key inner m trace result m' trace') (outer : ¬ inner)
    (accounted : Accounted ops m trace) : Accounted (ops ++ [.remove key]) m' trace' := by
  obtain ⟨keys, values⟩ := accounted
  cases effect with
  | absent split _ =>
      constructor
      · simpa [insertedKeys] using keys
      · simpa [insertedValues] using values
  | removed split _ _ own =>
      obtain ⟨rfl, rfl⟩ := own outer
      subst split
      rw [List.perm_iff_count] at keys values
      constructor <;> rw [List.perm_iff_count] <;> intro a
      · have before := keys a
        simp [insertedKeys, destroyedKeys, destroy_eq notifies, List.count_cons] at before ⊢
        omega
      · have before := values a
        simp [insertedValues, destroyedValues, destroy_eq notifies, List.count_cons] at before ⊢
        omega

theorem destroyed_clear (notifies : Notifies cb) (t : LTree PPointer PPointer T) :
    destroyedKeys (clearEvents cb t) = t.entries.map Prod.fst ∧
      destroyedValues (clearEvents cb t) = t.entries.map Prod.snd := by
  rw [clearEvents, LTree.entries]
  induction t.labels with
  | nil => exact ⟨rfl, rfl⟩
  | cons q labels ih =>
      simp only [destroyedKeys, destroyedValues, destroy_eq notifies, List.cons_append,
        List.nil_append, List.map_map] at ih ⊢
      simp [ih, Label.entry]

theorem accounted_clear (notifies : Notifies cb) (t : LTree PPointer PPointer T)
    (accounted : Accounted ops t.entries trace) :
    Accounted (ops ++ [.clear]) [] (trace ++ clearEvents cb t) := by
  obtain ⟨keys, values⟩ := accounted
  obtain ⟨clearedKeys, clearedValues⟩ := destroyed_clear notifies t
  constructor
  · have split : destroyedKeys (trace ++ clearEvents cb t) =
        destroyedKeys trace ++ t.entries.map Prod.fst := by
      rw [← clearedKeys]
      exact List.filterMap_append
    rw [split]
    simpa [insertedKeys] using keys.trans List.perm_append_comm
  · have split : destroyedValues (trace ++ clearEvents cb t) =
        destroyedValues trace ++ t.entries.map Prod.snd := by
      rw [← clearedValues]
      exact List.filterMap_append
    rw [split]
    simpa [insertedValues] using values.trans List.perm_append_comm

end Accounts

section Runs

variable {Inv : LTree PPointer PPointer T → Prop} {compare : PPointer → PPointer → Int}
variable {m : List (PPointer × PPointer)}

theorem not_endsInner (represents : Represents Inv compare tree m) (holds : tree.nodes.Holds t)
    (enough : m.length < fuel) (spared : tree.spares fuel (.remove key) = true) :
    ¬ EndsInner tree.cb.compare key t := by
  intro inner
  obtain ⟨t', holds', -, rfl⟩ := represents.nodes
  have sameEntries : t.entries = t'.entries := by
    apply entries_unique (Support.Holds.linked holds) (Support.Holds.linked holds')
    rw [← Support.Holds.root_eq holds, ← Support.Holds.root_eq holds']
  rw [← sameEntries, LTree.length_entries] at enough
  rw [spares, hitsInner_of_endsInner holds enough inner] at spared
  cases spared

/-- A removal that spares nodes with two children destroys the pair it removes. -/
theorem destroysOwnPair (represents : Represents Inv compare tree m) (notifies : Notifies tree.cb)
    (enough : m.length + 1 < fuel) (spared : tree.spares fuel (.remove key) = true) :
    ∃ present tree', tree.ztreeRemove fuel key = .ok (present, tree') ∧
      DestroysOwnPair key tree present tree' := by
  obtain ⟨tree', result, m', t, ran, holds, effect, -, -⟩ := ztreeRemove_effect represents key enough
  refine ⟨result, tree', ran, ?_⟩
  have outer := not_endsInner represents holds (by omega) spared
  obtain ⟨t', holds', -, rfl⟩ := represents.nodes
  rw [DestroysOwnPair]
  generalize after : tree'.nodes.trace = trace' at effect
  cases effect with
  | absent _ _ => exact if_neg Bool.false_ne_true |>.mpr rfl
  | @removed pre post k v k' v' node split equal _ own =>
      obtain ⟨rfl, rfl⟩ := own outer
      rw [if_pos rfl]
      refine ⟨t', k', v', node, holds', by simp [split], equal, ?_⟩
      rw [destroy_eq notifies]
      simp

theorem accounted_step (represents : Represents Inv compare tree m) (notifies : Notifies tree.cb)
    (accounted : Accounted ops m tree.nodes.trace) {op : Op} (owning : op.Owning)
    (spared : tree.spares fuel op = true)
    (enough : 2 * m.length + 2 ≤ fuel) :
    ∃ reply tree' m', tree.step fuel op = .ok (reply, tree') ∧ Represents Inv compare tree' m' ∧
      Notifies tree'.cb ∧ Accounted (ops ++ [op]) m' tree'.nodes.trace ∧ m'.length ≤ m.length + 1 := by
  cases op with
  | insert malloc key value =>
      obtain ⟨tree', result, m', ran, effect, cb, represents'⟩ :=
        ztreeInsert_effect represents malloc key value (show m.length + 1 < fuel by omega)
      obtain ⟨-, count⟩ := entries_insert represents.compare_eq effect
      rw [show malloc.isSome = true from owning] at effect
      refine ⟨.done, tree', m', by rw [step, ran]; rfl, represents', cb ▸ notifies,
        accounted_insert notifies effect accounted, ?_⟩
      split at count <;> omega
  | remove key =>
      obtain ⟨tree', result, m', t, ran, holds, effect, cb, represents'⟩ :=
        ztreeRemove_effect represents key (show m.length + 1 < fuel by omega)
      obtain ⟨-, count⟩ := entries_remove represents.compare_eq effect
      have outer := not_endsInner represents holds (by omega) spared
      refine ⟨.removed result, tree', m', by rw [step, ran]; rfl, represents', cb ▸ notifies,
        accounted_remove notifies effect outer accounted, ?_⟩
      split at count <;> omega
  | clear =>
      obtain ⟨tree', t, ran, holds, rfl, trace, cb, represents'⟩ :=
        ztreeClear_effect represents (show 2 * m.length < fuel by omega)
      refine ⟨.done, tree', [], by rw [step, ran]; rfl, represents', cb ▸ notifies, ?_, Nat.zero_le _⟩
      rw [trace]
      exact accounted_clear notifies t accounted
  | lookup key => exact owning.elim
  | getNnodes => exact owning.elim
  | foreach traverse => exact owning.elim

/-- The books stay balanced along a sparing run, up to any of its calls. -/
theorem accounted_run (done : List Op) {todo : List Op} (represents : Represents Inv compare tree m)
    (notifies : Notifies tree.cb) (accounted : Accounted done m tree.nodes.trace)
    (owning : ∀ op ∈ todo, op.Owning) (sparing : tree.sparing fuel todo = true)
    (enough : 2 * (m.length + todo.length) + 2 ≤ fuel) (k : Nat) :
    ∃ replies tree' m', tree.run fuel (todo.take k) = .ok (replies, tree') ∧
      Represents Inv compare tree' m' ∧ Notifies tree'.cb ∧
      Accounted (done ++ todo.take k) m' tree'.nodes.trace ∧ tree'.sparing fuel (todo.drop k) = true ∧
      m'.length ≤ m.length + todo.length := by
  induction todo generalizing tree m done k with
  | nil =>
      rw [List.take_nil, List.drop_nil, List.append_nil]
      exact ⟨[], tree, m, rfl, represents, notifies, accounted, sparing, Nat.le_refl _⟩
  | cons op todo ih =>
      cases k with
      | zero =>
          rw [List.take_zero, List.append_nil]
          exact ⟨[], tree, m, rfl, represents, notifies, accounted, sparing, Nat.le_add_right _ _⟩
      | succ k =>
          rw [List.length_cons] at enough
          rw [PTree.sparing, Bool.and_eq_true] at sparing
          obtain ⟨spared, sparing⟩ := sparing
          obtain ⟨reply, tree₁, m₁, stepped, represents₁, notifies₁, accounted₁, grows⟩ :=
            accounted_step represents notifies accounted (owning op List.mem_cons_self) spared (by omega)
          rw [stepped] at sparing
          obtain ⟨replies, tree₂, m₂, ran, represents₂, notifies₂, accounted₂, sparing₂, bound⟩ :=
            ih (done ++ [op]) represents₁ notifies₁ accounted₁
              (fun other inside => owning other (List.mem_cons_of_mem op inside)) sparing (by omega) k
          refine ⟨reply :: replies, tree₂, m₂, ?_, represents₂, notifies₂, ?_, sparing₂, ?_⟩
          · rw [List.take_succ_cons, run, stepped]
            simp only [Exec.ok_bind, ran]
            rfl
          · rw [List.append_assoc] at accounted₂
            exact accounted₂
          · rw [List.length_cons]
            omega

/-- Balanced books of a fresh run are ownership. -/
theorem owned_of_accounted (represents : Represents Inv compare tree m)
    (accounted : Accounted ops m tree.nodes.trace) (freshKeys : (insertedKeys ops).Nodup)
    (freshValues : (insertedValues ops).Nodup) : Owned (T := T) ops tree := by
  obtain ⟨t, holds, -, rfl⟩ := represents.nodes
  obtain ⟨keys, values⟩ := accounted
  exact ⟨t, holds, keys, values, keys.nodup freshKeys, values.nodup freshValues⟩

end Runs

theorem nodup_take {inserted : Op → Option PPointer} (fresh : (ops.filterMap inserted).Nodup) (k : Nat) :
    ((ops.take k).filterMap inserted).Nodup :=
  fresh.sublist ((ops.take_sublist k).filterMap inserted)

end PTree

/-- A run in which no removal finds a node with two children keeps every key and every
    value stored or destroyed, and each removal destroys the pair it removes. -/
theorem ownership_over_sparing_runs {compare : PPointer → PPointer → Int} (order : SignOrder compare)
    {type : PTreeType} {tree : PTree type.Ext}
    (created : PTree.ztreeNewFull true type compare true true = some tree) {ops : List Op}
    (owning : ∀ op ∈ ops, op.Owning) (freshKeys : (insertedKeys ops).Nodup)
    (freshValues : (insertedValues ops).Nodup) {fuel : Nat} (enough : 2 * ops.length + 2 ≤ fuel)
    (sparing : tree.sparing fuel ops = true) (k : Nat) :
    ∃ replies tree', tree.run fuel (ops.take k) = .ok (replies, tree') ∧
      PTree.Owned (T := type.Tag) (ops.take k) tree' ∧
      ∀ key, ops[k]? = some (.remove key) → ∃ present tree'',
        tree'.ztreeRemove fuel key = .ok (present, tree'') ∧
        PTree.DestroysOwnPair (T := type.Tag) key tree' present tree'' := by
  have represents := PTree.represents_new order created
  rw [PTree.ztreeNewFull, if_pos rfl, Option.some.injEq] at created
  subst created
  obtain ⟨replies, tree', m', ran, represents', notifies, accounted, sparing', bound⟩ :=
    PTree.accounted_run [] represents ⟨rfl, rfl⟩ ⟨.refl _, .refl _⟩ owning sparing
      (show 2 * (0 + ops.length) + 2 ≤ fuel by omega) k
  refine ⟨replies, tree', ran, ?_, ?_⟩
  · exact PTree.owned_of_accounted represents' accounted (PTree.nodup_take freshKeys k)
      (PTree.nodup_take freshValues k)
  · intro key called
    obtain ⟨inside, eq⟩ := List.getElem?_eq_some_iff.mp called
    rw [List.drop_eq_getElem_cons inside, eq, PTree.sparing, Bool.and_eq_true] at sparing'
    rw [List.length_nil] at bound
    exact PTree.destroysOwnPair represents' notifies (by omega) sparing'.1

theorem ownership_over_sparing_runs_signed :
    let ops : List Op := [.insert (some .bump) 2 20, .insert (some .bump) 1 10, .insert (some .bump) 3 30,
      .remove 3, .remove 2, .clear]
    let tree : PTree PTreeType.rb.Ext := ⟨PTreeType.rb.funcs, ⟨signedCompare, true, true⟩, TreeState.empty, 0⟩
    tree.sparing 20 ops = true ∧
      ∃ replies tree', tree.run 20 (ops.take 4) = .ok (replies, tree') ∧
        PTree.Owned (T := Color) (ops.take 4) tree' ∧
        ∀ key, ops[4]? = some (.remove key) → ∃ present tree'',
          tree'.ztreeRemove 20 key = .ok (present, tree'') ∧
          PTree.DestroysOwnPair (T := Color) key tree' present tree'' := by
  intro ops tree
  have sparing : tree.sparing 20 ops = true := by rfl
  have owning : ∀ op ∈ ops, op.Owning := by simp [ops, Op.Owning]
  have created : PTree.ztreeNewFull true .rb signedCompare true true = some tree := rfl
  exact ⟨sparing, ownership_over_sparing_runs signedCompare_order created owning (by decide)
    (by decide) (by decide) sparing 4⟩

/-- Three insertions and the removal of the key between the other two. -/
def removeInner : List Op :=
  [.insert (some .bump) 2 20, .insert (some .bump) 1 10, .insert (some .bump) 3 30, .remove 2]

/-- The calls of `removeInner`, with fresh keys and values, end in a tree of the type that
    does not own what was inserted. -/
def LosesOwnership (type : PTreeType) : Prop :=
  (∀ op ∈ removeInner, op.Owning) ∧ (insertedKeys removeInner).Nodup ∧
    (insertedValues removeInner).Nodup ∧
    ∃ tree replies tree', PTree.ztreeNewFull true type signedCompare true true = some tree ∧
      tree.run 20 removeInner = .ok (replies, tree') ∧ ¬ PTree.Owned (T := type.Tag) removeInner tree'

/-- The tree holds the key 1 that was destroyed. -/
theorem losesOwnership {type : PTreeType} {tree : PTree type.Ext}
    (created : PTree.ztreeNewFull true type signedCompare true true = some tree)
    (destroyed : (tree.run 20 removeInner).map (fun out => destroyedKeys out.2.nodes.trace) = .ok [1]) :
    LosesOwnership type := by
  have small : ∀ k, (MapSpec.run signedCompare (removeInner.take k) []).2.length < 2 ^ 31 :=
    MapSpec.small_of_length signedCompare (by decide)
  obtain ⟨tree', ran, represents⟩ := PTree.run_refines removeInner
    (PTree.represents_new signedCompare_order created) small (show 2 * (0 + 4) + 2 ≤ 20 by omega)
  refine ⟨by simp [removeInner, Op.Owning], by decide, by decide, tree, _, tree', created, ran, ?_⟩
  rintro ⟨t, holds, -, -, once, -⟩
  obtain ⟨t', holds', -, entries⟩ := represents.nodes
  have sameEntries : t.entries = t'.entries := by
    apply PTree.entries_unique (Support.Holds.linked holds) (Support.Holds.linked holds')
    rw [← Support.Holds.root_eq holds, ← Support.Holds.root_eq holds']
  have stored : t'.entries = [(1, 10), (3, 30)] := by
    rw [entries]
    decide
  rw [ran] at destroyed
  have destroyedOne : destroyedKeys tree'.nodes.trace = [1] := Except.ok.inj destroyed
  rw [sameEntries, stored, destroyedOne] at once
  revert once
  decide

theorem ownership_lost_at_inner_node :
    LosesOwnership .binary ∧ LosesOwnership .rb ∧ LosesOwnership .avl :=
  ⟨losesOwnership rfl rfl, losesOwnership rfl rfl, losesOwnership rfl rfl⟩

end Plibsys.Tree
