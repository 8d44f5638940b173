import Plibsys.Tree.Avl

/-! # AVL trees: the invariant and the rebalancing loops

`Balanced t` says that every stored balance factor is the height of the left subtree
minus the height of the right one, and lies between `-1` and `1`.  `Expects c n` is the
same for a path, seen from its hole: a balanced tree of height `n` may be plugged in.
The insertion loop carries a subtree that is one higher than expected, the removal loop
one that is one lower.
-/

namespace Plibsys.Tree

open Support

section Invariant

variable {K V : Type}

def height {T : Type} : LTree K V T → Nat
  | .nil => 0
  | .node l _ r => max (height l) (height r) + 1

/-- A factor stored at a node whose `d`-child has height `near`. -/
def Factor (d : Side) (x : Int) (near far : Nat) : Prop :=
  x = d.sign * ((near : Int) - far) ∧ near ≤ far + 1 ∧ far ≤ near + 1

def Balanced : LTree K V Int → Prop
  | .nil => True
  | .node l q r => Balanced l ∧ Balanced r ∧ Factor .left q.tag (height l) (height r)

def Expects : Path K V Int → Nat → Prop
  | [], _ => True
  | f :: c, n => Balanced f.sibling ∧ Factor f.side f.label.tag n (height f.sibling) ∧
      Expects c (max n (height f.sibling) + 1)

namespace Factor

variable {d : Side} {x : Int} {near far : Nat}

theorem eq_sign (stored : Factor d x near far) : x = d.sign ↔ near = far + 1 := by
  obtain ⟨eq, le, ge⟩ := stored
  cases d <;> simp only [Side.sign] at eq ⊢ <;> omega

theorem eq_neg_sign (stored : Factor d x near far) : x = -d.sign ↔ far = near + 1 := by
  obtain ⟨eq, le, ge⟩ := stored
  cases d <;> simp only [Side.sign] at eq ⊢ <;> omega

theorem eq_zero (stored : Factor d x near far) : x = 0 ↔ near = far := by
  obtain ⟨eq, le, ge⟩ := stored
  cases d <;> simp only [Side.sign] at eq ⊢ <;> omega

/-- The three factors there are, and what each says about the heights. -/
theorem cases (stored : Factor d x near far) :
    (x = d.sign ∧ near = far + 1) ∨ (x = -d.sign ∧ far = near + 1) ∨ (x = 0 ∧ near = far) := by
  have sign := stored.eq_sign
  have negSign := stored.eq_neg_sign
  have zero := stored.eq_zero
  obtain ⟨-, le, ge⟩ := stored
  rw [sign, negSign, zero]
  omega

theorem of_sign (higher : near = far + 1) : Factor d d.sign near far := by
  refine ⟨?_, by omega, by omega⟩
  cases d <;> simp only [Side.sign] <;> omega

theorem of_neg_sign (lower : far = near + 1) : Factor d (-d.sign) near far := by
  refine ⟨?_, by omega, by omega⟩
  cases d <;> simp only [Side.sign] <;> omega

theorem of_zero (same : near = far) : Factor d 0 near far := by
  refine ⟨?_, by omega, by omega⟩
  cases d <;> simp only [Side.sign] <;> omega

theorem flip (stored : Factor d x near far) : Factor d.flip x far near := by
  obtain ⟨eq, le, ge⟩ := stored
  refine ⟨?_, by omega, by omega⟩
  cases d <;> simp only [Side.sign, Side.flip] at eq ⊢ <;> omega

end Factor

/-- The factor at the root. -/
def factor : LTree K V Int → Int
  | .nil => 0
  | .node _ q _ => q.tag

variable {t t' A B : LTree K V Int} {c : Path K V Int} {q : Label K V Int} {d : Side} {n : Nat}

@[simp] theorem height_nil {T : Type} : height (.nil : LTree K V T) = 0 := rfl

@[simp] theorem height_branch {T : Type} (q : Label K V T) (A B : LTree K V T) :
    height (.branch d q A B) = max (height A) (height B) + 1 := by
  cases d with
  | left => rfl
  | right => simp [LTree.branch, height, Nat.max_comm]

@[simp] theorem factor_branch : factor (.branch d q A B) = q.tag := by cases d <;> rfl

@[simp] theorem balanced_nil : Balanced (.nil : LTree K V Int) := trivial

theorem balanced_branch : Balanced (.branch d q A B) ↔
    Balanced A ∧ Balanced B ∧ Factor d q.tag (height A) (height B) := by
  cases d with
  | left => exact Iff.rfl
  | right =>
      simp only [LTree.branch, Balanced, Factor, Side.sign]
      constructor
      · rintro ⟨balB, balA, eq, le, ge⟩
        exact ⟨balA, balB, by omega, ge, le⟩
      · rintro ⟨balA, balB, eq, le, ge⟩
        exact ⟨balB, balA, by omega, ge, le⟩

/-- A balanced tree of the expected height makes a balanced tree. -/
theorem balanced_plug : Balanced (c.plug t) ↔ Balanced t ∧ Expects c (height t) := by
  induction c generalizing t with
  | nil => simp [Expects]
  | cons f c ih =>
      rw [Path.plug_cons, ih, Frame.fill, balanced_branch, height_branch]
      simp only [Expects]
      tauto

theorem height_of_shape {T : Type} {t t' : LTree K V T} (same : shape t = shape t') :
    height t = height t' := by
  induction t generalizing t' with
  | nil =>
      cases t' with
      | nil => rfl
      | node l q r => simp [shape] at same
  | node l q r ihl ihr =>
      cases t' with
      | nil => simp [shape] at same
      | node l' q' r' =>
          simp only [shape, Shape.node.injEq] at same
          rw [height, height, ihl same.1, ihr same.2.2]

/-- The invariant does not look at the pairs. -/
theorem balanced_of_shape (same : shape t = shape t') (inv : Balanced t) : Balanced t' := by
  induction t generalizing t' with
  | nil =>
      cases t' with
      | nil => trivial
      | node l q r => simp [shape] at same
  | node l q r ihl ihr =>
      cases t' with
      | nil => simp [shape] at same
      | node l' q' r' =>
          simp only [shape, Shape.node.injEq] at same
          obtain ⟨left, tag, right⟩ := same
          obtain ⟨balL, balR, stored⟩ := inv
          refine ⟨ihl left balL, ihr right balR, ?_⟩
          rw [← tag, ← height_of_shape left, ← height_of_shape right]
          exact stored

end Invariant

namespace AvlState

open TreeState

variable {rest : Addr → Option (Node PPointer PPointer (UpLink Int))}
variable {st : AvlState} {c : Path PPointer PPointer Int} {f : Frame PPointer PPointer Int}
variable {t : LTree PPointer PPointer Int} {n fuel : Nat}
variable {p : Label PPointer PPointer Int} {d : Side} {S : LTree PPointer PPointer Int}

theorem sideBelow_eq (holds : st.HoldsBeside rest (Path.plug (f :: c) t)) (nonempty : t ≠ .nil) :
    sideBelow st f.label.addr t.addr = .ok f.side := by
  have different := sibling_ne holds nonempty
  rw [sideBelow, load_top holds]
  cases f.side <;> simp [Label.cell, different]

@[simp] theorem sign_flip (d : Side) : d.flip.sign = -d.sign := by cases d <;> rfl

@[simp] theorem childFactor_sign (d : Side) : childFactor d d.sign = 0 := by cases d <;> rfl

@[simp] theorem childFactor_neg_sign (d : Side) : childFactor d (-d.sign) = d.sign := by
  cases d <;> rfl

@[simp] theorem childFactor_zero (d : Side) : childFactor d 0 = 0 := by cases d <;> rfl

/-- The factors after a double rotation, by the heights of the subtrees that change
    their parents. -/
theorem childFactor_stored {x : Int} {hB hC : Nat} (hA hD : Nat) (stored : Factor d x hB hC)
    (middle : max hB hC = n) (heightA : hA = n) (heightD : hD = n) :
    Factor d (childFactor d x) hA hB ∧ Factor d (childFactor d.flip x) hC hD := by
  rcases stored.cases with ⟨rfl, higher⟩ | ⟨rfl, lower⟩ | ⟨rfl, same⟩
  · have far : childFactor d.flip d.sign = -d.sign := by cases d <;> rfl
    rw [childFactor_sign, far]
    exact ⟨.of_zero (by omega), .of_neg_sign (by omega)⟩
  · have far : childFactor d.flip (-d.sign) = 0 := by rw [← sign_flip, childFactor_sign]
    rw [childFactor_neg_sign, far]
    exact ⟨.of_sign (by omega), .of_zero (by omega)⟩
  · rw [childFactor_zero, childFactor_zero]
    exact ⟨.of_zero (by omega), .of_zero (by omega)⟩

/-- What one pass of the insertion loop leaves: a balanced tree, or the same situation
    one level up. -/
theorem growStep_holds (holds : st.HoldsBeside rest (Path.plug (⟨d, p, S⟩ :: c) t))
    (balanced : Balanced t) (grown : height t = n + 1) (tilted : n ≠ 0 → factor t ≠ 0)
    (expects : Expects (⟨d, p, S⟩ :: c) n) :
    ∃ goOn st', growStep d t.addr p.addr st = .ok (goOn, st') ∧ st'.trace = st.trace ∧
      ((goOn = false ∧ ∃ t', st'.HoldsBeside rest t' ∧ Balanced t' ∧
          t'.entries = (Path.plug (⟨d, p, S⟩ :: c) t).entries) ∨
        (goOn = true ∧ height S = n ∧
          st'.HoldsBeside rest (Path.plug (⟨d, { p with tag := d.sign }, S⟩ :: c) t))) := by
  obtain ⟨balS, stored, expectsC⟩ := expects
  simp only at balS stored expectsC
  have loaded := load_top holds
  rcases stored.cases with ⟨heavy, higher⟩ | ⟨light, lower⟩ | ⟨even, same⟩
  · obtain ⟨q, X, Y, rfl⟩ : ∃ q X Y, t = .branch d q X Y := by
      cases t with
      | nil => simp at grown
      | node l q r => cases d <;> exact ⟨q, _, _, rfl⟩
    obtain ⟨balX, balY, storedQ⟩ := balanced_branch.mp balanced
    have loadedQ := load_focus holds
    rw [height_branch] at grown
    rw [factor_branch] at tilted
    rcases storedQ.cases with ⟨outer, higherX⟩ | ⟨inner, higherY⟩ | ⟨flat, -⟩
    · have turned : st.HoldsBeside rest
          (c.plug (.branch d.flip p S (.branch d.flip q Y X))) := by
        rw [LTree.branch_flip, LTree.branch_flip]
        exact holds
      obtain ⟨st', rotated, holds', trace⟩ := rotate_holds turned
      refine ⟨false, st', ?_, trace, .inl ⟨rfl, _, holds', balanced_plug.mpr ⟨?_, ?_⟩, ?_⟩⟩
      · have notInner : ¬ d.sign = -d.sign := by cases d <;> decide
        simp [growStep, loaded, heavy, loadedQ, outer, notInner, rotated]
      · simp only [balanced_branch, height_branch, outer, sign_flip, Int.add_right_neg, Int.neg_zero]
        exact ⟨⟨balS, balY, .of_zero (by omega)⟩, balX, .of_zero (by omega)⟩
      · have levels : max (max (height S) (height Y) + 1) (height X) + 1 = max n (height S) + 1 := by
          omega
        simp only [height_branch]
        rwa [levels]
      · cases d <;> simp [Path.entries_plug, Frame.fill, LTree.entries_branch, Side.flip]
    · obtain ⟨m, B, C, rfl⟩ : ∃ m B C, Y = .branch d m B C := by
        cases Y with
        | nil => simp at higherY
        | node l q r => cases d <;> exact ⟨q, _, _, rfl⟩
      obtain ⟨balB, balC, storedM⟩ := balanced_branch.mp balY
      rw [height_branch] at higherY grown
      obtain ⟨storedQ', storedP'⟩ := childFactor_stored (height X) (height S) storedM rfl
        (by omega) (by omega)
      obtain ⟨st', rotated, holds', trace⟩ := rotateTwice_holds (c := c) holds
      refine ⟨false, st', ?_, trace, .inl ⟨rfl, _, holds', balanced_plug.mpr ⟨?_, ?_⟩, ?_⟩⟩
      · simp [growStep, loaded, heavy, loadedQ, inner, rotated]
      · simp only [balanced_branch, height_branch]
        exact ⟨⟨balX, balB, storedQ'⟩, ⟨balC, balS, storedP'⟩, .of_zero (by omega)⟩
      · have levels : max (max (height X) (height B) + 1) (max (height C) (height S) + 1) + 1 =
            max n (height S) + 1 := by omega
        simp only [height_branch]
        rwa [levels]
      · cases d <;> simp [Path.entries_plug, Frame.fill, LTree.entries_branch]
    · exact absurd flat (tilted (by omega))
  · have notHeavy : ¬ -d.sign = d.sign := by cases d <;> decide
    obtain ⟨st', tagged, holds', trace⟩ := retagTop 0 holds
    refine ⟨false, st', ?_, trace, .inl ⟨rfl, _, holds', balanced_plug.mpr ⟨balanced, ?_⟩, ?_⟩⟩
    · simp [growStep, loaded, notHeavy, light, tagged]
    · have levels : max (height t) (height S) + 1 = max n (height S) + 1 := by omega
      refine ⟨balS, .of_zero (by simp; omega), ?_⟩
      simp only
      rwa [levels]
    · simp [Frame.fill, Path.entries_plug, LTree.entries_branch]
  · have notHeavy : ¬ (0 : Int) = d.sign := by cases d <;> decide
    have notLight : ¬ (0 : Int) = -d.sign := by cases d <;> decide
    obtain ⟨st', tagged, holds', trace⟩ := retagTop d.sign holds
    refine ⟨true, st', ?_, trace, .inr ⟨rfl, same.symm, holds'⟩⟩
    simp [growStep, loaded, even, notHeavy, notLight, tagged]

theorem balanceInsert_holds (holds : st.HoldsBeside rest (c.plug t)) (balanced : Balanced t)
    (grown : height t = n + 1) (tilted : n ≠ 0 → factor t ≠ 0) (expects : Expects c n)
    (enough : c.length < fuel) :
    ∃ st' t', pztreeAvlBalanceInsert fuel t.addr st = .ok st' ∧ st'.HoldsBeside rest t' ∧ Balanced t' ∧
      st'.trace = st.trace ∧ t'.entries = (c.plug t).entries := by
  induction fuel generalizing st c t n with
  | zero => omega
  | succ fuel ih =>
      have nonempty : t ≠ .nil := by
        rintro rfl
        simp at grown
      obtain ⟨m, loaded, parent⟩ := load_parent holds nonempty
      cases c with
      | nil =>
          exact ⟨st, t, by simp [pztreeAvlBalanceInsert, loaded, parent], holds, balanced, rfl, rfl⟩
      | cons f c =>
          obtain ⟨d, p, S⟩ := f
          have below : p.addr ≠ 0 := Support.Holds.top_nonnull holds (by simp)
          have side := sideBelow_eq holds nonempty
          obtain ⟨goOn, st₁, stepped, trace₁, outcome⟩ :=
            growStep_holds holds balanced grown tilted expects
          rcases outcome with ⟨rfl, t', holds', inv', entries⟩ | ⟨rfl, same, holds₁⟩
          · refine ⟨st₁, t', ?_, holds', inv', trace₁, entries⟩
            simp [pztreeAvlBalanceInsert, loaded, parent, below, side, stepped]
          · obtain ⟨balS, -, expectsC⟩ := expects
            simp only at balS expectsC
            obtain ⟨m₁, loaded₁, parent₁⟩ := load_parent holds₁ nonempty
            obtain ⟨st', t', balances, holds', inv', trace', entries⟩ :=
              ih (c := c) (t := .branch d { p with tag := d.sign } t S) (n := n + 1) holds₁
                (balanced_branch.mpr ⟨balanced, balS, .of_sign (by omega)⟩)
                (by rw [height_branch]; omega) (by cases d <;> simp [Side.sign])
                (by rw [show n + 1 = max n (height S) + 1 by omega]; exact expectsC)
                (by simp at enough; omega)
            refine ⟨st', t', ?_, holds', inv', by rw [trace', trace₁], ?_⟩
            · rw [LTree.addr_branch] at balances
              simp [pztreeAvlBalanceInsert, loaded, parent, below, side, stepped, loaded₁, parent₁,
                balances]
            · rw [entries]
              simp [Frame.fill, Path.entries_plug, LTree.entries_branch]

/-- How one pass of the removal loop goes on: around `t` there is a subtree, reached by
    `inner`, of height `k` where the path above expects `k + 1`. -/
structure Lowered (st : AvlState) (rest : Addr → Option (Node PPointer PPointer (UpLink Int)))
    (c inner : Path PPointer PPointer Int) (t : LTree PPointer PPointer Int) (n k : Nat)
    (node : Addr) : Prop where
  holds : st.HoldsBeside rest (c.plug (inner.plug t))
  next : ∃ m, st.load node = .ok m ∧ m.ext.parent = (inner.plug t).addr
  nonempty : inner.plug t ≠ .nil
  expects : Expects c (k + 1)
  carry : ∀ c', Expects c' k → Expects (inner ++ c') n

theorem lowered_node {s : Label PPointer PPointer Int} {X Y : LTree PPointer PPointer Int} {k : Nat}
    {node : Addr} (here : node = p.addr)
    (holds : st.HoldsBeside rest (c.plug (.branch d s (.branch d p t X) Y)))
    (balX : Balanced X) (balY : Balanced Y) (storedP : Factor d p.tag n (height X))
    (storedS : Factor d s.tag (max n (height X) + 1) (height Y))
    (level : k = max (max n (height X) + 1) (height Y) + 1) (expects : Expects c (k + 1)) :
    Lowered st rest c [⟨d, p, X⟩, ⟨d, s, Y⟩] t n k node where
  holds := holds
  next := by
    subst here
    have loaded := load_focus (c := ⟨d, s, Y⟩ :: c) holds
    exact ⟨_, loaded, by simp [Frame.fill]⟩
  nonempty := by simp [Frame.fill]
  expects := expects
  carry := by
    intro c' expects'
    exact ⟨balX, storedP, balY, storedS, by simp only; rwa [← level]⟩

theorem shrinkStep_holds (holds : st.HoldsBeside rest (Path.plug (⟨d, p, S⟩ :: c) t))
    (nonempty : t ≠ .nil) (expects : Expects (⟨d, p, S⟩ :: c) (n + 1)) :
    ∃ goOn node st', shrinkStep d t.addr p.addr st = .ok (goOn, node, st') ∧ st'.trace = st.trace ∧
      ((goOn = false ∧ ∃ c' : Path PPointer PPointer Int, st'.HoldsBeside rest (c'.plug t) ∧
          Expects c' n ∧ c'.SameAround (⟨d, p, S⟩ :: c)) ∨
        (goOn = true ∧ ∃ inner k, Lowered st' rest c inner t n k node ∧
          Path.SameAround (inner ++ c) (⟨d, p, S⟩ :: c))) := by
  obtain ⟨balS, stored, expectsC⟩ := expects
  simp only at balS stored expectsC
  have loaded := load_top holds
  rcases stored.cases with ⟨heavy, higher⟩ | ⟨light, lower⟩ | ⟨even, same⟩
  · have notLight : ¬ d.sign = -d.sign := by cases d <;> decide
    have notEven : ¬ d.sign = 0 := by cases d <;> decide
    obtain ⟨st', tagged, holds', trace⟩ := retagTop 0 holds
    refine ⟨true, t.addr, st', ?_, trace, .inr ⟨rfl, [⟨d, { p with tag := 0 }, S⟩], n + 1, ?_, ?_⟩⟩
    · simp [shrinkStep, loaded, heavy, notLight, notEven, tagged]
    · exact {
        holds := holds'
        next := by simpa [Frame.fill] using load_parent holds' nonempty
        nonempty := by simp [Frame.fill]
        expects := by rwa [show n + 1 + 1 = max (n + 1) (height S) + 1 by omega]
        carry := by
          intro c' expects'
          refine ⟨balS, .of_zero (by simp; omega), ?_⟩
          rwa [show max n (height S) + 1 = n + 1 by omega] }
    · exact (Path.SameAround.refl c).cons rfl rfl rfl
  · obtain ⟨s, X, Y, rfl⟩ : ∃ s X Y, S = .branch d s X Y := by
      cases S with
      | nil => simp at lower
      | node l q r => cases d <;> exact ⟨q, _, _, rfl⟩
    obtain ⟨balX, balY, storedS⟩ := balanced_branch.mp balS
    have loadedS := load_focus (sibling_holds holds)
    rw [height_branch] at lower expectsC
    have regrouped : ∀ x y, Path.SameAround
        ([⟨d, { p with tag := x }, X⟩, ⟨d, { s with tag := y }, Y⟩] ++ c)
        (⟨d, p, .branch d s X Y⟩ :: c) := by
      intro x y
      cases d <;>
        simp [Path.SameAround, Path.pre_cons, Path.post_cons, LTree.entries_branch, Label.entry]
    rcases storedS.cases with ⟨inner, higherX⟩ | ⟨outer, higherY⟩ | ⟨flat, sameXY⟩
    · obtain ⟨m, B, C, rfl⟩ : ∃ m B C, X = .branch d m B C := by
        cases X with
        | nil => simp at higherX
        | node l q r => cases d <;> exact ⟨q, _, _, rfl⟩
      obtain ⟨balB, balC, storedM⟩ := balanced_branch.mp balX
      rw [height_branch] at higherX lower expectsC
      obtain ⟨storedP', storedS'⟩ := childFactor_stored n (height Y) storedM rfl
        (by omega) (by omega)
      have turned : st.HoldsBeside rest
          (c.plug (.branch d.flip p (.branch d.flip s Y (.branch d.flip m C B)) t)) := by
        rw [LTree.branch_flip, LTree.branch_flip, LTree.branch_flip]
        exact holds
      obtain ⟨st', rotated, holds', trace⟩ := rotateTwice_holds turned
      rw [LTree.branch_flip, LTree.branch_flip, LTree.branch_flip, Side.flip_flip] at holds'
      have notZero : d.sign ≠ 0 := by cases d <;> decide
      refine ⟨true, p.addr, st', ?_, trace, .inr ⟨rfl, _, n + 2,
        lowered_node (p := { p with tag := childFactor d m.tag }) rfl holds' balB ?_ storedP' ?_ ?_ ?_,
        ?_⟩⟩
      · simp [shrinkStep, loaded, light, loadedS, inner, notZero, rotated]
      · exact balanced_branch.mpr ⟨balC, balY, storedS'⟩
      · exact .of_zero (by rw [height_branch]; omega)
      · rw [height_branch]
        omega
      · rwa [show n + 2 + 1 = max (n + 1) (max (max (height B) (height C) + 1) (height Y) + 1) + 1 by
          omega]
      · cases d <;>
          simp [Path.SameAround, Path.pre_cons, Path.post_cons, LTree.entries_branch, Label.entry]
    · obtain ⟨st', rotated, holds', trace⟩ := rotate_holds (c := c) holds
      rw [outer, Int.add_left_neg, Int.neg_zero] at holds'
      have notInner : ¬ -d.sign = d.sign := by cases d <;> decide
      have notZero : d.sign ≠ 0 := by cases d <;> decide
      refine ⟨true, p.addr, st', ?_, trace, .inr ⟨rfl, _, n + 2,
        lowered_node (p := { p with tag := 0 }) rfl holds' balX balY ?_ ?_ ?_ ?_, regrouped 0 0⟩⟩
      · simp [shrinkStep, loaded, light, loadedS, outer, notInner, notZero, rotated]
      · exact .of_zero (by omega)
      · exact .of_zero (by omega)
      · omega
      · rwa [show n + 2 + 1 = max (n + 1) (max (height X) (height Y) + 1) + 1 by omega]
    · obtain ⟨st', rotated, holds', trace⟩ := rotate_holds (c := c) holds
      rw [flat, Int.zero_add] at holds'
      have notInner : ¬ (0 : Int) = d.sign := by cases d <;> decide
      refine ⟨false, p.addr, st', ?_, trace, .inl ⟨rfl, _, ?_, ?_, regrouped (-d.sign) d.sign⟩⟩
      · simp [shrinkStep, loaded, light, loadedS, flat, notInner, rotated]
      · exact holds'
      · refine ⟨balX, .of_neg_sign (by simp; omega), balY, .of_sign (by simp; omega), ?_⟩
        simp only
        rwa [show max (max n (height X) + 1) (height Y) + 1 =
          max (n + 1) (max (height X) (height Y) + 1) + 1 by omega]
  · have notLight : ¬ (0 : Int) = -d.sign := by cases d <;> decide
    obtain ⟨st', tagged, holds', trace⟩ := retagTop (-d.sign) holds
    refine ⟨false, t.addr, st', ?_, trace, .inl ⟨rfl, _, holds', ⟨balS, .of_neg_sign same.symm, ?_⟩,
      (Path.SameAround.refl c).cons rfl rfl rfl⟩⟩
    · simp [shrinkStep, loaded, even, notLight, tagged]
    · simp only
      rwa [show max n (height S) + 1 = max (n + 1) (height S) + 1 by omega]

theorem balanceRemove_holds (holds : st.HoldsBeside rest (c.plug t)) (nonempty : t ≠ .nil)
    (expects : Expects c (n + 1)) (enough : c.length < fuel) :
    ∃ (c' : Path PPointer PPointer Int) (st' : AvlState),
      pztreeAvlBalanceRemove fuel t.addr st = .ok st' ∧ st'.HoldsBeside rest (c'.plug t) ∧
      st'.trace = st.trace ∧ Expects c' n ∧ c'.SameAround c := by
  induction fuel generalizing st c t n with
  | zero => omega
  | succ fuel ih =>
      obtain ⟨m, loaded, parent⟩ := load_parent holds nonempty
      cases c with
      | nil =>
          exact ⟨[], st, by simp [pztreeAvlBalanceRemove, loaded, parent], holds, rfl, trivial, .refl _⟩
      | cons f c =>
          obtain ⟨d, p, S⟩ := f
          have below : p.addr ≠ 0 := Support.Holds.top_nonnull holds (by simp)
          have side := sideBelow_eq holds nonempty
          obtain ⟨goOn, node, st₁, stepped, trace₁, outcome⟩ := shrinkStep_holds holds nonempty expects
          rcases outcome with ⟨rfl, c', holds', expects', around⟩ | ⟨rfl, inner, k, lowered, around⟩
          · refine ⟨c', st₁, ?_, holds', trace₁, expects', around⟩
            simp [pztreeAvlBalanceRemove, loaded, parent, below, side, stepped]
          · obtain ⟨m₁, loaded₁, parent₁⟩ := lowered.next
            obtain ⟨c', st', balances, holds', trace', expects', around'⟩ :=
              ih lowered.holds lowered.nonempty lowered.expects (by simp at enough; omega)
            refine ⟨inner ++ c', st', ?_, ?_, by rw [trace', trace₁], lowered.carry c' expects',
              (around'.append inner).trans around⟩
            · simp [pztreeAvlBalanceRemove, loaded, parent, below, side, stepped, loaded₁, parent₁,
                balances]
            · rw [Path.plug_append]
              exact holds'

theorem balancesInsert : BalancesInsert pztreeAvlBalanceInsert Balanced 0 := by
  intro st c a key value fuel holds inv enough
  obtain ⟨-, expects⟩ := balanced_plug.mp inv
  exact balanceInsert_holds holds ⟨trivial, trivial, .of_zero rfl⟩ rfl (by simp) expects enough

theorem balancesRemove : BalancesRemove balanceLeaf
    (fun fuel _ childNode st => pztreeAvlBalanceRemove fuel childNode st) Balanced where
  leaf := by
    intro st c q fuel holds inv enough
    obtain ⟨-, expects⟩ := balanced_plug.mp inv
    obtain ⟨c', st', balances, holds', trace, expects', around⟩ :=
      balanceRemove_holds holds (by simp) expects enough
    exact ⟨c', st', balances, holds', trace, around, balanced_plug.mpr ⟨trivial, expects'⟩⟩
  single := by
    intro st c q d child fuel holds nonempty
    have nonnull : child.addr ≠ 0 := nonnull_of_ne_nil (c := ⟨d, q, .nil⟩ :: c) holds nonempty
    rw [balanceLeaf, if_neg nonnull]
    rfl
  adopted := by
    intro st c q d child fuel holds nonempty inv enough
    obtain ⟨balanced, expects⟩ := balanced_plug.mp inv
    obtain ⟨balChild, -, -⟩ := balanced_branch.mp balanced
    rw [height_branch, height_nil, Nat.max_zero] at expects
    obtain ⟨c', st', balances, holds', trace, expects', around⟩ :=
      balanceRemove_holds holds nonempty expects enough
    refine ⟨st', _, balances, holds', balanced_plug.mpr ⟨balChild, expects'⟩, trace, ?_⟩
    rw [Path.entries_plug, Path.entries_plug, around.1, around.2]

theorem correct : funcs.Correct (Balanced : LTree PPointer PPointer Int → Prop) where
  start := trivial
  insert := by
    intro cb st t fuel malloc key value order holds ordered inv enough
    exact insertNode_effect @balancesInsert (fun _ => rfl) balanced_of_shape order holds ordered inv
      enough
  remove := by
    intro cb st t fuel key order holds ordered inv enough
    exact removeNode_effect balancesRemove balanced_of_shape order holds ordered inv enough

end AvlState

end Plibsys.Tree
