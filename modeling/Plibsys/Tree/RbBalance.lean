import Plibsys.Tree.Rb

/-! # Red-black trees: the invariant and the fix-up loops

`Graded t n` is the invariant below the root: no red node has a red child, and every
way down passes `n` black nodes.  `Fits c n` is the same for a path, seen from its
hole: a black tree graded `n` may be plugged in.  The insertion loop carries a graded
red node upwards until the node above it is black; the removal loop turns a path that
fits `n + 1` into one that fits `n`, so that the black leaf below it can go.
-/

namespace Plibsys.Tree

open Support

section Invariant

variable {K V : Type}

/-- The color of the root.  The empty tree is black. -/
def color : LTree K V Color → Color
  | .nil => .black
  | .node _ q _ => q.tag

def Graded : LTree K V Color → Nat → Prop
  | .nil, n => n = 0
  | .node l q r, n =>
      match q.tag with
      | .red => color l = .black ∧ color r = .black ∧ Graded l n ∧ Graded r n
      | .black => ∃ m, n = m + 1 ∧ Graded l m ∧ Graded r m

/-- The color above the hole.  The root pointer counts as red: what hangs there has
    to be black. -/
def above : Path K V Color → Color
  | [] => .red
  | f :: _ => f.label.tag

def Fits : Path K V Color → Nat → Prop
  | [], _ => True
  | f :: c, n =>
      match f.label.tag with
      | .red => color f.sibling = .black ∧ Graded f.sibling n ∧ above c = .black ∧ Fits c n
      | .black => Graded f.sibling n ∧ Fits c (n + 1)

/-- The invariant of a whole tree. -/
def RedBlack (t : LTree K V Color) : Prop := color t = .black ∧ ∃ n, Graded t n

variable {t t' A B : LTree K V Color} {c : Path K V Color} {q : Label K V Color} {d : Side} {n : Nat}

@[simp] theorem color_nil : color (.nil : LTree K V Color) = .black := rfl

@[simp] theorem color_branch : color (.branch d q A B) = q.tag := by cases d <;> rfl

@[simp] theorem graded_nil : Graded (.nil : LTree K V Color) n ↔ n = 0 := Iff.rfl

theorem Color.ne_red {x : Color} : x ≠ .red ↔ x = .black := by cases x <;> simp

theorem graded_red (tag : q.tag = .red) : Graded (.branch d q A B) n ↔
    color A = .black ∧ color B = .black ∧ Graded A n ∧ Graded B n := by
  cases d with
  | left => simp only [LTree.branch, Graded, tag]
  | right =>
      simp only [LTree.branch, Graded, tag]
      tauto

theorem graded_black (tag : q.tag = .black) :
    Graded (.branch d q A B) n ↔ ∃ m, n = m + 1 ∧ Graded A m ∧ Graded B m := by
  cases d with
  | left => simp only [LTree.branch, Graded, tag]
  | right =>
      simp only [LTree.branch, Graded, tag]
      exact exists_congr fun m => by tauto

theorem graded_black_succ (tag : q.tag = .black) :
    Graded (.branch d q A B) (n + 1) ↔ Graded A n ∧ Graded B n := by
  rw [graded_black tag]
  constructor
  · rintro ⟨m, eq, graded⟩
    obtain rfl : n = m := by omega
    exact graded
  · exact fun graded => ⟨n, rfl, graded⟩

theorem fits_red {f : Frame K V Color} (tag : f.label.tag = .red) : Fits (f :: c) n ↔
    color f.sibling = .black ∧ Graded f.sibling n ∧ above c = .black ∧ Fits c n := by
  simp only [Fits, tag]

theorem fits_black {f : Frame K V Color} (tag : f.label.tag = .black) :
    Fits (f :: c) n ↔ Graded f.sibling n ∧ Fits c (n + 1) := by
  simp only [Fits, tag]

/-- A graded tree in a path that fits it makes a red-black tree, unless red meets red. -/
theorem redBlack_plug : RedBlack (c.plug t) ↔
    ∃ n, Graded t n ∧ Fits c n ∧ (above c = .red → color t = .black) := by
  induction c generalizing t with
  | nil => simp [RedBlack, Fits, above, and_comm]
  | cons f c ih =>
      rw [Path.plug_cons, ih, Frame.fill]
      cases tag : f.label.tag with
      | red =>
          simp only [graded_red tag, fits_red tag, color_branch, tag, above, reduceCtorEq, imp_false,
            ← ne_eq, Color.ne_red]
          exact exists_congr fun n => by tauto
      | black =>
          simp only [fits_black tag, color_branch, above, tag, graded_black tag]
          constructor
          · rintro ⟨_, ⟨n, rfl, graded, sibling⟩, fits, -⟩
            exact ⟨n, graded, ⟨sibling, fits⟩, by simp⟩
          · rintro ⟨n, graded, ⟨sibling, fits⟩, -⟩
            exact ⟨n + 1, ⟨n, rfl, graded, sibling⟩, fits, by simp⟩

theorem color_eq_of_shape (same : shape t = shape t') : color t = color t' := by
  cases t <;> cases t' <;> simp_all [shape, color]

theorem graded_of_shape (same : shape t = shape t') : Graded t n → Graded t' n := by
  induction t generalizing t' n with
  | nil =>
      cases t' with
      | nil => exact id
      | node l q r => simp [shape] at same
  | node l q r ihl ihr =>
      cases t' with
      | nil => simp [shape] at same
      | node l' q' r' =>
          simp only [shape, Shape.node.injEq] at same
          obtain ⟨left, tag, right⟩ := same
          simp only [Graded, tag, color_eq_of_shape left, color_eq_of_shape right]
          split
          · exact fun graded => ⟨graded.1, graded.2.1, ihl left graded.2.2.1, ihr right graded.2.2.2⟩
          · rintro ⟨m, rfl, gradedLeft, gradedRight⟩
            exact ⟨m, rfl, ihl left gradedLeft, ihr right gradedRight⟩

/-- The invariant does not look at the pairs. -/
theorem redBlack_of_shape (same : shape t = shape t') (inv : RedBlack t) : RedBlack t' := by
  obtain ⟨black, n, graded⟩ := inv
  exact ⟨color_eq_of_shape same ▸ black, n, graded_of_shape same graded⟩

end Invariant

namespace RbState

open TreeState

variable {rest : Addr → Option (Node PPointer PPointer (UpLink Color))}
variable {st : RbState} {c : Path PPointer PPointer Color} {f g : Frame PPointer PPointer Color}
variable {t : LTree PPointer PPointer Color} {n fuel : Nat}

theorem isBlack_eq (holds : st.HoldsBeside rest (c.plug t)) :
    pztreeRbIsBlack st t.addr = .ok (color t == .black) := by
  cases t with
  | nil => rfl
  | node l q r =>
      have nonnull : q.addr ≠ 0 := Support.Holds.nonnull (d := .left) holds
      simp [pztreeRbIsBlack, nonnull, load_focus (d := .left) holds, color]

theorem isBlack_top (holds : st.HoldsBeside rest (Path.plug (f :: c) t)) :
    pztreeRbIsBlack st f.label.addr = .ok (f.label.tag == .black) := by
  have eq := isBlack_eq (c := c) (t := f.fill t) holds
  rwa [Frame.addr_fill, Frame.fill, color_branch] at eq

theorem isRed_eq (holds : st.HoldsBeside rest (c.plug t)) (nonempty : t ≠ .nil) :
    pztreeRbIsRed st t.addr = .ok (color t == .red) := by
  cases t with
  | nil => exact absurd rfl nonempty
  | node l q r => simp [pztreeRbIsRed, load_focus (d := .left) holds, color]

theorem redUncle_eq (holds : st.HoldsBeside rest (c.plug t)) :
    redUncle st t.addr = .ok (color t == .red) := by
  by_cases empty : t = .nil
  · subst empty
    rfl
  · rw [redUncle, if_pos (nonnull_of_ne_nil holds empty), isRed_eq holds empty]

theorem getSibling_eq (holds : st.HoldsBeside rest (Path.plug (f :: c) t)) (nonempty : t ≠ .nil) :
    pztreeRbGetSibling st t.addr = .ok f.sibling.addr := by
  obtain ⟨m, loaded, parent⟩ := load_parent holds nonempty
  have different := sibling_ne holds nonempty
  rw [pztreeRbGetSibling, loaded, Exec.ok_bind, parent, Path.top_cons, load_top holds]
  cases f.side <;> simp [Label.cell, different]

theorem sideOf_eq (holds : st.HoldsBeside rest (Path.plug (f :: c) t)) (nonempty : t ≠ .nil) :
    sideOf st t.addr = .ok f.side := by
  obtain ⟨m, loaded, parent⟩ := load_parent holds nonempty
  have different := sibling_ne holds nonempty
  rw [sideOf, loaded, Exec.ok_bind, parent, Path.top_cons, load_top holds]
  cases f.side <;> simp [Label.cell, different.symm]

theorem getGparent_eq (holds : st.HoldsBeside rest (Path.plug (f :: c) t)) (nonempty : t ≠ .nil) :
    pztreeRbGetGparent st t.addr = .ok c.top := by
  obtain ⟨m, loaded, parent⟩ := load_parent holds nonempty
  rw [pztreeRbGetGparent, loaded, Exec.ok_bind, parent, Path.top_cons, load_top holds]
  simp

theorem getUncle_eq (holds : st.HoldsBeside rest (Path.plug (f :: g :: c) t)) (nonempty : t ≠ .nil) :
    pztreeRbGetUncle st t.addr = .ok g.sibling.addr := by
  obtain ⟨m, loaded, parent⟩ := load_parent holds nonempty
  have different := sibling_ne (f := g) (c := c) (t := f.fill t) holds (by simp [Frame.fill])
  rw [Frame.addr_fill] at different
  have loadedTop := load_top (f := g) (c := c) (t := f.fill t) holds
  rw [pztreeRbGetUncle, getGparent_eq holds nonempty, Exec.ok_bind, Path.top_cons, loadedTop,
    Exec.ok_bind, loaded, Exec.ok_bind, parent, Path.top_cons]
  cases g.side <;> simp [Label.cell, different]

section Insert

variable {p : Label PPointer PPointer Color} {d e : Side} {s : LTree PPointer PPointer Color}

/-- After case 4 the two red nodes lie on the same side. -/
theorem straighten_holds (holds : st.HoldsBeside rest (Path.plug (⟨e, p, s⟩ :: c) t))
    (red : color t = .red) (graded : Graded t n) (blackSibling : color s = .black)
    (gradedSibling : Graded s n) (redParent : p.tag = .red) :
    ∃ (y S : LTree PPointer PPointer Color) (x : Label PPointer PPointer Color) (st' : RbState),
      straighten d t.addr st = .ok (y.addr, st') ∧
      st'.HoldsBeside rest (Path.plug (⟨d, x, S⟩ :: c) y) ∧ st'.trace = st.trace ∧ y ≠ .nil ∧
      Graded y n ∧ color S = .black ∧ Graded S n ∧
      (LTree.branch d x y S).entries = (LTree.branch e p t s).entries := by
  obtain ⟨q, C, B, rfl⟩ : ∃ q C B, t = .branch d q B C := by
    cases t with
    | nil => cases red
    | node l q r => cases d <;> exact ⟨q, _, _, rfl⟩
  rw [color_branch] at red
  obtain ⟨blackB, blackC, gradedB, gradedC⟩ := (graded_red red).mp graded
  have different := sibling_ne holds (by simp)
  have loaded := load_focus holds
  have loadedParent := load_top holds
  rcases Side.eq_or_eq_flip d e with rfl | rfl
  · refine ⟨_, s, p, st, ?_, holds, rfl, by simp, graded, blackSibling, gradedSibling, rfl⟩
    rw [LTree.addr_branch] at different
    simp [straighten, loaded, loadedParent, different.symm]
  · have turned : st.HoldsBeside rest (c.plug (.branch d p s (.branch d.flip q C B))) := by
      rw [LTree.branch_flip d q]
      rwa [Path.plug_cons, Frame.fill, LTree.branch_flip] at holds
    obtain ⟨st', rotated, holds', trace⟩ := rotate_holds turned
    refine ⟨.branch d p s B, C, q, st', ?_, holds', trace, by simp, ?_, blackC, gradedC, ?_⟩
    · simp only [LTree.addr_branch] at loadedParent
      have child : (p.cell d.flip q.addr s.addr (Path.top c) :
          Node PPointer PPointer (UpLink Color)).child d.flip = q.addr := Label.cell_child _ _ _ _ _
      simp [straighten, loaded, loadedParent, child, rotated, load_focus holds']
    · exact (graded_red redParent).mpr ⟨blackSibling, blackB, gradedSibling, gradedB⟩
    · rw [LTree.entries, LTree.entries, LTree.labels_rotate, LTree.branch_flip, LTree.branch_flip]

/-- Cases 4 and 5 restore the invariant. -/
theorem insertRotate_holds {gp : Label PPointer PPointer Color} {u : LTree PPointer PPointer Color}
    (holds : st.HoldsBeside rest (Path.plug (⟨e, p, s⟩ :: ⟨d, gp, u⟩ :: c) t))
    (red : color t = .red) (graded : Graded t n) (blackSibling : color s = .black)
    (gradedSibling : Graded s n) (redParent : p.tag = .red) (blackUncle : color u = .black)
    (gradedUncle : Graded u n) (fits : Fits c (n + 1)) :
    ∃ st' t', insertRotate d t.addr gp.addr st = .ok st' ∧ st'.HoldsBeside rest t' ∧ RedBlack t' ∧
      st'.trace = st.trace ∧
      t'.entries = (Path.plug (⟨e, p, s⟩ :: ⟨d, gp, u⟩ :: c) t).entries := by
  obtain ⟨y, S, x, st₁, straightened, holds₁, trace₁, nonempty, gradedY, blackS, gradedS, entries⟩ :=
    straighten_holds (d := d) holds red graded blackSibling gradedSibling redParent
  obtain ⟨st₂, painted₂, holds₂, trace₂⟩ := retag (c := c) (d := d) .red holds₁
  obtain ⟨m, loaded, parent⟩ :=
    load_parent (c := ⟨d, x, S⟩ :: ⟨d, { gp with tag := .red }, u⟩ :: c) holds₂ nonempty
  obtain ⟨st₃, painted₃, holds₃, trace₃⟩ :=
    retag (c := ⟨d, { gp with tag := .red }, u⟩ :: c) (d := d) .black holds₂
  have turned : st₃.HoldsBeside rest (c.plug (.branch d.flip { gp with tag := .red } u
      (.branch d.flip.flip { x with tag := .black } y S))) := by
    rw [LTree.branch_flip, Side.flip_flip]
    exact holds₃
  obtain ⟨st', rotated, holds', trace'⟩ := rotate_holds turned
  refine ⟨st', _, ?_, holds', ?_, by rw [trace', trace₃, trace₂, trace₁], ?_⟩
  · simp only [insertRotate, straightened, Exec.ok_bind, painted₂, loaded, parent, Path.top_cons,
      painted₃, rotated]
  · refine redBlack_plug.mpr ⟨n + 1, ?_, fits, fun _ => color_branch⟩
    rw [graded_black_succ rfl, graded_red rfl]
    exact ⟨⟨blackUncle, blackS, gradedUncle, gradedS⟩, gradedY⟩
  · have flat : (LTree.branch d.flip { x with tag := .black }
        (.branch d.flip { gp with tag := .red } u S) y).entries =
        (LTree.branch d gp (.branch d x y S) u).entries := by
      cases d <;> simp [LTree.entries_branch, Side.flip]
    have inner : (LTree.branch d gp (.branch d x y S) u).entries =
        (LTree.branch d gp (.branch e p t s) u).entries := by
      rw [LTree.entries_branch, entries, ← LTree.entries_branch]
    simp only [Path.plug_cons, Frame.fill, Path.entries_plug, flat, inner]

/-- Case 3 hands the red color over to the grandparent. -/
theorem flipColors_holds (holds : st.HoldsBeside rest (Path.plug (f :: g :: c) t))
    (redUncle : color g.sibling = .red) (graded : Graded t n) (gradedSibling : Graded f.sibling n)
    (gradedUncle : Graded g.sibling n) :
    ∃ (G : LTree PPointer PPointer Color) (st₁ st₂ st₃ : RbState),
      st.modify f.label.addr (withTag .black) = .ok st₁ ∧
      st₁.modify g.sibling.addr (withTag .black) = .ok st₂ ∧
      st₂.modify g.label.addr (withTag .red) = .ok st₃ ∧ st₃.HoldsBeside rest (c.plug G) ∧
      st₃.trace = st.trace ∧ G.addr = g.label.addr ∧ color G = .red ∧ Graded G (n + 1) ∧
      (c.plug G).entries = (Path.plug (f :: g :: c) t).entries := by
  obtain ⟨dg, gp, uncle⟩ := g
  obtain ⟨u, ul, ur, rfl⟩ : ∃ u ul ur, uncle = .branch .left u ul ur := by
    cases uncle with
    | nil => cases redUncle
    | node l q r => exact ⟨q, l, r, rfl⟩
  rw [color_branch] at redUncle
  obtain ⟨-, -, gradedL, gradedR⟩ := (graded_red (d := .left) redUncle).mp gradedUncle
  obtain ⟨st₁, painted₁, holds₁, trace₁⟩ :=
    retag (c := ⟨dg, gp, .branch .left u ul ur⟩ :: c) (d := f.side) .black holds
  rw [plug_sibling] at holds₁
  obtain ⟨st₂, painted₂, holds₂, trace₂⟩ :=
    retag (c := ⟨dg.flip, gp, _⟩ :: c) (d := .left) (q := u) .black holds₁
  obtain ⟨st₃, painted₃, holds₃, trace₃⟩ := retag (c := c) (d := dg.flip) .red holds₂
  refine ⟨_, st₁, st₂, st₃, painted₁, painted₂, painted₃, holds₃,
    by rw [trace₃, trace₂, trace₁], by simp, by simp, ?_, ?_⟩
  · rw [graded_red rfl]
    refine ⟨by simp, by simp, ?_, ?_⟩
    · exact (graded_black_succ rfl).mpr ⟨gradedL, gradedR⟩
    · exact (graded_black_succ rfl).mpr ⟨graded, gradedSibling⟩
  · simp [Frame.fill, Path.entries_plug, LTree.branch_flip, LTree.entries_branch]

theorem balanceInsert_holds (holds : st.HoldsBeside rest (c.plug t)) (red : color t = .red)
    (graded : Graded t n) (fits : Fits c n) (enough : c.length < fuel) :
    ∃ st' t', pztreeRbBalanceInsert fuel t.addr st = .ok st' ∧ st'.HoldsBeside rest t' ∧ RedBlack t' ∧
      st'.trace = st.trace ∧ t'.entries = (c.plug t).entries := by
  induction fuel generalizing st c t n with
  | zero => omega
  | succ fuel ih =>
      have nonempty : t ≠ .nil := by
        rintro rfl
        cases red
      obtain ⟨m, loaded, parent⟩ := load_parent holds nonempty
      cases c with
      | nil =>
          obtain ⟨q, l, r, rfl⟩ : ∃ q l r, t = .branch .left q l r := by
            cases t with
            | nil => cases red
            | node l q r => exact ⟨q, l, r, rfl⟩
          obtain ⟨st', painted, holds', trace⟩ := retag (c := []) .black holds
          obtain ⟨-, -, gradedL, gradedR⟩ := (graded_red (by simpa using red)).mp graded
          refine ⟨st', _, ?_, holds', ⟨color_branch, n + 1, ?_⟩, trace, ?_⟩
          · rw [LTree.addr_branch] at loaded
            simp [pztreeRbBalanceInsert, loaded, parent, painted]
          · exact (graded_black_succ rfl).mpr ⟨gradedL, gradedR⟩
          · simp [LTree.entries_branch]
      | cons f c =>
          have below : f.label.addr ≠ 0 := Support.Holds.top_nonnull holds (by simp)
          have black := isBlack_top holds
          cases tag : f.label.tag with
          | black =>
              refine ⟨st, _, ?_, holds, ?_, rfl, rfl⟩
              · simp [pztreeRbBalanceInsert, loaded, parent, below, black, tag]
              · exact redBlack_plug.mpr ⟨n, graded, fits, by simp [above, tag]⟩
          | red =>
              obtain ⟨blackSibling, gradedSibling, blackAbove, fitsAbove⟩ := (fits_red tag).mp fits
              cases c with
              | nil => cases blackAbove
              | cons g c =>
                  obtain ⟨gradedUncle, fits'⟩ := (fits_black blackAbove).mp fitsAbove
                  have uncle := getUncle_eq holds nonempty
                  have gparent := getGparent_eq holds nonempty
                  have uncleHolds := holds
                  rw [Path.plug_cons, plug_sibling] at uncleHolds
                  have redUncle := redUncle_eq uncleHolds
                  by_cases caseThree : color g.sibling = .red
                  · obtain ⟨G, st₁, st₂, st₃, painted₁, painted₂, painted₃, holds₃, trace₃, addr,
                      redG, gradedG, entries⟩ :=
                        flipColors_holds holds caseThree graded gradedSibling gradedUncle
                    obtain ⟨st', t', balanced, holds', inv, trace, entries'⟩ :=
                      ih holds₃ redG gradedG fits' (by simp at enough; omega)
                    refine ⟨st', t', ?_, holds', inv, by rw [trace, trace₃], by rw [entries', entries]⟩
                    rw [addr] at balanced
                    simp [pztreeRbBalanceInsert, loaded, parent, below, black, tag, uncle, gparent,
                      redUncle, caseThree, painted₁, painted₂, painted₃, balanced]
                  · have blackUncle := Color.ne_red.mp caseThree
                    have step : pztreeRbBalanceInsert (fuel + 1) t.addr st =
                        insertRotate g.side t.addr g.label.addr st := by
                      have loadedG := load_top (f := g) (c := c) (t := f.fill t) holds
                      have different := sibling_ne (f := g) (c := c) (t := f.fill t) holds
                        (by simp [Frame.fill])
                      rw [Frame.addr_fill] at loadedG different
                      simp only [pztreeRbBalanceInsert, loaded, Exec.ok_bind, parent, Path.top_cons,
                        below, if_false, black, tag, uncle, gparent, redUncle, blackUncle, loadedG]
                      cases g.side <;> simp [Label.cell, different.symm]
                    rw [step]
                    exact insertRotate_holds holds red graded blackSibling gradedSibling tag
                      blackUncle gradedUncle fits'

end Insert

section Remove

variable {p s r : Label PPointer PPointer Color} {d e e' : Side}
variable {A B N O : LTree PPointer PPointer Color}

theorem paintSibling (x : Color)
    (holds : st.HoldsBeside rest (Path.plug (⟨d, p, .branch e s A B⟩ :: c) t)) :
    ∃ st' : RbState, st.modify s.addr (withTag x) = .ok st' ∧
      st'.HoldsBeside rest (Path.plug (⟨d, p, .branch e { s with tag := x } A B⟩ :: c) t) ∧
      st'.trace = st.trace := by
  obtain ⟨st', painted, holds', trace⟩ :=
    retag (c := ⟨d.flip, p, t⟩ :: c) (d := e) (q := s) x (sibling_holds holds)
  refine ⟨st', painted, ?_, trace⟩
  rw [plug_sibling]
  exact holds'

theorem nephew_holds (holds : st.HoldsBeside rest (Path.plug (⟨d, p, .branch e s N O⟩ :: c) t)) :
    st.HoldsBeside rest (Path.plug (⟨e, s, O⟩ :: ⟨d.flip, p, t⟩ :: c) N) := sibling_holds holds

theorem paintNephew (x : Color)
    (holds : st.HoldsBeside rest (Path.plug (⟨d, p, .branch e s (.branch e' r A B) O⟩ :: c) t)) :
    ∃ st' : RbState, st.modify r.addr (withTag x) = .ok st' ∧
      st'.HoldsBeside rest
        (Path.plug (⟨d, p, .branch e s (.branch e' { r with tag := x } A B) O⟩ :: c) t) ∧
      st'.trace = st.trace := by
  obtain ⟨st', painted, holds', trace⟩ :=
    retag (c := ⟨e, s, O⟩ :: ⟨d.flip, p, t⟩ :: c) (d := e') (q := r) x (nephew_holds holds)
  refine ⟨st', painted, ?_, trace⟩
  rw [plug_sibling]
  exact holds'

/-- The test of case 3. -/
theorem nephews_black (holds : st.HoldsBeside rest (Path.plug (⟨d, p, .branch e s A B⟩ :: c) t)) :
    ∃ m blackLeft blackRight, st.load s.addr = .ok m ∧
      pztreeRbIsBlack st m.left = .ok blackLeft ∧ pztreeRbIsBlack st m.right = .ok blackRight ∧
      ((blackLeft && blackRight) = true ↔ color A = .black ∧ color B = .black) := by
  have loaded := load_focus (sibling_holds holds)
  have blackA := isBlack_eq (nephew_holds holds)
  have blackB := isBlack_eq (nephew_holds (e := e.flip) (N := B) (O := A) (by rwa [LTree.branch_flip]))
  cases e with
  | left => exact ⟨_, _, _, loaded, blackA, blackB, by simp⟩
  | right => exact ⟨_, _, _, loaded, blackB, blackA, by simp [and_comm]⟩

/-- After case 2 the sibling is black; if it was red, the parent is red now. -/
theorem lowerRedSibling_holds (holds : st.HoldsBeside rest (Path.plug (f :: c) t))
    (nonempty : t ≠ .nil) (fits : Fits (f :: c) (n + 1)) :
    ∃ f' c' st', lowerRedSibling t.addr st = .ok (f'.sibling.addr, st') ∧
      st'.HoldsBeside rest (Path.plug (f' :: c') t) ∧ st'.trace = st.trace ∧
      color f'.sibling = .black ∧ Fits (f' :: c') (n + 1) ∧ Path.SameAround (f' :: c') (f :: c) ∧
      (f'.label.tag = .black → c' = c) := by
  have sibling := getSibling_eq holds nonempty
  have siblingHolds := holds
  rw [plug_sibling] at siblingHolds
  obtain ⟨d, p, S⟩ := f
  have live : S ≠ .nil := by
    rintro rfl
    cases tag : p.tag with
    | red => simp [fits_red (f := ⟨d, p, .nil⟩) tag] at fits
    | black => simp [fits_black (f := ⟨d, p, .nil⟩) tag] at fits
  have red := isRed_eq siblingHolds live
  cases colorS : color S with
  | black =>
      refine ⟨⟨d, p, S⟩, c, st, ?_, holds, rfl, colorS, fits, .refl _, fun _ => rfl⟩
      simp [lowerRedSibling, sibling, red, colorS]
  | red =>
      obtain ⟨s, Sl, Sr, rfl⟩ : ∃ s Sl Sr, S = .branch d.flip s Sr Sl := by
        cases S with
        | nil => exact absurd rfl live
        | node l q r => cases d <;> exact ⟨q, _, _, rfl⟩
      rw [color_branch] at colorS
      cases tag : p.tag with
      | red => simp [fits_red (f := ⟨d, p, _⟩) tag, colorS] at fits
      | black =>
          obtain ⟨gradedS, fitsC⟩ := (fits_black (f := ⟨d, p, _⟩) tag).mp fits
          obtain ⟨blackR, blackL, gradedR, gradedL⟩ := (graded_red (d := d.flip) colorS).mp gradedS
          obtain ⟨m, loaded, parent⟩ := load_parent holds nonempty
          obtain ⟨st₁, painted₁, holds₁, trace₁⟩ := retagTop .red holds
          obtain ⟨st₂, painted₂, holds₂, trace₂⟩ :=
            paintSibling (d := d) (e := d.flip) (s := s) .black holds₁
          have side := sideOf_eq holds₂ nonempty
          obtain ⟨st₃, rotated, holds₃, trace₃⟩ := rotate_holds holds₂
          refine ⟨⟨d, { p with tag := .red }, Sl⟩, ⟨d, { s with tag := .black }, Sr⟩ :: c, st₃, ?_,
            holds₃, by rw [trace₃, trace₂, trace₁], blackL, ?_, ?_, by simp⟩
          · have sibling' := getSibling_eq
              (f := ⟨d, { p with tag := .red }, Sl⟩) (c := ⟨d, { s with tag := .black }, Sr⟩ :: c)
              holds₃ nonempty
            simp only [LTree.addr_branch] at sibling red
            simp [lowerRedSibling, sibling, red, colorS, loaded, parent, painted₁, painted₂, side,
              rotated, sibling']
          · rw [fits_red rfl, fits_black rfl]
            exact ⟨blackL, gradedL, rfl, gradedR, fitsC⟩
          · cases d <;>
              simp [Path.SameAround, Path.pre_cons, Path.post_cons, LTree.entries_branch, Side.flip,
                Label.entry]

/-- After case 4 the outer nephew is red. -/
theorem turnNephew_holds
    (holds : st.HoldsBeside rest (Path.plug (⟨d, p, .branch d s A B⟩ :: c) t)) (nonempty : t ≠ .nil)
    (blackS : s.tag = .black) (graded : Graded (.branch d s A B) (n + 1))
    (someRed : color A = .red ∨ color B = .red) :
    ∃ (s' r : Label PPointer PPointer Color) (I R₁ R₂ : LTree PPointer PPointer Color) (st' : RbState),
      turnNephew d t.addr s.addr st = .ok (s'.addr, st') ∧
      st'.HoldsBeside rest (Path.plug (⟨d, p, .branch d.flip s' (.branch d r R₁ R₂) I⟩ :: c) t) ∧
      st'.trace = st.trace ∧ Graded I n ∧ Graded R₁ n ∧ Graded R₂ n ∧
      (LTree.branch d.flip s' (.branch d r R₁ R₂) I).entries = (LTree.branch d s A B).entries := by
  obtain ⟨gradedA, gradedB⟩ := (graded_black_succ blackS).mp graded
  have loaded := load_focus (sibling_holds holds)
  have outer : st.HoldsBeside rest (Path.plug (⟨d, p, .branch d.flip s B A⟩ :: c) t) := by
    rwa [LTree.branch_flip]
  have black := isBlack_eq (nephew_holds outer)
  cases colorB : color B with
  | red =>
      obtain ⟨r, R₁, R₂, rfl⟩ : ∃ r R₁ R₂, B = .branch d r R₁ R₂ := by
        cases B with
        | nil => cases colorB
        | node l q r => cases d <;> exact ⟨q, _, _, rfl⟩
      obtain ⟨-, -, graded₁, graded₂⟩ := (graded_red (by simpa using colorB)).mp gradedB
      refine ⟨s, r, A, R₁, R₂, st, ?_, outer, rfl, gradedA, graded₁, graded₂, ?_⟩
      · rw [LTree.addr_branch, colorB] at black
        simp [turnNephew, loaded, black]
      · rw [LTree.branch_flip]
  | black =>
      have colorA : color A = .red := by simpa [colorB] using someRed
      obtain ⟨r, I, J, rfl⟩ : ∃ r I J, A = .branch d r I J := by
        cases A with
        | nil => cases colorA
        | node l q r => cases d <;> exact ⟨q, _, _, rfl⟩
      obtain ⟨blackI, blackJ, gradedI, gradedJ⟩ := (graded_red (by simpa using colorA)).mp gradedA
      obtain ⟨st₁, painted₁, holds₁, trace₁⟩ := paintSibling .red holds
      obtain ⟨st₂, painted₂, holds₂, trace₂⟩ := paintNephew .black holds₁
      have turned : st₂.HoldsBeside rest (Path.plug (⟨d.flip, p, t⟩ :: c)
          (.branch d.flip { s with tag := .red } B
            (.branch d.flip.flip { r with tag := .black } I J))) := by
        rw [LTree.branch_flip, Side.flip_flip]
        exact sibling_holds holds₂
      obtain ⟨st₃, rotated, holds₃, trace₃⟩ := rotate_holds turned
      have settled : st₃.HoldsBeside rest (Path.plug (⟨d, p, .branch d.flip { r with tag := .black }
          (.branch d { s with tag := .red } J B) I⟩ :: c) t) := by
        rw [plug_sibling, ← LTree.branch_flip d]
        exact holds₃
      refine ⟨{ r with tag := .black }, { s with tag := .red }, I, J, B, st₃, ?_, settled,
        by rw [trace₃, trace₂, trace₁], gradedI, gradedJ, gradedB, ?_⟩
      · have sibling := getSibling_eq settled nonempty
        rw [colorB] at black
        simp only [LTree.addr_branch] at loaded sibling
        simp [turnNephew, loaded, black, painted₁, painted₂, rotated, sibling]
      · cases d <;> simp [LTree.entries_branch, Side.flip]

/-- Cases 4 and 5 leave a path that fits one black node less. -/
theorem removeRotate_holds
    (holds : st.HoldsBeside rest (Path.plug (⟨d, p, .branch d s A B⟩ :: c) t)) (nonempty : t ≠ .nil)
    (blackS : s.tag = .black) (fits : Fits (⟨d, p, .branch d s A B⟩ :: c) (n + 1))
    (someRed : color A = .red ∨ color B = .red) :
    ∃ c' st', removeRotate t.addr s.addr st = .ok st' ∧ st'.HoldsBeside rest (c'.plug t) ∧
      st'.trace = st.trace ∧ Fits c' n ∧ c'.SameAround (⟨d, p, .branch d s A B⟩ :: c) := by
  have graded : Graded (.branch d s A B) (n + 1) := by
    cases tag : p.tag with
    | red => exact ((fits_red tag).mp fits).2.1
    | black => exact ((fits_black tag).mp fits).1
  have side := sideOf_eq holds nonempty
  obtain ⟨s', r, I, R₁, R₂, st₁, turned, holds₁, trace₁, gradedI, graded₁, graded₂, entries⟩ :=
    turnNephew_holds holds nonempty blackS graded someRed
  obtain ⟨m, loaded, parent⟩ := load_parent holds₁ nonempty
  have loadedParent := load_top holds₁
  obtain ⟨st₂, painted₂, holds₂, trace₂⟩ := paintSibling p.tag holds₁
  obtain ⟨st₃, painted₃, holds₃, trace₃⟩ := retagTop .black holds₂
  have side₃ := sideOf_eq holds₃ nonempty
  have loaded₃ := load_focus (d := d.flip) (sibling_holds holds₃)
  obtain ⟨st₄, painted₄, holds₄, trace₄⟩ := paintNephew (e := d.flip) (r := r) .black holds₃
  obtain ⟨st₅, rotated, holds₅, trace₅⟩ := rotate_holds holds₄
  refine ⟨⟨d, { p with tag := .black }, I⟩ ::
    ⟨d, { s' with tag := p.tag }, .branch d { r with tag := .black } R₁ R₂⟩ :: c, st₅, ?_, holds₅,
    by rw [trace₅, trace₄, trace₃, trace₂, trace₁], ?_, ?_⟩
  · simp only [LTree.addr_branch] at loaded₃
    simp [removeRotate, side, turned, loaded, parent, loadedParent, painted₂, painted₃, side₃,
      loaded₃, painted₄, rotated]
  · have outer : Graded (.branch d { r with tag := .black } R₁ R₂) (n + 1) :=
      (graded_black_succ rfl).mpr ⟨graded₁, graded₂⟩
    rw [fits_black rfl]
    refine ⟨gradedI, ?_⟩
    cases tag : p.tag with
    | red =>
        obtain ⟨-, -, blackAbove, fitsC⟩ := (fits_red (f := ⟨d, p, _⟩) tag).mp fits
        exact (fits_red rfl).mpr ⟨color_branch, outer, blackAbove, fitsC⟩
    | black => exact (fits_black rfl).mpr ⟨outer, ((fits_black (f := ⟨d, p, _⟩) tag).mp fits).2⟩
  · have regrouped : Path.SameAround (⟨d, { p with tag := .black }, I⟩ ::
        ⟨d, { s' with tag := p.tag }, .branch d { r with tag := .black } R₁ R₂⟩ :: c)
        (⟨d, p, .branch d.flip s' (.branch d r R₁ R₂) I⟩ :: c) := by
      cases d <;>
        simp [Path.SameAround, Path.pre_cons, Path.post_cons, LTree.entries_branch, Side.flip,
          Label.entry]
    exact regrouped.trans ((Path.SameAround.refl c).cons rfl rfl entries)

theorem balanceRemove_holds (holds : st.HoldsBeside rest (c.plug t)) (nonempty : t ≠ .nil)
    (fits : Fits c (n + 1)) (enough : c.length < fuel) :
    ∃ c' st', pztreeRbBalanceRemove fuel t.addr st = .ok st' ∧ st'.HoldsBeside rest (c'.plug t) ∧
      st'.trace = st.trace ∧ Fits c' n ∧ c'.SameAround c := by
  induction fuel generalizing st c t n with
  | zero => omega
  | succ fuel ih =>
      obtain ⟨m₀, loaded₀, parent₀⟩ := load_parent holds nonempty
      cases c with
      | nil => exact ⟨[], st, by simp [pztreeRbBalanceRemove, loaded₀, parent₀], holds, rfl, trivial, .refl _⟩
      | cons f₀ c₀ =>
          have below : f₀.label.addr ≠ 0 := Support.Holds.top_nonnull holds (by simp)
          obtain ⟨⟨d, p, S⟩, c, st₁, lowered, holds₁, trace₁, blackS, fits₁, around₁, kept⟩ :=
            lowerRedSibling_holds holds nonempty fits
          have gradedS : Graded S (n + 1) := by
            cases tag : p.tag with
            | red => exact ((fits_red tag).mp fits₁).2.1
            | black => exact ((fits_black tag).mp fits₁).1
          obtain ⟨s, A, B, rfl⟩ : ∃ s A B, S = .branch d s A B := by
            cases S with
            | nil => simp at gradedS
            | node l q r => cases d <;> exact ⟨q, _, _, rfl⟩
          rw [color_branch] at blackS
          obtain ⟨gradedA, gradedB⟩ := (graded_black_succ blackS).mp gradedS
          obtain ⟨m, loaded, parent⟩ := load_parent holds₁ nonempty
          obtain ⟨sm, blackLeft, blackRight, loadedS, leftEq, rightEq, both⟩ := nephews_black holds₁
          by_cases caseThree : color A = .black ∧ color B = .black
          · obtain ⟨rfl, rfl⟩ : blackLeft = true ∧ blackRight = true := by simpa using both.mpr caseThree
            obtain ⟨st₂, painted₂, holds₂, trace₂⟩ := paintSibling .red holds₁
            have gradedS' : Graded (.branch d { s with tag := .red } A B) n :=
              (graded_red rfl).mpr ⟨caseThree.1, caseThree.2, gradedA, gradedB⟩
            have sameS : (LTree.branch d { s with tag := .red } A B).entries =
                (LTree.branch d s A B).entries := by simp [LTree.entries_branch]
            have recolored : ∀ x c', Path.SameAround c' c → Path.SameAround
                (⟨d, { p with tag := x }, .branch d { s with tag := .red } A B⟩ :: c')
                (⟨d, p, .branch d s A B⟩ :: c) :=
              fun x c' around => around.cons rfl rfl sameS
            have black := isBlack_top holds₂
            cases tag : p.tag with
            | black =>
                obtain rfl := kept tag
                obtain ⟨-, fitsC⟩ := (fits_black (f := ⟨d, p, _⟩) tag).mp fits₁
                obtain ⟨c', st', balanced, holds', trace', fits', around'⟩ :=
                  ih (c := c) (t := .branch d p t (.branch d { s with tag := .red } A B)) holds₂
                    (by simp) fitsC (by simp at enough; omega)
                refine ⟨⟨d, p, .branch d { s with tag := .red } A B⟩ :: c', st', ?_, holds',
                  by rw [trace', trace₂, trace₁], (fits_black tag).mpr ⟨gradedS', fits'⟩,
                  (recolored p.tag c' around').trans around₁⟩
                rw [LTree.addr_branch] at balanced
                simp [pztreeRbBalanceRemove, loaded₀, parent₀, below, lowered, loadedS, leftEq, rightEq,
                  loaded, parent, painted₂, black, tag, balanced]
            | red =>
                obtain ⟨-, -, -, fitsC⟩ := (fits_red (f := ⟨d, p, _⟩) tag).mp fits₁
                obtain ⟨st₃, painted₃, holds₃, trace₃⟩ := retagTop .black holds₂
                refine ⟨_, st₃, ?_, holds₃, by rw [trace₃, trace₂, trace₁],
                  (fits_black rfl).mpr ⟨gradedS', fitsC⟩,
                  (recolored .black c (.refl c)).trans around₁⟩
                simp [pztreeRbBalanceRemove, loaded₀, parent₀, below, lowered, loadedS, leftEq, rightEq,
                  loaded, parent, painted₂, black, tag, painted₃]
          · have test : (blackLeft && blackRight) = false :=
              Bool.eq_false_iff.mpr fun holdsTest => caseThree (both.mp holdsTest)
            have someRed : color A = .red ∨ color B = .red := by
              rw [not_and_or, ← Color.ne_red, ← Color.ne_red] at caseThree
              simpa using caseThree
            obtain ⟨c', st', rotated, holds', trace', fits', around'⟩ :=
              removeRotate_holds holds₁ nonempty blackS fits₁ someRed
            refine ⟨c', st', ?_, holds', by rw [trace', trace₁], fits', around'.trans around₁⟩
            simp only [pztreeRbBalanceRemove, loaded₀, Exec.ok_bind, parent₀, Path.top_cons, below,
              if_false, lowered, LTree.addr_branch, loadedS, leftEq, rightEq, loaded, test,
              Bool.false_eq_true, rotated]

end Remove

theorem balancesInsert : BalancesInsert pztreeRbBalanceInsert RedBlack .red := by
  intro st c a key value fuel holds inv enough
  obtain ⟨n, rfl, fits, -⟩ := redBlack_plug.mp inv
  exact balanceInsert_holds holds rfl ((graded_red (d := .left) rfl).mpr ⟨rfl, rfl, rfl, rfl⟩) fits enough

/-- The only child of a node is a red leaf, and the node is black. -/
theorem onlyChild_red {q : Label PPointer PPointer Color} {d : Side}
    {child : LTree PPointer PPointer Color} (nonempty : child ≠ .nil)
    (graded : Graded (.branch d q child .nil) n) :
    q.tag = .black ∧ n = 1 ∧ color child = .red ∧ Graded child 0 := by
  cases tag : q.tag with
  | red =>
      obtain ⟨black, -, gradedChild, rfl⟩ := (graded_red tag).mp graded
      cases child with
      | nil => exact absurd rfl nonempty
      | node l x r =>
          obtain ⟨m, zero, -⟩ := (graded_black (d := .left) black).mp gradedChild
          cases zero
  | black =>
      obtain ⟨m, rfl, gradedChild, rfl⟩ := (graded_black tag).mp graded
      refine ⟨rfl, rfl, ?_, gradedChild⟩
      by_contra notRed
      cases child with
      | nil => exact nonempty rfl
      | node l x r =>
          obtain ⟨m, zero, -⟩ := (graded_black (d := .left) (Color.ne_red.mp notRed)).mp gradedChild
          cases zero

theorem balancesRemove : BalancesRemove balanceBlackLeaf repaintChild RedBlack where
  leaf := by
    intro st c q fuel holds inv enough
    obtain ⟨n, graded, fits, meets⟩ := redBlack_plug.mp inv
    have black := isBlack_eq holds
    cases tag : q.tag with
    | red =>
        obtain ⟨-, -, rfl, -⟩ := (graded_red (d := .left) tag).mp graded
        refine ⟨c, st, ?_, holds, rfl, .refl c, redBlack_plug.mpr ⟨0, rfl, fits, fun _ => rfl⟩⟩
        rw [LTree.addr_node] at black
        simp [balanceBlackLeaf, black, color, tag]
    | black =>
        obtain ⟨m, rfl, rfl, -⟩ := (graded_black (d := .left) tag).mp graded
        obtain ⟨c', st', balanced, holds', trace, fits', around⟩ :=
          balanceRemove_holds holds (by simp) fits enough
        refine ⟨c', st', ?_, holds', trace, around, redBlack_plug.mpr ⟨0, rfl, fits', fun _ => rfl⟩⟩
        rw [LTree.addr_node] at black balanced
        simp [balanceBlackLeaf, black, color, tag, balanced]
  single := by
    intro st c q d child fuel holds nonempty
    have black := isBlack_eq holds
    have nonnull : child.addr ≠ 0 := nonnull_of_ne_nil (c := ⟨d, q, .nil⟩ :: c) holds nonempty
    rw [LTree.addr_branch] at black
    simp [balanceBlackLeaf, black, nonnull]
  adopted := by
    intro st c q d child fuel holds nonempty inv _
    obtain ⟨n, graded, fits, -⟩ := redBlack_plug.mp inv
    obtain ⟨blackQ, rfl, redChild, gradedChild⟩ := onlyChild_red nonempty graded
    obtain ⟨x, A, B, rfl⟩ : ∃ x A B, child = .branch .left x A B := by
      cases child with
      | nil => exact absurd rfl nonempty
      | node l x r => exact ⟨x, l, r, rfl⟩
    rw [color_branch] at redChild
    obtain ⟨-, -, gradedA, gradedB⟩ := (graded_red redChild).mp gradedChild
    obtain ⟨st', painted, holds', trace⟩ := retag .black holds
    refine ⟨st', _, ?_, holds', redBlack_plug.mpr ⟨1, ?_, fits, fun _ => color_branch⟩, trace, ?_⟩
    · have loaded := Heap.load_of_cell (cell_detached holds)
      have loadedCur : st.load q.addr = .ok _ := loaded
      have qNonnull : q.addr ≠ 0 := by
        intro null
        have cell := cell_detached holds
        rw [null, st.heap.null_free] at cell
        cases cell
      simp [repaintChild, pztreeRbIsBlack, qNonnull, loadedCur, blackQ, painted]
    · exact (graded_black_succ rfl).mpr ⟨gradedA, gradedB⟩
    · simp [Path.entries_plug, LTree.entries_branch]

theorem correct : funcs.Correct (RedBlack : LTree PPointer PPointer Color → Prop) where
  start := ⟨rfl, 0, rfl⟩
  insert := by
    intro cb st t fuel malloc key value order holds ordered inv enough
    exact insertNode_effect @balancesInsert (fun _ => rfl) redBlack_of_shape order holds ordered inv
      enough
  remove := by
    intro cb st t fuel key order holds ordered inv enough
    exact removeNode_effect balancesRemove redBlack_of_shape order holds ordered inv enough

end RbState

end Plibsys.Tree
