import AirCompiler.Expr.Text
import Mathlib.Data.List.Induction
import Mathlib.Order.Lattice

/-!
# Expressions with temporaries

Rendering works through a list of open tasks. What it does to one expression is a structural
recursion (`Expr.pieces`, `Expr.textTasks_visit`), and what that recursion does to texts it does to
trees with temporaries as leaves:

* `Sketch`: an expression in which temporaries may stand for parts.
* `Expr.cut`: the sketch of an expression and the definitions of the temporaries; its text is the
  rendered one (`Expr.textWith_eq`).
* `Expr.cut_spec`: every definition is nested `maxNesting` deep and refers to earlier ones only, and
  putting the definitions back, last one first, gives the expression.
-/

namespace AirCompiler

theorem maxNesting_pos : 0 < maxNesting := by decide

/-! ## The loop and the recursion -/

namespace Expr

/-- The piece of an expression, by recursion over the tree. -/
def pieces (dual : Bool) : Expr → Option (Array String) → Piece × Option (Array String)
  | .leaf x, temporaries => (⟨leafText dual x, 0⟩, temporaries)
  | .shared id, temporaries => (⟨sharedName id, 0⟩, temporaries)
  | .operation op l r, temporaries =>
    let x := l.pieces dual temporaries
    let y := r.pieces dual x.2
    place (join op x.1 y.1) y.2

/-- A task to visit an expression leaves the expression's piece on top. -/
theorem textTasks_visit (dual : Bool) (e : Expr) (tasks : List TextTask) (found : List Piece)
    (temporaries : Option (Array String)) :
    textTasks dual (.visit e :: tasks) found temporaries =
      textTasks dual tasks ((e.pieces dual temporaries).1 :: found)
        (e.pieces dual temporaries).2 := by
  induction e generalizing tasks found temporaries with
  | leaf x => rw [textTasks, pieces]
  | shared id => rw [textTasks, pieces]
  | operation op l r ihl ihr => rw [textTasks, ihl, ihr, textTasks, pieces]

theorem render_eq (dual : Bool) (e : Expr) (temporaries : Option (Array String)) :
    e.render dual temporaries =
      ((e.pieces dual temporaries).1.text, (e.pieces dual temporaries).2) := by
  rw [render, textTasks_visit, textTasks]

/-! ## Texts without temporaries -/

theorem pieces_none (dual : Bool) (e : Expr) : (e.pieces dual none).2 = none := by
  induction e with
  | leaf x => rfl
  | shared id => rfl
  | operation op l r ihl ihr => rw [pieces, ihl, ihr, place]

theorem text_eq (dual : Bool) (e : Expr) : e.text dual = (e.pieces dual none).1.text := by
  rw [text, render_eq]

theorem text_leaf (dual : Bool) (x : Leaf) : text dual (.leaf x) = leafText dual x := by
  rw [text_eq, pieces]

theorem text_shared (dual : Bool) (id : Int) : text dual (.shared id) = sharedName id := by
  rw [text_eq, pieces]

theorem text_operation (dual : Bool) (op : Op) (l r : Expr) :
    text dual (.operation op l r) = operationText op (l.text dual) (r.text dual) := by
  simp only [text_eq, pieces, pieces_none, place, join]

end Expr

/-! ## Sketches -/

/-- An expression in which temporaries may stand for parts. -/
inductive Sketch where
  | leaf (x : Leaf)
  | shared (id : Int)
  | temporary (index : Nat)
  | operation (op : Op) (lhs rhs : Sketch)

namespace Sketch

def text (dual : Bool) : Sketch → String
  | .leaf x => Expr.leafText dual x
  | .shared id => Expr.sharedName id
  | .temporary k => Expr.temporaryName k
  | .operation op l r => Expr.operationText op (l.text dual) (r.text dual)

/-- How deep operations are nested. -/
def depth : Sketch → Nat
  | .leaf _ | .shared _ | .temporary _ => 0
  | .operation _ l r => max l.depth r.depth + 1

/-- All temporaries have indices below the bound. -/
def Below (n : Nat) : Sketch → Prop
  | .leaf _ | .shared _ => True
  | .temporary k => k < n
  | .operation _ l r => l.Below n ∧ r.Below n

/-- The expression as a sketch without temporaries. -/
def ofExpr : Expr → Sketch
  | .leaf x => .leaf x
  | .shared id => .shared id
  | .operation op l r => .operation op (ofExpr l) (ofExpr r)

/-- Puts a definition in the place of a temporary. -/
def inline : Sketch → Nat → Sketch → Sketch
  | .leaf x, _, _ => .leaf x
  | .shared id, _, _ => .shared id
  | .temporary k, index, definition => if k = index then definition else .temporary k
  | .operation op l r, index, definition =>
    .operation op (l.inline index definition) (r.inline index definition)

/-- Puts all definitions in place, last one first. -/
def inlineAll (definitions : List Sketch) (s : Sketch) : Sketch :=
  definitions.zipIdx.foldr (fun d s => s.inline d.2 d.1) s

theorem text_ofExpr (dual : Bool) (e : Expr) : (ofExpr e).text dual = e.text dual := by
  induction e with
  | leaf x => rw [ofExpr, text, Expr.text_leaf]
  | shared id => rw [ofExpr, text, Expr.text_shared]
  | operation op l r ihl ihr => rw [ofExpr, text, Expr.text_operation, ihl, ihr]

theorem Below.mono {m n : Nat} {s : Sketch} (h : s.Below m) (hmn : m ≤ n) : s.Below n := by
  induction s with
  | leaf x => trivial
  | shared id => trivial
  | temporary k => exact Nat.lt_of_lt_of_le h hmn
  | operation op l r ihl ihr => exact ⟨ihl h.1, ihr h.2⟩

theorem inline_of_below {n k : Nat} {d s : Sketch} (h : s.Below n) (hk : n ≤ k) :
    s.inline k d = s := by
  induction s with
  | leaf x => rfl
  | shared id => rfl
  | temporary j =>
    have hj : j < n := h
    exact if_neg (by omega)
  | operation op l r ihl ihr => rw [inline, ihl h.1, ihr h.2]

theorem Below.inline {n : Nat} {d s : Sketch} (h : s.Below (n + 1)) (hd : d.Below n) :
    (s.inline n d).Below n := by
  induction s with
  | leaf x => trivial
  | shared id => trivial
  | temporary j =>
    have hj : j < n + 1 := h
    rw [Sketch.inline]
    split
    · exact hd
    · exact show j < n by omega
  | operation op l r ihl ihr => exact ⟨ihl h.1, ihr h.2⟩

theorem inlineAll_append (ds : List Sketch) (d s : Sketch) :
    inlineAll (ds ++ [d]) s = inlineAll ds (s.inline ds.length d) := by
  rw [inlineAll, List.zipIdx_append, List.foldr_append]
  simp [inlineAll]

/-- Later definitions do not matter to a sketch that refers to earlier ones only. -/
theorem inlineAll_of_prefix {ds ds' : List Sketch} {s : Sketch} (h : ds <+: ds')
    (hs : s.Below ds.length) : inlineAll ds' s = inlineAll ds s := by
  obtain ⟨more, rfl⟩ := h
  induction more using List.reverseRecOn with
  | nil => rw [List.append_nil]
  | append_singleton more d ih =>
    rw [← List.append_assoc, inlineAll_append, inline_of_below hs (by simp), ih]

theorem inlineAll_operation (ds : List Sketch) (op : Op) (x y : Sketch) :
    inlineAll ds (.operation op x y) = .operation op (inlineAll ds x) (inlineAll ds y) := by
  induction ds using List.reverseRecOn generalizing x y with
  | nil => rfl
  | append_singleton ds d ih => simp only [inlineAll_append, inline, ih]

theorem inlineAll_leaf (ds : List Sketch) (x : Leaf) : inlineAll ds (.leaf x) = .leaf x :=
  inlineAll_of_prefix (List.nil_prefix) trivial

theorem inlineAll_shared (ds : List Sketch) (id : Int) : inlineAll ds (.shared id) = .shared id :=
  inlineAll_of_prefix (List.nil_prefix) trivial

/-- Every definition is nested as deep as is allowed, and refers to earlier ones only. -/
def Defined (ds : List Sketch) : Prop :=
  ∀ (k : Nat) (d : Sketch), ds[k]? = some d → d.depth = maxNesting ∧ d.Below k

theorem Defined.of_append {ds more : List Sketch} (h : Defined (ds ++ more)) : Defined ds :=
  fun k d hk => h k d (by
    rw [List.getElem?_append_left (List.getElem?_eq_some_iff.1 hk).1, hk])

/-- A member of a longer list is the last one, or a member of the list before. -/
theorem getElem?_append_singleton {α : Type} {xs : List α} {x y : α} {k : Nat}
    (h : (xs ++ [x])[k]? = some y) : xs[k]? = some y ∨ k = xs.length ∧ y = x := by
  rcases Nat.lt_or_ge k xs.length with hlt | hge
  · rw [List.getElem?_append_left hlt] at h
    exact .inl h
  · rw [List.getElem?_append_right hge, List.getElem?_singleton] at h
    split at h
    · cases h
      exact .inr ⟨by omega, rfl⟩
    · cases h

theorem Defined.append {ds : List Sketch} {d : Sketch} (h : Defined ds)
    (hdepth : d.depth = maxNesting) (hd : d.Below ds.length) : Defined (ds ++ [d]) := by
  intro k d' hk
  rcases getElem?_append_singleton hk with hk | ⟨rfl, rfl⟩
  · exact h k d' hk
  · exact ⟨hdepth, hd⟩

end Sketch

/-! ## Cutting -/

namespace Expr

open Sketch

/-- The sketch of an expression, with the definitions of new temporaries appended to those given. -/
def cut : Expr → List Sketch → Sketch × List Sketch
  | .leaf x, ds => (.leaf x, ds)
  | .shared id, ds => (.shared id, ds)
  | .operation op l r, ds =>
    let x := l.cut ds
    let y := r.cut x.2
    let s := Sketch.operation op x.1 y.1
    if maxNesting ≤ s.depth then (.temporary y.2.length, y.2 ++ [s]) else (s, y.2)

/-- The lines that assign the definitions to their temporaries. -/
def lines (dual : Bool) (ds : List Sketch) : List String :=
  ds.mapIdx fun k d => assignment k (d.text dual)

theorem lines_append (dual : Bool) (ds : List Sketch) (d : Sketch) :
    lines dual (ds ++ [d]) = lines dual ds ++ [assignment ds.length (d.text dual)] := by
  simp [lines, List.mapIdx_append]

theorem length_lines (dual : Bool) (ds : List Sketch) : (lines dual ds).length = ds.length :=
  List.length_mapIdx

theorem pieces_lines (dual : Bool) (e : Expr) (ds : List Sketch) :
    e.pieces dual (some (lines dual ds).toArray) =
      (⟨(e.cut ds).1.text dual, (e.cut ds).1.depth⟩, some (lines dual (e.cut ds).2).toArray) := by
  induction e generalizing ds with
  | leaf x => rfl
  | shared id => rfl
  | operation op l r ihl ihr =>
    have hjoin (x y : Sketch) : join op ⟨x.text dual, x.depth⟩ ⟨y.text dual, y.depth⟩ =
        ⟨(Sketch.operation op x y).text dual, (Sketch.operation op x y).depth⟩ := rfl
    simp only [pieces, ihl, ihr, hjoin, place, cut]
    split
    · simp only [List.size_toArray, length_lines, List.push_toArray, lines_append]
      rfl
    · rfl

/-- What is rendered is the text of the sketch and of the definitions. -/
theorem textWith_lines (dual : Bool) (e : Expr) (ds : List Sketch) :
    e.textWith dual
      (lines dual ds).toArray = ((e.cut ds).1.text dual, (lines dual (e.cut ds).2).toArray) := by
  rw [textWith, render_eq, pieces_lines]
  rfl

theorem textWith_eq (dual : Bool) (e : Expr) :
    e.textWith dual #[] = ((e.cut []).1.text dual, (lines dual (e.cut []).2).toArray) :=
  textWith_lines dual e []

/-- What cutting an expression makes of the definitions so far. -/
structure Cut (e : Expr) (ds : List Sketch) (s : Sketch) (ds' : List Sketch) : Prop where
  grows : ds <+: ds'
  defined : Defined ds'
  depth_lt : s.depth < maxNesting
  below : s.Below ds'.length
  restored : inlineAll ds' s = ofExpr e

theorem cut_spec (e : Expr) {ds : List Sketch} (h : Defined ds) :
    Cut e ds (e.cut ds).1 (e.cut ds).2 := by
  induction e generalizing ds with
  | leaf x => exact ⟨List.prefix_rfl, h, maxNesting_pos, trivial, inlineAll_leaf ds x⟩
  | shared id => exact ⟨List.prefix_rfl, h, maxNesting_pos, trivial, inlineAll_shared ds id⟩
  | operation op l r ihl ihr =>
    have hl := ihl h
    have hr := ihr hl.defined
    -- the left operand was cut before the definitions of the right one were added
    have hbelow : (Sketch.operation op (l.cut ds).1 (r.cut (l.cut ds).2).1).Below
        (r.cut (l.cut ds).2).2.length :=
      ⟨hl.below.mono hr.grows.length_le, hr.below⟩
    have hrestored :
        inlineAll (r.cut (l.cut ds).2).2 (.operation op (l.cut ds).1 (r.cut (l.cut ds).2).1) =
        ofExpr (.operation op l r) := by
      rw [inlineAll_operation, inlineAll_of_prefix hr.grows hl.below, hl.restored,
        hr.restored, ofExpr]
    have hdepths := hl.depth_lt
    have hdepths' := hr.depth_lt
    rw [cut]
    split
    case isTrue hdeep =>
      have hdepth : (Sketch.operation op (l.cut ds).1 (r.cut (l.cut ds).2).1).depth =
          maxNesting := by
        rw [Sketch.depth] at hdeep ⊢
        omega
      refine ⟨(hl.grows.trans hr.grows).trans (List.prefix_append _ _),
        hr.defined.append hdepth hbelow, maxNesting_pos, ?_, ?_⟩
      · simp [Sketch.Below]
      · rw [inlineAll_append, Sketch.inline, if_pos rfl, hrestored]
    case isFalse hflat =>
      exact ⟨hl.grows.trans hr.grows, hr.defined, Nat.lt_of_not_le hflat, hbelow, hrestored⟩

end Expr

end AirCompiler
