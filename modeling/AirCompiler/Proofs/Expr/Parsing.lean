import AirCompiler.Proofs.Expr.Temporaries
import AirCompiler.Proofs.Text.Decimal

/-!
# Reading expressions off their texts

No two expressions have the same text (`Expr.text_injective`). A text can be read from the front:
its first characters tell the kind of the expression, and where it ends does not depend on what
comes after, as long as that is not a digit (`Expr.text_append_inj`).
-/

namespace AirCompiler

open Text

/-! ## Characters of texts -/

/-- The character of an operation. -/
def Op.sign : Op → Char
  | .add => '+'
  | .mul => '*'

theorem Op.sign_injective {op op' : Op} (h : op.sign = op'.sign) : op = op' := by
  revert h
  cases op <;> cases op' <;> decide

theorem Base.toList_source (a : Base) :
    a.source.toList = "BFieldElement(".toList ++ (Nat.toDigits 10 a.val ++ [')']) := by
  have h : a.source = "BFieldElement(" ++ toString a.val ++ ")" := rfl
  rw [h, String.toList_append, String.toList_append, toList_toString_nat, List.append_assoc]
  rfl

theorem Ext.toList_source (x : Ext) :
    x.source.toList = "XFieldElement((".toList ++ (Nat.toDigits 10 x.c0.val ++ ',' :: ' ' ::
      (Nat.toDigits 10 x.c1.val ++ ',' :: ' ' :: (Nat.toDigits 10 x.c2.val ++ [')', ')']))) := by
  have h : x.source = "XFieldElement((" ++ toString x.c0.val ++ ", " ++ toString x.c1.val ++ ", " ++
    toString x.c2.val ++ "))" := rfl
  simp only [h, String.toList_append, toList_toString_nat, List.append_assoc]
  rfl

namespace Expr

/-- The name of a row up to the index, in code for two rows. -/
def rowHead : Row → Table → String
  | .current, .main => "current_main_row["
  | .current, .aux => "current_aux_row["
  | .next, .main => "next_main_row["
  | .next, .aux => "next_aux_row["

theorem rowName_append (row : Row) (table : Table) :
    rowName true row table ++ "[" = rowHead row table := by
  cases row <;> cases table <;> decide

theorem toList_input (dual : Bool) (c : Cell) :
    (leafText dual (.input c)).toList = (rowName dual c.row c.table ++ "[").toList ++
      (signed c.column ++ [']']) := by
  have h : leafText dual (.input c) = rowName dual c.row c.table ++ "[" ++
    toString c.column ++ "]" := rfl
  rw [h, String.toList_append, String.toList_append, toList_toString_int, List.append_assoc]
  rfl

theorem toList_challenge (dual : Bool) (i : Int) :
    (leafText dual (.challenge i)).toList = "challenges[".toList ++ (signed i ++ [']']) := by
  have h : leafText dual (.challenge i) = "challenges[" ++ toString i ++ "]" := rfl
  rw [h, String.toList_append, String.toList_append, toList_toString_int, List.append_assoc]
  rfl

theorem toList_sharedName (id : Int) : (sharedName id).toList = "node_".toList ++ signed id := by
  have h : sharedName id = "node_" ++ toString id := rfl
  rw [h, String.toList_append, toList_toString_int]

theorem toList_operationText (op : Op) (x y : String) :
    (operationText op x y).toList =
      '(' :: (x.toList ++ ' ' :: op.sign :: ' ' :: (y.toList ++ [')'])) := by
  have h : operationText op x y = "(" ++ x ++ " " ++ op.symbol ++ " " ++ y ++ ")" := rfl
  have hsymbol : op.symbol.toList = [op.sign] := by cases op <;> rfl
  simp only [h, String.toList_append, hsymbol, List.append_assoc]
  rfl

/-! ## Kinds -/

/-- The kinds of expressions that the first characters of their texts tell apart. -/
inductive Kind where
  | base
  | ext
  | input
  | challenge
  | shared
  | operation

def kind : Expr → Kind
  | .leaf (.constant (.base _)) => .base
  | .leaf (.constant (.ext _)) => .ext
  | .leaf (.input _) => .input
  | .leaf (.challenge _) => .challenge
  | .shared _ => .shared
  | .operation .. => .operation

/-- The kind of the expression whose text comes first. -/
def kindOf : List Char → Option Kind
  | 'B' :: _ => some .base
  | 'X' :: _ => some .ext
  | '(' :: _ => some .operation
  | 'c' :: 'h' :: _ => some .challenge
  | 'n' :: 'o' :: _ => some .shared
  | 'c' :: _ | 'n' :: _ => some .input
  | _ => none

theorem kindOf_text (e : Expr) (rest : List Char) :
    kindOf ((e.text true).toList ++ rest) = some e.kind := by
  cases e with
  | leaf x =>
    rw [text_leaf]
    cases x with
    | constant s =>
      cases s with
      | base a =>
        rw [show leafText true (.constant (.base a)) = a.source from rfl, Base.toList_source]; rfl
      | ext x =>
        rw [show leafText true (.constant (.ext x)) = x.source from rfl, Ext.toList_source]; rfl
    | input c =>
      obtain ⟨row, table, column⟩ := c
      rw [toList_input, rowName_append]
      cases row <;> cases table <;> simp only [rowHead] <;> rfl
    | challenge i => rw [toList_challenge]; rfl
  | shared id => rw [text_shared, toList_sharedName]; rfl
  | operation op l r => rw [text_operation, toList_operationText]; rfl

theorem kind_eq_of_append {e e' : Expr} {rest rest' : List Char}
    (h : (e.text true).toList ++ rest = (e'.text true).toList ++ rest') : e.kind = e'.kind := by
  rw [← Option.some.injEq, ← kindOf_text, h, kindOf_text]

/-! ## Leaves -/

theorem base_append_inj {a b : Base} {rest rest' : List Char}
    (h : a.source.toList ++ rest = b.source.toList ++ rest') : a = b ∧ rest = rest' := by
  simp only [Base.toList_source, List.append_assoc] at h
  obtain ⟨hval, hrest⟩ := toDigits_append_inj (by simp) (by simp) (List.append_cancel_left h)
  exact ⟨Base.ext hval, (List.cons.inj hrest).2⟩

theorem ext_append_inj {x y : Ext} {rest rest' : List Char}
    (h : x.source.toList ++ rest = y.source.toList ++ rest') : x = y ∧ rest = rest' := by
  simp only [Ext.toList_source, List.append_assoc, List.cons_append] at h
  obtain ⟨h₀, h⟩ := toDigits_append_inj (by simp) (by simp) (List.append_cancel_left h)
  obtain ⟨h₁, h⟩ := toDigits_append_inj (by simp) (by simp) (List.cons.inj (List.cons.inj h).2).2
  obtain ⟨h₂, h⟩ := toDigits_append_inj (by simp) (by simp) (List.cons.inj (List.cons.inj h).2).2
  exact ⟨Ext.ext (Base.ext h₀) (Base.ext h₁) (Base.ext h₂), (List.cons.inj (List.cons.inj h).2).2⟩

/-- The first thirteen characters tell the four rows apart. -/
theorem rowHead_append_inj {row row' : Row} {table table' : Table} {rest rest' : List Char}
    (h : (rowHead row table).toList ++ rest = (rowHead row' table').toList ++ rest') :
    row = row' ∧ table = table' ∧ rest = rest' := by
  have hlength (row : Row) (table : Table) : 13 ≤ (rowHead row table).toList.length := by
    cases row <;> cases table <;> decide
  have htake := congrArg (List.take 13) h
  rw [List.take_append_of_le_length (hlength _ _),
    List.take_append_of_le_length (hlength _ _)] at htake
  have hsame : row = row' ∧ table = table' := by
    revert htake
    cases row <;> cases row' <;> cases table <;> cases table' <;> decide
  obtain ⟨rfl, rfl⟩ := hsame
  exact ⟨rfl, rfl, List.append_cancel_left h⟩

theorem bracket_append_inj {i j : Int} {rest rest' : List Char}
    (h : signed i ++ ']' :: rest = signed j ++ ']' :: rest') : i = j ∧ rest = rest' :=
  (signed_append_inj (by simp) (by simp) h).imp_right fun h => (List.cons.inj h).2

theorem leaf_append_inj {x y : Leaf} {rest rest' : List Char}
    (hkind : kind (.leaf x) = kind (.leaf y))
    (h : (leafText true x).toList ++ rest = (leafText true y).toList ++ rest') :
    x = y ∧ rest = rest' := by
  cases x with
  | constant s =>
    cases y with
    | constant t =>
      cases s with
      | base a =>
        cases t with
        | base b => exact (base_append_inj h).imp_left fun h => by rw [h]
        | ext y => cases hkind
      | ext x =>
        cases t with
        | base b => cases hkind
        | ext y => exact (ext_append_inj h).imp_left fun h => by rw [h]
    | input c => cases s <;> cases hkind
    | challenge i => cases s <;> cases hkind
  | input c =>
    cases y with
    | constant t => cases t <;> cases hkind
    | input c' =>
      obtain ⟨row, table, column⟩ := c
      obtain ⟨row', table', column'⟩ := c'
      simp only [toList_input, rowName_append, List.append_assoc, List.cons_append,
        List.nil_append] at h
      obtain ⟨rfl, rfl, hcolumn⟩ := rowHead_append_inj h
      exact (bracket_append_inj hcolumn).imp_left fun h => by rw [h]
    | challenge i => cases hkind
  | challenge i =>
    cases y with
    | constant t => cases t <;> cases hkind
    | input c => cases hkind
    | challenge j =>
      simp only [toList_challenge, List.append_assoc, List.cons_append, List.nil_append] at h
      exact (bracket_append_inj (List.append_cancel_left h)).imp_left fun h => by rw [h]

theorem kind_leaf_ne (x : Leaf) : kind (.leaf x) ≠ .shared ∧ kind (.leaf x) ≠ .operation := by
  rcases x with (a | x) | c | i <;> exact ⟨by simp [kind], by simp [kind]⟩

/-! ## Expressions -/

/-- A text at the front ends where it ends, whatever comes after it but a digit. -/
theorem text_append_inj {e e' : Expr} {rest rest' : List Char} (hr : Stops rest) (hr' : Stops rest')
    (h : (e.text true).toList ++ rest = (e'.text true).toList ++ rest') :
    e = e' ∧ rest = rest' := by
  induction e generalizing e' rest rest' with
  | leaf x =>
    have hkind := kind_eq_of_append h
    cases e' with
    | leaf y =>
      rw [text_leaf, text_leaf] at h
      exact (leaf_append_inj hkind h).imp_left fun h => by rw [h]
    | shared id => exact absurd hkind (kind_leaf_ne x).1
    | operation op l r => exact absurd hkind (kind_leaf_ne x).2
  | shared id =>
    have hkind := kind_eq_of_append h
    cases e' with
    | leaf y => exact absurd hkind.symm (kind_leaf_ne y).1
    | shared id' =>
      simp only [text_shared, toList_sharedName, List.append_assoc] at h
      exact (signed_append_inj hr hr' (List.append_cancel_left h)).imp_left fun h => by rw [h]
    | operation op l r => cases hkind
  | operation op l r ihl ihr =>
    have hkind := kind_eq_of_append h
    cases e' with
    | leaf y => exact absurd hkind.symm (kind_leaf_ne y).2
    | shared id => cases hkind
    | operation op' l' r' =>
      simp only [text_operation, toList_operationText, List.cons_append, List.append_assoc,
        List.nil_append] at h
      obtain ⟨rfl, hsign⟩ := ihl (by simp) (by simp) (List.cons.inj h).2
      obtain ⟨hop, hspace⟩ := List.cons.inj (List.cons.inj hsign).2
      obtain ⟨rfl, hclose⟩ := ihr (by simp) (by simp) (List.cons.inj hspace).2
      exact ⟨by rw [Op.sign_injective hop], (List.cons.inj hclose).2⟩

/-- Expressions with the same text are the same. -/
theorem text_injective {e e' : Expr} (h : e.text true = e'.text true) : e = e' := by
  refine (text_append_inj stops_nil stops_nil ?_).1
  rw [h]

end Expr

end AirCompiler
