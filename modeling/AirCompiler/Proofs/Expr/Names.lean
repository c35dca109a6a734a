import AirCompiler.Proofs.Expr.Rendering

/-!
# Names in texts

Generated code refers to shared nodes and to temporaries by names. `Text.names` reads a text as code
is read: it lists the words that are such names, a word being as long a run of letters, digits and
underscores as there is.

* `Sketch.names_text`: the names in the text of a sketch are those of the nodes and temporaries that
  stand in the sketch.
* `Expr.cut_refersTo`: cutting an expression brings in no nodes, in the sketch or in definitions.
* `Sketch.mem_of_mem_names`: so the names in a sketch are those of earlier temporaries and of nodes
  of the expression.
-/

namespace AirCompiler

namespace Text

/-! ## Words -/

def isWordChar (c : Char) : Bool := c.isAlphanum || c = '_'

/-- A word that names a shared node or a temporary. -/
def isName (word : List Char) : Bool :=
  "node_".toList.isPrefixOf word || "tmp_".toList.isPrefixOf word

def namesIn (xs : List Char) : List String :=
  ((xs.splitOnP fun c => !isWordChar c).filter isName).map String.ofList

/-- The names of shared nodes and temporaries in a text, from left to right. -/
def names (s : String) : List String := namesIn s.toList

example : names "((node_12 + next_main_row[3]) * (tmp_0 + XFieldElement((1, 2, 3))))" =
    ["node_12", "tmp_0"] := by decide +kernel

/-- No word goes across a character that belongs to none. -/
theorem namesIn_append_cons {c : Char} (hc : isWordChar c = false) (xs ys : List Char) :
    namesIn (xs ++ c :: ys) = namesIn xs ++ namesIn ys := by
  rw [namesIn, List.splitOnP_append_cons xs ys (by simp [hc]), List.filter_append, List.map_append]
  rfl

theorem namesIn_cons {c : Char} (hc : isWordChar c = false) (xs : List Char) :
    namesIn (c :: xs) = namesIn xs :=
  namesIn_append_cons hc [] xs

theorem mem_of_mem_splitOnP {p : Char → Bool} {xs word : List Char} (h : word ∈ xs.splitOnP p)
    {c : Char} (hc : c ∈ word) : c ∈ xs := by
  induction xs generalizing word with
  | nil => simp_all
  | cons x xs ih =>
    rw [List.splitOnP_cons_eq_if_modifyHead] at h
    split at h
    · rcases List.mem_cons.1 h with rfl | h
      · cases hc
      · exact List.mem_cons_of_mem x (ih h hc)
    · cases hs : xs.splitOnP p with
      | nil => simp [hs] at h
      | cons first rest =>
        rw [hs, List.modifyHead_cons] at h
        rcases List.mem_cons.1 h with rfl | h
        · rcases List.mem_cons.1 hc with rfl | hc
          · exact List.mem_cons_self
          · exact List.mem_cons_of_mem x (ih (by simp [hs]) hc)
        · exact List.mem_cons_of_mem x (ih (by simp [hs, h]) hc)

/-- Every name has an underscore. -/
theorem namesIn_of_not_mem {xs : List Char} (h : '_' ∉ xs) : namesIn xs = [] := by
  rw [namesIn, List.map_eq_nil_iff, List.filter_eq_nil_iff]
  intro word hword hname
  rw [isName, Bool.or_eq_true, List.isPrefixOf_iff_prefix, List.isPrefixOf_iff_prefix] at hname
  refine h (mem_of_mem_splitOnP hword ?_)
  rcases hname with hname | hname <;> exact hname.subset (by decide)

/-- A name by itself. -/
theorem namesIn_of_isName {xs : List Char} (hword : ∀ c ∈ xs, isWordChar c = true)
    (hname : isName xs = true) : namesIn xs = [.ofList xs] := by
  rw [namesIn, List.splitOnP_eq_singleton fun c hc => by simp [hword c hc]]
  simp [hname]

theorem isWordChar_of_mem_toDigits {n : Nat} {c : Char} (h : c ∈ Nat.toDigits 10 n) :
    isWordChar c = true := by
  simp [isWordChar, Char.isAlphanum, isDigit_of_mem_toDigits h]

end Text

open Text

/-! ## Names of leaves -/

namespace Expr

theorem namesIn_leafText (dual : Bool) (x : Leaf) : namesIn (leafText dual x).toList = [] := by
  have hdigits (n : Nat) : '_' ∉ Nat.toDigits 10 n := not_mem_toDigits (by decide)
  have hsigned (i : Int) : '_' ∉ signed i := not_mem_signed (by decide) (by decide)
  rcases x with (a | x) | c | i
  · rw [show leafText dual (.constant (.base a)) = a.source from rfl, Base.toList_source]
    exact namesIn_of_not_mem (by simp [hdigits])
  · rw [show leafText dual (.constant (.ext x)) = x.source from rfl, Ext.toList_source]
    exact namesIn_of_not_mem (by simp [hdigits])
  · -- the name of a row has underscores, but is another one
    have hrow : namesIn (rowName dual c.row c.table).toList = [] := by
      cases dual <;> cases c.row <;> cases c.table <;> decide +kernel
    rw [toList_input, String.toList_append, List.append_assoc]
    show namesIn ((rowName dual c.row c.table).toList ++ '[' :: (signed c.column ++ [']'])) = []
    rw [namesIn_append_cons (by decide), hrow, namesIn_of_not_mem (by simp [hsigned]),
      List.append_nil]
  · rw [toList_challenge]
    exact namesIn_of_not_mem (by simp [hsigned])

/-! ## Names of nodes and temporaries -/

theorem names_temporaryName (k : Nat) : names (temporaryName k) = [temporaryName k] := by
  have hword : ∀ c ∈ nameChars k, isWordChar c = true := by
    simp only [nameChars, List.forall_mem_cons]
    exact ⟨by decide, by decide, by decide, by decide, fun c => isWordChar_of_mem_toDigits⟩
  rw [names, namesIn_of_isName, String.ofList_toList]
  · rwa [toList_temporaryName]
  · simp [toList_temporaryName, nameChars, isName]

theorem names_sharedName {id : Int} (h : 0 ≤ id) : names (sharedName id) = [sharedName id] := by
  obtain ⟨n, rfl⟩ := Int.eq_ofNat_of_zero_le h
  have hlist : (sharedName n).toList = 'n' :: 'o' :: 'd' :: 'e' :: '_' :: Nat.toDigits 10 n :=
    toList_sharedName n
  have hword : ∀ c ∈ 'n' :: 'o' :: 'd' :: 'e' :: '_' :: Nat.toDigits 10 n, isWordChar c = true := by
    simp only [List.forall_mem_cons]
    exact ⟨by decide, by decide, by decide, by decide, by decide,
      fun c => isWordChar_of_mem_toDigits⟩
  rw [names, namesIn_of_isName, String.ofList_toList]
  · rwa [hlist]
  · simp [hlist, isName]

theorem temporaryName_injective : Function.Injective temporaryName := by
  intro j k h
  have hchars : nameChars j = nameChars k := by rw [← toList_temporaryName, h, toList_temporaryName]
  simp only [nameChars, List.cons.injEq, true_and] at hchars
  exact toDigits_injective hchars

theorem sharedName_injective : Function.Injective sharedName := by
  intro i j h
  have hchars : "node_".toList ++ signed i = "node_".toList ++ signed j := by
    rw [← toList_sharedName, h, toList_sharedName]
  refine (signed_append_inj stops_nil stops_nil ?_).1
  rw [List.append_cancel_left hchars]

theorem temporaryName_ne_sharedName (k : Nat) (id : Int) : temporaryName k ≠ sharedName id := by
  intro h
  have hchars : nameChars k = "node_".toList ++ signed id := by
    rw [← toList_temporaryName, h, toList_sharedName]
  exact absurd (List.cons.inj hchars).1 (by decide)

/-! ## Nodes that are referred to -/

/-- All nodes that an expression refers to satisfy a predicate. -/
def RefersTo (P : Int → Prop) : Expr → Prop
  | .leaf _ => True
  | .shared id => P id
  | .operation _ l r => l.RefersTo P ∧ r.RefersTo P

end Expr

namespace Sketch

def RefersTo (P : Int → Prop) : Sketch → Prop
  | .leaf _ | .temporary _ => True
  | .shared id => P id
  | .operation _ l r => l.RefersTo P ∧ r.RefersTo P

/-- The names of the nodes and temporaries in a sketch, from left to right. -/
def names : Sketch → List String
  | .leaf _ => []
  | .shared id => [Expr.sharedName id]
  | .temporary k => [Expr.temporaryName k]
  | .operation _ l r => l.names ++ r.names

variable {P Q : Int → Prop} {s : Sketch}

theorem RefersTo.mono (h : s.RefersTo P) (hPQ : ∀ id, P id → Q id) : s.RefersTo Q := by
  induction s with
  | leaf x => trivial
  | temporary k => trivial
  | shared id => exact hPQ id h
  | operation op l r ihl ihr => exact ⟨ihl h.1, ihr h.2⟩

/-- The names in the text of a sketch are those in the sketch. -/
theorem names_text (dual : Bool) (h : s.RefersTo fun id => 0 ≤ id) :
    Text.names (s.text dual) = s.names := by
  induction s with
  | leaf x => exact Expr.namesIn_leafText dual x
  | shared id => exact Expr.names_sharedName h
  | temporary k => exact Expr.names_temporaryName k
  | operation op l r ihl ihr =>
    have hsign : isWordChar op.sign = false := by cases op <;> decide
    have hr : namesIn ((r.text dual).toList ++ [')']) = r.names := by
      rw [namesIn_append_cons (by decide), ← ihr h.2]
      exact List.append_nil _
    rw [text, Text.names, Expr.toList_operationText, namesIn_cons (by decide),
      namesIn_append_cons (by decide),
      namesIn_cons hsign, namesIn_cons (by decide), hr, names, ← ihl h.1]
    rfl

/-- A sketch names no more than the temporaries and nodes that it may refer to. -/
theorem mem_of_mem_names {n : Nat} {ids : List Int} (hbelow : s.Below n)
    (hrefers : s.RefersTo (· ∈ ids)) {name : String} (hname : name ∈ s.names) :
    name ∈ (List.range n).map Expr.temporaryName ++ ids.map Expr.sharedName := by
  induction s with
  | leaf x => cases hname
  | shared id =>
    rw [List.mem_singleton.1 hname]
    exact List.mem_append_right _ (List.mem_map_of_mem hrefers)
  | temporary k =>
    rw [List.mem_singleton.1 hname]
    exact List.mem_append_left _ (List.mem_map_of_mem (List.mem_range.2 hbelow))
  | operation op l r ihl ihr =>
    rcases List.mem_append.1 hname with hname | hname
    · exact ihl hbelow.1 hrefers.1 hname
    · exact ihr hbelow.2 hrefers.2 hname

end Sketch

/-- Cutting an expression brings in no nodes, neither in the sketch nor in a definition. -/
theorem Expr.cut_refersTo {P : Int → Prop} {e : Expr} (he : e.RefersTo P) {ds : List Sketch}
    (hds : ∀ d ∈ ds, d.RefersTo P) :
    (e.cut ds).1.RefersTo P ∧ ∀ d ∈ (e.cut ds).2, d.RefersTo P := by
  induction e generalizing ds with
  | leaf x => exact ⟨trivial, hds⟩
  | shared id => exact ⟨he, hds⟩
  | operation op l r ihl ihr =>
    obtain ⟨hl, hds⟩ := ihl he.1 hds
    obtain ⟨hr, hds⟩ := ihr he.2 hds
    rw [cut]
    split
    · refine ⟨trivial, fun d hd => ?_⟩
      rcases List.mem_append.1 hd with hd | hd
      · exact hds d hd
      · rw [List.mem_singleton.1 hd]
        exact ⟨hl, hr⟩
    · exact ⟨⟨hl, hr⟩, hds⟩

end AirCompiler
