import AirCompiler.Proofs.Expr.Parsing

/-!
# Texts with temporaries

A text with temporaries loses nothing and is nested less than `maxNesting` deep
(`Expr.textWith_faithful`). Texts are looked at character by character:

* `Text.replace`: replaces a name wherever it occurs. In the text of a sketch this puts a definition
  in the place of a temporary (`Sketch.replace_text`), provided that the temporaries of higher index
  are gone: `tmp_1` also occurs in `tmp_10`.
* `Text.Mentions`: a name occurs as a whole. The letter `p` stands in no text but in names of
  temporaries, so wherever it occurs a name does (`Sketch.marked_text`).
* `Text.nesting`: the depth of the parentheses that do not belong to a call.
-/

namespace AirCompiler

namespace Text

/-! ## Names in texts -/

/-- Replaces a name wherever it occurs, from the left. What was put in is not searched again. -/
def replaceChars (name text : List Char) : List Char → List Char
  | [] => []
  | c :: cs =>
    if name.isPrefixOf (c :: cs) then text ++ replaceChars name text (cs.drop (name.length - 1))
    else c :: replaceChars name text cs
termination_by s => s.length
decreasing_by
  · simp only [List.length_drop, List.length_cons]
    omega
  · simp

def replace (name text s : String) : String :=
  .ofList (replaceChars name.toList text.toList s.toList)

/-- Puts texts in the place of the temporaries that they are assigned to, last one first. -/
def inlineTexts (texts : List String) (s : String) : String :=
  texts.zipIdx.foldr (fun t s => replace (Expr.temporaryName t.2) t.1 s) s

/-- The name of a temporary occurs, and no digit comes after it. -/
def Mentions (s : String) (index : Nat) : Prop :=
  ∃ before after, s.toList = before ++ (Expr.temporaryName index).toList ++ after ∧ Stops after

/-! ## Nesting -/

/-- Where a scan stands: outside of calls, after a word or not, or inside a call, with more of its
parentheses open. -/
inductive Site where
  | outside (word : Bool)
  | call (inner : Nat)

/-- The parentheses of operations that are open, and the most that were. -/
structure Scan where
  site : Site
  depth : Nat
  deepest : Nat

/-- Reads a character. A parenthesis right after a word opens a call, and all up to its end belongs
to the call. -/
def Scan.step (s : Scan) (c : Char) : Scan :=
  match s.site with
  | .call n =>
    if c = '(' then { s with site := .call (n + 1) }
    else if c = ')' then { s with site := if n = 0 then .outside false else .call (n - 1) }
    else s
  | .outside word =>
    if c = '(' then
      if word then { s with site := .call 0 }
        else ⟨.outside false, s.depth + 1, max s.deepest (s.depth + 1)⟩
    else if c = ')' then ⟨.outside false, s.depth - 1, s.deepest⟩
    else { s with site := .outside c.isAlphanum }

/-- How deep the parentheses of operations are nested. -/
def nesting (s : String) : Nat := (s.toList.foldl Scan.step ⟨.outside false, 0, 0⟩).deepest

theorem foldl_step_call {xs : List Char} (hopen : '(' ∉ xs) (hclose : ')' ∉ xs)
    (n depth deepest : Nat) :
    xs.foldl Scan.step ⟨.call n, depth, deepest⟩ = ⟨.call n, depth, deepest⟩ := by
  induction xs with
  | nil => rfl
  | cons c xs ih =>
    simp only [List.mem_cons, not_or] at hopen hclose
    have hstep : Scan.step ⟨.call n, depth, deepest⟩ c = ⟨.call n, depth, deepest⟩ := by
      simp [Scan.step, Ne.symm hopen.1, Ne.symm hclose.1]
    rw [List.foldl_cons, hstep, ih hopen.2 hclose.2]

theorem exists_foldl_step_outside {xs : List Char} (hopen : '(' ∉ xs) (hclose : ')' ∉ xs)
    (word : Bool) (depth deepest : Nat) :
    ∃ word', xs.foldl Scan.step ⟨.outside word, depth, deepest⟩ =
      ⟨.outside word', depth, deepest⟩ := by
  induction xs generalizing word with
  | nil => exact ⟨word, rfl⟩
  | cons c xs ih =>
    simp only [List.mem_cons, not_or] at hopen hclose
    have hstep : Scan.step ⟨.outside word, depth, deepest⟩ c =
        ⟨.outside c.isAlphanum, depth, deepest⟩ := by
      simp [Scan.step, Ne.symm hopen.1, Ne.symm hclose.1]
    rw [List.foldl_cons, hstep]
    exact ih hopen.2 hclose.2 c.isAlphanum

/-! ## Names of temporaries -/

/-- The name of a temporary, as characters. -/
def nameChars (index : Nat) : List Char := 't' :: 'm' :: 'p' :: '_' :: Nat.toDigits 10 index

theorem toList_temporaryName (index : Nat) :
    (Expr.temporaryName index).toList = nameChars index := by
  have h : Expr.temporaryName index = "tmp_" ++ toString index := rfl
  rw [h, String.toList_append, toList_toString_nat]
  rfl

/-! ## Replacing -/

theorem replaceChars_append {name text xs rest : List Char}
    (h : ∀ ys, ys ≠ [] → ys <:+ xs → ¬ name <+: ys ++ rest) :
    replaceChars name text (xs ++ rest) = xs ++ replaceChars name text rest := by
  induction xs with
  | nil => rfl
  | cons c xs ih =>
    have hc : ¬ name.isPrefixOf (c :: (xs ++ rest)) := fun hp =>
      h (c :: xs) (by simp) List.suffix_rfl (List.isPrefixOf_iff_prefix.1 hp)
    rw [List.cons_append, replaceChars, if_neg hc,
      ih fun ys hne hys => h ys hne (hys.trans (List.suffix_cons c xs)), List.cons_append]

theorem replaceChars_append_of_not_mem {index : Nat} {text xs rest : List Char} (h : 't' ∉ xs) :
    replaceChars (nameChars index) text (xs ++ rest) =
      xs ++ replaceChars (nameChars index) text rest := by
  refine replaceChars_append fun ys hne hys hp => ?_
  cases ys with
  | nil => exact hne rfl
  | cons c ys =>
    rw [nameChars, List.cons_append, List.cons_prefix_cons] at hp
    obtain ⟨rfl, -⟩ := hp
    exact h (hys.subset List.mem_cons_self)

theorem replaceChars_cons {index : Nat} {text rest : List Char} {c : Char} (h : c ≠ 't') :
    replaceChars (nameChars index) text (c :: rest) =
      c :: replaceChars (nameChars index) text rest := by
  have hc : 't' ∉ [c] := by simpa using h.symm
  exact replaceChars_append_of_not_mem hc

theorem replaceChars_name (index : Nat) (text rest : List Char) :
    replaceChars (nameChars index) text (nameChars index ++ rest) =
      text ++ replaceChars (nameChars index) text rest := by
  have hp : (nameChars index).isPrefixOf (nameChars index ++ rest) :=
    List.isPrefixOf_iff_prefix.2 (List.prefix_append _ _)
  rw [nameChars, List.cons_append] at hp ⊢
  rw [replaceChars, if_pos hp]
  simp

/-- A name stays as it is when one of higher index is replaced. -/
theorem replaceChars_name_of_lt {index other : Nat} {text rest : List Char}
    (h : other < index) (hr : Stops rest) :
    replaceChars (nameChars index) text (nameChars other ++ rest) =
      nameChars other ++ replaceChars (nameChars index) text rest := by
  have hp :
      ¬ (nameChars index).isPrefixOf
        ('t' :: ('m' :: 'p' :: '_' :: Nat.toDigits 10 other ++ rest)) := by
    rw [List.isPrefixOf_iff_prefix, nameChars]
    simp only [List.cons_append, List.cons_prefix_cons, true_and]
    exact fun hp => Nat.not_le_of_lt h (le_of_prefix_toDigits hr hp)
  have ht : 't' ∉ 'm' :: 'p' :: '_' :: Nat.toDigits 10 other := by
    simpa using not_mem_toDigits (n := other) (c := 't') (by decide)
  rw [show nameChars other = 't' :: ('m' :: 'p' :: '_' :: Nat.toDigits 10 other) from rfl,
    List.cons_append, replaceChars, if_neg hp, replaceChars_append_of_not_mem ht]
  rfl

theorem inlineTexts_append (texts : List String) (t s : String) :
    inlineTexts (texts ++ [t]) s =
      inlineTexts texts (replace (Expr.temporaryName texts.length) t s) := by
  rw [inlineTexts, List.zipIdx_append, List.foldr_append]
  simp [inlineTexts]

/-! ## Mentions -/

/-- After every `p` comes the rest of the name of a temporary below the bound. -/
def Marked (n : Nat) (xs : List Char) : Prop :=
  ∀ before after, xs = before ++ 'p' :: after →
    ∃ k rest, k < n ∧ after = '_' :: (Nat.toDigits 10 k ++ rest) ∧ Stops rest

theorem marked_of_not_mem {n : Nat} {xs : List Char} (h : 'p' ∉ xs) : Marked n xs := by
  rintro before after rfl
  simp at h

theorem marked_name {k n : Nat} (h : k < n) : Marked n (nameChars k) := by
  intro before after heq
  have hp : 'p' ∉ Nat.toDigits 10 k := not_mem_toDigits (by decide)
  refine ⟨k, [], h, ?_, stops_nil⟩
  rcases before with _ | ⟨_, _ | ⟨_, _ | ⟨_, _ | ⟨_, before⟩⟩⟩⟩ <;>
    simp only [nameChars, List.cons_append, List.nil_append, List.cons.injEq] at heq
  · exact absurd heq.1 (by decide)
  · exact absurd heq.2.1 (by decide)
  · rw [← heq.2.2.2, List.append_nil]
  · exact absurd heq.2.2.2.1 (by decide)
  · simp [heq.2.2.2.2] at hp

theorem Marked.append {n : Nat} {xs ys : List Char} (hx : Marked n xs)
    (hy : Marked n ys) (hs : Stops ys) : Marked n (xs ++ ys) := by
  intro before after heq
  rcases List.append_eq_append_iff.1 heq with ⟨more, -, hys⟩ | ⟨more, hxs, hmore⟩
  · exact hy more after hys
  · cases more with
    | nil => exact hy [] after hmore.symm
    | cons c more =>
      obtain ⟨rfl, rfl⟩ := List.cons.inj hmore
      obtain ⟨k, rest, hk, rfl, hrest⟩ := hx before more hxs
      exact ⟨k, rest ++ ys, hk, by simp, hrest.append hs⟩

theorem Marked.cons {n : Nat} {c : Char} {xs : List Char} (hc : c ≠ 'p') (h : Marked n xs) :
    Marked n (c :: xs) := by
  intro before after heq
  cases before with
  | nil => exact absurd (List.cons.inj heq).1 hc
  | cons d before => exact h before after (List.cons.inj heq).2

theorem Marked.lt_of_mentions {n index : Nat} {s : String} (h : Marked n s.toList)
    (hm : Mentions s index) : index < n := by
  obtain ⟨before, after, hs, hafter⟩ := hm
  rw [toList_temporaryName, nameChars] at hs
  obtain ⟨k, rest, hk, heq, hrest⟩ :=
    h (before ++ ['t', 'm']) ('_' :: (Nat.toDigits 10 index ++ after)) (by simp [hs])
  rw [(toDigits_append_inj hafter hrest (List.cons.inj heq).2).1]
  exact hk

/-! ## Plain texts -/

/-- A text that holds no part of the name of a temporary and opens no operation. -/
structure Plain (xs : List Char) : Prop where
  not_mem : 'p' ∉ xs
  last : ∀ c ∈ xs.getLast?, c ≠ 't' ∧ c ≠ 'm'
  flat : ∀ depth deepest, ∃ word, xs.foldl Scan.step ⟨.outside false, depth, deepest⟩ =
    ⟨.outside word, depth, deepest⟩

/-- A name that began in a plain text would need a `p` there, or go on after its `t` or `tm`. -/
theorem Plain.replaceChars {index : Nat} {text xs rest : List Char} (h : Plain xs) :
    replaceChars (nameChars index) text (xs ++ rest) =
      xs ++ replaceChars (nameChars index) text rest := by
  refine replaceChars_append fun ys hne hys hp => ?_
  have hp' : 'p' ∉ ys := fun hm => h.not_mem (hys.subset hm)
  have hlast : ∀ c ∈ ys.getLast?, c ≠ 't' ∧ c ≠ 'm' := by
    obtain ⟨zs, rfl⟩ := hys
    intro c hc
    refine h.last c ?_
    rw [Option.mem_def] at hc ⊢
    rw [List.getLast?_append, hc, Option.some_or]
  rw [nameChars] at hp
  rcases ys with _ | ⟨c, _ | ⟨c', _ | ⟨c'', ys⟩⟩⟩
  · exact hne rfl
  all_goals simp only [List.cons_append, List.cons_prefix_cons] at hp
  · obtain ⟨rfl, -⟩ := hp
    exact (hlast 't' rfl).1 rfl
  · obtain ⟨-, rfl, -⟩ := hp
    exact (hlast 'm' rfl).2 rfl
  · obtain ⟨-, -, rfl, -⟩ := hp
    exact hp' (by simp)

theorem plain_bracket {head : List Char} (hp : 'p' ∉ head) (hopen : '(' ∉ head)
    (hclose : ')' ∉ head) (i : Int) : Plain (head ++ (signed i ++ [']'])) where
  not_mem := by simp [hp, not_mem_signed (i := i) (c := 'p') (by decide) (by decide)]
  last := by simp [← List.append_assoc]
  flat :=
    exists_foldl_step_outside
      (by simp [hopen, not_mem_signed (i := i) (c := '(') (by decide) (by decide)])
    (by simp [hclose, not_mem_signed (i := i) (c := ')') (by decide) (by decide)]) false

theorem plain_base (a : Base) : Plain a.source.toList := by
  have hnot (c : Char) (hc : c.isDigit = false) : c ∉ Nat.toDigits 10 a.val := not_mem_toDigits hc
  rw [Base.toList_source]
  refine ⟨?_, ?_, fun depth deepest => ⟨false, ?_⟩⟩
  · simp [hnot 'p' (by decide)]
  · rw [List.getLast?_append, List.getLast?_append]
    simp
  · have hname : "BFieldElement(".toList.foldl Scan.step ⟨.outside false, depth, deepest⟩ =
      ⟨.call 0, depth, deepest⟩ := rfl
    rw [List.foldl_append, hname, List.foldl_append,
      foldl_step_call (hnot '(' (by decide)) (hnot ')' (by decide))]
    rfl

theorem plain_ext (x : Ext) : Plain x.source.toList := by
  have hnot (c : Char) (n : Nat) (hc : c.isDigit = false) : c ∉ Nat.toDigits 10 n :=
    not_mem_toDigits hc
  have hlist : x.source.toList = "XFieldElement((".toList ++
      ((Nat.toDigits 10 x.c0.val ++ ',' :: ' ' ::
      (Nat.toDigits 10 x.c1.val ++ ',' :: ' ' :: Nat.toDigits 10 x.c2.val)) ++ [')', ')']) := by
    simp [Ext.toList_source]
  rw [hlist]
  refine ⟨?_, ?_, fun depth deepest => ⟨false, ?_⟩⟩
  · simp [hnot 'p' _ (by decide)]
  · rw [List.getLast?_append, List.getLast?_append]
    simp
  · have hname : "XFieldElement((".toList.foldl Scan.step ⟨.outside false, depth, deepest⟩ =
      ⟨.call 1, depth, deepest⟩ := rfl
    rw [List.foldl_append, hname, List.foldl_append, foldl_step_call]
    · rfl
    · simp [hnot '(' _ (by decide)]
    · simp [hnot ')' _ (by decide)]

theorem plain_leaf (dual : Bool) (x : Leaf) : Plain (Expr.leafText dual x).toList := by
  cases x with
  | constant s =>
    cases s with
    | base a => exact plain_base a
    | ext x => exact plain_ext x
  | input c =>
    have hhead (row : Row) (table : Table) : 'p' ∉ (Expr.rowName dual row table ++ "[").toList ∧
        '(' ∉ (Expr.rowName dual row table ++ "[").toList ∧
        ')' ∉ (Expr.rowName dual row table ++ "[").toList := by
      cases dual <;> cases row <;> cases table <;> decide
    obtain ⟨hp, hopen, hclose⟩ := hhead c.row c.table
    rw [Expr.toList_input]
    exact plain_bracket hp hopen hclose c.column
  | challenge i =>
    rw [Expr.toList_challenge]
    exact plain_bracket (by decide) (by decide) (by decide) i

theorem plain_shared (id : Int) : Plain (Expr.sharedName id).toList := by
  have hnot (c : Char) (hhead : c ∉ "node_".toList) (hc : c.isDigit = false) (hminus : c ≠ '-') :
      c ∉ (Expr.sharedName id).toList := by
    rw [Expr.toList_sharedName, List.mem_append, not_or]
    exact ⟨hhead, not_mem_signed hc hminus⟩
  refine ⟨hnot 'p' (by decide) (by decide) (by decide), fun c hc => ⟨?_, ?_⟩, fun depth deepest =>
    exists_foldl_step_outside (hnot '(' (by decide) (by decide) (by decide))
      (hnot ')' (by decide) (by decide) (by decide)) _ _ _⟩
  · rintro rfl
    exact hnot 't' (by decide) (by decide) (by decide) (List.mem_of_getLast? hc)
  · rintro rfl
    exact hnot 'm' (by decide) (by decide) (by decide) (List.mem_of_getLast? hc)

end Text

/-! ## Texts of sketches -/

namespace Sketch

open Text

/-- Replacing the name of the temporary of highest index puts the definition in its place. -/
theorem replaceChars_text (dual : Bool) {n : Nat} {d s : Sketch} {rest : List Char}
    (hs : s.Below (n + 1)) (hr : Stops rest) :
    replaceChars (nameChars n) (d.text dual).toList ((s.text dual).toList ++ rest) =
      ((s.inline n d).text dual).toList ++
        replaceChars (nameChars n) (d.text dual).toList rest := by
  induction s generalizing rest with
  | leaf x => exact (plain_leaf dual x).replaceChars
  | shared id => exact (plain_shared id).replaceChars
  | temporary k =>
    have hk : k < n + 1 := hs
    rw [text, toList_temporaryName, inline]
    split
    case isTrue heq => rw [heq, replaceChars_name]
    case isFalse hne => rw [replaceChars_name_of_lt (by omega) hr, text, toList_temporaryName]
  | operation op l r ihl ihr =>
    have hsign : op.sign ≠ 't' := by cases op <;> decide
    simp only [text, inline, Expr.toList_operationText, List.cons_append,
      List.append_assoc, List.nil_append]
    rw [replaceChars_cons (by decide), ihl hs.1 (by simp), replaceChars_cons (by decide),
      replaceChars_cons hsign,
      replaceChars_cons (by decide), ihr hs.2 (by simp), replaceChars_cons (by decide)]

theorem replace_text (dual : Bool) {n : Nat} (d : Sketch) {s : Sketch} (hs : s.Below (n + 1)) :
    replace (Expr.temporaryName n) (d.text dual) (s.text dual) = (s.inline n d).text dual := by
  have h := replaceChars_text dual (d := d) hs stops_nil
  rw [List.append_nil, replaceChars, List.append_nil] at h
  rw [replace, toList_temporaryName, h, String.ofList_toList]

theorem inlineTexts_text (dual : Bool) {ds : List Sketch} {s : Sketch} (hds : Defined ds)
    (hs : s.Below ds.length) :
    inlineTexts (ds.map (text dual)) (s.text dual) = (inlineAll ds s).text dual := by
  induction ds using List.reverseRecOn generalizing s with
  | nil => rfl
  | append_singleton ds d ih =>
    have hd : d.Below ds.length := (hds ds.length d (by simp)).2
    rw [List.length_append] at hs
    rw [List.map_append, List.map_singleton, inlineTexts_append, List.length_map,
      replace_text dual d hs, inlineAll_append, ih hds.of_append (hs.inline hd)]

example : inlineTexts ["(node_1 + node_2)", "(tmp_0 * node_3)"] "(tmp_1 + tmp_0)" =
    "(((node_1 + node_2) * node_3) + (node_1 + node_2))" := by decide +kernel

theorem marked_text (dual : Bool) {n : Nat} {s : Sketch} (hs : s.Below n) :
    Marked n (s.text dual).toList := by
  induction s with
  | leaf x => exact marked_of_not_mem (plain_leaf dual x).not_mem
  | shared id => exact marked_of_not_mem (plain_shared id).not_mem
  | temporary k =>
    rw [text, toList_temporaryName]
    exact marked_name hs
  | operation op l r ihl ihr =>
    have hsign : op.sign ≠ 'p' := by cases op <;> decide
    have hr : Marked n ((r.text dual).toList ++ [')']) :=
      (ihr hs.2).append (marked_of_not_mem (by simp)) (by simp)
    have hop : Marked n (' ' :: op.sign :: ' ' :: ((r.text dual).toList ++ [')'])) :=
      ((hr.cons (by decide)).cons hsign).cons (by decide)
    rw [text, Expr.toList_operationText]
    exact ((ihl hs.1).append hop (by simp)).cons (by decide)

/-- Scanning a text gets as deep below where it starts as operations are nested. -/
theorem exists_scan_text (dual : Bool) (s : Sketch) {depth deepest : Nat} (h : depth ≤ deepest) :
    ∃ word, (s.text dual).toList.foldl Scan.step ⟨.outside false, depth, deepest⟩ =
      ⟨.outside word, depth, max deepest (depth + s.depth)⟩ := by
  induction s generalizing depth deepest with
  | leaf x =>
    rw [Sketch.depth, Nat.add_zero, Nat.max_eq_left h]
    exact (plain_leaf dual x).flat depth deepest
  | shared id =>
    rw [Sketch.depth, Nat.add_zero, Nat.max_eq_left h]
    exact (plain_shared id).flat depth deepest
  | temporary k =>
    rw [Sketch.depth, Nat.add_zero, Nat.max_eq_left h, text, toList_temporaryName]
    exact exists_foldl_step_outside
      (by simp [nameChars, not_mem_toDigits (n := k) (c := '(') (by decide)])
      (by simp [nameChars, not_mem_toDigits (n := k) (c := ')') (by decide)]) false depth deepest
  | operation op l r ihl ihr =>
    have hspace (word : Bool) (x y : Nat) : Scan.step ⟨.outside word, x, y⟩ ' ' =
      ⟨.outside false, x, y⟩ := rfl
    have hsign (word : Bool) (x y : Nat) : Scan.step ⟨.outside word, x, y⟩ op.sign =
        ⟨.outside false, x, y⟩ := by
      cases op <;> rfl
    obtain ⟨wl, hl⟩ := ihl (show depth + 1 ≤ max deepest (depth + 1) by omega)
    obtain ⟨wr, hr⟩ :=
      ihr (show depth + 1 ≤ max (max deepest (depth + 1)) (depth + 1 + l.depth) by omega)
    refine ⟨false, ?_⟩
    rw [text, Expr.toList_operationText, List.foldl_cons]
    -- the parenthesis is not after a word, so it opens an operation
    have hopen : Scan.step ⟨.outside false, depth, deepest⟩ '(' =
      ⟨.outside false, depth + 1, max deepest (depth + 1)⟩ := rfl
    have hclose (y : Nat) : Scan.step ⟨.outside wr, depth + 1, y⟩ ')' =
      ⟨.outside false, depth, y⟩ := rfl
    rw [hopen, List.foldl_append, hl]
    simp only [List.foldl_cons, List.foldl_append, List.foldl_nil, hspace, hsign, hr, hclose,
      Sketch.depth, Scan.mk.injEq, true_and]
    omega

theorem nesting_text (dual : Bool) (s : Sketch) : nesting (s.text dual) = s.depth := by
  obtain ⟨word, h⟩ := s.exists_scan_text dual (le_refl 0)
  rw [nesting, h]
  simp

example : nesting "((XFieldElement((1, 2, 3)) + tmp_0) * node_7)" = 2 := by decide

end Sketch

namespace Expr

open Text Sketch

theorem lines_eq (dual : Bool) (ds : List Sketch) :
    lines dual ds = (ds.map (Sketch.text dual)).mapIdx assignment := by
  apply List.ext_getElem?
  intro k
  simp only [lines, List.getElem?_mapIdx, List.getElem?_map, Option.map_map]
  rfl

/-- **Rendering with temporaries loses nothing and bounds nesting.** Line `k` assigns a text to the
temporary of index `k`, and the text mentions temporaries of lower index only. Putting these texts
in the place of the names, last one first, gives the text without temporaries, which no other
expression has. The assigned texts are nested exactly as deep as is allowed, and the returned one is
nested less deep. -/
theorem textWith_faithful (e : Expr) :
    ∃ texts : List String, (e.textWith true #[]).2.toList = texts.mapIdx assignment ∧
      inlineTexts texts (e.textWith true #[]).1 = e.text true ∧
      (∀ (k : Nat) (t : String), texts[k]? = some t → (∀ j, Mentions t j → j < k) ∧
        nesting t = 32) ∧
      (∀ j, Mentions (e.textWith true #[]).1 j → j < texts.length) ∧
      nesting (e.textWith true #[]).1 < 32 ∧
      ∀ e' : Expr, e.text true = e'.text true → e = e' := by
  have hcut : Cut e [] (e.cut []).1 (e.cut []).2 := e.cut_spec (fun k d hk => by simp at hk)
  rw [textWith_eq]
  refine ⟨(e.cut []).2.map (Sketch.text true), ?_, ?_, ?_, ?_, ?_, fun e' => text_injective⟩
  · exact lines_eq true (e.cut []).2
  · rw [inlineTexts_text true hcut.defined hcut.below, hcut.restored, text_ofExpr]
  · intro k t hk
    rw [List.getElem?_map, Option.map_eq_some_iff] at hk
    obtain ⟨d, hd, rfl⟩ := hk
    obtain ⟨hdepth, hbelow⟩ := hcut.defined k d hd
    exact ⟨fun j => (marked_text true hbelow).lt_of_mentions, (nesting_text true d).trans hdepth⟩
  · intro j hj
    rw [List.length_map]
    exact (marked_text true hcut.below).lt_of_mentions hj
  · rw [nesting_text]
    exact hcut.depth_lt

end Expr

end AirCompiler
