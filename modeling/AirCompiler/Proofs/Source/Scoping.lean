import AirCompiler.Proofs.Expr.Names
import AirCompiler.Proofs.Sharing.Elimination
import AirCompiler.Source.Modules

/-!
# Evaluation functions assign names before they use them

The body of an evaluation function assigns to the names of shared nodes and of temporaries, and then
returns a list. Its lines are followed one assignment at a time, with sketches in the place of
texts:

* `DefinesBeforeUse uses steps`: whatever name the right side of an assignment uses, an earlier one
  assigns to it.
* `Code steps ds ids`: the assignments so far are those of the definitions `ds` and of the nodes
  `ids`.
* `Code.cut`, `Code.binding`: a rendered expression and the line of a binding keep this.
* `Code.bindingLines`, `Code.outputTexts`: so do all bindings, and the temporaries of the outputs.
* `ScopedBody b steps entries`: the body has these assignments and these entries in its list, all
  names are assigned before they are used, and none twice.
-/

namespace AirCompiler

open Sketch

/-! ## References -/

theorem Expr.IsAtom.refersTo {nodes : List Int} {e : Expr} (h : e.IsAtom nodes) :
    e.RefersTo (· ∈ nodes) := by
  cases e with
  | leaf x => trivial
  | shared id => exact h
  | operation op l r => cases h

theorem Binding.IsStep.refersTo {earlier : List Binding} {b : Binding} (h : b.IsStep earlier) :
    b.expr.RefersTo (· ∈ earlier.map Binding.node) := by
  obtain ⟨op, x, y, hexpr, hx, hy⟩ := h
  rw [hexpr]
  exact ⟨hx.refersTo, hy.refersTo⟩

theorem Arena.UnfoldsUpTo.refersTo {a : Arena} {bound : Nat → Bool} {i : Nat} {f : Expr}
    (h : a.UnfoldsUpTo bound i f) {P : Int → Prop} (hP : ∀ j : Nat, bound j = true → P j) :
    f.RefersTo P := by
  induction h with
  | shared hb => exact hP _ hb
  | leaf => trivial
  | operation _ _ _ _ ihx ihy => exact ⟨ihx, ihy⟩

/-- Bindings that refer to the given nodes and to what stands before them. -/
def Binding.Closed (ids : List Int) (bs : List Binding) : Prop :=
  ∀ earlier b later, bs = earlier ++ b :: later →
    b.expr.RefersTo (· ∈ ids ++ earlier.map Binding.node)

theorem Binding.closed_cons {ids : List Int} {b : Binding} {bs : List Binding}
    (h : Closed ids (b :: bs)) : b.expr.RefersTo (· ∈ ids) ∧ Closed (ids ++ [b.node]) bs := by
  constructor
  · simpa using h [] b bs rfl
  · rintro earlier x later rfl
    simpa using h (b :: earlier) x later rfl

namespace Source

/-! ## Assignments -/

/-- The line of an assignment. -/
def line (s : String × String) : String := s!"{s.1} = {s.2}"

/-- An assignment with the text of its right side. -/
def rendered (dual : Bool) (s : String × Sketch) : String × String := (s.1, s.2.text dual)

/-- The assignments to temporaries, numbered from `n`. -/
def temporarySteps (n : Nat) (ds : List Sketch) : List (String × Sketch) :=
  ds.mapIdx fun k d => (Expr.temporaryName (n + k), d)

/-- Every name that the right side of an assignment uses is assigned by an earlier one. -/
def DefinesBeforeUse {α : Type} (uses : α → List String) (steps : List (String × α)) : Prop :=
  ∀ (k : Nat) (s : String × α), steps[k]? = some s →
    ∀ name ∈ uses s.2, name ∈ (steps.take k).map Prod.fst

theorem DefinesBeforeUse.append {α : Type} {uses : α → List String} {steps : List (String × α)}
    (h : DefinesBeforeUse uses steps) {s : String × α}
    (hs : ∀ name ∈ uses s.2, name ∈ steps.map Prod.fst) : DefinesBeforeUse uses (steps ++ [s]) := by
  intro k t hk
  rcases getElem?_append_singleton hk with hk | ⟨rfl, rfl⟩
  · rw [List.take_append_of_le_length (List.getElem?_eq_some_iff.1 hk).1.le]
    exact h k t hk
  · rw [List.take_left]
    exact hs

theorem fst_rendered (dual : Bool) (steps : List (String × Sketch)) :
    (steps.map (rendered dual)).map Prod.fst = steps.map Prod.fst := by
  rw [List.map_map]
  rfl

/-- What sketches use, their texts use. -/
theorem DefinesBeforeUse.rendered {steps : List (String × Sketch)}
    (h : DefinesBeforeUse Sketch.names steps) (dual : Bool)
    (hrefers : ∀ s ∈ steps, s.2.RefersTo fun id => 0 ≤ id) :
    DefinesBeforeUse Text.names (steps.map (rendered dual)) := by
  intro k s hk
  rw [List.getElem?_map, Option.map_eq_some_iff] at hk
  obtain ⟨t, hk, rfl⟩ := hk
  rw [← List.map_take, fst_rendered]
  intro name hname
  rw [Source.rendered, names_text dual (hrefers t (List.mem_of_getElem? hk))] at hname
  exact h k t hk name hname

theorem temporarySteps_append (n : Nat) (ds more : List Sketch) :
    temporarySteps n (ds ++ more) = temporarySteps n ds ++ temporarySteps (n + ds.length) more := by
  simp only [temporarySteps, List.mapIdx_append, Nat.add_assoc, Nat.add_comm ds.length]

/-- The lines of new temporaries. -/
theorem drop_lines (dual : Bool) (ds more : List Sketch) :
    (Expr.lines dual (ds ++ more)).drop ds.length =
      ((temporarySteps ds.length more).map (rendered dual)).map line := by
  refine List.ext_getElem? fun k => ?_
  simp only [Expr.lines, temporarySteps, List.getElem?_drop, List.getElem?_map,
    List.getElem?_mapIdx,
    List.getElem?_append_right (Nat.le_add_right ds.length k),
      Nat.add_sub_cancel_left, Option.map_map]
  rfl

/-! ## Code -/

/-- The assignments so far, when temporaries have the definitions `ds` and the nodes `ids` are
bound. -/
structure Code (steps : List (String × Sketch)) (ds : List Sketch) (ids : List Int) : Prop where
  assigned :
    (steps.map Prod.fst).Perm
      ((List.range ds.length).map Expr.temporaryName ++ ids.map Expr.sharedName)
  ordered : DefinesBeforeUse Sketch.names steps
  refers : ∀ s ∈ steps, s.2.RefersTo (· ∈ ids)
  definitions : ∀ k d, ds[k]? = some d → (Expr.temporaryName k, d) ∈ steps
  defined : Defined ds

namespace Code

variable {steps : List (String × Sketch)} {ds : List Sketch} {ids : List Int}

theorem nil : Code [] [] [] where
  assigned := .nil
  ordered k s hk := by cases hk
  refers s hs := by cases hs
  definitions k d hk := by cases hk
  defined k d hk := by cases hk

theorem refersTo (h : Code steps ds ids) {d : Sketch} (hd : d ∈ ds) : d.RefersTo (· ∈ ids) := by
  obtain ⟨k, hk⟩ := List.mem_iff_getElem?.1 hd
  exact h.refers _ (h.definitions k d hk)

/-- The names in a sketch of the defined temporaries and the bound nodes are assigned. -/
theorem mem_of_mem_names (h : Code steps ds ids) {s : Sketch} (hbelow : s.Below ds.length)
    (hrefers : s.RefersTo (· ∈ ids)) {name : String} (hname : name ∈ s.names) :
    name ∈ steps.map Prod.fst :=
  h.assigned.mem_iff.2 (Sketch.mem_of_mem_names hbelow hrefers hname)

theorem nodup (h : Code steps ds ids) (hids : ids.Nodup) : (steps.map Prod.fst).Nodup := by
  rw [h.assigned.nodup_iff, List.nodup_append]
  refine ⟨List.nodup_range.map Expr.temporaryName_injective, hids.map Expr.sharedName_injective, ?_⟩
  intro x hx y hy
  obtain ⟨k, -, rfl⟩ := List.mem_map.1 hx
  obtain ⟨id, -, rfl⟩ := List.mem_map.1 hy
  exact Expr.temporaryName_ne_sharedName k id

/-- Only names are assigned to. -/
theorem names_target (h : Code steps ds ids) (hids : ∀ id ∈ ids, 0 ≤ id) {name : String}
    (hname : name ∈ steps.map Prod.fst) : Text.names name = [name] := by
  rcases List.mem_append.1 (h.assigned.mem_iff.1 hname) with hname | hname
  · obtain ⟨k, -, rfl⟩ := List.mem_map.1 hname
    exact Expr.names_temporaryName k
  · obtain ⟨id, hid, rfl⟩ := List.mem_map.1 hname
    exact Expr.names_sharedName (hids id hid)

theorem temporary (h : Code steps ds ids) {d : Sketch} (hds : Defined (ds ++ [d]))
    (hd : d.RefersTo (· ∈ ids)) :
    Code (steps ++ [(Expr.temporaryName ds.length, d)]) (ds ++ [d]) ids where
  assigned := by
    rw [List.map_append, List.length_append, List.length_singleton, List.range_succ,
      List.map_append, List.append_assoc]
    refine (h.assigned.append_right _).trans ?_
    rw [List.append_assoc]
    exact List.perm_append_comm.append_left _
  ordered := h.ordered.append fun name hname =>
    h.mem_of_mem_names (hds ds.length d (by simp)).2 hd hname
  refers s hs := by
    rcases List.mem_append.1 hs with hs | hs
    · exact h.refers s hs
    · rw [List.mem_singleton.1 hs]
      exact hd
  definitions k d' hk := by
    rcases getElem?_append_singleton hk with hk | ⟨rfl, rfl⟩
    · exact List.mem_append_left _ (h.definitions k d' hk)
    · exact List.mem_append_right _ List.mem_cons_self
  defined := hds

theorem temporaries (h : Code steps ds ids) {more : List Sketch} (hds : Defined (ds ++ more))
    (hmore : ∀ d ∈ more, d.RefersTo (· ∈ ids)) :
    Code (steps ++ temporarySteps ds.length more) (ds ++ more) ids := by
  induction more using List.reverseRecOn with
  | nil => simpa [temporarySteps] using h
  | append_singleton more d ih =>
    rw [← List.append_assoc] at hds ⊢
    have hcode := ih hds.of_append fun d' hd' => hmore d' (List.mem_append_left _ hd')
    rw [temporarySteps_append, ← List.append_assoc, ← List.length_append]
    exact hcode.temporary hds (hmore d (by simp))

/-- The line of a binding. -/
theorem binding (h : Code steps ds ids) {s : Sketch} (hbelow : s.Below ds.length)
    (hs : s.RefersTo (· ∈ ids)) (id : Int) :
    Code (steps ++ [(Expr.sharedName id, s)]) ds (ids ++ [id]) where
  assigned := by
    rw [List.map_append, List.map_append, ← List.append_assoc]
    exact h.assigned.append_right _
  ordered := h.ordered.append fun name hname => h.mem_of_mem_names hbelow hs hname
  refers t ht := by
    rcases List.mem_append.1 ht with ht | ht
    · exact (h.refers t ht).mono fun _ => List.mem_append_left _
    · rw [List.mem_singleton.1 ht]
      exact hs.mono fun _ => List.mem_append_left _
  definitions k d hk := List.mem_append_left _ (h.definitions k d hk)
  defined := h.defined

/-- Rendering an expression appends the assignments of the temporaries that it needs. -/
theorem cut (h : Code steps ds ids) {e : Expr} (he : e.RefersTo (· ∈ ids)) :
    ∃ more, (e.cut ds).2 = ds ++ more ∧
      Code (steps ++ temporarySteps ds.length more) (ds ++ more) ids ∧
      (e.cut ds).1.Below (ds ++ more).length ∧ (e.cut ds).1.RefersTo (· ∈ ids) ∧
      inlineAll (ds ++ more) (e.cut ds).1 = ofExpr e := by
  have hcut := Expr.cut_spec e h.defined
  obtain ⟨hsketch, hdefinitions⟩ := Expr.cut_refersTo he fun d hd => h.refersTo hd
  obtain ⟨more, hmore⟩ := hcut.grows
  rw [← hmore] at hdefinitions
  refine ⟨more, hmore.symm, h.temporaries (hmore ▸ hcut.defined) fun d hd =>
    hdefinitions d (List.mem_append_right _ hd), ?_, hsketch, ?_⟩
  · rw [hmore]
    exact hcut.below
  · rw [hmore]
    exact hcut.restored

theorem bindingLines (h : Code steps ds ids) (dual : Bool) {bs : List Binding}
    (hbs : Binding.Closed ids bs) :
    ∃ new more, Source.bindingLines dual bs (Expr.lines dual ds).toArray =
        ((new.map (rendered dual)).map line, (Expr.lines dual (ds ++ more)).toArray) ∧
      Code (steps ++ new) (ds ++ more) (ids ++ bs.map Binding.node) := by
  induction bs generalizing steps ds ids with
  | nil => exact ⟨[], [], by simp [Source.bindingLines], by simpa using h⟩
  | cons b bs ih =>
    obtain ⟨hb, hbs⟩ := Binding.closed_cons hbs
    obtain ⟨more, hmore, hcode, hbelow, hrefers, -⟩ := h.cut hb
    obtain ⟨new, more', hlines, hcode'⟩ := ih (hcode.binding hbelow hrefers b.node) hbs
    refine ⟨temporarySteps ds.length more ++ (Expr.sharedName b.node, (b.expr.cut ds).1) :: new,
      more ++ more', ?_, ?_⟩
    · simp only [Source.bindingLines, Expr.textWith_lines, hmore, hlines, List.size_toArray,
        Expr.length_lines, drop_lines, List.map_append, List.map_cons, List.append_assoc]
      rfl
    · simpa using hcode'

theorem outputTexts (h : Code steps ds ids) (dual : Bool) {es : List Expr}
    (hes : ∀ e ∈ es, e.RefersTo (· ∈ ids)) :
    ∃ (sketches more : List Sketch), Source.outputTexts dual es (Expr.lines dual ds).toArray =
        (sketches.map (Sketch.text dual), (Expr.lines dual (ds ++ more)).toArray) ∧
      Code (steps ++ temporarySteps ds.length more) (ds ++ more) ids ∧
      (∀ s ∈ sketches, s.Below (ds ++ more).length ∧ s.RefersTo (· ∈ ids)) ∧
      sketches.map (inlineAll (ds ++ more)) = es.map ofExpr := by
  induction es generalizing steps ds with
  | nil =>
    exact ⟨[], [], by simp [Source.outputTexts], by simpa [temporarySteps] using h, by simp, rfl⟩
  | cons e es ih =>
    obtain ⟨more, hmore, hcode, hbelow, hrefers, hrestored⟩ := h.cut (hes e List.mem_cons_self)
    obtain ⟨sketches, more', htexts, hcode', hsketches, hall⟩ :=
      ih hcode fun e' he' => hes e' (List.mem_cons_of_mem e he')
    refine ⟨(e.cut ds).1 :: sketches, more ++ more', ?_, ?_, ?_, ?_⟩
    · simp only [Source.outputTexts, Expr.textWith_lines, hmore, htexts,
        List.map_cons, List.append_assoc]
    · rw [temporarySteps_append, ← List.append_assoc, ← List.append_assoc, ← List.length_append]
      exact hcode'
    · rw [← List.append_assoc, List.forall_mem_cons]
      exact ⟨⟨hbelow.mono (by simp), hrefers⟩, hsketches⟩
    · -- the definitions of later outputs do not matter to this one
      rw [← List.append_assoc, List.map_cons, List.map_cons, hall,
        inlineAll_of_prefix (List.prefix_append _ _) hbelow, hrestored]

end Code

/-! ## Bodies -/

/-- The body of an evaluation function: assignments, each to one name, and a list of entries. Names
are assigned before they are used and none is assigned twice. With the temporaries put in, the
entries are the outputs, in their order. -/
structure ScopedBody (b : BucketEvaluation) (steps : List (String × String))
    (entries : List String) : Prop where
  lines : bodyLines b = steps.map line ++ ["return ["] ++
    entries.map (fun entry => indent 1 s!"{entry},") ++ ["]"]
  targets : ∀ s ∈ steps, Text.names s.1 = [s.1]
  ordered : DefinesBeforeUse Text.names steps
  returned : ∀ entry ∈ entries, ∀ name ∈ Text.names entry, name ∈ steps.map Prod.fst
  nodup : (steps.map Prod.fst).Nodup
  outputs : ∃ temporaries : List String,
    (∀ k t, temporaries[k]? = some t → (Expr.temporaryName k, t) ∈ steps) ∧
    entries.map (Text.inlineTexts temporaries) = b.outputs.map fun o => o.expr.text b.role.isDualRow

/-- Evaluation code refers to nodes that it binds, and binds each of them once, before it refers to
it. -/
structure ClosedCode (b : BucketEvaluation) : Prop where
  nodup : (b.bindings.map Binding.node).Nodup
  nonneg : ∀ id ∈ b.bindings.map Binding.node, 0 ≤ id
  bindings : Binding.Closed [] b.bindings
  outputs : ∀ o ∈ b.outputs, o.expr.RefersTo (· ∈ b.bindings.map Binding.node)

theorem closedCode_of_ofCircuits {a : Arena} {cs : List Circuit} (ha : ∀ c ∈ cs, c.arena = a)
    {role : Role} {b : BucketEvaluation} (h : BucketEvaluation.ofCircuits role cs = .ok b) :
    ClosedCode b := by
  obtain ⟨plan, bound, f, hplan, hbound, hbindings, houtputs, hf⟩ :=
    BucketEvaluation.exists_of_ofCircuits ha h
  obtain ⟨-, hordered, -⟩ := Plan.spec_of_ofCircuits ha hplan
  have hsteps := BucketEvaluation.bindNodes_steps hordered hbound
  have hnodes : b.bindings.map Binding.node = plan.order.map Int.ofNat := by
    rw [hbindings, hsteps.nodes]
  refine ⟨?_, fun id hid => ?_, fun earlier x later hsplit => ?_, fun o ho => ?_⟩
  · rw [hnodes]
    exact hordered.nodup.map fun _ _ => Int.ofNat.inj
  · rw [hnodes] at hid
    obtain ⟨i, -, rfl⟩ := List.mem_map.1 hid
    exact Int.natCast_nonneg i
  · exact (hsteps.isStep earlier x later (hbindings ▸ hsplit)).refersTo
  · rw [houtputs] at ho
    obtain ⟨c, hc, rfl⟩ := List.mem_map.1 ho
    have hc := mem_outputOrder.1 hc
    refine (Arena.unfoldsUpTo_of_expr? (ha c hc ▸ c.node?_id) (hf c hc)).refersTo fun j hj => ?_
    rw [hnodes]
    exact List.mem_map_of_mem ((hsteps.contains_iff j).1 hj)

/-- With the temporaries put in, the texts of sketches are those of the expressions. -/
theorem map_inlineTexts (dual : Bool) {ds sketches : List Sketch}
    {es : List Expr} (hds : Defined ds) (hbelow : ∀ s ∈ sketches, s.Below ds.length)
    (hrestored : sketches.map (inlineAll ds) = es.map ofExpr) :
    (sketches.map (Sketch.text dual)).map (Text.inlineTexts (ds.map (Sketch.text dual))) =
      es.map (Expr.text dual) := by
  calc (sketches.map (Sketch.text dual)).map (Text.inlineTexts (ds.map (Sketch.text dual)))
      = (sketches.map (inlineAll ds)).map (Sketch.text dual) := by
        rw [List.map_map, List.map_map]
        exact List.map_congr_left fun s hs => inlineTexts_text dual hds (hbelow s hs)
    _ = es.map (Expr.text dual) := by
        rw [hrestored, List.map_map]
        exact List.map_congr_left fun e _ => text_ofExpr dual e

theorem ClosedCode.exists_scopedBody {b : BucketEvaluation} (h : ClosedCode b) :
    ∃ steps entries, ScopedBody b steps entries := by
  obtain ⟨dual, hdual⟩ : ∃ dual, b.role.isDualRow = dual := ⟨_, rfl⟩
  obtain ⟨new, ds, hbindings, hcode⟩ := Code.nil.bindingLines dual h.bindings
  simp only [List.nil_append] at hbindings hcode
  have hexprs : ∀ e ∈ b.outputs.map Output.expr, e.RefersTo (· ∈ b.bindings.map Binding.node) := by
    simpa using h.outputs
  obtain ⟨sketches, more, houtputs, hcode, hsketches, hrestored⟩ := hcode.outputTexts dual hexprs
  have hnonneg {s : Sketch} (hs : s.RefersTo (· ∈ b.bindings.map Binding.node)) :
    s.RefersTo fun id => 0 ≤ id := hs.mono h.nonneg
  refine ⟨(new ++ temporarySteps ds.length more).map (rendered dual),
    sketches.map (Sketch.text dual), ?_, fun s hs => ?_,
    hcode.ordered.rendered dual fun s hs => hnonneg (hcode.refers s hs),
    fun entry hentry name hname => ?_, ?_,
    (ds ++ more).map (Sketch.text dual), fun k t hk => ?_, ?_⟩
  · have hempty : (#[] : Array String) = (Expr.lines dual []).toArray := rfl
    simp only [bodyLines, hdual, hempty, hbindings, houtputs, List.size_toArray, Expr.length_lines,
      drop_lines, List.map_append]
  · refine hcode.names_target h.nonneg ?_
    rw [← fst_rendered dual]
    exact List.mem_map_of_mem hs
  · obtain ⟨s, hs, rfl⟩ := List.mem_map.1 hentry
    obtain ⟨hbelow, hrefers⟩ := hsketches s hs
    rw [names_text dual (hnonneg hrefers)] at hname
    rw [fst_rendered]
    exact hcode.mem_of_mem_names hbelow hrefers hname
  · rw [fst_rendered]
    exact hcode.nodup h.nodup
  · rw [List.getElem?_map, Option.map_eq_some_iff] at hk
    obtain ⟨d, hk, rfl⟩ := hk
    exact List.mem_map_of_mem (hcode.definitions k d hk)
  · rw [map_inlineTexts dual hcode.defined (fun s hs => (hsketches s hs).1) hrestored,
      List.map_map, hdual]
    rfl

example :
    bodyLines
      ⟨.consistency,
        [⟨7, .operation .mul (.leaf (.input ⟨.current, .main, 0⟩)) (.leaf (.challenge 1)), false⟩],
        [],
      [⟨.shared 7, 1⟩, ⟨.operation .add (.shared 7) (.leaf (.challenge 0)), 1⟩]⟩ =
        ["node_7 = (main_row[0] * challenges[1])", "return [", "    node_7,",
          "    (node_7 + challenges[0]),", "]"] := by
  decide +kernel

/-- The evaluation function of constraints of one arena, whatever nodes they share and whatever
their role, assigns every name once and before it is used, and returns one entry for each
constraint, in the order of the outputs. -/
theorem bodyLines_scoped {a : Arena} {cs : List Circuit} (role : Role)
    (ha : ∀ c ∈ cs, c.arena = a) :
    ∃ b steps entries, BucketEvaluation.ofCircuits role cs = .ok b ∧ ScopedBody b steps entries ∧
      entries.length = cs.length := by
  obtain ⟨b, hb⟩ := BucketEvaluation.exists_ofCircuits ha role
  obtain ⟨steps, entries, hbody⟩ := (closedCode_of_ofCircuits ha hb).exists_scopedBody
  obtain ⟨-, -, f, -, -, -, houtputs, -⟩ := BucketEvaluation.exists_of_ofCircuits ha hb
  obtain ⟨temporaries, -, hentries⟩ := hbody.outputs
  refine ⟨b, steps, entries, hb, hbody, ?_⟩
  calc entries.length
      = b.outputs.length := by simpa using congrArg List.length hentries
    _ = (outputOrder cs).length := by rw [houtputs, List.length_map]
    _ = cs.length := (List.filter_append_perm _ cs).length_eq

/-- The consistency constraints of `synthetic` share nodes, within and between them. -/
theorem bodyLines_scoped_synthetic :
    let cs := ConstraintSystem.synthetic.circuits .consistency
    (∀ c ∈ cs, c.arena = ConstraintSystem.synthetic.arena) ∧ cs.length = 4 ∧
      ∃ b steps entries, BucketEvaluation.ofCircuits .consistency cs = .ok b ∧
        ScopedBody b steps entries ∧ entries.length = 4 := by
  intro cs
  have ha : ∀ c ∈ cs, c.arena = ConstraintSystem.synthetic.arena :=
    fun c hc => ConstraintSystem.arena_of_mem_circuits hc
  have hlength : cs.length = 4 := by decide +kernel
  obtain ⟨b, steps, entries, hb, hbody, hentries⟩ := bodyLines_scoped .consistency ha
  exact ⟨ha, hlength, b, steps, entries, hb, hbody, hentries.trans hlength⟩

end Source

end AirCompiler
