import AirCompiler.Assembly.Simulation
import AirCompiler.Proofs.Assembly.Scratch
import AirCompiler.Proofs.Evaluation.System

/-!
# Emitted code, by its parts

What code a successful emission yields, whatever the code does when it runs.

* `Emitter.Coded e a scope i f code`: the code of node `i`, whose tree is `f`. A node in scope is
  loaded from its slot; the code of any other is that of a leaf, or that of two operands and an
  operation.
* `Emitter.Kept e a admits P`: `P scope outputs code`, a property of code, of the nodes that it has
  stored and of the constraints that it has evaluated, is preserved by each further store. What
  generated code does is then proved for one store of each kind, and holds of a bucket
  (`Emitter.Kept.bucketCode`) and of a template (`Template.Assembled.kept`).
-/

namespace AirCompiler

namespace Emitter

/-- The address of an element of the scratch area. -/
def slotAddress (e : Emitter) (k : Int) : Address := ⟨.page, e.scratchOffset + 3 * k⟩

inductive Coded (e : Emitter) (a : Arena) (scope : Scope) : Nat → Expr → Array Instruction → Prop
  | shared {i : Nat} {f : Expr} {code : Array Instruction} (hf : a.Unfolds i f)
      (hi : scope.contains i = true) (h : e.loadShared i = .ok code) : Coded e a scope i f code
  | leaf {i : Nat} {x : Leaf} {code : Array Instruction} (hl : a.label? i = some (.leaf x))
      (h : e.leafCode x = .ok code) : Coded e a scope i (.leaf x) code
  | operation {i l r : Nat} {op : Op} {x y : Expr} {code more : Array Instruction}
      (hl : a.label? i = some (.binary op l r))
      (hx : Coded e a scope l x code) (hy : Coded e a scope r y more) :
      Coded e a scope i (.operation op x y) ((code ++ more).push op.instruction)

variable {e : Emitter} {a : Arena} {scope : Scope}

theorem Coded.unfolds {i : Nat} {f : Expr} {code : Array Instruction}
    (h : e.Coded a scope i f code) : a.Unfolds i f := by
  induction h with
  | shared hf => exact hf
  | leaf hl => exact .leaf hl
  | operation hl _ _ ihx ihy => exact .operation hl ihx ihy

theorem coded_of_fold {i : Nat} {n : Node} {f : Expr} (hf : a.Unfolds i f) (hn : a.node? i = some n)
    {code : Array Instruction} (h : a.fold (e.visitor scope) n = some (.ok code)) :
    e.Coded a scope i f code := by
  refine Arena.fold_induction (P := fun i r => ∀ f code, a.Unfolds i f → r = .ok code →
    e.Coded a scope i f code) ?_ ?_ ?_ hn h f code hf rfl
  -- a node in scope is not unfolded, whatever its label
  · rintro i n _ hn hb f code hf rfl
    simp only [visitor, Arena.id_of_node? hn] at hb
    split at hb
    · exact .shared hf ‹_› (Option.some.inj hb)
    · cases hb
  · intro i n x _ _ hl f code hf hcode
    rw [hf.unique (.leaf hl)]
    exact .leaf hl hcode
  · intro i n op l r x y _ _ hl ihx ihy f code hf hcode
    obtain ⟨code₁, hc₁, hcode⟩ := exists_of_bind_eq_ok hcode
    obtain ⟨code₂, hc₂, hcode⟩ := exists_of_bind_eq_ok hcode
    cases hcode
    obtain ⟨x, y, rfl, hx, hy⟩ := hf.exists_operands hl
    exact .operation hl (ihx _ _ hx hc₁) (ihy _ _ hy hc₂)

theorem coded_of_nodeCode {i : Nat} {n : Node} {f : Expr} (hf : a.Unfolds i f)
    (hn : a.node? i = some n) {code : Array Instruction} (h : e.nodeCode a scope n = .ok code) :
    e.Coded a scope i f code := by
  unfold nodeCode at h
  split at h
  · rename_i result hr
    exact coded_of_fold hf hn (h ▸ hr)
  · cases h

theorem exists_of_emitShared {i : Nat} {f : Expr} (hf : a.Unfolds i f) {done done' : Emitted}
    (h : e.emitShared a done i = .ok done') :
    ∃ code, e.Coded a done.scope i f code ∧ (i : Int) < e.params.outputOffset ∧
      done.scope.declare i = .ok done'.scope ∧
      done'.code = done.code ++ (code ++ storeCode (.address (e.slotAddress i))) := by
  unfold emitShared at h
  split at h
  · cases h
  · rename_i n hn
    obtain ⟨code, hcode, h⟩ := exists_of_bind_eq_ok h
    obtain ⟨store, hstore, h⟩ := exists_of_bind_eq_ok h
    obtain ⟨scope, hscope, h⟩ := exists_of_bind_eq_ok h
    cases h
    obtain ⟨hi, rfl⟩ := storeShared_eq_ok hstore
    exact ⟨code, coded_of_nodeCode hf hn hcode, hi, hscope, Array.append_assoc ..⟩

theorem exists_of_emitOutputs {c : Circuit} (hc : c.arena = a) {cs : List Circuit} {index : Int}
    {done code : Array Instruction} (h : e.emitOutputs a scope index (c :: cs) done = .ok code) :
    ∃ node, e.Coded a scope c.id c.expr node ∧ index < e.params.capacity ∧
      e.emitOutputs a scope (index + 1) cs
          (done ++ (node ++ storeCode (.address (e.slotAddress (e.params.outputOffset + index))))) =
        .ok code := by
  rw [emitOutputs] at h
  obtain ⟨node, hnode, h⟩ := exists_of_bind_eq_ok h
  obtain ⟨store, hstore, h⟩ := exists_of_bind_eq_ok h
  obtain ⟨hlt, rfl⟩ := storeOutput_eq_ok hstore
  rw [Array.append_assoc] at h
  exact ⟨node, coded_of_nodeCode (hc ▸ c.unfolds_expr) (hc ▸ c.node?_id) hnode, hlt, h⟩

/-- Outputs are stored only if there is room for them. -/
theorem capacity_pos_of_emitOutputs {cs : List Circuit} (ha : ∀ c ∈ cs, c.arena = a)
    {index : Int} (hi : 0 ≤ index) (hcs : cs ≠ []) {done code : Array Instruction}
    (h : e.emitOutputs a scope index cs done = .ok code) : 0 < e.params.capacity := by
  cases cs with
  | nil => exact absurd rfl hcs
  | cons c cs =>
    obtain ⟨-, -, hlt, -⟩ := exists_of_emitOutputs (ha c List.mem_cons_self) h
    omega

theorem inRange_output {i : Nat} (hi : (i : Int) < e.params.capacity) :
    e.InRange (e.params.outputOffset + i) := by
  have hoff := e.params.three_mul_outputOffset
  have hres := e.params.reserved_lt_page
  exact ⟨by omega, by omega⟩

/-- A property of code, of the nodes that it has stored and of the constraints that it has
evaluated, that stores preserve. -/
structure Kept (e : Emitter) (a : Arena) (admits : Leaf → Prop)
    (P : Scope → List Circuit → Array Instruction → Prop) : Prop where
  share :
    ∀ {scope scope' : Scope} {outputs : List Circuit} {done : Array Instruction}
      {i : Nat} {f : Expr}
    {code : Array Instruction}, P scope outputs done → e.Coded a scope i f code →
    (∀ x ∈ f.vars, admits x) →
    0 < e.params.capacity → (i : Int) < e.params.outputOffset → scope.declare i = .ok scope' →
    P scope' outputs (done ++ (code ++ storeCode (.address (e.slotAddress i))))
  output :
    ∀ {scope : Scope} {outputs : List Circuit} {done : Array Instruction} {c : Circuit}
      {code : Array Instruction},
    P scope outputs done → e.Coded a scope c.id c.expr code → (∀ x ∈ c.expr.vars, admits x) →
    (outputs.length : Int) < e.params.capacity →
    P scope (outputs ++ [c])
      (done ++
        (code ++ storeCode (.address (e.slotAddress (e.params.outputOffset + outputs.length)))))
  forget : ∀ {scope : Scope} {outputs : List Circuit} {done : Array Instruction},
    P scope outputs done → P .empty outputs done

namespace Kept

variable {admits : Leaf → Prop} {P : Scope → List Circuit → Array Instruction → Prop}
  {outputs : List Circuit} {done code : Array Instruction}

theorem emitShareds (h : e.Kept a admits P) (hcap : 0 < e.params.capacity) {order : List Nat}
    (horder : ∀ i ∈ order, ∃ f, a.Unfolds i f ∧ ∀ x ∈ f.vars, admits x) {start stop : Emitted}
    (hshared : order.foldlM (e.emitShared a) start = .ok stop)
    (hstart : P start.scope outputs (done ++ start.code)) :
    P stop.scope outputs (done ++ stop.code) := by
  refine foldlM_induction (P := fun d : Emitted => P d.scope outputs (done ++ d.code))
    (fun d i d' hi hd hstep => ?_) hstart hshared
  obtain ⟨f, hf, hadm⟩ := horder i hi
  obtain ⟨code, hcode, hlt, hscope, heq⟩ := exists_of_emitShared hf hstep
  rw [heq, ← Array.append_assoc]
  exact h.share hd hcode hadm hcap hlt hscope

theorem emitOutputs (h : e.Kept a admits P) {cs : List Circuit} (ha : ∀ c ∈ cs, c.arena = a)
    (hadm : ∀ c ∈ cs, ∀ x ∈ c.expr.vars, admits x) {start : Array Instruction}
    (houtputs : e.emitOutputs a scope outputs.length cs start = .ok code)
    (hstart : P scope outputs (done ++ start)) : P scope (outputs ++ cs) (done ++ code) := by
  induction cs generalizing outputs start with
  | nil =>
    cases houtputs
    simpa using hstart
  | cons c cs ih =>
    obtain ⟨node, hnode, hlt, hrest⟩ := exists_of_emitOutputs (ha c List.mem_cons_self) houtputs
    have hstep := h.output hstart hnode (hadm c List.mem_cons_self) hlt
    rw [Array.append_assoc] at hstep
    have :=
      ih (fun d hd => ha d (List.mem_cons_of_mem c hd))
        (fun d hd => hadm d (List.mem_cons_of_mem c hd))
      (by simpa using hrest) hstep
    simpa using this

/-- The code of a bucket evaluates its constraints behind those before it. The next bucket starts
with no node in scope. -/
theorem bucketCode (h : e.Kept a admits P) {cs : List Circuit} (ha : ∀ c ∈ cs, c.arena = a)
    (hadm : ∀ c ∈ cs, ∀ x ∈ c.expr.vars, admits x)
    (hcode : e.bucketCode cs outputs.length = .ok code) (hdone : P .empty outputs done) :
    P .empty (outputs ++ outputOrder cs) (done ++ code) := by
  cases cs with
  | nil =>
    cases hcode
    simpa [outputOrder] using hdone
  | cons first rest =>
    obtain ⟨plan, hplan, hcode⟩ := exists_of_bind_eq_ok hcode
    obtain ⟨shared, hshared, hcode⟩ := exists_of_bind_eq_ok hcode
    rw [ha first List.mem_cons_self] at hshared hcode
    have ha' : ∀ c ∈ outputOrder (first :: rest), c.arena = a :=
      fun c hc => ha c (mem_outputOrder.1 hc)
    -- a bucket that is not empty has an output, so there is room for one
    have hne : outputOrder (first :: rest) ≠ [] :=
      List.ne_nil_of_mem (mem_outputOrder.2 List.mem_cons_self)
    have hcap := capacity_pos_of_emitOutputs ha' (by omega) hne hcode
    have horder : ∀ i ∈ plan.order, ∃ f, a.Unfolds i f ∧ ∀ x ∈ f.vars, admits x := by
      intro i hi
      obtain ⟨f, hf, c, hc, hs⟩ := (Plan.below_of_mem_order ha hplan hi).unfolds ha
      exact ⟨f, hf, fun x hx => hadm c hc x (hs x hx)⟩
    have hs := h.emitShareds hcap horder hshared (by simpa using hdone)
    exact h.forget (h.emitOutputs ha' (fun c hc => hadm c (mem_outputOrder.1 hc)) hcode hs)

end Kept

end Emitter

/-! ## Templates -/

theorem length_outputOrder (cs : List Circuit) : (outputOrder cs).length = cs.length := by
  rw [outputOrder, List.length_append, ← List.length_eq_length_filter_add]

/-- The constraints of all buckets, in the order of their outputs. -/
def allOutputs (cs : Buckets (List Circuit)) : List Circuit :=
  Role.all.flatMap fun role => outputOrder (cs.get role)

theorem length_allOutputs (cs : Buckets (List Circuit)) : (allOutputs cs).length = cs.total := by
  simp only [allOutputs, Role.all, List.flatMap_cons, List.flatMap_nil,
    List.length_append, length_outputOrder, Buckets.get, Buckets.total, List.length_nil]
  omega

theorem Evaluation.values_eq (ρ : Assignment) (cs : Buckets (List Circuit)) :
    values ρ cs = (allOutputs cs).map fun c => c.expr.value ρ := by
  rw [values, allOutputs, List.map_flatMap]

namespace Template

/-- The parts of a template. -/
structure Assembled (e : Emitter) (shape : Shape) (cs : Buckets (List Circuit))
    (t : Template) : Prop where
  mode : t.mode = e.mode
  shape : t.shape = shape
  params : t.params = e.params
  prologue : t.prologue = e.prologue
  output : t.output = ⟨.page, e.scratchOffset + 3 * e.params.outputOffset⟩
  count : t.count = cs.total
  initial : e.bucketCode cs.initial 0 = .ok t.buckets.initial
  consistency : e.bucketCode cs.consistency cs.initial.length = .ok t.buckets.consistency
  transition : e.bucketCode cs.transition ↑(cs.initial.length + cs.consistency.length) =
    .ok t.buckets.transition
  terminal :
    e.bucketCode cs.terminal ↑(cs.initial.length + cs.consistency.length + cs.transition.length) =
    .ok t.buckets.terminal

variable {e : Emitter} {shape : Shape} {cs : Buckets (List Circuit)} {t : Template} {l : Layout}
  {code : Array Instruction}

theorem assembled_of_ofCircuits (h : ofCircuits e shape cs = .ok t) : Assembled e shape cs t := by
  obtain ⟨output, houtput, h⟩ := exists_of_bind_eq_ok h
  obtain ⟨initial, h₁, h⟩ := exists_of_bind_eq_ok h
  obtain ⟨consistency, h₂, h⟩ := exists_of_bind_eq_ok h
  obtain ⟨transition, h₃, h⟩ := exists_of_bind_eq_ok h
  obtain ⟨terminal, h₄, h⟩ := exists_of_bind_eq_ok h
  cases h
  exact ⟨rfl, rfl, rfl, rfl, Emitter.scratchAddress_eq_ok houtput, rfl, h₁, h₂, h₃, h₄⟩

theorem instantiate_eq_ok (h : t.instantiate l = .ok code) :
    l.mode = t.mode ∧ l.check t.shape t.params = .ok () ∧ l.Resolves t.code code.toList := by
  unfold instantiate at h
  split at h
  · cases h
  · rename_i hmode
    obtain ⟨_, hcheck, hcode⟩ := exists_of_bind_eq_ok h
    refine ⟨not_not.1 hmode, hcheck, ?_⟩
    rw [Layout.Resolves, ← Array.toList_mapM, hcode]
    rfl

/-- Bucket after bucket is emitted behind those before it. -/
theorem Assembled.kept (h : Assembled e shape cs t) {a : Arena} {admits : Leaf → Prop}
    (hcs : ∀ role, ∀ c ∈ cs.get role, c.arena = a ∧ ∀ x ∈ c.expr.vars, admits x)
    {P : Scope → List Circuit → Array Instruction → Prop} (hP : e.Kept a admits P)
    {done : Array Instruction} (hdone : P .empty [] done) :
    P .empty (allOutputs cs)
      (done ++
        (t.buckets.initial ++ t.buckets.consistency ++ t.buckets.transition ++
          t.buckets.terminal)) := by
  have hbucket :
      ∀ (role : Role) (outputs : List Circuit) (index : Nat) (done code : Array Instruction),
      outputs.length = index → e.bucketCode (cs.get role) index = .ok code → P .empty outputs done →
      P .empty (outputs ++ outputOrder (cs.get role)) (done ++ code) := by
    rintro role outputs _ done code rfl hcode hd
    exact hP.bucketCode (fun c hc => (hcs role c hc).1) (fun c hc => (hcs role c hc).2) hcode hd
  have h₁ := hbucket .initial [] 0 _ _ rfl h.initial hdone
  have h₂ :=
    hbucket .consistency _ _ _ _ (by rw [List.nil_append, length_outputOrder]; rfl) h.consistency h₁
  have h₃ := hbucket .transition _ _ _ _
    (by rw [List.nil_append, List.length_append, length_outputOrder, length_outputOrder]; rfl)
      h.transition h₂
  have h₄ := hbucket .terminal _ _ _ _
    (by rw [List.nil_append, List.length_append, List.length_append,
      length_outputOrder, length_outputOrder, length_outputOrder]; rfl) h.terminal h₃
  simpa only [allOutputs, Role.all, List.flatMap_cons, List.flatMap_nil, List.append_nil,
    List.nil_append, List.append_assoc, Array.append_assoc] using h₄

/-- The code ends with the push of the address of the output array. -/
theorem Assembled.exists_of_resolves (h : Assembled e shape cs t) {page : Int}
    (hpage : l.pointer? .page = some page) {resolved : List Instruction}
    (hcode : l.Resolves t.code resolved) :
    ∃ start, l.Resolves
        (e.prologue ++
          (t.buckets.initial ++ t.buckets.consistency ++ t.buckets.transition ++
            t.buckets.terminal)) start ∧
      resolved = start ++ [.push (.word (e.slot page e.params.outputOffset % prime))] := by
  have hsplit :
      t.code = e.prologue ++ (t.buckets.initial ++ t.buckets.consistency ++ t.buckets.transition ++
      t.buckets.terminal) ++ t.epilogue := by
    simp only [Template.code, h.prologue, Array.append_assoc]
  rw [hsplit] at hcode
  obtain ⟨start, last, hstart, hlast, rfl⟩ := Layout.resolves_append hcode
  refine ⟨start, hstart, ?_⟩
  simp only [Layout.Resolves, epilogue, h.output, List.mapM_cons, Instruction.resolveWith,
    Layout.resolve_eq hpage] at hlast
  cases hlast
  rfl

theorem Assembled.outputArray_eq (h : Assembled e shape cs t) {page : Int}
    (hpage : l.pointer? .page = some page) :
    t.outputArray l = .ok (e.slot page e.params.outputOffset % prime) := by
  rw [outputArray, h.output, Layout.resolve_eq hpage]
  rfl

end Template

end AirCompiler
