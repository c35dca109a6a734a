import AirCompiler.Artifacts
import AirCompiler.Proofs.Assembly.Emission
import AirCompiler.Proofs.Assembly.Setting
import AirCompiler.Proofs.Sharing.Paths

/-!
# Limits of emission

For which circuits of one arena assembly can be emitted. Every load and store is checked by itself,
and no check depends on the code around it: emission succeeds if and only if all of them pass. Below
an operation that is loaded nothing is emitted, but its own code was emitted when it was stored.

* `Emitter.Loads e a i`: every leaf below node `i` can be loaded.
* `Emitter.Stored.exists_nodeCode_iff`: that is what the code of a node needs, whichever operations
  are loaded.
* `Emitter.exists_bucketCode_iff`, `Template.exists_ofCircuits_iff`: the conditions of a bucket, and
  of a template.
* `Template.ofCircuits_fails_iff`: the conditions in numbers. All failures are broken invariants.
-/

namespace AirCompiler

/-- The column of a cell, or the number of a challenge. -/
def Leaf.index? : Leaf → Option Int
  | .constant _ => none
  | .input c => some c.column
  | .challenge i => some i

/-- The computation fails, if at all, because an invariant is broken. -/
def Guarded {α : Type} (x : Except CompileError α) : Prop :=
  ∀ err, x = .error err → err.isInvariant = true

namespace Guarded

variable {α β : Type}

theorem ok (v : α) : Guarded (.ok v) := by
  intro err h
  cases h

theorem error {err : CompileError} (h : err.isInvariant = true) :
    Guarded (.error err : Except CompileError α) := by
  intro err' h'
  cases h'
  exact h

theorem exists_error_iff {x : Except CompileError α} (h : Guarded x) :
    (∃ err, x = .error err ∧ err.isInvariant = true) ↔ ¬ ∃ v, x = .ok v := by
  cases x with
  | error err => simp [h err rfl]
  | ok v => simp

theorem bind {x : Except CompileError α} {f : α → Except CompileError β} (hx : Guarded x)
    (hf : ∀ v, Guarded (f v)) : Guarded (x >>= f) := by
  cases x with
  | error err => exact .error (hx err rfl)
  | ok v => exact hf v

theorem foldlM {f : β → α → Except CompileError β} {xs : List α}
    (h : ∀ x ∈ xs, ∀ b, Guarded (f b x)) (b : β) : Guarded (xs.foldlM f b) := by
  induction xs generalizing b with
  | nil => exact .ok b
  | cons x xs ih =>
    rw [List.foldlM_cons]
    exact (h x List.mem_cons_self b).bind fun c =>
      ih (fun y hy => h y (List.mem_cons_of_mem x hy)) c

theorem declare (scope : Scope) (id : Int) : Guarded (scope.declare id) := by
  unfold Scope.declare
  split
  · exact .error rfl
  · exact .ok _

end Guarded

namespace Emitter

variable {e : Emitter} {a : Arena} {scope : Scope} {cs : List Circuit}

/-! ## Single accesses -/

theorem exists_checkOffset_iff {offset : Int} :
    (∃ v, checkOffset offset = .ok v) ↔ offset < maxOffset := by
  unfold checkOffset
  split <;> simp <;> omega

theorem exists_scratchAddress_iff {word : Int} :
    (∃ v, e.scratchAddress word = .ok v) ↔ e.scratchOffset + word < maxOffset := by
  rw [scratchAddress, exists_bind_iff, ← exists_checkOffset_iff]
  simp [pure, Except.pure]

theorem exists_leafCode_iff {x : Leaf} :
    (∃ code, e.leafCode x = .ok code) ↔ ∀ i, x.index? = some i → 3 * i + 2 < maxOffset := by
  cases x with
  | constant s => simp [leafCode, Leaf.index?]
  | challenge i =>
    simp only [leafCode, loadElement, exists_bind_iff, Leaf.index?, Option.some.injEq, forall_eq',
      ← exists_checkOffset_iff]
    simp [pure, Except.pure]
  | input c =>
    obtain ⟨slot, hslot, -⟩ := exists_pointerSlot c.row c.table
    simp only [leafCode, loadRowElement, hslot, Leaf.index?, Option.some.injEq, forall_eq',
      ← exists_checkOffset_iff]
    cases e.mode with
    | static => simp [loadElement, exists_bind_iff, pure, Except.pure]
    | dynamic => simp [exists_bind_iff, pure, Except.pure]

theorem exists_storeOutput_iff {index : Int} :
    (∃ code, e.storeOutput index = .ok code) ↔
      index < e.params.capacity ∧
      e.scratchOffset + 3 * (e.params.outputOffset + index) < maxOffset := by
  unfold storeOutput
  rw [← exists_scratchAddress_iff]
  split
  · simp [throw, throwThe, MonadExceptOf.throw, bind, Except.bind]
    omega
  · simp [exists_bind_iff, pure, Except.pure]
    omega

/-- The output array can be addressed and all its elements stored if and only if it is large enough
and its last element can be addressed. -/
theorem exists_storeOutputs_iff {n : Nat} :
    (e.scratchOffset + 3 * e.params.outputOffset < maxOffset ∧
      ∀ k < n, ∃ store, e.storeOutput (k : Nat) = .ok store) ↔
      (0 < n → (n : Int) ≤ e.params.capacity) ∧
      e.scratchOffset + 3 * (e.params.outputOffset + max ((n : Int) - 1) 0) < maxOffset := by
  simp only [exists_storeOutput_iff]
  constructor
  · rintro ⟨hpage, hstores⟩
    cases n with
    | zero => omega
    | succ n =>
      have hlast := hstores n (Nat.lt_succ_self n)
      omega
  · rintro ⟨hroom, hlast⟩
    refine ⟨by omega, fun k hk => ?_⟩
    have := hroom (by omega)
    omega

theorem exists_loadShared (hpage : e.scratchOffset + 3 * e.params.outputOffset < maxOffset)
    {id : Int} (hid : id < e.params.outputOffset) : ∃ code, e.loadShared id = .ok code := by
  obtain ⟨address, haddress⟩ :=
    exists_scratchAddress_iff.2 (show e.scratchOffset + (3 * id + 2) < maxOffset by omega)
  rw [loadShared, checkShared, if_neg (by omega), haddress]
  exact ⟨_, rfl⟩

theorem exists_storeShared (hpage : e.scratchOffset + 3 * e.params.outputOffset < maxOffset)
    {id : Int} (hid : id < e.params.outputOffset) : ∃ code, e.storeShared id = .ok code := by
  obtain ⟨address, haddress⟩ :=
    exists_scratchAddress_iff.2 (show e.scratchOffset + 3 * id < maxOffset by omega)
  rw [storeShared, checkShared, if_neg (by omega), haddress]
  exact ⟨_, rfl⟩

theorem guarded_checkOffset (offset : Int) : Guarded (checkOffset offset) := by
  unfold checkOffset
  split
  · exact .error rfl
  · exact .ok _

theorem guarded_scratchAddress (word : Int) : Guarded (e.scratchAddress word) :=
  (guarded_checkOffset _).bind fun _ => .ok _

theorem guarded_checkShared (id : Int) : Guarded (e.checkShared id) := by
  unfold checkShared
  split
  · exact .error rfl
  · exact .ok _

theorem guarded_leafCode (x : Leaf) : Guarded (e.leafCode x) := by
  cases x with
  | constant s => exact .ok _
  | challenge i => exact (guarded_checkOffset _).bind fun _ => .ok _
  | input c =>
    obtain ⟨slot, hslot, -⟩ := exists_pointerSlot c.row c.table
    simp only [leafCode, loadRowElement, hslot]
    cases e.mode with
    | static => exact (guarded_checkOffset _).bind fun _ => .ok _
    | dynamic => exact (guarded_checkOffset _).bind fun _ => .ok _

theorem guarded_loadShared (id : Int) : Guarded (e.loadShared id) :=
  (guarded_checkShared id).bind fun _ => (guarded_scratchAddress _).bind fun _ => .ok _

theorem guarded_storeShared (id : Int) : Guarded (e.storeShared id) :=
  (guarded_checkShared id).bind fun _ => (guarded_scratchAddress _).bind fun _ => .ok _

theorem guarded_storeOutput (index : Int) : Guarded (e.storeOutput index) := by
  unfold storeOutput
  split
  · exact .error rfl
  · exact (guarded_scratchAddress _).bind fun _ => .ok _

/-! ## Nodes -/

/-- Every leaf below the node can be loaded. -/
def Loads (e : Emitter) (a : Arena) (i : Nat) : Prop :=
  ∀ j x, a.Reaches i j → a.label? j = some (.leaf x) → ∃ code, e.leafCode x = .ok code

theorem Loads.reaches {i j : Nat} (h : e.Loads a i) (hij : a.Reaches i j) : e.Loads a j :=
  fun k x hk hx => h k x (hij.trans hk) hx

theorem loads_leaf {i : Nat} {x : Leaf} (hl : a.label? i = some (.leaf x)) :
    e.Loads a i ↔ ∃ code, e.leafCode x = .ok code := by
  refine ⟨fun h => h i x .refl hl, fun h j y hj hy => ?_⟩
  rw [(Arena.reaches_leaf hl).1 hj, hl] at hy
  cases hy
  exact h

theorem loads_binary {op : Op} {i l r : Nat} (hl : a.label? i = some (.binary op l r)) :
    e.Loads a i ↔ e.Loads a l ∧ e.Loads a r := by
  constructor
  · intro h
    exact ⟨h.reaches ((Arena.reaches_binary hl).2 (.inr (.inl .refl))),
      h.reaches ((Arena.reaches_binary hl).2 (.inr (.inr .refl)))⟩
  · rintro ⟨h₁, h₂⟩ j x hj hx
    rcases (Arena.reaches_binary hl).1 hj with rfl | hj | hj
    · rw [hl] at hx
      cases hx
    · exact h₁ j x hj hx
    · exact h₂ j x hj hx

/-- The nodes in scope have slots below the output array, and had code. -/
def Stored (e : Emitter) (a : Arena) (scope : Scope) : Prop :=
  ∀ i : Nat, scope.contains i = true → (i : Int) < e.params.outputOffset ∧ e.Loads a i

theorem stored_empty : e.Stored a .empty := by
  intro i hi
  rw [Scope.contains_empty] at hi
  cases hi

theorem Stored.declare {scope' : Scope} {i : Nat} (h : e.Stored a scope)
    (hscope : scope.declare i = .ok scope') (hi : (i : Int) < e.params.outputOffset)
    (hloads : e.Loads a i) : e.Stored a scope' := by
  intro j hj
  rcases (Scope.declare_eq_ok hscope j).1 hj with hj | hj
  · exact h j hj
  · obtain rfl : j = i := by exact_mod_cast hj
    exact ⟨hi, hloads⟩

/-- A node that has code has leaves that can be loaded: those of its own code, and those below the
nodes that it loads. -/
theorem Coded.loads (hs : e.Stored a scope) {i : Nat} {f : Expr} {code : Array Instruction}
    (h : e.Coded a scope i f code) :
    e.Loads a i := by
  induction h with
  | shared _ hi _ => exact (hs _ hi).2
  | leaf hl h => exact (loads_leaf hl).2 ⟨_, h⟩
  | operation hl _ _ ihx ihy => exact (loads_binary hl).2 ⟨ihx, ihy⟩

/-- A node has code if and only if the leaves below it can be loaded. -/
theorem Stored.exists_nodeCode_iff (hpage : e.scratchOffset + 3 * e.params.outputOffset < maxOffset)
    (hs : e.Stored a scope) {i : Nat} {n : Node} (hn : a.node? i = some n) :
    (∃ code, e.nodeCode a scope n = .ok code) ↔ e.Loads a i := by
  obtain ⟨f, hf⟩ := Arena.exists_unfolds (Arena.lt_of_node? hn)
  constructor
  · rintro ⟨code, hcode⟩
    exact (coded_of_nodeCode hf hn hcode).loads hs
  · intro hi
    obtain ⟨result, hr⟩ := Arena.exists_fold (e.visitor scope) hf hn
    rw [nodeCode, hr]
    refine Arena.fold_induction (P := fun i r => e.Loads a i → ∃ code, r = .ok code) ?_ ?_
      ?_ hn hr hi
    · intro i n r hn hb _
      simp only [visitor, Arena.id_of_node? hn] at hb
      split at hb
      · rename_i hin
        rw [← Option.some.inj hb]
        exact exists_loadShared hpage (hs i hin).1
      · cases hb
    · intro i n x _ _ hl hi
      exact (loads_leaf hl).1 hi
    · intro i n op l r x y _ _ hl ihx ihy hi
      obtain ⟨hil, hir⟩ := (loads_binary hl).1 hi
      obtain ⟨code₁, rfl⟩ := ihx hil
      obtain ⟨code₂, rfl⟩ := ihy hir
      exact ⟨_, rfl⟩

/-- A node of the arena is never unknown. -/
theorem guarded_nodeCode {i : Nat} {n : Node} (hn : a.node? i = some n) :
    Guarded (e.nodeCode a scope n) := by
  obtain ⟨f, hf⟩ := Arena.exists_unfolds (Arena.lt_of_node? hn)
  obtain ⟨result, hr⟩ := Arena.exists_fold (e.visitor scope) hf hn
  rw [nodeCode, hr]
  refine Arena.fold_induction (P := fun _ r => Guarded r) ?_ ?_ ?_ hn hr
  · intro i n r hn hb
    simp only [visitor] at hb
    split at hb
    · rw [← Option.some.inj hb]
      exact guarded_loadShared _
    · cases hb
  · intro i n x _ _ _
    exact guarded_leafCode x
  · intro i n op l r x y _ _ _ hx hy
    exact hx.bind fun _ => hy.bind fun _ => .ok _

/-! ## Buckets -/

theorem Stored.emitShared {done done' : Emitted} {i : Nat} (hs : e.Stored a done.scope)
    (hi : i < a.size) (h : e.emitShared a done i = .ok done') :
    (i : Int) < e.params.outputOffset ∧ e.Stored a done'.scope := by
  obtain ⟨f, hf⟩ := Arena.exists_unfolds hi
  obtain ⟨code, hcode, hlt, hscope, -⟩ := exists_of_emitShared hf h
  exact ⟨hlt, hs.declare hscope hlt (hcode.loads hs)⟩

/-- Each node that was stored has its slot below the output array. -/
theorem Stored.of_foldlM {order : List Nat} (horder : ∀ i ∈ order, i < a.size)
    {done done' : Emitted} (hs : e.Stored a done.scope)
    (h : order.foldlM (e.emitShared a) done = .ok done') :
    (∀ i ∈ order, (i : Int) < e.params.outputOffset) ∧ e.Stored a done'.scope := by
  have hstep : ∀ d i d', i ∈ order → e.Stored a d.scope → e.emitShared a d i = .ok d' →
      e.Stored a d'.scope ∧ (i : Int) < e.params.outputOffset :=
    fun d i d' hi hd h => (hd.emitShared (horder i hi) h).symm
  exact (foldlM_forall (P := fun d : Emitted => e.Stored a d.scope) hstep hs h).symm

theorem exists_emitShareds (hpage : e.scratchOffset + 3 * e.params.outputOffset < maxOffset)
    {order : List Nat} (hnodup : order.Nodup)
    (horder : ∀ i ∈ order, i < a.size ∧ (i : Int) < e.params.outputOffset ∧ e.Loads a i)
    {d : Emitted} (hs : e.Stored a d.scope) (hnew : ∀ i ∈ order, ¬ d.scope.contains i = true) :
    ∃ d', order.foldlM (e.emitShared a) d = .ok d' := by
  induction order generalizing d with
  | nil => exact ⟨d, rfl⟩
  | cons i order ih =>
    rw [List.nodup_cons] at hnodup
    obtain ⟨hsize, hlt, hloads⟩ := horder i List.mem_cons_self
    obtain ⟨n, hn⟩ := Arena.exists_node? hsize
    obtain ⟨code, hcode⟩ := (hs.exists_nodeCode_iff hpage hn).2 hloads
    obtain ⟨store, hstore⟩ := exists_storeShared hpage hlt
    obtain ⟨scope, hscope⟩ := Scope.exists_declare (hnew i List.mem_cons_self)
    obtain ⟨d', hd'⟩ := ih hnodup.2 (fun j hj => horder j (List.mem_cons_of_mem i hj))
      (d := ⟨scope, d.code ++ code ++ store⟩) (hs.declare hscope hlt hloads)
      (Scope.new_of_declare hscope hnodup.1 fun j hj => hnew j (List.mem_cons_of_mem i hj))
    refine ⟨d', ?_⟩
    rw [List.foldlM_cons, emitShared, hn]
    simp only [hcode, hstore, hscope]
    exact hd'

theorem exists_emitOutputs_iff (hpage : e.scratchOffset + 3 * e.params.outputOffset < maxOffset)
    (hs : e.Stored a scope) (ha : ∀ c ∈ cs, c.arena = a) {index : Int} {done : Array Instruction} :
    (∃ code, e.emitOutputs a scope index cs done = .ok code) ↔
      (∀ c ∈ cs, e.Loads a c.id) ∧
      ∀ k < cs.length, ∃ store, e.storeOutput (index + k) = .ok store := by
  induction cs generalizing index done with
  | nil => simp [emitOutputs]
  | cons c cs ih =>
    have hn : a.node? c.id = some c.node := ha c List.mem_cons_self ▸ c.node?_id
    have ih := fun done => @ih (fun d hd => ha d (List.mem_cons_of_mem c hd)) (index + 1) done
    -- the output at position `k` behind the first is the one at `k + 1` of all
    have hindex : ∀ k : Nat, index + 1 + (k : Int) = index + ((k + 1 : Nat) : Int) := by omega
    simp only [hindex] at ih
    constructor
    · rintro ⟨code, h⟩
      obtain ⟨node, hnode, h⟩ := exists_of_bind_eq_ok h
      obtain ⟨store, hstore, h⟩ := exists_of_bind_eq_ok h
      obtain ⟨hloads, hstores⟩ := (ih _).1 ⟨code, h⟩
      refine ⟨List.forall_mem_cons.2 ⟨(hs.exists_nodeCode_iff hpage hn).1 ⟨node, hnode⟩, hloads⟩,
        fun k hk => ?_⟩
      cases k with
      | zero => exact ⟨store, by rwa [Nat.cast_zero, add_zero]⟩
      | succ k => exact hstores k (Nat.lt_of_succ_lt_succ hk)
    · rintro ⟨hloads, hstores⟩
      rw [List.forall_mem_cons] at hloads
      obtain ⟨node, hnode⟩ := (hs.exists_nodeCode_iff hpage hn).2 hloads.1
      obtain ⟨store, hstore⟩ := hstores 0 (Nat.succ_pos _)
      rw [Nat.cast_zero, add_zero] at hstore
      simp only [emitOutputs, hnode, hstore, bind, Except.bind]
      exact (ih _).2 ⟨hloads.2, fun k hk => hstores (k + 1) (Nat.succ_lt_succ hk)⟩

/-- A bucket has code if and only if the leaves below it can be loaded, its shared operations have
slots below the output array, and all its outputs can be stored. -/
theorem exists_bucketCode_iff (hpage : e.scratchOffset + 3 * e.params.outputOffset < maxOffset)
    (ha : ∀ c ∈ cs, c.arena = a) {index : Int} :
    (∃ code, e.bucketCode cs index = .ok code) ↔
      (∀ c ∈ cs, e.Loads a c.id) ∧
      (∀ i, a.IsOperation i → 2 ≤ (rootPaths a cs i).encard → (i : Int) < e.params.outputOffset) ∧
      ∀ k < cs.length, ∃ store, e.storeOutput (index + k) = .ok store := by
  obtain ⟨plan, hplan, -, hordered, hmem⟩ := Plan.exists_ofCircuits ha
  have hbelow : ∀ i ∈ plan.order, Below a cs i := fun i hi => ((hmem i).1 hi).1
  have hshared :
      (∀ i, a.IsOperation i → 2 ≤ (rootPaths a cs i).encard → (i : Int) < e.params.outputOffset) ↔
      ∀ i ∈ plan.order, (i : Int) < e.params.outputOffset := by
    simp only [Plan.mem_order_iff ha hplan, and_imp]
  rw [hshared]
  cases cs with
  | nil =>
    have hnone : plan.order = [] := List.eq_nil_iff_forall_not_mem.2 fun i hi => by
      simpa [Below] using hbelow i hi
    simp [bucketCode, hnone]
  | cons first rest =>
    have ha' : ∀ c ∈ outputOrder (first :: rest), c.arena = a :=
      fun c hc => ha c (mem_outputOrder.1 hc)
    have houtputs : ∀ shared : Emitted, e.Stored a shared.scope →
        ((∃ code, e.emitOutputs a shared.scope index (outputOrder (first :: rest)) shared.code =
          .ok code) ↔ (∀ c ∈ first :: rest, e.Loads a c.id) ∧
          ∀ k < (first :: rest).length, ∃ store, e.storeOutput (index + k) = .ok store) := by
      intro shared hs
      rw [exists_emitOutputs_iff hpage hs ha', length_outputOrder]
      simp only [mem_outputOrder]
    have hcode : (∃ code, e.bucketCode (first :: rest) index = .ok code) ↔
        ∃ shared, plan.order.foldlM (e.emitShared a) ⟨.empty, #[]⟩ = .ok shared ∧
          ∃ code, e.emitOutputs a shared.scope index (outputOrder (first :: rest)) shared.code =
            .ok code := by
      simp only [bucketCode, hplan, ha first List.mem_cons_self, bind, Except.bind]
      exact exists_bind_iff
    rw [hcode]
    constructor
    · rintro ⟨shared, hshared, hrest⟩
      obtain ⟨hlt, hs⟩ := stored_empty.of_foldlM (fun i hi => (hbelow i hi).lt ha) hshared
      obtain ⟨hloads, hstores⟩ := (houtputs shared hs).1 hrest
      exact ⟨hloads, hlt, hstores⟩
    · rintro ⟨hloads, hlt, hstores⟩
      have horder : ∀ i ∈ plan.order, i < a.size ∧ (i : Int) < e.params.outputOffset ∧
          e.Loads a i := by
        intro i hi
        obtain ⟨c, hc, hci⟩ := hbelow i hi
        exact ⟨(hbelow i hi).lt ha, hlt i hi, (hloads c hc).reaches hci⟩
      obtain ⟨shared, hshared⟩ :=
        exists_emitShareds hpage hordered.nodup horder (d := ⟨.empty, #[]⟩) stored_empty
          (by simp [Scope.contains_empty])
      obtain ⟨-, hs⟩ := stored_empty.of_foldlM (fun i hi => (hbelow i hi).lt ha) hshared
      exact ⟨shared, hshared, (houtputs shared hs).2 ⟨hloads, hstores⟩⟩

theorem guarded_emitShared {i : Nat} (hi : i < a.size) (done : Emitted) :
    Guarded (e.emitShared a done i) := by
  obtain ⟨n, hn⟩ := Arena.exists_node? hi
  rw [emitShared, hn]
  exact (guarded_nodeCode hn).bind fun _ => (guarded_storeShared _).bind fun _ =>
    (Guarded.declare _ _).bind fun _ => .ok _

theorem guarded_emitOutputs (ha : ∀ c ∈ cs, c.arena = a) (index : Int) (done : Array Instruction) :
    Guarded (e.emitOutputs a scope index cs done) := by
  induction cs generalizing index done with
  | nil => exact .ok _
  | cons c cs ih =>
    have hn : a.node? c.id = some c.node := ha c List.mem_cons_self ▸ c.node?_id
    exact (guarded_nodeCode hn).bind fun _ => (guarded_storeOutput _).bind fun _ =>
      ih (fun d hd => ha d (List.mem_cons_of_mem c hd)) _ _

theorem guarded_bucketCode (ha : ∀ c ∈ cs, c.arena = a) (index : Int) :
    Guarded (e.bucketCode cs index) := by
  cases cs with
  | nil => exact .ok _
  | cons first rest =>
    obtain ⟨plan, hplan, -, -, hmem⟩ := Plan.exists_ofCircuits ha
    have ha' : ∀ c ∈ outputOrder (first :: rest), c.arena = a :=
      fun c hc => ha c (mem_outputOrder.1 hc)
    simp only [bucketCode, hplan, ha first List.mem_cons_self]
    refine (Guarded.foldlM (fun i hi done => guarded_emitShared (((hmem i).1 hi).1.lt ha) done)
      _).bind fun shared => ?_
    exact guarded_emitOutputs ha' _ _

end Emitter

/-! ## Templates -/

theorem Role.forall_iff {P : Role → Prop} :
    (∀ role, P role) ↔ P .initial ∧ P .consistency ∧ P .transition ∧ P .terminal := by
  constructor
  · intro h
    exact ⟨h _, h _, h _, h _⟩
  · rintro ⟨h₁, h₂, h₃, h₄⟩ role
    cases role <;> assumption

theorem forall_lt_add_iff {P : Nat → Prop} {m n : Nat} :
    (∀ k < m + n, P k) ↔ (∀ k < m, P k) ∧ ∀ k < n, P (m + k) := by
  refine ⟨fun h => ⟨fun k hk => h k (by omega), fun k hk => h (m + k) (by omega)⟩, fun h k hk => ?_⟩
  by_cases hkm : k < m
  · exact h.1 k hkm
  · have hshift := h.2 (k - m) (by omega)
    rwa [Nat.add_sub_cancel' (by omega)] at hshift

/-- `small` with so many words for pointers that eight outputs are left. -/
def Params.crowded : Params := { Params.small with pointers := 1000 }

namespace Template

variable {e : Emitter} {a : Arena} {shape : Shape} {cs : Buckets (List Circuit)}

/-- Four buckets have code if and only if the output array can be addressed and each bucket has
code. -/
theorem exists_ofCircuits_iff (ha : ∀ role, ∀ c ∈ cs.get role, c.arena = a) :
    (∃ t, ofCircuits e shape cs = .ok t) ↔
      e.scratchOffset + 3 * e.params.outputOffset < maxOffset ∧
      (∀ role, ∀ c ∈ cs.get role, e.Loads a c.id) ∧
      (∀ role i, a.IsOperation i → 2 ≤ (rootPaths a (cs.get role) i).encard →
        (i : Int) < e.params.outputOffset) ∧
      ∀ k < cs.total, ∃ store, e.storeOutput (k : Nat) = .ok store := by
  have hcode : (∃ t, ofCircuits e shape cs = .ok t) ↔ (∃ address, e.outputAddress = .ok address) ∧
      (∃ code, e.bucketCode cs.initial 0 = .ok code) ∧
      (∃ code, e.bucketCode cs.consistency cs.initial.length = .ok code) ∧
      (∃ code, e.bucketCode cs.transition ↑(cs.initial.length + cs.consistency.length) = .ok code) ∧
      ∃ code, e.bucketCode cs.terminal
        ↑(cs.initial.length + cs.consistency.length + cs.transition.length) = .ok code := by
    simp only [ofCircuits, exists_bind_iff]
    simp [pure, Except.pure]
  rw [hcode, Emitter.outputAddress, Emitter.exists_scratchAddress_iff]
  refine and_congr_right fun hpage => ?_
  have h₁ : ∀ c ∈ cs.initial, c.arena = a := ha .initial
  have h₂ : ∀ c ∈ cs.consistency, c.arena = a := ha .consistency
  have h₃ : ∀ c ∈ cs.transition, c.arena = a := ha .transition
  have h₄ : ∀ c ∈ cs.terminal, c.arena = a := ha .terminal
  rw [Emitter.exists_bucketCode_iff hpage h₁, Emitter.exists_bucketCode_iff hpage h₂,
    Emitter.exists_bucketCode_iff hpage h₃, Emitter.exists_bucketCode_iff hpage h₄]
  simp only [Buckets.total, forall_lt_add_iff, Role.forall_iff, Buckets.get, Nat.cast_add, zero_add]
  tauto

theorem guarded_ofCircuits (ha : ∀ role, ∀ c ∈ cs.get role, c.arena = a) :
    Guarded (ofCircuits e shape cs) :=
  (Emitter.guarded_scratchAddress _).bind fun _ =>
  (Emitter.guarded_bucketCode (ha .initial) _).bind fun _ =>
  (Emitter.guarded_bucketCode (ha .consistency) _).bind fun _ =>
  (Emitter.guarded_bucketCode (ha .transition) _).bind fun _ =>
  (Emitter.guarded_bucketCode (ha .terminal) _).bind fun _ => .ok _

/-- Assembly for circuits of one arena cannot be emitted if and only if a column or a challenge is
too far away, a shared operation has its slot in the output array, the output array is too small, or
its last element is too far away. Each time an invariant is broken; there are no other failures. -/
theorem ofCircuits_fails_iff (ha : ∀ role, ∀ c ∈ cs.get role, c.arena = a) :
    ((∃ err, ofCircuits e shape cs = .error err ∧ err.isInvariant = true) ↔
      (∃ role, ∃ c ∈ cs.get role, ∃ j x i, a.Reaches c.id j ∧ a.label? j = some (.leaf x) ∧
        x.index? = some i ∧ maxOffset ≤ 3 * i + 2) ∨
      (∃ role i, a.IsOperation i ∧ 2 ≤ (rootPaths a (cs.get role) i).encard ∧
        e.params.outputOffset ≤ i) ∨
      (0 < cs.total ∧ e.params.capacity < cs.total) ∨
      maxOffset ≤ e.scratchOffset + 3 * (e.params.outputOffset + max ((cs.total : Int) - 1) 0)) ∧
    ∀ err, ofCircuits e shape cs = .error err → err.isInvariant = true := by
  have hguarded : Guarded (ofCircuits e shape cs) := guarded_ofCircuits ha
  refine ⟨?_, hguarded⟩
  rw [hguarded.exists_error_iff, exists_ofCircuits_iff ha]
  constructor
  · intro h
    by_contra hno
    simp only [not_or, not_exists, not_and, not_le] at hno
    obtain ⟨hindex, hshared, hroom, hlast⟩ := hno
    obtain ⟨hpage, hstores⟩ :=
      Emitter.exists_storeOutputs_iff.2 ⟨fun hn => not_lt.1 (hroom hn), hlast⟩
    refine h ⟨hpage, fun role c hc j x hj hx => ?_, hshared, hstores⟩
    exact Emitter.exists_leafCode_iff.2 fun i hi => hindex role c hc j x i hj hx hi
  · rintro hcause ⟨hpage, hloads, hshared, hstores⟩
    obtain ⟨hroom, hlast⟩ := Emitter.exists_storeOutputs_iff.1 ⟨hpage, hstores⟩
    rcases hcause with ⟨role, c, hc, j, x, i, hj, hx, hi, hle⟩ | ⟨role, i, hop, hpaths,
      hle⟩ | ⟨hn, hlt⟩ | hle
    · have := Emitter.exists_leafCode_iff.1 (hloads role c hc j x hj hx) i hi
      omega
    · have := hshared role i hop hpaths
      omega
    · have := hroom hn
      omega
    · omega

/-- With the parameters `crowded` there is no room for the thirteen outputs of `synthetic`. -/
theorem ofCircuits_fails_iff_synthetic :
    let s := ConstraintSystem.synthetic
    let e : Emitter := ⟨.dynamic, .crowded⟩
    (∀ role, ∀ c ∈ s.allCircuits.get role, c.arena = s.arena) ∧
      (∃ err, ofCircuits e s.shape s.allCircuits = .error err) ∧
      ((∃ err, ofCircuits e s.shape s.allCircuits = .error err ∧ err.isInvariant = true) ↔
        (∃ role, ∃ c ∈ s.allCircuits.get role, ∃ j x i, s.arena.Reaches c.id j ∧
          s.arena.label? j = some (.leaf x) ∧ x.index? = some i ∧ maxOffset ≤ 3 * i + 2) ∨
        (∃ role i, s.arena.IsOperation i ∧
          2 ≤ (rootPaths s.arena (s.allCircuits.get role) i).encard ∧ e.params.outputOffset ≤ i) ∨
        (0 < s.allCircuits.total ∧ e.params.capacity < s.allCircuits.total) ∨
        maxOffset ≤ e.scratchOffset +
          3 * (e.params.outputOffset + max ((s.allCircuits.total : Int) - 1) 0)) ∧
      ∀ err, ofCircuits e s.shape s.allCircuits = .error err → err.isInvariant = true := by
  intro s e
  have ha : ∀ role, ∀ c ∈ s.allCircuits.get role, c.arena = s.arena := by
    intro role c hc
    rw [ConstraintSystem.allCircuits, Buckets.get_ofFn] at hc
    exact ConstraintSystem.arena_of_mem_circuits hc
  have hroom : 0 < s.allCircuits.total ∧ e.params.capacity < s.allCircuits.total := by
    decide +kernel
  obtain ⟨hiff, hguarded⟩ := ofCircuits_fails_iff (e := e) ha
  obtain ⟨err, herr, -⟩ := hiff.2 (.inr (.inr (.inl hroom)))
  exact ⟨ha, ⟨err, herr⟩, hiff, hguarded⟩

end Template

end AirCompiler
