import AirCompiler.Artifacts
import AirCompiler.Proofs.Assembly.Setting
import AirCompiler.System.Samples

/-!
# Agreement of assembly and evaluation code

A run of instantiated assembly halts with the address of the output array on top of the stack, and
the array holds the values of all constraints (`Template.run_eq`): the prologue establishes the
setting, each bucket appends its values to the outputs and forgets its shared nodes, the epilogue
pushes the address. Evaluation code yields the same values, in the same order, if constraints of
single-row buckets do not use the next row; it fails otherwise, while assembly reads the next row in
every bucket.
-/

namespace AirCompiler

/-- The machine is at the start of a program, with four rows and the challenges in memory, lifted to
the extension. -/
structure Machine.Ready (m : Machine) (rows : Rows) (p : RowPointers)
    (challenges : Int) : Prop where
  pc : m.pc = 0
  running : m.status = .running
  row : ∀ row table, m.loadElements (p.row row table) (rows.row row table).size =
    (rows.row row table).toList.map Scalar.lift
  challenges : m.loadElements challenges rows.challenges.size =
    rows.challenges.toList.map Scalar.lift

namespace Template

variable {e : Emitter} {shape : Shape} {cs : Buckets (List Circuit)} {t : Template} {l : Layout}
  {code : Array Instruction} {a : Arena} {page : Int} {load₀ : Int → Int} {ρ : Assignment}

/-- The outputs are the values of all constraints. -/
theorem Assembled.emits (h : Assembled e shape cs t) (hcs : cs.Within a shape)
    (hset : e.Setting l page load₀ ρ shape.Admits) :
    Emits l
      (t.buckets.initial ++ t.buckets.consistency ++ t.buckets.transition ++ t.buckets.terminal)
      (e.Holds page load₀ a ρ .empty [])
      (e.Holds page load₀ a ρ .empty (Evaluation.values ρ cs)) := by
  have hall :=
    h.kept hcs (Emitter.kept_emits hset (e.Holds page load₀ a ρ .empty [])) (emits_nil fun _ h => h)
  rw [Array.empty_append] at hall
  rwa [Evaluation.values_eq]

/-- The output array holds the outputs. -/
theorem loadElements_of_holds {m : Machine} {outputs : List Ext}
    (h : e.Holds page load₀ a ρ .empty outputs m.load) :
    m.loadElements (e.slot page e.params.outputOffset % prime) outputs.length = outputs := by
  obtain ⟨values, hs, hp⟩ := h
  refine List.ext_getElem? fun i => ?_
  rw [Machine.loadElements, List.getElem?_map]
  by_cases hi : i < outputs.length
  · have hx := (hs.known _ _ (hp.outputs i _ (List.getElem?_eq_getElem hi))).2
    rw [List.getElem?_range hi, Option.map_some, List.getElem?_eq_getElem hi,
      ← hx, ← m.loadElement_eq]
    refine congrArg some (m.loadElement_congr ?_)
    rw [Int.emod_add_emod, Emitter.slot, Emitter.slot]
    congr 1
    omega
  · rw [List.getElem?_eq_none (by simpa using hi), List.getElem?_eq_none (by omega),
      Option.map_none]

/-- A run ends with the address of the output array on the stack and the values of all constraints
in it. -/
theorem run_eq (h : Assembled e shape cs t) (hcs : cs.Within a shape)
    (hcode : l.Resolves t.code code.toList) {m : Machine} (hpc : m.pc = 0)
    {first : List Instruction} (hfirst : l.Resolves e.prologue first)
    (hm : (m.perform first).status = .running)
    (hset : e.Setting l page (m.perform first).load ρ shape.Admits) :
    ∃ out, t.outputArray l = .ok out ∧ (m.run code).status = .halted ∧
      (m.run code).stack = out :: (m.perform first).stack ∧
      (m.run code).loadElements out t.count = Evaluation.values ρ cs := by
  refine ⟨_, h.outputArray_eq hset.pointer, ?_⟩
  -- three parts: the prologue, which sets the stage, the buckets, and an epilogue of one
  -- instruction
  obtain ⟨start, hstart, hall⟩ := h.exists_of_resolves hset.pointer hcode
  obtain ⟨first', body, hfirst', hbody, rfl⟩ := Layout.resolves_append hstart
  obtain rfl : first' = first := Except.ok.inj (hfirst'.symm.trans hfirst)
  obtain ⟨hrun, hstack, hholds⟩ := h.emits hcs hset body hbody (m.perform first') hm (.empty _)
  have hperform : m.perform code.toList = { (m.perform first').perform body with
      pc := ((m.perform first').perform body).pc + 1
      stack :=
        e.slot page e.params.outputOffset % prime :: ((m.perform first').perform body).stack } := by
    rw [hall, Machine.perform_append, Machine.perform_append]
    show Machine.mk _ (e.slot page e.params.outputOffset % prime % prime :: _) _ _ _ = _
    rw [Int.emod_emod]
  rw [Machine.run_eq_perform hpc (by rw [hperform]; exact hrun), hperform]
  refine ⟨rfl, congrArg _ hstack, ?_⟩
  rw [h.count, ← length_allOutputs, ← List.length_map fun c => c.expr.value ρ,
    ← Evaluation.values_eq]
  exact loadElements_of_holds (m := (m.perform first').perform body) hholds

/-- A run has ended with the address of the output array on top of the stack. Evaluation code yields
the elements of the array, in order; where a constraint of a single-row bucket uses the next row, it
fails instead. -/
structure Agrees (t : Template) (l : Layout) (cs : Buckets (List Circuit)) (rows : Rows)
    (rest : List Int) (final : Machine) : Prop where
  halted : final.status = .halted
  exists_output : ∃ out ev, t.outputArray l = .ok out ∧ final.stack = out :: rest ∧
    Evaluation.ofCircuits cs = .ok ev ∧
    (SingleRow cs → ev.evalAll rows = .ok (final.loadElements out t.count)) ∧
    (¬ SingleRow cs → ev.evalAll rows = .error .outOfRange)

theorem agrees_of_setting {rows : Rows} (h : Assembled e shape cs t) (hcs : cs.Within a shape)
    (hrows : rows.Fits shape) (hcode : l.Resolves t.code code.toList) {m : Machine} (hpc : m.pc = 0)
    {first : List Instruction} (hfirst : l.Resolves e.prologue first)
    (hm : (m.perform first).status = .running)
    (hset : e.Setting l page (m.perform first).load rows.assignment shape.Admits) :
    t.Agrees l cs rows (m.perform first).stack (m.run code) := by
  obtain ⟨out, hout, hhalted, hstack, hvalues⟩ := run_eq h hcs hcode hpc hfirst hm hset
  obtain ⟨ev, hev⟩ := Evaluation.exists_ofCircuits fun role c hc => (hcs role c hc).1
  refine ⟨hhalted, out, ev, hout, hstack, hev, fun hs => ?_, fun hs => ?_⟩
  · rw [hvalues]
    exact Evaluation.evalAll_of_singleRow hcs hrows hev hs
  · exact Evaluation.evalAll_of_not_singleRow hcs hrows hev hs

end Template

/-! ## Samples -/

/-- A system whose initial constraint uses the next row. -/
def ConstraintSystem.nextRow : ConstraintSystem :=
  .ofBuild ⟨1, 0, 0⟩ do return ⟨[← Build.nextMain 0], [], [], []⟩

theorem ConstraintSystem.within_allCircuits {s : ConstraintSystem}
    (h : ∀ role, ∀ c ∈ s.circuits role, ∀ x ∈ c.expr.vars, s.shape.Admits x) :
    s.allCircuits.Within s.arena s.shape := by
  intro role c hc
  rw [allCircuits, Buckets.get_ofFn] at hc
  obtain ⟨handle, -, hcircuit⟩ := List.mem_filterMap.1 hc
  exact ⟨(Arena.circuit?_eq_some.1 hcircuit).1, h role c hc⟩

/-- Two rows of `fibonacci`. -/
def Rows.fibonacci : Rows where
  currentMain := #[.base 1, .base 2]
  currentAux := #[.ext ⟨1, 1, 0⟩]
  nextMain := #[.base 2, .base 3]
  nextAux := #[.ext ⟨0, 1, 1⟩]
  challenges := #[.ext ⟨5, 0, 1⟩]

/-- Two rows of `nextRow`. -/
def Rows.nextRow : Rows := ⟨#[.base 5], #[], #[.base 7], #[], #[]⟩

theorem ConstraintSystem.shape_ofBuild (shape : Shape) (build : Build (Buckets (List Nat))) :
    (ofBuild shape build).shape = shape := by
  unfold ofBuild
  split <;> rfl

theorem Rows.fits_fibonacci : fibonacci.Fits ConstraintSystem.fibonacci.shape := by
  rw [ConstraintSystem.fibonacci, ConstraintSystem.shape_ofBuild]
  exact ⟨fun row table => by cases row <;> cases table <;> rfl, rfl⟩

theorem Rows.fits_nextRow : nextRow.Fits ConstraintSystem.nextRow.shape := by
  rw [ConstraintSystem.nextRow, ConstraintSystem.shape_ofBuild]
  exact ⟨fun row table => by cases row <;> cases table <;> rfl, rfl⟩

/-- The constraints of `fibonacci` are within its shape, and only its transitions use the next
row. -/
theorem ConstraintSystem.circuits_fibonacci (role : Role) : ∀ c ∈ fibonacci.circuits role,
    (∀ x ∈ c.expr.vars, fibonacci.shape.Admits x) ∧
    (role.isDualRow = false → c.usesNextRow = false) := by
  cases role <;> decide +kernel

theorem ConstraintSystem.within_fibonacci :
    fibonacci.allCircuits.Within fibonacci.arena fibonacci.shape :=
  within_allCircuits fun role c hc => (circuits_fibonacci role c hc).1

theorem singleRow_fibonacci : SingleRow ConstraintSystem.fibonacci.allCircuits := by
  intro role hd c hc
  rw [ConstraintSystem.allCircuits, Buckets.get_ofFn] at hc
  exact (ConstraintSystem.circuits_fibonacci role c hc).2 hd

/-- The constraints of `nextRow` are within its shape, and an initial one uses the next row. -/
theorem ConstraintSystem.circuits_nextRow :
    (∀ role, ∀ c ∈ nextRow.circuits role, ∀ x ∈ c.expr.vars, nextRow.shape.Admits x) ∧
      ¬ ∀ c ∈ nextRow.allCircuits.get .initial, c.usesNextRow = false :=
  ⟨fun role => by cases role <;> decide +kernel, by decide +kernel⟩

theorem ConstraintSystem.within_nextRow : nextRow.allCircuits.Within nextRow.arena nextRow.shape :=
  within_allCircuits circuits_nextRow.1

theorem not_singleRow_nextRow : ¬ SingleRow ConstraintSystem.nextRow.allCircuits := fun h =>
  ConstraintSystem.circuits_nextRow.2 (h .initial rfl)

/-- Places of four rows. -/
def RowPointers.sample : RowPointers := ⟨0, 100, 200, 300⟩

theorem RowPointers.sample_clear {rows : Rows} (h : ∀ row table, (rows.row row table).size ≤ 30)
    (row : Row) (table : Table) (k : Int) (hk : 0 ≤ k) (hlt : k < 3 * (rows.row row table).size) :
    ¬ (1000000 ≤ (sample.row row table + k) % prime ∧
      (sample.row row table + k) % prime < 1000000 + Params.small.page) := by
  rintro ⟨hle, -⟩
  have hrow : 0 ≤ sample.row row table ∧ sample.row row table ≤ 300 := by
    cases row <;> cases table <;> decide
  have hprime : (1000 : Int) < prime := by decide
  have hsize := h row table
  rw [Int.emod_eq_of_lt (by omega) (by omega)] at hle
  omega

/-- A machine with the rows at these places, and the challenges behind them. -/
def Machine.sample (stack : List Int) (rows : Rows) : Machine :=
  Machine.initial stack ∅
    |>.storeElements 0 rows.currentMain.toList
    |>.storeElements 100 rows.currentAux.toList
    |>.storeElements 200 rows.nextMain.toList
    |>.storeElements 300 rows.nextAux.toList
    |>.storeElements 400 rows.challenges.toList

namespace Template

variable {e : Emitter} {shape : Shape} {cs : Buckets (List Circuit)} {t : Template} {l : Layout}
  {code : Array Instruction} {a : Arena} {page : Int} {params : Params} {rows : Rows} {m : Machine}

theorem exists_instantiate
    (h : ((ofCircuits e shape cs).toOption.any fun t => (t.instantiate l).isOk) = true) :
    ∃ t code, ofCircuits e shape cs = .ok t ∧ t.instantiate l = .ok code := by
  cases ht : ofCircuits e shape cs with
  | error err => rw [ht] at h; cases h
  | ok t =>
    rw [ht] at h
    cases hcode : t.instantiate l with
    | error err => simp [Except.toOption, hcode, Except.isOk, Except.toBool] at h
    | ok code => exact ⟨t, code, rfl, hcode⟩

/-! ## The two addressing modes -/

/-- A run of static assembly agrees with evaluation code, from every machine state with rows and
challenges at the places of the layout. -/
theorem run_static (hp : 4 ≤ params.pointers) (hcs : cs.Within a shape)
    (ht : ofCircuits ⟨.static, params⟩ shape cs = .ok t) {p : RowPointers} {challenges : Int}
    (hcode :
      t.instantiate (.static page p.currentMain p.currentAux p.nextMain p.nextAux challenges) =
        .ok code)
    (hrows : rows.Fits shape) (hm : m.Ready rows p challenges) :
    t.Agrees
      (.static page p.currentMain p.currentAux p.nextMain p.nextAux challenges) cs rows m.stack
      (m.run code) := by
  have h := assembled_of_ofCircuits ht
  obtain ⟨-, hcheck, hresolves⟩ := instantiate_eq_ok hcode
  rw [h.shape, h.params] at hcheck
  have hplaces : ∀ row table, ∃ start,
      Layout.pointer? (.static page p.currentMain p.currentAux p.nextMain p.nextAux challenges)
        (.ofRow row table) = some start ∧
      Held m.load start (rows.row row table) := fun row table =>
    ⟨p.row row table, by cases row <;> cases table <;> rfl, held_of_loadElements (hm.row row table)⟩
  exact agrees_of_setting h hcs hrows hresolves hm.pc (Emitter.resolves_prologue_static rfl)
    hm.running
    (Emitter.setting_static rfl hp hcheck rfl hrows hplaces
      ⟨challenges, rfl, held_of_loadElements hm.challenges⟩)

/-- The assembly of `fibonacci`, from a machine with a word on the stack. -/
theorem run_static_fibonacci :
    let s := ConstraintSystem.fibonacci
    let l := Layout.static 1000000 0 100 200 300 400
    let m := Machine.sample [9] .fibonacci
    s.allCircuits.Within s.arena s.shape ∧ Rows.Fits .fibonacci s.shape ∧
      m.Ready .fibonacci .sample 400 ∧
      SingleRow s.allCircuits ∧
      ∃ t code, ofCircuits ⟨.static, .small⟩ s.shape s.allCircuits = .ok t ∧
        t.instantiate l = .ok code ∧ t.Agrees l s.allCircuits .fibonacci [9] (m.run code) := by
  intro s l m
  have hm : m.Ready .fibonacci .sample 400 :=
    ⟨rfl, rfl, fun row table => by cases row <;> cases table <;> decide +kernel, by decide +kernel⟩
  obtain ⟨t, code, ht, hcode⟩ : ∃ t code,
      ofCircuits ⟨.static, .small⟩ s.shape s.allCircuits = .ok t ∧
      t.instantiate l = .ok code := exists_instantiate (by decide +kernel)
  exact ⟨ConstraintSystem.within_fibonacci, Rows.fits_fibonacci, hm, singleRow_fibonacci, t, code,
    ht, hcode,
    run_static (p := .sample) (by decide) ConstraintSystem.within_fibonacci ht hcode
      Rows.fits_fibonacci hm⟩

/-- Where an initial constraint uses the next row, evaluation code does not yield what assembly
leaves in the output array. -/
theorem run_static_nextRow :
    let s := ConstraintSystem.nextRow
    let l := Layout.static 1000000 0 100 200 300 400
    let m := Machine.sample [] .nextRow
    s.allCircuits.Within s.arena s.shape ∧ Rows.Fits .nextRow s.shape ∧
      m.Ready .nextRow .sample 400 ∧
      ∃ t code, ofCircuits ⟨.static, .small⟩ s.shape s.allCircuits = .ok t ∧
        t.instantiate l = .ok code ∧
        ¬ ∃ out ev, t.outputArray l = .ok out ∧ Evaluation.ofCircuits s.allCircuits = .ok ev ∧
          ev.evalAll .nextRow = .ok ((m.run code).loadElements out t.count) := by
  intro s l m
  have hm : m.Ready .nextRow .sample 400 :=
    ⟨rfl, rfl, fun row table => by cases row <;> cases table <;> decide +kernel, by decide +kernel⟩
  obtain ⟨t, code, ht, hcode⟩ : ∃ t code,
      ofCircuits ⟨.static, .small⟩ s.shape s.allCircuits = .ok t ∧
      t.instantiate l = .ok code := exists_instantiate (by decide +kernel)
  refine ⟨ConstraintSystem.within_nextRow, Rows.fits_nextRow, hm, t, code, ht, hcode, ?_⟩
  rintro ⟨out, ev, -, hev, heval⟩
  rw [Evaluation.evalAll_of_not_singleRow ConstraintSystem.within_nextRow Rows.fits_nextRow hev
    not_singleRow_nextRow] at heval
  cases heval

/-- A run of dynamic assembly agrees with evaluation code, from every machine state with pointers to
the rows on the stack, if no word of a row lies in the scratch page. Rows may overlap and wrap
around the address space. -/
theorem run_dynamic (hp : 4 ≤ params.pointers) (hcs : cs.Within a shape)
    (ht : ofCircuits ⟨.dynamic, params⟩ shape cs = .ok t) {p : RowPointers} {challenges : Int}
    (hcode : t.instantiate (.dynamic page challenges) = .ok code) (hrows : rows.Fits shape)
    (hclear : ∀ row table (k : Int), 0 ≤ k → k < 3 * (rows.row row table).size →
      ¬ (page ≤ (p.row row table + k) % prime ∧ (p.row row table + k) % prime < page + params.page))
    (hm : m.Ready rows p challenges) {rest : List Int}
    (hstack : m.stack = p.toList.reverse ++ rest) :
    t.Agrees (.dynamic page challenges) cs rows rest (m.run code) := by
  have h := assembled_of_ofCircuits ht
  obtain ⟨-, hcheck, hresolves⟩ := instantiate_eq_ok hcode
  rw [h.shape, h.params] at hcheck
  obtain ⟨m', hperform, hrunning, hrest, hslots⟩ := Emitter.perform_prologue page hm.running hstack
  subst hperform
  rw [← hrest]
  exact agrees_of_setting h hcs hrows hresolves hm.pc
    (Emitter.resolves_prologue_dynamic rfl rfl) hrunning
    (Emitter.setting_dynamic rfl hp hcheck rfl hrows hslots hclear
      (fun row table => held_of_loadElements (hm.row row table))
      ⟨challenges, rfl, held_of_loadElements hm.challenges⟩)

/-- The dynamic assembly of `fibonacci`, from a machine with a word below the row pointers. -/
theorem run_dynamic_fibonacci :
    let s := ConstraintSystem.fibonacci
    let m := Machine.sample [300, 200, 100, 0, 9] .fibonacci
    s.allCircuits.Within s.arena s.shape ∧ Rows.Fits .fibonacci s.shape ∧
      m.Ready .fibonacci .sample 400 ∧
      SingleRow s.allCircuits ∧
      ∃ t code, ofCircuits ⟨.dynamic, .small⟩ s.shape s.allCircuits = .ok t ∧
        t.instantiate (.dynamic 1000000 400) = .ok code ∧
        t.Agrees (.dynamic 1000000 400) s.allCircuits .fibonacci [9] (m.run code) := by
  intro s m
  have hm : m.Ready .fibonacci .sample 400 :=
    ⟨rfl, rfl, fun row table => by cases row <;> cases table <;> decide +kernel, by decide +kernel⟩
  obtain ⟨t, code, ht, hcode⟩ : ∃ t code,
      ofCircuits ⟨.dynamic, .small⟩ s.shape s.allCircuits = .ok t ∧
      t.instantiate (.dynamic 1000000 400) = .ok code := exists_instantiate (by decide +kernel)
  exact ⟨ConstraintSystem.within_fibonacci, Rows.fits_fibonacci, hm, singleRow_fibonacci, t, code,
    ht, hcode,
    run_dynamic (p := .sample) (by decide) ConstraintSystem.within_fibonacci ht
      hcode Rows.fits_fibonacci
      (RowPointers.sample_clear fun row table => by cases row <;> cases table <;> decide +kernel) hm
        rfl⟩

/-- Dynamic assembly reads the next row in every bucket too. -/
theorem run_dynamic_nextRow :
    let s := ConstraintSystem.nextRow
    let m := Machine.sample [300, 200, 100, 0] .nextRow
    s.allCircuits.Within s.arena s.shape ∧ Rows.Fits .nextRow s.shape ∧
      m.Ready .nextRow .sample 400 ∧
      (∀ row table (k : Int), 0 ≤ k → k < 3 * (Rows.nextRow.row row table).size →
        ¬ (1000000 ≤ (RowPointers.sample.row row table + k) % prime ∧
          (RowPointers.sample.row row table + k) % prime < 1000000 + Params.small.page)) ∧
      ∃ t code, ofCircuits ⟨.dynamic, .small⟩ s.shape s.allCircuits = .ok t ∧
        t.instantiate (.dynamic 1000000 400) = .ok code ∧
        ¬ ∃ out ev, t.outputArray (.dynamic 1000000 400) = .ok out ∧
          Evaluation.ofCircuits s.allCircuits = .ok ev ∧
          ev.evalAll .nextRow = .ok ((m.run code).loadElements out t.count) := by
  intro s m
  have hm : m.Ready .nextRow .sample 400 :=
    ⟨rfl, rfl, fun row table => by cases row <;> cases table <;> decide +kernel, by decide +kernel⟩
  obtain ⟨t, code, ht, hcode⟩ : ∃ t code,
      ofCircuits ⟨.dynamic, .small⟩ s.shape s.allCircuits = .ok t ∧
      t.instantiate (.dynamic 1000000 400) = .ok code := exists_instantiate (by decide +kernel)
  refine ⟨ConstraintSystem.within_nextRow, Rows.fits_nextRow, hm,
    RowPointers.sample_clear fun row table => by
      cases row <;> cases table <;> decide +kernel, t, code, ht, hcode, ?_⟩
  rintro ⟨out, ev, -, hev, heval⟩
  rw [Evaluation.evalAll_of_not_singleRow ConstraintSystem.within_nextRow Rows.fits_nextRow hev
    not_singleRow_nextRow] at heval
  cases heval

end Template

end AirCompiler
