import AirCompiler.Proofs.Assembly.Agreement
import AirCompiler.Proofs.Machine.Encoding

/-!
# Instantiated code

Against a layout of its mode every instruction of a template becomes a plain one: one of a straight
line, with an argument that can be encoded (`Instruction.IsPlain`). Constants and resolved addresses
always can. The offset that code adds to a row pointer can if columns are not negative.

* `Layout.Settles`: all instructions of a fragment become plain.
* `Emitter.Coded.settles`, `Emitter.kept_settles`: emitted code settles, store by store.
* `Template.instantiate_encodable`: so instantiation fails only for a layout of the other mode or
  one that is not integral, and what it yields can be encoded and decoded.
-/

namespace AirCompiler

/-- The instruction neither branches nor halts, and its argument, if it has one, can be encoded. -/
inductive Instruction.IsPlain : Instruction → Prop
  | push {n : Int} (h : 0 ≤ n ∧ n < prime) : IsPlain (.push (.word n))
  | addi {n : Int} (h : 0 ≤ n ∧ n < prime) : IsPlain (.addi (.word n))
  | pop (n : WordCount) : IsPlain (.pop n)
  | readMem (n : WordCount) : IsPlain (.readMem n)
  | writeMem (n : WordCount) : IsPlain (.writeMem n)
  | xxAdd : IsPlain .xxAdd
  | xxMul : IsPlain .xxMul

theorem WordCount.val_bounds (n : WordCount) : 0 ≤ (n.val : Int) ∧ (n.val : Int) < prime := by
  have h := n.le_five
  have hprime : (5 : Int) < prime := by decide
  omega

namespace Instruction.IsPlain

variable {i : Instruction}

theorem opcode_mem (h : i.IsPlain) :
    i.opcode ∈ [.push, .pop, .addi, .readMem, .writeMem, .xxAdd, .xxMul] := by
  cases h <;> simp [opcode]

theorem not_isControlFlow (h : i.IsPlain) : i.opcode.isControlFlow = false := by
  cases h <;> rfl

theorem not_symbolic (h : i.IsPlain) (a : Address) : i.argument? ≠ some (.address a) := by
  cases h <;> simp [argument?]

theorem exists_encode (h : i.IsPlain) : ∃ words, i.encode = .ok words := by
  cases h with
  | push h => exact ⟨_, encode_eq_ok_iff.2 (.inr ⟨_, rfl, h, rfl⟩)⟩
  | addi h => exact ⟨_, encode_eq_ok_iff.2 (.inr ⟨_, rfl, h, rfl⟩)⟩
  | pop n => exact ⟨_, encode_eq_ok_iff.2 (.inr ⟨_, rfl, n.val_bounds, rfl⟩)⟩
  | readMem n => exact ⟨_, encode_eq_ok_iff.2 (.inr ⟨_, rfl, n.val_bounds, rfl⟩)⟩
  | writeMem n => exact ⟨_, encode_eq_ok_iff.2 (.inr ⟨_, rfl, n.val_bounds, rfl⟩)⟩
  | xxAdd => exact ⟨_, rfl⟩
  | xxMul => exact ⟨_, rfl⟩

theorem resolveWith_eq (h : i.IsPlain) {ε : Type} (f : Address → Except ε Int) :
    i.resolveWith f = .ok i := by
  cases h <;> rfl

end Instruction.IsPlain

theorem Op.instruction_isPlain (op : Op) : op.instruction.IsPlain := by
  cases op with
  | add => exact .xxAdd
  | mul => exact .xxMul

/-! ## Code that settles -/

/-- Against the layout the instruction becomes plain. -/
def Layout.SettlesOne (l : Layout) (i : Instruction) : Prop :=
  ∃ j, i.resolveWith l.resolve = .ok j ∧ j.IsPlain

/-- Against the layout all instructions become plain. -/
def Layout.Settles (l : Layout) (code : Array Instruction) : Prop := ∀ i ∈ code, l.SettlesOne i

namespace Layout

variable {l : Layout} {code more : Array Instruction}

theorem Settles.append (h : l.Settles code) (h' : l.Settles more) : l.Settles (code ++ more) := by
  intro i hi
  rcases Array.mem_append.1 hi with hi | hi
  · exact h i hi
  · exact h' i hi

theorem settles_three {i j k : Instruction} (hi : l.SettlesOne i) (hj : l.SettlesOne j)
    (hk : l.SettlesOne k) : l.Settles #[i, j, k] := by
  intro x hx
  simp only [List.mem_toArray, List.mem_cons, List.not_mem_nil, or_false] at hx
  rcases hx with rfl | rfl | rfl
  · exact hi
  · exact hj
  · exact hk

theorem settles_plain {i : Instruction} (h : i.IsPlain) : l.SettlesOne i :=
  ⟨i, h.resolveWith_eq _, h⟩

/-- A resolved address is a residue. -/
theorem settles_address {r : Region} {start : Int} (hr : l.pointer? r = some start) (offset : Int) :
    l.SettlesOne (.push (.address ⟨r, offset⟩)) := by
  refine ⟨_, ?_, .push (emod_prime_bounds (start + offset))⟩
  rw [Instruction.resolveWith, resolve_eq hr]
  rfl

theorem settles_load {r : Region} {start : Int} (hr : l.pointer? r = some start) (offset : Int) :
    l.Settles (loadCode (.address ⟨r, offset⟩)) :=
  settles_three (settles_address hr offset) (settles_plain (.readMem _)) (settles_plain (.pop _))

theorem settles_store {r : Region} {start : Int} (hr : l.pointer? r = some start) (offset : Int) :
    l.Settles (storeCode (.address ⟨r, offset⟩)) :=
  settles_three (settles_address hr offset) (settles_plain (.writeMem _)) (settles_plain (.pop _))

/-- A coefficient is the representative of a base element. -/
theorem settles_constant (x : Ext) : l.Settles (pushCode x) := by
  have hbase : ∀ b : Base, l.SettlesOne (.push (.word b.val)) := by
    intro b
    have := b.isLt
    exact settles_plain (.push (by omega))
  exact settles_three (hbase _) (hbase _) (hbase _)

end Layout

/-- The variable has no negative index. -/
def Leaf.NonNegative : Leaf → Prop
  | .constant _ => True
  | .input c => 0 ≤ c.column
  | .challenge i => 0 ≤ i

theorem Shape.Admits.nonNegative {shape : Shape} {x : Leaf} (h : shape.Admits x) :
    x.NonNegative := by
  cases x with
  | constant s => trivial
  | input c => exact h.1
  | challenge i => exact h.1

namespace Emitter

variable {e : Emitter} {l : Layout} {a : Arena} {scope : Scope}

/-- An offset that does not overflow can be added to a pointer, if it is not negative. -/
theorem checkOffset_lt {offset offset' : Int} (h : checkOffset offset = .ok offset') :
    offset < maxOffset := by
  unfold checkOffset at h
  split at h
  · cases h
  · omega

/-- With static addressing every region has a place; with dynamic addressing rows are read through
pointers in the page. -/
theorem leafCode_settles (hmode : l.mode = e.mode) {x : Leaf} (hx : x.NonNegative)
    {code : Array Instruction} (h : e.leafCode x = .ok code) : l.Settles code := by
  cases x with
  | constant s =>
    cases h
    exact Layout.settles_constant s.lift
  | challenge i =>
    obtain ⟨offset, -, h⟩ := exists_of_bind_eq_ok h
    cases h
    exact Layout.settles_load l.pointer?_challenges offset
  | input c =>
    simp only [leafCode, loadRowElement] at h
    cases he : e.mode with
    | static =>
      simp only [he] at h
      obtain ⟨offset, -, h⟩ := exists_of_bind_eq_ok h
      cases h
      obtain ⟨start, hstart⟩ :=
        Layout.exists_pointer_of_static (hmode.trans he) (.ofRow c.row c.table)
      exact Layout.settles_load hstart offset
    | dynamic =>
      obtain ⟨slot, hslot, -⟩ := exists_pointerSlot c.row c.table
      simp only [he, hslot] at h
      obtain ⟨offset, hoffset, h⟩ := exists_of_bind_eq_ok h
      cases h
      obtain ⟨page, hpage⟩ := l.exists_pointer_page
      have hlt := checkOffset_lt hoffset
      have heq := checkOffset_eq_ok hoffset
      have hmax : maxOffset < prime := by decide
      have hcolumn : 0 ≤ c.column := hx
      have haddi : l.SettlesOne (.addi (.word offset)) := Layout.settles_plain (.addi (by omega))
      exact (Layout.settles_three (Layout.settles_address hpage slot)
        (Layout.settles_plain (.readMem _)) (Layout.settles_plain (.pop _))).append
          (Layout.settles_three haddi (Layout.settles_plain (.readMem _))
            (Layout.settles_plain (.pop _)))

theorem Coded.settles (hmode : l.mode = e.mode) {i : Nat} {f : Expr} {code : Array Instruction}
    (h : e.Coded a scope i f code) (hf : ∀ x ∈ f.vars, x.NonNegative) : l.Settles code := by
  obtain ⟨page, hpage⟩ := l.exists_pointer_page
  induction h with
  | shared _ _ h =>
    rw [(loadShared_eq_ok h).2]
    exact Layout.settles_load hpage _
  | @leaf i x code _ h =>
    refine leafCode_settles hmode ?_ h
    cases x with
    | constant s => trivial
    | input c => exact hf _ (by simp [Expr.vars])
    | challenge j => exact hf _ (by simp [Expr.vars])
  | @operation _ _ _ op _ _ _ _ _ _ _ ihx ihy =>
    have hx := ihx fun v hv => hf v (List.mem_append_left _ hv)
    have hy := ihy fun v hv => hf v (List.mem_append_right _ hv)
    rw [← Array.append_singleton]
    refine (hx.append hy).append fun j hj => ?_
    obtain rfl : j = op.instruction := by simpa using hj
    exact Layout.settles_plain op.instruction_isPlain

/-- Each store is of code that settles. -/
theorem kept_settles (hmode : l.mode = e.mode) : e.Kept a Leaf.NonNegative fun _ _ code =>
    l.Settles code where
  share hdone hcode hf _ _ _ := by
    obtain ⟨page, hpage⟩ := l.exists_pointer_page
    exact hdone.append ((hcode.settles hmode hf).append (Layout.settles_store hpage _))
  output hdone hcode hf _ := by
    obtain ⟨page, hpage⟩ := l.exists_pointer_page
    exact hdone.append ((hcode.settles hmode hf).append (Layout.settles_store hpage _))
  forget hdone := hdone

theorem prologue_settles (e : Emitter) (l : Layout) : l.Settles e.prologue := by
  obtain ⟨page, hpage⟩ := l.exists_pointer_page
  intro i hi
  unfold prologue at hi
  split at hi
  · simp at hi
  · obtain ⟨slot, -, hi⟩ := Array.mem_flatMap.1 hi
    exact Layout.settles_three (Layout.settles_address hpage slot)
      (Layout.settles_plain (.writeMem _)) (Layout.settles_plain (.pop _)) i hi

end Emitter

/-! ## Templates -/

namespace Template

variable {e : Emitter} {shape : Shape} {cs : Buckets (List Circuit)} {t : Template} {l : Layout}
  {code : Array Instruction} {a : Arena}

theorem Assembled.settles (h : Assembled e shape cs t)
    (hcs : ∀ role, ∀ c ∈ cs.get role, c.arena = a ∧ ∀ x ∈ c.expr.vars, x.NonNegative)
    (hmode : l.mode = e.mode) : l.Settles t.code := by
  obtain ⟨page, hpage⟩ := l.exists_pointer_page
  have hbuckets := h.kept hcs (Emitter.kept_settles hmode) (e.prologue_settles l)
  have hlast : l.Settles t.epilogue := by
    intro i hi
    obtain rfl : i = .push (.address t.output) := by simpa [epilogue] using hi
    rw [h.output]
    exact Layout.settles_address hpage _
  have hsplit :
      t.code = e.prologue ++ (t.buckets.initial ++ t.buckets.consistency ++ t.buckets.transition ++
      t.buckets.terminal) ++ t.epilogue := by
    simp only [Template.code, h.prologue, Array.append_assoc]
  rw [hsplit]
  exact hbuckets.append hlast

/-- Code that settles is instantiated for every integral layout of its mode. -/
theorem exists_instantiate_of_settles (hmode : l.mode = t.mode)
    (hcheck : l.check t.shape t.params = .ok ()) (h : l.Settles t.code) :
    ∃ code, t.instantiate l = .ok code ∧ ∀ j ∈ code, j.IsPlain := by
  obtain ⟨resolved, hresolved, hplain⟩ :=
    exists_mapM_forall fun i hi => h i (Array.mem_toList_iff.1 hi)
  rw [← Array.toList_mapM] at hresolved
  cases hcode : t.code.mapM (Instruction.resolveWith l.resolve) with
  | error err => rw [hcode] at hresolved; cases hresolved
  | ok code =>
    rw [hcode] at hresolved
    cases hresolved
    refine ⟨code, ?_, fun j hj => hplain j (Array.mem_toList_iff.2 hj)⟩
    rw [instantiate, if_neg (not_not.2 hmode), hcheck]
    exact hcode

/-- Instantiation fails exactly for a layout of the other mode and for one that is not integral.
What it yields is a straight line without relative addresses, and can be encoded and decoded. -/
theorem instantiate_encodable
    (hcs : ∀ role, ∀ c ∈ cs.get role, c.arena = a ∧ ∀ x ∈ c.expr.vars, x.NonNegative)
    (ht : ofCircuits e shape cs = .ok t) (l : Layout) :
    ((∃ err, t.instantiate l = .error err) ↔ l.mode ≠ e.mode ∨
      l.isIntegral shape e.params = false) ∧ ∀ code, t.instantiate l = .ok code →
        (∀ i ∈ code, i.opcode ∈ [.push, .pop, .addi, .readMem, .writeMem, .xxAdd, .xxMul] ∧
          i.opcode.isControlFlow = false ∧ ∀ address, i.argument? ≠ some (.address address)) ∧
        ∃ words, Program.encode code.toList = .ok words ∧
          Program.decode words = .ok code.toList := by
  have h := assembled_of_ofCircuits ht
  by_cases hfits : l.mode = e.mode ∧ l.isIntegral shape e.params = true
  · obtain ⟨hmode, hintegral⟩ := hfits
    obtain ⟨code, hcode, hplain⟩ := exists_instantiate_of_settles (hmode.trans h.mode.symm)
      (by rw [h.shape, h.params]; exact Layout.isIntegral_iff.1 hintegral) (h.settles hcs hmode)
    refine ⟨by simp [hcode, hmode, hintegral], fun code' hcode' => ?_⟩
    obtain rfl : code = code' := Except.ok.inj (hcode.symm.trans hcode')
    refine ⟨fun i hi =>
      ⟨(hplain i hi).opcode_mem, (hplain i hi).not_isControlFlow, (hplain i hi).not_symbolic⟩, ?_⟩
    obtain ⟨parts, hparts⟩ :=
      exists_mapM fun i hi => (hplain i (Array.mem_toList_iff.1 hi)).exists_encode
    have hwords := Program.encode_eq_ok_iff.2 ⟨parts, hparts, rfl⟩
    exact ⟨_, hwords, Program.decode_encode hwords⟩
  · -- a layout for which code is instantiated is of its mode and integral
    have hnone : ∀ code, t.instantiate l ≠ .ok code := by
      intro code hcode
      obtain ⟨hmode, hcheck, -⟩ := instantiate_eq_ok hcode
      rw [h.shape, h.params] at hcheck
      exact hfits ⟨hmode.trans h.mode, Layout.isIntegral_iff.2 hcheck⟩
    refine ⟨⟨fun _ => ?_, fun _ => ?_⟩, fun code hcode => absurd hcode (hnone code)⟩
    · by_cases hmode : l.mode = e.mode
      · exact .inr (by simpa [hmode] using hfits)
      · exact .inl hmode
    · cases hcode : t.instantiate l with
      | error err => exact ⟨err, rfl⟩
      | ok code => exact absurd hcode (hnone code)

/-- The dynamic assembly of `fibonacci`, which adds offsets to row pointers. -/
theorem instantiate_encodable_fibonacci :
    let s := ConstraintSystem.fibonacci
    let l := Layout.dynamic 1000000 400
    (∀ role, ∀ c ∈ s.allCircuits.get role, c.arena = s.arena ∧ ∀ x ∈ c.expr.vars, x.NonNegative) ∧
      ∃ t code, ofCircuits ⟨.dynamic, .small⟩ s.shape s.allCircuits = .ok t ∧
        t.instantiate l = .ok code ∧
        ((∃ err, t.instantiate l = .error err) ↔ l.mode ≠ .dynamic ∨
          l.isIntegral s.shape .small = false) ∧
        (∀ i ∈ code, i.opcode ∈ [.push, .pop, .addi, .readMem, .writeMem, .xxAdd, .xxMul] ∧
          i.opcode.isControlFlow = false ∧ ∀ address, i.argument? ≠ some (.address address)) ∧
        ∃ words, Program.encode code.toList = .ok words ∧
          Program.decode words = .ok code.toList := by
  intro s l
  have hcs : ∀ role, ∀ c ∈ s.allCircuits.get role, c.arena = s.arena ∧
      ∀ x ∈ c.expr.vars, x.NonNegative := by
    intro role c hc
    obtain ⟨harena, hvars⟩ := ConstraintSystem.within_fibonacci role c hc
    exact ⟨harena, fun x hx => (hvars x hx).nonNegative⟩
  obtain ⟨t, code, ht, hcode⟩ : ∃ t code,
      ofCircuits ⟨.dynamic, .small⟩ s.shape s.allCircuits = .ok t ∧
      t.instantiate l = .ok code := exists_instantiate (by decide +kernel)
  obtain ⟨hfails, hyields⟩ := instantiate_encodable hcs ht l
  exact ⟨hcs, t, code, ht, hcode, hfails, hyields code hcode⟩

end Template

end AirCompiler
