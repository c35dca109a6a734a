import AirCompiler.Proofs.Assembly.Agreement
import AirCompiler.Proofs.Machine.Access

/-!
# Memory that generated code touches

A run writes to the page only, each word of the output array once, and reads nothing but rows,
challenges and words that it has written before (`Template.run_confined`). Nothing is assumed of
what memory holds; with dynamic addressing rows may even lie in the page.

`Fetches l code pre reads`: where memory meets `pre`, the code pushes an element, and touches memory
only to read words that `reads` allows. `Emitter.Trail` is what each store preserves of the accesses
so far (`Emitter.kept_trail`).
-/

namespace AirCompiler

/-! ## Confined accesses -/

/-- Writes lie in the page. A word that is read is input, or was written before. -/
structure Confined (input : Int → Prop) (page size : Int) (log : List Access) : Prop where
  write_mem : ∀ q, .write q ∈ log → page ≤ q ∧ q < page + size
  read_mem : ∀ before q after, log = before ++ .read q :: after → input q ∨ .write q ∈ before

theorem confined_nil (input : Int → Prop) (page size : Int) : Confined input page size [] :=
  ⟨fun q hq => by simp at hq, fun before q after h => by simp at h⟩

theorem Confined.append {input : Int → Prop} {page size : Int} {log more : List Access}
    (h : Confined input page size log) (hw : ∀ q, .write q ∈ more → page ≤ q ∧ q < page + size)
    (hr : ∀ q, .read q ∈ more → input q ∨ .write q ∈ log) :
    Confined input page size (log ++ more) := by
  refine ⟨fun q hq => (List.mem_append.1 hq).elim (h.write_mem q) (hw q),
    fun before q after heq => ?_⟩
  obtain ⟨mid, rfl, hmid⟩ | ⟨mid, rfl, hmid⟩ := List.append_eq_append_iff.1 heq
  · -- the read is one of the new accesses
    have hq : Access.read q ∈ more := by simp [hmid]
    exact (hr q hq).imp_right fun h => List.mem_append_left _ h
  · -- the read stands at the border of the two lists, or in the old one
    cases mid with
    | nil =>
      rw [List.append_nil] at hr
      exact hr q (by rw [← List.nil_append more, ← hmid]; exact List.mem_cons_self)
    | cons x mid =>
      obtain ⟨rfl, -⟩ := List.cons.inj hmid
      exact h.read_mem before q mid rfl

def storing (q : Int) : List Access := [.write q, .write (q + 1), .write (q + 2)]

theorem mem_storing {q r : Int} : .write r ∈ storing q ↔ q ≤ r ∧ r < q + 3 := by
  simp only [storing, List.mem_cons, Access.write.injEq, List.not_mem_nil, or_false]
  omega

theorem not_read_mem_storing (q r : Int) : .read r ∉ storing q := by simp [storing]

theorem count_storing (q r : Int) :
    (storing q).count (.write r) = if q ≤ r ∧ r < q + 3 then 1 else 0 := by
  simp only [storing, List.count_cons, List.count_nil, beq_iff_eq, Access.write.injEq]
  split_ifs <;> omega

/-! ## Code that reads -/

/-- Where memory meets the condition, the code leaves an element on top of the stack, and touches
memory only to read some words. -/
def Fetches (l : Layout) (code : Array Instruction) (pre : (Int → Int) → Prop)
    (reads : Int → Prop) : Prop :=
  ∀ resolved, l.Resolves code resolved → ∀ m : Machine, m.status = .running → pre m.load →
    (∃ x : Ext, Pushed m (m.perform resolved) x.words) ∧
      ∀ access ∈ m.traced resolved, ∃ q, access = .read q ∧ reads q

section

variable {l : Layout} {code more : Array Instruction} {pre : (Int → Int) → Prop}
  {reads : Int → Prop}

theorem fetches_constant (x : Ext) : Fetches l (pushCode x) pre reads := by
  intro resolved hr m hm _
  cases hr
  exact ⟨⟨x, Machine.perform_pushWords hm x⟩, fun access h => by cases h⟩

theorem fetches_load {r : Region} {start offset : Int} (hr : l.pointer? r = some start)
    (hreads : ∀ load, pre load → ∀ j : Int, 0 ≤ j → j < 3 → reads ((start + offset - j) % prime)) :
    Fetches l (loadCode (.address ⟨r, offset⟩)) pre reads := by
  intro resolved hres m hm hp
  obtain rfl := Layout.resolves_loadCode hr hres
  refine ⟨⟨_, Machine.perform_load hm ((start + offset) % prime)⟩, fun access h => ?_⟩
  obtain ⟨j, hj, rfl⟩ := List.mem_map.1 (m.traced_load _ ▸ h)
  rw [Int.emod_sub_emod]
  exact ⟨_, rfl, hreads _ hp j (by omega) (by have := List.mem_range.1 hj; omega)⟩

theorem fetches_loadThrough {r : Region} {start slot offset : Int} (hr : l.pointer? r = some start)
    (hslot : ∀ load, pre load → reads ((start + slot) % prime))
    (hreads : ∀ load, pre load → ∀ j : Int, 0 ≤ j → j < 3 →
      reads ((load (start + slot) + offset - j) % prime)) :
    Fetches l #[.push (.address ⟨r, slot⟩), .readMem .one, .pop .one, .addi (.word offset),
      .readMem .three, .pop .one]
      pre reads := by
  intro resolved hres m hm hp
  simp only [Layout.Resolves, List.mapM_cons, Instruction.resolveWith, Layout.resolve_eq hr] at hres
  cases hres
  refine ⟨⟨_, Machine.perform_loadThrough hm ((start + slot) % prime) offset⟩, fun access h => ?_⟩
  obtain rfl | h := List.mem_cons.1 (m.traced_loadThrough _ _ ▸ h)
  · rw [Int.emod_emod]
    exact ⟨_, rfl, hslot _ hp⟩
  · obtain ⟨j, hj, rfl⟩ := List.mem_map.1 h
    rw [Machine.load_emod]
    exact ⟨_, rfl, hreads _ hp j (by omega) (by have := List.mem_range.1 hj; omega)⟩

theorem Fetches.operation (op : Op) (hx : Fetches l code pre reads)
    (hy : Fetches l more pre reads) : Fetches l ((code ++ more).push op.instruction) pre reads := by
  intro resolved hr m hm hp
  obtain ⟨both, hboth, rfl⟩ := Layout.resolves_push (by cases op <;> rfl) hr
  obtain ⟨first, second, h₁, h₂, rfl⟩ := Layout.resolves_append hboth
  obtain ⟨⟨x, p₁⟩, t₁⟩ := hx first h₁ m hm hp
  obtain ⟨⟨y, p₂⟩, t₂⟩ := hy second h₂ _ p₁.running (by rwa [p₁.load_eq])
  have p := p₁.trans p₂
  have hlast : Machine.accesses ((m.perform first).perform second) op.instruction = [] := by
    cases op <;> rfl
  rw [Machine.perform_append, Machine.perform_append, Machine.perform_cons, Machine.perform_nil,
    Machine.traced_append, Machine.traced_append, Machine.perform_append,
    Machine.traced_cons, hlast,
    Machine.execute_operation op _ (p.stack_eq.trans (List.append_assoc ..))]
  refine ⟨⟨op.onExt x y, p.running, Machine.pushExt_stack _ _, p.load_eq⟩, fun access h => ?_⟩
  simp only [Machine.traced_nil, List.append_nil, List.mem_append] at h
  exact h.elim (t₁ access) (t₂ access)

end

/-! ## Input -/

/-- The words of rows and challenges. With dynamic addressing rows are where the row pointers point
to. -/
inductive Layout.Input (l : Layout) (shape : Shape) (p : RowPointers) : Int → Prop
  | placed {row : Row} {table : Table} {start k : Int}
      (hstart : l.pointer? (.ofRow row table) = some start) (hk : 0 ≤ k)
      (hlt : k < 3 * shape.columns table) : Input l shape p (start + k)
  | pointed {row : Row} {table : Table} {k : Int} (hmode : l.mode = .dynamic) (hk : 0 ≤ k)
      (hlt : k < 3 * shape.columns table) : Input l shape p ((p.row row table + k) % prime)
  | challenge {k : Int} (hk : 0 ≤ k) (hlt : k < 3 * shape.challenges) :
      Input l shape p (l.challengesPointer + k)

namespace Emitter

/-- What the accesses so far are like: they are confined, row pointers stand in their slots, the
slots of nodes in scope have been written, and each word of the outputs so far has been written
once. -/
structure Trail (e : Emitter) (l : Layout) (shape : Shape) (p : RowPointers) (page : Int)
    (scope : Scope) (count : Nat) (load : Int → Int) (log : List Access) : Prop where
  confined : Confined (l.Input shape p) page e.params.page log
  pointer : e.mode = .dynamic →
    ∀ row table slot, (Region.ofRow row table).pointerSlot? = some slot →
    load (page + slot) = p.row row table ∧ .write (page + slot) ∈ log
  shared : ∀ i : Nat, scope.contains i = true → (i : Int) < e.params.outputOffset ∧
    ∀ j, 0 ≤ j → j < 3 → .write (e.slot page i + j) ∈ log
  outputs : ∀ k, 0 ≤ k →
    log.count (.write (e.slot page e.params.outputOffset + k)) = if k < 3 * count then 1 else 0
  room : 0 < count → (count : Int) ≤ e.params.capacity

/-- The words that code may read after the accesses so far. -/
def Reads (l : Layout) (shape : Shape) (p : RowPointers) (log : List Access) (q : Int) : Prop :=
  l.Input shape p q ∨ .write q ∈ log

/-- The layout is integral and of the emitter's mode. -/
structure Ground (e : Emitter) (l : Layout) (shape : Shape) (page : Int) : Prop where
  mode : l.mode = e.mode
  check : l.check shape e.params = .ok ()
  page : l.pointer? .page = some page
  four_le : 4 ≤ e.params.pointers

variable {e : Emitter} {l : Layout} {shape : Shape} {p : RowPointers} {page : Int}
  {scope : Scope} {count : Nat} {log : List Access} {a : Arena}

theorem Ground.placed (h : e.Ground l shape page) : e.Placed page :=
  placed_of_check h.check h.page h.four_le

/-- The code of a variable reads input, and the pointer to its row. -/
theorem leafCode_fetches (h : e.Ground l shape page) (hcap : 0 < e.params.capacity) {x : Leaf}
    (hx : shape.Admits x) {code : Array Instruction} (hcode : e.leafCode x = .ok code) :
    Fetches l code (fun load => e.Trail l shape p page scope count load log)
      (Reads l shape p log) := by
  cases x with
  | constant s => cases hcode; exact fetches_constant s.lift
  | input c =>
    obtain ⟨h₀, hlt⟩ := hx
    cases hmode : e.mode with
    | static =>
      obtain ⟨start, hstart⟩ :=
        Layout.exists_pointer_of_static (h.mode.trans hmode) (.ofRow c.row c.table)
      rw [leafCode, loadRowElement, hmode] at hcode
      obtain ⟨offset, hoffset, hcode⟩ := exists_of_bind_eq_ok hcode
      cases hcode
      rw [checkOffset_eq_ok hoffset]
      refine fetches_load hstart fun load _ j hj hj3 => .inl ?_
      rw [Int.add_sub_assoc,
        Layout.emod_of_check h.check hstart (by omega) (by rw [words_ofRow]; omega)]
      exact .placed hstart (by omega) (by omega)
    | dynamic =>
      obtain ⟨slot, hslot, hs, hs4⟩ := exists_pointerSlot c.row c.table
      simp only [leafCode, loadRowElement, hmode, hslot] at hcode
      obtain ⟨offset, hoffset, hcode⟩ := exists_of_bind_eq_ok hcode
      cases hcode
      rw [checkOffset_eq_ok hoffset]
      refine fetches_loadThrough h.page (fun load ht => .inr ?_) fun load ht j hj hj3 => .inl ?_
      · rw [pointer_emod h.placed (four_le_page h.placed hcap) hs hs4]
        exact (ht.pointer hmode _ _ _ hslot).2
      · rw [(ht.pointer hmode _ _ _ hslot).1, Int.add_sub_assoc]
        exact .pointed (h.mode.trans hmode) (by omega) (by omega)
  | challenge i =>
    obtain ⟨h₀, hlt⟩ := hx
    obtain ⟨offset, hoffset, hcode⟩ := exists_of_bind_eq_ok hcode
    cases hcode
    rw [checkOffset_eq_ok hoffset]
    have hwords : Region.words shape e.params .challenges = shape.challenges * 3 := rfl
    refine fetches_load l.pointer?_challenges fun load _ j hj hj3 => .inl ?_
    rw [Int.add_sub_assoc, Layout.emod_of_check h.check l.pointer?_challenges (by omega) (by omega)]
    exact .challenge (by omega) (by omega)

/-- The code of a node reads input, and slots that have been written. -/
theorem Coded.fetches (h : e.Ground l shape page) (hcap : 0 < e.params.capacity) {i : Nat}
    {f : Expr} {code : Array Instruction} (hcode : e.Coded a scope i f code)
    (hadm : ∀ x ∈ f.vars, shape.Admits x) :
    Fetches l code (fun load => e.Trail l shape p page scope count load log)
      (Reads l shape p log) := by
  induction hcode with
  | shared hf hi hcode =>
    rw [(loadShared_eq_ok hcode).2]
    -- the slot is read from its last word down
    refine fetches_load h.page fun load ht j hj hj3 => .inr ?_
    obtain ⟨hlt, hwritten⟩ := ht.shared _ hi
    have hword := hwritten (2 - j) (by omega) (by omega)
    rw [← slot_emod h.placed ⟨by omega, by omega⟩ (by omega) (by omega)] at hword
    convert hword using 3
    rw [slot]
    omega
  | @leaf i x code hl hcode =>
    refine leafCode_fetches h hcap ?_ hcode
    cases x with
    | constant s => trivial
    | input c => exact hadm _ (by simp [Expr.vars])
    | challenge j => exact hadm _ (by simp [Expr.vars])
  | operation hl hx hy ihx ihy =>
    exact (ihx fun v hv => hadm v (List.mem_append_left _ hv)).operation _
      (ihy fun v hv => hadm v (List.mem_append_right _ hv))

/-! ## Stores -/

theorem Trail.fetch {load : Int → Int} (h : e.Trail l shape p page scope count load log)
    {more : List Access} (hmore : ∀ access ∈ more, ∃ q, access = .read q ∧ Reads l shape p log q) :
    e.Trail l shape p page scope count load (log ++ more) := by
  have hw : ∀ q, .write q ∉ more := fun q hq => by
    obtain ⟨_, heq, -⟩ := hmore _ hq
    cases heq
  have hr : ∀ q, .read q ∈ more → Reads l shape p log q := fun q hq => by
    obtain ⟨_, heq, hq⟩ := hmore _ hq
    cases heq
    exact hq
  refine ⟨h.confined.append (fun q hq => absurd hq (hw q)) hr, fun hmode row table slot hslot => ?_,
    fun i hi => ?_, fun k hk => ?_, h.room⟩
  · obtain ⟨hload, hmem⟩ := h.pointer hmode row table slot hslot
    exact ⟨hload, List.mem_append_left _ hmem⟩
  · obtain ⟨hlt, hmem⟩ := h.shared i hi
    exact ⟨hlt, fun j hj hj3 => List.mem_append_left _ (hmem j hj hj3)⟩
  · rw [List.count_append, List.count_eq_zero_of_not_mem (hw _), Nat.add_zero, h.outputs k hk]

section

variable {load load' : Int → Int} {k : Int}

theorem Trail.confined_store (h : e.Trail l shape p page scope count load log)
    (hplaced : e.Placed page) (hk : e.InRange k) :
    Confined (l.Input shape p) page e.params.page (log ++ storing (e.slot page k)) := by
  refine h.confined.append (fun q hq => ?_) fun q hq => absurd hq (not_read_mem_storing _ q)
  obtain ⟨hle, hlt⟩ := mem_storing.1 hq
  have hfirst := (slot_bounds hplaced hk (Int.le_refl 0) (by omega)).1
  have hlast := (slot_bounds hplaced hk (j := 2) (by omega) (by omega)).2
  have := (scratchOffset_bounds hplaced).1
  omega

/-- Slots lie above the row pointers. -/
theorem Trail.pointer_store (h : e.Trail l shape p page scope count load log)
    (hplaced : e.Placed page) (hcap : 0 < e.params.capacity) (hk : e.InRange k)
    (hload : ∀ q, (∀ j, 0 ≤ j → j < 3 → q % prime ≠ (e.slot page k + j) % prime) → load' q = load q)
    (hmode : e.mode = .dynamic) {row : Row} {table : Table} {slot : Int}
    (hslot : (Region.ofRow row table).pointerSlot? = some slot) :
    load' (page + slot) = p.row row table ∧
      .write (page + slot) ∈ log ++ storing (e.slot page k) := by
  obtain ⟨hpointer, hmem⟩ := h.pointer hmode row table slot hslot
  refine ⟨?_, List.mem_append_left _ hmem⟩
  rw [← hpointer]
  refine hload _ fun j hj hj3 heq => ?_
  obtain ⟨slot', hslot', hs, hs4⟩ := exists_pointerSlot row table
  obtain rfl : slot' = slot := Option.some.inj (hslot'.symm.trans hslot)
  have hoffset : e.scratchOffset = e.params.pointers := by rw [scratchOffset, hmode]
  have hfour := hplaced.four_le
  have hb := (slot_bounds hplaced hk hj hj3).1
  rw [pointer_emod hplaced (four_le_page hplaced hcap) hs hs4, slot_emod hplaced hk hj hj3] at heq
  omega

/-- The slots of shared nodes lie below the output array. -/
theorem Trail.share (h : e.Trail l shape p page scope count load log) (hplaced : e.Placed page)
    (hcap : 0 < e.params.capacity) {i : Nat} (hi : (i : Int) < e.params.outputOffset)
    {scope' : Scope} (hscope : scope.declare i = .ok scope')
    (hload : ∀ q, (∀ j, 0 ≤ j → j < 3 → q % prime ≠ (e.slot page i + j) % prime) →
      load' q = load q) :
    e.Trail l shape p page scope' count load' (log ++ storing (e.slot page i)) := by
  have hrange : e.InRange i := ⟨by omega, by omega⟩
  refine ⟨h.confined_store hplaced hrange,
    fun hmode row table slot => h.pointer_store hplaced hcap hrange hload hmode,
    fun j hj => ?_, fun k hk => ?_, h.room⟩
  · by_cases hji : j = i
    · subst hji
      exact ⟨hi, fun j hj hj3 => List.mem_append_right _ (mem_storing.2 ⟨by omega, by omega⟩)⟩
    · have hne : (j : Int) ≠ i := by exact_mod_cast hji
      obtain ⟨hlt, hmem⟩ := h.shared j (((Scope.declare_eq_ok hscope j).1 hj).resolve_right hne)
      exact ⟨hlt, fun j hj hj3 => List.mem_append_left _ (hmem j hj hj3)⟩
  · have hbelow : ¬ (e.slot page i ≤ e.slot page e.params.outputOffset + k ∧
        e.slot page e.params.outputOffset + k < e.slot page i + 3) := by
      simp only [slot]
      omega
    rw [List.count_append, h.outputs k hk, count_storing, if_neg hbelow, Nat.add_zero]

/-- An output lies behind those before it. -/
theorem Trail.output (h : e.Trail l shape p page scope count load log) (hplaced : e.Placed page)
    (hlt : (count : Int) < e.params.capacity)
    (hload : ∀ q,
      (∀ j, 0 ≤ j → j < 3 → q % prime ≠ (e.slot page (e.params.outputOffset + count) + j) % prime) →
      load' q = load q) :
    e.Trail l shape p page scope (count + 1) load'
      (log ++ storing (e.slot page (e.params.outputOffset + count))) := by
  have hrange := inRange_output hlt
  refine ⟨h.confined_store hplaced hrange,
    fun hmode row table slot => h.pointer_store hplaced (by omega) hrange hload hmode,
    fun j hj => ?_, fun k hk => ?_, fun _ => by omega⟩
  · obtain ⟨hlt, hmem⟩ := h.shared j hj
    exact ⟨hlt, fun j hj hj3 => List.mem_append_left _ (hmem j hj hj3)⟩
  · have hword :
        (e.slot page (e.params.outputOffset + count) ≤ e.slot page e.params.outputOffset + k ∧
        e.slot page e.params.outputOffset + k < e.slot page (e.params.outputOffset + count) + 3) ↔
        3 * (count : Int) ≤ k ∧ k < 3 * (count + 1) := by
      simp only [slot]
      omega
    rw [List.count_append, h.outputs k hk, count_storing, if_congr hword rfl rfl, Nat.cast_add_one]
    split_ifs <;> omega

end

/-- The accesses of a machine that performs code leave a trail. -/
def Trails (e : Emitter) (l : Layout) (shape : Shape) (p : RowPointers) (page : Int) (m : Machine)
    (scope : Scope) (count : Nat) (code : Array Instruction) : Prop :=
  ∀ resolved, l.Resolves code resolved → (m.perform resolved).status = .running ∧
    e.Trail l shape p page scope count (m.perform resolved).load (m.traced resolved)

theorem traced_store_slot (hplaced : e.Placed page) {k : Int} (hk : e.InRange k) {m : Machine}
    {x : Ext} {s : List Int} (hs : m.stack = x.words ++ s) :
    m.traced (storeCode (.word (e.slot page k % prime))).toList = storing (e.slot page k) := by
  have hwords : ∀ j ∈ List.range 3, Access.write ((e.slot page k % prime + (j : Nat)) % prime) =
      .write (e.slot page k + (j : Nat)) := by
    intro j hj
    have := List.mem_range.1 hj
    rw [Int.emod_add_emod, slot_emod hplaced hk (by omega) (by omega)]
  rw [Machine.traced_store _ hs, List.map_congr_left hwords]
  simp [storing, List.range_succ]

theorem Trails.store (h : e.Ground l shape page) {m : Machine} {done code : Array Instruction}
    (hdone : e.Trails l shape p page m scope count done)
    (hcode : ∀ log, Fetches l code (fun load => e.Trail l shape p page scope count load log)
      (Reads l shape p log)) {k : Int}
    (hk : e.InRange k) {resolved : List Instruction}
    (hr : l.Resolves (done ++ (code ++ storeCode (.address (e.slotAddress k)))) resolved) :
    ∃ load log, e.Trail l shape p page scope count load log ∧
      m.traced resolved = log ++ storing (e.slot page k) ∧ (m.perform resolved).status = .running ∧
      ∀ q, (∀ j, 0 ≤ j → j < 3 → q % prime ≠ (e.slot page k + j) % prime) →
        (m.perform resolved).load q = load q := by
  obtain ⟨first, rest, h₁, hrest, rfl⟩ := Layout.resolves_append hr
  obtain ⟨second, third, h₂, h₃, rfl⟩ := Layout.resolves_append hrest
  obtain rfl : third = (storeCode (.word (e.slot page k % prime))).toList :=
    Layout.resolves_storeCode h.page h₃
  obtain ⟨hrun, htrail⟩ := hdone first h₁
  obtain ⟨⟨x, hpushed⟩, hreads⟩ := hcode _ second h₂ _ hrun htrail
  obtain ⟨m', hm', -, hstored, -⟩ :=
    Machine.perform_store hpushed.running (e.slot page k % prime) hpushed.stack_eq
  refine ⟨_, _, htrail.fetch hreads, ?_, ?_, fun q hq => ?_⟩
  · rw [Machine.traced_append, Machine.traced_append,
      traced_store_slot h.placed hk hpushed.stack_eq, List.append_assoc]
  · rw [Machine.perform_append, Machine.perform_append, hm']
    exact hstored.running
  · rw [Machine.perform_append, Machine.perform_append, hm',
      hstored.load_eq q fun j hj hj3 => by
        rw [Int.emod_add_emod]; exact hq j hj hj3, hpushed.load_eq]

/-- Each store continues the trail. -/
theorem kept_trail (h : e.Ground l shape page) (m : Machine) :
    e.Kept a shape.Admits fun scope outputs code =>
      e.Trails l shape p page m scope outputs.length code where
  share {scope scope' outputs done i f code} hdone hcode hadm hcap hi hscope := by
    intro resolved hr
    obtain ⟨load, log, htrail, heq, hrun, hload⟩ :=
      hdone.store h (fun log => hcode.fetches h hcap hadm) ⟨by omega, by omega⟩ hr
    rw [heq]
    exact ⟨hrun, htrail.share h.placed hcap hi hscope hload⟩
  output {scope outputs done c code} hdone hcode hadm hlt := by
    intro resolved hr
    obtain ⟨load, log, htrail, heq, hrun, hload⟩ :=
      hdone.store h (fun log => hcode.fetches h (by omega) hadm) (inRange_output hlt) hr
    rw [heq, List.length_append, List.length_singleton]
    exact ⟨hrun, htrail.output h.placed hlt hload⟩
  forget hdone := by
    intro resolved hr
    obtain ⟨hrun, ht⟩ := hdone resolved hr
    refine ⟨hrun, ht.confined, ht.pointer, fun i hi => ?_, ht.outputs, ht.room⟩
    rw [Scope.contains_empty] at hi
    cases hi

theorem perform_slotCode (hplaced : e.Placed page) (hpage : 4 ≤ e.params.page) {k : Int}
    (hk : 0 ≤ k) (hk4 : k < 4) {m : Machine} (hm : m.status = .running) {w : Int} {s : List Int}
    (hs : m.stack = w :: s) :
    (m.perform (slotCode page k)).status = .running ∧ (m.perform (slotCode page k)).stack = s ∧
      m.traced (slotCode page k) = [.write (page + k)] := by
  obtain ⟨m', hm', hstack, hstored, -⟩ := Machine.perform_storeWord hm ((page + k) % prime) hs
  rw [slotCode, hm', Machine.traced_storeWord _ hs, Int.emod_emod,
    pointer_emod hplaced hpage hk hk4]
  exact ⟨hstored.running, hstack, rfl⟩

theorem traced_prologue (hplaced : e.Placed page) (hpage : 4 ≤ e.params.page) {m : Machine}
    (hm : m.status = .running) {rest : List Int} (hstack : m.stack = p.toList.reverse ++ rest) :
    m.traced (slotCode page 3 ++ (slotCode page 2 ++ (slotCode page 1 ++ slotCode page 0))) =
      [.write (page + 3), .write (page + 2), .write (page + 1), .write (page + 0)] := by
  obtain ⟨r₃, s₃, t₃⟩ := perform_slotCode hplaced hpage (k := 3) (by omega) (by omega) hm hstack
  obtain ⟨r₂, s₂, t₂⟩ := perform_slotCode hplaced hpage (k := 2) (by omega) (by omega) r₃ s₃
  obtain ⟨r₁, s₁, t₁⟩ := perform_slotCode hplaced hpage (k := 1) (by omega) (by omega) r₂ s₂
  obtain ⟨-, -, t₀⟩ := perform_slotCode hplaced hpage (k := 0) (by omega) (by omega) r₁ s₁
  rw [Machine.traced_append, t₃, Machine.traced_append, t₂, Machine.traced_append, t₁, t₀]
  rfl

/-- The prologue writes the row pointers to the first words of the page. -/
theorem trails_prologue (h : e.Ground l shape page) (hpage : 4 ≤ e.params.page) {m : Machine}
    (hm : m.status = .running)
    (hstack : e.mode = .dynamic → ∃ rest, m.stack = p.toList.reverse ++ rest) :
    e.Trails l shape p page m .empty 0 e.prologue := by
  intro resolved hr
  have hempty : ∀ i : Nat, Scope.empty.contains i = true → (i : Int) < e.params.outputOffset ∧
      ∀ j, 0 ≤ j → j < 3 → .write (e.slot page i + j) ∈ m.traced resolved := fun i hi => by
    rw [Scope.contains_empty] at hi
    cases hi
  cases hmode : e.mode with
  | static =>
    obtain rfl : resolved = [] := Except.ok.inj (hr.symm.trans (resolves_prologue_static hmode))
    refine ⟨hm, confined_nil .., fun hd => ?_, hempty, fun k hk => ?_,
      fun h => absurd h (Nat.lt_irrefl 0)⟩
    · rw [hmode] at hd
      cases hd
    · rw [Machine.traced_nil, List.count_nil, if_neg (by omega)]
  | dynamic =>
    obtain ⟨rest, hstack⟩ := hstack hmode
    obtain rfl := Except.ok.inj (hr.symm.trans (resolves_prologue_dynamic hmode h.page))
    obtain ⟨m', hperform, hrun, -, hslots⟩ := perform_prologue page hm hstack
    have htraced := traced_prologue h.placed hpage hm hstack
    rw [htraced] at hempty ⊢
    rw [hperform]
    refine ⟨hrun, ⟨fun q hq => ?_, fun before q after heq => ?_⟩,
      fun _ row table slot hslot => ⟨hslots.slot _ _ _ hslot, ?_⟩,
      hempty, fun k hk => ?_, fun h => absurd h (Nat.lt_irrefl 0)⟩
    · simp only [List.mem_cons, Access.write.injEq, List.not_mem_nil, or_false] at hq
      omega
    · have hq : Access.read q ∈ before ++ .read q :: after :=
        List.mem_append_right _ List.mem_cons_self
      rw [← heq] at hq
      simp at hq
    · cases row <;> cases table <;> cases hslot <;> simp
    · -- the output array lies above the row pointers
      have hoffset : e.scratchOffset = e.params.pointers := by rw [scratchOffset, hmode]
      have hfour := h.four_le
      have hoff := e.params.three_mul_outputOffset
      have hres := e.params.reserved_lt_page
      rw [if_neg (by omega), List.count_eq_zero]
      simp only [List.mem_cons, Access.write.injEq, List.not_mem_nil, or_false, slot, hoffset]
      omega

end Emitter

namespace Template

variable {e : Emitter} {shape : Shape} {cs : Buckets (List Circuit)} {t : Template} {l : Layout}
  {code : Array Instruction} {a : Arena} {page : Int} {p : RowPointers} {m : Machine}

theorem count_output {load : Int → Int} {log : List Access} {scope : Scope} {count : Nat}
    (hplaced : e.Placed page) (h : e.Trail l shape p page scope count load log) {k : Int}
    (hk : 0 ≤ k) (hlt : k < 3 * count) :
    log.count (.write (e.slot page e.params.outputOffset % prime + k)) = 1 := by
  -- with an output there is room for one, so the array begins in the page
  have hroom := h.room (by omega)
  have hrange := e.inRange_output (i := 0) (by omega)
  have hword := Emitter.slot_emod hplaced hrange (Int.le_refl 0) (by omega)
  rw [Nat.cast_zero, Int.add_zero, Int.add_zero] at hword
  rw [hword, h.outputs k hk, if_pos hlt]

/-- A run writes to the page only, each word of the output array once, and reads rows, challenges
and words that it has written before, whatever memory holds. With dynamic addressing rows may lie
anywhere, in the page too. -/
theorem run_confined (hp : 4 ≤ e.params.pointers) (hsize : 4 ≤ e.params.page)
    (hcs : cs.Within a shape) (ht : ofCircuits e shape cs = .ok t)
    (hcode : t.instantiate l = .ok code) (hpage : l.pointer? .page = some page) (hpc : m.pc = 0)
    (hm : m.status = .running)
    (hstack : e.mode = .dynamic → ∃ rest, m.stack = p.toList.reverse ++ rest) :
    (m.run code).status = .halted ∧
      (m.run code).written.toList = m.written.toList ++
      (m.runTrace code).filterMap Access.written? ∧
      Confined (l.Input shape p) page e.params.page (m.runTrace code) ∧
      ∃ out, t.outputArray l = .ok out ∧
        ∀ k : Int, 0 ≤ k → k < 3 * t.count → (m.runTrace code).count (.write (out + k)) = 1 := by
  have h := assembled_of_ofCircuits ht
  obtain ⟨hmode, hcheck, hresolves⟩ := instantiate_eq_ok hcode
  rw [h.shape, h.params] at hcheck
  have hground : e.Ground l shape page := ⟨hmode.trans h.mode, hcheck, hpage, hp⟩
  have hkept :=
    h.kept hcs (Emitter.kept_trail hground m) (Emitter.trails_prologue hground hsize hm hstack)
  obtain ⟨start, hstart, hall⟩ := h.exists_of_resolves hpage hresolves
  obtain ⟨hrun, htrail⟩ := hkept start hstart
  have hperform : (m.perform code.toList).status = .running := by
    rw [hall, Machine.perform_append]
    exact hrun
  have htrace : m.runTrace code = m.traced start := by
    rw [Machine.runTrace_eq_traced hpc hperform, hall, Machine.traced_append]
    exact List.append_nil _
  refine ⟨by rw [Machine.run_eq_perform hpc hperform], m.written_run code,
    htrace ▸ htrail.confined, _, h.outputArray_eq hpage, fun k hk hlt => ?_⟩
  rw [h.count, ← length_allOutputs] at hlt
  exact htrace ▸ count_output hground.placed htrail hk hlt

/-- The dynamic assembly of `fibonacci`, with two rows in the page and two around the end of the
address space. -/
theorem run_confined_fibonacci :
    let s := ConstraintSystem.fibonacci
    let l := Layout.dynamic 1000000 400
    let p : RowPointers := ⟨1000000, 1000002, -1, 18446744069414584320⟩
    let m := Machine.sample (p.toList.reverse ++ [9]) .fibonacci
    4 ≤ Params.small.pointers ∧ 4 ≤ Params.small.page ∧ s.allCircuits.Within s.arena s.shape ∧
      m.pc = 0 ∧
      m.status = .running ∧ ∃ t code, ofCircuits ⟨.dynamic, .small⟩ s.shape s.allCircuits = .ok t ∧
        t.instantiate l = .ok code ∧ 0 < t.count ∧ (m.run code).status = .halted ∧
        (m.run code).written.toList = m.written.toList ++
          (m.runTrace code).filterMap Access.written? ∧
        Confined (l.Input s.shape p) 1000000 Params.small.page (m.runTrace code) ∧
        ∃ out, t.outputArray l = .ok out ∧
          ∀ k : Int, 0 ≤ k → k < 3 * t.count → (m.runTrace code).count (.write (out + k)) = 1 := by
  intro s l p m
  obtain ⟨t, code, ht, hcode⟩ : ∃ t code,
      ofCircuits ⟨.dynamic, .small⟩ s.shape s.allCircuits = .ok t ∧
      t.instantiate l = .ok code := exists_instantiate (by decide +kernel)
  have hcount : 0 < t.count := by
    rw [(assembled_of_ofCircuits ht).count]
    decide +kernel
  exact ⟨by decide, by decide, ConstraintSystem.within_fibonacci, rfl, rfl, t,
    code, ht, hcode, hcount,
    run_confined (e := ⟨.dynamic, .small⟩) (p := p) (by decide) (by decide)
      ConstraintSystem.within_fibonacci ht hcode rfl rfl rfl fun _ => ⟨[9], rfl⟩⟩

end Template

end AirCompiler
