import AirCompiler.Assembly.Simulation
import AirCompiler.Proofs.Assembly.Bucket
import AirCompiler.Proofs.Evaluation.System

/-!
# The settings of the two addressing modes

With static addressing all regions have their places, beyond the page (`Layout.outside_page`), so
the code of a leaf finds its element where it was at the start (`Emitter.setting_static`). With
dynamic addressing the prologue first moves the four row pointers into the page, below the scratch
area (`Emitter.perform_prologue`), and the code of a row's leaf reads the pointer from there
(`Emitter.setting_dynamic`).
-/

namespace AirCompiler

/-! ## Entries in memory -/

/-- Memory holds the entries, lifted to the extension, one after another. -/
def Held (load : Int → Int) (p : Int) (xs : Array Scalar) : Prop :=
  ∀ (i : Nat) (s : Scalar), xs[i]? = some s → elementAt load (p + 3 * i) = s.lift

theorem held_of_loadElements {m : Machine} {p : Int} {xs : Array Scalar}
    (h : m.loadElements p xs.size = xs.toList.map Scalar.lift) : Held m.load p xs := by
  intro i s hs
  have hi : i < xs.size := (Array.getElem?_eq_some_iff.1 hs).1
  have hget := congrArg (·[i]?) h
  simp only [Machine.loadElements, List.getElem?_map, List.getElem?_range hi, Array.getElem?_toList,
    hs, Option.map_some, Option.some.injEq] at hget
  exact hget

/-- The value of an entry that is in range. -/
theorem exists_itemAt? {xs : Array Scalar} {i : Int} (h₀ : 0 ≤ i) (h : i < xs.size)
    {load : Int → Int} {p : Int} (hx : Held load p xs) :
    ((itemAt? xs i).map Scalar.lift).getD 0 = elementAt load (p + 3 * i) := by
  obtain ⟨s, hs, hget⟩ := itemAt?_of_lt h₀ h
  rw [hs, Option.map_some, Option.getD_some, ← hx i.toNat s hget, Int.toNat_of_nonneg h₀]

namespace Emitter

variable {e : Emitter} {l : Layout} {shape : Shape} {page : Int} {load₀ : Int → Int} {rows : Rows}

/-- Elements beyond the scratch area are as they were. -/
theorem Frame.elementAt_eq {load : Int → Int} (h : e.Frame page load₀ load) {p : Int}
    (hp : ∀ k, 0 ≤ k → k < 3 → ¬ e.InScratch page (p + k)) : elementAt load p = elementAt load₀ p :=
  elementAt_congr fun k hk hk3 => h _ (hp k hk hk3)

theorem not_inScratch (h : e.Placed page) {q : Int}
    (hq : ¬ (page ≤ q % prime ∧ q % prime < page + e.params.page)) : ¬ e.InScratch page q := by
  rintro ⟨h₁, h₂⟩
  have := (scratchOffset_bounds h).1
  exact hq ⟨by omega, h₂⟩

/-- An entry of a region at a known place, beyond the page. -/
theorem loadElement_pushes (hplaced : e.Placed page) (hcheck : l.check shape e.params = .ok ())
    (hpage : l.pointer? .page = some page) {r : Region} {start : Int}
    (hr : l.pointer? r = some start) (hne : r ≠ .page) {xs : Array Scalar}
    (hx : Held load₀ start xs) (hwords : r.words shape e.params = xs.size * 3) {i : Int}
    (h₀ : 0 ≤ i) (hi : i < xs.size) {code : Array Instruction} (h : loadElement r i = .ok code) :
    Pushes l code (e.Frame page load₀) (((itemAt? xs i).map Scalar.lift).getD 0) := by
  obtain ⟨offset, hoffset, h⟩ := exists_of_bind_eq_ok h
  cases h
  rw [checkOffset_eq_ok hoffset, exists_itemAt? h₀ hi hx]
  refine pushes_load hr fun load hload => ?_
  rw [show start + (3 * i + 2) - 2 = start + 3 * i by omega]
  refine hload.elementAt_eq fun k hk hk3 => not_inScratch hplaced ?_
  have hb := Layout.bounds_of_check hcheck hr
  rw [Int.emod_eq_of_lt (by omega) (by omega), Int.add_assoc]
  exact Layout.outside_page hcheck hpage hr hne (by omega) (by omega)

theorem placed_of_check (hcheck : l.check shape e.params = .ok ())
    (hpage : l.pointer? .page = some page) (hp : 4 ≤ e.params.pointers) : e.Placed page := by
  obtain ⟨h₀, h₁⟩ := Layout.bounds_of_check hcheck hpage
  exact ⟨h₀, h₁, hp⟩

theorem words_ofRow (shape : Shape) (params : Params) (row : Row) (table : Table) :
    (Region.ofRow row table).words shape params = shape.columns table * 3 := by
  cases row <;> cases table <;> rfl

theorem ofRow_ne_page (row : Row) (table : Table) : Region.ofRow row table ≠ .page := by
  cases row <;> cases table <;> simp [Region.ofRow]

/-- Static addressing finds rows and challenges at their places. -/
theorem setting_static (hmode : e.mode = .static) (hp : 4 ≤ e.params.pointers)
    (hcheck : l.check shape e.params = .ok ()) (hpage : l.pointer? .page = some page)
    (hfits : rows.Fits shape)
    (hrows : ∀ row table, ∃ start, l.pointer? (.ofRow row table) = some start ∧
      Held load₀ start (rows.row row table))
    (hchallenges : ∃ start, l.pointer? .challenges = some start ∧
      Held load₀ start rows.challenges) :
    e.Setting l page load₀ rows.assignment shape.Admits := by
  have hplaced := placed_of_check hcheck hpage hp
  refine ⟨hpage, hplaced, fun _ x code hx h => ?_⟩
  cases x with
  | constant s => cases h; exact pushes_constant s.lift
  | input c =>
    obtain ⟨start, hstart, hheld⟩ := hrows c.row c.table
    have hsize := hfits.row c.row c.table
    rw [leafCode, loadRowElement, hmode] at h
    exact loadElement_pushes hplaced hcheck hpage hstart (ofRow_ne_page _ _) hheld
      (by rw [words_ofRow, hsize]) hx.1 (hsize ▸ hx.2) h
  | challenge i =>
    obtain ⟨start, hstart, hheld⟩ := hchallenges
    have hsize := hfits.challenges
    exact loadElement_pushes hplaced hcheck hpage hstart (by simp) hheld (by rw [hsize]; rfl)
      hx.1 (hsize ▸ hx.2) h

end Emitter

/-! ## Row pointers -/

/-- The pointer to a row. -/
def RowPointers.row (p : RowPointers) : Row → Table → Int
  | .current, .main => p.currentMain
  | .current, .aux => p.currentAux
  | .next, .main => p.nextMain
  | .next, .aux => p.nextAux

/-- The page begins with the row pointers, and the memory beyond these four words is as it was. -/
structure RowPointers.InSlots (p : RowPointers) (page : Int) (load load₀ : Int → Int) : Prop where
  slot : ∀ row table slot, (Region.ofRow row table).pointerSlot? = some slot →
    load₀ (page + slot) = p.row row table
  load_eq : ∀ q, (∀ k, 0 ≤ k → k < 4 → q % prime ≠ (page + k) % prime) → load₀ q = load q

theorem slots_ne (page : Int) {j k : Int} (hj : 0 ≤ j) (hj4 : j < 4) (hk : 0 ≤ k)
    (hk4 : k < 4) (hne : j ≠ k) : (page + j) % prime ≠ (page + k) % prime := by
  have hprime : (4 : Int) < prime := by decide
  rcases Int.lt_or_gt_of_ne hne with h | h
  · exact Machine.add_emod_ne page h (by omega)
  · exact (Machine.add_emod_ne page h (by omega)).symm

/-- Code that moves the word on top of the stack to a slot of the page. -/
def slotCode (page slot : Int) : List Instruction :=
  [.push (.word ((page + slot) % prime)), .writeMem .one, .pop .one]

namespace Emitter

variable {e : Emitter} {l : Layout} {shape : Shape} {page : Int} {load load₀ : Int → Int}
  {rows : Rows} {p : RowPointers}

theorem resolves_prologue_static (hmode : e.mode = .static) : l.Resolves e.prologue [] := by
  rw [Layout.Resolves, prologue, hmode]
  rfl

theorem resolves_prologue_dynamic (hmode : e.mode = .dynamic)
    (hpage : l.pointer? .page = some page) :
    l.Resolves e.prologue
      (slotCode page 3 ++ (slotCode page 2 ++ (slotCode page 1 ++ slotCode page 0))) := by
  rw [Layout.Resolves, prologue, hmode]
  simp only [Array.toList_flatMap, List.flatMap_cons, List.flatMap_nil, List.cons_append,
    List.nil_append, List.mapM_cons, Instruction.resolveWith, Layout.resolve_eq hpage]
  rfl

/-- The prologue moves the row pointers to their slots, the last one first. -/
theorem perform_prologue (page : Int) {m : Machine} (hm : m.status = .running) {rest : List Int}
    (hstack : m.stack = p.toList.reverse ++ rest) :
    ∃ m', m.perform
      (slotCode page 3 ++ (slotCode page 2 ++ (slotCode page 1 ++ slotCode page 0))) = m' ∧
      m'.status = .running ∧ m'.stack = rest ∧ p.InSlots page m.load m'.load := by
  obtain ⟨m₃, h₃, hstack₃, s₃, l₃⟩ := Machine.perform_storeWord hm ((page + 3) % prime) hstack
  obtain ⟨m₂, h₂, hstack₂, s₂, l₂⟩ :=
    Machine.perform_storeWord s₃.running ((page + 2) % prime) hstack₃
  obtain ⟨m₁, h₁, hstack₁, s₁, l₁⟩ :=
    Machine.perform_storeWord s₂.running ((page + 1) % prime) hstack₂
  obtain ⟨m₀, h₀, hstack₀, s₀, l₀⟩ :=
    Machine.perform_storeWord s₁.running ((page + 0) % prime) hstack₁
  rw [Machine.load_emod] at l₃ l₂ l₁ l₀
  -- a store to one slot leaves the slots above it, which were written before
  have e₀ : ∀ k, 0 < k → k < 4 → m₀.load (page + k) = m₁.load (page + k) := fun k hk hk4 =>
    s₀.load_eq_of_ne (slots_ne page (by omega) hk4 (by omega) (by omega) (by omega))
  have e₁ : ∀ k, 1 < k → k < 4 → m₁.load (page + k) = m₂.load (page + k) := fun k hk hk4 =>
    s₁.load_eq_of_ne (slots_ne page (by omega) hk4 (by omega) (by omega) (by omega))
  have e₂ : m₂.load (page + 3) = m₃.load (page + 3) :=
    s₂.load_eq_of_ne (slots_ne page (by omega) (by omega) (by omega) (by omega) (by omega))
  refine ⟨m₀, ?_, s₀.running, hstack₀, ⟨fun row table slot hslot => ?_, fun q hq => ?_⟩⟩
  · rw [slotCode, Machine.perform_append, h₃, slotCode, Machine.perform_append, h₂, slotCode,
      Machine.perform_append, h₁, slotCode, h₀]
  · cases row <;> cases table <;> cases hslot
    · exact l₀
    · rw [e₀ 1 (by omega) (by omega), l₁]; rfl
    · rw [e₀ 2 (by omega) (by omega), e₁ 2 (by omega) (by omega), l₂]; rfl
    · rw [e₀ 3 (by omega) (by omega), e₁ 3 (by omega) (by omega), e₂, l₃]; rfl
  · rw [s₀.load_eq_of_ne (hq 0 (by omega) (by omega)),
      s₁.load_eq_of_ne (hq 1 (by omega) (by omega)),
      s₂.load_eq_of_ne (hq 2 (by omega) (by omega)), s₃.load_eq_of_ne (hq 3 (by omega) (by omega))]

/-- With room for one output the page has room for the row pointers. -/
theorem four_le_page (hplaced : e.Placed page) (hcap : 0 < e.params.capacity) :
    4 ≤ e.params.page := by
  have h₁ := e.params.three_mul_capacity_le
  have h₂ := hplaced.four_le
  have h₃ := e.params.reserved_lt_page
  omega

theorem pointer_emod (hplaced : e.Placed page) (hpage : 4 ≤ e.params.page) {k : Int}
    (hk : 0 ≤ k) (hk4 : k < 4) : (page + k) % prime = page + k := by
  have h₁ := hplaced.nonneg
  have h₂ := hplaced.le_prime
  exact Int.emod_eq_of_lt (by omega) (by omega)

/-- The prologue does not touch elements beyond the page. -/
theorem elementAt_of_inSlots (hplaced : e.Placed page) (hcap : 0 < e.params.capacity)
    (hslots : p.InSlots page load load₀) {q : Int}
    (hq : ∀ k, 0 ≤ k → k < 3 →
      ¬ (page ≤ (q + k) % prime ∧ (q + k) % prime < page + e.params.page)) :
    elementAt load₀ q = elementAt load q := by
  refine elementAt_congr fun k hk hk3 => hslots.load_eq _ fun j hj hj4 heq => hq k hk hk3 ?_
  have h := four_le_page hplaced hcap
  rw [heq, pointer_emod hplaced h hj hj4]
  omega

theorem exists_pointerSlot (row : Row) (table : Table) :
    ∃ slot, (Region.ofRow row table).pointerSlot? = some slot ∧ 0 ≤ slot ∧ slot < 4 := by
  cases row <;> cases table <;> exact ⟨_, rfl, by decide, by decide⟩

/-- The scratch area begins above the row pointers, so a run never overwrites them. -/
theorem Frame.load_slot (hmode : e.mode = .dynamic) (hplaced : e.Placed page)
    (hcap : 0 < e.params.capacity) (h : e.Frame page load₀ load) {slot : Int} (hs : 0 ≤ slot)
    (hs4 : slot < 4) : load (page + slot) = load₀ (page + slot) := by
  refine h _ ?_
  rintro ⟨hle, -⟩
  have hoffset : e.scratchOffset = e.params.pointers := by rw [scratchOffset, hmode]
  have hfour := hplaced.four_le
  rw [pointer_emod hplaced (four_le_page hplaced hcap) hs hs4, hoffset] at hle
  omega

/-- Dynamic addressing finds rows through their pointers and challenges at their place. -/
theorem setting_dynamic (hmode : e.mode = .dynamic) (hp : 4 ≤ e.params.pointers)
    (hcheck : l.check shape e.params = .ok ()) (hpage : l.pointer? .page = some page)
    (hfits : rows.Fits shape) (hslots : p.InSlots page load load₀)
    (hclear : ∀ row table (k : Int), 0 ≤ k → k < 3 * (rows.row row table).size →
      ¬ (page ≤ (p.row row table + k) % prime ∧
        (p.row row table + k) % prime < page + e.params.page))
    (hrows : ∀ row table, Held load (p.row row table) (rows.row row table))
    (hchallenges : ∃ start, l.pointer? .challenges = some start ∧ Held load start rows.challenges) :
    e.Setting l page load₀ rows.assignment shape.Admits := by
  have hplaced := placed_of_check hcheck hpage hp
  refine ⟨hpage, hplaced, fun hcap x code hx h => ?_⟩
  cases x with
  | constant s => cases h; exact pushes_constant s.lift
  | input c =>
    have hsize := hfits.row c.row c.table
    have h₀ : 0 ≤ c.column := hx.1
    have hlt : c.column < (rows.row c.row c.table).size := hsize ▸ hx.2
    obtain ⟨slot, hslot, hs, hs4⟩ := exists_pointerSlot c.row c.table
    simp only [leafCode, loadRowElement, hmode, hslot] at h
    obtain ⟨offset, hoffset, h⟩ := exists_of_bind_eq_ok h
    cases h
    rw [checkOffset_eq_ok hoffset]
    -- the slot still holds the pointer, and the words that it points to lie beyond the page
    refine pushes_loadThrough hpage fun mem hmem => ?_
    rw [hmem.load_slot hmode hplaced hcap hs hs4, hslots.slot _ _ _ hslot,
      show p.row c.row c.table + (3 * c.column + 2) - 2 = p.row c.row c.table + 3 * c.column by
        omega]
    have hout : ∀ k, 0 ≤ k → k < 3 → ¬ (page ≤ (p.row c.row c.table + 3 * c.column + k) % prime ∧
        (p.row c.row c.table + 3 * c.column + k) % prime < page + e.params.page) := by
      intro k hk hk3
      rw [Int.add_assoc]
      exact hclear c.row c.table _ (by omega) (by omega)
    rw [hmem.elementAt_eq fun k hk hk3 => not_inScratch hplaced (hout k hk hk3),
      elementAt_of_inSlots hplaced hcap hslots hout, ← exists_itemAt? h₀ hlt (hrows c.row c.table)]
    rfl
  | challenge i =>
    obtain ⟨start, hstart, hheld⟩ := hchallenges
    have hwords : Region.words shape e.params .challenges = rows.challenges.size * 3 := by
      rw [hfits.challenges]; rfl
    -- the challenges are read at their place, which the prologue has left alone
    have hheld₀ : Held load₀ start rows.challenges := by
      intro j s hs
      have hj : j < rows.challenges.size := (Array.getElem?_eq_some_iff.1 hs).1
      have hb := Layout.bounds_of_check hcheck hstart
      rw [← hheld j s hs]
      refine elementAt_of_inSlots hplaced hcap hslots fun k hk hk3 => ?_
      rw [Int.emod_eq_of_lt (by omega) (by omega), Int.add_assoc]
      exact Layout.outside_page hcheck hpage hstart (by simp) (by omega) (by omega)
    exact loadElement_pushes hplaced hcheck hpage hstart (by simp) hheld₀ hwords hx.1
      (hfits.challenges ▸ hx.2) h

end Emitter

end AirCompiler
