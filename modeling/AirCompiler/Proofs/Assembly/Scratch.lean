import AirCompiler.Proofs.Assembly.Fragment
import AirCompiler.Proofs.Sharing.Plan

/-!
# The scratch area

The scratch area is an array of elements: shared node `n` is element `n`, and output `i` is element
`outputOffset + i`. `Emitter.Scratch e page load₀ values load`: beyond the area memory is as in
`load₀`, and the elements known so far, a partial map from numbers to values, stand in their slots.
A store is then an update of the map (`Emitter.Scratch.store`), for which no two slots need be
compared again.
-/

namespace AirCompiler

namespace Params

/-- The output array begins at a whole element. -/
theorem three_mul_outputOffset (p : Params) : 3 * p.outputOffset = p.page - p.reserved := by
  have h := p.offset_aligned
  rw [outputOffset, outputOffsetWords, elementWords, Int.fdiv_eq_ediv_of_nonneg _ (by omega)]
  rw [elementWords] at h
  omega

theorem three_mul_capacity_le (p : Params) : 3 * p.capacity ≤ p.reserved - p.pointers := by
  rw [capacity, elementWords, Int.fdiv_eq_ediv_of_nonneg _ (by omega)]
  omega

end Params

namespace Emitter

/-- The address of an element of the scratch area. -/
def slot (e : Emitter) (page k : Int) : Int := page + (e.scratchOffset + 3 * k)

/-- The address lies in the scratch area. -/
def InScratch (e : Emitter) (page q : Int) : Prop :=
  page + e.scratchOffset ≤ q % prime ∧ q % prime < page + e.params.page

/-- Beyond the scratch area memory is as it was. -/
def Frame (e : Emitter) (page : Int) (load₀ load : Int → Int) : Prop :=
  ∀ q, ¬ e.InScratch page q → load q = load₀ q

/-- The numbers of elements that code may store. -/
def InRange (e : Emitter) (k : Int) : Prop := 0 ≤ k ∧ k < e.params.outputOffset + e.params.capacity

/-- The page lies in the address space, with room for the row pointers. -/
structure Placed (e : Emitter) (page : Int) : Prop where
  nonneg : 0 ≤ page
  le_prime : page + e.params.page ≤ prime
  four_le : 4 ≤ e.params.pointers

/-- Beyond the scratch area memory is as it was, and the known elements stand in their slots. -/
structure Scratch (e : Emitter) (page : Int) (load₀ : Int → Int) (values : Int → Option Ext)
    (load : Int → Int) : Prop where
  frame : e.Frame page load₀ load
  known : ∀ k x, values k = some x → e.InRange k ∧ elementAt load (e.slot page k) = x

section

variable {e : Emitter} {page : Int}

theorem scratchOffset_bounds (h : e.Placed page) :
    0 ≤ e.scratchOffset ∧ e.scratchOffset ≤ e.params.pointers := by
  have := h.four_le
  unfold scratchOffset
  cases e.mode <;> simp only <;> omega

/-- The words of a slot lie in the page, so they are their own residues. -/
theorem slot_bounds (h : e.Placed page) {k j : Int} (hk : e.InRange k) (hj : 0 ≤ j) (hj3 : j < 3) :
    page + e.scratchOffset ≤ e.slot page k + j ∧ e.slot page k + j < page + e.params.page := by
  have hoff := e.params.three_mul_outputOffset
  have hcap := e.params.three_mul_capacity_le
  have hs := scratchOffset_bounds h
  obtain ⟨h₀, h₁⟩ := hk
  unfold slot
  omega

theorem slot_emod (h : e.Placed page) {k j : Int} (hk : e.InRange k) (hj : 0 ≤ j) (hj3 : j < 3) :
    (e.slot page k + j) % prime = e.slot page k + j := by
  have hb := slot_bounds h hk hj hj3
  have := scratchOffset_bounds h
  have := h.nonneg
  have := h.le_prime
  exact Int.emod_eq_of_lt (by omega) (by omega)

/-- Storing an element is an update of the map of known elements. -/
theorem Scratch.store (h : e.Placed page) {load₀ load load' : Int → Int} {values : Int → Option Ext}
    (hs : e.Scratch page load₀ values load) {k : Int} (hk : e.InRange k) {x : Ext}
    (hx : elementAt load' (e.slot page k) = x)
    (hload : ∀ q, (∀ j, 0 ≤ j → j < 3 → q % prime ≠ (e.slot page k + j) % prime) →
      load' q = load q) :
    e.Scratch page load₀ (Function.update values k (some x)) load' := by
  refine ⟨fun q hq => ?_, fun i y hi => ?_⟩
  · rw [hload q fun j hj hj3 heq => hq ?_, hs.frame q hq]
    rw [InScratch, heq, slot_emod h hk hj hj3]
    exact slot_bounds h hk hj hj3
  · by_cases hik : i = k
    · subst hik
      rw [Function.update_self] at hi
      cases hi
      exact ⟨hk, hx⟩
    · rw [Function.update_of_ne hik] at hi
      obtain ⟨hr, hy⟩ := hs.known i y hi
      refine ⟨hr, ?_⟩
      rw [← hy]
      refine elementAt_congr fun j hj hj3 => hload _ fun j' hj' hj3' heq => ?_
      rw [slot_emod h hr hj hj3, slot_emod h hk hj' hj3'] at heq
      unfold slot at heq
      omega

theorem Scratch.empty (load₀ : Int → Int) : e.Scratch page load₀ (fun _ => none) load₀ :=
  ⟨fun _ _ => rfl, fun _ _ h => by cases h⟩

end

/-! ## Addresses in emitted code -/

section

variable {e : Emitter}

theorem checkOffset_eq_ok {offset offset' : Int} (h : checkOffset offset = .ok offset') :
    offset' = offset := by
  unfold checkOffset at h
  split at h
  · cases h
  · cases h; rfl

theorem scratchAddress_eq_ok {word : Int} {a : Address} (h : e.scratchAddress word = .ok a) :
    a = ⟨.page, e.scratchOffset + word⟩ := by
  obtain ⟨offset, ho, h⟩ := exists_of_bind_eq_ok h
  cases h
  rw [checkOffset_eq_ok ho]

theorem checkShared_eq_ok {id : Int} {u : Unit} (h : e.checkShared id = .ok u) :
    id < e.params.outputOffset := by
  unfold checkShared at h
  split at h
  · cases h
  · omega

theorem loadShared_eq_ok {id : Int} {code : Array Instruction} (h : e.loadShared id = .ok code) :
    id < e.params.outputOffset ∧
      code = loadCode (.address ⟨.page, e.scratchOffset + (3 * id + 2)⟩) := by
  obtain ⟨_, hs, h⟩ := exists_of_bind_eq_ok h
  obtain ⟨a, ha, h⟩ := exists_of_bind_eq_ok h
  cases h
  rw [scratchAddress_eq_ok ha]
  exact ⟨checkShared_eq_ok hs, rfl⟩

theorem storeShared_eq_ok {id : Int} {code : Array Instruction} (h : e.storeShared id = .ok code) :
    id < e.params.outputOffset ∧ code = storeCode (.address ⟨.page, e.scratchOffset + 3 * id⟩) := by
  obtain ⟨_, hs, h⟩ := exists_of_bind_eq_ok h
  obtain ⟨a, ha, h⟩ := exists_of_bind_eq_ok h
  cases h
  rw [scratchAddress_eq_ok ha]
  exact ⟨checkShared_eq_ok hs, rfl⟩

theorem storeOutput_eq_ok {index : Int} {code : Array Instruction}
    (h : e.storeOutput index = .ok code) :
    index < e.params.capacity ∧ code =
      storeCode (.address ⟨.page, e.scratchOffset + 3 * (e.params.outputOffset + index)⟩) := by
  unfold storeOutput at h
  split at h
  · cases h
  · obtain ⟨a, ha, h⟩ := exists_of_bind_eq_ok h
    cases h
    rw [scratchAddress_eq_ok ha]
    exact ⟨by omega, rfl⟩

end

end Emitter

end AirCompiler
