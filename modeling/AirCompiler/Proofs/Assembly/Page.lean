import AirCompiler.Proofs.Assembly.Scratch

/-!
# The words of the scratch page

A word of the page may hold a row pointer, or belong to a shared node or to an output. Accepted
parameters relate neither the words kept for pointers to the slots of the pointers, nor the two to
the page.

* `Emitter.Occupies`: the words that a content takes, in elements of `Emitter.slot`.
* `Emitter.addressesOccupied`: code addresses a content by the words that it takes.
* `Emitter.SoundPage`: all words that are used lie in the page, and each is used for one thing.
* `Params.soundPage_iff`: which accepted parameters give a sound page.
-/

namespace AirCompiler

/-- What code keeps in the scratch page. -/
inductive Content where
  | pointer (row : Region)
  | shared (id : Int)
  | output (index : Int)
  deriving DecidableEq

theorem Region.pointerSlot?_bounds {r : Region} {word : Int} (h : r.pointerSlot? = some word) :
    0 ≤ word ∧ word < 4 := by
  cases r <;> cases h <;> decide

theorem Region.pointerSlot?_inj {r r' : Region} {word : Int} (h : r.pointerSlot? = some word)
    (h' : r'.pointerSlot? = some word) : r = r' := by
  cases r <;> cases h <;> cases r' <;> cases h' <;> rfl

theorem Region.exists_pointerSlot {word : Int} (h : 0 ≤ word) (h4 : word < 4) :
    ∃ r : Region, r.pointerSlot? = some word := by
  have : word = 0 ∨ word = 1 ∨ word = 2 ∨ word = 3 := by omega
  rcases this with rfl | rfl | rfl | rfl
  · exact ⟨.currentMain, rfl⟩
  · exact ⟨.currentAux, rfl⟩
  · exact ⟨.nextMain, rfl⟩
  · exact ⟨.nextAux, rfl⟩

namespace Emitter

/-- The word of the page belongs to an element of the scratch area. -/
def InElement (e : Emitter) (k word : Int) : Prop :=
  e.slot 0 k ≤ word ∧ word < e.slot 0 k + elementWords

/-- The content takes the word of the page. -/
def Occupies (e : Emitter) : Content → Int → Prop
  | .pointer row, word => e.mode = .dynamic ∧ row.pointerSlot? = some word
  | .shared id, word => 0 ≤ id ∧ id < e.params.outputOffset ∧ e.InElement id word
  | .output index, word =>
    0 ≤ index ∧ index < e.params.capacity ∧ e.InElement (e.params.outputOffset + index) word

/-- Code stores and loads a content at the words that it takes. -/
structure AddressesOccupied (e : Emitter) : Prop where
  prologue : ∀ word, .push (.address ⟨.page, word⟩) ∈ e.prologue ↔
    ∃ row, e.Occupies (.pointer row) word
  loadRow : ∀ row column code, row ≠ .page → e.loadRowElement row column = .ok code →
    ∀ word, .push (.address ⟨.page, word⟩) ∈ code → e.Occupies (.pointer row) word
  storeShared : ∀ id code, 0 ≤ id → e.storeShared id = .ok code →
    ∃ first, code = storeCode (.address ⟨.page, first⟩) ∧
    ∀ word, e.Occupies (.shared id) word ↔ first ≤ word ∧ word < first + elementWords
  loadShared : ∀ id code, 0 ≤ id → e.loadShared id = .ok code →
    ∃ first, code = loadCode (.address ⟨.page, first + 2⟩) ∧
    ∀ word, e.Occupies (.shared id) word ↔ first ≤ word ∧ word < first + elementWords
  storeOutput : ∀ index code, 0 ≤ index → e.storeOutput index = .ok code →
    ∃ first, code = storeCode (.address ⟨.page, first⟩) ∧
    ∀ word, e.Occupies (.output index) word ↔ first ≤ word ∧ word < first + elementWords

structure SoundPage (e : Emitter) : Prop where
  within : ∀ content word, e.Occupies content word → 0 ≤ word ∧ word < e.params.page
  apart : ∀ content content' word, e.Occupies content word → e.Occupies content' word →
    content = content'

section

variable {e : Emitter}

theorem inElement_iff {k word : Int} :
    e.InElement k word ↔ e.scratchOffset + 3 * k ≤ word ∧ word < e.scratchOffset + 3 * k + 3 := by
  simp only [InElement, slot, elementWords, Int.zero_add]

theorem mem_prologue {word : Int} :
    .push (.address ⟨.page, word⟩) ∈ e.prologue ↔ ∃ row, e.Occupies (.pointer row) word := by
  unfold prologue Occupies
  cases e.mode with
  | static => simp
  | dynamic =>
    have hmem : .push (.address ⟨.page, word⟩) ∈ #[3, 2, 1, 0].flatMap
          (fun slot => #[.push (.address ⟨.page, slot⟩), Instruction.writeMem .one, .pop .one]) ↔
        word = 3 ∨ word = 2 ∨ word = 1 ∨ word = 0 := by simp
    rw [hmem]
    constructor
    · intro h
      have h₀ : 0 ≤ word := by omega
      have h₄ : word < 4 := by omega
      obtain ⟨row, hrow⟩ := Region.exists_pointerSlot h₀ h₄
      exact ⟨row, rfl, hrow⟩
    · rintro ⟨row, -, hrow⟩
      have hslots := Region.pointerSlot?_bounds hrow
      omega

theorem occupies_of_mem_loadRow {row : Region} {column : Int} {code : Array Instruction}
    (hrow : row ≠ .page) (h : e.loadRowElement row column = .ok code) {word : Int}
    (hm : .push (.address ⟨.page, word⟩) ∈ code) : e.Occupies (.pointer row) word := by
  unfold loadRowElement at h
  unfold Occupies
  cases hmode : e.mode with
  | static =>
    simp only [hmode] at h
    obtain ⟨offset, -, h⟩ := exists_of_bind_eq_ok h
    cases h
    obtain ⟨rfl, -⟩ : .page = row ∧ word = offset := by simpa [loadCode] using hm
    exact absurd rfl hrow
  | dynamic =>
    simp only [hmode] at h
    obtain ⟨offset, -, h⟩ := exists_of_bind_eq_ok h
    split at h
    · cases h
    · rename_i slot hslot
      cases h
      obtain rfl : word = slot := by simpa using hm
      exact ⟨rfl, hslot⟩

theorem addressesOccupied (e : Emitter) : e.AddressesOccupied where
  prologue _ := mem_prologue
  loadRow _ _ _ hrow h _ hm := occupies_of_mem_loadRow hrow h hm
  storeShared id code h₀ h := by
    obtain ⟨hlt, rfl⟩ := storeShared_eq_ok h
    exact ⟨_, rfl, fun word => by simp only [Occupies, inElement_iff, elementWords]; omega⟩
  loadShared id code h₀ h := by
    obtain ⟨hlt, rfl⟩ := loadShared_eq_ok h
    refine ⟨e.scratchOffset + 3 * id, by rw [Int.add_assoc], fun word => ?_⟩
    simp only [Occupies, inElement_iff, elementWords]
    omega
  storeOutput index code h₀ h := by
    obtain ⟨hlt, rfl⟩ := storeOutput_eq_ok h
    exact ⟨_, rfl, fun word => by simp only [Occupies, inElement_iff, elementWords]; omega⟩

/-- The elements that code uses, apart from the pointers. -/
theorem Occupies.cases {content : Content} {word : Int} (h : e.Occupies content word) :
    (∃ row, content = .pointer row ∧ e.mode = .dynamic ∧ row.pointerSlot? = some word) ∨
      ∃ k, 0 ≤ k ∧ e.InElement k word ∧
        (content = .shared k ∧ k < e.params.outputOffset ∨
          content = .output (k - e.params.outputOffset) ∧ e.params.outputOffset ≤ k ∧
            k < e.params.outputOffset + e.params.capacity) := by
  have hpos := e.params.three_mul_outputOffset
  have hlt := e.params.reserved_lt_page
  cases content with
  | pointer row => exact .inl ⟨row, rfl, h⟩
  | shared id => exact .inr ⟨id, h.1, h.2.2, .inl ⟨rfl, h.2.1⟩⟩
  | output index =>
    obtain ⟨h₀, h₁, hword⟩ := h
    refine .inr ⟨e.params.outputOffset + index, by omega, hword, .inr ⟨?_, by omega, by omega⟩⟩
    simp only [Content.output.injEq]
    omega

/-- Only the pointers can be in the way of something else. -/
theorem apart_of_pointers (hp : e.mode = .dynamic → 4 ≤ e.params.pointers)
    {content content' : Content} {word : Int} (h : e.Occupies content word)
    (h' : e.Occupies content' word) : content = content' := by
  have hbelow : ∀ row : Region, e.mode = .dynamic → row.pointerSlot? = some word → ∀ k, 0 ≤ k →
      ¬ e.InElement k word := by
    intro row hmode hslot k hk hword
    have hoffset : e.scratchOffset = e.params.pointers := by rw [scratchOffset, hmode]
    have hslots := Region.pointerSlot?_bounds hslot
    have := hp hmode
    rw [inElement_iff] at hword
    omega
  rcases h.cases with ⟨row, rfl, hmode, hslot⟩ | ⟨k, hk, hword, hc⟩
  · rcases h'.cases with ⟨row', rfl, -, hslot'⟩ | ⟨k, hk, hword, -⟩
    · rw [Region.pointerSlot?_inj hslot hslot']
    · exact absurd hword (hbelow row hmode hslot k hk)
  · rcases h'.cases with ⟨row', -, hmode, hslot⟩ | ⟨k', -, hword', hc'⟩
    · exact absurd hword (hbelow row' hmode hslot k hk)
    · rw [inElement_iff] at hword hword'
      obtain rfl : k = k' := by omega
      rcases hc with ⟨rfl, hlt⟩ | ⟨rfl, hle, -⟩ <;> rcases hc' with ⟨rfl, hlt'⟩ | ⟨rfl, hle', -⟩
      · rfl
      · omega
      · omega
      · rfl

theorem within_of_elements (hpointers : e.mode = .dynamic → 4 ≤ e.params.page)
    (h₀ : 0 ≤ e.scratchOffset)
    (hshared : e.scratchOffset + 3 * e.params.outputOffset ≤ e.params.page)
    (houtput : e.scratchOffset + 3 * (e.params.outputOffset + e.params.capacity) ≤ e.params.page)
    {content : Content} {word : Int} (h : e.Occupies content word) :
    0 ≤ word ∧ word < e.params.page := by
  rcases h.cases with ⟨row, -, hmode, hslot⟩ | ⟨k, hk, hword, hc⟩
  · have hslots := Region.pointerSlot?_bounds hslot
    have := hpointers hmode
    omega
  · rw [inElement_iff] at hword
    rcases hc with ⟨-, hlt⟩ | ⟨-, -, hlt⟩
    · omega
    · omega

/-- A sound page holds the shared nodes to the last. -/
theorem SoundPage.shared_le (h : e.SoundPage) :
    e.scratchOffset + 3 * e.params.outputOffset ≤ e.params.page := by
  have hpos := e.params.three_mul_outputOffset
  have hlt := e.params.reserved_lt_page
  have hlast :
      e.Occupies (.shared (e.params.outputOffset - 1))
        (e.scratchOffset + 3 * e.params.outputOffset - 1) :=
    ⟨by omega, by omega, inElement_iff.2 (by omega)⟩
  have := (h.within _ _ hlast).2
  omega

theorem SoundPage.output_le (h : e.SoundPage) (hc : 0 < e.params.capacity) :
    e.scratchOffset + 3 * (e.params.outputOffset + e.params.capacity) ≤ e.params.page := by
  have hlast : e.Occupies (.output (e.params.capacity - 1))
      (e.scratchOffset + 3 * (e.params.outputOffset + e.params.capacity) - 1) :=
    ⟨by omega, by omega, inElement_iff.2 (by omega)⟩
  have := (h.within _ _ hlast).2
  omega

theorem occupies_shared_zero (e : Emitter) : e.Occupies (.shared 0) e.scratchOffset := by
  have hpos := e.params.three_mul_outputOffset
  have hlt := e.params.reserved_lt_page
  exact ⟨Int.le_refl _, by omega, inElement_iff.2 (by omega)⟩

theorem soundPage_static (hmode : e.mode = .static) :
    e.SoundPage ↔ 0 ≤ e.params.reserved ∧ 3 * e.params.capacity ≤ e.params.reserved := by
  have hoffset : e.scratchOffset = 0 := by rw [scratchOffset, hmode]
  have hstart := e.params.three_mul_outputOffset
  have hdynamic : e.mode ≠ .dynamic := by simp [hmode]
  constructor
  · intro h
    have hshared := h.shared_le
    refine ⟨by omega, ?_⟩
    by_cases hc : 0 < e.params.capacity
    · have houtput := h.output_le hc
      omega
    · omega
  · rintro ⟨h₀, hc⟩
    refine ⟨fun content word h => ?_, fun content content' word h h' => ?_⟩
    · exact within_of_elements (fun h => absurd h hdynamic) (by omega) (by omega) (by omega) h
    · exact apart_of_pointers (fun h => absurd h hdynamic) h h'

theorem soundPage_dynamic (hmode : e.mode = .dynamic) :
    e.SoundPage ↔ 4 ≤ e.params.pointers ∧ e.params.pointers ≤ e.params.reserved := by
  have hoffset : e.scratchOffset = e.params.pointers := by rw [scratchOffset, hmode]
  have hstart := e.params.three_mul_outputOffset
  have hcapacity := e.params.three_mul_capacity_le
  have hlt := e.params.reserved_lt_page
  constructor
  · intro h
    have hshared := h.shared_le
    have hfirst := (h.within _ _ e.occupies_shared_zero).1
    refine ⟨?_, by omega⟩
    -- below four, the first word of the scratch area is also the slot of a pointer
    by_contra hfew
    obtain ⟨row, hrow⟩ := Region.exists_pointerSlot hfirst (by omega)
    cases h.apart (.pointer row) (.shared 0) e.scratchOffset ⟨hmode, hrow⟩ e.occupies_shared_zero
  · rintro ⟨hfour, hle⟩
    refine ⟨fun content word h => ?_, fun content content' word h h' => ?_⟩
    · exact within_of_elements (fun _ => by omega) (by omega) (by omega) (by omega) h
    · exact apart_of_pointers (fun _ => hfour) h h'

end

end Emitter

/-- Code addresses the page as `Emitter.Occupies` says, and the page is sound in both modes exactly
if each of the four pointers has a word of its own and the reserved words make up for all that are
kept for pointers. Static addressing alone needs less. -/
theorem Params.soundPage_iff (p : Params) :
    (∀ mode, (⟨mode, p⟩ : Emitter).AddressesOccupied) ∧
      ((∀ mode, (⟨mode, p⟩ : Emitter).SoundPage) ↔ 4 ≤ p.pointers ∧ p.pointers ≤ p.reserved) ∧
      ((⟨.dynamic, p⟩ : Emitter).SoundPage ↔ 4 ≤ p.pointers ∧ p.pointers ≤ p.reserved) ∧
      ((⟨.static, p⟩ : Emitter).SoundPage ↔ 0 ≤ p.reserved ∧ 3 * p.capacity ≤ p.reserved) := by
  have hdynamic : (⟨.dynamic, p⟩ : Emitter).SoundPage ↔ 4 ≤ p.pointers ∧ p.pointers ≤ p.reserved :=
    Emitter.soundPage_dynamic rfl
  have hstatic : (⟨.static, p⟩ : Emitter).SoundPage ↔ 0 ≤ p.reserved ∧
      3 * p.capacity ≤ p.reserved :=
    Emitter.soundPage_static rfl
  refine ⟨fun mode => Emitter.addressesOccupied _,
    ⟨fun h => hdynamic.1 (h .dynamic), fun h mode => ?_⟩, hdynamic, hstatic⟩
  cases mode with
  | static =>
    have hcapacity := p.three_mul_capacity_le
    exact hstatic.2 ⟨by omega, by omega⟩
  | dynamic => exact hdynamic.2 h

/-- `small` without words for pointers. -/
def Params.pointerless : Params := { Params.small with pointers := 0 }

/-- Without words of its own, the pointer to the next auxiliary row is stored in the first word of
shared node one. -/
theorem Params.not_soundPage_pointerless : Params.check 4 65536 1024 0 = .ok pointerless ∧
    (⟨.dynamic, pointerless⟩ : Emitter).Occupies (.pointer .nextAux) 3 ∧
      (⟨.dynamic, pointerless⟩ : Emitter).Occupies (.shared 1) 3 ∧
      ¬ (⟨.dynamic, pointerless⟩ : Emitter).SoundPage := by
  have hpointer : (⟨.dynamic, pointerless⟩ : Emitter).Occupies (.pointer .nextAux) 3 := ⟨rfl, rfl⟩
  have hshared : (⟨.dynamic, pointerless⟩ : Emitter).Occupies (.shared 1) 3 :=
    ⟨by decide, by decide, by decide, by decide⟩
  refine ⟨rfl, hpointer, hshared, fun h => ?_⟩
  cases h.apart _ _ 3 hpointer hshared

end AirCompiler
