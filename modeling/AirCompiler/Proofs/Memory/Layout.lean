import AirCompiler.Memory.Layout
import AirCompiler.Proofs.Computation
import Mathlib.Data.List.Nodup
import Mathlib.Data.List.Pairwise

/-!
# Integral layouts

The check of a layout reads off extents: each has to start and to end in the address space, and any
two have to be disjoint (`Layout.check_eq_ok_iff`). For regions of non-negative sizes this says that
no word belongs to two regions (`Extent.disjoint_iff`). In an integral layout relative addresses are
therefore resolved without wrapping (`Layout.resolve_of_check`), and different ones to different
words (`Layout.isIntegral_iff_no_alias`).
-/

namespace AirCompiler

/-! ## Extents -/

namespace Extent

variable {e f : Extent}

theorem contains_iff {w : Int} : e.contains w = true ↔ e.start ≤ w ∧ w < e.start + e.size := by
  rw [contains, Bool.and_eq_true, decide_eq_true_eq, decide_eq_true_eq, stop]

theorem disjoint_eq_true_iff : e.disjoint f = true ↔
    e.size = 0 ∨ f.size = 0 ∨ e.start + e.size ≤ f.start ∨ f.start + f.size ≤ e.start := by
  simp only [disjoint, Bool.or_eq_true, beq_iff_eq, decide_eq_true_eq, or_assoc]
  rw [stop, stop]

theorem disjoint_symm (h : e.disjoint f = true) : f.disjoint e = true := by
  rw [disjoint_eq_true_iff] at h ⊢
  omega

/-- The comparison of bounds decides whether there is a common word. -/
theorem disjoint_iff (he : 0 ≤ e.size) (hf : 0 ≤ f.size) :
    e.disjoint f = true ↔ ∀ w, e.contains w = true → ¬ f.contains w = true := by
  simp only [disjoint_eq_true_iff, contains_iff]
  constructor
  · intro h w hw
    omega
  · intro h
    -- if both have words, the later of the two starts is a common one unless the extents are apart
    have hlater := h (max e.start f.start)
    omega

end Extent

namespace Layout

variable {l : Layout} {shape : Shape} {params : Params}

/-! ## Places of regions -/

theorem exists_pointer_of_static (h : l.mode = .static) (r : Region) :
    ∃ start, l.pointer? r = some start := by
  cases l with
  | static => cases r <;> exact ⟨_, rfl⟩
  | dynamic => cases h

theorem pointer?_challenges (l : Layout) : l.pointer? .challenges = some l.challengesPointer := by
  cases l <;> rfl

theorem exists_pointer_page (l : Layout) : ∃ page, l.pointer? .page = some page := by
  cases l <;> exact ⟨_, rfl⟩

theorem mem_extents_iff {r : Region} {e : Extent} :
    (r, e) ∈ l.extents shape params ↔ ∃ start, l.pointer? r = some start ∧
      e = ⟨start, r.words shape params⟩ := by
  simp only [extents, List.mem_filterMap, Option.map_eq_some_iff, Prod.mk.injEq]
  constructor
  · rintro ⟨_, -, start, hstart, rfl, rfl⟩
    exact ⟨start, hstart, rfl⟩
  · rintro ⟨start, hstart, rfl⟩
    exact ⟨r, by cases r <;> simp [Region.all], start, hstart, rfl, rfl⟩

theorem nodup_extents (l : Layout) (shape : Shape) (params : Params) :
    (l.extents shape params).Nodup := by
  refine List.Nodup.filterMap ?_ (by decide : Region.all.Nodup)
  intro r s x hr hs
  simp only [Option.mem_def, Option.map_eq_some_iff] at hr hs
  obtain ⟨_, -, rfl⟩ := hr
  obtain ⟨_, -, hx⟩ := hs
  exact (congrArg Prod.fst hx).symm

/-! ## The check -/

theorem checkExtent_eq_ok_iff {r : Region} {e : Extent} :
    checkExtent r e = .ok () ↔ (0 ≤ e.start ∧ e.start < prime) ∧ e.start + e.size ≤ prime := by
  have hwraps : e.wraps = true ↔ (prime : Int) < e.start + e.size := by
    rw [Extent.wraps, decide_eq_true_eq, Extent.stop]
  rw [checkExtent]
  by_cases hstart : 0 ≤ e.start ∧ e.start < prime
  · rw [if_neg (not_not.2 hstart)]
    by_cases hstop : e.wraps = true
    · rw [if_pos hstop]
      exact ⟨fun h => (by cases h), fun h => absurd (hwraps.1 hstop) (Int.not_lt.2 h.2)⟩
    · rw [if_neg hstop]
      exact ⟨fun _ => ⟨hstart, Int.not_lt.1 (mt hwraps.2 hstop)⟩, fun _ => rfl⟩
  · rw [if_pos hstart]
    exact ⟨fun h => (by cases h), fun h => absurd h.1 hstart⟩

theorem checkDisjoint_eq_ok_iff {xs : List (Region × Extent)} :
    checkDisjoint xs = .ok () ↔ xs.Pairwise fun x y => x.2.disjoint y.2 = true := by
  induction xs with
  | nil => simp [checkDisjoint]
  | cons x xs ih =>
    obtain ⟨r, e⟩ := x
    rw [List.pairwise_cons, ← ih, checkDisjoint]
    constructor
    · intro h
      obtain ⟨_, hhead, hrest⟩ := exists_of_bind_eq_ok h
      refine ⟨fun y hy => ?_, hrest⟩
      have hx := forM_eq_ok_iff.1 hhead y hy
      by_contra hd
      simp [hd] at hx
    · rintro ⟨hhead, hrest⟩
      rw [forM_eq_ok_iff.2 fun y hy => if_pos (hhead y hy)]
      exact hrest

/-- The check as a condition on regions: each lies in the address space, and any two have disjoint
extents. -/
theorem check_eq_ok_iff : l.check shape params = .ok () ↔
    (∀ r start, l.pointer? r = some start → (0 ≤ start ∧ start < prime) ∧
      start + r.words shape params ≤ prime) ∧
      ∀ r s start other, l.pointer? r = some start → l.pointer? s = some other → r ≠ s →
        Extent.disjoint ⟨start, r.words shape params⟩ ⟨other, s.words shape params⟩ = true := by
  have hspace : (l.extents shape params).forM (fun x => checkExtent x.1 x.2) = .ok () ↔
      ∀ r start, l.pointer? r = some start → (0 ≤ start ∧ start < prime) ∧
        start + r.words shape params ≤ prime := by
    rw [forM_eq_ok_iff]
    constructor
    · intro h r start hr
      exact checkExtent_eq_ok_iff.1 (h _ (mem_extents_iff.2 ⟨start, hr, rfl⟩))
    · rintro h ⟨r, e⟩ hx
      obtain ⟨start, hr, rfl⟩ := mem_extents_iff.1 hx
      exact checkExtent_eq_ok_iff.2 (h r start hr)
  rw [check, ← hspace]
  constructor
  · intro h
    obtain ⟨_, hforM, hdisjoint⟩ := exists_of_bind_eq_ok h
    refine ⟨hforM, fun r s start other hr hs hne => ?_⟩
    have : Std.Symm fun x y : Region × Extent => x.2.disjoint y.2 = true :=
      ⟨fun _ _ => Extent.disjoint_symm⟩
    exact (checkDisjoint_eq_ok_iff.1 hdisjoint).forall (mem_extents_iff.2 ⟨start, hr, rfl⟩)
      (mem_extents_iff.2 ⟨other, hs, rfl⟩) fun h => hne (congrArg Prod.fst h)
  · rintro ⟨hforM, hdisjoint⟩
    show ((l.extents shape params).forM (fun x => checkExtent x.1 x.2) >>= fun _ =>
      checkDisjoint (l.extents shape params)) = _
    rw [hforM]
    refine checkDisjoint_eq_ok_iff.2 ((nodup_extents l shape params).pairwise_of_forall_ne ?_)
    rintro ⟨r, e⟩ hx ⟨s, f⟩ hy hne
    obtain ⟨start, hr, rfl⟩ := mem_extents_iff.1 hx
    obtain ⟨other, hs, rfl⟩ := mem_extents_iff.1 hy
    refine hdisjoint r s start other hr hs fun h => hne ?_
    subst h
    rw [hr, Option.some.injEq] at hs
    rw [hs]

theorem isIntegral_iff : l.isIntegral shape params = true ↔ l.check shape params = .ok () := by
  rw [isIntegral]
  cases l.check shape params <;> simp [Except.isOk, Except.toBool]

/-- In an integral layout regions lie in the address space. -/
theorem bounds_of_check (h : l.check shape params = .ok ()) {r : Region} {start : Int}
    (hr : l.pointer? r = some start) : 0 ≤ start ∧ start + r.words shape params ≤ prime :=
  ⟨((check_eq_ok_iff.1 h).1 r start hr).1.1, ((check_eq_ok_iff.1 h).1 r start hr).2⟩

/-- In an integral layout no word of another region lies in the page. -/
theorem outside_page (h : l.check shape params = .ok ()) {page : Int}
    (hp : l.pointer? .page = some page) {r : Region} {start : Int} (hr : l.pointer? r = some start)
    (hne : r ≠ .page) {k : Int} (hk : 0 ≤ k) (hlt : k < r.words shape params) :
    ¬ (page ≤ start + k ∧ start + k < page + params.page) := by
  have hd := (check_eq_ok_iff.1 h).2 r .page start page hr hp hne
  have hwords : Region.page.words shape params = params.page := rfl
  rw [Extent.disjoint_eq_true_iff, hwords] at hd
  simp only at hd
  omega

/-! ## Addresses -/

theorem resolve_eq {r : Region} {start : Int} (h : l.pointer? r = some start) (offset : Int) :
    l.resolve ⟨r, offset⟩ = .ok ((start + offset) % prime) := by
  simp [resolve, h]

/-- The words of an integral layout's regions are their own residues. -/
theorem emod_of_check (h : l.check shape params = .ok ()) {r : Region} {start k : Int}
    (hr : l.pointer? r = some start) (hk : 0 ≤ k) (hlt : k < r.words shape params) :
    (start + k) % prime = start + k := by
  have hb := bounds_of_check h hr
  exact Int.emod_eq_of_lt (by omega) (by omega)

/-- The word belongs to the region, where the layout places it. -/
def Owns (l : Layout) (shape : Shape) (params : Params) (r : Region) (w : Int) : Prop :=
  ∃ start, l.pointer? r = some start ∧ start ≤ w ∧ w < start + r.words shape params

/-- The address names a word of a region that the layout places. -/
def InRange (l : Layout) (shape : Shape) (params : Params) (a : Address) : Prop :=
  (l.pointer? a.region).isSome ∧ 0 ≤ a.offset ∧ a.offset < a.region.words shape params

theorem resolve_of_check (h : l.check shape params = .ok ()) {a : Address}
    (ha : l.InRange shape params a) {start : Int} (hr : l.pointer? a.region = some start) :
    l.resolve a = .ok (start + a.offset) := by
  rw [← emod_of_check h hr ha.2.1 ha.2.2]
  exact resolve_eq hr a.offset

theorem words_nonneg (hmain : 0 ≤ shape.mainColumns) (haux : 0 ≤ shape.auxColumns)
    (hchallenges : 0 ≤ shape.challenges) (hpage : 0 ≤ params.page) (r : Region) :
    0 ≤ r.words shape params := by
  cases r <;> simp only [Region.words, elementWords] <;> omega

/-- The check in terms of words: regions start and stay in the address space, and no word belongs to
two of them. -/
theorem check_eq_ok_iff_owns (hwords : ∀ r : Region, 0 ≤ r.words shape params) :
    l.check shape params = .ok () ↔
      (∀ r start, l.pointer? r = some start → 0 ≤ start ∧ start < prime) ∧
        (∀ r w, l.Owns shape params r w → 0 ≤ w ∧ w < prime) ∧
        ∀ r s w, l.Owns shape params r w → l.Owns shape params s w → r = s := by
  rw [check_eq_ok_iff]
  constructor
  · rintro ⟨hspace, hdisjoint⟩
    refine ⟨fun r start hr => (hspace r start hr).1, ?_, ?_⟩
    · rintro r w ⟨start, hr, hw⟩
      have hb := hspace r start hr
      omega
    · rintro r s w ⟨start, hr, hw⟩ ⟨other, hs, hw'⟩
      by_contra hne
      have hd :=
        (Extent.disjoint_iff (hwords r) (hwords s)).1 (hdisjoint r s start other hr hs hne) w
      exact hd (Extent.contains_iff.2 hw) (Extent.contains_iff.2 hw')
  · rintro ⟨hstart, hspace, halias⟩
    refine ⟨fun r start hr => ⟨hstart r start hr, ?_⟩, fun r s start other hr hs hne => ?_⟩
    · -- the last word of a region that is not empty is below the end of the address space
      have hb := hstart r start hr
      have hlast := hspace r (start + r.words shape params - 1)
      by_contra hstop
      have howns : l.Owns shape params r (start + r.words shape params - 1) :=
        ⟨start, hr, by omega, by omega⟩
      have := hlast howns
      omega
    · refine (Extent.disjoint_iff (hwords r) (hwords s)).2 fun w hw hw' => hne (halias r s w ?_ ?_)
      · exact ⟨start, hr, Extent.contains_iff.1 hw⟩
      · exact ⟨other, hs, Extent.contains_iff.1 hw'⟩

/-- A layout is integral if and only if no word has two names: regions start in the address space,
all their words lie in it, and no word belongs to two of them. Addresses of words are then resolved
without wrapping, and different ones to different words. -/
theorem isIntegral_iff_no_alias (l : Layout) (shape : Shape) (params : Params)
    (hmain : 0 ≤ shape.mainColumns) (haux : 0 ≤ shape.auxColumns)
    (hchallenges : 0 ≤ shape.challenges) (hpage : 0 ≤ params.page) :
    (l.isIntegral shape params = true ↔
      (∀ r start, l.pointer? r = some start → 0 ≤ start ∧ start < prime) ∧
      (∀ r w, l.Owns shape params r w → 0 ≤ w ∧ w < prime) ∧
      ∀ r s w, l.Owns shape params r w → l.Owns shape params s w → r = s) ∧
    (l.isIntegral shape params = true →
      (∀ a, l.InRange shape params a → ∃ start, l.pointer? a.region = some start ∧
        l.resolve a = .ok (start + a.offset)) ∧
      ∀ a b, l.InRange shape params a → l.InRange shape params b → l.resolve a = l.resolve b →
        a = b) := by
  have howns := check_eq_ok_iff_owns (l := l) (words_nonneg hmain haux hchallenges hpage)
  rw [isIntegral_iff]
  refine ⟨howns, fun hcheck => ?_⟩
  have hresolve : ∀ a, l.InRange shape params a →
      ∃ start, l.pointer? a.region = some start ∧ l.resolve a = .ok (start + a.offset) := by
    intro a ha
    obtain ⟨start, hr⟩ := Option.isSome_iff_exists.1 ha.1
    exact ⟨start, hr, resolve_of_check hcheck ha hr⟩
  refine ⟨hresolve, ?_⟩
  rintro ⟨r, i⟩ ⟨s, j⟩ ha hb heq
  obtain ⟨start, hr, hi⟩ := hresolve _ ha
  obtain ⟨other, hs, hj⟩ := hresolve _ hb
  have hword : start + i = other + j := Except.ok.inj (hi.symm.trans (heq.trans hj))
  obtain ⟨-, hi₀, hi₁⟩ := ha
  obtain ⟨-, hj₀, hj₁⟩ := hb
  simp only at hr hs hi₀ hi₁ hj₀ hj₁
  obtain rfl : r = s :=
    (howns.1 hcheck).2.2 r s (start + i) ⟨start, hr, by omega, by omega⟩
      ⟨other, hs, by omega, by omega⟩
  rw [hr, Option.some.injEq] at hs
  obtain rfl : i = j := by omega
  rfl

/-- The challenges end where the address space does. The auxiliary rows are empty and lie among
words of other regions. -/
def packed : Layout := .static 0 65536 7 65539 18446744069414584318 18446744069414584318

theorem isIntegral_iff_no_alias_packed :
    packed.isIntegral ⟨1, 0, 1⟩ .small = true ∧
      (∀ r s w, packed.Owns ⟨1, 0, 1⟩ .small r w → packed.Owns ⟨1, 0, 1⟩ .small s w → r = s) ∧
      ∀ a b, packed.InRange ⟨1, 0, 1⟩ .small a → packed.InRange ⟨1, 0, 1⟩ .small b →
        packed.resolve a = packed.resolve b → a = b := by
  have hintegral : packed.isIntegral ⟨1, 0, 1⟩ .small = true := by decide
  obtain ⟨hiff, hresolve⟩ :=
    isIntegral_iff_no_alias packed ⟨1, 0, 1⟩ .small (by decide) (by decide) (by decide) (by decide)
  exact ⟨hintegral, (hiff.1 hintegral).2.2, (hresolve hintegral).2⟩

end Layout

end AirCompiler
