import AirCompiler.Assembly.Emitter
import AirCompiler.Proofs.Machine.StraightLine
import AirCompiler.Proofs.Memory.Layout

/-!
# Fragments of assembly

Fragments of code with relative addresses, and what they do once the addresses are resolved against
a layout (`Layout.Resolves`). Conditions on memory are predicates of the function that loads words.

* `Pushes l code pre x`: where memory meets `pre`, the code leaves the element `x` on top of the
  stack.
* `Emits l code pre post`: the code leaves the stack as it was and takes memory from `pre` to
  `post`.

Both compose along appended code.
-/

namespace AirCompiler

/-- The instructions of a fragment with the addresses of a layout. -/
def Layout.Resolves (l : Layout) (code : Array Instruction) (resolved : List Instruction) : Prop :=
  code.toList.mapM (Instruction.resolveWith l.resolve) = .ok resolved

namespace Layout

variable {l : Layout} {code more : Array Instruction} {resolved : List Instruction}

theorem resolves_append (h : l.Resolves (code ++ more) resolved) :
    ∃ first second, l.Resolves code first ∧ l.Resolves more second ∧
      resolved = first ++ second := by
  rw [Resolves, Array.toList_append, List.mapM_append] at h
  cases h₁ : code.toList.mapM (Instruction.resolveWith l.resolve) with
  | error e => rw [h₁] at h; cases h
  | ok first =>
    cases h₂ : more.toList.mapM (Instruction.resolveWith l.resolve) with
    | error e => rw [h₁, h₂] at h; cases h
    | ok second =>
      rw [h₁, h₂] at h
      cases h
      exact ⟨first, second, h₁, h₂, rfl⟩

theorem resolves_push {i : Instruction} (hi : i.resolveWith l.resolve = .ok i)
    (h : l.Resolves (code.push i) resolved) :
    ∃ first, l.Resolves code first ∧ resolved = first ++ [i] := by
  rw [← Array.append_singleton] at h
  obtain ⟨first, second, h₁, h₂, rfl⟩ := resolves_append h
  refine ⟨first, h₁, ?_⟩
  simp only [Resolves, List.mapM_cons, hi] at h₂
  cases h₂
  rfl

theorem resolves_loadCode {r : Region} {start offset : Int} (hr : l.pointer? r = some start)
    (h : l.Resolves (loadCode (.address ⟨r, offset⟩)) resolved) :
    resolved = (loadCode (.word ((start + offset) % prime))).toList := by
  simp only [Resolves, loadCode, List.mapM_cons, Instruction.resolveWith, resolve_eq hr] at h
  cases h
  rfl

theorem resolves_storeCode {r : Region} {start offset : Int} (hr : l.pointer? r = some start)
    (h : l.Resolves (storeCode (.address ⟨r, offset⟩)) resolved) :
    resolved = (storeCode (.word ((start + offset) % prime))).toList := by
  simp only [Resolves, storeCode, List.mapM_cons, Instruction.resolveWith, resolve_eq hr] at h
  cases h
  rfl

end Layout

/-- Where memory meets the condition, the code leaves an element on top of the stack. -/
def Pushes (l : Layout) (code : Array Instruction) (pre : (Int → Int) → Prop) (x : Ext) : Prop :=
  ∀ resolved, l.Resolves code resolved → ∀ m : Machine, m.status = .running → pre m.load →
    Pushed m (m.perform resolved) x.words

/-- The code leaves the stack as it was and takes memory from one condition to another. -/
def Emits (l : Layout) (code : Array Instruction) (pre post : (Int → Int) → Prop) : Prop :=
  ∀ resolved, l.Resolves code resolved → ∀ m : Machine, m.status = .running → pre m.load →
    (m.perform resolved).status = .running ∧ (m.perform resolved).stack = m.stack ∧
    post (m.perform resolved).load

section

variable {l : Layout} {code more : Array Instruction} {pre mid post : (Int → Int) → Prop}
  {x y : Ext}

theorem Pushes.mono (h : Pushes l code mid x) (hpre : ∀ load, pre load → mid load) :
    Pushes l code pre x :=
  fun resolved hr m hm hp => h resolved hr m hm (hpre _ hp)

theorem pushes_constant (x : Ext) : Pushes l (pushCode x) pre x := by
  intro resolved hr m hm _
  cases hr
  exact Machine.perform_pushWords hm x

/-- An element at a known place. -/
theorem pushes_load {r : Region} {start offset : Int} (hr : l.pointer? r = some start)
    (hx : ∀ load, pre load → elementAt load (start + offset - 2) = x) :
    Pushes l (loadCode (.address ⟨r, offset⟩)) pre x := by
  intro resolved hres m hm hp
  obtain rfl := Layout.resolves_loadCode hr hres
  have h := Machine.perform_load hm ((start + offset) % prime)
  rwa [m.loadElement_congr (Int.emod_sub_emod _ _ _), m.loadElement_eq, hx _ hp] at h

/-- An element of a row that a pointer in memory points to. -/
theorem pushes_loadThrough {r : Region} {start slot offset : Int} (hr : l.pointer? r = some start)
    (hx : ∀ load, pre load → elementAt load (load (start + slot) + offset - 2) = x) :
    Pushes l #[.push (.address ⟨r, slot⟩), .readMem .one, .pop .one, .addi (.word offset),
      .readMem .three, .pop .one]
      pre x := by
  intro resolved hres m hm hp
  simp only [Layout.Resolves, List.mapM_cons, Instruction.resolveWith, Layout.resolve_eq hr] at hres
  cases hres
  have h := Machine.perform_loadThrough hm ((start + slot) % prime) offset
  rwa [Machine.load_emod, m.loadElement_eq, hx _ hp] at h

theorem Machine.execute_operation (op : Op) {m : Machine} (pos : Nat) {s : List Int}
    (h : m.stack = y.words ++ (x.words ++ s)) :
    m.execute op.instruction pos =
      ({ m with pc := pos + 1, stack := s } : Machine).pushExt (op.onExt x y) := by
  obtain ⟨pc, stack, ram, status, written⟩ := m
  cases h
  cases op with
  | add =>
    show Machine.pushExt _ (⟨_, _, _⟩ + ⟨_, _, _⟩) = _
    simp only [Base.ofInt_val]
    rfl
  | mul =>
    show Machine.pushExt _ (⟨_, _, _⟩ * ⟨_, _, _⟩) = _
    simp only [Base.ofInt_val]
    rfl

theorem pushes_operation (op : Op) (hx : Pushes l code pre x) (hy : Pushes l more pre y) :
    Pushes l ((code ++ more).push op.instruction) pre (op.onExt x y) := by
  intro resolved hr m hm hp
  obtain ⟨both, hboth, rfl⟩ := Layout.resolves_push (by cases op <;> rfl) hr
  obtain ⟨first, second, h₁, h₂, rfl⟩ := Layout.resolves_append hboth
  have p₁ := hx first h₁ m hm hp
  have p₂ := p₁.trans (hy second h₂ _ p₁.running (by rwa [p₁.load_eq]))
  rw [Machine.perform_append, Machine.perform_append, Machine.perform_cons, Machine.perform_nil,
    Machine.execute_operation op _ (p₂.stack_eq.trans (List.append_assoc ..))]
  exact ⟨p₂.running, Machine.pushExt_stack _ _, p₂.load_eq⟩

theorem emits_nil (h : ∀ load, pre load → post load) : Emits l #[] pre post := by
  intro resolved hr m hm hp
  cases hr
  exact ⟨hm, rfl, h _ hp⟩

theorem Emits.append (h : Emits l code pre mid) (h' : Emits l more mid post) :
    Emits l (code ++ more) pre post := by
  intro resolved hr m hm hp
  obtain ⟨first, second, h₁, h₂, rfl⟩ := Layout.resolves_append hr
  obtain ⟨r₁, s₁, p₁⟩ := h first h₁ m hm hp
  obtain ⟨r₂, s₂, p₂⟩ := h' second h₂ _ r₁ p₁
  rw [Machine.perform_append]
  exact ⟨r₂, s₂.trans s₁, p₂⟩

theorem Emits.mono {pre' post' : (Int → Int) → Prop} (h : Emits l code pre post)
    (hpre : ∀ load, pre' load → pre load) (hpost : ∀ load, post load → post' load) :
    Emits l code pre' post' := by
  intro resolved hr m hm hp
  obtain ⟨h₁, h₂, h₃⟩ := h resolved hr m hm (hpre _ hp)
  exact ⟨h₁, h₂, hpost _ h₃⟩

/-- Code that pushes an element, and then stores it at a known place. -/
theorem Pushes.store {r : Region} {start offset : Int} (hr : l.pointer? r = some start)
    (h : Pushes l code pre x)
    (hpost : ∀ load load', pre load → elementAt load' (start + offset) = x →
      (∀ q, (∀ k, 0 ≤ k → k < 3 → q % prime ≠ (start + offset + k) % prime) → load' q = load q) →
        post load') :
    Emits l (code ++ storeCode (.address ⟨r, offset⟩)) pre post := by
  intro resolved hres m hm hp
  obtain ⟨first, second, h₁, h₂, rfl⟩ := Layout.resolves_append hres
  have p₁ := h first h₁ m hm hp
  obtain rfl := Layout.resolves_storeCode hr h₂
  obtain ⟨m', hm', hstack, hstored, hx⟩ :=
    Machine.perform_store p₁.running ((start + offset) % prime) p₁.stack_eq
  rw [Machine.perform_append, hm']
  rw [m'.loadElement_congr (Int.emod_emod _ _)] at hx
  refine ⟨hstored.running, hstack, hpost m.load m'.load hp hx fun q hq => ?_⟩
  rw [hstored.load_eq q fun k h₀ h₃ => by rw [Int.emod_add_emod]; exact hq k h₀ h₃, p₁.load_eq]

end

end AirCompiler
