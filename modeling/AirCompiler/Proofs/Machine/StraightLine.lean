import AirCompiler.Proofs.Field.Ring
import AirCompiler.Proofs.Machine.Relation

/-!
# Straight-line code

`Machine.perform m code`: the instructions of a list, executed one after another. Every instruction
advances the program counter by one, and none lets a stopped machine run again; so a program that is
still running after its last instruction has been performed from the first to the last and halts
there (`Machine.run_eq_perform`).

Fragments that load or store an element come with the machine they lead to
(`Machine.perform_load_eq`, `Machine.perform_store_eq`). Where fragments are put together, it is
enough to know of the stack and of the words of memory:

* `Pushed m m' words`: `m'` has the words on top of the stack of `m`, and the same memory.
* `Stored m m' words p count`: `m'` has the stack of `m` without the words on top, and no other
  memory changed than `count` words from `p` on.
-/

namespace AirCompiler

/-! ## Memory -/

namespace Machine

theorem load_emod (m : Machine) (p : Int) : m.load (p % prime) = m.load p := by
  rw [load, load, Int.emod_emod]

theorem load_congr (m : Machine) {p q : Int} (h : p % prime = q % prime) : m.load p = m.load q := by
  rw [load, load, h]

theorem load_store (m : Machine) (p q w : Int) :
    (m.store p w).load q = if q % prime = p % prime then w else m.load q := by
  simp only [load, store, Std.TreeMap.getD_insert, Std.LawfulEqOrd.compare_eq_iff_eq]
  split <;> rename_i h
  · rw [if_pos h.symm]
  · rw [if_neg (Ne.symm h)]

theorem ram_store (m : Machine) (p q w : Int) : (m.store p w).ram[q]? = if p % prime = q then some w
    else m.ram[q]? := by
  simp only [store, Std.TreeMap.getElem?_insert, Std.LawfulEqOrd.compare_eq_iff_eq]

theorem ram_record (m : Machine) (p q w : Int) :
    (m.record p w).ram[q]? = if p % prime = q then some w else m.ram[q]? := m.ram_store p q w

/-- Addresses at a small distance differ. -/
theorem add_emod_ne (n : Int) {j k : Int} (hjk : j < k) (hk : k - j < prime) :
    (n + j) % prime ≠ (n + k) % prime := by
  intro h
  have hdvd : (prime : Int) ∣ n + k - (n + j) :=
    Int.dvd_of_emod_eq_zero (Int.emod_eq_emod_iff_emod_sub_eq_zero.1 h.symm)
  have := Int.le_of_dvd (by omega) hdvd
  omega

theorem load_eq_getD (m : Machine) (p : Int) : m.load p = (m.ram[p % prime]?).getD 0 :=
  Std.TreeMap.getD_eq_getD_getElem?

theorem ram_storeElement (m : Machine) {p q : Int} (x : Ext)
    (hq : ∀ k : Int, 0 ≤ k → k < 3 → q ≠ (p + k) % prime) :
    (m.storeElement p x).ram[q]? = m.ram[q]? := by
  have h₀ := hq 0 (by omega) (by omega)
  have h₁ := hq 1 (by omega) (by omega)
  have h₂ := hq 2 (by omega) (by omega)
  rw [Int.add_zero] at h₀
  rw [storeElement, ram_store, if_neg h₂.symm, ram_store, if_neg h₁.symm, ram_store,
    if_neg h₀.symm]

theorem loadElement_storeElement (m : Machine) (p : Int) (x : Ext) :
    (m.storeElement p x).loadElement p = x := by
  have hprime : (3 : Int) < prime := by decide
  have h₀₁ := add_emod_ne p (show (0 : Int) < 1 by omega) (by omega)
  have h₀₂ := add_emod_ne p (show (0 : Int) < 2 by omega) (by omega)
  have h₁₂ := add_emod_ne p (show (1 : Int) < 2 by omega) (by omega)
  rw [Int.add_zero] at h₀₁ h₀₂
  simp only [loadElement, storeElement, load_store, if_neg h₀₁, if_neg h₀₂, if_neg h₁₂, if_true,
    Base.ofInt_val]

end Machine

/-- The element in the three words at an address. -/
def elementAt (load : Int → Int) (p : Int) : Ext :=
  ⟨.ofInt (load p), .ofInt (load (p + 1)), .ofInt (load (p + 2))⟩

theorem Machine.loadElement_eq (m : Machine) (p : Int) : m.loadElement p = elementAt m.load p := rfl

theorem elementAt_congr {load load' : Int → Int} {p q : Int}
    (h : ∀ k, 0 ≤ k → k < 3 → load (p + k) = load' (q + k)) :
    elementAt load p = elementAt load' q := by
  have h₀ := h 0 (by omega) (by omega)
  rw [Int.add_zero, Int.add_zero] at h₀
  rw [elementAt, elementAt, h₀, h 1 (by omega) (by omega), h 2 (by omega) (by omega)]

theorem Machine.loadElement_congr (m : Machine) {p q : Int} (h : p % prime = q % prime) :
    m.loadElement p = m.loadElement q :=
  elementAt_congr fun k _ _ => m.load_congr (by rw [Int.add_emod, h, ← Int.add_emod])

/-! ## Runs -/

namespace Machine

/-- The instructions of a list, executed one after another. -/
def perform (m : Machine) (code : List Instruction) : Machine :=
  code.foldl (fun m i => m.execute i m.pc) m

@[simp] theorem perform_nil (m : Machine) : m.perform [] = m := rfl

@[simp] theorem perform_cons (m : Machine) (i : Instruction) (code : List Instruction) :
    m.perform (i :: code) = (m.execute i m.pc).perform code := rfl

theorem perform_append (m : Machine) (code more : List Instruction) :
    m.perform (code ++ more) = (m.perform code).perform more := List.foldl_append

/-- An instruction leaves the program counter behind itself, and lets no stopped machine run. -/
theorem execute_steady (m : Machine) (i : Instruction) (pos : Nat) :
    (m.execute i pos).pc = pos + 1 ∧
      ((m.execute i pos).status = .running → m.status = .running) := by
  have hI : Invariant i fun m' =>
      m'.pc = pos + 1 ∧ (m'.status = .running → m.status = .running) := by
    refine ⟨fun h _ => h, fun _ h => h, fun hstatus h => ⟨h.1, fun hrunning => ?_⟩, fun _ h _ => h⟩
    -- no instruction sets the machine running
    cases hrunning
    exact hstatus.elim
  exact hI.execute ⟨rfl, id⟩

theorem execute_pc (m : Machine) (i : Instruction) : (m.execute i m.pc).pc = m.pc + 1 :=
  (m.execute_steady i m.pc).1

theorem running_of_execute {m : Machine} {i : Instruction}
    (h : (m.execute i m.pc).status = .running) : m.status = .running :=
  (m.execute_steady i m.pc).2 h

theorem running_of_perform {m : Machine} {code : List Instruction}
    (h : (m.perform code).status = .running) : m.status = .running := by
  induction code generalizing m with
  | nil => exact h
  | cons i code ih => exact running_of_execute (ih h)

/-- Code that is still running after its last instruction is performed from the first to the
last. -/
theorem steps_eq_perform {m : Machine} {program : Array Instruction} (before : List Instruction)
    {code : List Instruction} (hp : program.toList = before ++ code) (hpc : m.pc = before.length)
    (h : (m.perform code).status = .running) :
    m.steps program code.length = m.perform code ∧ (m.perform code).pc = program.size := by
  induction code generalizing m before with
  | nil =>
    rw [← Array.length_toList, hp]
    simpa [steps] using hpc
  | cons i code ih =>
    have hi : program[m.pc]? = some i := by
      rw [← Array.getElem?_toList, hp, hpc]
      simp
    have hstep : m.step program = m.execute i m.pc := by
      rw [step, running_of_perform h]
      simp only [hi]
    rw [List.length_cons, steps, hstep, perform_cons]
    exact ih (before ++ [i]) (by simp [hp])
      (by rw [execute_pc, hpc, List.length_append, List.length_singleton]) h

/-- A program that is running after its last instruction halts there. -/
theorem run_eq_perform {m : Machine} {program : Array Instruction} (hpc : m.pc = 0)
    (h : (m.perform program.toList).status = .running) :
    m.run program = { m.perform program.toList with status := .halted } := by
  obtain ⟨hsteps, hend⟩ := steps_eq_perform [] (List.nil_append program.toList).symm hpc h
  rw [run, hpc, Nat.sub_zero, steps_add, ← Array.length_toList, hsteps, steps, steps, step, h]
  simp [hend]

end Machine

/-! ## Fragments -/

/-- The words of an element on the stack, top first. -/
def Ext.words (x : Ext) : List Int := [x.c0.val, x.c1.val, x.c2.val]

/-- The machine goes on with words on top of the stack and the memory as it was. -/
structure Pushed (m m' : Machine) (words : List Int) : Prop where
  running : m'.status = .running
  stack_eq : m'.stack = words ++ m.stack
  load_eq : m'.load = m.load

/-- The machine goes on without the words on top of the stack, and at most memory from `p` to before
`p + count` has changed. -/
structure Stored (m m' : Machine) (words : List Int) (p count : Int) : Prop where
  running : m'.status = .running
  stack_eq : m.stack = words ++ m'.stack
  load_eq : ∀ q, (∀ k, 0 ≤ k → k < count → q % prime ≠ (p + k) % prime) → m'.load q = m.load q

namespace Pushed

variable {m m' m'' : Machine} {words more : List Int}

theorem trans (h : Pushed m m' words) (h' : Pushed m' m'' more) : Pushed m m'' (more ++ words) :=
  ⟨h'.running, by rw [h'.stack_eq, h.stack_eq, List.append_assoc], h'.load_eq.trans h.load_eq⟩

end Pushed

/-- A store of one word leaves the others. -/
theorem Stored.load_eq_of_ne {m m' : Machine} {words : List Int} {n q : Int}
    (h : Stored m m' words (n % prime) 1) (hq : q % prime ≠ n % prime) : m'.load q = m.load q := by
  refine h.load_eq q fun k hk hk1 => ?_
  obtain rfl : k = 0 := by omega
  rwa [Int.add_zero, Int.emod_emod]

namespace Machine

variable {m : Machine} {s : List Int} {p : Int}

theorem val_loadElement (m : Machine) (p : Int) :
    (m.loadElement p).words =
      [m.load p % prime, m.load (p + 1) % prime, m.load (p + 2) % prime] := by
  simp only [Ext.words, loadElement, Base.val_ofInt]

/-- Reading downwards from the last word of an element pushes the element. -/
theorem perform_load_eq (m : Machine) (n : Int) :
    m.perform (loadCode (.word n)).toList =
      { m with pc := m.pc + 3, stack := (m.loadElement (n - 2)).words ++ m.stack } := by
  have hload (j : Int) : m.load (n % prime - j) = m.load (n - j) :=
    m.load_congr (Int.emod_sub_emod n prime j)
  rw [val_loadElement, show n - 2 + 1 = n - 1 by omega, show n - 2 + 2 = n - 0 by omega, ← hload,
    ← hload, ← hload]
  rfl

/-- Loads the element that ends at an address. -/
theorem perform_load (hm : m.status = .running) (n : Int) :
    Pushed m (m.perform (loadCode (.word n)).toList) (m.loadElement (n - 2)).words := by
  rw [perform_load_eq]
  exact ⟨hm, rfl, rfl⟩

/-- Loads an element through a pointer: the one that ends at a distance from where the pointer
points to. -/
theorem perform_loadThrough (hm : m.status = .running) (n k : Int) :
    Pushed m
      (m.perform [.push (.word n), .readMem .one, .pop .one, .addi (.word k),
        .readMem .three, .pop .one])
      (m.loadElement (m.load n + k - 2)).words := by
  have hp : m.load (n % prime - 0) = m.load n := by rw [Int.sub_zero, load_emod]
  have hload (j : Int) : m.load ((m.load (n % prime - 0) % prime + k) % prime - j) =
      m.load (m.load n + k - j) := by
    refine m.load_congr ?_
    rw [hp, Int.emod_sub_emod, Int.sub_emod, Int.emod_add_emod, ← Int.sub_emod]
  rw [val_loadElement, show m.load n + k - 2 + 1 = m.load n + k - 1 by omega,
    show m.load n + k - 2 + 2 = m.load n + k - 0 by omega, ← hload, ← hload, ← hload]
  exact ⟨hm, rfl, rfl⟩

theorem pushExt_stack (m : Machine) (x : Ext) : (m.pushExt x).stack = x.words ++ m.stack := by
  have h : ∀ b : Base, (b.val : Int) % prime = b.val := fun b => by
    rw [← Base.val_ofInt, Base.ofInt_val]
  simp only [pushExt, pushWord, h]
  rfl

/-- Pushes an element word by word. -/
theorem perform_pushWords (hm : m.status = .running) (x : Ext) :
    Pushed m
      (m.perform [.push (.word x.c2.val), .push (.word x.c1.val), .push (.word x.c0.val)])
        x.words :=
  ⟨hm, m.pushExt_stack x, rfl⟩

/-- Writing the element on top of the stack stores it, and records its words. -/
theorem perform_store_eq (n : Int) {x : Ext} (hs : m.stack = x.words ++ s) :
    m.perform (storeCode (.word n)).toList = { m.storeElement n x with
      pc := m.pc + 3
      stack := s
      written :=
        ((m.written.push (n % prime)).push ((n + 1) % prime)).push ((n + 2) % prime) } := by
  obtain ⟨pc, stack, ram, status, written⟩ := m
  cases hs
  show (⟨pc + 3, s, ((ram.insert ((n % prime + 0) % prime) (x.c0.val : Int)).insert
      ((n % prime + 1) % prime) (x.c1.val : Int)).insert ((n % prime + 2) % prime) (x.c2.val : Int),
      status, ((written.push ((n % prime + 0) % prime)).push ((n % prime + 1) % prime)).push
      ((n % prime + 2) % prime)⟩ : Machine) = _
  simp only [Int.emod_add_emod, Int.add_zero, Int.emod_emod]
  rfl

/-- Stores the element on top of the stack. -/
theorem perform_store (hm : m.status = .running) (n : Int) {x : Ext} (hs : m.stack = x.words ++ s) :
    ∃ m', m.perform (storeCode (.word n)).toList = m' ∧ m'.stack = s ∧ Stored m m' x.words n 3 ∧
      m'.loadElement n = x := by
  refine ⟨_, perform_store_eq n hs, rfl, ⟨hm, hs, fun q hq => ?_⟩, m.loadElement_storeElement n x⟩
  show (m.storeElement n x).load q = m.load q
  rw [load_eq_getD, load_eq_getD, ram_storeElement m x hq]

/-- Stores the word on top of the stack. -/
theorem perform_storeWord (hm : m.status = .running) (n : Int) {w : Int} (hs : m.stack = w :: s) :
    ∃ m', m.perform [.push (.word n), .writeMem .one, .pop .one] = m' ∧ m'.stack = s ∧
      Stored m m' [w] n 1 ∧ m'.load n = w := by
  have heq : m.perform [.push (.word n), .writeMem .one, .pop .one] =
      { m.record (n % prime + 0) w with pc := m.pc + 3, stack := s } := by
    obtain ⟨pc, stack, ram, status, written⟩ := m
    cases hs
    rfl
  have hload (q : Int) : (m.store (n % prime + 0) w).load q = if q % prime = n % prime then w
      else m.load q := by
    rw [load_store, Int.emod_add_emod, Int.add_zero]
  refine ⟨_, heq, rfl, ⟨hm, hs, fun q hq => ?_⟩, ?_⟩
  · have hne := hq 0 (by omega) (by omega)
    rw [Int.add_zero] at hne
    exact (hload q).trans (if_neg hne)
  · exact (hload n).trans (if_pos rfl)

end Machine

end AirCompiler
