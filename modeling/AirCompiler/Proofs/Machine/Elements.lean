import AirCompiler.Proofs.Machine.StraightLine

/-!
# Elements in memory

An element takes three words of memory, the lowest coefficient at the lowest address. Elements get
there in two ways: they are stored from outside of a run, or written by instructions that take them
from the stack.

* `Machine.loadElements_storeElements`, `Machine.ram_storeElements`: what is stored can be loaded,
  and other words stay.
* `Machine.Ahead.steps`: instructions that come next in a program are performed one after another.
* `Machine.elements_agree`: the two ways agree, at every address, also where the words wrap around
  the end of memory. This rests on `Machine.perform_store_eq` and `Machine.perform_load_eq`, which
  say what the instructions do.
-/

namespace AirCompiler

namespace Machine

variable {m : Machine}

/-! ## Storing from outside -/

/-- A store of several elements changes nothing but memory. -/
theorem exists_storeElements (m : Machine) (p : Int) (xs : List Scalar) :
    ∃ ram, m.storeElements p xs = { m with ram := ram } := by
  induction xs generalizing m p with
  | nil => exact ⟨m.ram, rfl⟩
  | cons x xs ih =>
    obtain ⟨ram, h⟩ := ih (m.storeElement p x.lift) (p + 3)
    exact ⟨ram, h⟩

theorem ram_storeElements (m : Machine) {p q : Int} {xs : List Scalar}
    (hq : ∀ k : Int, 0 ≤ k → k < 3 * xs.length → q ≠ (p + k) % prime) :
    (m.storeElements p xs).ram[q]? = m.ram[q]? := by
  induction xs generalizing m p with
  | nil => rfl
  | cons x xs ih =>
    rw [List.length_cons] at hq
    rw [storeElements, ih, ram_storeElement m _ fun k h0 hk => hq k h0 (by omega)]
    intro k h0 hk
    rw [Int.add_assoc]
    exact hq (3 + k) (by omega) (by omega)

theorem loadElements_succ (m : Machine) (p : Int) (n : Nat) :
    m.loadElements p (n + 1) = m.loadElement p :: m.loadElements (p + 3) n := by
  have h (i : Nat) : p + 3 * ((i + 1 : Nat) : Int) = p + 3 + 3 * i := by omega
  simp only [loadElements, List.range_succ_eq_map, List.map_cons, List.map_map, Function.comp_def,
    Nat.succ_eq_add_one, h, Int.natCast_zero, Int.mul_zero, Int.add_zero]

theorem loadElements_one (m : Machine) (p : Int) : m.loadElements p 1 = [m.loadElement p] :=
  loadElements_succ m p 0

/-- What is stored can be loaded, if it fits into memory. -/
theorem loadElements_storeElements (m : Machine) (p : Int) {xs : List Scalar}
    (h : 3 * xs.length ≤ prime) :
    (m.storeElements p xs).loadElements p xs.length = xs.map Scalar.lift := by
  induction xs generalizing m p with
  | nil => rfl
  | cons x xs ih =>
    rw [List.length_cons] at h
    -- the later elements are stored behind the three words of the first one, and do not come around
    -- to them
    have hfirst : ((m.storeElement p x.lift).storeElements (p + 3) xs).loadElement p =
        (m.storeElement p x.lift).loadElement p := by
      rw [loadElement_eq, loadElement_eq]
      refine elementAt_congr fun j hj hj3 => ?_
      rw [load_eq_getD, load_eq_getD, ram_storeElements]
      intro k h0 hk
      rw [Int.add_assoc]
      exact add_emod_ne p (by omega) (by omega)
    rw [storeElements, List.length_cons, loadElements_succ, hfirst, loadElement_storeElement,
      ih _ _ (by omega), List.map_cons]

/-! ## Instructions -/

/-- The instructions are the next ones of the program. -/
def Ahead (m : Machine) (code : Array Instruction) (fragment : List Instruction) : Prop :=
  fragment <+: code.toList.drop m.pc

instance (m : Machine) (code : Array Instruction) (fragment : List Instruction) :
    Decidable (m.Ahead code fragment) :=
  inferInstanceAs (Decidable (fragment <+: code.toList.drop m.pc))

/-- Instructions that come next, and after which the machine runs, are performed one after
another. -/
theorem Ahead.steps {code : Array Instruction} {fragment : List Instruction}
    (h : m.Ahead code fragment) (hrunning : (m.perform fragment).status = .running) :
    m.steps code fragment.length = m.perform fragment := by
  induction fragment generalizing m with
  | nil => rfl
  | cons i fragment ih =>
    obtain ⟨rest, hrest⟩ := h
    have hi : code[m.pc]? = some i := by
      have h := congrArg (fun l : List Instruction => l[0]?) hrest
      simpa using h.symm
    have hstep : m.step code = m.execute i m.pc := by
      rw [step, running_of_perform hrunning]
      simp only [hi]
    rw [List.length_cons, Machine.steps, hstep, perform_cons]
    refine ih ⟨rest, ?_⟩ hrunning
    rw [execute_pc, ← List.drop_drop, ← hrest]
    rfl

/-! ## Agreement -/

/-- How elements stand in memory at an address, whoever put them there. -/
structure ElementsAgree (p : Int) : Prop where
  /-- Elements that are stored from outside and fit into memory can be loaded again. All else stays
  as it was. -/
  stored : ∀ (m : Machine) (xs : List Scalar), 3 * xs.length ≤ prime →
    (m.storeElements p xs).loadElements p xs.length = xs.map Scalar.lift ∧
      (∃ ram, m.storeElements p xs = { m with ram := ram }) ∧
      ∀ q, (∀ k : Int, 0 ≤ k → k < 3 * xs.length → q ≠ (p + k) % prime) →
        (m.storeElements p xs).ram[q]? = m.ram[q]?
  /-- An element that instructions take from the stack is stored as from outside, and can be loaded
  from there. -/
  popped : ∀ (code : Array Instruction) (m : Machine) (x : Ext) (s : List Int),
    m.status = .running → m.stack = x.words ++ s → m.Ahead code (storeCode (.word p)).toList →
    (m.steps code 3).status = .running ∧ (m.steps code 3).stack = s ∧
      (m.steps code 3).ram = (m.storeElements p [.ext x]).ram ∧
      (m.steps code 3).loadElements p 1 = [x]
  /-- An element that can be loaded from outside is what instructions push. They start at its last
  word. -/
  pushed : ∀ (code : Array Instruction) (m : Machine) (x : Ext), m.status = .running →
    m.loadElements p 1 = [x] → m.Ahead code (loadCode (.word ((p + 2) % prime))).toList →
    (m.steps code 3).status = .running ∧ (m.steps code 3).stack = x.words ++ m.stack ∧
    (m.steps code 3).ram = m.ram

/-- Instructions and the outside agree on how elements stand in memory, at every address. Writing
counts addresses upwards and reading counts them downwards, and both wrap around the end of memory
at the same word. -/
theorem elements_agree (p : Int) : ElementsAgree p where
  stored m xs h :=
    ⟨m.loadElements_storeElements p h, m.exists_storeElements p xs,
      fun _ hq => m.ram_storeElements hq⟩
  popped code m x s hm hs hcode := by
    have hperform := perform_store_eq p hs
    have hsteps := hcode.steps (by rw [hperform]; exact hm)
    rw [hperform] at hsteps
    rw [show m.steps code 3 = _ from hsteps]
    refine ⟨hm, rfl, rfl, ?_⟩
    rw [loadElements_one, List.cons.injEq, and_iff_left rfl]
    exact m.loadElement_storeElement p x
  pushed code m x hm hx hcode := by
    have hperform := m.perform_load_eq ((p + 2) % prime)
    have hp : ((p + 2) % prime - 2) % prime = p % prime := by
      rw [Int.emod_sub_emod, Int.add_sub_cancel]
    rw [m.loadElement_congr hp] at hperform
    have hsteps := hcode.steps (by rw [hperform]; exact hm)
    rw [hperform] at hsteps
    rw [loadElements_one, List.cons.injEq, and_iff_left rfl] at hx
    rw [show m.steps code 3 = _ from hsteps, hx]
    exact ⟨hm, rfl, rfl⟩

/-- At the last address, the first word of an element is the last one of memory, and the others are
the first two. -/
theorem elements_agree_wrapping :
    let x : Ext := ⟨.ofInt 4, .ofInt 5, .ofInt 6⟩
    let m := initial [4, 5, 6, 9] ∅
    let code := storeCode (.word (-1)) ++ loadCode (.word 1)
    let m' := m.steps code 3
    m.status = .running ∧ m.stack = x.words ++ [9] ∧ m.Ahead code (storeCode (.word (-1))).toList ∧
      m'.Ahead code (loadCode (.word 1)).toList ∧
      m'.stack = [9] ∧ m'.written = #[(prime : Int) - 1, 0, 1] ∧ m'.loadElements (-1) 1 = [x] ∧
      (m'.steps code 3).stack = x.words ++ [9] := by
  intro x m code m'
  have hs : m.stack = x.words ++ [9] := by decide +kernel
  have hstore : m.Ahead code (storeCode (.word (-1))).toList := by decide +kernel
  have hload : m'.Ahead code (loadCode (.word 1)).toList := by decide +kernel
  obtain ⟨hrunning, hstack, -, hloaded⟩ := (elements_agree (-1)).popped code m x [9] rfl hs hstore
  obtain ⟨-, hpushed, -⟩ := (elements_agree (-1)).pushed code m' x hrunning hloaded hload
  exact ⟨rfl, hs, hstore, hload, hstack, by decide +kernel, hloaded, hpushed.trans (by rw [hstack])⟩

end Machine

end AirCompiler
