import AirCompiler.Proofs.Machine.StraightLine

/-!
# Memory accesses

`Machine.accesses m i`: the words of memory that the instruction `i` touches when `m` executes it,
in order. `Machine.trace` lists the accesses of a run.

* `Machine.written_run`: the writes of the trace are what the machine records.
* `Machine.execute_congr`: what an instruction does depends on no words but those that it reads, so
  no read is missing.
* `Machine.runTrace_eq_traced`: the trace of a program that is performed to its end is that of its
  instructions one after another.
-/

namespace AirCompiler

inductive Access where
  | read (address : Int)
  | write (address : Int)
  deriving DecidableEq

def Access.written? : Access → Option Int
  | .read _ => none
  | .write q => some q

namespace Machine

/-- The words that an instruction touches. An instruction that pops more words than there are writes
those that there are. -/
def accesses (m : Machine) : Instruction → List Access
  | .readMem n =>
    match m.stack with
    | [] => []
    | p :: _ => (List.range n.val).map fun (k : Nat) => .read ((p - k) % prime)
  | .writeMem n =>
    match m.stack with
    | [] => []
    | p :: s => (List.range (min n.val s.length)).map fun (k : Nat) => .write ((p + k) % prime)
  | _ => []

def stepAccesses (code : Array Instruction) (m : Machine) : List Access :=
  match m.status with
  | .running =>
    match code[m.pc]? with
    | some i => m.accesses i
    | none => []
  | _ => []

def trace (code : Array Instruction) : Nat → Machine → List Access
  | 0, _ => []
  | n + 1, m => m.stepAccesses code ++ trace code n (m.step code)

/-- The words that a run touches. -/
def runTrace (code : Array Instruction) (m : Machine) : List Access :=
  m.trace code (code.size - m.pc + 1)

/-- The machine with another memory and another record of what was written. -/
def withMemory (m : Machine) (ram : Std.TreeMap Int Int) (written : Array Int) : Machine :=
  { m with ram := ram, written := written }

end Machine

/-! ## Instructions that touch no memory -/

namespace Machine

variable {m : Machine}

/-- Only two instructions touch memory. The others neither look at it nor change it. -/
theorem respected_withMemory {i : Instruction} (hr : ∀ n, i ≠ .readMem n)
    (hw : ∀ n, i ≠ .writeMem n) (ram : Std.TreeMap Int Int) (written : Array Int) :
    Respected i fun m n => n = m.withMemory ram written where
  stack_eq := by
    rintro m _ rfl
    rfl
  pop := by
    rintro m _ w s rfl -
    rfl
  push := by
    rintro m _ w rfl
    rfl
  stop := by
    rintro m _ status - rfl
    rfl
  load_eq hi := absurd hi (hr _)
  record hi := absurd hi (hw _)

theorem execute_withMemory {i : Instruction} (hr : ∀ n, i ≠ .readMem n) (hw : ∀ n, i ≠ .writeMem n)
    (pos : Nat) (ram : Std.TreeMap Int Int) (written : Array Int) :
    (m.withMemory ram written).execute i pos = (m.execute i pos).withMemory ram written :=
  (respected_withMemory hr hw ram written).execute rfl

/-! ## Instructions that do -/

theorem execute_of_ok {i : Instruction} {pos : Nat} {m' : Machine}
    (h : Exec.instruction i { m with pc := pos + 1 } = .ok () m') : m.execute i pos = m' := by
  rw [execute, h]

theorem execute_of_error {i : Instruction} {pos : Nat} {m' : Machine} {u : Underflow}
    (h : Exec.instruction i { m with pc := pos + 1 } = .error u m') :
    m.execute i pos = { m' with status := .failed (.underflow i pos) } := by
  rw [execute, h]

theorem readWords_eq (p : Int) (ks : List Nat) (m : Machine) :
    (ks.forM fun (k : Nat) => (modify fun m => m.pushWord (m.load (p - k)) : Exec PUnit)) m =
      .ok () { m with
        stack := (ks.map fun (k : Nat) => m.load (p - k) % prime).reverse ++ m.stack } := by
  induction ks generalizing m with
  | nil => rfl
  | cons k ks ih =>
    show (ks.forM fun (k : Nat) => (modify fun m => m.pushWord (m.load (p - k)) : Exec PUnit))
      (m.pushWord (m.load (p - k))) = _
    rw [ih, List.map_cons, List.reverse_cons, List.append_assoc]
    rfl

theorem execute_readMem (n : WordCount) (pos : Nat) {p : Int} {s : List Int}
    (h : m.stack = p :: s) : m.execute (.readMem n) pos = { m with
      pc := pos + 1
      stack :=
        (p - n.val) % prime ::
          (((List.range n.val).map fun (k : Nat) => m.load (p - k) % prime).reverse ++ s) } := by
  obtain ⟨pc, stack, ram, status, written⟩ := m
  cases h
  refine execute_of_ok ?_
  have hread := readWords_eq p (List.range n.val) ⟨pos + 1, s, ram, status, written⟩
  show EStateM.bind (Exec.readWords p n.val)
    (fun _ => Exec.push (p - n.val)) ⟨pos + 1, s, ram, status, written⟩ = _
  rw [EStateM.bind, Exec.readWords, hread]
  rfl

theorem writeWords_spec (p : Int) (ks : List Nat) (m : Machine) : ∃ m' : Machine,
    (ks.forM fun (k : Nat) => Exec.writeWord (p + k)) m =
      (if ks.length ≤ m.stack.length then .ok () m' else .error .underflow m') ∧
    m'.status = m.status ∧ m'.stack = m.stack.drop ks.length ∧
    m'.written.toList = m.written.toList ++
      (ks.take m.stack.length).map fun (k : Nat) => (p + k) % prime := by
  induction ks generalizing m with
  | nil => exact ⟨m, rfl, rfl, rfl, by simp⟩
  | cons k ks ih =>
    obtain ⟨pc, stack, ram, status, written⟩ := m
    cases stack with
    | nil => exact ⟨_, rfl, rfl, rfl, by simp⟩
    | cons w s =>
      -- the first word is written, and the others from the state that this leaves
      obtain ⟨m', heq, hstatus, hstack, hwritten⟩ :=
        ih (Machine.record ⟨pc, s, ram, status, written⟩ (p + k) w)
      refine ⟨m', ?_, hstatus, hstack, ?_⟩
      · rw [List.length_cons, List.length_cons]
        simp only [Nat.add_le_add_iff_right]
        exact heq
      · rw [hwritten]
        simp [record, store]

theorem execute_writeMem (n : WordCount) (pos : Nat) {p : Int} {s : List Int}
    (h : m.stack = p :: s) :
    ∃ m' : Machine, m.execute (.writeMem n) pos = m' ∧
      m'.status = (if n.val ≤ s.length then m.status else .failed (.underflow (.writeMem n) pos)) ∧
      m'.stack = (if n.val ≤ s.length then (p + n.val) % prime :: s.drop n.val else s.drop n.val) ∧
      m'.written.toList = m.written.toList ++
        (m.accesses (.writeMem n)).filterMap Access.written? := by
  obtain ⟨pc, stack, ram, status, written⟩ := m
  cases h
  obtain ⟨m', heq, hstatus, hstack, hwritten⟩ :=
    writeWords_spec p (List.range n.val) ⟨pos + 1, s, ram, status, written⟩
  have hexec : Exec.instruction (.writeMem n) ⟨pos + 1, p :: s, ram, status, written⟩ =
      if n.val ≤ s.length then .ok () (m'.pushWord (p + n.val)) else .error .underflow m' := by
    show EStateM.bind (Exec.writeWords p n.val)
      (fun _ => Exec.push (p + n.val)) ⟨pos + 1, s, ram, status, written⟩ = _
    rw [EStateM.bind, Exec.writeWords, heq, List.length_range]
    by_cases hn : n.val ≤ s.length
    · rw [if_pos hn, if_pos hn]
      rfl
    · rw [if_neg hn, if_neg hn]
  have haccesses : (Machine.accesses ⟨pc, p :: s, ram, status, written⟩ (.writeMem n)).filterMap
      Access.written? =
      ((List.range n.val).take s.length).map fun (k : Nat) => (p + k) % prime := by
    simp only [accesses, List.filterMap_map, List.take_range, Nat.min_comm]
    exact congrFun List.filterMap_eq_map _
  rw [List.length_range] at hstack
  rw [haccesses]
  by_cases hn : n.val ≤ s.length
  · rw [if_pos hn] at hexec
    rw [if_pos hn, if_pos hn]
    exact ⟨_, execute_of_ok hexec, hstatus, congrArg _ hstack, hwritten⟩
  · rw [if_neg hn] at hexec
    rw [if_neg hn, if_neg hn]
    exact ⟨_, execute_of_error hexec, rfl, hstack, hwritten⟩

theorem written_execute_of_ne {i : Instruction} (hr : ∀ n, i ≠ .readMem n)
    (hw : ∀ n, i ≠ .writeMem n) (pos : Nat) : (m.execute i pos).written = m.written :=
  -- with the memory and the record that it has, the machine is itself
  (congrArg Machine.written (execute_withMemory (m := m) hr hw pos m.ram m.written) :)

theorem written_execute (m : Machine) (i : Instruction) (pos : Nat) :
    (m.execute i pos).written.toList = m.written.toList ++
      (m.accesses i).filterMap Access.written? := by
  cases i with
  | readMem n =>
    obtain ⟨pc, stack, ram, status, written⟩ := m
    cases stack with
    | nil => exact (List.append_nil _).symm
    | cons p s =>
      rw [execute_readMem n pos rfl, accesses]
      simp [List.filterMap_map, Access.written?, Function.comp_def]
  | writeMem n =>
    cases hs : m.stack with
    | nil =>
      obtain ⟨pc, stack, ram, status, written⟩ := m
      cases hs
      exact (List.append_nil _).symm
    | cons p s =>
      obtain ⟨m', heq, -, -, hwritten⟩ := execute_writeMem n pos hs
      rw [heq, hwritten]
  | _ => rw [written_execute_of_ne (by simp) (by simp)]; exact (List.append_nil _).symm

/-- What an instruction does to the stack and whether the run goes on depend on no words of memory
but those that it reads. -/
theorem execute_congr {i : Instruction} (pos : Nat) {ram : Std.TreeMap Int Int}
    {written : Array Int}
    (h : ∀ q, .read q ∈ m.accesses i → (m.withMemory ram written).load q = m.load q) :
    ((m.withMemory ram written).execute i pos).stack = (m.execute i pos).stack ∧
      ((m.withMemory ram written).execute i pos).status = (m.execute i pos).status := by
  cases i with
  | readMem n =>
    cases hs : m.stack with
    | nil =>
      obtain ⟨pc, stack, ram', status, written'⟩ := m
      cases hs
      exact ⟨rfl, rfl⟩
    | cons p s =>
      have hread : ∀ k ∈ List.range n.val, (m.withMemory ram written).load (p - k) % prime =
          m.load (p - k) % prime := by
        intro k hk
        rw [← load_emod, h, load_emod]
        rw [accesses, hs]
        exact List.mem_map_of_mem hk
      rw [execute_readMem n pos hs, execute_readMem (m := m.withMemory ram written) n pos hs,
        List.map_congr_left hread]
      exact ⟨rfl, rfl⟩
  | writeMem n =>
    cases hs : m.stack with
    | nil =>
      obtain ⟨pc, stack, ram', status, written'⟩ := m
      cases hs
      exact ⟨rfl, rfl⟩
    | cons p s =>
      -- what is written has no part in the stack that is left
      obtain ⟨m₁, h₁, hstatus₁, hstack₁, -⟩ := execute_writeMem n pos hs
      obtain ⟨m₂, h₂, hstatus₂, hstack₂, -⟩ :=
        execute_writeMem (m := m.withMemory ram written) n pos hs
      rw [h₁, h₂, hstack₁, hstack₂, hstatus₁, hstatus₂]
      exact ⟨rfl, rfl⟩
  | _ => rw [execute_withMemory (by simp) (by simp)]; exact ⟨rfl, rfl⟩

/-! ## Runs -/

theorem written_step (code : Array Instruction) (m : Machine) :
    (m.step code).written.toList = m.written.toList ++
      (m.stepAccesses code).filterMap Access.written? := by
  cases hs : m.status with
  | running =>
    cases hi : code[m.pc]? with
    | some i =>
      simp only [step, stepAccesses, hs, hi]
      exact written_execute m i m.pc
    | none => simp only [step, stepAccesses, hs, hi, List.filterMap_nil, List.append_nil]
  | _ => simp only [step, stepAccesses, hs, List.filterMap_nil, List.append_nil]

theorem written_steps (code : Array Instruction) (n : Nat) (m : Machine) :
    (m.steps code n).written.toList = m.written.toList ++
      (m.trace code n).filterMap Access.written? := by
  induction n generalizing m with
  | zero => exact (List.append_nil _).symm
  | succ n ih => rw [steps, ih, written_step, trace, List.filterMap_append, List.append_assoc]

theorem written_run (code : Array Instruction) (m : Machine) :
    (m.run code).written.toList = m.written.toList ++ (m.runTrace code).filterMap Access.written? :=
  written_steps code _ m

/-! ## Straight-line code -/

/-- The words that `perform` touches. -/
def traced (m : Machine) : List Instruction → List Access
  | [] => []
  | i :: code => m.accesses i ++ (m.execute i m.pc).traced code

@[simp] theorem traced_nil (m : Machine) : m.traced [] = [] := rfl

theorem traced_cons (m : Machine) (i : Instruction) (code : List Instruction) :
    m.traced (i :: code) = m.accesses i ++ (m.execute i m.pc).traced code := rfl

theorem traced_append (m : Machine) (code more : List Instruction) :
    m.traced (code ++ more) = m.traced code ++ (m.perform code).traced more := by
  induction code generalizing m with
  | nil => rfl
  | cons i code ih =>
    rw [List.cons_append, traced_cons, ih, traced_cons, perform_cons, List.append_assoc]

theorem trace_eq_traced {program : Array Instruction} (before : List Instruction)
    {code : List Instruction} (hp : program.toList = before ++ code) (hpc : m.pc = before.length)
    (h : (m.perform code).status = .running) (n : Nat) :
    m.trace program (code.length + n) = m.traced code ++ (m.perform code).trace program n := by
  induction code generalizing m before with
  | nil => rw [List.length_nil, Nat.zero_add]; rfl
  | cons i code ih =>
    have hi : program[m.pc]? = some i := by
      rw [← Array.getElem?_toList, hp, hpc]
      simp
    have hrunning := running_of_perform h
    have hstep : m.step program = m.execute i m.pc := by simp only [step, hrunning, hi]
    have haccesses : m.stepAccesses program = m.accesses i := by
      simp only [stepAccesses, hrunning, hi]
    rw [List.length_cons, Nat.add_right_comm, trace, hstep, haccesses,
      traced_cons, List.append_assoc,
      ih (before ++ [i]) (by simp [hp])
        (by rw [execute_pc, hpc, List.length_append, List.length_singleton]) h]
    rfl

/-- A program that is running after its last instruction touches what its instructions do. -/
theorem runTrace_eq_traced {program : Array Instruction} (hpc : m.pc = 0)
    (h : (m.perform program.toList).status = .running) :
    m.runTrace program = m.traced program.toList := by
  have hend := (steps_eq_perform [] (List.nil_append program.toList).symm hpc h).2
  have hlast : (m.perform program.toList).stepAccesses program = [] := by
    simp [stepAccesses, h, hend]
  rw [runTrace, hpc, Nat.sub_zero, ← Array.length_toList,
    trace_eq_traced [] (List.nil_append program.toList).symm hpc h 1, trace, hlast]
  exact List.append_nil _

/-! ## Fragments -/

theorem traced_load (m : Machine) (n : Int) :
    m.traced (loadCode (.word n)).toList =
      (List.range 3).map fun (k : Nat) => .read ((n - k) % prime) := by
  show ((List.range 3).map fun (k : Nat) => Access.read ((n % prime - k) % prime)) = _
  simp only [Int.emod_sub_emod]

theorem traced_loadThrough (m : Machine) (n k : Int) :
    m.traced
      [.push (.word n), .readMem .one, .pop .one, .addi (.word k), .readMem .three, .pop .one] =
      .read (n % prime) ::
        (List.range 3).map fun (j : Nat) => .read ((m.load n + k - j) % prime) := by
  show Access.read ((n % prime - 0) % prime) ::
    ((List.range 3).map fun (j : Nat) =>
      Access.read (((m.load (n % prime - 0) % prime + k) % prime - j) % prime)) = _
  simp only [Int.sub_zero, Int.emod_emod, load_emod, Int.emod_sub_emod, Int.emod_add_emod]

theorem traced_store (n : Int) {x : Ext} {s : List Int} (hs : m.stack = x.words ++ s) :
    m.traced (storeCode (.word n)).toList =
      (List.range 3).map fun (k : Nat) => .write ((n + k) % prime) := by
  obtain ⟨pc, stack, ram, status, written⟩ := m
  cases hs
  show ((List.range 3).map fun (k : Nat) => Access.write ((n % prime + k) % prime)) = _
  simp only [Int.emod_add_emod]

theorem traced_storeWord (n : Int) {w : Int} {s : List Int} (hs : m.stack = w :: s) :
    m.traced [.push (.word n), .writeMem .one, .pop .one] = [.write (n % prime)] := by
  obtain ⟨pc, stack, ram, status, written⟩ := m
  cases hs
  show [Access.write ((n % prime + 0) % prime)] = _
  rw [Int.add_zero, Int.emod_emod]

end Machine

end AirCompiler
