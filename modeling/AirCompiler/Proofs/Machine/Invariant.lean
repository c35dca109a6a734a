import AirCompiler.Proofs.Machine.StraightLine

/-!
# What every run keeps

A machine is canonical if all words on its stack and in its memory, and all addresses of memory, are
representatives of base elements. Words come onto the stack reduced, and only words of the stack go
to memory; so a canonical machine stays so, and its memory changes at most where the machine records
a write (`Machine.Kept`). This is an invariant of every instruction, also of one that fails after
some of its pops (`Machine.kept_execute`).

* `Machine.kept_steps`: so it holds between the start of a run and every state along the way.
* `Machine.pc_add_le`: the program counter counts the steps while the machine runs, so there is at
  most one step more than there are instructions.
* `Machine.run_invariant`: a run of instructions with numbers as arguments ends halted or failed,
  and every state along the way is canonical.
-/

namespace AirCompiler

/-- The number represents a base element. -/
def IsWord (n : Int) : Prop := 0 ≤ n ∧ n < prime

theorem isWord_emod (n : Int) : IsWord (n % prime) :=
  ⟨Int.emod_nonneg n (by decide), Int.emod_lt_of_pos n (by decide)⟩

namespace Machine

/-- All words and all addresses represent base elements. -/
structure Canonical (m : Machine) : Prop where
  stack : ∀ w ∈ m.stack, IsWord w
  ram : ∀ q w, m.ram[q]? = some w → IsWord q ∧ IsWord w

/-- The record of writes has grown, and memory has changed at most at the addresses that were added
to it. -/
def Logs (m m' : Machine) : Prop :=
  ∃ more : List Int, m'.written.toList = m.written.toList ++ more ∧ ∀ q, q ∉ more →
    m'.ram[q]? = m.ram[q]?

/-- What every operation keeps of a canonical machine: it stays canonical, its writes are recorded,
and it does not get stuck. -/
structure Kept (m m' : Machine) : Prop where
  canonical : m'.Canonical
  logs : m.Logs m'
  stuck : ∀ cause, m'.status = .stuck cause → m.status = .stuck cause

namespace Logs

variable {m m' m'' : Machine}

/-- An operation that leaves the memory and its record alone. -/
theorem of_eq (hwritten : m'.written = m.written) (hram : m'.ram = m.ram) : m.Logs m' :=
  ⟨[], by rw [hwritten, List.append_nil], fun _ _ => by rw [hram]⟩

theorem trans (h : m.Logs m') (h' : m'.Logs m'') : m.Logs m'' := by
  obtain ⟨more, hwritten, hram⟩ := h
  obtain ⟨more', hwritten', hram'⟩ := h'
  refine ⟨more ++ more', by rw [hwritten', hwritten, List.append_assoc], fun q hq => ?_⟩
  rw [List.mem_append, not_or] at hq
  rw [hram' q hq.2, hram q hq.1]

end Logs

namespace Kept

variable {m m' m'' : Machine}

theorem refl (h : m.Canonical) : m.Kept m := ⟨h, .of_eq rfl rfl, fun _ h => h⟩

theorem trans (h : m.Kept m') (h' : m'.Kept m'') : m.Kept m'' :=
  ⟨h'.canonical, h.logs.trans h'.logs, fun cause hc => h.stuck cause (h'.stuck cause hc)⟩

/-- Another program counter changes nothing. -/
theorem goto (h : m.Canonical) (pc : Nat) : m.Kept { m with pc := pc } :=
  ⟨⟨h.stack, h.ram⟩, .of_eq rfl rfl, fun _ h => h⟩

/-- A machine may stop in any way but stuck. -/
theorem stop (h : m.Canonical) {status : Status} (hs : ∀ cause, status ≠ .stuck cause) :
    m.Kept { m with status := status } :=
  ⟨⟨h.stack, h.ram⟩, .of_eq rfl rfl, fun cause hc => absurd hc (hs cause)⟩

theorem pop (h : m.Canonical) {w : Int} {s : List Int} (hs : m.stack = w :: s) :
    m.Kept { m with stack := s } :=
  ⟨⟨fun v hv => h.stack v (by rw [hs]; exact List.mem_cons_of_mem w hv), h.ram⟩,
    .of_eq rfl rfl, fun _ h => h⟩

theorem pushWord (h : m.Canonical) (w : Int) : m.Kept (m.pushWord w) := by
  refine ⟨⟨fun v hv => ?_, h.ram⟩, .of_eq rfl rfl, fun _ h => h⟩
  rcases List.mem_cons.1 hv with rfl | hv
  · exact isWord_emod w
  · exact h.stack v hv

/-- A recorded write of a canonical word. -/
theorem record (h : m.Canonical) (address : Int) {w : Int} (hw : IsWord w) :
    m.Kept (m.record address w) := by
  refine ⟨⟨h.stack, fun q v hq => ?_⟩, ⟨[address % prime], Array.toList_push, fun q hq => ?_⟩,
    fun _ h => h⟩
  · rw [ram_record] at hq
    split at hq
    case isTrue heq =>
      cases hq
      exact ⟨heq ▸ isWord_emod address, hw⟩
    case isFalse => exact h.ram q v hq
  · rw [List.mem_singleton] at hq
    rw [ram_record, if_neg (Ne.symm hq)]

end Kept

/-! ## Steps -/

variable {m : Machine} {code : Array Instruction} {i : Instruction}

theorem invariant_kept (hi : ∀ a, i.argument? ≠ some (.address a)) : Invariant i m.Kept where
  pop h hs := h.trans (.pop h.canonical hs)
  push w h := h.trans (.pushWord h.canonical w)
  stop hstatus h := by
    refine h.trans (.stop h.canonical fun cause hstuck => ?_)
    cases hstuck
    exact hstatus.elim hi
  record address h hs := by
    -- the word that is written was popped, so it is canonical
    have hpop := h.trans (.pop h.canonical hs)
    exact hpop.trans (.record hpop.canonical address (h.canonical.stack _ (by simp [hs])))

theorem kept_execute (hm : m.Canonical) (hi : ∀ a, i.argument? ≠ some (.address a)) (pos : Nat) :
    m.Kept (m.execute i pos) :=
  (invariant_kept hi).execute (.goto hm (pos + 1))

/-- All arguments of the program are numbers. -/
def Resolved (code : Array Instruction) : Prop := ∀ i ∈ code, ∀ a, i.argument? ≠ some (.address a)

theorem kept_step (hcode : Resolved code) (hm : m.Canonical) : m.Kept (m.step code) := by
  unfold step
  split
  · split
    · rename_i i hi
      exact kept_execute hm (hcode i (Array.mem_of_getElem? hi)) _
    · exact .stop hm (by simp)
  · exact .refl hm

theorem kept_steps (hcode : Resolved code) (hm : m.Canonical) (n : Nat) :
    m.Kept (m.steps code n) := by
  induction n generalizing m with
  | zero => exact .refl hm
  | succ n ih =>
    have h := kept_step hcode hm
    exact h.trans (ih h.canonical)

/-- A step from within the program stays within it. -/
theorem pc_step_le (hpc : m.pc ≤ code.size) : (m.step code).pc ≤ code.size := by
  unfold step
  split
  · split
    · rename_i i hi
      rw [execute_pc]
      exact (Array.getElem?_eq_some_iff.1 hi).1
    · exact hpc
  · exact hpc

theorem pc_steps_le (hpc : m.pc ≤ code.size) (n : Nat) : (m.steps code n).pc ≤ code.size := by
  induction n generalizing m with
  | zero => exact hpc
  | succ n ih => exact ih (pc_step_le hpc)

/-! ## The end of a run -/

/-- A machine that runs after a step has executed an instruction of the program. -/
theorem pc_step (h : (m.step code).status = .running) :
    m.pc < code.size ∧ (m.step code).pc = m.pc + 1 := by
  unfold step at h ⊢
  split
  · split
    · rename_i i hi
      exact ⟨(Array.getElem?_eq_some_iff.1 hi).1, execute_pc m i⟩
    · rename_i hm _ hi
      simp [hm, hi] at h
  · rename_i hm
    split at h
    · exact absurd ‹_› hm
    · exact absurd h hm

/-- While a machine runs, its program counter counts the steps. -/
theorem pc_add_le {n : Nat} (h : (m.steps code (n + 1)).status = .running) :
    m.pc + (n + 1) ≤ code.size := by
  induction n generalizing m with
  | zero => exact (pc_step h).1
  | succ n ih =>
    have hstep : (m.step code).status = .running := by
      by_contra hne
      rw [steps, steps_of_ne_running code hne] at h
      exact hne h
    have hle := ih (m := m.step code) h
    rw [(pc_step hstep).2] at hle
    omega

theorem run_ne_running (code : Array Instruction) (m : Machine) :
    (m.run code).status ≠ .running := by
  intro h
  have := pc_add_le h
  omega

/-- A number of steps ends where the machine stops first, if it does. -/
theorem exists_steps (code : Array Instruction) (n : Nat) (m : Machine) :
    ∃ k ≤ n, m.steps code n = m.steps code k ∧ ∀ j < k, (m.steps code j).status = .running := by
  induction n generalizing m with
  | zero => exact ⟨0, Nat.le_refl 0, rfl, by simp⟩
  | succ n ih =>
    by_cases hm : m.status = .running
    · obtain ⟨k, hk, heq, hrunning⟩ := ih (m.step code)
      refine ⟨k + 1, Nat.succ_le_succ hk, heq, fun j hj => ?_⟩
      cases j with
      | zero => exact hm
      | succ j => exact hrunning j (Nat.lt_of_succ_lt_succ hj)
    · exact ⟨0, Nat.zero_le _, steps_of_ne_running code hm _, by simp⟩

/-- What holds of a run and of every state along the way, the last one included. -/
structure SafeRun (m : Machine) (code : Array Instruction) : Prop where
  /-- Steps are taken for as long as the machine runs, and there is an end to them. -/
  terminates : ∃ n ≤ code.size + 1, m.run code = m.steps code n ∧
    ∀ k < n, (m.steps code k).status = .running
  ended : (m.run code).status = .halted ∨ ∃ reason, (m.run code).status = .failed reason
  canonical : ∀ n, (m.steps code n).Canonical
  pc_le : ∀ n, (m.steps code n).pc ≤ code.size
  logs : ∀ n, m.Logs (m.steps code n)

/-- Whatever the instructions are, a run from the start of a program ends halted or failed. In every
state along the way the stack and the memory are canonical, the program counter is within the
program, and memory differs from that at the start only at addresses that were added to the record
of writes. A failed instruction is no exception, wherever it ran out of words to pop. -/
theorem run_invariant (hcode : Resolved code) (hpc : m.pc = 0)
    (hstuck : ∀ cause, m.status ≠ .stuck cause) (hm : m.Canonical) : m.SafeRun code where
  terminates := by
    obtain ⟨n, hn, heq, hrunning⟩ := exists_steps code (code.size - m.pc + 1) m
    exact ⟨n, by omega, heq, hrunning⟩
  ended := by
    cases h : (m.run code).status with
    | running => exact absurd h (run_ne_running code m)
    | halted => exact .inl rfl
    | failed reason => exact .inr ⟨reason, rfl⟩
    | stuck cause => exact absurd ((kept_steps hcode hm _).stuck cause h) (hstuck cause)
  canonical n := (kept_steps hcode hm n).canonical
  pc_le n := pc_steps_le (by omega) n
  logs n := (kept_steps hcode hm n).logs

/-- The stack is one word short: the write fails once two words are written, at an address that
wraps around. -/
theorem run_invariant_underflow :
    let m := initial [7, 8] ((∅ : Std.TreeMap Int Int).insert 5 6)
    let code := #[.push (.word (-1)), .writeMem .three, .halt]
    Resolved code ∧ m.pc = 0 ∧ (∀ cause, m.status ≠ .stuck cause) ∧ m.Canonical ∧
      (m.run code).status = .failed (.underflow (.writeMem .three) 1) ∧
      (m.run code).written = #[(prime : Int) - 1, 0] ∧
      m.SafeRun code := by
  have hcode : Resolved #[.push (.word (-1)), .writeMem .three, .halt] := by
    simp [Resolved, Instruction.argument?]
  have hstuck : ∀ cause, (initial [7, 8] ((∅ : Std.TreeMap Int Int).insert 5 6)).status ≠
    .stuck cause := by simp [initial]
  have hm : (initial [7, 8] ((∅ : Std.TreeMap Int Int).insert 5 6)).Canonical := by
    refine ⟨by simp [initial, IsWord], fun q w hq => ?_⟩
    simp only [initial, Std.TreeMap.getElem?_insert, Std.LawfulEqOrd.compare_eq_iff_eq] at hq
    split at hq
    case isTrue heq =>
      cases hq
      exact ⟨heq ▸ by simp [IsWord], by simp [IsWord]⟩
    case isFalse => simp at hq
  exact ⟨hcode, rfl, hstuck, hm, by decide +kernel, by decide +kernel,
    run_invariant hcode rfl hstuck hm⟩

end Machine

end AirCompiler
