import AirCompiler.Machine.Run

/-!
# Relations that instructions respect

An instruction changes a machine in few ways: it pops or pushes a word, pops one into memory, or
ends the run. `Respected i S`: the relation `S` between two machines survives the changes that `i`
makes. Then `i` takes related machines to related ones, and this holds of a machine that runs out
of words to pop as well (`Respected.execute`).

An invariant is a relation between a machine and itself (`Invariant.execute`).
-/

namespace AirCompiler

/-- The ways in which an instruction may end a run. Only an argument that is still an address leaves
the machine stuck. -/
def Instruction.MayEnd (i : Instruction) : Status → Prop
  | .running => False
  | .stuck _ => ∃ a, i.argument? = some (.address a)
  | .halted | .failed _ => True

namespace Machine

/-- The relation survives what the instruction does to both machines. -/
structure Respected (i : Instruction) (S : Machine → Machine → Prop) : Prop where
  stack_eq : ∀ {m n}, S m n → n.stack = m.stack
  pop : ∀ {m n w s}, S m n → m.stack = w :: s → S { m with stack := s } { n with stack := s }
  push : ∀ {m n} (w : Int), S m n → S (m.pushWord w) (n.pushWord w)
  stop : ∀ {m n status}, i.MayEnd status → S m n →
    S { m with status := status } { n with status := status }
  load_eq : ∀ {k}, i = .readMem k → ∀ {m n}, S m n → n.load = m.load
  record : ∀ {k}, i = .writeMem k → ∀ {m n w s} (address : Int), S m n → m.stack = w :: s →
    S (record { m with stack := s } address w) (record { n with stack := s } address w)

end Machine

/-! ## Operations -/

namespace Exec

/-- The same value or a failure both times, and related machines. -/
inductive Matches (S : Machine → Machine → Prop) {α : Type} :
    EStateM.Result Underflow Machine α → EStateM.Result Underflow Machine α → Prop
  | ok (v : α) {m n : Machine} (h : S m n) : Matches S (.ok v m) (.ok v n)
  | error (e : Underflow) {m n : Machine} (h : S m n) : Matches S (.error e m) (.error e n)

/-- From related machines the computation leads to related ones. -/
def Respects (S : Machine → Machine → Prop) {α : Type} (x : Exec α) : Prop :=
  ∀ m n, S m n → Matches S (x m) (x n)

namespace Respects

variable {S : Machine → Machine → Prop} {i : Instruction} {α β : Type}

theorem pure (v : α) : Respects S (Pure.pure v) := fun _ _ h => .ok v h

theorem bind {x : Exec α} {f : α → Exec β} (hx : Respects S x) (hf : ∀ v, Respects S (f v)) :
    Respects S (x >>= f) := by
  intro m n h
  have hr := hx m n h
  show Matches S (EStateM.bind x f m) (EStateM.bind x f n)
  rw [EStateM.bind, EStateM.bind]
  generalize x m = r, x n = r' at hr
  cases hr with
  | ok v h => exact hf v _ _ h
  | error e h => exact .error e h

theorem modify {f : Machine → Machine} (hf : ∀ m n, S m n → S (f m) (f n)) :
    Respects S (modify f : Exec PUnit) := fun m n h => .ok _ (hf m n h)

theorem forM {f : Nat → Exec PUnit} (hf : ∀ k, Respects S (f k)) (ks : List Nat) :
    Respects S (ks.forM f) := by
  induction ks with
  | nil => exact pure _
  | cons k ks ih => exact bind (hf k) fun _ => ih

variable (hS : Machine.Respected i S)
include hS

theorem pop : Respects S Exec.pop := by
  intro m n h
  rw [Exec.pop, Exec.pop, hS.stack_eq h]
  cases hs : m.stack with
  | nil => exact .error _ h
  | cons w s => exact .ok w (hS.pop h hs)

theorem push (w : Int) : Respects S (Exec.push w) := modify fun _ _ => hS.push w

theorem popExt : Respects S Exec.popExt :=
  bind (pop hS) fun _ => bind (pop hS) fun _ => bind (pop hS) fun _ => pure _

theorem extOperation (f : Ext → Ext → Ext) : Respects S (Exec.extOperation f) :=
  bind (popExt hS) fun _ => bind (popExt hS) fun _ =>
    modify fun _ _ h => hS.push _ (hS.push _ (hS.push _ h))

theorem drop (n : Nat) : Respects S (Exec.drop n) := by
  induction n with
  | zero => exact pure _
  | succ n ih => exact bind (pop hS) fun _ => ih

theorem stop {status : Status} (h : i.MayEnd status) : Respects S (Exec.stop status) :=
  modify fun _ _ => hS.stop h

theorem readWords {k : WordCount} (hi : i = .readMem k) (p : Int) (n : Nat) :
    Respects S (Exec.readWords p n) := by
  refine forM (fun j => modify fun m n h => ?_) _
  rw [hS.load_eq hi h]
  exact hS.push _ h

/-- The word that is written is the one that was popped. -/
theorem writeWord {k : WordCount} (hi : i = .writeMem k) (address : Int) :
    Respects S (Exec.writeWord address) := by
  intro m n h
  show Matches S (EStateM.bind Exec.pop _ m) (EStateM.bind Exec.pop _ n)
  rw [EStateM.bind, EStateM.bind, Exec.pop, Exec.pop, hS.stack_eq h]
  cases hs : m.stack with
  | nil => exact .error _ h
  | cons w s => exact .ok _ (hS.record hi address h hs)

theorem writeWords {k : WordCount} (hi : i = .writeMem k) (p : Int) (n : Nat) :
    Respects S (Exec.writeWords p n) := forM (fun _ => writeWord hS hi _) _

theorem instruction : Respects S (Exec.instruction i) := by
  cases i with
  | nop => exact pure _
  | push a =>
    cases a with
    | word n => exact push hS n
    | address a => exact stop hS ⟨a, rfl⟩
  | pop n => exact drop hS _
  | addi a =>
    cases a with
    | word n => exact bind (pop hS) fun _ => push hS _
    | address a => exact bind (pop hS) fun _ => stop hS ⟨a, rfl⟩
  | readMem n => exact bind (pop hS) fun _ => bind (readWords hS rfl _ _) fun _ => push hS _
  | writeMem n => exact bind (pop hS) fun _ => bind (writeWords hS rfl _ _) fun _ => push hS _
  | xxAdd => exact extOperation hS _
  | xxMul => exact extOperation hS _
  | halt => exact stop hS trivial
  | skiz | call | ret | recurse | recurseOrReturn => exact stop hS trivial

end Respects

end Exec

/-! ## Instructions -/

namespace Machine

variable {i : Instruction}

theorem Respected.execute {S : Machine → Machine → Prop} (hS : Respected i S) {m n : Machine}
    {pos : Nat} (h : S { m with pc := pos + 1 } { n with pc := pos + 1 }) :
    S (m.execute i pos) (n.execute i pos) := by
  have hr := Exec.Respects.instruction hS _ _ h
  rw [Machine.execute, Machine.execute]
  generalize Exec.instruction i { m with pc := pos + 1 } = r,
    Exec.instruction i { n with pc := pos + 1 } = r' at hr
  cases hr with
  | ok v h => exact h
  | error e h => exact hS.stop trivial h

/-- The property survives what the instruction does to a machine. -/
structure Invariant (i : Instruction) (I : Machine → Prop) : Prop where
  pop : ∀ {m w s}, I m → m.stack = w :: s → I { m with stack := s }
  push : ∀ {m} (w : Int), I m → I (m.pushWord w)
  stop : ∀ {m status}, i.MayEnd status → I m → I { m with status := status }
  record : ∀ {m w s} (address : Int), I m → m.stack = w :: s →
    I (record { m with stack := s } address w)

theorem Invariant.respected {I : Machine → Prop} (hI : Invariant i I) :
    Respected i fun m n => n = m ∧ I m where
  stack_eq := by
    rintro m n ⟨rfl, -⟩
    rfl
  pop := by
    rintro m n w s ⟨rfl, h⟩ hs
    exact ⟨rfl, hI.pop h hs⟩
  push := by
    rintro m n w ⟨rfl, h⟩
    exact ⟨rfl, hI.push w h⟩
  stop := by
    rintro m n status hstatus ⟨rfl, h⟩
    exact ⟨rfl, hI.stop hstatus h⟩
  load_eq := by
    rintro _ _ m n ⟨rfl, -⟩
    rfl
  record := by
    rintro _ _ m n w s address ⟨rfl, h⟩ hs
    exact ⟨rfl, hI.record address h hs⟩

theorem Invariant.execute {I : Machine → Prop} (hI : Invariant i I) {m : Machine} {pos : Nat}
    (h : I { m with pc := pos + 1 }) : I (m.execute i pos) :=
  (hI.respected.execute ⟨rfl, h⟩).2

end Machine

end AirCompiler
