import Mathlib.Data.List.Forall2

/-!
# Computations that may fail

Loops of `Except`: what a successful one went through, when it succeeds, and what it fails with.
`exists_eq_ok` and `exists_ok` are for runs that the kernel carries out.
-/

namespace AirCompiler

/-- A computation that succeeds went through all its steps. -/
theorem exists_of_bind_eq_ok {ε α β : Type} {x : Except ε α} {f : α → Except ε β} {v : β}
    (h : x >>= f = .ok v) : ∃ u, x = .ok u ∧ f u = .ok v := by
  cases x with
  | error e => cases h
  | ok u => exact ⟨u, rfl, h⟩

theorem exists_of_run_bind_eq_ok {ε σ α β : Type} {x : EStateM ε σ α}
    {f : α → EStateM ε σ β} {s s' : σ} {v : β} (h : (x >>= f) s = .ok v s') :
    ∃ u t, x s = .ok u t ∧ f u t = .ok v s' := by
  change EStateM.bind x f s = _ at h
  unfold EStateM.bind at h
  split at h
  · rename_i u t hx
    exact ⟨u, t, hx, h⟩
  · cases h

/-- Two steps succeed if and only if the first one does, and the second one on its result. -/
theorem exists_bind_iff {ε α β : Type} {x : Except ε α} {f : α → Except ε β} :
    (∃ v, x >>= f = .ok v) ↔ ∃ u, x = .ok u ∧ ∃ v, f u = .ok v := by
  cases x with
  | error e => simp [bind, Except.bind]
  | ok u => simp [bind, Except.bind]

/-- What holds at the start and is kept by every step of a fold holds at its end. What each step
finds out about its element holds of all elements. -/
theorem foldlM_forall {ε α β : Type} {P : β → Prop} {Q : α → Prop} {f : β → α → Except ε β}
    {xs : List α} (hstep : ∀ b x b', x ∈ xs → P b → f b x = .ok b' → P b' ∧ Q x) {b b' : β}
    (hb : P b) (h : xs.foldlM f b = .ok b') : P b' ∧ ∀ x ∈ xs, Q x := by
  induction xs generalizing b with
  | nil => cases h; exact ⟨hb, by simp⟩
  | cons x xs ih =>
    rw [List.foldlM_cons] at h
    obtain ⟨c, hc, h⟩ := exists_of_bind_eq_ok h
    obtain ⟨hp, hx⟩ := hstep b x c List.mem_cons_self hb hc
    obtain ⟨hp', hxs⟩ := ih (fun b y b' hy => hstep b y b' (List.mem_cons_of_mem x hy)) hp h
    exact ⟨hp', List.forall_mem_cons.2 ⟨hx, hxs⟩⟩

theorem foldlM_induction {ε α β : Type} {P : β → Prop} {f : β → α → Except ε β} {xs : List α}
    (hstep : ∀ b x b', x ∈ xs → P b → f b x = .ok b' → P b') {b b' : β} (hb : P b)
    (h : xs.foldlM f b = .ok b') : P b' :=
  (foldlM_forall (Q := fun _ => True)
    (fun b x b' hx hp hf => ⟨hstep b x b' hx hp hf, trivial⟩) hb h).1

/-- A fold succeeds if every step does, on what the steps before it keep. -/
theorem exists_foldlM {ε α β : Type} {P : β → Prop} {f : β → α → Except ε β} {xs : List α}
    (hstep : ∀ b x, x ∈ xs → P b → ∃ b', f b x = .ok b' ∧ P b') {b : β} (hb : P b) :
    ∃ b', xs.foldlM f b = .ok b' ∧ P b' := by
  induction xs generalizing b with
  | nil => exact ⟨b, rfl, hb⟩
  | cons x xs ih =>
    obtain ⟨c, hc, hp⟩ := hstep b x List.mem_cons_self hb
    obtain ⟨d, hd, hp⟩ := ih (fun b y hy => hstep b y (List.mem_cons_of_mem x hy)) hp
    refine ⟨d, ?_, hp⟩
    rw [List.foldlM_cons, hc]
    exact hd

/-- A fold that fails does so in one of its steps. -/
theorem exists_of_foldlM_eq_error {ε α β : Type} {f : β → α → Except ε β}
    {xs : List α} {b : β} {e : ε} (h : xs.foldlM f b = .error e) :
    ∃ b, ∃ x ∈ xs, f b x = .error e := by
  induction xs generalizing b with
  | nil => cases h
  | cons x xs ih =>
    rw [List.foldlM_cons] at h
    cases hx : f b x with
    | error e' =>
      rw [hx] at h
      cases h
      exact ⟨b, x, List.mem_cons_self, hx⟩
    | ok c =>
      rw [hx] at h
      obtain ⟨d, y, hy, hf⟩ := ih h
      exact ⟨d, y, List.mem_cons_of_mem x hy, hf⟩

/-- A loop of checks succeeds if and only if all of them do. -/
theorem forM_eq_ok_iff {ε α : Type} {f : α → Except ε Unit} {xs : List α} :
    xs.forM f = .ok () ↔ ∀ x ∈ xs, f x = .ok () := by
  induction xs with
  | nil => simp [List.forM, pure, Except.pure]
  | cons x xs ih =>
    rw [List.forall_mem_cons, ← ih]
    constructor
    · intro h
      obtain ⟨_, hx, h⟩ := exists_of_bind_eq_ok (show (f x >>= fun _ => xs.forM f) = .ok () from h)
      exact ⟨hx, h⟩
    · rintro ⟨hx, h⟩
      show (f x >>= fun _ => xs.forM f) = _
      rw [hx]
      exact h

theorem exists_of_forM_eq_error {ε α : Type} {f : α → Except ε Unit} {xs : List α} {e : ε}
    (h : xs.forM f = .error e) : ∃ x ∈ xs, f x = .error e := by
  induction xs with
  | nil => cases h
  | cons x xs ih =>
    change (f x >>= fun _ => xs.forM f) = _ at h
    cases hx : f x with
    | error e' =>
      rw [hx] at h
      cases h
      exact ⟨x, List.mem_cons_self, hx⟩
    | ok _ =>
      rw [hx] at h
      obtain ⟨y, hy, hf⟩ := ih h
      exact ⟨y, List.mem_cons_of_mem x hy, hf⟩

theorem mapM_eq_map {ε α β : Type} {f : α → Except ε β} {g : α → β} {xs : List α}
    (h : ∀ x ∈ xs, f x = .ok (g x)) : xs.mapM f = .ok (xs.map g) := by
  induction xs with
  | nil => rfl
  | cons x xs ih =>
    rw [List.mapM_cons, h x (by simp), ih fun y hy => h y (by simp [hy])]
    rfl

theorem exists_mapM_forall {ε α β : Type} {P : β → Prop} {f : α → Except ε β} {xs : List α}
    (h : ∀ x ∈ xs, ∃ y, f x = .ok y ∧ P y) : ∃ ys, xs.mapM f = .ok ys ∧ ∀ y ∈ ys, P y := by
  induction xs with
  | nil => exact ⟨[], rfl, by simp⟩
  | cons x xs ih =>
    obtain ⟨y, hy, hp⟩ := h x List.mem_cons_self
    obtain ⟨ys, hys, hps⟩ := ih fun z hz => h z (List.mem_cons_of_mem x hz)
    exact ⟨y :: ys, by rw [List.mapM_cons, hy, hys]; rfl, List.forall_mem_cons.2 ⟨hp, hps⟩⟩

theorem exists_mapM {ε α β : Type} {f : α → Except ε β} {xs : List α}
    (h : ∀ x ∈ xs, ∃ y, f x = .ok y) : ∃ ys, xs.mapM f = .ok ys := by
  obtain ⟨ys, hys, -⟩ := exists_mapM_forall (P := fun _ => True) fun x hx =>
    (h x hx).imp fun y hy => ⟨hy, trivial⟩
  exact ⟨ys, hys⟩

/-- A map that succeeds gives every element its result. -/
theorem forall₂_of_mapM_eq_ok {ε α β : Type} {f : α → Except ε β} {xs : List α} {ys : List β}
    (h : xs.mapM f = .ok ys) : List.Forall₂ (fun x y => f x = .ok y) xs ys := by
  induction xs generalizing ys with
  | nil => cases h; exact .nil
  | cons x xs ih =>
    rw [List.mapM_cons] at h
    obtain ⟨y, hy, h⟩ := exists_of_bind_eq_ok h
    obtain ⟨zs, hzs, h⟩ := exists_of_bind_eq_ok h
    cases h
    exact .cons hy (ih hzs)

theorem exists_of_mapM_eq_ok {ε α β : Type} {f : α → Except ε β} {xs : List α} {ys : List β}
    (h : xs.mapM f = .ok ys) {x : α} (hx : x ∈ xs) : ∃ y, f x = .ok y := by
  obtain ⟨k, hk, rfl⟩ := List.getElem_of_mem hx
  have hall := forall₂_of_mapM_eq_ok h
  exact ⟨_, hall.get hk (hall.length_eq ▸ hk)⟩

theorem mapM_eq_error {ε α β : Type} {f : α → Except ε β} {e : ε} {xs : List α}
    (h : ∀ x ∈ xs, (∃ y, f x = .ok y) ∨ f x = .error e) (hx : ∃ x ∈ xs, f x = .error e) :
    xs.mapM f = .error e := by
  induction xs with
  | nil => obtain ⟨x, hx, -⟩ := hx; cases hx
  | cons x xs ih =>
    rw [List.mapM_cons]
    rcases h x (by simp) with ⟨y, hy⟩ | hy
    · have hrest : ∃ x ∈ xs, f x = .error e := by
        obtain ⟨z, hz, hze⟩ := hx
        rcases List.mem_cons.1 hz with rfl | hz
        · rw [hy] at hze; cases hze
        · exact ⟨z, hz, hze⟩
      rw [hy, ih (fun z hz => h z (by simp [hz])) hrest]
      rfl
    · rw [hy]
      rfl

theorem mapError_eq_ok_iff {ε ε' α : Type} {f : ε → ε'} {x : Except ε α} {v : α} :
    x.mapError f = .ok v ↔ x = .ok v := by
  constructor
  · intro h
    cases x <;> cases h
    rfl
  · rintro rfl
    rfl

/-- A success found by computation. -/
theorem exists_eq_ok {ε α : Type} {x : Except ε α} {P : α → Prop} [DecidablePred P]
    (h : (match x with | .ok v => decide (P v) | .error _ => false) = true) :
    ∃ v, x = .ok v ∧ P v := by
  split at h
  · exact ⟨_, rfl, of_decide_eq_true h⟩
  · cases h

/-- A result found by computation. -/
theorem exists_ok {ε σ α : Type} {run : EStateM ε σ α} {s : σ} {P : α → σ → Prop}
    [∀ x s', Decidable (P x s')]
    (h : (match run s with | .ok x s' => decide (P x s') | .error _ _ => false) = true) :
    ∃ x s', run s = .ok x s' ∧ P x s' := by
  split at h
  · rename_i x s' hrun
    exact ⟨x, s', hrun, of_decide_eq_true h⟩
  · cases h

end AirCompiler
