import AirCompiler.System.Basic
import AirCompiler.Proofs.Sharing.Plan
import AirCompiler.Proofs.System.Lowering

/-!
# Lowering of a whole system

The buckets are lowered one after another, in an arena that grows, and columns are numbered on from
bucket to bucket. So the rules of each bucket are derived from its own constraints, and the rules of
all buckets together are derived too (`Derived.append`), from the columns that the system started
with. `ConstraintSystem.Stage`: what is kept from bucket to bucket.

* `ConstraintSystem.lowerBucket_spec`: lowering one bucket succeeds and leads to the next stage.
* `ConstraintSystem.exists_lower_of_validate`: a validated system is lowered, in all its buckets.
* `ConstraintSystem.lower_spec`: a system that is lowered has passed validation.
-/

namespace AirCompiler

/-! ## Columns through several buckets -/

theorem Limits.columns_after (limits : Limits) (rules : Array Rule) (table : Table) :
    (limits.after rules).columns table =
      limits.columns table + rules.toList.countP fun rule => rule.column.table = table := by
  cases table with
  | main => simp only [after, columns, Array.countP_toList]; rfl
  | aux => simp only [after, columns, Array.countP_toList, Rule.not_isMain]

theorem Limits.after_append (limits : Limits) (rules more : List Rule) :
    limits.after (rules ++ more).toArray = (limits.after rules.toArray).after more.toArray := by
  simp only [after, List.countP_toArray, List.countP_append, Nat.cast_add, Int.add_assoc]

namespace Derived

variable {a : Arena} {limits : Limits} {given given' : Leaf → Prop} {rules more : List Rule}

theorem imp_given (h : Derived a limits given rules) (hg : ∀ x, given x → given' x) :
    Derived a limits given' rules := by
  induction h with
  | nil => exact .nil
  | snoc _ hd hc hdeg hv ih => exact .snoc ih hd hc hdeg fun x hx => (hv x hx).imp_left (hg x)

/-- The rules of one bucket after those of another. -/
theorem append (h : Derived a limits given rules)
    (h' : Derived a (limits.after rules.toArray) given more) :
    Derived a limits given (rules ++ more) := by
  induction h' with
  | nil => simpa using h
  | @snoc more last e _ hd hc hdeg hv ih =>
    rw [← List.append_assoc]
    refine .snoc ih hd ?_ hdeg fun x hx => (hv x hx).imp_right fun ⟨rule, hr, h⟩ =>
      ⟨rule, List.mem_append_right _ hr, h⟩
    rw [hc, Limits.column, Limits.column, Limits.columns_after, List.countP_append,
      Nat.cast_add, Int.add_assoc]

end Derived

/-! ## Handles -/

/-- The first handle names a constraint of the arena `a`, and the second what it was lowered to in
the arena `b`. -/
def Handle.LoweredFrom (a b : Arena) (given : Leaf → Prop) (rules : List Rule)
    (h h' : Handle) : Prop :=
  ∃ c d, a.circuit? h.id = some c ∧ b.circuit? h'.id = some d ∧ c.LoweredFrom b given rules d

theorem Arena.Extends.expr_eq {a b : Arena} (hab : a.Extends b) {c d : Circuit}
    (hc : c.arena = a) (hd : d.arena = b) (hid : d.id = c.id) : d.expr = c.expr :=
  Circuit.expr_of_unfolds (by rw [hd, hid]; exact hab.unfolds (hc ▸ c.unfolds_expr))

/-- What was lowered stays lowered in a larger arena. -/
theorem Handle.LoweredFrom.mono {a b b' : Arena} {limits : Limits}
    {given : Leaf → Prop} {rules : List Rule} (hrules : Derived b limits given rules)
    (hb : b.Extends b') {h h' : Handle} (hl : h.LoweredFrom a b given rules h') :
    h.LoweredFrom a b' given rules h' := by
  obtain ⟨c, d, hc, hd, hcd⟩ := hl
  obtain ⟨hda, hdi⟩ := Arena.circuit?_eq_some.1 hd
  obtain ⟨d', hd'⟩ := Arena.exists_circuit? (hb.lt (hdi ▸ hda ▸ d.isLt))
  obtain ⟨hda', hdi'⟩ := Arena.circuit?_eq_some.1 hd'
  have hexpr : d'.expr = d.expr := hb.expr_eq hda hda' (hdi'.trans hdi.symm)
  refine ⟨c, d', hc, hd', hda', hexpr ▸ hcd.isBase_eq, fun x hx => hcd.known x (hexpr ▸ hx),
    fun ρ hρ => ?_⟩
  rw [hexpr]
  refine hcd.value_eq ρ fun rule hr => ?_
  obtain ⟨e, he, -⟩ := hrules.exists_defines hr
  exact (hρ rule hr).of_extends hb he

theorem Handle.forall₂_circuits {a b : Arena} (hab : a.Extends b) {hs : List Handle}
    (h : ∀ x ∈ hs, x.id < a.size) :
    List.Forall₂ (fun (x : Handle) c => ∃ c₀, a.circuit? x.id = some c₀ ∧ c.expr = c₀.expr) hs
      (hs.filterMap fun x => b.circuit? x.id) := by
  induction hs with
  | nil => exact .nil
  | cons x hs ih =>
    have hx := h x List.mem_cons_self
    obtain ⟨c₀, hc₀⟩ := Arena.exists_circuit? hx
    obtain ⟨c, hc⟩ := Arena.exists_circuit? (hab.lt hx)
    obtain ⟨ha₀, hi₀⟩ := Arena.circuit?_eq_some.1 hc₀
    obtain ⟨ha, hi⟩ := Arena.circuit?_eq_some.1 hc
    rw [List.filterMap_cons, hc]
    exact .cons ⟨c₀, hc₀, hab.expr_eq ha₀ ha (hi.trans hi₀.symm)⟩
      (ih fun y hy => h y (List.mem_cons_of_mem x hy))

/-! ## Stages -/

namespace ConstraintSystem

theorem checkConstraint_of_validate {s : ConstraintSystem} (h : s.validate = .ok ()) {role : Role}
    {index : Nat} {x : Handle} (hx : (s.buckets.get role)[index]? = some x) :
    s.checkConstraint role index x = .ok () := by
  have hrole := forM_eq_ok_iff.1 h role role.mem_all
  exact forM_eq_ok_iff.1 hrole (x, index) (List.mem_zipIdx_iff_getElem?.2 hx)

/-- In a validated system every handle names a node, and only roles that look at two rows use the
next one. -/
theorem validate_eq_ok {s : ConstraintSystem} (h : s.validate = .ok ()) {role : Role} {x : Handle}
    (hx : x ∈ s.buckets.get role) :
    ∃ c, s.arena.circuit? x.id = some c ∧ (role.isDualRow = false → c.usesNextRow = false) := by
  obtain ⟨i, hi⟩ := List.getElem?_of_mem hx
  have hcheck := checkConstraint_of_validate h hi
  unfold checkConstraint at hcheck
  split at hcheck
  · cases hcheck
  · split at hcheck
    · cases hcheck
    · rename_i c hc
      refine ⟨c, hc, fun hd => ?_⟩
      split at hcheck
      · cases hcheck
      · rename_i hn
        simpa [hd] using hn

/-- Where lowering stands after the buckets of some roles. -/
structure Stage (s₀ : ConstraintSystem) (limits₀ : Limits) (done : List Role)
    (s : ConstraintSystem) (limits : Limits) (subs : Substitutions) : Prop where
  grown : s₀.arena.Extends s.arena
  shape_eq : s.shape = s₀.shape
  limits_eq : limits = limits₀.after (done.flatMap subs.rules.get).toArray
  /-- All rules together are derived from the variables of the system. -/
  derived : Derived s.arena limits₀ (fun x => ∃ role, Occurs (s₀.circuits role) x)
    (done.flatMap subs.rules.get)
  /-- The rules of a bucket are derived from its own variables, and its constraints are lowered by
  them. -/
  bucket : ∀ role ∈ done,
    (∃ limits', Derived s.arena limits' (Occurs (s₀.circuits role)) (subs.rules.get role)) ∧
    List.Forall₂
      (Handle.LoweredFrom s₀.arena s.arena (Occurs (s₀.circuits role)) (subs.rules.get role))
      (s₀.buckets.get role) (s.buckets.get role)
  owned : ∀ role ∈ done, ∀ x ∈ s.buckets.get role, x.owner = s.arena.name
  /-- The constraints and the rules have the target degree at most. -/
  bounded : ∀ role ∈ done, (∀ x ∈ s.buckets.get role, s.arena.DegreeLe limits₀.target x.id) ∧
    ∀ rule ∈ subs.rules.get role, s.arena.DegreeLe limits₀.target rule.constraint
  pending : ∀ role, role ∉ done → s.buckets.get role = s₀.buckets.get role

variable {s₀ s : ConstraintSystem} {limits₀ limits : Limits} {done : List Role}
  {subs : Substitutions}

theorem Stage.start (s₀ : ConstraintSystem) (limits₀ : Limits) (subs : Substitutions) :
    Stage s₀ limits₀ [] s₀ limits₀ subs where
  grown := .refl _
  shape_eq := rfl
  limits_eq := by simp [Limits.after]
  derived := .nil
  bucket := by simp
  owned := by simp
  bounded := by simp
  pending := fun _ _ => rfl

/-- The constraints that a pending bucket is lowered from are those of the system at the start. -/
theorem Stage.circuits (h : Stage s₀ limits₀ done s limits subs) (hv : s₀.validate = .ok ())
    {role : Role} (hr : role ∉ done) :
    List.Forall₂ (fun (x : Handle) c => ∃ c₀, s₀.arena.circuit? x.id = some c₀ ∧ c.expr = c₀.expr)
      (s₀.buckets.get role) (s.circuits role) := by
  rw [ConstraintSystem.circuits, h.pending role hr]
  refine Handle.forall₂_circuits h.grown fun x hx => ?_
  obtain ⟨c, hc, -⟩ := validate_eq_ok hv hx
  obtain ⟨ha, hi⟩ := Arena.circuit?_eq_some.1 hc
  exact hi ▸ ha ▸ c.isLt

theorem mem_circuits {role : Role} {c : Circuit} (h : c ∈ s.circuits role) :
    ∃ x ∈ s.buckets.get role, s.arena.circuit? x.id = some c := List.mem_filterMap.1 h

theorem loweredFrom_of_sound {a b : Arena} {given : Leaf → Prop} {handles : List Handle}
    {cs : List Circuit} {low : Lowered}
    (hcs : List.Forall₂ (fun (x : Handle) c => ∃ c₀, a.circuit? x.id = some c₀ ∧ c.expr = c₀.expr)
      handles cs) (hgiven : ∀ x, Occurs cs x → given x) (hsound : low.Sound limits cs b) :
    List.Forall₂ (Handle.LoweredFrom a b given low.rules.toList) handles
      (low.constraints.map Circuit.handle) := by
  rw [List.forall₂_map_right_iff]
  refine forall₂_comp hcs hsound.constraints ?_
  rintro x c d ⟨c₀, hc₀, hexpr⟩ hcd
  refine ⟨c₀, d, hc₀, Arena.circuit?_eq_some.2 ⟨hcd.arena_eq, rfl⟩, hcd.arena_eq,
    hexpr ▸ hcd.isBase_eq, fun v hv => (hcd.known v hv).imp_left (hgiven v), fun ρ hρ => ?_⟩
  rw [hcd.value_eq ρ hρ, hexpr]

theorem degreeLe_of_sound {b : Arena} {cs : List Circuit} {low : Lowered}
    (hsound : low.Sound limits cs b) (hle : maxDegree low.constraints ≤ limits.target) {x : Handle}
    (hx : x ∈ low.constraints.map Circuit.handle) : b.DegreeLe limits.target x.id := by
  obtain ⟨d, hd, rfl⟩ := List.mem_map.1 hx
  obtain ⟨c, -, hcd⟩ := forall₂_exists_left hsound.constraints hd
  refine ⟨d.expr, hcd.arena_eq ▸ d.unfolds_expr, ?_⟩
  rw [← d.degree_eq]
  exact (maxDegree_le_iff (by have := limits.two_le_target; omega) _).1 hle d hd

/-- Lowering a pending bucket leads to the next stage. -/
theorem lowerBucket_spec (h : Stage s₀ limits₀ done s limits subs) (hv : s₀.validate = .ok ())
    {role : Role} (hr : role ∉ done) :
    ∃ low s', lowerBucket limits role s = .ok low s' ∧
      Stage s₀ limits₀ (done ++ [role]) s' (limits.after low.rules)
        { subs with rules := subs.rules.set role low.rules.toList } := by
  have ha : ∀ c ∈ s.circuits role, c.arena = s.arena := fun c hc => by
    obtain ⟨x, -, hx⟩ := mem_circuits hc
    exact (Arena.circuit?_eq_some.1 hx).1
  obtain ⟨low, b, hrun, hb, hsound⟩ := Lower.bucket_spec limits ha
  have hcircuits := h.circuits hv hr
  have hoccurs : ∀ x, Occurs (s.circuits role) x → Occurs (s₀.circuits role) x := by
    rintro x ⟨c, hc, hx⟩
    obtain ⟨handle, hm, c₀, hc₀, hexpr⟩ := forall₂_exists_left hcircuits hc
    exact ⟨c₀, List.mem_filterMap.2 ⟨handle, hm, hc₀⟩, hexpr ▸ hx⟩
  have hold : ∀ r ∈ done, (subs.rules.set role low.rules.toList).get r = subs.rules.get r :=
    fun r hm => by
    rw [Buckets.get_set, if_neg fun (heq : r = role) => hr (heq ▸ hm)]
  have hnew : (subs.rules.set role low.rules.toList).get role = low.rules.toList := by
    rw [Buckets.get_set, if_pos rfl]
  have hrules : (done ++ [role]).flatMap (subs.rules.set role low.rules.toList).get =
      done.flatMap subs.rules.get ++ low.rules.toList := by
    rw [List.flatMap_append, List.flatMap_congr hold, List.flatMap_singleton, hnew]
  have hderived := hsound.derived.imp_given hoccurs
  have htarget : limits.target = limits₀.target := by
    rw [h.limits_eq]
    rfl
  refine ⟨low,
    { s with arena := b, buckets := s.buckets.set role (low.constraints.map Circuit.handle) }, ?_,
    h.grown.trans hb, h.shape_eq, ?_, ?_, fun r hm => ?_, fun r hm x hx => ?_,
      fun r hm => ?_, fun r hm => ?_⟩
  · simp only [lowerBucket, hrun]
  · rw [hrules, Limits.after_append, ← h.limits_eq, Array.toArray_toList]
  · rw [hrules]
    refine (h.derived.mono hb).append ?_
    rw [← h.limits_eq]
    exact hderived.imp_given fun x hx => ⟨role, hx⟩
  · -- the bucket at hand, or one that was lowered before it, in a smaller arena
    by_cases heq : r = role
    · subst heq
      rw [hnew, Buckets.get_set, if_pos rfl]
      exact ⟨⟨limits, hderived⟩, loweredFrom_of_sound hcircuits hoccurs hsound⟩
    · have hm : r ∈ done := by simpa [heq] using hm
      obtain ⟨⟨limits', hd⟩, hl⟩ := h.bucket r hm
      rw [hold r hm, Buckets.get_set, if_neg heq]
      exact ⟨⟨limits', hd.mono hb⟩, hl.imp fun _ _ => Handle.LoweredFrom.mono hd hb⟩
  · by_cases heq : r = role
    · subst heq
      rw [Buckets.get_set, if_pos rfl] at hx
      obtain ⟨d, hd, rfl⟩ := List.mem_map.1 hx
      obtain ⟨c, -, hcd⟩ := forall₂_exists_left hsound.constraints hd
      exact congrArg Arena.name hcd.arena_eq
    · rw [Buckets.get_set, if_neg heq] at hx
      exact (h.owned r (by simpa [heq] using hm) x hx).trans hb.name_eq.symm
  · by_cases heq : r = role
    · subst heq
      rw [hnew, Buckets.get_set, if_pos rfl, ← htarget]
      exact ⟨fun x => degreeLe_of_sound hsound (Lower.maxDegree_le_of_bucket ha hrun),
        hsound.bounded⟩
    · have hm : r ∈ done := by simpa [heq] using hm
      rw [hold r hm, Buckets.get_set, if_neg heq]
      exact ⟨fun x hx => ((h.bounded r hm).1 x hx).mono hb,
        fun rule hr => ((h.bounded r hm).2 rule hr).mono hb⟩
  · rw [List.mem_append, List.mem_singleton, not_or] at hm
    rw [Buckets.get_set, if_neg hm.2, h.pending r hm.1]

theorem lowerBuckets_spec (hv : s₀.validate = .ok ()) (roles : List Role)
    (h : Stage s₀ limits₀ done s limits subs) (hnodup : (done ++ roles).Nodup) :
    ∃ subs' s', lowerBuckets roles limits subs s = .ok subs' s' ∧
      ∃ limits', Stage s₀ limits₀ (done ++ roles) s' limits' subs' := by
  induction roles generalizing done s limits subs with
  | nil => exact ⟨subs, s, rfl, limits, by rwa [List.append_nil]⟩
  | cons role roles ih =>
    have hr : role ∉ done :=
      fun hm => (List.nodup_append.1 hnodup).2.2 role hm role List.mem_cons_self rfl
    obtain ⟨low, s₁, hlow, hstage⟩ := lowerBucket_spec h hv hr
    rw [List.append_cons] at hnodup ⊢
    obtain ⟨subs', s', hrun, hend⟩ := ih hstage hnodup
    exact ⟨subs', s', by rw [lowerBuckets, Build.bind_of_ok hlow, hrun], hend⟩

/-- A validated system is lowered, in all its buckets. -/
theorem exists_lower_of_validate {target : Int} (hv : s.validate = .ok ())
    (hlimits : Limits.check target s.shape.mainColumns s.shape.auxColumns = .ok limits₀) :
    ∃ subs s' limits, lower target s = .ok subs s' ∧ Stage s limits₀ Role.all s' limits subs := by
  obtain ⟨subs, s', hrun, limits, hstage⟩ :=
    lowerBuckets_spec hv Role.all (.start s limits₀ { Substitutions.empty with target := target })
      (by decide)
  refine ⟨subs, s', limits, ?_, hstage⟩
  unfold lower
  simp only [hv, hlimits, bind, Except.bind]
  exact hrun

/-- A system that is lowered has been validated, and all its buckets are lowered. -/
theorem lower_spec {target : Int} {s' : ConstraintSystem} (h : lower target s = .ok subs s') :
    s.validate = .ok () ∧ ∃ limits₀ limits, limits₀.mainColumns = s.shape.mainColumns ∧
      limits₀.auxColumns = s.shape.auxColumns ∧ Stage s limits₀ Role.all s' limits subs := by
  unfold lower at h
  simp only at h
  split at h
  · cases h
  · rename_i limits₀ hchecked
    obtain ⟨_, hv, hlimits⟩ := exists_of_bind_eq_ok hchecked
    obtain ⟨hmain, haux⟩ : limits₀.mainColumns = s.shape.mainColumns ∧
        limits₀.auxColumns = s.shape.auxColumns := by
      unfold Limits.check at hlimits
      split at hlimits
      · cases hlimits
        exact ⟨rfl, rfl⟩
      · cases hlimits
    obtain ⟨subs', s'', limits, hrun, hstage⟩ := exists_lower_of_validate hv hlimits
    unfold lower at hrun
    simp only [hchecked] at hrun
    rw [hrun] at h
    cases h
    exact ⟨hv, limits₀, limits, hmain, haux, hstage⟩

end ConstraintSystem

end AirCompiler
