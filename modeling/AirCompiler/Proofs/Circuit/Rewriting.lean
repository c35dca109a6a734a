import AirCompiler.Circuit.Substitute
import AirCompiler.Proofs.Circuit.Reach

/-!
# Rewriting

`Rewritten t v e e'`: the tree `e'` comes from `e` by putting `v` in the place of some occurrences
of `t` and combining the parts again. Such a rewriting keeps the value wherever `t` and `v` have one
value (`Rewritten.value_eq`), and brings in no variables but those of `v` (`Rewritten.mem_vars`).

`Rebuilt.Sound a target v done`: every id of `done` became what a substitution of `v` for `target`
makes of it, node by node.

* `Build.substitute_spec`: a substitution succeeds, extends the arena, and leaves such a table, in
  which every root stands.
* `Rebuilt.Sound.rewritten`: the tree of what an id became is rewritten from the tree of the id.
* `Rebuilt.Sound.card_operations_lt`: replacing an operation by a leaf leaves fewer operations below
  the roots.
-/

namespace AirCompiler

/-- The second tree is the first with `v` in the place of occurrences of `t`. -/
inductive Rewritten (t v : Expr) : Expr → Expr → Prop
  | replaced : Rewritten t v t v
  | kept (e : Expr) : Rewritten t v e e
  | rebuilt {op : Op} {x y x' y' z : Expr} : Rewritten t v x x' → Rewritten t v y y' →
      Combines op x' y' z → Rewritten t v (.operation op x y) z

namespace Rewritten

variable {t v e e' : Expr}

theorem value_eq (h : Rewritten t v e e') {ρ : Assignment} (hρ : v.value ρ = t.value ρ) :
    e'.value ρ = e.value ρ := by
  induction h with
  | replaced => exact hρ
  | kept => rfl
  | rebuilt _ _ hc ihx ihy => rw [hc.value_eq, ihx, ihy, Expr.value]

theorem mem_vars (h : Rewritten t v e e') {x : Leaf} (hx : x ∈ e'.vars) :
    x ∈ e.vars ∨ x ∈ v.vars := by
  induction h with
  | replaced => exact .inr hx
  | kept => exact .inl hx
  | rebuilt _ _ hc ihx ihy =>
    rw [Expr.vars, List.mem_append]
    rcases hc.mem_vars.1 hx with h | h
    · exact (ihx h).imp_left .inl
    · exact (ihy h).imp_left .inr

theorem isBase_eq (h : Rewritten t v e e') (hv : v.isBase = t.isBase) : e'.isBase = e.isBase := by
  induction h with
  | replaced => exact hv
  | kept => rfl
  | rebuilt _ _ hc ihx ihy => rw [hc.isBase_eq, ihx, ihy, Expr.isBase]

end Rewritten

/-- What a node becomes when its operands became what `done` says: a leaf stays, an operation joins
what its operands became. -/
inductive Rebuilt.Becomes (a : Arena) (done : Rebuilt) : Nat → Nat → Prop
  | leaf {i : Nat} {x : Leaf} : a.label? i = some (.leaf x) → Becomes a done i i
  | joined {i k l r : Nat} {op : Op} {x y : Handle} : a.label? i = some (.binary op l r) →
      done[l]? = some x → done[r]? = some y → a.Joins op x.id y.id k → Becomes a done i k

/-- What the ids became when `v` was put in the place of `target`, which need not be the id of a
node. -/
structure Rebuilt.Sound (a : Arena) (target : Int) (v : Nat) (done : Rebuilt) : Prop where
  owner : ∀ (i : Nat) (x : Handle), done[i]? = some x → x.owner = a.name
  lt_size : v < a.size
  replaced : ∀ i : Nat, i = target → ∃ x : Handle, done[i]? = some x ∧ x.id = v
  rebuilt : ∀ (i : Nat) (x : Handle), done[i]? = some x → i ≠ target → done.Becomes a i x.id

namespace Rebuilt

variable {a b : Arena} {target : Int} {v : Nat} {done : Rebuilt}

theorem contains_insert (done : Rebuilt) (i j : Nat) (x : Handle) :
    (done.insert i x).contains j = true ↔ done.contains j = true ∨ j = i := by
  rw [Std.TreeMap.contains_insert, Bool.or_eq_true, beq_iff_eq, Std.LawfulEqOrd.compare_eq_iff_eq,
    or_comm, eq_comm (a := i)]

theorem exists_getElem? {i : Nat} (h : done.contains i = true) : ∃ x, done[i]? = some x := by
  rw [Std.TreeMap.contains_eq_isSome_getElem?] at h
  exact Option.isSome_iff_exists.1 h

theorem eq_or_getElem?_of_insert {i j : Nat} {x y : Handle} (h : (done.insert i x)[j]? = some y) :
    j = i ∧ y = x ∨ done[j]? = some y := by
  rw [Std.TreeMap.getElem?_insert] at h
  split at h
  · rename_i hij
    rw [Std.LawfulEqOrd.compare_eq_iff_eq] at hij
    exact .inl ⟨hij.symm, (Option.some.inj h).symm⟩
  · exact .inr h

theorem getElem?_insert_of_new {i j : Nat} {x y : Handle} (hi : done.contains i = false)
    (hj : done[j]? = some y) : (done.insert i x)[j]? = some y := by
  have hne : i ≠ j := by
    rintro rfl
    rw [Std.TreeMap.contains_eq_isSome_getElem?, hj] at hi
    cases hi
  rw [Std.TreeMap.getElem?_insert, if_neg (by rwa [Std.LawfulEqOrd.compare_eq_iff_eq]), hj]

theorem Becomes.mono {i k : Nat} (h : done.Becomes a i k) (hab : a.Extends b) :
    done.Becomes b i k := by
  cases h with
  | leaf hl => exact .leaf (hab.label? hl)
  | joined hl hx hy hj => exact .joined (hab.label? hl) hx hy (hj.mono hab)

theorem Becomes.insert {i j k : Nat} (h : done.Becomes a i k) {x : Handle}
    (hj : done.contains j = false) : Becomes a (done.insert j x) i k := by
  cases h with
  | leaf hl => exact .leaf hl
  | joined hl hx hy hjoin =>
    exact .joined hl (getElem?_insert_of_new hj hx) (getElem?_insert_of_new hj hy) hjoin

namespace Sound

theorem mono (h : Sound a target v done) (hab : a.Extends b) : Sound b target v done :=
  ⟨fun i x hx => (h.owner i x hx).trans hab.name_eq.symm, hab.lt h.lt_size, h.replaced,
    fun i x hx hi => (h.rebuilt i x hx hi).mono hab⟩

theorem insert (h : Sound a target v done) {i : Nat} {x : Handle} (hi : done.contains i = false)
    (ho : x.owner = a.name) (hx : done.Becomes a i x.id) : Sound a target v (done.insert i x) := by
  refine ⟨?_, h.lt_size, ?_, ?_⟩
  · intro j y hy
    rcases eq_or_getElem?_of_insert hy with ⟨rfl, rfl⟩ | hy
    · exact ho
    · exact h.owner j y hy
  · intro j hj
    obtain ⟨y, hy, hv⟩ := h.replaced j hj
    exact ⟨y, getElem?_insert_of_new hi hy, hv⟩
  · intro j y hy hj
    rcases eq_or_getElem?_of_insert hy with ⟨rfl, rfl⟩ | hy
    · exact hx.insert hi
    · exact (h.rebuilt j y hy hj).insert hi

theorem start (target : Int) (hv : v < a.size) :
    Sound a target v (Build.replacing target ⟨a.name, v⟩) := by
  have hcases : ∀ (j : Nat) y, (Build.replacing target ⟨a.name, v⟩)[j]? = some y → j = target ∧
      y = ⟨a.name, v⟩ := by
    intro j y hy
    cases target with
    | ofNat n =>
      change ((∅ : Rebuilt).insert n ⟨a.name, v⟩)[j]? = some y at hy
      obtain ⟨rfl, rfl⟩ := (eq_or_getElem?_of_insert hy).resolve_right (by simp)
      exact ⟨rfl, rfl⟩
    | negSucc n =>
      change (∅ : Rebuilt)[j]? = some y at hy
      simp at hy
  refine ⟨?_, hv, ?_, ?_⟩
  · intro j y hy
    rw [(hcases j y hy).2]
  · rintro i rfl
    exact ⟨⟨a.name, v⟩, Std.TreeMap.getElem?_insert_self, rfl⟩
  · intro j y hy hj
    exact absurd (hcases j y hy).1 hj

theorem lt (h : Sound a target v done) {i : Nat} {x : Handle} (hx : done[i]? = some x) :
    x.id < a.size := by
  by_cases hi : (i : Int) = target
  · obtain ⟨y, hy, rfl⟩ := h.replaced i hi
    rw [hx, Option.some.injEq] at hy
    exact hy ▸ h.lt_size
  · cases h.rebuilt i x hx hi with
    | leaf hl => exact Arena.lt_of_label? hl
    | joined _ _ _ hjoin => exact hjoin.lt

/-- What an id became has a tree rewritten from the tree of the id. -/
theorem rewritten {chosen : Nat} (h : Sound a chosen v done) {t w : Expr} (ht : a.Unfolds chosen t)
    (hw : a.Unfolds v w) {i : Nat} {x : Handle} (hx : done[i]? = some x) :
    ∃ e e', a.Unfolds i e ∧ a.Unfolds x.id e' ∧ Rewritten t w e e' := by
  induction i using Nat.strongRecOn generalizing x with
  | ind i ih =>
    by_cases hi : (i : Int) = chosen
    · obtain ⟨y, hy, rfl⟩ := h.replaced i hi
      rw [hx, Option.some.injEq] at hy
      obtain rfl := Int.natCast_inj.1 hi
      exact ⟨t, w, ht, hy ▸ hw, .replaced⟩
    · cases h.rebuilt i x hx hi with
      | leaf hl => exact ⟨_, _, .leaf hl, .leaf hl, .kept _⟩
      | joined hl hy hz hjoin =>
        obtain ⟨hlt, hrt⟩ := Arena.operands_lt hl
        obtain ⟨e, e', he, he', hrw⟩ := ih _ hlt hy
        obtain ⟨f, f', hf, hf', hrw'⟩ := ih _ hrt hz
        obtain ⟨z, hz, hcomb⟩ := hjoin.unfolds he' hf'
        exact ⟨_, z, .operation hl he hf, hz, .rebuilt hrw hrw' hcomb⟩

/-- When a leaf was put in, an operation below what an id became is what another operation below the
id became. -/
theorem exists_of_reaches (h : Sound a target v done) {s : Leaf} (hv : a.label? v = some (.leaf s))
    {i k : Nat} {x : Handle} (hx : done[i]? = some x) (hk : a.Reaches x.id k)
    (hop : a.IsOperation k) :
    ∃ (j : Nat) (y : Handle), done[j]? = some y ∧ y.id = k ∧ j ≠ target ∧ a.Reaches i j ∧
      a.IsOperation j := by
  -- a walk down from what `i` became follows one down from `i`, and ends at a leaf where the target
  -- was
  have hleaf : ∀ {u s}, a.label? u = some (.leaf s) → ¬ a.Reaches u k := by
    intro u s hu hr
    rw [Arena.reaches_leaf hu] at hr
    exact Arena.not_isOperation_leaf hu (hr ▸ hop)
  induction i using Nat.strongRecOn generalizing x with
  | ind i ih =>
    by_cases hi : (i : Int) = target
    · obtain ⟨y, hy, rfl⟩ := h.replaced i hi
      rw [hx, Option.some.injEq] at hy
      exact absurd (hy ▸ hk) (hleaf hv)
    · cases h.rebuilt i x hx hi with
      | leaf hl => exact absurd hk (hleaf hl)
      | joined hl hy hz hjoin =>
        obtain ⟨hp, hq⟩ := Arena.operands_lt hl
        rcases hk.cases_head with heq | ⟨w, hstep, hw⟩
        · exact ⟨i, x, hx, heq, hi, .refl, _, _, _, hl⟩
        · rcases hjoin.eq_or_eq hstep with rfl | rfl
          · obtain ⟨j, u, hu, hid, hj, hr, hlab⟩ := ih _ hp hy hw
            exact ⟨j, u, hu, hid, hj, .head ⟨_, _, _, hl, .inl rfl⟩ hr, hlab⟩
          · obtain ⟨j, u, hu, hid, hj, hr, hlab⟩ := ih _ hq hz hw
            exact ⟨j, u, hu, hid, hj, .head ⟨_, _, _, hl, .inr rfl⟩ hr, hlab⟩

/-- When a leaf is put in the place of an operation, fewer operations remain. -/
theorem card_operations_lt {chosen : Nat} (h : Sound a chosen v done) {s : Leaf}
    (hv : a.label? v = some (.leaf s)) {cs ds : List Circuit} (hcs : ∀ c ∈ cs, c.arena.Extends a)
    (hds : ∀ d ∈ ds, d.arena = a ∧ ∃ c ∈ cs, ∃ x, done[c.id]? = some x ∧ d.id = x.id)
    (ht : chosen ∈ operations cs) : (operations ds).card < (operations cs).card := by
  -- every operation that remains comes from one that was there, and none from the target
  have hsub : operations ds ⊆
      ((operations cs).erase chosen).image fun i => (done[i]?.getD ⟨0, 0⟩).id := by
    intro k hk
    obtain ⟨d, hd, hr, hop⟩ := mem_operations.1 hk
    obtain ⟨hda, c, hc, x, hx, hid⟩ := hds d hd
    rw [hda, hid] at hr
    rw [hda] at hop
    obtain ⟨j, y, hy, rfl, hj, hreach, hlab⟩ := h.exists_of_reaches hv hx hr hop
    have hbelow := ((hcs c hc).reaches_iff c.isLt).1 hreach
    rw [Arena.IsOperation, (hcs c hc).label?_eq (Nat.lt_of_le_of_lt hbelow.le c.isLt)] at hlab
    refine Finset.mem_image.2 ⟨j, Finset.mem_erase.2 ⟨?_, mem_operations.2 ⟨c, hc, hbelow, hlab⟩⟩,
      by rw [hy]; rfl⟩
    exact fun h => hj (Int.natCast_inj.2 h)
  calc (operations ds).card ≤ _ := Finset.card_le_card hsub
    _ ≤ ((operations cs).erase chosen).card := Finset.card_image_le
    _ < (operations cs).card := Finset.card_erase_lt_of_mem ht

end Sound

end Rebuilt

namespace Build

variable {a : Arena} {target : Int} {v : Nat} {done : Rebuilt}

theorem rebuild_spec {n : Node} (hn : a.label? n.id = some n.label)
    (hd : Rebuilt.Sound a target v done) (hnew : done.contains n.id = false)
    (hc : ∀ j ∈ n.label.children, done.contains j = true) :
    ∃ done' b, rebuild a.name done n a = .ok done' b ∧ a.Extends b ∧
      Rebuilt.Sound b target v done' ∧
      ∀ j, done'.contains j = true ↔ done.contains j = true ∨ j = n.id := by
  unfold rebuild
  cases hl : n.label with
  | leaf x =>
    rw [hl] at hn
    exact ⟨_, a, rfl, .refl a, hd.insert hnew rfl (.leaf hn),
      fun j => Rebuilt.contains_insert done n.id j _⟩
  | binary op l r =>
    rw [hl] at hn hc
    obtain ⟨x, hx⟩ := Rebuilt.exists_getElem? (hc l (by simp [Label.children]))
    obtain ⟨y, hy⟩ := Rebuilt.exists_getElem? (hc r (by simp [Label.children]))
    simp only [hx, hy]
    split
    · -- both operands became themselves, so the node stays
      rename_i hkept
      refine ⟨_, a, rfl, .refl a, hd.insert hnew rfl (.joined hn hx hy (.inl ?_)),
        fun j => Rebuilt.contains_insert done n.id j _⟩
      rw [hkept.1, hkept.2]
      exact hn
    · obtain ⟨i, b, hcomb, hab, hjoin⟩ := combine_spec op (hd.lt hx) (hd.lt hy)
      refine ⟨_, b, ?_, hab, (hd.mono hab).insert (x := ⟨a.name, i⟩) hnew hab.name_eq.symm
        (.joined (hab.label? hn) hx hy hjoin), fun j => Rebuilt.contains_insert done n.id j _⟩
      rw [bind_of_ok (show binop op (.circuit x) (.circuit y) a = .ok i b from ?_)]
      · rfl
      · rw [binop, bind_of_ok (operand_circuit (hd.owner l x hx)),
          bind_of_ok (operand_circuit (hd.owner r y hy))]
        exact hcomb

/-- Along a listing whose skipped ids are rebuilt, every node is rebuilt. -/
theorem rebuild_listing {l : Arena} (hla : l.Extends a) {ns : List Node}
    (h : Listing l done.contains ns) (hd : Rebuilt.Sound a target v done) :
    ∃ done' b, (ns.foldlM (rebuild a.name) done : Build Rebuilt) a = .ok done' b ∧ a.Extends b ∧
      Rebuilt.Sound b target v done' ∧
      ∀ j, done'.contains j = true ↔ done.contains j = true ∨ j ∈ ns.map Node.id := by
  induction h with
  | nil => exact ⟨done, a, rfl, .refl a, hd, by simp⟩
  | @snoc ns n _ hn hskip hnew hc ih =>
    obtain ⟨done₁, b₁, h₁, e₁, hd₁, hk₁⟩ := ih
    have hlab : b₁.label? n.id = some n.label := e₁.label? (hla.label? (Arena.label?_of_node? hn))
    have hfresh : done₁.contains n.id = false := by
      rw [← Bool.not_eq_true, hk₁, hskip]
      simpa using hnew
    obtain ⟨done₂, b₂, h₂, e₂, hd₂, hk₂⟩ :=
      rebuild_spec hlab hd₁ hfresh fun j hj => (hk₁ j).2 (hc j hj)
    refine ⟨done₂, b₂, ?_, e₁.trans e₂, hd₂, fun j => ?_⟩
    · rw [List.foldlM_append, bind_of_ok h₁, List.foldlM_cons, ← e₁.name_eq, bind_of_ok h₂]
      rfl
    · rw [hk₂, hk₁]
      simp [or_assoc]

theorem rebuildRoot_spec {root : Nat} (hr : root < a.size) (hd : Rebuilt.Sound a target v done) :
    ∃ done' b, rebuildRoot a.name done root a = .ok done' b ∧ a.Extends b ∧
      Rebuilt.Sound b target v done' ∧
      (∀ j, done.contains j = true → done'.contains j = true) ∧ done'.contains root = true := by
  unfold rebuildRoot
  split
  · rename_i h
    exact ⟨done, a, rfl, .refl a, hd, fun _ h => h, h⟩
  · rename_i hs
    obtain ⟨n, hn⟩ := Arena.exists_node? hr
    simp only [hn]
    obtain ⟨hl, hm⟩ := Arena.listing_postorder done.contains hn
    obtain ⟨done', b, h, e, hd', hk⟩ := rebuild_listing (.refl a) hl hd
    exact ⟨done', b, h, e, hd', fun j hj => (hk j).2 (.inl hj), (hk root).2 hm⟩

theorem rebuildRoots_spec {roots : List Nat} (hr : ∀ r ∈ roots, r < a.size)
    (hd : Rebuilt.Sound a target v done) :
    ∃ done' b, (roots.foldlM (rebuildRoot a.name) done : Build Rebuilt) a = .ok done' b ∧
      a.Extends b ∧
      Rebuilt.Sound b target v done' ∧ (∀ j, done.contains j = true → done'.contains j = true) ∧
      ∀ r ∈ roots, done'.contains r = true := by
  induction roots generalizing a done with
  | nil => exact ⟨done, a, rfl, .refl a, hd, fun _ h => h, by simp⟩
  | cons root roots ih =>
    obtain ⟨done₁, b₁, h₁, e₁, hd₁, hk₁, hroot⟩ := rebuildRoot_spec (hr root (by simp)) hd
    obtain ⟨done₂, b₂, h₂, e₂, hd₂, hk₂, hroots⟩ := ih (fun r hm => e₁.lt (hr r (by simp [hm]))) hd₁
    rw [e₁.name_eq] at h₂
    refine ⟨done₂, b₂, ?_, e₁.trans e₂, hd₂, fun j hj => hk₂ j (hk₁ j hj), ?_⟩
    · rw [List.foldlM_cons, bind_of_ok h₁]
      exact h₂
    · intro r hm
      rcases List.mem_cons.1 hm with rfl | hm
      · exact hk₂ r hroot
      · exact hroots r hm

/-- A substitution succeeds, and gives for every root what it became. -/
theorem substitute_spec (roots : List Nat) (hr : ∀ r ∈ roots, r < a.size)
    (target : Int) (hv : v < a.size) :
    ∃ done hs b, substitute roots target ⟨a.name, v⟩ a = .ok hs b ∧ a.Extends b ∧
      Rebuilt.Sound b target v done ∧ List.Forall₂ (fun r h => done[r]? = some h) roots hs := by
  obtain ⟨done, b, h, hab, hd, -, hroots⟩ := rebuildRoots_spec hr (Rebuilt.Sound.start target hv)
  refine ⟨done, roots.map fun r => done[r]?.getD ⟨a.name, r⟩, b, ?_, hab, hd, ?_⟩
  · show (do
      let done ← (roots.foldlM (rebuildRoot a.name) (replacing target ⟨a.name, v⟩) : Build Rebuilt)
      return roots.map fun r => done[r]?.getD ⟨a.name, r⟩ : Build (List Handle)) a = _
    rw [bind_of_ok h]
    rfl
  · rw [List.forall₂_map_right_iff, List.forall₂_same]
    intro r hm
    obtain ⟨x, hx⟩ := Rebuilt.exists_getElem? (hroots r hm)
    rw [hx]
    rfl

end Build

end AirCompiler
