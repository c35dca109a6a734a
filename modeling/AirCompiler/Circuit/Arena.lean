import AirCompiler.Circuit.Node
import Std.Data.TreeMap

/-!
# Arenas

An arena holds the nodes of a circuit at their ids. Children stand before their parents. Interning a
label finds the node that carries it, or appends a new one; so every label stands at one id only,
and the index finds it there. As the operations are commutative, an operation stands in one order of
its operands only, and an operation on two constants not at all.
-/

namespace AirCompiler

/-- Nodes in the order of their ids, each after its children. The name tells arenas apart. -/
structure Arena where
  name : Nat
  /-- The ids of labels, by their keys. -/
  index : Std.TreeMap (List Int) Nat
  nodes : Array Node
  ordered : ∀ (i : Nat) (h : i < nodes.size), nodes[i].label.rank ≤ i
  indexed : ∀ (l : Label) (i : Nat), index[l.key]? = some i ↔ nodes[i]?.map Node.label = some l
  fitted : ∀ (i : Nat) (h : i < nodes.size), nodes[i].Fits nodes i
  oriented : ∀ (op : Op) (l r i j : Nat), nodes[i]?.map Node.label = some (.binary op l r) →
    nodes[j]?.map Node.label = some (.binary op r l) → i = j

namespace Arena

/-- The arena without nodes. -/
def empty (name : Nat) : Arena where
  name := name
  index := ∅
  nodes := #[]
  ordered := by intro i h; simp at h
  indexed := by simp
  fitted := by intro i h; simp at h
  oriented := by simp

/-- The number of nodes, and the id of the next one. -/
def size (a : Arena) : Nat := a.nodes.size

/-- The node of an id. -/
def node? (a : Arena) (i : Nat) : Option Node := a.nodes[i]?

/-- A node's rank is at most the id that it is found at. -/
theorem rank_le_of_node? {a : Arena} {i : Nat} {n : Node} (h : a.node? i = some n) :
    n.label.rank ≤ i := by
  obtain ⟨hi, rfl⟩ := Array.getElem?_eq_some_iff.1 h
  exact a.ordered i hi

/-- The id that carries a label. -/
def find? (a : Arena) (l : Label) : Option Nat := a.index[l.key]?

/-- A label is found at the id whose node carries it, and nowhere else. -/
theorem find?_eq_some_iff {a : Arena} {l : Label} {i : Nat} :
    a.find? l = some i ↔ (a.node? i).map Node.label = some l := a.indexed l i

/-- The node that a label becomes when it is appended. -/
def fresh (a : Arena) (l : Label) : Node := ⟨a.size, l, l.degreeIn a.nodes, l.isBaseIn a.nodes, 1⟩

/-- Whether a label may be appended: its operands are there, they are not both constants, and the
operation does not stand in the other order. -/
structure Admits (a : Arena) (l : Label) : Prop where
  rank_le : l.rank ≤ a.size
  unfolded : l.foldIn a.nodes = none
  oriented : l.isBinary → a.find? l.swap = none

/-- A leaf may always be appended. -/
theorem admits_leaf (a : Arena) (x : Leaf) : a.Admits (.leaf x) :=
  ⟨Nat.zero_le _, rfl, by simp [Label.isBinary]⟩

/-- Appends a node for a label that no node carries. -/
def push (a : Arena) (l : Label) (h : a.Admits l) (hl : a.find? l = none) : Arena where
  name := a.name
  index := a.index.insert l.key a.size
  nodes := a.nodes.push (a.fresh l)
  ordered := by
    intro i hi
    rw [Array.getElem_push]
    split
    · exact a.ordered i _
    · have : i = a.nodes.size := by rw [Array.size_push] at hi; omega
      rw [this]
      exact h.rank_le
  indexed := by
    intro l' i
    have old := a.indexed l' i
    rw [Std.TreeMap.getElem?_insert, Array.getElem?_push]
    by_cases hi : i = a.nodes.size
    · subst hi
      by_cases hk : l = l'
      · subst hk
        simp [size, fresh]
      · have : ¬ compare l.key l'.key = .eq := by
          rw [Std.LawfulEqOrd.compare_eq_iff_eq]
          exact fun h => hk (Label.key_injective h)
        simp [this, old, fresh, hk]
    · by_cases hk : l = l'
      · subst hk
        have : ¬ a.nodes[i]?.map Node.label = some l := by
          rw [← old]
          simp [show a.index[l.key]? = none from hl]
        simp [hi, size, this, Ne.symm hi]
      · have : ¬ compare l.key l'.key = .eq := by
          rw [Std.LawfulEqOrd.compare_eq_iff_eq]
          exact fun h => hk (Label.key_injective h)
        simp [this, old, hi]
  fitted := by
    intro i hi
    rw [Array.getElem_push]
    split
    · rename_i hlt
      obtain ⟨h₁, h₂, h₃, h₄⟩ := a.fitted i hlt
      obtain ⟨e₂, e₃, e₄⟩ :=
        Label.in_push (Nat.le_of_lt (Nat.lt_of_le_of_lt (a.ordered i hlt) hlt)) (a.fresh l)
      exact ⟨h₁, by rw [h₂, e₂], by rw [h₃, e₃], by rw [e₄, h₄]⟩
    · have : i = a.nodes.size := by rw [Array.size_push] at hi; omega
      subst this
      obtain ⟨e₂, e₃, e₄⟩ := Label.in_push h.rank_le (a.fresh l)
      exact ⟨rfl, e₂.symm, e₃.symm, e₄.trans h.unfolded⟩
  oriented := by
    intro op x y i j hi hj
    rw [Array.getElem?_push] at hi hj
    split at hi <;> split at hj
    · rename_i hi' hj'
      exact hi'.trans hj'.symm
    · -- the new label would be found in the other order at `j`
      have hn : l = .binary op x y := by simpa [fresh] using hi
      have hf := h.oriented (by rw [hn]; rfl)
      rw [hn, Label.swap] at hf
      rw [find?, (a.indexed (.binary op y x) j).2 hj] at hf
      cases hf
    · have hn : l = .binary op y x := by simpa [fresh] using hj
      have hf := h.oriented (by rw [hn]; rfl)
      rw [hn, Label.swap] at hf
      rw [find?, (a.indexed (.binary op x y) i).2 hi] at hf
      cases hf
    · exact a.oriented op x y i j hi hj

/-- Counts one more construction that led to node `i`. -/
def touch (a : Arena) (i : Nat) : Arena where
  name := a.name
  index := a.index
  nodes := a.nodes.modify i Node.touch
  ordered := by
    intro j hj
    rw [Array.getElem_modify]
    split
    · rw [Node.label_touch]
      exact a.ordered j _
    · exact a.ordered j _
  indexed := by
    intro l j
    rw [a.indexed l j, Array.getElem?_modify]
    split
    · cases a.nodes[j]? <;> simp
    · rfl
  fitted := by
    intro j hj
    have hj' : j < a.nodes.size := by rwa [Array.size_modify] at hj
    obtain ⟨h₁, h₂, h₃, h₄⟩ := a.fitted j hj'
    obtain ⟨e₂, e₃, e₄⟩ := Label.in_modify_touch a.nodes i a.nodes[j].label
    rw [Array.getElem_modify]
    split
    · exact ⟨h₁, h₂.trans e₂.symm, h₃.trans e₃.symm, e₄.trans h₄⟩
    · exact ⟨h₁, h₂.trans e₂.symm, h₃.trans e₃.symm, e₄.trans h₄⟩
  oriented := by
    have hm : ∀ j : Nat, (a.nodes.modify i Node.touch)[j]?.map Node.label =
        a.nodes[j]?.map Node.label := by
      intro j
      rw [Array.getElem?_modify]
      split
      · cases a.nodes[j]? <;> rfl
      · rfl
    intro op x y j k hj hk
    rw [hm] at hj hk
    exact a.oriented op x y j k hj hk

@[simp] theorem name_push (a : Arena) (l : Label) (h : a.Admits l) (hl : a.find? l = none) :
    (a.push l h hl).name = a.name := rfl

@[simp] theorem size_push (a : Arena) (l : Label) (h : a.Admits l) (hl : a.find? l = none) :
    (a.push l h hl).size = a.size + 1 := Array.size_push _

/-- Appending keeps every node. -/
theorem node?_push_of_lt (a : Arena) (l : Label) (h : a.Admits l) (hl : a.find? l = none) {i : Nat}
    (hi : i < a.size) : (a.push l h hl).node? i = a.node? i := by
  simp only [node?, push, Array.getElem?_push]
  exact if_neg (Nat.ne_of_lt hi)

@[simp] theorem name_touch (a : Arena) (i : Nat) : (a.touch i).name = a.name := rfl

@[simp] theorem size_touch (a : Arena) (i : Nat) : (a.touch i).size = a.size := Array.size_modify

/-- The count of constructions is all that `touch` changes. -/
theorem node?_touch (a : Arena) (i j : Nat) :
    (a.touch i).node? j = if i = j then (a.node? j).map Node.touch else a.node? j :=
  Array.getElem?_modify

/-- The id of the label, appended if it is new. -/
def intern (a : Arena) (l : Label) (h : a.Admits l) : Nat × Arena :=
  match hl : a.find? l with
  | some i => (i, a.touch i)
  | none => (a.size, a.push l h hl)

end Arena

/-- A node of some arena, named by the arena and the id. -/
structure Handle where
  owner : Nat
  id : Nat
  deriving DecidableEq

/-- A circuit: a node of an arena, with everything below it. -/
structure Circuit where
  arena : Arena
  id : Nat
  isLt : id < arena.nodes.size

namespace Circuit

/-- The root node. -/
def node (c : Circuit) : Node :=
  have := c.isLt
  c.arena.nodes[c.id]

def handle (c : Circuit) : Handle := ⟨c.arena.name, c.id⟩

/-- The degree of the circuit as a polynomial in cells and challenges. -/
def degree (c : Circuit) : Nat := c.node.degree

/-- Whether the circuit takes its values in the base field. -/
def isBase (c : Circuit) : Bool := c.node.isBase

end Circuit

/-- The circuit rooted at an id. -/
def Arena.circuit? (a : Arena) (i : Nat) : Option Circuit :=
  if h : i < a.nodes.size then some ⟨a, i, h⟩ else none

/-- The operand circuits, left one first. -/
def Circuit.children (c : Circuit) : List Circuit :=
  c.node.label.children.filterMap c.arena.circuit?

end AirCompiler
