import CanonicalLR.Lexeme
import CanonicalLR.Proofs.Derivation
import Mathlib.Algebra.Ring.Int.Defs
import Mathlib.Data.List.Basic
import Mathlib.Data.List.Induction

namespace CanonicalLR

open CanonicalLR.Tree Grammar

variable {V : Type} {g : Grammar V} {t u : Tree} {ts us children : List Tree} {a : Terminal}
variable {id : ProductionId} {n : Nonterminal} {tokens : List (Token Terminal)}

namespace Grammar

-- The number of symbols that a production replaces.
def arity (g : Grammar V) (id : ProductionId) : Nat := (g.production? id).elim 0 (·.body.length)

theorem arity_eq {p : Production V} (hp : g.production? id = some p) : g.arity id = p.body.length := by
  rw [arity, hp]
  rfl

-- How many values there are after some operations. A shift adds a value, and a reduction replaces those of a
-- body by one.
def height (g : Grammar V) (reductions : List ProductionId) (operations : List Operation) : Int :=
  operations.count .shift +
    ((reductions.take (operations.count .reduce)).map fun id => 1 - (g.arity id : Int)).sum

end Grammar

namespace Tree

-- It does not matter which symbols the children are for.
inductive Branching (g : Grammar V) : Tree → Prop where
  | leaf (a : Terminal) : Branching g (leaf a)
  | node (p : Production V) (children : List Tree) (lookup : g.production? p.id = some p)
    (arity : children.length = p.body.length) (rec : ∀ t ∈ children, Branching g t) :
    Branching g (node p.id p.head children)

-- A forest ends with a leaf, or with a node above trees that are the last ones otherwise.

theorem operationsAll_leaf : operationsAll (ts ++ [leaf a]) = operationsAll ts ++ [.shift] := by
  simp [operationsAll, operations]

theorem operationsAll_node :
    operationsAll (ts ++ [node id n children]) = operationsAll (ts ++ children) ++ [.reduce] := by
  simp [operationsAll, operations]

theorem postorderAll_leaf : postorderAll (ts ++ [leaf a]) = postorderAll ts := by
  simp [postorderAll, postorder]

theorem postorderAll_node :
    postorderAll (ts ++ [node id n children]) = postorderAll (ts ++ children) ++ [id] := by
  simp [postorderAll, postorder]

theorem yieldAll_leaf : yieldAll (ts ++ [leaf a]) = yieldAll ts ++ [a] := by
  simp [yieldAll, yield]

theorem yieldAll_node : yieldAll (ts ++ [node id n children]) = yieldAll (ts ++ children) := by
  simp [yieldAll, yield]

theorem operationsAll_eq_nil (h : operationsAll ts = []) : ts = [] := by
  cases ts
  case nil => rfl
  case cons t ts => cases t <;> simp [operationsAll, operations] at h

theorem operationsAll_eq_concat {ops : List Operation} {op : Operation} (h : operationsAll ts = ops ++ [op]) :
    (∃ us a, ts = us ++ [leaf a] ∧ operationsAll us = ops ∧ op = .shift) ∨
    (∃ us id n children, ts = us ++ [node id n children] ∧ operationsAll (us ++ children) = ops ∧
      op = .reduce) := by
  obtain rfl | ⟨us, t, rfl⟩ := ts.eq_nil_or_concat'
  · simp [operationsAll] at h
  · cases t
    case leaf a =>
      rw [operationsAll_leaf, List.append_singleton_inj] at h
      exact .inl ⟨us, a, rfl, h.left, h.right.symm⟩
    case node id n children =>
      rw [operationsAll_node, List.append_singleton_inj] at h
      exact .inr ⟨us, id, n, children, rfl, h.left, h.right.symm⟩

-- The operations are undone one by one.
theorem forest_induction {P : List Tree → Prop} (nil : P [])
    (leaf : ∀ ts a, P ts → P (ts ++ [leaf a]))
    (node : ∀ ts id n children, P (ts ++ children) → P (ts ++ [node id n children]))
    (ts : List Tree) : P ts := by
  generalize ho : operationsAll ts = ops
  induction ops using List.reverseRecOn generalizing ts
  case nil => exact operationsAll_eq_nil ho ▸ nil
  case append_singleton ops op hi =>
    obtain ⟨us, a, rfl, hu, _⟩ | ⟨us, id, n, children, rfl, hu, _⟩ := operationsAll_eq_concat ho
    · exact leaf us a (hi us hu)
    · exact node us id n children (hi _ hu)

theorem operationsAll_count_shift : (operationsAll ts).count .shift = (yieldAll ts).length := by
  induction ts using forest_induction
  case nil => rfl
  case leaf hi =>
    rw [operationsAll_leaf, yieldAll_leaf, List.count_append, hi, List.length_append]
    rfl
  case node hi =>
    rw [operationsAll_node, yieldAll_node, List.count_append, hi]
    rfl

theorem operations_count_shift : t.operations.count .shift = t.yield.length := by
  have : (operationsAll [t]).count .shift = (yieldAll [t]).length := operationsAll_count_shift
  simpa [operationsAll, yieldAll] using this

theorem operationsAll_count_reduce : (operationsAll ts).count .reduce = (postorderAll ts).length := by
  induction ts using forest_induction
  case nil => rfl
  case leaf hi =>
    rw [operationsAll_leaf, postorderAll_leaf, List.count_append, hi]
    rfl
  case node hi =>
    rw [operationsAll_node, postorderAll_node, List.count_append, hi, List.length_append]
    rfl

-- The children of the last node of a forest take its place.
theorem branching_children (h : ∀ u ∈ ts ++ [node id n children], u.Branching g) :
    (∀ u ∈ ts ++ children, u.Branching g) ∧
      ∃ p, g.production? id = some p ∧ n = p.head ∧ children.length = p.body.length := by
  have ⟨hts, ht⟩ := List.forall_mem_append.mp h
  cases List.forall_mem_singleton.mp ht
  case node p hp hl hc =>
    exact ⟨fun t ht => (List.mem_append.mp ht).elim (hts t) (hc t), p, hp, rfl, hl⟩

-- Every node leaves one tree instead of its children.
theorem length_yieldAll_add_sum (h : ∀ t ∈ ts, t.Branching g) :
    (yieldAll ts).length + ((postorderAll ts).map fun id => 1 - (g.arity id : Int)).sum = ts.length := by
  induction ts using forest_induction
  case nil => rfl
  case leaf ts a hi =>
    have := hi (List.forall_mem_append.mp h).left
    simp only [yieldAll_leaf, postorderAll_leaf, List.length_append, List.length_singleton]
    omega
  case node ts id n children hi =>
    have ⟨hts, p, hp, _, hl⟩ := branching_children h
    have := hi hts
    have ha : g.arity id = children.length := (arity_eq hp).trans hl.symm
    simp only [yieldAll_node, postorderAll_node, List.length_append, List.length_singleton,
      List.map_append, List.map_singleton, List.sum_append, List.sum_singleton, ha] at this ⊢
    omega

-- There are as many values as trees.
theorem height_operationsAll (h : ∀ t ∈ ts, t.Branching g) (reductions : List ProductionId) :
    g.height (postorderAll ts ++ reductions) (operationsAll ts) = ts.length := by
  rw [height, operationsAll_count_shift, operationsAll_count_reduce, List.take_left]
  exact length_yieldAll_add_sum h

-- Two forests with one trace are equal, since their latest operations can be undone together.
theorem forest_inj (hts : ∀ t ∈ ts, t.Branching g) (hus : ∀ u ∈ us, u.Branching g)
    (ho : operationsAll ts = operationsAll us) (hp : postorderAll ts = postorderAll us)
    (hy : yieldAll ts = yieldAll us) : ts = us := by
  induction ts using forest_induction generalizing us
  case nil => exact (operationsAll_eq_nil ho.symm).symm
  case leaf ts a hi =>
    rw [operationsAll_leaf] at ho
    cases operationsAll_eq_concat ho.symm
    case inr h =>
      have ⟨_, _, _, _, _, _, hop⟩ := h
      contradiction
    case inl h =>
      obtain ⟨us, b, rfl, hu, _⟩ := h
      rw [postorderAll_leaf, postorderAll_leaf] at hp
      rw [yieldAll_leaf, yieldAll_leaf, List.append_singleton_inj] at hy
      have ⟨hts, _⟩ := List.forall_mem_append.mp hts
      have ⟨hus, _⟩ := List.forall_mem_append.mp hus
      rw [hi hts hus hu.symm hp hy.left, hy.right]
  case node ts id n children hi =>
    rw [operationsAll_node] at ho
    cases operationsAll_eq_concat ho.symm
    case inl h =>
      have ⟨_, _, _, _, hop⟩ := h
      contradiction
    case inr h =>
      obtain ⟨us, id', n', children', rfl, hu, _⟩ := h
      rw [postorderAll_node, postorderAll_node, List.append_singleton_inj] at hp
      rw [yieldAll_node, yieldAll_node] at hy
      obtain ⟨hp, rfl⟩ := hp
      have ⟨hts, p, hid, hn, hl⟩ := branching_children hts
      have ⟨hus, q, hid', hn', hl'⟩ := branching_children hus
      cases hid.symm.trans hid'
      -- Below the last nodes, the numbers of children tell where they begin.
      have ⟨htsus, hchildren⟩ := List.append_inj' (hi hts hus hu.symm hp hy) (hl.trans hl'.symm)
      rw [htsus, hchildren, hn, hn']

variable [OfLexeme V]

mutual

-- The value of a tree by the rules of its heads. A rule gets the values of the children and nothing that is
-- inherited. The leaves are the first ones of the tokens.
def fold (g : Grammar V) : Tree → List (Token Terminal) → Option V
  | leaf _, tokens => tokens.head?.map fun token => OfLexeme.ofLexeme token.lexeme
  | node id _ children, tokens =>
    (g.production? id).bind fun p =>
      p.attributes.value ⟨List.replicate (children.length + 1) none, none :: foldAll g children tokens⟩

def foldAll (g : Grammar V) : List Tree → List (Token Terminal) → List (Option V)
  | [], _ => []
  | t :: ts, tokens => t.fold g tokens :: foldAll g ts (tokens.drop t.yield.length)

end

theorem length_foldAll : (foldAll g ts tokens).length = ts.length := by
  induction ts generalizing tokens <;> simp_all [foldAll]

theorem foldAll_append :
    foldAll g (ts ++ us) tokens = foldAll g ts tokens ++ foldAll g us (tokens.drop (yieldAll ts).length) := by
  induction ts generalizing tokens <;> simp_all [foldAll, yieldAll]

end Tree
end CanonicalLR
