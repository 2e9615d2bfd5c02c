import CanonicalLR.Derivation.Leftmost
import CanonicalLR.Proofs.Derivation

namespace CanonicalLR

open CanonicalLR.Tree Grammar

variable {V : Type} {g : Grammar V} {t u : Tree} {ts forest : List Tree}

namespace Tree

-- What is pending is visited in preorder.
theorem walk_eq_preorderAll : walk ts = preorderAll ts := by
  fun_induction walk ts
  case case1 => rfl
  case case2 hi => simp [preorderAll, preorder, hi]
  case case3 hi => simp [preorderAll, preorder, hi]

theorem walk_singleton : walk [t] = t.preorder := by simp [walk_eq_preorderAll, preorderAll]

theorem length_nodes : (nodes ts).length = (ts.map symbol).countP (·.nonterminal?.isSome) := by
  rw [nodes, List.countP_map, List.countP_eq_length_filter]
  rfl

-- Leaves are not recorded, but they can be told from the body.
theorem attach_nodes : attach (ts.map symbol) (nodes ts) = .ok ts := by
  induction ts
  case nil => rfl
  case cons t ts hi =>
    cases t
    case leaf => simp [attach, symbol, hi, bind, Except.bind, pure, Except.pure]
    case node => simp [attach, symbol, hi, bind, Except.bind, pure, Except.pure]

end Tree

theorem Grammar.plant_nodes {p : Production V} (hp : g.production? p.id = some p)
    (hb : p.body = ts.map symbol) :
    g.plant ((nodes ts).reverse ++ forest) p.id = .ok (.node p.id p.head ts :: forest) := by
  have hl : p.body.countP (·.nonterminal?.isSome) = (nodes ts).reverse.length := by
    rw [List.length_reverse, length_nodes, hb]
  simp only [plant, hp, hl]
  rw [if_neg (by simp), List.take_left, List.drop_left, List.reverse_reverse, hb, attach_nodes]

namespace Tree

theorem foldlM_postorderAll
    (h : ∀ t ∈ ts, ∀ forest, t.postorder.foldlM g.plant forest = .ok (nodes [t] ++ forest)) :
    (postorderAll ts).foldlM g.plant forest = .ok ((nodes ts).reverse ++ forest) := by
  induction ts generalizing forest
  case nil => rfl
  case cons t ts hi =>
    rw [postorderAll, List.foldlM_append, h t List.mem_cons_self]
    refine (hi fun u hu => h u (List.mem_cons_of_mem _ hu)).trans ?_
    cases t <;> simp

namespace WellFormed

-- Replaying the reductions of a tree adds the tree to a forest.
theorem foldlM_postorder (h : t.WellFormed g) :
    t.postorder.foldlM g.plant forest = .ok (nodes [t] ++ forest) := by
  induction h generalizing forest
  case leaf => rfl
  case node p ts hp hb _ hi =>
    rw [postorder, List.foldlM_append, foldlM_postorderAll fun t ht _ => hi t ht]
    simp [bind, Except.bind, plant_nodes hp hb, pure, Except.pure]

theorem forest_postorder (h : t.WellFormed g) : g.forest t.postorder = .ok (nodes [t]) := by
  rw [Grammar.forest, h.foldlM_postorder, List.append_nil]

theorem leftmost_postorder (h : t.WellFormed g) : g.leftmost t.postorder = .ok t.preorder := by
  simp only [leftmost, h.forest_postorder]
  cases t
  case leaf => rfl
  case node => exact congrArg _ walk_singleton

-- Trees for one symbol with the same reductions are equal.
theorem postorder_inj (ht : t.WellFormed g) (hu : u.WellFormed g) (hs : t.symbol = u.symbol)
    (h : t.postorder = u.postorder) : t = u := by
  have := ht.forest_postorder.symm.trans (h ▸ hu.forest_postorder)
  cases t <;> cases u <;> simp_all [symbol]

end WellFormed
end Tree
end CanonicalLR
