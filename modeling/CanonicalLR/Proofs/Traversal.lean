import CanonicalLR.Proofs.Completeness
import CanonicalLR.Proofs.Leftmost
import Mathlib.Data.List.Perm.Basic

namespace CanonicalLR

open CanonicalLR.Tree Grammar

variable {V : Type} {g : Grammar V} {t u : Tree} {ts us forest forest' : List Tree}
variable {ids l l' : List ProductionId}

namespace Tree

-- A well-formed tree that is not a leaf.
structure Rooted (g : Grammar V) (t : Tree) : Prop where
  wellFormed : t.WellFormed g
  root : ∃ n, t.symbol = .nonterminal n

theorem Rooted.node {p : Production V} (hp : g.production? p.id = some p) (hb : p.body = ts.map symbol)
    (h : ∀ t ∈ ts, t.WellFormed g) : (node p.id p.head ts).Rooted g where
  wellFormed := .node p ts hp hb h
  root := ⟨p.head, rfl⟩

theorem nodes_eq_self (h : ∀ t ∈ ts, t.Rooted g) : nodes ts = ts := by
  refine List.filter_eq_self.mpr fun t ht => ?_
  have ⟨n, hn⟩ := (h t ht).root
  rw [hn]
  rfl

-- Leaves are well-formed and apply no production.

theorem wellFormed_of_nodes (h : ∀ t ∈ nodes ts, t.WellFormed g) (ht : t ∈ ts) : t.WellFormed g := by
  cases t
  case leaf a => exact .leaf a
  case node => exact h _ (List.mem_filter.mpr ⟨ht, rfl⟩)

theorem postorderAll_nodes : postorderAll (nodes ts) = postorderAll ts := by
  induction ts
  case nil => rfl
  case cons t ts hi => cases t <;> simp [postorderAll, postorder, hi]

-- As many trees as there are nonterminals are attached to a body in their order.
theorem attach_eq_ok {body : List Symbol} {children : List Tree} (h : attach body ts = .ok children)
    (hl : ts.length = body.countP (·.nonterminal?.isSome)) (hr : ∀ t ∈ ts, t.Rooted g) :
    body = children.map symbol ∧ ts = nodes children := by
  induction body, ts using attach.induct generalizing children
  case case1 a body ts hi =>
    simp only [attach, bind_eq_ok] at h
    obtain ⟨siblings, hs, h⟩ := h
    cases h
    obtain ⟨hb, hts⟩ := hi hs hl hr
    exact ⟨hb ▸ rfl, hts⟩
  case case2 n body id grandchildren ts hi =>
    simp only [attach, if_true, bind_eq_ok] at h
    obtain ⟨siblings, hs, h⟩ := h
    cases h
    obtain ⟨hb, hts⟩ := hi hs (by simpa [Symbol.nonterminal?] using hl) fun t ht => hr t (.tail _ ht)
    exact ⟨hb ▸ rfl, hts ▸ rfl⟩
  case case3 hn =>
    simp only [attach, if_neg hn] at h
    contradiction
  case case4 body ts hterminal hnode =>
    -- Nothing is left of the body, since there are too few trees or a leaf otherwise.
    cases body
    case nil =>
      cases ts
      case nil =>
        cases h
        exact ⟨rfl, rfl⟩
      case cons => contradiction
    case cons x body =>
      cases x
      case terminal => exact (hterminal _ _ rfl).elim
      case nonterminal =>
        cases ts
        case nil => simp [Symbol.nonterminal?] at hl
        case cons t ts =>
          obtain ⟨_, hn⟩ := (hr t (.head ts)).root
          cases t
          case leaf => cases hn
          case node => exact (hnode _ _ _ _ _ _ rfl rfl).elim

end Tree

namespace Grammar

-- The trees that are planted under a production are the latest ones of the forest.
theorem plant_eq_ok {id : ProductionId} (h : g.plant forest id = .ok forest')
    (hf : ∀ t ∈ forest, t.Rooted g) :
    ∃ p ts below, g.production? p.id = some p ∧ p.id = id ∧ p.body = ts.map symbol ∧
      forest = (nodes ts).reverse ++ below ∧ forest' = .node p.id p.head ts :: below := by
  simp only [plant] at h
  split at h
  case h_1 => contradiction
  case h_2 p hp =>
    split at h
    case isTrue => contradiction
    case isFalse hl =>
      split at h <;> cases h
      case h_2 children ha =>
        have hid := production?_id hp
        have hl : (forest.take (p.body.countP (·.nonterminal?.isSome))).reverse.length = _ :=
          List.length_reverse.trans (List.length_take_of_le (Nat.le_of_not_lt hl))
        obtain ⟨hb, hn⟩ := attach_eq_ok ha hl
          fun t ht => hf t (List.mem_of_mem_take (List.mem_reverse.mp ht))
        refine ⟨p, children, _, hid ▸ hp, hid, hb, ?_, by rw [hid]⟩
        rw [← hn, List.reverse_reverse, List.take_append_drop]

-- A reduction adds its production to the postorder of the forest.
theorem foldlM_plant_eq_ok (h : ids.foldlM g.plant forest = .ok forest')
    (hf : ∀ t ∈ forest, t.Rooted g) :
    (∀ t ∈ forest', t.Rooted g) ∧
      postorderAll forest'.reverse = postorderAll forest.reverse ++ ids := by
  induction ids generalizing forest
  case nil =>
    cases h
    exact ⟨hf, (List.append_nil _).symm⟩
  case cons id ids hi =>
    rw [List.foldlM_cons, bind_eq_ok] at h
    have ⟨forest₁, h₁, h⟩ := h
    obtain ⟨p, ts, below, hp, rfl, hb, rfl, rfl⟩ := plant_eq_ok h₁ hf
    have hts (t) (ht : t ∈ ts) : t.WellFormed g :=
      wellFormed_of_nodes (fun t ht => (hf t (by simp [ht])).wellFormed) ht
    have hrooted : ∀ t ∈ Tree.node p.id p.head ts :: below, t.Rooted g :=
      List.forall_mem_cons.mpr ⟨.node hp hb hts, fun t ht => hf t (by simp [ht])⟩
    have ⟨hr, hpost⟩ := hi h hrooted
    refine ⟨hr, hpost.trans ?_⟩
    simp [postorderAll_nodes, postorderAll, postorder]

theorem forest_eq_ok_iff :
    g.forest ids = .ok ts ↔ (∀ t ∈ ts, t.Rooted g) ∧ postorderAll ts.reverse = ids := by
  constructor
  case mp =>
    intro h
    simpa [postorderAll] using foldlM_plant_eq_ok h
  case mpr =>
    rintro ⟨hr, rfl⟩
    have : (postorderAll ts.reverse).foldlM g.plant [] = .ok ((nodes ts.reverse).reverse ++ []) :=
      foldlM_postorderAll fun t ht _ => (hr t (List.mem_reverse.mp ht)).wellFormed.foldlM_postorder
    rw [forest, this, nodes_eq_self fun t ht => hr t (List.mem_reverse.mp ht)]
    simp

theorem exists_tree_of_leftmost {r d : List ProductionId} (h : g.leftmost r = .ok d) (hr : r ≠ []) :
    ∃ t : Tree, t.Rooted g ∧ t.postorder = r ∧ t.preorder = d := by
  simp only [leftmost] at h
  split at h
  case h_1 => contradiction
  case h_2 hf => exact absurd (forest_eq_ok_iff.mp hf).right.symm hr
  case h_3 t hf =>
    cases h
    obtain ⟨ht, hp⟩ := forest_eq_ok_iff.mp hf
    exact ⟨t, ht t (.head []), by simpa [postorderAll] using hp, walk_singleton.symm⟩
  case h_4 => contradiction

end Grammar

namespace Tree

theorem WellFormed.preorder_perm (h : t.WellFormed g) : t.preorder.Perm t.postorder := by
  induction h
  case leaf => exact .nil
  case node p ts _ _ _ hi =>
    rw [preorder, postorder, preorderAll_eq, postorderAll_eq]
    exact ((List.Perm.flatMap_left ts hi).cons p.id).trans (List.perm_append_singleton ..).symm

-- The root comes first in one order and last in the other.
theorem head?_preorder : t.preorder.head? = t.postorder.getLast? := by
  cases t <;> simp [preorder, postorder]

theorem preorderAll_append_inj
    (hi : ∀ t ∈ ts, ∀ (u : Tree) (l l' : List ProductionId), u.WellFormed g → t.symbol = u.symbol →
      t.preorder ++ l = u.preorder ++ l' → t = u ∧ l = l')
    (hu : ∀ u ∈ us, u.WellFormed g) (hs : ts.map symbol = us.map symbol)
    (h : preorderAll ts ++ l = preorderAll us ++ l') : ts = us ∧ l = l' := by
  induction ts generalizing us
  case nil =>
    cases List.map_eq_nil_iff.mp hs.symm
    exact ⟨rfl, h⟩
  case cons t ts ih =>
    match us with
    | [] => cases hs
    | u :: us =>
      obtain ⟨hs, hss⟩ := List.cons_eq_cons.mp hs
      rw [preorderAll, preorderAll, List.append_assoc, List.append_assoc] at h
      obtain ⟨htu, h⟩ := hi t (.head ts) u _ _ (hu u (.head us)) hs h
      obtain ⟨htsus, hl⟩ := ih (fun t ht => hi t (.tail _ ht)) (fun u hu' => hu u (.tail _ hu')) hss h
      exact ⟨htu ▸ htsus ▸ rfl, hl⟩

-- The preorder of a tree for a symbol is not a proper beginning of the preorder of another one.
theorem WellFormed.preorder_append_inj (ht : t.WellFormed g) (hu : u.WellFormed g)
    (hs : t.symbol = u.symbol) (h : t.preorder ++ l = u.preorder ++ l') : t = u ∧ l = l' := by
  induction ht generalizing u l l'
  case leaf a =>
    cases eq_leaf_of_symbol hs.symm
    exact ⟨rfl, h⟩
  case node p ts hp hb _ hi =>
    cases hu
    case leaf => cases hs
    case node q us hq hb' hus =>
      obtain ⟨hpq, hall⟩ : p.id = q.id ∧ preorderAll ts ++ l = preorderAll us ++ l' := by
        simpa [preorder] using h
      rw [hpq] at hp
      cases hp.symm.trans hq
      have hs : ts.map symbol = us.map symbol := hb.symm.trans hb'
      obtain ⟨htsus, hl⟩ := preorderAll_append_inj (fun t ht _ _ _ => hi t ht) hus hs hall
      exact ⟨htsus ▸ rfl, hl⟩

-- The production at the root tells the symbol.
theorem Rooted.preorder_append_inj (ht : t.Rooted g) (hu : u.Rooted g)
    (h : t.preorder ++ l = u.preorder ++ l') : t = u ∧ l = l' := by
  have ⟨htw, n, hn⟩ := ht
  have ⟨huw, m, hm⟩ := hu
  refine htw.preorder_append_inj huw ?_ h
  cases htw
  case leaf => cases hn
  case node p _ hp _ _ =>
    cases huw
    case leaf => cases hm
    case node q _ hq _ _ =>
      have ⟨hpq, _⟩ := List.cons_eq_cons.mp h
      rw [hpq] at hp
      cases hp.symm.trans hq
      rfl

end Tree

namespace Grammar

variable {r r' d : List ProductionId}

theorem leftmost_perm (h : g.leftmost r = .ok d) : d.Perm r ∧ d.head? = r.getLast? := by
  by_cases hr : r = []
  case pos =>
    subst hr
    cases h
    exact ⟨.nil, rfl⟩
  case neg =>
    have ⟨t, ht, hp, hd⟩ := exists_tree_of_leftmost h hr
    exact hp ▸ hd ▸ ⟨ht.wellFormed.preorder_perm, head?_preorder⟩

theorem leftmost_inj (h : g.leftmost r = .ok d) (h' : g.leftmost r' = .ok d) : r = r' := by
  have hperm : r.Perm r' := (leftmost_perm h).left.symm.trans (leftmost_perm h').left
  by_cases hr : r = []
  case pos =>
    rw [hr] at hperm ⊢
    exact hperm.nil_eq
  case neg =>
    have ⟨t, ht, hp, hd⟩ := exists_tree_of_leftmost h hr
    have ⟨u, hu, hp', hd'⟩ := exists_tree_of_leftmost h' fun hr' => hr (hr' ▸ hperm).eq_nil
    have ⟨htu, _⟩ := ht.preorder_append_inj hu (congrArg (· ++ []) (hd.trans hd'.symm))
    rw [← hp, ← hp', htu]

-- Nothing but the postorder of a tree can be turned into a leftmost derivation, and no two postorders are
-- turned into the same one.
theorem leftmost_exact (g : Grammar V) :
    (∀ r d : List ProductionId, r ≠ [] →
      (g.leftmost r = .ok d ↔ ∃ t : Tree, t.Rooted g ∧ t.postorder = r ∧ t.preorder = d)) ∧
    (∀ r d : List ProductionId, g.leftmost r = .ok d → d.Perm r ∧ d.head? = r.getLast?) ∧
    g.leftmost [] = .ok [] ∧
    ∀ r r' d : List ProductionId, g.leftmost r = .ok d → g.leftmost r' = .ok d → r = r' := by
  refine ⟨fun r d hr => ⟨fun h => exists_tree_of_leftmost h hr, ?tree⟩, ?order, rfl, ?injective⟩
  case tree =>
    intro ⟨t, ht, hp, hd⟩
    exact hp ▸ hd ▸ ht.wellFormed.leftmost_postorder
  case order => exact fun r d => leftmost_perm
  case injective => exact fun r r' d => leftmost_inj

end Grammar

open Example.Brackets in
-- The reductions of `(a)`. The other way round, the brackets have nothing to enclose.
theorem Grammar.leftmost_exact_brackets :
    (∃ t : Tree, t.Rooted grammar ∧ t.postorder = [⟨2⟩, ⟨1⟩] ∧ t.preorder = [⟨1⟩, ⟨2⟩]) ∧
    (¬ ∃ t : Tree, t.Rooted grammar ∧ t.postorder = [⟨1⟩, ⟨2⟩] ∧ t.preorder = [⟨2⟩, ⟨1⟩]) ∧
    [(⟨1⟩ : ProductionId), ⟨2⟩].Perm [⟨2⟩, ⟨1⟩] ∧
    ∀ r, grammar.leftmost r = .ok [⟨1⟩, ⟨2⟩] → r = [⟨2⟩, ⟨1⟩] := by
  have ⟨htree, horder, _, hinj⟩ := leftmost_exact grammar
  have h : grammar.leftmost [⟨2⟩, ⟨1⟩] = .ok [⟨1⟩, ⟨2⟩] :=
    (wellFormed_enclosed wellFormed_atom rfl).leftmost_postorder
  have hn : grammar.leftmost [⟨1⟩, ⟨2⟩] = .error (.unbalancedReductions 0) := by rfl
  refine ⟨(htree _ _ (by decide)).mp h, fun ht => ?_, (horder _ _ h).left, fun r hr => hinj _ _ _ hr h⟩
  cases hn.symm.trans ((htree _ _ (by decide)).mpr ht)

end CanonicalLR
