import CanonicalLR.Evaluation.BottomUp
import CanonicalLR.Evaluation.TopDown
import CanonicalLR.Proofs.Leftmost
import CanonicalLR.Proofs.Soundness

namespace CanonicalLR

open CanonicalLR.Tree

section

variable {V : Type} {g : Grammar V} {t : Tree} {ts : List Tree} {a : Attributes V} {i depth : Nat}
variable {args : Args V} {body : List Symbol} {derivation reductions : List ProductionId}
variable {shifted rest : List (Token Terminal)} {values : List (Option V)}

-- Of an S-attributed production, only the head has a rule.
theorem Attributes.rule?_eq_none (ha : a.isSAttributed) (hi : 0 < i) : a.rule? i = .none := by
  cases hr : a.rule? i
  case none => rfl
  case some r =>
    have hs : a.slots[i]? = some (some r) := Option.join_eq_some_iff.mp hr
    have hm : some r ∈ a.slots.drop 1 := by
      refine List.mem_of_getElem? (i := i - 1) ?_
      rw [List.getElem?_drop, Nat.add_sub_cancel' hi, hs]
    simpa using List.all_eq_true.mp ha (some r) hm

theorem BottomUp.forM_check {ids : List ProductionId}
    (h : ∀ id ∈ ids, ∃ p, g.production? id = some p ∧ p.attributes.isSAttributed) :
    ids.forM (check g) = .ok () := by
  induction ids
  case nil => rfl
  case cons id ids hi =>
    have ⟨p, hp, ha⟩ := h id List.mem_cons_self
    have hc : check g id = .ok () := by simp [check, hp, ha]
    change (check g id >>= fun _ => ids.forM (check g)) = .ok ()
    rw [hc]
    exact hi fun id hid => h id (List.mem_cons_of_mem _ hid)

theorem Args.inherited?_replicate {n : Nat} :
    (⟨List.replicate n none, values⟩ : Args V).inherited? i = none := by
  simp only [inherited?, List.getElem?_replicate]
  split <;> rfl

namespace Tree

-- A nonterminal inherits a value before its production is visited.
def enter (a : Attributes V) (position : Nat) (args : Args V) : Tree → Args V
  | leaf _ => args
  | node .. => args.inherit a position

theorem drop_yield (h : shifted.map Token.kind = t.yield) :
    (shifted ++ rest).drop t.yield.length = rest := by
  rw [← h, List.length_map, List.drop_left]

theorem enter_eq (ha : a.isSAttributed) (hi : 0 < i) : t.enter a i args = args := by
  cases t
  case leaf => rfl
  case node => simp [enter, Args.inherit, a.rule?_eq_none ha hi]

variable [OfLexeme V]

mutual

-- The value of a tree for an inherited value. The leaves are the first ones of the tokens.
def value (g : Grammar V) : Tree → Option V → List (Token Terminal) → Option V
  | leaf _, _, tokens => tokens.head?.map fun token => OfLexeme.ofLexeme token.lexeme
  | node id _ children, inherited, tokens =>
    (g.production? id).bind fun p =>
      let args := (Args.blank (children.length + 1)).setInherited 0 inherited
      p.attributes.value (fillArgs g p.attributes children 1 args tokens)

-- The arguments for the rule of a head. The first tree has the given position.
def fillArgs (g : Grammar V) (a : Attributes V) :
    List Tree → Nat → Args V → List (Token Terminal) → Args V
  | [], _, args, _ => args
  | t :: ts, i, args, tokens =>
    let args := t.enter a i args
    let args := args.setSynthesized i (t.value g (args.inherited? i) tokens)
    fillArgs g a ts (i + 1) args (tokens.drop t.yield.length)

end

end Tree

variable [OfLexeme V]

namespace TopDown

-- A visit to the symbol of a tree follows the tree and computes its value.
def Follows (g : Grammar V) (depth : Nat) (t : Tree) : Prop :=
  ∀ (a : Attributes V) (body : List Symbol) (i : Nat) (args : Args V)
    (derivation : List ProductionId) (shifted rest : List (Token Terminal)),
    shifted.map Token.kind = t.yield →
    let entered := t.enter a i args
    visitBody g (visit g depth) a (t.symbol :: body) i args
        ⟨t.preorder ++ derivation, shifted ++ rest⟩ =
      visitBody g (visit g depth) a body (i + 1)
        (entered.setSynthesized i (t.value g (entered.inherited? i) (shifted ++ rest)))
        ⟨derivation, rest⟩

theorem visitBody_forest (hi : ∀ t ∈ ts, Follows g depth t)
    (hy : shifted.map Token.kind = yieldAll ts) :
    visitBody g (visit g depth) a (ts.map symbol) i args
        ⟨preorderAll ts ++ derivation, shifted ++ rest⟩ =
      .ok (fillArgs g a ts i args (shifted ++ rest), ⟨derivation, rest⟩) := by
  induction ts generalizing i args shifted
  case nil =>
    obtain rfl := List.map_eq_nil_iff.mp hy
    rfl
  case cons t ts ih =>
    obtain ⟨first, others, rfl, hy₁, hy₂⟩ := List.map_eq_append_iff.mp hy
    rw [List.map_cons, preorderAll, List.append_assoc, List.append_assoc,
      hi t List.mem_cons_self _ _ _ _ _ _ _ hy₁, fillArgs, drop_yield hy₁]
    exact ih (fun t ht => hi t (List.mem_cons_of_mem _ ht)) hy₂

theorem visit_node {p : Production V} (inherited : Option V) (derivation : List ProductionId)
    (rest : List (Token Terminal)) (hp : g.production? p.id = some p) (hb : p.body = ts.map symbol)
    (hi : ∀ t ∈ ts, Follows g depth t) (hy : shifted.map Token.kind = yieldAll ts) :
    visit g (depth + 1) p inherited ⟨preorderAll ts ++ derivation, shifted ++ rest⟩ =
      .ok ((node p.id p.head ts).value g inherited (shifted ++ rest), ⟨derivation, rest⟩) := by
  simp only [visit, hb, visitBody_forest hi hy, Tree.value, hp, List.length_map, Option.bind_some]

theorem length_preorder_le (ht : t ∈ ts) : t.preorder.length ≤ (preorderAll ts).length := by
  rw [preorderAll_eq]
  exact (List.sublist_flatten_of_mem (List.mem_map_of_mem ht)).length_le

-- The depth that a tree takes is bounded by the number of its nodes.
theorem follows (h : t.WellFormed g) (hd : t.preorder.length ≤ depth) : Follows g depth t := by
  induction h generalizing depth
  case leaf =>
    intro a body i args derivation shifted rest hy
    obtain ⟨token, rfl, rfl⟩ := List.map_eq_singleton_iff.mp hy
    simp [visitBody, symbol, preorder, Cursor.shift, enter, Tree.value]
  case node p ts hp hb _ hi =>
    intro a body i args derivation shifted rest hy
    rw [preorder, List.length_cons] at hd
    obtain ⟨depth, rfl⟩ : ∃ k, depth = k + 1 := ⟨depth - 1, by omega⟩
    have hts t (ht : t ∈ ts) : Follows g depth t := by
      have := length_preorder_le ht
      exact hi t ht (by omega)
    simp [visitBody, symbol, preorder, Cursor.expand, enter, hp, visit_node _ _ _ hp hb hts hy]

end TopDown

-- The evaluation of the derivation of a tree is the value of the tree. What follows the derivation is not
-- looked at.
theorem Grammar.evaluateTopDown_append {n : Nonterminal} {token : Token Terminal}
    (h : t.WellFormed g) (hn : t.symbol = .nonterminal n) (hy : shifted.map Token.kind = t.yield)
    (he : token.kind = .eof) :
    g.evaluateTopDown (t.preorder ++ derivation) (shifted ++ token :: rest) =
      .ok (t.value g none (shifted ++ token :: rest)) := by
  cases h
  case leaf => contradiction
  case node p ts hp hb hts =>
    have hi t (ht : t ∈ ts) : TopDown.Follows g (preorderAll ts ++ derivation).length t := by
      have := TopDown.length_preorder_le ht
      exact TopDown.follows (hts t ht) (by simp; omega)
    simp only [evaluateTopDown, preorder]
    split
    case h_1 => contradiction
    case h_2 => simp_all
    case h_3 hd _ =>
      cases hd
      simp only [hp, List.append_eq, TopDown.visit_node none derivation (token :: rest) hp hb hi hy]
      exact if_pos he

theorem Grammar.evaluateTopDown_preorder {n : Nonterminal} {token : Token Terminal}
    (h : t.WellFormed g) (hn : t.symbol = .nonterminal n) (hy : shifted.map Token.kind = t.yield)
    (he : token.kind = .eof) :
    g.evaluateTopDown t.preorder (shifted ++ token :: rest) =
      .ok (t.value g none (shifted ++ token :: rest)) := by
  rw [← List.append_nil t.preorder]
  exact evaluateTopDown_append h hn hy he

namespace Tree

-- The values of the trees if none of them inherits.
def valueAll (g : Grammar V) : List Tree → List (Token Terminal) → List (Option V)
  | [], _ => []
  | t :: ts, tokens => t.value g none tokens :: valueAll g ts (tokens.drop t.yield.length)

theorem length_valueAll {tokens : List (Token Terminal)} :
    (valueAll g ts tokens).length = ts.length := by
  induction ts generalizing tokens <;> simp_all [valueAll]

-- Without inherited rules, the arguments are the values of the trees.
theorem fillArgs_eq (values : List (Option V)) (n : Nat) (tokens : List (Token Terminal))
    (ha : a.isSAttributed) (hv : 0 < values.length) :
    fillArgs g a ts values.length
        ⟨List.replicate n none, values ++ List.replicate ts.length none⟩ tokens =
      ⟨List.replicate n none, values ++ valueAll g ts tokens⟩ := by
  induction ts generalizing values tokens
  case nil => simp [fillArgs, valueAll]
  case cons t ts hi =>
    have hset {v : Option V} : (values ++ List.replicate (ts.length + 1) none).set values.length v =
        values ++ [v] ++ List.replicate ts.length none := by
      simp [List.replicate_succ]
    have := hi (values ++ [t.value g none tokens]) (tokens.drop t.yield.length) (by simp)
    rw [fillArgs, enter_eq ha hv, Args.inherited?_replicate, Args.setSynthesized, List.length_cons,
      hset]
    simpa [valueAll] using this

theorem value_node {p : Production V} {tokens : List (Token Terminal)}
    (hp : g.production? p.id = some p) (ha : p.attributes.isSAttributed) :
    (node p.id p.head ts).value g none tokens =
      p.attributes.value (BottomUp.Replay.args (valueAll g ts tokens)) := by
  have hb : (Args.blank (ts.length + 1)).setInherited 0 none =
      (⟨List.replicate (ts.length + 1) none, [none] ++ List.replicate ts.length none⟩ : Args V) := by
    simp [Args.blank, Args.setInherited, List.replicate_succ]
  rw [Tree.value, hp, Option.bind_some, hb]
  refine congrArg p.attributes.value <| (fillArgs_eq [none] _ _ ha (by simp)).trans ?_
  simp [BottomUp.Replay.args, length_valueAll]

end Tree

namespace BottomUp

-- The operations of a tree take its productions and its leaves, and push its value.
def Replays (g : Grammar V) (t : Tree) : Prop :=
  ∀ (reductions : List ProductionId) (shifted rest : List (Token Terminal)) (values : List (Option V)),
    shifted.map Token.kind = t.yield →
    t.operations.foldlM (Replay.step g) ⟨t.postorder ++ reductions, shifted ++ rest, values⟩ =
      .ok ⟨reductions, rest, t.value g none (shifted ++ rest) :: values⟩

theorem foldlM_forest (hi : ∀ t ∈ ts, Replays g t) (hy : shifted.map Token.kind = yieldAll ts) :
    (operationsAll ts).foldlM (Replay.step g)
        ⟨postorderAll ts ++ reductions, shifted ++ rest, values⟩ =
      .ok ⟨reductions, rest, (valueAll g ts (shifted ++ rest)).reverse ++ values⟩ := by
  induction ts generalizing shifted values
  case nil =>
    obtain rfl := List.map_eq_nil_iff.mp hy
    rfl
  case cons t ts ih =>
    obtain ⟨first, others, rfl, hy₁, hy₂⟩ := List.map_eq_append_iff.mp hy
    rw [operationsAll, postorderAll, List.append_assoc, List.append_assoc, List.foldlM_append,
      hi t List.mem_cons_self _ _ _ _ hy₁, valueAll, drop_yield hy₁]
    refine (ih (fun t ht => hi t (List.mem_cons_of_mem _ ht)) hy₂).trans ?_
    simp

theorem reduce_node {p : Production V} (hp : g.production? p.id = some p)
    (hb : p.body = ts.map symbol) (ha : p.attributes.isSAttributed) {tokens : List (Token Terminal)} :
    Replay.reduce g ⟨p.id :: reductions, rest, (valueAll g ts tokens).reverse ++ values⟩ =
      .ok ⟨reductions, rest, (node p.id p.head ts).value g none tokens :: values⟩ := by
  have hl : (valueAll g ts tokens).reverse.length = p.body.length := by
    rw [List.length_reverse, length_valueAll, hb, List.length_map]
  simp only [Replay.reduce, hp, List.take_left' hl, List.drop_left' hl, List.reverse_reverse]
  rw [if_neg (by simp [← hl]), value_node hp ha]

theorem replays (h : t.WellFormed g)
    (hs : ∀ id ∈ t.postorder, ∀ p, g.production? id = some p → p.attributes.isSAttributed) :
    Replays g t := by
  induction h
  case leaf =>
    intro reductions shifted rest values hy
    obtain ⟨token, rfl, rfl⟩ := List.map_eq_singleton_iff.mp hy
    rfl
  case node p ts hp hb _ hi =>
    intro reductions shifted rest values hy
    have hts t (ht : t ∈ ts) : Replays g t := by
      refine hi t ht fun id hid => hs id ?_
      rw [postorder, postorderAll_eq]
      exact List.mem_append_left _ (List.mem_flatMap.mpr ⟨t, ht, hid⟩)
    have ha := hs p.id (by simp [postorder]) p hp
    rw [Tree.operations, postorder, List.append_assoc, List.foldlM_append, foldlM_forest hts hy]
    simp only [bind, Except.bind]
    rw [List.foldlM_cons, Replay.step, List.singleton_append, reduce_node hp hb ha]
    rfl

end BottomUp

-- The evaluation of the trace of a tree is the value of the tree if nothing is inherited.
theorem Grammar.evaluateBottomUp_postorder {n : Nonterminal} {token : Token Terminal}
    (h : t.WellFormed g) (hn : t.symbol = .nonterminal n)
    (hs : ∀ id ∈ t.postorder, ∀ p, g.production? id = some p → p.attributes.isSAttributed)
    (hy : shifted.map Token.kind = t.yield) (he : token.kind = .eof) :
    g.evaluateBottomUp t.postorder t.operations (shifted ++ token :: rest) =
      .ok (t.value g none (shifted ++ token :: rest)) := by
  have hr := BottomUp.replays h hs [] shifted (token :: rest) [] hy
  have hc : t.postorder.forM (BottomUp.check g) = .ok () := BottomUp.forM_check fun id hid =>
    (h.exists_production hid).imp fun p hp => ⟨hp, hs id hid p hp⟩
  rw [List.append_nil] at hr
  cases h
  case leaf => contradiction
  case node =>
    rw [evaluateBottomUp, if_neg (by simp [postorder, Tree.operations]), hc]
    simp [hr, BottomUp.Replay.value, he, bind, Except.bind]

namespace Table

end Table
end
end CanonicalLR
