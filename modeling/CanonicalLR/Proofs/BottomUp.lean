import CanonicalLR.Proofs.Branching
import CanonicalLR.Proofs.Completeness
import CanonicalLR.Proofs.Evaluation

namespace CanonicalLR

open CanonicalLR.Tree

variable {V : Type} {g : Grammar V} {t u : Tree} {ts : List Tree} {id : ProductionId}
variable {reductions before after : List ProductionId} {operations : List Operation}
variable {tokens : List (Token Terminal)}

namespace Grammar

-- A production can be replayed if its values depend on the values below only.
def Synthesizes (g : Grammar V) (id : ProductionId) : Prop :=
  ∃ p, g.production? id = some p ∧ p.attributes.isSAttributed

-- At every reduction there are the values for the body of its production.
def Covered (g : Grammar V) (reductions : List ProductionId) (operations : List Operation) : Prop :=
  ∀ before after id, operations = before ++ .reduce :: after →
    reductions[before.count .reduce]? = some id → g.arity id ≤ g.height reductions before

theorem Covered.of_append {ops : List Operation} (h : g.Covered reductions (operations ++ ops)) :
    g.Covered reductions operations := by
  rintro before after id rfl hid
  exact h before (after ++ ops) id (by simp) hid

-- The operations use up the reductions, and they reduce the tokens in front of an end of input to one value.
structure Balanced (g : Grammar V) (reductions : List ProductionId) (operations : List Operation)
    (tokens : List (Token Terminal)) : Prop where
  synthesizes : ∀ id ∈ reductions, g.Synthesizes id
  reduced : operations.count .reduce = reductions.length
  covered : g.Covered reductions operations
  height : g.height reductions operations = 1
  stop : ∃ token, tokens[operations.count .shift]? = some token ∧ token.kind = .eof

end Grammar

namespace BottomUp

theorem check_eq_ok : check g id = .ok () ↔ g.Synthesizes id := by
  simp only [check, Grammar.Synthesizes]
  split <;> simp_all

theorem forM_check_cons : (id :: after).forM (check g) = check g id >>= fun _ => after.forM (check g) :=
  rfl

theorem forM_check_eq_ok : reductions.forM (check g) = .ok () ↔ ∀ id ∈ reductions, g.Synthesizes id := by
  refine ⟨fun h => ?_, forM_check⟩
  induction reductions
  case nil => exact List.forall_mem_nil _
  case cons id ids hi =>
    have ⟨(), hc, h⟩ := bind_eq_ok.mp h
    exact List.forall_mem_cons.mpr ⟨check_eq_ok.mp hc, hi h⟩

-- The first production that fails the check decides about the error.
theorem forM_check_eq_error {e : EvaluationError} (hb : ∀ id ∈ before, g.Synthesizes id)
    (he : check g id = .error e) : (before ++ id :: after).forM (check g) = .error e := by
  induction before
  case nil =>
    rw [List.nil_append, forM_check_cons, he]
    rfl
  case cons first before hi =>
    have ⟨hfirst, hb⟩ := List.forall_mem_cons.mp hb
    rw [List.cons_append, forM_check_cons, check_eq_ok.mpr hfirst]
    exact hi hb

namespace Replay

variable {r r' : Replay V}

theorem shift_eq_ok [OfLexeme V] : r.shift = .ok r' ↔ ∃ token rest, r.tokens = token :: rest ∧
    r' = { r with tokens := rest, values := some (OfLexeme.ofLexeme token.lexeme) :: r.values } := by
  simp only [shift]
  split <;> simp_all [eq_comm]

theorem reduce_eq_ok : r.reduce g = .ok r' ↔ ∃ p rest, r.reductions = p.id :: rest ∧
    g.production? p.id = some p ∧ p.body.length ≤ r.values.length ∧
    r' = { r with
      reductions := rest
      values := p.attributes.value (args (r.values.take p.body.length).reverse) ::
        r.values.drop p.body.length } := by
  constructor
  case mp =>
    intro h
    simp only [reduce] at h
    split at h
    case h_1 => contradiction
    case h_2 id rest hr =>
      split at h
      case h_1 => contradiction
      case h_2 p hp =>
        split at h <;> cases h
        case isFalse hl =>
          obtain rfl := Grammar.production?_id hp
          exact ⟨p, rest, hr, hp, Nat.le_of_not_lt hl, rfl⟩
  case mpr =>
    rintro ⟨p, rest, hr, hp, hl, rfl⟩
    simp only [reduce, hr, hp]
    exact if_neg (Nat.not_lt.mpr hl)

theorem value_eq_ok {v : Option V} : r.value = .ok v ↔ r.reductions = [] ∧ r.values = [v] ∧
    ∃ token rest, r.tokens = token :: rest ∧ token.kind = .eof := by
  constructor
  case mp =>
    intro h
    simp only [value] at h
    split at h
    case h_1 hr hv =>
      split at h
      case h_1 => contradiction
      case h_2 token rest ht =>
        split at h <;> cases h
        case isTrue hk => exact ⟨hr, hv, token, rest, ht, hk⟩
    case h_2 => contradiction
    case h_3 => contradiction
  case mpr =>
    rintro ⟨hr, hv, token, rest, ht, hk⟩
    simp only [value, hr, hv, ht]
    exact if_pos hk

variable [OfLexeme V]

-- The latest values are those of the latest trees.
theorem values_append {us children : List Tree} {values : List (Option V)}
    (h : values.reverse = foldAll g (us ++ children) tokens) :
    (values.take children.length).reverse = foldAll g children (tokens.drop (yieldAll us).length) ∧
      (values.drop children.length).reverse = foldAll g us tokens := by
  let latest := foldAll g children (tokens.drop (yieldAll us).length)
  have hvalues : values = latest.reverse ++ (foldAll g us tokens).reverse := by
    rw [← List.reverse_append, ← foldAll_append, ← h, List.reverse_reverse]
  have hl : latest.reverse.length = children.length := List.length_reverse.trans length_foldAll
  rw [hvalues, List.take_left' hl, List.drop_left' hl, List.reverse_reverse, List.reverse_reverse]
  exact ⟨rfl, rfl⟩

-- The values are those of a forest. The reductions and the tokens are what it is made of and what is left.
structure Assembles (g : Grammar V) (reductions : List ProductionId) (operations : List Operation)
    (tokens : List (Token Terminal)) (ts : List Tree) (r : Replay V) : Prop where
  branching : ∀ t ∈ ts, t.Branching g
  operations : operationsAll ts = operations
  values : r.values.reverse = foldAll g ts tokens
  taken : reductions = postorderAll ts ++ r.reductions
  read : ∃ shifted, tokens = shifted ++ r.tokens ∧ shifted.map Token.kind = yieldAll ts

namespace Assembles

theorem initial : Assembles g reductions [] tokens [] ⟨reductions, tokens, []⟩ where
  branching := List.forall_mem_nil _
  operations := rfl
  values := rfl
  taken := rfl
  read := ⟨[], rfl, rfl⟩

theorem length_values (h : Assembles g reductions operations tokens ts r) : r.values.length = ts.length := by
  rw [← List.length_reverse, h.values, length_foldAll]

-- The number of values can be told from the trace.
theorem height (h : Assembles g reductions operations tokens ts r) :
    g.height reductions operations = r.values.length := by
  rw [h.taken, ← h.operations, height_operationsAll h.branching, h.length_values]

theorem count_reduce (h : Assembles g reductions operations tokens ts r) :
    operations.count .reduce = (postorderAll ts).length := by
  rw [← h.operations, operationsAll_count_reduce]

theorem count_shift {shifted : List (Token Terminal)} (h : Assembles g reductions operations tokens ts r)
    (hy : shifted.map Token.kind = yieldAll ts) : operations.count .shift = shifted.length := by
  rw [← h.operations, operationsAll_count_shift, ← hy, List.length_map]

theorem shift (h : Assembles g reductions operations tokens ts r) (hs : r.shift = .ok r') :
    ∃ ts', Assembles g reductions (operations ++ [.shift]) tokens ts' r' := by
  obtain ⟨token, rest, ht, rfl⟩ := shift_eq_ok.mp hs
  obtain ⟨hb, rfl, hv, hr, shifted, rfl, hy⟩ := h
  exact ⟨ts ++ [.leaf token.kind], {
    branching := List.forall_mem_append.mpr ⟨hb, List.forall_mem_singleton.mpr (.leaf _)⟩
    operations := operationsAll_leaf
    values := by
      rw [foldAll_append, ← hv, ← hy, List.length_map, List.drop_left, ht]
      simp [foldAll, fold]
    taken := hr.trans (by rw [postorderAll_leaf])
    read := ⟨shifted ++ [token], by simp [ht], by rw [yieldAll_leaf, List.map_append, hy]; rfl⟩ }⟩

theorem reduce (h : Assembles g reductions operations tokens ts r) (hs : r.reduce g = .ok r') :
    ∃ ts', Assembles g reductions (operations ++ [.reduce]) tokens ts' r' := by
  obtain ⟨p, rest, hr', hp, hl, rfl⟩ := reduce_eq_ok.mp hs
  have hlength := h.length_values
  obtain ⟨us, children, rfl, hc⟩ : ∃ us children, ts = us ++ children ∧ children.length = p.body.length :=
    ⟨ts.take (ts.length - p.body.length), ts.drop (ts.length - p.body.length),
      (List.take_append_drop ..).symm, by rw [List.length_drop]; omega⟩
  obtain ⟨hb, rfl, hv, hr, shifted, rfl, hy⟩ := h
  have ⟨hus, hchildren⟩ := List.forall_mem_append.mp hb
  exact ⟨us ++ [.node p.id p.head children], {
    branching := List.forall_mem_append.mpr ⟨hus, List.forall_mem_singleton.mpr (.node p _ hp hc hchildren)⟩
    operations := operationsAll_node
    values := by
      have ⟨hlast, hfirst⟩ := values_append hv
      simp only [← hc, hlast, List.reverse_cons, hfirst, foldAll_append]
      simp [foldAll, fold, hp, args, length_foldAll]
    taken := hr.trans (by rw [postorderAll_node, hr', List.append_assoc]; rfl)
    read := ⟨shifted, rfl, by rw [yieldAll_node, hy]⟩ }⟩

theorem step {op : Operation} (h : Assembles g reductions operations tokens ts r)
    (hs : r.step g op = .ok r') : ∃ ts', Assembles g reductions (operations ++ [op]) tokens ts' r' := by
  cases op
  case shift => exact h.shift hs
  case reduce => exact h.reduce hs

theorem exists_shift (h : Assembles g reductions operations tokens ts r)
    (ht : operations.count .shift < tokens.length) : ∃ r', r.shift = .ok r' := by
  obtain ⟨shifted, hs, hy⟩ := h.read
  rw [h.count_shift hy, hs, List.length_append] at ht
  have ⟨token, rest, hr⟩ := List.exists_cons_of_length_pos (l := r.tokens) (by omega)
  exact ⟨_, shift_eq_ok.mpr ⟨token, rest, hr, rfl⟩⟩

theorem exists_reduce (h : Assembles g reductions operations tokens ts r)
    (hs : ∀ id ∈ reductions, g.Synthesizes id) (hr : operations.count .reduce < reductions.length)
    (hc : g.Covered reductions (operations ++ [.reduce])) : ∃ r', r.reduce g = .ok r' := by
  have htaken := h.taken
  rw [h.count_reduce, htaken, List.length_append] at hr
  have ⟨id, rest, hrest⟩ := List.exists_cons_of_length_pos (l := r.reductions) (by omega)
  have hid : reductions[operations.count .reduce]? = some id := by
    rw [h.count_reduce, htaken, List.getElem?_append_right (Nat.le_refl _), Nat.sub_self, hrest]
    rfl
  have ⟨p, hp, _⟩ := hs id (List.mem_of_getElem? hid)
  have hl := hc operations [] id rfl hid
  rw [h.height, Grammar.arity_eq hp] at hl
  obtain rfl := Grammar.production?_id hp
  exact ⟨_, reduce_eq_ok.mpr ⟨p, rest, hrest, hp, Int.ofNat_le.mp hl, rfl⟩⟩

end Assembles

-- The replay of a trace from its beginning.
abbrev run (g : Grammar V) (reductions : List ProductionId) (tokens : List (Token Terminal))
    (operations : List Operation) : Except EvaluationError (Replay V) :=
  operations.foldlM (step g) ⟨reductions, tokens, []⟩

theorem run_append_eq_ok {ops : List Operation} : run g reductions tokens (operations ++ ops) = .ok r' ↔
    ∃ r, run g reductions tokens operations = .ok r ∧ ops.foldlM (step g) r = .ok r' := by
  rw [run, List.foldlM_append, bind_eq_ok]

theorem exists_assembles (h : run g reductions tokens operations = .ok r) :
    ∃ ts, Assembles g reductions operations tokens ts r := by
  induction operations using List.reverseRecOn generalizing r
  case nil =>
    cases h
    exact ⟨[], .initial⟩
  case append_singleton operations op hi =>
    have ⟨r₁, hr₁, h⟩ := run_append_eq_ok.mp h
    have ⟨r₂, hs, hp⟩ := bind_eq_ok.mp h
    cases hp
    have ⟨ts, hts⟩ := hi hr₁
    exact hts.step hs

-- A balanced trace finds what it needs at every operation.
theorem exists_run (hs : ∀ id ∈ reductions, g.Synthesizes id)
    (hr : operations.count .reduce ≤ reductions.length) (ht : operations.count .shift ≤ tokens.length)
    (hc : g.Covered reductions operations) : ∃ r, run g reductions tokens operations = .ok r := by
  induction operations using List.reverseRecOn
  case nil => exact ⟨_, rfl⟩
  case append_singleton operations op hi =>
    rw [List.count_append] at hr ht
    have ⟨r, hrun⟩ := hi (by omega) (by omega) hc.of_append
    have ⟨ts, h⟩ := exists_assembles hrun
    have ⟨r', hstep⟩ : ∃ r', r.step g op = .ok r' := by
      cases op
      case shift => exact h.exists_shift ht
      case reduce => exact h.exists_reduce hs hr hc
    exact ⟨r', run_append_eq_ok.mpr ⟨r, hrun, bind_eq_ok.mpr ⟨r', hstep, rfl⟩⟩⟩

theorem covered_of_run (h : run g reductions tokens operations = .ok r) : g.Covered reductions operations := by
  rintro before after id rfl hid
  have ⟨r₁, hrun, h⟩ := run_append_eq_ok.mp h
  have ⟨r₂, hs, _⟩ := bind_eq_ok.mp h
  have ⟨p, rest, hr, hp, hl, _⟩ := reduce_eq_ok.mp hs
  have ⟨ts, ha⟩ := exists_assembles hrun
  rw [ha.count_reduce, ha.taken, List.getElem?_append_right (Nat.le_refl _), Nat.sub_self, hr] at hid
  cases hid
  rw [ha.height, Grammar.arity_eq hp]
  exact Int.ofNat_le.mpr hl

end Replay
end BottomUp

namespace Tree

-- A trace records a tree if the tree has its operations and its reductions, and if the tokens start with its
-- leaves.
structure Records (g : Grammar V) (t : Tree) (reductions : List ProductionId) (operations : List Operation)
    (tokens : List (Token Terminal)) : Prop where
  branching : t.Branching g
  operations : t.operations = operations
  postorder : t.postorder = reductions
  yield : t.yield <+: tokens.map Token.kind

theorem Records.unique (ht : t.Records g reductions operations tokens)
    (hu : u.Records g reductions operations tokens) : u = t := by
  have hl : u.yield.length = t.yield.length := by
    rw [← operations_count_shift, ← operations_count_shift, ht.operations, hu.operations]
  have hy : u.yield = t.yield :=
    (List.prefix_of_prefix_length_le hu.yield ht.yield (Nat.le_of_eq hl)).eq_of_length hl
  have : [u] = [t] := forest_inj (List.forall_mem_singleton.mpr hu.branching)
    (List.forall_mem_singleton.mpr ht.branching)
    (by simp [operationsAll, ht.operations, hu.operations])
    (by simp [postorderAll, ht.postorder, hu.postorder]) (by simp [yieldAll, hy])
  exact List.singleton_inj.mp this

end Tree

namespace Grammar

variable [OfLexeme V] {v : Option V}

theorem evaluateBottomUp_eq (hr : reductions ≠ []) (ho : operations ≠ []) (ht : tokens ≠ []) :
    g.evaluateBottomUp reductions operations tokens =
      reductions.forM (BottomUp.check g) >>= fun _ =>
        BottomUp.Replay.run g reductions tokens operations >>= BottomUp.Replay.value := by
  rw [evaluateBottomUp, if_neg (by simp [hr, ho, ht])]

theorem evaluateBottomUp_eq_ok (hr : reductions ≠ []) (ho : operations ≠ []) (ht : tokens ≠ []) :
    g.evaluateBottomUp reductions operations tokens = .ok v ↔ (∀ id ∈ reductions, g.Synthesizes id) ∧
      ∃ r, BottomUp.Replay.run g reductions tokens operations = .ok r ∧ r.value = .ok v := by
  rw [evaluateBottomUp_eq hr ho ht, bind_eq_ok, ← BottomUp.forM_check_eq_ok]
  exact ⟨fun ⟨(), hc, h⟩ => ⟨hc, bind_eq_ok.mp h⟩, fun ⟨hc, h⟩ => ⟨(), hc, bind_eq_ok.mpr h⟩⟩

end Grammar

namespace BottomUp.Replay

variable {r : Replay V} [OfLexeme V] {v : Option V}

theorem Assembles.balanced (h : Assembles g reductions operations tokens ts r)
    (hs : ∀ id ∈ reductions, g.Synthesizes id) (hc : g.Covered reductions operations)
    (hv : r.value = .ok v) : g.Balanced reductions operations tokens := by
  have ⟨hr, hvalues, token, rest, ht, hk⟩ := value_eq_ok.mp hv
  obtain ⟨shifted, htokens, hy⟩ := h.read
  exact {
    synthesizes := hs
    covered := hc
    reduced := by rw [h.count_reduce, h.taken, hr, List.append_nil]
    height := by simp [h.height, hvalues]
    stop := ⟨token, by simp [h.count_shift hy, htokens, ht], hk⟩ }

theorem Assembles.exists_records (h : Assembles g reductions operations tokens ts r)
    (hv : r.value = .ok v) : ∃ t : Tree, t.Records g reductions operations tokens ∧ v = t.fold g tokens := by
  have ⟨hr, hvalues, _⟩ := value_eq_ok.mp hv
  have hl := h.length_values
  rw [hvalues] at hl
  obtain ⟨t, rfl⟩ := List.length_eq_one_iff.mp hl.symm
  obtain ⟨hb, rfl, hfold, htaken, shifted, rfl, hy⟩ := h
  rw [hr] at htaken
  rw [hvalues] at hfold
  exact ⟨t, {
    branching := hb t (.head [])
    operations := by simp [operationsAll]
    postorder := by simpa [postorderAll] using htaken.symm
    yield := by simp [hy, yieldAll] }, List.singleton_inj.mp hfold⟩

theorem exists_value (h : g.Balanced reductions operations tokens) :
    ∃ r v, run g reductions tokens operations = .ok r ∧ r.value = .ok v := by
  have ⟨token, htoken, hk⟩ := h.stop
  have ⟨hlt, _⟩ := List.getElem?_eq_some_iff.mp htoken
  have ⟨r, hrun⟩ := exists_run h.synthesizes (Nat.le_of_eq h.reduced) (Nat.le_of_lt hlt) h.covered
  have ⟨ts, ha⟩ := exists_assembles hrun
  have hr : r.reductions = [] := by
    have hcount := ha.count_reduce.symm.trans h.reduced
    rw [ha.taken, List.length_append] at hcount
    exact List.length_eq_zero_iff.mp (by omega)
  have ⟨v, hv⟩ : ∃ v, r.values = [v] := by
    have hheight := ha.height.symm.trans h.height
    exact List.length_eq_one_iff.mp (by omega)
  have ⟨rest, ht⟩ : ∃ rest, r.tokens = token :: rest := by
    have ⟨shifted, htokens, hy⟩ := ha.read
    rw [ha.count_shift hy, htokens, List.getElem?_append_right (Nat.le_refl _), Nat.sub_self] at htoken
    exact List.head?_eq_some_iff.mp (List.head?_eq_getElem?.trans htoken)
  exact ⟨r, v, hrun, value_eq_ok.mpr ⟨hr, hv, token, rest, ht, hk⟩⟩

end BottomUp.Replay

open BottomUp.Replay in
-- Whether a trace can be evaluated is decided by its productions and by the order of its operations. The value
-- is that of the one tree that the trace records. A production that is unknown or does not synthesize its value
-- is noticed before anything is replayed.
theorem Grammar.evaluateBottomUp_exact [OfLexeme V] (g : Grammar V) (hr : reductions ≠ [])
    (ho : operations ≠ []) (ht : tokens ≠ []) :
    ((∃ v, g.evaluateBottomUp reductions operations tokens = .ok v) ↔
      g.Balanced reductions operations tokens) ∧
    (∀ v, g.evaluateBottomUp reductions operations tokens = .ok v →
      ∃ t : Tree, t.Records g reductions operations tokens ∧
        (∀ u : Tree, u.Records g reductions operations tokens → u = t) ∧ v = t.fold g tokens) ∧
    ∀ before id after, reductions = before ++ id :: after → (∀ id ∈ before, g.Synthesizes id) →
      (g.production? id = none →
        g.evaluateBottomUp reductions operations tokens = .error (.unknownProduction id)) ∧
      ∀ p, g.production? id = some p → ¬ p.attributes.isSAttributed →
        g.evaluateBottomUp reductions operations tokens = .error (.notSAttributed id) := by
  have hok {v : Option V} := evaluateBottomUp_eq_ok (g := g) (v := v) hr ho ht
  refine ⟨⟨?balanced, ?value⟩, ?tree, ?guard⟩
  case balanced =>
    intro ⟨v, h⟩
    have ⟨hs, r, hrun, hv⟩ := hok.mp h
    have ⟨ts, ha⟩ := exists_assembles hrun
    exact ha.balanced hs (covered_of_run hrun) hv
  case value =>
    intro h
    have ⟨r, v, hrun, hv⟩ := exists_value h
    exact ⟨v, hok.mpr ⟨h.synthesizes, r, hrun, hv⟩⟩
  case tree =>
    intro v h
    have ⟨_, r, hrun, hv⟩ := hok.mp h
    have ⟨ts, ha⟩ := exists_assembles hrun
    have ⟨t, ht, hfold⟩ := ha.exists_records hv
    exact ⟨t, ht, fun u hu => ht.unique hu, hfold⟩
  case guard =>
    rintro before id after rfl hb
    have herror {e : EvaluationError} (he : BottomUp.check g id = .error e) :
        g.evaluateBottomUp (before ++ id :: after) operations tokens = .error e := by
      rw [evaluateBottomUp_eq hr ho ht, BottomUp.forM_check_eq_error hb he]
      rfl
    exact ⟨fun hn => herror (by simp [BottomUp.check, hn]),
      fun p hp ha => herror (by simp [BottomUp.check, hp, ha])⟩

namespace Example.Brackets

-- Both reductions find three values, though not those of the symbols in the body.
def mismatched : List Operation := [.shift, .shift, .shift, .reduce, .shift, .shift, .reduce]

end Example.Brackets

open Example.Brackets in
theorem Grammar.evaluateBottomUp_exact_brackets :
    grammar.Balanced [⟨1⟩, ⟨1⟩] mismatched input ∧
    (∃ t : Tree, t.Records grammar [⟨1⟩, ⟨1⟩] mismatched input ∧
      some (.node "()" [.leaf ")"]) = t.fold grammar input) ∧
    ¬ grammar.Balanced [⟨1⟩, ⟨1⟩] mismatched.reverse input ∧
    ∀ operations, operations ≠ [] →
      grammar.evaluateBottomUp [⟨1⟩, ⟨7⟩, ⟨8⟩] operations input = .error (.unknownProduction ⟨7⟩) := by
  have hr : [(⟨1⟩ : ProductionId), ⟨1⟩] ≠ [] := List.cons_ne_nil _ _
  have ho : mismatched ≠ [] := List.cons_ne_nil _ _
  have ht : input ≠ [] := List.cons_ne_nil _ _
  have hvalue : grammar.evaluateBottomUp [⟨1⟩, ⟨1⟩] mismatched input =
    .ok (some (.node "()" [.leaf ")"])) := by rfl
  have hfailure : grammar.evaluateBottomUp [⟨1⟩, ⟨1⟩] mismatched.reverse input =
    .error (.valueStack 0) := by rfl
  have ⟨hbalanced, htree, _⟩ := evaluateBottomUp_exact grammar hr ho ht
  have ⟨hreverse, _, _⟩ := evaluateBottomUp_exact grammar hr (mt List.reverse_eq_nil_iff.mp ho) ht
  refine ⟨hbalanced.mp ⟨_, hvalue⟩, ?tree, fun h => ?reverse, fun operations ho => ?guard⟩
  case tree =>
    have ⟨t, ht, _, hv⟩ := htree _ hvalue
    exact ⟨t, ht, hv⟩
  case reverse =>
    have ⟨v, hv⟩ := hreverse.mpr h
    cases hfailure.symm.trans hv
  case guard =>
    have hr : [(⟨1⟩ : ProductionId), ⟨7⟩, ⟨8⟩] ≠ [] := List.cons_ne_nil _ _
    have ⟨_, _, hguard⟩ := evaluateBottomUp_exact grammar hr ho ht
    have hfirst : ∀ id ∈ [⟨1⟩], grammar.Synthesizes id :=
      List.forall_mem_singleton.mpr ⟨_, rfl, rfl⟩
    exact (hguard [⟨1⟩] ⟨7⟩ [⟨8⟩] rfl hfirst).left rfl

end CanonicalLR
