import CanonicalLR.Proofs.Spine

namespace CanonicalLR

open Automaton
open CanonicalLR.Symbol (word)

variable {V : Type} {g : Grammar V} {α β γ δ : List Symbol} {w : List Terminal}

namespace Grammar

-- Every nonterminal that the start symbol leads to derives a string of terminals.
def Productive (g : Grammar V) : Prop :=
  ∀ (n : Nonterminal) (α β : List Symbol),
    g.Derives [.nonterminal g.startSymbol] (α ++ .nonterminal n :: β) →
      ∃ w, g.Derives [.nonterminal n] (word w)

namespace Derives

theorem exists_rightmost (hg : g.Augmented) (h : g.Derives α (word w)) :
    ∃ ids, g.Rightmost α ids (word w) := by
  obtain ⟨ts, hf, rfl⟩ := Forest.of_derives_word hg h
  exact ⟨_, hf.rightmost⟩

-- The augmenting production is the only way to go on from `$start`.
theorem of_start (hg : g.Augmented) (h : g.Derives [.nonterminal .start] α) :
    α = [.nonterminal .start] ∨ g.Derives [.nonterminal g.startSymbol] α := by
  cases Relation.ReflTransGen.cases_head h
  case inl h => exact .inl h.symm
  case inr h =>
    have ⟨β, hp, hd⟩ := h
    generalize hs : [Symbol.nonterminal .start] = σ at hp
    have ⟨l, r, hp⟩ := hp
    cases l
    case cons => simp at hs
    case nil =>
      simp only [List.nil_append, List.cons.injEq, Symbol.nonterminal.injEq] at hs
      obtain ⟨hh, rfl⟩ := hs
      have ⟨q, hq, _, hb⟩ := hg.accept
      have hi := hg.start _ hp hh.symm
      have := hg.lookup _ hp
      rw [hi, hq] at this
      cases this
      have hd : g.Derives ([] ++ _ ++ []) α := hd
      right
      simpa [hb] using hd

end Derives

namespace Productive

variable {n : Nonterminal}

theorem exists_word_nonterminal (hp : g.Productive) (hg : g.Augmented)
    (h : g.Derives [.nonterminal .start] (α ++ .nonterminal n :: β)) :
    ∃ w, g.Derives [.nonterminal n] (word w) := by
  cases h.of_start hg
  case inr h => exact hp n α β h
  case inl h =>
    -- It is `$start` itself, which derives what the start symbol derives.
    obtain ⟨rfl, h⟩ := List.append_eq_singleton_iff.mp h |>.resolve_right (by simp)
    cases h
    have ⟨q, hq, hh, hb⟩ := hg.accept
    have ⟨w, hw⟩ := hp g.startSymbol [] [] .refl
    have hd := Derives.production (production?_mem hq)
    rw [hh, hb] at hd
    exact ⟨w, hd.trans hw⟩

-- All parts of a string that `$start` derives go on to strings of terminals.
theorem exists_word (hp : g.Productive) (hg : g.Augmented)
    (h : g.Derives [.nonterminal .start] (α ++ β ++ γ)) : ∃ w, g.Derives β (word w) := by
  induction β generalizing α
  case nil => exact ⟨[], .refl⟩
  case cons x β hi =>
    have ⟨v, hv⟩ := hi (α := α ++ [x]) (by simpa using h)
    have hx : ∃ u, g.Derives [x] (word u) := by
      cases x
      case terminal t => exact ⟨[t], .refl⟩
      case nonterminal n => exact hp.exists_word_nonterminal hg (by simpa using h)
    have ⟨u, hu⟩ := hx
    exact ⟨u ++ v, by simpa using hu.append hv⟩

end Productive
end Grammar

open Grammar

-- The body that the center stands in is a part of a string that `$start` derives.
def Center.Occurs (g : Grammar V) (c : Center) : Prop :=
  ∃ (p : Production V) (α β : List Symbol), g.production? c.production = some p ∧
    g.Derives [.nonterminal .start] (α ++ p.body ++ β)

namespace Center.Occurs

variable {c : Center} {p : Production V} {x : Symbol}

theorem exists_rest (h : c.Occurs g) (hx : c.next? g = some x) :
    ∃ α ω, g.Derives [.nonterminal .start] (α ++ x :: c.rest g ++ ω) := by
  obtain ⟨p, α, ω, hp, hd⟩ := h
  obtain ⟨q, hq, hb⟩ := exists_drop_eq hx
  cases hp.symm.trans hq
  rw [← List.take_append_drop c.position.toNat p.body, hb, ← List.append_assoc] at hd
  exact ⟨_, ω, hd⟩

theorem predicted (hg : g.Augmented) (h : c.Occurs g) (hp : p ∈ g.productions)
    (hn : c.next? g = some (.nonterminal p.head)) : (⟨p.id, 0⟩ : Center).Occurs g := by
  have ⟨α, ω, hd⟩ := h.exists_rest hn
  refine ⟨p, α, c.rest g ++ ω, hg.lookup p hp, ?_⟩
  have := (Derives.production hp).append_left (γ := α) |>.append_right (γ := c.rest g ++ ω)
  simpa using hd.trans (by simpa using this)

theorem exists_word (hg : g.Augmented) (hp : g.Productive) (h : c.Occurs g) (hx : c.next? g = some x)
    (hr : g.Derives (c.rest g) (α ++ β)) : ∃ w, g.Derives β (word w) := by
  have ⟨α', ω, hd⟩ := h.exists_rest hx
  have hr : g.Derives (α' ++ x :: c.rest g ++ ω) (α' ++ x :: (α ++ β) ++ ω) :=
    (Derives.append_left (Derives.append_left (γ := [x]) hr)).append_right
  exact hp.exists_word hg (α := α' ++ x :: α) (γ := ω) (by simpa using hd.trans hr)

end Center.Occurs

-- The string is read backwards.
def Center.Valid (g : Grammar V) (γ : List Symbol) (c : Center) (t : Terminal) : Prop :=
  ∃ (p : Production V) (δ : List Symbol) (ids : List ProductionId) (w : List Terminal),
    c.Fits g p γ δ ∧
      g.Rightmost [.nonterminal .start] ids (δ.reverse ++ .nonterminal p.head :: word w) ∧
      (w ++ [Terminal.eof]).head? = some t

namespace Center.Valid

variable {c : Center} {t u : Terminal} {x : Symbol} {p : Production V}

theorem start (hg : g.Augmented) : (⟨.accept, 0⟩ : Center).Valid g [] .eof := by
  have ⟨p, hp, hh, _⟩ := hg.accept
  exact ⟨p, [], [], [], .start hp rfl fun _ => rfl, hh ▸ .refl, rfl⟩

theorem advance (hs : g.Short) (h : c.Valid g γ t) (hx : c.next? g = some x) :
    c.advance.Valid g (x :: γ) t := by
  have ⟨p, δ, ids, w, hf, hd, ht⟩ := h
  exact ⟨p, δ, ids, w, hf.advance_of_short (hs.production? hf.lookup) hx, hd, ht⟩

-- The derivation goes on with the body of the item.
theorem rightmost (h : c.Valid g γ t) :
    ∃ p ids w, g.production? c.production = some p ∧
      g.Rightmost [.nonterminal .start] ids (γ.reverse ++ p.body.drop c.position.toNat ++ word w) ∧
      (w ++ [Terminal.eof]).head? = some t := by
  have ⟨p, δ, ids, w, hf, hd, ht⟩ := h
  refine ⟨p, ids ++ [p.id], w, hf.lookup, ?_, ht⟩
  have := Rightmost.rewrite _ w hd (production?_mem hf.lookup)
  rw [← List.take_append_drop c.position.toNat p.body] at this
  simpa [hf.spelled] using this

theorem rightmost_next (h : c.Valid g γ t) (hx : c.next? g = some x) :
    ∃ ids w, g.Rightmost [.nonterminal .start] ids (γ.reverse ++ x :: c.rest g ++ word w) ∧
      (w ++ [Terminal.eof]).head? = some t := by
  have ⟨p, ids, w, hp, hd, ht⟩ := h.rightmost
  have ⟨_, hp', hb⟩ := exists_drop_eq hx
  cases hp.symm.trans hp'
  exact ⟨ids, w, hb ▸ hd, ht⟩

theorem predicted {v : List Terminal} (hg : g.Augmented) (h : c.Valid g γ t)
    (hp : p ∈ g.productions) (hn : c.next? g = some (.nonterminal p.head))
    (hr : g.Derives (c.rest g) (word v)) (hu : (v ++ [t]).head? = some u) :
    (⟨p.id, 0⟩ : Center).Valid g γ u := by
  have ⟨ids, w, hd, ht⟩ := h.rightmost_next hn
  have ⟨ids', hr⟩ := hr.exists_rightmost hg
  refine ⟨p, γ, ids ++ ids', v ++ w, fits_predicted hg hp hn, ?_, ?_⟩
  · have := (hr.append_word (w := w)).append_left (γ := γ.reverse ++ [.nonterminal p.head])
    simpa using hd.trans (by simpa using this)
  · cases v
    case nil => simpa [← hu] using ht
    case cons => simpa using hu

theorem occurs (h : c.Valid g γ t) : c.Occurs g := by
  have ⟨p, δ, ids, w, hf, hd, _⟩ := h
  exact ⟨p, δ.reverse, word w, hf.lookup, (hd.rewrite _ w (production?_mem hf.lookup)).derives⟩

end Center.Valid

namespace ItemSet

variable {s s' : ItemSet} {x : Symbol} {i : Item}

-- No center is left without a lookahead. What a center has passed does not matter here.
structure Live (g : Grammar V) (s : ItemSet) : Prop where
  lookahead : ∀ c ∈ s, ∃ t, s.Holds c t
  occurs : ∀ c ∈ s, c.Occurs g

namespace Live

theorem root (hg : g.Augmented) : Automaton.rootKernel.Live g where
  lookahead c hc := ⟨.eof, holds_rootKernel.mpr ⟨mem_rootKernel.mp hc, rfl⟩⟩
  occurs c hc := by
    have ⟨p, hp, hh, _⟩ := hg.accept
    rw [mem_rootKernel.mp hc]
    exact ⟨p, [], [], hp, by simpa [hh] using Derives.production (production?_mem hp)⟩

theorem advance (h : s.Live g) : (s.advance g x).Live g where
  lookahead c hc := by
    obtain ⟨b, hb, hx, rfl⟩ := mem_advance.mp hc
    have ⟨t, ht⟩ := h.lookahead b hb
    exact ⟨t, holds_advance.mpr ⟨b, ht, hx, rfl⟩⟩
  occurs c hc := by
    obtain ⟨b, hb, _, rfl⟩ := mem_advance.mp hc
    exact h.occurs b hb

theorem exists_lookahead (h : s.Live g) (hi : i ∈ s.items) : ∃ t, t ∈ i.lookaheads := by
  have ⟨t, ht⟩ := h.lookahead i.center ⟨i, hi, rfl⟩
  exact ⟨t, (holds_center hi).mp ht⟩

-- The rest of a body goes on to a string of terminals. If there are any, the first one is a lookahead of
-- what is predicted; otherwise the lookaheads are those of the item that predicts.
theorem found (hg : g.Augmented) (hp : g.Productive) (h : s.Live g) (hi : i.Found g g.firstSets s.items) :
    (∃ t, t ∈ i.lookaheads) ∧ i.center.Occurs g := by
  induction hi
  case given i hi => exact ⟨h.exists_lookahead hi, h.occurs i.center ⟨i, hi, rfl⟩⟩
  case predicted i j is _ he hj ih =>
    have ⟨⟨t, ht⟩, ho⟩ := ih
    obtain ⟨n, hn, p, hpn, rfl⟩ := (Item.mem_expand he).mp hj
    obtain ⟨hm, rfl⟩ := mem_productionsOf.mp hpn
    refine ⟨?_, ho.predicted hg hm hn⟩
    simp only [FirstSets.mem_localFirst]
    have ⟨w, hw⟩ := ho.exists_word (α := []) hg hp hn .refl
    cases w
    case nil => exact ⟨t, .inr ⟨hw.epsilon, ht⟩⟩
    case cons u w =>
      have hu := hw.declares hg.scoped (fun _ => Center.declares_rest hg) u (by simp)
      exact ⟨u, .inl (hw.mem_sequence hg.scoped hu)⟩

theorem closure (hg : g.Augmented) (hp : g.Productive) (hc : Closure g g.firstSets s s')
    (h : s.Live g) : s'.Live g where
  lookahead c hm := by
    obtain ⟨i, hi, rfl⟩ := (hc.mem c).mp hm
    have ⟨t, ht⟩ := (h.found hg hp hi).left
    exact ⟨t, (hc.holds ..).mpr ⟨i, hi, rfl, ht⟩⟩
  occurs c hm := by
    obtain ⟨i, hi, rfl⟩ := (hc.mem c).mp hm
    exact (h.found hg hp hi).right

end Live

-- Whatever an item set holds is valid for the string.
structure Valid (g : Grammar V) (γ : List Symbol) (s : ItemSet) : Prop extends Live g s where
  valid : ∀ c t, s.Holds c t → c.Valid g γ t

namespace Valid

theorem root (hg : g.Augmented) : Automaton.rootKernel.Valid g [] where
  toLive := .root hg
  valid c t h := by
    obtain ⟨rfl, rfl⟩ := holds_rootKernel.mp h
    exact .start hg

theorem advance (hs : g.Short) (h : s.Valid g γ) : (s.advance g x).Valid g (x :: γ) where
  toLive := h.toLive.advance
  valid c t hc := by
    obtain ⟨b, hb, hx, rfl⟩ := holds_advance.mp hc
    exact (h.valid b t hb).advance hs hx

-- A lookahead of a predicted item begins what the rest of a body derives, or it is a lookahead of the
-- item that predicts. In the first case the rest goes on to a string of terminals.
theorem found (hg : g.Augmented) (hp : g.Productive) (h : s.Valid g γ)
    (hi : i.Found g g.firstSets s.items) : ∀ t ∈ i.lookaheads, i.center.Valid g γ t := by
  induction hi
  case given i hi => exact fun t ht => h.valid i.center t ⟨i, hi, rfl, ht⟩
  case predicted i j is hf he hj hv =>
    have ⟨⟨t, ht⟩, ho⟩ := h.toLive.found hg hp hf
    obtain ⟨n, hn, p, hpn, rfl⟩ := (Item.mem_expand he).mp hj
    obtain ⟨hm, rfl⟩ := mem_productionsOf.mp hpn
    simp only [FirstSets.mem_localFirst]
    rintro u (hu | ⟨he, hu⟩)
    · have ⟨β, hβ⟩ := sound_firstSets.sequence hu
      have ⟨v, hβ'⟩ := ho.exists_word (α := [.terminal u]) hg hp hn hβ
      have hr := hβ.trans (hβ'.append_left (γ := [.terminal u]))
      exact (hv t ht).predicted (v := u :: v) hg hm hn hr rfl
    · exact (hv u hu).predicted (v := []) hg hm hn (sound_firstSets.epsilon he) rfl

theorem closure (hg : g.Augmented) (hp : g.Productive) (hc : Closure g g.firstSets s s')
    (h : s.Valid g γ) : s'.Valid g γ where
  toLive := h.toLive.closure hg hp hc
  valid c t hm := by
    obtain ⟨i, hi, rfl, ht⟩ := (hc.holds c t).mp hm
    exact h.found hg hp hi t ht

end Valid
end ItemSet

theorem Spine.valid {a : Automaton} {q : StateId} {below : List StateId} {s : State}
    (hg : g.Augmented) (hl : g.Short) (hp : g.Productive) (ha : Canonical g a)
    (h : Spine a (q :: below) γ) (hs : a.state? q = some s) : s.items.Valid g γ := by
  refine h.state_induction (P := fun γ s => s.items.Valid g γ) ha ?root ?push hs
  case root => exact fun s hk hc => .closure hg hp hc (hk ▸ .root hg)
  case push => exact fun s t x γ hi _ hk hc => .closure hg hp hc (hk ▸ hi.advance hl)

end CanonicalLR
