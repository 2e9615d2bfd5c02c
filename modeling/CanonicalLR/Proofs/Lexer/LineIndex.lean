import CanonicalLR.Text.LineIndex
import Mathlib.Data.List.Induction

namespace CanonicalLR

namespace Position

-- Behind some text: one row for every newline, and one column for every character since the last newline.
def after (cs : List Char) : Position :=
  ⟨1 + cs.count '\n', 1 + (cs.reverse.takeWhile (· ≠ '\n')).length⟩

variable {cs line : List Char} {c : Char}

theorem after_nil : after [] = origin := rfl

theorem after_concat : after (cs ++ [c]) = (after cs).advance (fun _ => 1) c := by
  by_cases hc : c = '\n'
  case pos => simp [after, advance, hc, Nat.add_assoc]
  case neg => simp [after, advance, hc, Nat.add_assoc]

-- Behind a line, the number of its characters makes the column.
theorem after_line (hl : cs = [] ∨ ∃ ls, cs = ls ++ ['\n']) (hn : '\n' ∉ line) :
    after (cs ++ line) = ⟨(cs ++ line).count '\n' + 1, line.length + 1⟩ := by
  induction line using List.reverseRecOn
  case nil => obtain rfl | ⟨ls, rfl⟩ := hl <;> simp [after, Nat.add_comm]
  case append_singleton line c hi =>
    have ⟨hline, hc⟩ : '\n' ∉ line ∧ '\n' ≠ c := by simpa [not_or] using hn
    rw [← List.append_assoc, after_concat, hi hline, advance, if_neg hc.symm]
    simp [List.count_eq_zero.mpr, hc]

end Position

namespace Text

variable {cs ds before between after lines line : List Char} {n offset : Nat}

theorem splitAt?_append : splitAt? (utf8Length before) (before ++ after) = some (before, after) := by
  induction before
  case nil => rw [utf8Length, splitAt?, List.nil_append]
  case cons c cs hi =>
    obtain ⟨k, hk⟩ := Nat.exists_eq_succ_of_ne_zero (Nat.ne_of_gt c.utf8Size_pos)
    have hl : utf8Length (c :: cs) = k + utf8Length cs + 1 := by
      rw [utf8Length]
      omega
    rw [hl, List.cons_append, splitAt?, if_pos (by omega)]
    have hr : k + utf8Length cs + 1 - c.utf8Size = utf8Length cs := by omega
    rw [hr, hi, Option.map_some]

theorem slice?_append : slice? (utf8Length before) (utf8Length (before ++ between))
    (before ++ between ++ after) = some between := by
  rw [slice?, utf8Length_append, if_pos (Nat.le_add_right ..), List.append_assoc, splitAt?_append,
    Option.bind_some, Nat.add_sub_cancel_left, splitAt?_append, Option.map_some]

theorem bisect_eq {p : Nat → Bool} {k low size : Nat} (hl : low ≤ k) (hk : k ≤ low + size)
    (hp : ∀ i < low + size, p i ↔ i < k) : bisect p low size = k := by
  fun_induction bisect p low size
  case case1 => omega
  case case2 low size hs hlow hi =>
    have := (hp (low + size / 2) (by omega)).mp hlow
    exact hi (by omega) (by omega) fun i hi => hp i (by omega)
  case case3 low size hs hlow hi =>
    have := (hp (low + size / 2) (by omega)).not.mp hlow
    exact hi hl (by omega) fun i hi => hp i (by omega)

theorem partitionPoint_append {α : Type} {p : α → Bool} {xs ys : List α} (hx : ∀ x ∈ xs, p x)
    (hy : ∀ y ∈ ys, ¬ p y) : partitionPoint p (xs ++ ys) = xs.length := by
  refine bisect_eq (Nat.zero_le _) (by simp) fun i hi => ?_
  rw [Nat.zero_add, List.length_append] at hi
  by_cases h : i < xs.length
  case pos => simpa [List.getElem?_append_left h, h] using hx _ (List.getElem_mem h)
  case neg =>
    have hlt : i - xs.length < ys.length := by omega
    simpa [List.getElem?_append_right (Nat.le_of_not_lt h), hlt, h] using hy _ (List.getElem_mem hlt)

theorem newlines_append :
    newlines offset (cs ++ ds) = newlines offset cs ++ newlines (offset + utf8Length cs) ds := by
  induction cs generalizing offset
  case nil => rfl
  case cons c cs hi =>
    simp only [List.cons_append, newlines, hi, utf8Length, Nat.add_assoc]
    split <;> rfl

theorem length_newlines : (newlines offset cs).length = cs.count '\n' := by
  induction cs generalizing offset
  case nil => rfl
  case cons c cs hi =>
    simp only [newlines]
    split
    case isTrue h => simp [h, hi]
    case isFalse h => simp [h, hi]

theorem newlines_bounds (h : n ∈ newlines offset cs) : offset ≤ n ∧ n < offset + utf8Length cs := by
  induction cs generalizing offset
  case nil => contradiction
  case cons c cs hi =>
    have hc := c.utf8Size_pos
    have tail (h : n ∈ newlines (offset + c.utf8Size) cs) :
        offset ≤ n ∧ n < offset + utf8Length (c :: cs) := by
      have := hi h
      rw [utf8Length]
      omega
    simp only [newlines] at h
    split at h
    case isFalse => exact tail h
    case isTrue =>
      cases h
      case tail h => exact tail h
      case head =>
        rw [utf8Length]
        omega

-- A text ends with a line that contains no newline.
theorem exists_line (cs : List Char) :
    ∃ lines line, cs = lines ++ line ∧ '\n' ∉ line ∧ (lines = [] ∨ ∃ ls, lines = ls ++ ['\n']) := by
  induction cs using List.reverseRecOn
  case nil => exact ⟨[], [], rfl, List.not_mem_nil, .inl rfl⟩
  case append_singleton cs c hi =>
    by_cases hc : c = '\n'
    case pos => exact ⟨cs ++ [c], [], (List.append_nil _).symm, List.not_mem_nil, .inr ⟨cs, hc ▸ rfl⟩⟩
    case neg =>
      obtain ⟨lines, line, rfl, hn, hl⟩ := hi
      refine ⟨lines, line ++ [c], List.append_assoc .., ?_, hl⟩
      simpa [hn] using Ne.symm hc

end Text

open Text

namespace LineIndex

variable {before after lines line : List Char}

-- The lines that start in the text before an offset, or at the offset, come first.
theorem starts_append : (ofText (before ++ after)).starts =
    (ofText before).starts ++ (newlines (utf8Length before) after).map (· + 1) := by
  simp [ofText, newlines_append]

theorem length_starts : (ofText before).starts.length = before.count '\n' + 1 := by
  simp [ofText, length_newlines]

theorem partitionPoint_starts :
    partitionPoint (· ≤ utf8Length before) (ofText (before ++ after)).starts = before.count '\n' + 1 := by
  rw [starts_append, partitionPoint_append, length_starts]
  case hx =>
    intro start h
    obtain rfl | h := List.mem_cons.mp h
    · simp
    · obtain ⟨n, hn, rfl⟩ := List.mem_map.mp h
      have := newlines_bounds hn
      simp only [decide_eq_true_eq]
      omega
  case hy =>
    intro start h
    obtain ⟨n, hn, rfl⟩ := List.mem_map.mp h
    have := newlines_bounds hn
    simp only [decide_eq_true_eq]
    omega

-- The last one of the lines that have started.
theorem getElem?_starts (hl : lines = [] ∨ ∃ ls, lines = ls ++ ['\n']) (hn : '\n' ∉ line) :
    (ofText (lines ++ line ++ after)).starts[(lines ++ line).count '\n']? = some (utf8Length lines) := by
  have hcount : (lines ++ line).count '\n' = lines.count '\n' := by
    rw [List.count_append, List.count_eq_zero.mpr hn, Nat.add_zero]
  rw [hcount, List.append_assoc, starts_append]
  obtain rfl | ⟨ls, rfl⟩ := hl
  · rfl
  · have hstarts : (ofText (ls ++ ['\n'])).starts = (ofText ls).starts ++ [utf8Length (ls ++ ['\n'])] := by
      simp [starts_append, newlines, utf8Length]
      rfl
    rw [hstarts, List.append_assoc, List.getElem?_append_right (by rw [length_starts]; simp), length_starts]
    simp

theorem position?_eq :
    (ofText (before ++ after)).position? (before ++ after) (utf8Length before) = some (.after before) := by
  obtain ⟨lines, line, rfl, hn, hl⟩ := exists_line before
  rw [position?, partitionPoint_starts]
  simp only [getElem?_starts hl hn, slice?_append, Option.map_some, Position.after_line hl hn]

end LineIndex
end CanonicalLR
