import CanonicalLR.Automaton.Item

namespace CanonicalLR

namespace Item

-- Enter an item into a map, the entries of which have centers of their own. They are kept in the order in which
-- their centers have been met first, until the map is sorted.
def enter (i : Item) : List Item → List Item
  | [] => [⟨i.center, ∅ ∪ i.lookaheads⟩]
  | j :: js => if i.center = j.center then ⟨j.center, j.lookaheads ∪ i.lookaheads⟩ :: js else j :: i.enter js

def compress (is : List Item) : List Item :=
  (is.foldl (fun js i => i.enter js) []).mergeSort fun i j => ¬ j.center.Before i.center

end Item

-- What tells item sets apart: the production, the position and the lookaheads of every item.
def ItemSet.key (s : ItemSet) : List (ProductionId × UInt16 × List Terminal) :=
  s.items.map fun i => (i.center.production, i.center.position, i.lookaheads.toList)

end CanonicalLR
