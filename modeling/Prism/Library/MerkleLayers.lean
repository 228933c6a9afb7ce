import Mathlib

/-!
# Merkle trees by layers

A Merkle tree over a list of leaves, built a layer at a time: a layer with an
odd number of nodes, more than one, repeats its last node (`pad`), and the
layer above combines the nodes of the padded layer in pairs (`parents`),
until one node, the root, is left (`layers`).  Laid out in one array the
layers go root first (`flat`).

A branch for a leaf is the sibling of each node on the path from it to the
root (`siblings`), and a verifier climbs from the leaf, combining with each
sibling on the side the position's parity gives (`climb`): climbing a
leaf's own branch reaches the root (`climb_siblings_layers`).  Changing one
node of a layer changes it in the padded layer, and its repeat where it is
the last (`pad_set`), and so one node of the layer above (`parents_of_agree`).
-/

namespace MerkleLayers

variable {H : Type}

/-- The layers laid out in one array, root first. -/
def flat (rows : List (List H)) : List H :=
  rows.reverse.flatten

@[simp] theorem flat_nil : flat ([] : List (List H)) = [] := rfl

@[simp] theorem flat_cons (row : List H) (rest : List (List H)) : flat (row :: rest) = flat rest ++ row := by
  simp [flat]

theorem length_flat : ∀ rows : List (List H), (flat rows).length = (rows.map List.length).sum
  | [] => rfl
  | row :: rest => by
      rw [flat_cons, List.length_append, length_flat rest, List.map_cons, List.sum_cons, Nat.add_comm]

section Combine

variable (combine : H → H → H)

/-- The layer above: the nodes combined in pairs. -/
def parents : List H → List H
  | a :: b :: rest => combine a b :: parents rest
  | _ => []

theorem length_parents : ∀ layer : List H, (parents combine layer).length = layer.length / 2
  | [] => by simp [parents]
  | [_] => by simp [parents]
  | a :: b :: rest => by
      rw [parents, List.length_cons, length_parents rest]
      simp only [List.length_cons]
      omega

/-- A node of the layer above combines the two nodes below it. -/
theorem getElem?_parents : ∀ (layer : List H) (index : Nat),
    (parents combine layer)[index]? =
      layer[2 * index]?.bind fun left => layer[2 * index + 1]?.map (combine left)
  | [], _ => rfl
  | [_], 0 => rfl
  | [_], _ + 1 => rfl
  | a :: b :: rest, 0 => rfl
  | a :: b :: rest, index + 1 => by
      rw [parents, List.getElem?_cons_succ, getElem?_parents rest index]
      simp only [show 2 * (index + 1) = 2 * index + 1 + 1 by omega, List.getElem?_cons_succ]

/-- Changing the nodes of one pair changes one node of the layer above: the
pair's parent. -/
theorem parents_of_agree {layer changed : List H} {pair : Nat} {left right : H}
    (sameLength : changed.length = layer.length)
    (agree : ∀ index, index / 2 ≠ pair → changed[index]? = layer[index]?)
    (atLeft : changed[2 * pair]? = some left) (atRight : changed[2 * pair + 1]? = some right) :
    parents combine changed = (parents combine layer).set pair (combine left right) := by
  apply List.ext_getElem?
  intro index
  rw [getElem?_parents, List.getElem?_set]
  by_cases here : pair = index
  · -- the pair's parent
    subst here
    have inside : pair < (parents combine layer).length := by
      have := (List.getElem?_eq_some_iff.mp atRight).1
      rw [length_parents]
      omega
    rw [if_pos rfl, if_pos inside, atLeft, atRight]
    rfl
  · -- any other parent reads two nodes that did not change
    rw [if_neg here, getElem?_parents, agree (2 * index) (by omega), agree (2 * index + 1) (by omega)]

end Combine

/-- Whether `pad` repeats the last node of a layer of `size` nodes: an odd
number, more than one. -/
def Padded (size : Nat) : Prop := size % 2 = 1 ∧ 1 < size

instance (size : Nat) : Decidable (Padded size) := inferInstanceAs (Decidable (_ ∧ _))

section Pad

variable [Inhabited H]

/-- A layer with its last node repeated when it has an odd number of nodes,
more than one. -/
def pad (layer : List H) : List H :=
  if Padded layer.length then layer ++ [layer.getLastD default] else layer

theorem length_pad (layer : List H) :
    (pad layer).length = if Padded layer.length then layer.length + 1 else layer.length := by
  unfold pad
  split_ifs <;> simp

variable (combine : H → H → H)

/-- The padded layers of the tree over `leaves`, from the leaves up to the
root. -/
def layers (leaves : List H) : List (List H) :=
  if leaves.length ≤ 1 then [leaves]
  else pad leaves :: layers (parents combine (pad leaves))
termination_by leaves.length
decreasing_by
  rw [length_parents, length_pad]
  split_ifs <;> omega

theorem layers_of_le_one {leaves : List H} (small : leaves.length ≤ 1) : layers combine leaves = [leaves] := by
  rw [layers, if_pos small]

theorem layers_of_one_lt {leaves : List H} (large : 1 < leaves.length) :
    layers combine leaves = pad leaves :: layers combine (parents combine (pad leaves)) := by
  rw [layers, if_neg (Nat.not_le.mpr large)]

theorem layers_ne_nil (leaves : List H) : layers combine leaves ≠ [] := by
  unfold layers
  split_ifs <;> simp

/-- A padded layer of more than one node has an even number of them. -/
theorem length_pad_even {layer : List H} (large : 1 < layer.length) : (pad layer).length % 2 = 0 := by
  rw [length_pad]
  split_ifs with padded <;> unfold Padded at padded <;> omega

theorem length_le_length_pad (layer : List H) : layer.length ≤ (pad layer).length := by
  rw [length_pad]
  split_ifs <;> omega

/-- Above a layer of more than one node there is a layer. -/
theorem parents_pad_ne_nil {layer : List H} (large : 1 < layer.length) : parents combine (pad layer) ≠ [] :=
  List.ne_nil_of_length_pos (by
    rw [length_parents]
    have := length_le_length_pad layer
    have := length_pad_even large
    omega)

/-- Laid out in one array, the layers of more than one leaf are those above
the leaves, then the padded leaves. -/
theorem flat_layers_of_one_lt {leaves : List H} (large : 1 < leaves.length) :
    flat (layers combine leaves) = flat (layers combine (parents combine (pad leaves))) ++ pad leaves := by
  rw [layers_of_one_lt combine large, flat_cons]

/-- Padding keeps the nodes of the layer where they are. -/
theorem getElem?_pad_of_lt {layer : List H} {index : Nat} (inside : index < layer.length) :
    (pad layer)[index]? = layer[index]? := by
  unfold pad
  split_ifs
  · exact List.getElem?_append_left inside
  · rfl

/-- A layer with one node changed, padded: the node changed in the padded
layer, and its repeat too where it is the last node of a padded layer. -/
theorem pad_set {layer : List H} {index : Nat} (value : H) (inside : index < layer.length) :
    pad (layer.set index value) =
      if Padded layer.length ∧ index + 1 = layer.length then ((pad layer).set index value).set (index + 1) value
      else (pad layer).set index value := by
  unfold pad
  rw [List.length_set]
  by_cases padded : Padded layer.length
  · rw [if_pos padded, if_pos padded, List.set_append_left _ _ inside]
    by_cases last : index + 1 = layer.length
    · -- the repeat is the new node
      have atLast : (layer.set index value).getLast? = some value := by
        rw [List.getLast?_eq_getElem?, List.length_set, ← last, Nat.add_sub_cancel, List.getElem?_set_self inside]
      rw [if_pos ⟨padded, last⟩, List.set_append_right _ _ (by simp; omega)]
      simp [atLast, ← last]
    · -- the repeat is the old last node
      rw [if_neg (fun both => last both.2)]
      simp [List.getLast?_eq_getElem?, show index ≠ layer.length - 1 by omega]
  · rw [if_neg padded, if_neg padded, if_neg (fun both => padded both.1)]

/-- Where a node's sibling sits in its padded layer. -/
def sibling (index : Nat) : Nat := if index % 2 = 0 then index + 1 else index - 1

/-- The sibling of a node of a padded layer is in it. -/
theorem sibling_lt_length_pad {layer : List H} {index : Nat} (large : 1 < layer.length)
    (inside : index < layer.length) : sibling index < (pad layer).length := by
  have even := length_pad_even large
  have longer := length_le_length_pad layer
  unfold sibling
  split_ifs <;> omega

/-- The siblings of the nodes on the path from leaf `index` up to the root. -/
def siblings : List (List H) → Nat → List H
  | row :: rest@(_ :: _), index => row.getD (sibling index) default :: siblings rest (index / 2)
  | _, _ => []

/-- A verifier's climb from a node at `index`: each step combines with the
next sibling, on the left of it where the index is even. -/
def climb : H → Nat → List H → H
  | acc, _, [] => acc
  | acc, index, node :: rest =>
      climb (if index % 2 = 0 then combine acc node else combine node acc) (index / 2) rest

/-- The root: the node of the top layer. -/
def top (rows : List (List H)) : H :=
  (rows.getLast?.bind List.head?).getD default

/-- One step of the climb meets the node above on the path. -/
theorem climb_step {leaves : List H} {index : Nat} {leaf : H} (large : 1 < leaves.length)
    (atLeaf : leaves[index]? = some leaf) :
    (parents combine (pad leaves))[index / 2]? =
      some (if index % 2 = 0 then combine leaf ((pad leaves).getD (sibling index) default)
        else combine ((pad leaves).getD (sibling index) default) leaf) := by
  have inside : index < leaves.length := (List.getElem?_eq_some_iff.mp atLeaf).1
  obtain ⟨siblingNode, siblingAt⟩ : ∃ node, (pad leaves)[sibling index]? = some node :=
    ⟨_, List.getElem?_eq_getElem (sibling_lt_length_pad large inside)⟩
  have atPadded : (pad leaves)[index]? = some leaf := (getElem?_pad_of_lt inside).trans atLeaf
  rw [getElem?_parents, List.getD_eq_getElem?_getD, siblingAt, Option.getD_some]
  unfold sibling at siblingAt
  -- the pair below is the node and its sibling, in the order of the index's parity
  split_ifs at siblingAt ⊢ with even
  · rw [show 2 * (index / 2) = index by omega, atPadded, Option.bind_some, siblingAt, Option.map_some]
  · rw [show 2 * (index / 2) = index - 1 by omega, siblingAt, Option.bind_some,
      show index - 1 + 1 = index by omega, atPadded, Option.map_some]

/-- Climbing a leaf's own branch reaches the root. -/
theorem climb_siblings_layers (leaves : List H) (index : Nat) (leaf : H) (atLeaf : leaves[index]? = some leaf) :
    climb combine leaf index (siblings (layers combine leaves) index) = top (layers combine leaves) := by
  have inside : index < leaves.length := (List.getElem?_eq_some_iff.mp atLeaf).1
  by_cases large : 1 < leaves.length
  · -- one step up the path, then the branch of the node above in the layers above
    have above := climb_siblings_layers (parents combine (pad leaves)) (index / 2) _ (climb_step combine large atLeaf)
    obtain ⟨row, rows, rowsEq⟩ := List.exists_cons_of_ne_nil (layers_ne_nil combine (parents combine (pad leaves)))
    rw [layers_of_one_lt combine large, rowsEq, siblings, climb, ← rowsEq, above]
    simp [top, rowsEq]
  · obtain ⟨rfl⟩ : index = 0 := by omega
    obtain ⟨only, rfl⟩ := List.length_eq_one_iff.mp (show leaves.length = 1 by omega)
    obtain rfl : only = leaf := by simpa using atLeaf
    simp [layers_of_le_one, siblings, climb, top]
termination_by leaves.length
decreasing_by
  rw [length_parents, length_pad]
  split_ifs <;> omega

/-- A tree branch holds a sibling for each layer below the root. -/
theorem length_siblings : ∀ (rows : List (List H)) (index : Nat), (siblings rows index).length = rows.length - 1
  | [], _ => by simp [siblings]
  | [_], _ => by simp [siblings]
  | row :: next :: rest, index => by
      rw [siblings, List.length_cons, length_siblings (next :: rest) (index / 2)]
      simp

/-- The layers of a nonempty tree fill an odd number of places: the root,
and padded layers of even size below it. -/
theorem length_flat_layers_odd (leaves : List H) (nonempty : leaves ≠ []) :
    (flat (layers combine leaves)).length % 2 = 1 := by
  by_cases large : 1 < leaves.length
  · have above := length_flat_layers_odd (parents combine (pad leaves)) (parents_pad_ne_nil combine large)
    rw [flat_layers_of_one_lt combine large, List.length_append]
    have := length_pad_even large
    omega
  · have := List.length_pos_iff.mpr nonempty
    rw [layers_of_le_one combine (by omega)]
    simp only [flat_cons, flat_nil, List.nil_append]
    omega
termination_by leaves.length
decreasing_by
  rw [length_parents, length_pad]
  split_ifs <;> omega

/-- The layers above a layer of more than one node fill an odd number of
places, so the layer starts at an odd place. -/
theorem length_flat_layers_above_odd {leaves : List H} (large : 1 < leaves.length) :
    (flat (layers combine (parents combine (pad leaves)))).length % 2 = 1 :=
  length_flat_layers_odd combine _ (parents_pad_ne_nil combine large)

/-- The first place of the array is the root. -/
theorem headD_flat_layers (leaves : List H) : (flat (layers combine leaves)).headD default = top (layers combine leaves) := by
  by_cases large : 1 < leaves.length
  · have above := headD_flat_layers (parents combine (pad leaves))
    have aboveNonempty : flat (layers combine (parents combine (pad leaves))) ≠ [] := by
      intro empty
      have odd := length_flat_layers_above_odd combine large
      rw [empty] at odd
      simp at odd
    obtain ⟨row, rows, rowsEq⟩ := List.exists_cons_of_ne_nil (layers_ne_nil combine (parents combine (pad leaves)))
    obtain ⟨first, more, flatEq⟩ := List.exists_cons_of_ne_nil aboveNonempty
    rw [flatEq, List.headD_cons] at above
    rw [layers_of_one_lt combine large, flat_cons, flatEq, List.cons_append, List.headD_cons, above]
    simp [top, rowsEq]
  · rw [layers_of_le_one combine (by omega)]
    cases leaves <;> simp [top]
termination_by leaves.length
decreasing_by
  rw [length_parents, length_pad]
  split_ifs <;> omega

end Pad

end MerkleLayers
