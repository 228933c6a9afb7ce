import Prism.Block
import Prism.Library.Checked
import Prism.Library.MerkleLayers

/-!
# Merkle trees

`crypto::merkle`: a Merkle tree kept in one array, root first and leaves
last, each layer with an odd number of nodes padded by repeating its last
node.  `new` builds it, `proof` gives the branch of a leaf, `verify` climbs a
branch, and `update` changes a leaf and the nodes above it.  The hash of two
nodes is keccak of their 64 bytes, here any function `hashPair`; the default
hash, all zeros, is `default`.  Indexing out of range, and `usize`
subtraction below zero, panic (`none`).

The array is the layers of `MerkleLayers` laid out flat (`new_eq`), so the
branch `proof` reads is the layers' own (`proof_eq`) and the climb of
`verify` is theirs (`verifyLoop_eq`); `update` writes, a layer a round, the
layers of the changed leaves (`updateLoop_eq`, `update_eq`).
-/

namespace Prism

/-- `crypto::merkle::MerkleTree`. -/
structure MerkleTree (H : Type) where
  /-- The number of nodes of each layer before padding, leaves first. -/
  dataSize : List Nat
  /-- The nodes, root first. -/
  nodes : List H
  deriving DecidableEq

namespace MerkleTree

variable {H : Type}

/-- The loop of `new` and `verify` over the layer sizes: from the leaves up,
each layer's size before padding (`data_size`) and after (`layer_size`).  On
no leaves the source loops for ever; both callers return before. -/
def layerSizes (size : Nat) : List (Nat × Nat) :=
  if size ≤ 1 then [(size, size)]
  else
    let padded := if size % 2 = 1 then size + 1 else size
    (size, padded) :: layerSizes (padded / 2)
termination_by size
decreasing_by split_ifs <;> omega

/-- `nodes[index] = value`, which panics out of range. -/
def write (nodes : List H) (index : Nat) (value : H) : Option (List H) :=
  if index < nodes.length then some (nodes.set index value) else none

/-- `nodes[start..start + values.len()].copy_from_slice(values)`. -/
def copyFromSlice (nodes : List H) (start : Nat) (values : List H) : Option (List H) :=
  if start + values.length ≤ nodes.length then
    some (nodes.take start ++ values ++ nodes.drop (start + values.length))
  else none

/-- `if l != d { nodes[layer_start + l - 1] = nodes[layer_start + d - 1] }`:
the last node of a padded layer repeated into the padding. -/
def padLayer (nodes : List H) (layerStart padded size : Nat) : Option (List H) :=
  if padded ≠ size then do
    let last ← nodes[layerStart + size - 1]?
    write nodes (layerStart + padded - 1) last
  else some nodes

/-- `nodes[index] = value` in a row of the array. -/
theorem write_append {front row rest : List H} {index : Nat} (inside : index < row.length) (value : H) :
    write (front ++ row ++ rest) (front.length + index) value = some (front ++ row.set index value ++ rest) := by
  rw [write, if_pos (by simp; omega)]
  simp [List.set_append_right, List.set_append_left, inside]

/-- Reading a node of a row of the array. -/
theorem getElem?_append_row {front row rest : List H} {index : Nat} (inside : index < row.length) :
    (front ++ row ++ rest)[front.length + index]? = row[index]? := by
  rw [List.append_assoc, List.getElem?_append_right (by omega), Nat.add_sub_cancel_left,
    List.getElem?_append_left inside]

variable (hashPair : H → H → H)

/-- The loop of `new` over the layers above the leaves: each layer's nodes
hash the pairs of the layer below, and the last repeats into the padding. -/
def fillLayers : List (Nat × Nat) → Nat → List H → Option (List H)
  | [], _, nodes => some nodes
  | (size, padded) :: above, lastLayerStart, nodes => do
      let layerStart ← Checked.sub lastLayerStart padded
      let nodes ← (List.range size).foldlM (fun nodes i => do
          let left ← nodes[lastLayerStart + 2 * i]?
          let right ← nodes[lastLayerStart + 2 * i + 1]?
          write nodes (layerStart + i) (hashPair left right)) nodes
      let nodes ← padLayer nodes layerStart padded size
      fillLayers above layerStart nodes

variable [Inhabited H]

/-- `MerkleTree::new`: the sizes of the layers, the tree allocated with
default nodes, the leaf hashes copied in last, and the layers above filled
from the bottom up. -/
def new {α : Type} [Hashable α H] (data : List α) : Option (MerkleTree H) :=
  if data.length = 0 then some ⟨[data.length], []⟩
  else
    let sizes := layerSizes data.length
    let treeSize := (sizes.map Prod.snd).sum
    match sizes with
    | [] => none
    | (size, padded) :: above => do
        let layerStart ← Checked.sub treeSize padded
        let nodes ← copyFromSlice (List.replicate treeSize default) layerStart (data.map Hashable.hash)
        let nodes ← padLayer nodes layerStart padded size
        let nodes ← fillLayers hashPair above layerStart nodes
        some ⟨sizes.map Prod.fst, nodes⟩

/-- `MerkleTree::root`: the first node, all zeros for no nodes. -/
def root (tree : MerkleTree H) : H :=
  tree.nodes.headD default

/-- `layer_start`, less `data_size` and one more for a padded layer. -/
def below (layerStart size : Nat) : Option Nat :=
  if size % 2 = 1 then (Checked.sub layerStart size).bind (Checked.sub · 1) else Checked.sub layerStart size

/-- The loop of `proof`, with the sizes of the layers above the current one:
the sibling of the node on the path, then up one layer, until the layer
below the root. -/
def proofLoop (nodes : List H) : List Nat → Nat → Nat → Option (List H)
  | [], _, _ => some []
  | size :: above, layerStart, index => do
      let nodesIndex := layerStart + index
      let siblingIndex ← if nodesIndex % 2 = 1 then some (nodesIndex + 1) else Checked.sub nodesIndex 1
      let sibling ← nodes[siblingIndex]?
      if above = [] then some [sibling]
      else do
        let layerStart ← below layerStart size
        let rest ← proofLoop nodes above layerStart (index / 2)
        some (sibling :: rest)

/-- `MerkleTree::proof`: the siblings on the path from leaf `index` to the
root, none for one leaf or an index past the leaves. -/
def proof (tree : MerkleTree H) (index : Nat) : Option (List H) :=
  if tree.dataSize.length = 1 then some []
  else
    match tree.dataSize with
    | [] => none
    | size :: above =>
        if index ≥ size then some []
        else do
          let layerStart ← below tree.nodes.length size
          proofLoop tree.nodes above layerStart index

/-- The loop of `verify` over the branch, with the layer sizes above the
current layer: `none` inside is the early `return false`. -/
def verifyLoop : List H → List Nat → Nat → Nat → H → Option (Option H)
  | [], _, _, _, acc => some (some acc)
  | node :: proof, sizes, layerStart, index, acc =>
      let nodesIndex := layerStart + index
      if nodesIndex = 0 then some none
      else
        let acc := if nodesIndex % 2 = 1 then hashPair acc node else hashPair node acc
        match sizes with
        | [] => none
        | size :: above => do
            let layerStart ← Checked.sub layerStart size
            verifyLoop proof above layerStart (index / 2) acc

/-- `merkle::verify`: the climb from `data` at leaf `index` of `leafSize`
leaves along the branch reaches `root`. -/
def verify [DecidableEq H] (root data : H) (proof : List H) (index leafSize : Nat) : Option Bool :=
  if index ≥ leafSize then some false
  else
    let layerSize := (layerSizes leafSize).map Prod.snd
    if layerSize.length ≠ proof.length + 1 then some false
    else do
      let climbed ← verifyLoop hashPair proof (layerSize.drop 1) (layerSize.drop 1).sum index data
      some (match climbed with
        | none => false
        | some acc => decide (acc = root))

/-- The node `update` writes at array index `layerStart + index`, in the layer
of `size` nodes that starts at `layerStart`: the new leaf's hash in the
leaves, else the hash of its two children, which for the root are the second
and third node. -/
def updatedNode (leaf : H) (lastLayerStart : Nat) (nodes : List H) (size layerStart index : Nat) : Option H :=
  let nodesIndex := layerStart + index
  if nodesIndex ≥ lastLayerStart then some leaf
  else if nodesIndex > 0 then do
    let leftIndex := if size % 2 = 1 then layerStart + 2 * index + size + 1 else layerStart + 2 * index + size
    let left ← nodes[leftIndex]?
    let right ← nodes[leftIndex + 1]?
    some (hashPair left right)
  else do
    let left ← nodes[1]?
    let right ← nodes[2]?
    some (hashPair left right)

/-- The loop of `update`, with the sizes of the current layer and of those
above it: write the node on the path, and its repeat where it is the last
node of a padded layer, then go up a layer, to the start of the array for the
root. -/
def updateLoop (leaf : H) (lastLayerStart : Nat) : List Nat → Nat → Nat → List H → Option (List H)
  | [], _, _, _ => none
  | size :: above, layerStart, index, nodes => do
      let nodesIndex := layerStart + index
      let value ← updatedNode hashPair leaf lastLayerStart nodes size layerStart index
      let nodes ← write nodes nodesIndex value
      let nodes ← if nodesIndex = layerStart + size - 1 ∧ nodesIndex % 2 = 1 then do
          let repeated ← nodes[nodesIndex]?
          write nodes (nodesIndex + 1) repeated
        else some nodes
      match above with
      | [] => some nodes
      | [root] => updateLoop leaf lastLayerStart [root] 0 (index / 2) nodes
      | next :: upper => do
          let layerStart ← below layerStart next
          updateLoop leaf lastLayerStart (next :: upper) layerStart (index / 2) nodes

/-- `MerkleTree::update`: the leaf at `index` set to the hash of `data`, and
the nodes on its path recomputed; the tree as it was for an index past the
leaves. -/
def update {α : Type} [Hashable α H] (tree : MerkleTree H) (index : Nat) (data : α) : Option (MerkleTree H) :=
  match tree.dataSize with
  | [] => none
  | size :: _ =>
      if index ≥ size then some tree
      else if size = 1 then do
        let nodes ← write tree.nodes 0 (Hashable.hash data)
        some ⟨tree.dataSize, nodes⟩
      else do
        let lastLayerStart ← below tree.nodes.length size
        let nodes ←
          updateLoop hashPair (Hashable.hash data) lastLayerStart tree.dataSize lastLayerStart index tree.nodes
        some ⟨tree.dataSize, nodes⟩

/-! ## The array is the layers laid out flat -/

open MerkleLayers

section Layout

theorem layerSizes_ne_nil (size : Nat) : layerSizes size ≠ [] := by
  unfold layerSizes
  split_ifs <;> simp

theorem layerSizes_of_le_one {size : Nat} (small : size ≤ 1) : layerSizes size = [(size, size)] := by
  rw [layerSizes, if_pos small]

theorem layerSizes_of_one_lt {size : Nat} (large : 1 < size) :
    layerSizes size = (size, if size % 2 = 1 then size + 1 else size) ::
      layerSizes ((if size % 2 = 1 then size + 1 else size) / 2) := by
  rw [layerSizes, if_neg (Nat.not_le.mpr large)]

/-- The size `new` computes for a padded layer is the padded layer's. -/
theorem padded_eq_length_pad {layer : List H} (large : 1 < layer.length) :
    (if layer.length % 2 = 1 then layer.length + 1 else layer.length) = (pad layer).length := by
  rw [length_pad]
  split_ifs with odd padded padded <;> unfold Padded at * <;> omega

/-- The layers of a tree of more than one leaf, with their sizes. -/
theorem layerSizes_length_of_one_lt {layer : List H} (large : 1 < layer.length) :
    layerSizes layer.length =
      (layer.length, (pad layer).length) :: layerSizes (parents hashPair (pad layer)).length := by
  rw [layerSizes_of_one_lt large, padded_eq_length_pad large, length_parents]

omit [Inhabited H] in
/-- Reading past a row of the array. -/
theorem getElem?_append_past (front row rest : List H) (offset : Nat) :
    (front ++ row ++ rest)[front.length + row.length + offset]? = rest[offset]? := by
  rw [← List.length_append, List.getElem?_append_right (by omega), Nat.add_sub_cancel_left]

/-- One more node of a row written, over its default nodes. -/
theorem set_take_append_replicate {row : List H} {count padded : Nat} (inside : count < row.length)
    (fits : count < padded) :
    (row.take count ++ List.replicate (padded - count) default).set count row[count] =
      row.take (count + 1) ++ List.replicate (padded - (count + 1)) default := by
  have lengthTake : (row.take count).length = count := by simp; omega
  rw [List.set_append_right _ _ (by omega), lengthTake, Nat.sub_self,
    show padded - count = padded - (count + 1) + 1 by omega, List.replicate_succ, List.set_cons_zero,
    List.take_add_one, List.getElem?_eq_getElem inside, Option.toList_some, List.append_assoc, List.singleton_append]

/-- The loop of `new` over the nodes of a layer: after `count` of them the
row holds the first `count` parents of the layer below, then default nodes. -/
theorem fillRow (front prev rest : List H) (padded layerStart lastLayerStart : Nat)
    (startEq : layerStart = front.length) (lastEq : lastLayerStart = front.length + padded)
    (fits : prev.length / 2 ≤ padded) :
    ∀ count, count ≤ prev.length / 2 →
      (List.range count).foldlM (fun nodes i => do
          let left ← nodes[lastLayerStart + 2 * i]?
          let right ← nodes[lastLayerStart + 2 * i + 1]?
          write nodes (layerStart + i) (hashPair left right))
        (front ++ List.replicate padded default ++ prev ++ rest) =
      some (front ++ ((parents hashPair prev).take count ++ List.replicate (padded - count) default) ++ prev ++ rest)
  | 0, _ => by simp
  | count + 1, within => by
      rw [List.range_succ, List.foldlM_append, fillRow front prev rest padded layerStart lastLayerStart startEq lastEq fits count (by omega), Option.bind_eq_bind,
        Option.bind_some]
      -- the next parent hashes the pair below it, in the row below
      have rowLength : ((parents hashPair prev).take count ++ List.replicate (padded - count) default).length =
          padded := by
        simp [length_parents]
        omega
      have parentAt := getElem?_parents hashPair prev count
      obtain ⟨left, leftAt⟩ : ∃ left, prev[2 * count]? = some left :=
        ⟨_, List.getElem?_eq_getElem (by omega)⟩
      obtain ⟨right, rightAt⟩ : ∃ right, prev[2 * count + 1]? = some right :=
        ⟨_, List.getElem?_eq_getElem (by omega)⟩
      rw [leftAt, rightAt, Option.bind_some, Option.map_some] at parentAt
      have inside : count < (parents hashPair prev).length := by rw [length_parents]; omega
      generalize rowEq : (parents hashPair prev).take count ++ List.replicate (padded - count) default = row
        at rowLength ⊢
      have readLeft : (front ++ row ++ prev ++ rest)[lastLayerStart + 2 * count]? = some left := by
        rw [lastEq, ← rowLength, List.append_assoc (front ++ row), getElem?_append_past,
          List.getElem?_append_left (by omega), leftAt]
      have readRight : (front ++ row ++ prev ++ rest)[lastLayerStart + 2 * count + 1]? = some right := by
        rw [lastEq, ← rowLength, List.append_assoc (front ++ row), Nat.add_assoc, getElem?_append_past,
          List.getElem?_append_left (by omega), rightAt]
      simp only [List.foldlM_cons, List.foldlM_nil, readLeft, readRight, Option.bind_eq_bind, Option.bind_some,
        bind_pure, startEq]
      rw [List.getElem?_eq_getElem inside, Option.some.injEq] at parentAt
      rw [List.append_assoc (front ++ row), write_append (by omega), ← List.append_assoc, ← rowEq,
        ← parentAt, set_take_append_replicate inside (by omega)]

/-- Padding a row written with a layer and default nodes repeats the layer's
last node into the padding. -/
theorem padLayer_row (front rest : List H) {layer : List H} (nonempty : layer ≠ []) :
    padLayer (front ++ (layer ++ List.replicate ((pad layer).length - layer.length) default) ++ rest)
      front.length (pad layer).length layer.length = some (front ++ pad layer ++ rest) := by
  obtain ⟨last, lastEq⟩ : ∃ last, layer.getLast? = some last := ⟨_, List.getLast?_eq_some_getLast nonempty⟩
  have positive := List.length_pos_iff.mpr nonempty
  rw [padLayer]
  by_cases padded : Padded layer.length
  · have longer : (pad layer).length = layer.length + 1 := by rw [length_pad, if_pos padded]
    have readLast : (front ++ (layer ++ List.replicate ((pad layer).length - layer.length) default) ++
        rest)[front.length + layer.length - 1]? = some last := by
      rw [Nat.add_sub_assoc positive, getElem?_append_row (by simp; omega),
        List.getElem?_append_left (by omega), ← List.getLast?_eq_getElem?, lastEq]
    rw [if_pos (by omega), readLast, Option.bind_eq_bind, Option.bind_some, longer,
      show front.length + (layer.length + 1) - 1 = front.length + layer.length by omega,
      show layer.length + 1 - layer.length = 1 by omega, write_append (by simp),
      List.set_append_right _ _ le_rfl, Nat.sub_self]
    simp [pad, padded, List.getLastD_eq_getLast?, lastEq]
  · have same : (pad layer).length = layer.length := by rw [length_pad, if_neg padded]
    rw [if_neg (by omega), same, Nat.sub_self, List.replicate_zero, List.append_nil]
    simp [pad, padded]

/-- The padded sizes of `new` are the sizes of the layers. -/
theorem map_snd_layerSizes (leaves : List H) :
    (layerSizes leaves.length).map Prod.snd = (layers hashPair leaves).map List.length := by
  by_cases large : 1 < leaves.length
  · rw [layerSizes_length_of_one_lt hashPair large, layers_of_one_lt hashPair large, List.map_cons, List.map_cons,
      map_snd_layerSizes (parents hashPair (pad leaves))]
  · rw [layerSizes_of_le_one (by omega), layers_of_le_one hashPair (by omega)]
    rfl
termination_by leaves.length
decreasing_by
  rw [length_parents, length_pad]
  split_ifs <;> omega

/-- `copy_from_slice` into a row of default nodes. -/
theorem copyFromSlice_row (front values rest : List H) {padded : Nat} (fits : values.length ≤ padded) :
    copyFromSlice (front ++ List.replicate padded default ++ rest) front.length values =
      some (front ++ (values ++ List.replicate (padded - values.length) default) ++ rest) := by
  rw [copyFromSlice, if_pos (by simp; omega), List.append_assoc front, List.take_left, List.drop_append,
    List.drop_append_of_le_length (by simp; omega), List.drop_replicate]
  simp

/-- The loop of `new` over the layers above a padded layer `prev`: with
default nodes before `prev`, it lays out the layers above. -/
theorem fillLayers_eq (prev rest : List H) (large : 1 < prev.length) (even : prev.length % 2 = 0) :
    fillLayers hashPair (layerSizes (parents hashPair prev).length)
        (flat (layers hashPair (parents hashPair prev))).length
        (List.replicate (flat (layers hashPair (parents hashPair prev))).length default ++ prev ++ rest) =
      some (flat (layers hashPair (parents hashPair prev)) ++ prev ++ rest) := by
  have parentsLength := length_parents hashPair prev
  by_cases top : (parents hashPair prev).length ≤ 1
  · -- the layer above is the root
    have rootLength : (parents hashPair prev).length = 1 := by omega
    rw [layers_of_le_one hashPair top, rootLength, layerSizes_of_le_one le_rfl]
    simp only [flat_cons, flat_nil, List.nil_append, rootLength, fillLayers, Checked.sub_of_le le_rfl,
      Nat.sub_self, Option.bind_eq_bind, Option.bind_some]
    have filled := fillRow hashPair [] prev rest 1 0 1 rfl rfl (by omega) 1 (by omega)
    simp only [List.nil_append, Nat.sub_self, List.replicate_zero, List.append_nil, Option.bind_eq_bind] at filled
    simp only [padLayer, ne_eq, not_true_eq_false, if_false]
    rw [filled, Option.bind_some, List.take_of_length_le (by omega)]
    rfl
  · -- the layer above is padded, then the loop goes on from it
    have inner : 1 < (parents hashPair prev).length := by omega
    have aboveLaid := fillLayers_eq (pad (parents hashPair prev)) (prev ++ rest)
      (by have := length_le_length_pad (parents hashPair prev); omega) (length_pad_even inner)
    rw [layers_of_one_lt hashPair inner, layerSizes_length_of_one_lt hashPair inner, flat_cons, List.length_append,
      List.replicate_add]
    simp only [fillLayers, Checked.sub_of_le (Nat.le_add_left _ _), Nat.add_sub_cancel, Option.bind_eq_bind,
      Option.bind_some]
    have filled := fillRow hashPair
      (List.replicate (flat (layers hashPair (parents hashPair (pad (parents hashPair prev))))).length default)
      prev rest (pad (parents hashPair prev)).length
      (flat (layers hashPair (parents hashPair (pad (parents hashPair prev))))).length
      ((flat (layers hashPair (parents hashPair (pad (parents hashPair prev))))).length +
        (pad (parents hashPair prev)).length)
      (by simp) (by simp) (by rw [← parentsLength]; exact length_le_length_pad _) (parents hashPair prev).length
      (by omega)
    simp only [List.take_of_length_le le_rfl, Option.bind_eq_bind] at filled
    rw [filled, Option.bind_some]
    have padded := padLayer_row
      (List.replicate (flat (layers hashPair (parents hashPair (pad (parents hashPair prev))))).length default)
      (prev ++ rest) (List.ne_nil_of_length_pos (by omega : 0 < (parents hashPair prev).length))
    simp only [List.length_replicate, List.append_assoc] at padded ⊢
    rw [padded, Option.bind_some]
    simpa only [List.append_assoc] using aboveLaid
termination_by prev.length
decreasing_by
  rw [length_pad, length_parents]
  split_ifs with padded <;> (try unfold Padded at padded) <;> omega

/-- `new` lays out the layers over the hashes of the data, root first. -/
theorem new_eq {α : Type} [Hashable α H] (data : List α) :
    new hashPair data =
      some ⟨(layerSizes data.length).map Prod.fst, flat (layers hashPair (data.map Hashable.hash))⟩ := by
  have lengthEq : (data.map Hashable.hash : List H).length = data.length := List.length_map _
  rcases Nat.lt_or_ge 1 data.length with large | small
  · -- the leaves are copied in last and padded, and the loop fills the layers above
    have leavesLarge : 1 < (data.map Hashable.hash : List H).length := by omega
    have treeSize := map_snd_layerSizes hashPair (data.map Hashable.hash : List H)
    rw [lengthEq] at treeSize
    rw [new, if_neg (by omega)]
    simp only [treeSize, ← length_flat]
    rw [← lengthEq, layerSizes_length_of_one_lt hashPair leavesLarge, layers_of_one_lt hashPair leavesLarge,
      flat_cons, List.length_append]
    simp only [Checked.sub_of_le (Nat.le_add_left _ _), Nat.add_sub_cancel, Option.bind_eq_bind, Option.bind_some,
      List.replicate_add]
    have copied := copyFromSlice_row
      (List.replicate (flat (layers hashPair (parents hashPair (pad (data.map Hashable.hash : List H))))).length
        default) (data.map Hashable.hash : List H) [] (length_le_length_pad _)
    simp only [List.length_replicate, List.append_nil] at copied
    rw [copied, Option.bind_some]
    have padded := padLayer_row
      (List.replicate (flat (layers hashPair (parents hashPair (pad (data.map Hashable.hash : List H))))).length
        default) [] (List.ne_nil_of_length_pos (by omega : 0 < (data.map Hashable.hash : List H).length))
    simp only [List.length_replicate, List.append_nil] at padded
    rw [padded, Option.bind_some]
    have laid := fillLayers_eq hashPair (pad (data.map Hashable.hash : List H)) [] (by
      have := length_le_length_pad (data.map Hashable.hash : List H); omega) (length_pad_even leavesLarge)
    simp only [List.append_nil] at laid
    rw [laid, Option.bind_some]
  · rcases Nat.eq_zero_or_pos data.length with empty | single
    · -- no data: no nodes
      rw [new, if_pos empty, List.length_eq_zero_iff.mp empty]
      simp [layerSizes_of_le_one, layers_of_le_one]
    · -- one leaf, which is the root
      have one : data.length = 1 := by omega
      rw [new, if_neg (by omega)]
      simp only [one, layerSizes_of_le_one le_rfl, List.map_cons, List.map_nil, List.sum_cons, List.sum_nil,
        Nat.add_zero, Checked.sub_of_le le_rfl, Nat.sub_self, Option.bind_eq_bind, Option.bind_some]
      rw [layers_of_le_one hashPair (by omega)]
      simp [copyFromSlice, padLayer, fillLayers, lengthEq, one]

end Layout

/-! ## Branches -/

section Branch

/-- The array index of a sibling: in a layer that starts at an odd index, an
odd index is the left of its pair. -/
theorem siblingIndex_eq {layerStart index : Nat} (odd : layerStart % 2 = 1) :
    (if (layerStart + index) % 2 = 1 then some (layerStart + index + 1) else Checked.sub (layerStart + index) 1) =
      some (layerStart + sibling index) := by
  unfold sibling
  split_ifs with leftOfPair even even
  · rw [Nat.add_assoc]
  · omega
  · omega
  · rw [Checked.sub_of_le (by omega)]
    congr 1
    omega

/-- `layer_start` moved below a layer of more than one node, which starts
after `front` places. -/
theorem below_add {layer : List H} (large : 1 < layer.length) (front : Nat) :
    below (front + (pad layer).length) layer.length = some front := by
  rw [← padded_eq_length_pad large]
  unfold below
  split_ifs with odd
  · rw [Checked.sub_of_le (by omega), Option.bind_some, Checked.sub_of_le (by omega)]
    congr 1
    omega
  · rw [Checked.sub_of_le (by omega), Nat.add_sub_cancel]

omit [Inhabited H] in
/-- One round of the loop of `proof`, in a layer that starts at an odd index. -/
theorem proofLoop_cons {nodes : List H} {size : Nat} {above : List Nat} {layerStart index : Nat} {siblingNode : H}
    (odd : layerStart % 2 = 1) (readSibling : nodes[layerStart + sibling index]? = some siblingNode) :
    proofLoop nodes (size :: above) layerStart index =
      if above = [] then some [siblingNode]
      else (below layerStart size).bind fun lower => (proofLoop nodes above lower (index / 2)).map (siblingNode :: ·) := by
  have siblingAt := @siblingIndex_eq layerStart index odd
  -- the code's parity match is an if around the rest of the round
  rw [proofLoop]
  simp only [Option.bind_eq_bind]
  split_ifs at siblingAt ⊢ <;> simp [siblingAt, readSibling, Option.map_eq_bind]

/-- The loop of `proof`, in a layer of more than one node: it reads the
siblings of the layers' branch. -/
theorem proofLoop_eq (leaves rest : List H) (large : 1 < leaves.length) (index : Nat) (inside : index < leaves.length) :
    proofLoop (flat (layers hashPair (parents hashPair (pad leaves))) ++ pad leaves ++ rest)
        ((layerSizes (parents hashPair (pad leaves)).length).map Prod.fst)
        (flat (layers hashPair (parents hashPair (pad leaves)))).length index =
      some (siblings (layers hashPair leaves) index) := by
  have parentsLength := length_parents hashPair (pad leaves)
  have even := length_pad_even large
  have longer := length_le_length_pad leaves
  -- the sibling, read from the padded layer, which starts at an odd place
  have odd := length_flat_layers_above_odd hashPair large
  obtain ⟨siblingNode, siblingAt⟩ : ∃ node, (pad leaves)[sibling index]? = some node :=
    ⟨_, List.getElem?_eq_getElem (sibling_lt_length_pad large inside)⟩
  have readSibling : (flat (layers hashPair (parents hashPair (pad leaves))) ++ pad leaves ++
      rest)[(flat (layers hashPair (parents hashPair (pad leaves)))).length + sibling index]? = some siblingNode := by
    rw [getElem?_append_row (sibling_lt_length_pad large inside), siblingAt]
  rw [layers_of_one_lt hashPair large]
  by_cases top : (parents hashPair (pad leaves)).length ≤ 1
  · -- the layer above is the root
    have rootLength : (parents hashPair (pad leaves)).length = 1 := by omega
    rw [rootLength, layerSizes_of_le_one le_rfl, List.map_cons, List.map_nil, proofLoop_cons odd readSibling,
      if_pos rfl, layers_of_le_one hashPair top]
    simp [siblings, siblingAt]
  · -- the layer above is padded: the loop goes on there
    have inner : 1 < (parents hashPair (pad leaves)).length := by omega
    have aboveSiblings := proofLoop_eq (parents hashPair (pad leaves)) (pad leaves ++ rest) inner (index / 2)
      (by rw [parentsLength]; omega)
    have sizesNonempty : (layerSizes (parents hashPair (pad (parents hashPair (pad leaves)))).length).map Prod.fst ≠
        [] := by simp [layerSizes_ne_nil]
    rw [layerSizes_length_of_one_lt hashPair inner, List.map_cons, proofLoop_cons odd readSibling,
      if_neg sizesNonempty]
    rw [layers_of_one_lt hashPair inner] at aboveSiblings ⊢
    simp only [flat_cons, List.length_append, List.append_assoc] at aboveSiblings ⊢
    rw [below_add inner, Option.bind_some, aboveSiblings]
    simp [siblings, siblingAt]
termination_by leaves.length
decreasing_by
  rw [length_parents, length_pad]
  split_ifs <;> omega

/-- `MerkleTree::proof` on the array that `new` builds: the siblings of the
layers' branch. -/
theorem proof_eq (leaves : List H) (index : Nat) (inside : index < leaves.length) :
    proof ⟨(layerSizes leaves.length).map Prod.fst, flat (layers hashPair leaves)⟩ index =
      some (siblings (layers hashPair leaves) index) := by
  by_cases large : 1 < leaves.length
  · -- the leaves are the last layer, below all the layers above
    have loop := proofLoop_eq hashPair leaves [] large index inside
    rw [List.append_nil] at loop
    have sizesNonempty : (layerSizes (parents hashPair (pad leaves)).length).map Prod.fst ≠ [] := by
      simp [layerSizes_ne_nil]
    rw [proof, layerSizes_length_of_one_lt hashPair large, List.map_cons]
    simp only [List.length_cons, Nat.add_eq_right, List.length_eq_zero_iff, sizesNonempty, if_false,
      ge_iff_le, Nat.not_le.mpr inside, flat_layers_of_one_lt hashPair large, List.length_append, below_add large,
      Option.bind_eq_bind, Option.bind_some]
    exact loop
  · -- one leaf: no branch
    rw [layerSizes_of_le_one (by omega), layers_of_le_one hashPair (by omega)]
    simp [proof, siblings]

omit [Inhabited H] in
/-- One round of the loop of `verify`, in a layer that starts at an odd index:
the parity of the array index is the opposite of the index in the layer. -/
theorem verifyLoop_cons {node acc : H} {proof : List H} {size : Nat} {above : List Nat} {layerStart index : Nat}
    (odd : layerStart % 2 = 1) (fits : size ≤ layerStart) :
    verifyLoop hashPair (node :: proof) (size :: above) layerStart index acc =
      verifyLoop hashPair proof above (layerStart - size) (index / 2)
        (if index % 2 = 0 then hashPair acc node else hashPair node acc) := by
  have leftOfPair : (layerStart + index) % 2 = 1 ↔ index % 2 = 0 := by omega
  rw [verifyLoop, if_neg (by omega)]
  simp only [leftOfPair, Checked.sub_of_le fits, Option.bind_eq_bind, Option.bind_some]

/-- The loop of `verify` over a branch as long as the layers above the leaves
is their climb: the array index it keeps is the one `new` lays them out at. -/
theorem verifyLoop_eq (leaves branch : List H) (branchLength : branch.length + 1 = (layers hashPair leaves).length)
    (index : Nat) (acc : H) :
    verifyLoop hashPair branch (((layers hashPair leaves).drop 1).map List.length)
        (flat ((layers hashPair leaves).drop 1)).length index acc =
      some (some (climb hashPair acc index branch)) := by
  by_cases large : 1 < leaves.length
  · have odd := length_flat_layers_above_odd hashPair large
    -- the layers above, split into the next one and the rest
    obtain ⟨row, upper, rowsEq⟩ := List.exists_cons_of_ne_nil (layers_ne_nil hashPair (parents hashPair (pad leaves)))
    rw [layers_of_one_lt hashPair large] at branchLength ⊢
    obtain ⟨node, branch, rfl⟩ :=
      List.exists_cons_of_length_pos (by rw [rowsEq] at branchLength; simp at branchLength; omega : 0 < branch.length)
    have aboveClimb := verifyLoop_eq (parents hashPair (pad leaves)) branch (by simpa using branchLength) (index / 2)
      (if index % 2 = 0 then hashPair acc node else hashPair node acc)
    rw [rowsEq] at odd aboveClimb ⊢
    simp only [List.drop_succ_cons, List.drop_zero, List.map_cons, flat_cons, List.length_append] at odd aboveClimb ⊢
    rw [verifyLoop_cons hashPair odd (Nat.le_add_left _ _), Nat.add_sub_cancel, aboveClimb, climb]
  · -- one layer: the branch is empty
    rw [layers_of_le_one hashPair (by omega)] at branchLength ⊢
    obtain rfl : branch = [] := List.length_eq_zero_iff.mp (by simpa using branchLength)
    rfl
termination_by leaves.length
decreasing_by
  rw [length_parents, length_pad]
  split_ifs <;> omega

/-- `verify` of a branch as long as the layers above the leaves: whether its
climb from `data` reaches `root`. -/
theorem verify_eq [DecidableEq H] (leaves branch : List H) (root data : H) (index : Nat)
    (inside : index < leaves.length) (branchLength : branch.length + 1 = (layers hashPair leaves).length) :
    verify hashPair root data branch index leaves.length = some (decide (climb hashPair data index branch = root)) := by
  have climbed := verifyLoop_eq hashPair leaves branch branchLength index data
  rw [List.map_drop, length_flat, List.map_drop] at climbed
  rw [verify, if_neg (Nat.not_le.mpr inside), map_snd_layerSizes hashPair]
  dsimp only
  rw [List.length_map, if_neg (by omega)]
  simp only [climbed, Option.bind_eq_bind, Option.bind_some]

/-- The branch of every leaf of a tree that `new` built, one node per layer
below the root, is accepted by `verify` against the tree's root. -/
theorem verify_proof_of_new {α : Type} [Hashable α H] [DecidableEq H] {data : List α} {tree : MerkleTree H}
    (built : new hashPair data = some tree) (index : Nat) (inside : index < data.length) :
    ∃ branch, tree.proof index = some branch ∧ branch.length = tree.dataSize.length - 1 ∧
      verify hashPair tree.root (Hashable.hash data[index]) branch index data.length = some true := by
  rw [new_eq] at built
  cases built
  have lengthEq : (data.map Hashable.hash : List H).length = data.length := List.length_map _
  have atLeaf : (data.map Hashable.hash : List H)[index]? = some (Hashable.hash data[index]) := by
    simp [inside]
  have layerCount : ((layerSizes data.length).map Prod.fst).length = (layers hashPair (data.map Hashable.hash)).length := by
    rw [List.length_map, ← List.length_map Prod.snd, ← lengthEq, map_snd_layerSizes, List.length_map]
  have branchLength := length_siblings (layers hashPair (data.map Hashable.hash : List H)) index
  have nonempty := List.length_pos_of_ne_nil (layers_ne_nil hashPair (data.map Hashable.hash : List H))
  refine ⟨_, ?_, by rw [branchLength, layerCount], ?_⟩
  · rw [← lengthEq]
    exact proof_eq hashPair _ index (by omega)
  · rw [root, headD_flat_layers, ← lengthEq, verify_eq hashPair _ _ _ _ index (by omega) (by omega),
      climb_siblings_layers hashPair _ index _ atLeaf]
    simp

end Branch

/-- Every leaf of a tree that `new` builds has a branch, one node per layer
below the root, and `verify` accepts it against the tree's root. -/
theorem proof_verifies {α : Type} [Hashable α H] [DecidableEq H] (data : List α) (index : Nat)
    (inside : index < data.length) :
    ∃ tree, new hashPair data = some tree ∧
      ∃ branch, tree.proof index = some branch ∧ branch.length = tree.dataSize.length - 1 ∧
        verify hashPair tree.root (Hashable.hash data[index]) branch index data.length = some true :=
  ⟨_, new_eq hashPair data, verify_proof_of_new hashPair (new_eq hashPair data) index inside⟩

section Witness

/-- Leaves that are their own hash. -/
local instance natLeaves : Hashable Nat Nat := ⟨id⟩

/-- The last of three leaves, whose sibling is the padding. -/
theorem proof_verifies_padded : 2 < [5, 6, 7].length ∧
    ∃ tree, new (fun a b : Nat => a + 2 * b) [5, 6, 7] = some tree ∧
      ∃ branch, tree.proof 2 = some branch ∧ branch.length = tree.dataSize.length - 1 ∧
        verify (fun a b : Nat => a + 2 * b) tree.root (Hashable.hash ([5, 6, 7] : List Nat)[2]) branch 2
          [5, 6, 7].length = some true :=
  ⟨by decide, proof_verifies (fun a b : Nat => a + 2 * b) [5, 6, 7] 2 (by decide)⟩

end Witness

/-! ## `update` rewrites the path of one leaf -/

section Update

variable {leaf : H} {lastLayerStart : Nat}

/-- The writes of a round of `update`, at index `index` of a layer that
starts after `front`: the node, and then its repeat where the code's test
finds the last node of a padded layer. -/
theorem writeNode_eq (front rest : List H) {layer : List H} {index : Nat} (value : H) (inside : index < layer.length)
    (repeats : front.length + index = front.length + layer.length - 1 ∧ (front.length + index) % 2 = 1 ↔
      Padded layer.length ∧ index + 1 = layer.length)
    (after : List H → Option (List H)) :
    ((write (front ++ pad layer ++ rest) (front.length + index) value).bind fun nodes =>
        if front.length + index = front.length + layer.length - 1 ∧ (front.length + index) % 2 = 1 then
          nodes[front.length + index]?.bind fun repeated =>
            (write nodes (front.length + index + 1) repeated).bind after
        else after nodes) =
      after (front ++ pad (layer.set index value) ++ rest) := by
  have longer := length_le_length_pad layer
  rw [write_append (by omega), Option.bind_some, pad_set value inside]
  by_cases last : Padded layer.length ∧ index + 1 = layer.length
  · -- the repeat is written from the node just written
    have repeatInside : index + 1 < (pad layer).length := by
      rw [length_pad, if_pos last.1]
      omega
    rw [if_pos (repeats.mpr last), if_pos last, getElem?_append_row (by simpa using inside.trans_le longer),
      List.getElem?_set_self (by omega), Option.bind_some, Nat.add_assoc,
      write_append (by simpa using repeatInside), Option.bind_some]
  · rw [if_neg (fun found => last (repeats.mp found)), if_neg last]

/-- A node of a layer above the leaves, other than the root, hashes its two
children as the array has them. -/
theorem updatedNode_parent (layer childRow rest : List H) (large : 1 < layer.length) {index : Nat}
    (inside : index < layer.length) {left right : H} (atLeft : childRow[2 * index]? = some left)
    (atRight : childRow[2 * index + 1]? = some right)
    (notLeaf : (flat (layers hashPair (parents hashPair (pad layer))) ++ pad layer).length ≤ lastLayerStart) :
    updatedNode hashPair leaf lastLayerStart (flat (layers hashPair (parents hashPair (pad layer))) ++ pad layer ++
        (childRow ++ rest)) layer.length (flat (layers hashPair (parents hashPair (pad layer)))).length index =
      some (hashPair left right) := by
  have longer := length_le_length_pad layer
  have odd := length_flat_layers_above_odd hashPair large
  rw [List.length_append] at notLeaf
  -- the children start right after the padded layer
  have leftIndex : (if layer.length % 2 = 1 then
        (flat (layers hashPair (parents hashPair (pad layer)))).length + 2 * index + layer.length + 1
      else (flat (layers hashPair (parents hashPair (pad layer)))).length + 2 * index + layer.length) =
      (flat (layers hashPair (parents hashPair (pad layer))) ++ pad layer).length + 2 * index := by
    rw [List.length_append, ← padded_eq_length_pad large]
    split_ifs <;> omega
  have notLeafIndex : ¬(flat (layers hashPair (parents hashPair (pad layer)))).length + index ≥ lastLayerStart := by
    omega
  have positive : (flat (layers hashPair (parents hashPair (pad layer)))).length + index > 0 := by omega
  rw [updatedNode]
  simp only [if_neg notLeafIndex, if_pos positive, leftIndex, Option.bind_eq_bind]
  rw [← List.append_assoc, getElem?_append_row (List.getElem?_eq_some_iff.mp atLeft).1, atLeft, Option.bind_some,
    Nat.add_assoc, getElem?_append_row (List.getElem?_eq_some_iff.mp atRight).1, atRight, Option.bind_some]

omit [Inhabited H] in
/-- The root hashes the second and third node. -/
theorem updatedNode_root (root : H) (childRow rest : List H) {left right : H} (atLeft : childRow[0]? = some left)
    (atRight : childRow[1]? = some right) (notLeaf : 0 < lastLayerStart) :
    updatedNode hashPair leaf lastLayerStart (root :: (childRow ++ rest)) 1 0 0 = some (hashPair left right) := by
  rw [updatedNode]
  simp [Nat.not_le.mpr notLeaf, List.getElem?_append_left (List.getElem?_eq_some_iff.mp atLeft).1,
    List.getElem?_append_left (List.getElem?_eq_some_iff.mp atRight).1, atLeft, atRight]

omit [Inhabited H] in
/-- The round of the root: its node written, and the loop ends. -/
theorem updateLoop_root (root value : H) (rest : List H)
    (computes : updatedNode hashPair leaf lastLayerStart (root :: rest) 1 0 0 = some value) :
    updateLoop hashPair leaf lastLayerStart [1] 0 0 (root :: rest) = some (value :: rest) := by
  rw [updateLoop]
  simp [computes, write]

/-- The loop of `update` from a layer of more than one node, whose node
`index` its round writes as `value`: it lays out the layers of the changed
layer over the rest of the array. -/
theorem updateLoop_eq (layer rest : List H) (large : 1 < layer.length) (index : Nat) (inside : index < layer.length)
    (value : H)
    (computes : updatedNode hashPair leaf lastLayerStart
      (flat (layers hashPair (parents hashPair (pad layer))) ++ pad layer ++ rest) layer.length
      (flat (layers hashPair (parents hashPair (pad layer)))).length index = some value)
    (belowLeaves : (flat (layers hashPair (parents hashPair (pad layer)))).length ≤ lastLayerStart) :
    updateLoop hashPair leaf lastLayerStart ((layerSizes layer.length).map Prod.fst)
        (flat (layers hashPair (parents hashPair (pad layer)))).length index
        (flat (layers hashPair (parents hashPair (pad layer))) ++ pad layer ++ rest) =
      some (flat (layers hashPair (layer.set index value)) ++ rest) := by
  have parentsLength := length_parents hashPair (pad layer)
  have even := length_pad_even large
  have longer := length_le_length_pad layer
  have odd := length_flat_layers_above_odd hashPair large
  have changedLength : (layer.set index value).length = layer.length := List.length_set
  have changedPadLength : (pad (layer.set index value)).length = (pad layer).length := by
    rw [length_pad, length_pad, changedLength]
  -- the children of the next node on the path, in the changed padded layer
  obtain ⟨left, atLeft⟩ : ∃ node, (pad (layer.set index value))[2 * (index / 2)]? = some node :=
    ⟨_, List.getElem?_eq_getElem (by omega)⟩
  obtain ⟨right, atRight⟩ : ∃ node, (pad (layer.set index value))[2 * (index / 2) + 1]? = some node :=
    ⟨_, List.getElem?_eq_getElem (by omega)⟩
  -- the changed padded layer differs from the old one in that pair only
  have parentsChanged : parents hashPair (pad (layer.set index value)) =
      (parents hashPair (pad layer)).set (index / 2) (hashPair left right) := by
    apply parents_of_agree hashPair changedPadLength _ atLeft atRight
    intro other otherPair
    rw [pad_set value inside]
    split_ifs with last
    · obtain ⟨⟨oddLength, _⟩, lastEq⟩ := last
      rw [List.getElem?_set_ne (by omega), List.getElem?_set_ne (by omega)]
    · rw [List.getElem?_set_ne (by omega)]
  -- this round
  have repeats : (flat (layers hashPair (parents hashPair (pad layer)))).length + index =
        (flat (layers hashPair (parents hashPair (pad layer)))).length + layer.length - 1 ∧
      ((flat (layers hashPair (parents hashPair (pad layer)))).length + index) % 2 = 1 ↔
      Padded layer.length ∧ index + 1 = layer.length := by
    unfold Padded
    omega
  rw [layerSizes_length_of_one_lt hashPair large, List.map_cons, updateLoop]
  simp only [computes, Option.bind_eq_bind, Option.bind_some]
  have changedLayers := layers_of_one_lt hashPair (show 1 < (layer.set index value).length by omega)
  rw [writeNode_eq _ rest value inside repeats, changedLayers, flat_cons, parentsChanged]
  by_cases top : (parents hashPair (pad layer)).length ≤ 1
  · -- the layer above is the root: its round ends the loop
    have halfZero : index / 2 = 0 := by omega
    have startPositive : 0 < lastLayerStart := by omega
    obtain ⟨root, rootEq⟩ := List.length_eq_one_iff.mp (show (parents hashPair (pad layer)).length = 1 by omega)
    rw [halfZero] at atLeft atRight ⊢
    rw [rootEq, layers_of_le_one hashPair (by simp)]
    simp only [List.length_cons, List.length_nil, Nat.zero_add, layerSizes_of_le_one le_rfl, List.map_cons,
      List.map_nil, flat_cons, flat_nil, List.nil_append, List.cons_append, List.set_cons_zero]
    rw [updateLoop_root hashPair root _ _ (updatedNode_root hashPair root _ rest atLeft atRight startPositive),
      layers_of_le_one hashPair (by simp)]
    simp
  · -- the layer above has more than one node: the loop goes on there
    have inner : 1 < (parents hashPair (pad layer)).length := by omega
    obtain ⟨next, upper, sizesEq⟩ : ∃ next upper,
        (layerSizes (parents hashPair (pad (parents hashPair (pad layer)))).length).map Prod.fst = next :: upper :=
      List.exists_cons_of_ne_nil (by simp [layerSizes_ne_nil])
    have flatAbove := flat_layers_of_one_lt hashPair inner
    rw [flatAbove, List.length_append] at belowLeaves
    -- the round of the layer above hashes the two children just written
    have aboveRound := updateLoop_eq (parents hashPair (pad layer)) (pad (layer.set index value) ++ rest) inner
      (index / 2) (by omega) (hashPair left right)
      (updatedNode_parent hashPair _ _ rest inner (by omega) atLeft atRight (by rw [List.length_append]; omega))
      (by omega)
    rw [layerSizes_length_of_one_lt hashPair inner, List.map_cons, sizesEq] at aboveRound ⊢
    dsimp only
    rw [flatAbove, List.length_append, below_add inner, Option.bind_some]
    simp only [List.append_assoc] at aboveRound ⊢
    exact aboveRound
termination_by layer.length
decreasing_by
  rw [length_parents, length_pad]
  split_ifs <;> omega

omit [Inhabited H] in
/-- In the leaves, the round writes the new leaf. -/
theorem updatedNode_leaf {nodes : List H} {size layerStart index : Nat}
    (reached : layerStart + index ≥ lastLayerStart) :
    updatedNode hashPair leaf lastLayerStart nodes size layerStart index = some leaf := by
  unfold updatedNode
  exact if_pos reached

/-- `update` of a tree laid out as `new` lays it out: the layers of the
leaves with one leaf changed. -/
theorem update_eq {α : Type} [Hashable α H] (leaves : List H) (index : Nat) (item : α) :
    update hashPair ⟨(layerSizes leaves.length).map Prod.fst, flat (layers hashPair leaves)⟩ index item =
      some ⟨(layerSizes leaves.length).map Prod.fst,
        flat (layers hashPair (leaves.set index (Hashable.hash item)))⟩ := by
  obtain ⟨above, sizesEq⟩ : ∃ above, (layerSizes leaves.length).map Prod.fst = leaves.length :: above := by
    by_cases large : 1 < leaves.length
    · exact ⟨_, by rw [layerSizes_length_of_one_lt hashPair large, List.map_cons]⟩
    · exact ⟨[], by rw [layerSizes_of_le_one (by omega)]; rfl⟩
  rw [update]
  dsimp only
  rw [sizesEq]
  dsimp only
  by_cases past : index ≥ leaves.length
  · -- past the leaves: nothing changes
    rw [if_pos past, List.set_eq_of_length_le past]
  rw [if_neg past]
  by_cases single : leaves.length = 1
  · -- one leaf, which is the root
    obtain ⟨leaf, rfl⟩ := List.length_eq_one_iff.mp single
    obtain rfl : index = 0 := by simp at past; omega
    simp [write, layers_of_le_one]
  · -- the loop from the leaves up
    have large : 1 < leaves.length := by omega
    have loop := updateLoop_eq hashPair leaves [] large index (by omega) (Hashable.hash item)
      (updatedNode_leaf hashPair (Nat.le_add_right _ _)) le_rfl
    rw [sizesEq, List.append_nil, List.append_nil] at loop
    rw [if_neg single, flat_layers_of_one_lt hashPair large, List.length_append, below_add large]
    simp only [Option.bind_eq_bind, Option.bind_some, loop]

/-- Building a tree and updating a leaf is building it on the changed data. -/
theorem new_bind_update {α : Type} [Hashable α H] (data : List α) (index : Nat) (item : α) :
    (new hashPair data).bind (fun tree => update hashPair tree index item) = new hashPair (data.set index item) := by
  have updated := update_eq hashPair (data.map Hashable.hash : List H) index item
  rw [List.length_map] at updated
  rw [new_eq, new_eq, Option.bind_some, List.length_set, List.map_set, updated]

/-- Any sequence of updates of a built tree is one build on the final data. -/
theorem new_bind_foldlM_update {α : Type} [Hashable α H] (updates : List (Nat × α)) :
    ∀ data : List α,
      (new hashPair data).bind (fun tree => updates.foldlM (fun tree change => update hashPair tree change.1 change.2)
        tree) = new hashPair (updates.foldl (fun data change => data.set change.1 change.2) data) := by
  induction updates with
  | nil =>
    intro data
    simp only [List.foldl_nil, List.foldlM_nil]
    cases new hashPair data <;> rfl
  | cons change updates later =>
    intro data
    rw [List.foldl_cons, ← later, ← new_bind_update hashPair data change.1 change.2, Option.bind_assoc]
    rfl

end Update

/-- `update` agrees with a rebuild: updating a leaf of a built tree gives the
tree built on the changed data, an index past the leaves leaves the tree as
it is, and so a sequence of updates gives the tree built on the final data. -/
theorem update_agrees_with_new {α : Type} [Hashable α H] (data : List α) :
    (∀ (index : Nat) (item : α),
      (new hashPair data).bind (fun tree => update hashPair tree index item) = new hashPair (data.set index item)) ∧
    (∀ tree, new hashPair data = some tree → ∀ index, data.length ≤ index → ∀ item : α,
      update hashPair tree index item = some tree) ∧
    (∀ updates : List (Nat × α),
      (new hashPair data).bind (fun tree => updates.foldlM (fun tree change => update hashPair tree change.1 change.2)
        tree) = new hashPair (updates.foldl (fun data change => data.set change.1 change.2) data)) := by
  refine ⟨new_bind_update hashPair data, ?_, fun updates => new_bind_foldlM_update hashPair updates data⟩
  intro tree built index past item
  have unchanged := new_bind_update hashPair data index item
  rw [built, Option.bind_some, List.set_eq_of_length_le past, built] at unchanged
  exact unchanged

section Witness

/-- Items that are their own hash. -/
local instance natItems : Hashable Nat Nat := ⟨id⟩

/-- The tree of three leaves, updated past its leaves. -/
theorem update_agrees_with_new_past :
    ∃ tree, new (fun a b : Nat => a + 2 * b) [5, 6, 7] = some tree ∧
      update (fun a b : Nat => a + 2 * b) tree 3 (9 : Nat) = some tree :=
  ⟨_, new_eq _ [5, 6, 7],
    (update_agrees_with_new (fun a b : Nat => a + 2 * b) [5, 6, 7]).2.1 _ (new_eq _ [5, 6, 7]) 3 (by decide) 9⟩

end Witness

end MerkleTree

end Prism
