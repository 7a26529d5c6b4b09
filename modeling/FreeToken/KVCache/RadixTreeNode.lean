/-
**Radix tree nodes and the currency every prefix cache shares.**

A node is a node of `PageTree`: its key, the word of its parent, and the record of the source's
`RadixTreeNode`. Nodes are named by the word that leads to their end, which a split does not change:
`split_at` keeps the node as the suffix and makes a new node of the prefix.
-/

import FreeToken.Utils
import FreeToken.Lib.PageTree

namespace FreeToken

open PageTree

abbrev Token := Nat

instance : LawfulBEq (List Token) := List.instLawfulBEq

/-- The fields of a tree node besides its key and its place in the tree. -/
structure NodeData where
  value : List Nat
  refCount : Int
  timestamp : Int
  mambaValue : Option Nat
  mambaRefCount : Int
  swaTombstone : Bool
  swaRefCount : Int
  swaUuid : Option Nat
  deriving DecidableEq, Repr

abbrev RadixTreeNode := Seg Token NodeData

/-- A node as the constructor makes it: no reference, no snapshot, live in the window tier. -/
def NodeData.fresh (value : List Nat) (timestamp : Int) : NodeData where
  value := value
  refCount := 0
  timestamp := timestamp
  mambaValue := none
  mambaRefCount := 0
  swaTombstone := false
  swaRefCount := 0
  swaUuid := none

/-- `get_match_len`, the length of the common prefix. -/
def getMatchLen : List Token → List Token → Nat
  | key :: keys, id :: ids => if key = id then getMatchLen keys ids + 1 else 0
  | _, _ => 0

/-- The new prefix node of a split: the snapshot stays behind, the window lock is copied and the
window boundary moves here. -/
def NodeData.splitHead (pos : Nat) (data : NodeData) : NodeData where
  value := data.value.take pos
  refCount := data.refCount
  timestamp := data.timestamp
  mambaValue := none
  mambaRefCount := 0
  swaTombstone := data.swaTombstone
  swaRefCount := data.swaRefCount
  swaUuid := data.swaUuid

def NodeData.splitTail (pos : Nat) (data : NodeData) : NodeData :=
  { data with value := data.value.drop pos, swaUuid := none }

/-- `split_at`. The source asserts `0 < pos < length`; `pos` is the length of a match of at least
one page and less than the node at every call. -/
def splitNode (tree : List RadixTreeNode) (node : RadixTreeNode) (pos : Nat) : List RadixTreeNode :=
  PageTree.splitAt tree node.path pos (NodeData.splitHead pos) (NodeData.splitTail pos)

variable (node : RadixTreeNode)

def splitHead (pos : Nat) : RadixTreeNode :=
  ⟨node.parent, node.key.take pos, node.data.splitHead pos⟩

def splitTail (pos : Nat) : RadixTreeNode :=
  ⟨node.parent ++ node.key.take pos, node.key.drop pos, node.data.splitTail pos⟩

@[simp] theorem splitHead_refCount (pos : Nat) :
    (splitHead node pos).data.refCount = node.data.refCount := rfl

@[simp] theorem splitTail_refCount (pos : Nat) :
    (splitTail node pos).data.refCount = node.data.refCount := rfl

@[simp] theorem splitHead_swaTombstone (pos : Nat) :
    (splitHead node pos).data.swaTombstone = node.data.swaTombstone := rfl

@[simp] theorem splitTail_swaTombstone (pos : Nat) :
    (splitTail node pos).data.swaTombstone = node.data.swaTombstone := rfl

@[simp] theorem splitHead_swaRefCount (pos : Nat) :
    (splitHead node pos).data.swaRefCount = node.data.swaRefCount := rfl

@[simp] theorem splitTail_swaRefCount (pos : Nat) :
    (splitTail node pos).data.swaRefCount = node.data.swaRefCount := rfl

@[simp] theorem splitHead_swaUuid (pos : Nat) :
    (splitHead node pos).data.swaUuid = node.data.swaUuid := rfl

@[simp] theorem splitTail_swaUuid (pos : Nat) : (splitTail node pos).data.swaUuid = none := rfl

/-- Stamp the node that ends at a word. -/
def stampNode (tree : List RadixTreeNode) (word : List Token) (timestamp : Int) :
    List RadixTreeNode :=
  modify tree word fun node => { node.data with timestamp := timestamp }

/-- The nodes met by a loop `while not cur.is_root(): … cur = cur.parent`. -/
def pathNodes (tree : List RadixTreeNode) (node : List Token) : List RadixTreeNode :=
  lineage tree node.length node

/-- `get_matched_indices` and `_collect_kv`: the values along the path, the root's child first. -/
def collectKv (tree : List RadixTreeNode) (node : List Token) : List Nat :=
  ((pathNodes tree node).reverse.map fun cur => cur.data.value).flatten

/-- The first of the nodes with the least timestamp, and the others: `heapq.heappop` under
`RadixTreeNode.__lt__`. -/
def popOldest : List RadixTreeNode → Option (RadixTreeNode × List RadixTreeNode)
  | [] => none
  | node :: rest =>
      match popOldest rest with
      | none => some (node, [])
      | some (oldest, others) =>
          if node.data.timestamp ≤ oldest.data.timestamp then some (node, rest)
          else some (oldest, node :: others)

/-- The tree with the tokens of its unlocked and of its locked nodes. -/
structure FullTier where
  nodes : List RadixTreeNode
  evictableSize : Int
  protectedSize : Int
  deriving DecidableEq

def FullTier.empty : FullTier := ⟨[], 0, 0⟩

def FullTier.pinNode (tier : FullTier) (cur : RadixTreeNode) : FullTier :=
  let tier := if cur.data.refCount = 0 then
    { tier with
      evictableSize := tier.evictableSize - cur.length
      protectedSize := tier.protectedSize + cur.length }
    else tier
  { tier with
    nodes := modify tier.nodes cur.path fun node =>
      { node.data with refCount := node.data.refCount + 1 } }

def FullTier.unpinNode (tier : FullTier) (cur : RadixTreeNode) : Except Err FullTier := do
  ensure (0 ≤ cur.data.refCount - 1) "node.ref_count >= 0"
  let tier := { tier with
    nodes := modify tier.nodes cur.path fun node =>
      { node.data with refCount := node.data.refCount - 1 } }
  if cur.data.refCount - 1 = 0 then
    pure { tier with
      evictableSize := tier.evictableSize + cur.length
      protectedSize := tier.protectedSize - cur.length }
  else pure tier

/-- A lock on every node from `node` up to the root. -/
def FullTier.pin (tier : FullTier) (node : List Token) : FullTier :=
  (pathNodes tier.nodes node).foldl FullTier.pinNode tier

/-- The lock on every node from `node` up to the root, given back. -/
def FullTier.unpin (tier : FullTier) (node : List Token) : Except Err FullTier :=
  (pathNodes tier.nodes node).foldlM FullTier.unpinNode tier

end FreeToken
