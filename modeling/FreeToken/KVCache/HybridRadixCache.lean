/-
**The hybrid radix cache.**

The second currency is an optional snapshot slot on a node (`mambaValue`) with its own lock and its
own eviction. The walk is the plain cache's.
-/

import FreeToken.KVCache.RadixCache

namespace FreeToken

open PageTree

structure HybridRadixCache where
  pageSize : Nat
  tier : FullTier
  mambaEvictable : Int
  mambaProtected : Int
  clock : Clock

/-- The indices of a match, its length, the snapshot to restore from and the node to lock. -/
structure HybridMatch where
  kvIndices : List Nat
  cachedLen : Nat
  mambaValue : Option Nat
  node : List Token
  deriving DecidableEq

structure HybridEvictResult where
  kvIndices : List Nat
  mambaSlots : List Nat
  deriving DecidableEq

/-- `CHUNK_SIZE` of the recurrent kernel. -/
def chunkSize : Nat := 64

variable (cache : HybridRadixCache) (node : List Token) (inputIds : List Token)

namespace HybridRadixCache

def new (pageSize : Nat) (clock : Clock) : HybridRadixCache where
  pageSize := pageSize
  tier := FullTier.empty
  mambaEvictable := 0
  mambaProtected := 0
  clock := clock

def withNodes (nodes : List RadixTreeNode) : HybridRadixCache :=
  { cache with tier := { cache.tier with nodes := nodes } }

def walk : HybridRadixCache × List Token :=
  let walked := treeWalk cache.pageSize cache.clock.now cache.tier.nodes inputIds
  ({ cache.withNodes walked.1 with clock := cache.clock.tick }, walked.2)

/-- The match, cut back to the deepest node with a snapshot. -/
def matchPrefix : HybridRadixCache × HybridMatch :=
  let (cache, node) := cache.walk inputIds
  match (pathNodes cache.tier.nodes node).find? fun cur => cur.data.mambaValue.isSome with
  | some cur => (cache,
      ⟨collectKv cache.tier.nodes cur.path, cur.path.length, cur.data.mambaValue, cur.path⟩)
  | none => (cache, ⟨[], 0, none, []⟩)

/-- The donation of a slot to the node that ends at a word; the flag is `mamba_exist`. -/
def donate (mambaValue : Nat) : HybridRadixCache × Bool :=
  match node? cache.tier.nodes node with
  | none => (cache, true)
  | some cur =>
      if cur.data.mambaValue.isSome then (cache, true)
      else
        let filled := cache.withNodes (modify cache.tier.nodes node fun old =>
          { old.data with mambaValue := some mambaValue })
        (if cur.data.mambaRefCount = 0 then
          { filled with mambaEvictable := cache.mambaEvictable + 1 } else filled, false)

/-- The matched length, and whether the end of the prefix already has a snapshot. -/
def insert (kvIndices : List Nat)
    (mambaValue : Nat) : HybridRadixCache × Nat × Bool :=
  let insertLen := alignDown inputIds.length cache.pageSize
  let inputIds := inputIds.take insertLen
  let kvIndices := kvIndices.take insertLen
  let (cache, node) := cache.walk inputIds
  let prefixLen := node.length
  if prefixLen ≠ insertLen then
    let key := inputIds.drop prefixLen
    let cache := { cache with
      tier := { cache.tier with
        nodes := insertLeaf cache.tier.nodes node key
          (NodeData.fresh (kvIndices.drop prefixLen) cache.clock.now)
        evictableSize := cache.tier.evictableSize + key.length }
      clock := cache.clock.tick }
    let (cache, mambaExist) := cache.donate (node ++ key) mambaValue
    (cache, prefixLen, mambaExist)
  else
    let (cache, mambaExist) := cache.donate node mambaValue
    (cache, prefixLen, mambaExist)

/-! ### Locking -/

def pinMamba : HybridRadixCache :=
  match node? cache.tier.nodes node with
  | none => cache
  | some cur =>
      if cur.data.mambaValue.isSome then
        let counted := if cur.data.mambaRefCount = 0 then
          { cache with
            mambaEvictable := cache.mambaEvictable - 1
            mambaProtected := cache.mambaProtected + 1 }
          else cache
        counted.withNodes (modify cache.tier.nodes node fun old =>
          { old.data with mambaRefCount := old.data.mambaRefCount + 1 })
      else cache

def unpinMamba : HybridRadixCache :=
  match node? cache.tier.nodes node with
  | none => cache
  | some cur =>
      if cur.data.mambaValue.isSome ∧ 0 < cur.data.mambaRefCount then
        let counted := if cur.data.mambaRefCount - 1 = 0 then
          { cache with
            mambaEvictable := cache.mambaEvictable + 1
            mambaProtected := cache.mambaProtected - 1 }
          else cache
        counted.withNodes (modify cache.tier.nodes node fun old =>
          { old.data with mambaRefCount := old.data.mambaRefCount - 1 })
      else cache

def incLock : HybridRadixCache :=
  let cache := cache.pinMamba node
  { cache with tier := cache.tier.pin node }

def decLock : Except Err HybridRadixCache := do
  let cache := cache.unpinMamba node
  let tier ← cache.tier.unpin node
  pure { cache with tier := tier }

/-! ### Eviction -/

structure EvictState where
  cache : HybridRadixCache
  kv : List Nat
  mamba : List Nat
  freed : Nat

/-- `_free_node_mamba`: the snapshot of a node goes to the freed slots. -/
def EvictState.freeNodeMamba (st : EvictState) (node : RadixTreeNode) : EvictState :=
  match node.data.mambaValue with
  | none => st
  | some slot =>
      let cache := st.cache.withNodes (modify st.cache.tier.nodes node.path fun old =>
        { old.data with mambaValue := none })
      { st with
        cache := if node.data.mambaRefCount = 0 then
          { cache with mambaEvictable := st.cache.mambaEvictable - 1 } else cache
        mamba := st.mamba ++ [slot] }

def EvictState.unlink (st : EvictState) (node : RadixTreeNode) : EvictState :=
  { st with
    cache := { st.cache with
      tier := { st.cache.tier with
        nodes := remove st.cache.tier.nodes node.path
        evictableSize := st.cache.tier.evictableSize - node.length } }
    kv := st.kv ++ node.data.value }

/-- The leaves without a snapshot that an unlinked leaf exposes upward; returns the freed tokens and
the surviving ancestor. Every round unlinks a node. -/
def cascadeTombstoneLeaves : Nat → EvictState → List Token → Nat → EvictState × List Token × Nat
  | 0, st, word, freed => (st, word, freed)
  | fuel + 1, st, word, freed =>
      match node? st.cache.tier.nodes word with
      | none => (st, word, freed)
      | some parent =>
          if parent.data.mambaValue = none ∧ isLeaf st.cache.tier.nodes word ∧
              parent.data.refCount = 0 then
            cascadeTombstoneLeaves fuel (st.unlink parent) parent.parent (freed + parent.length)
          else (st, word, freed)

/-- The loop of `evict_full`; `node` in the heap is read as it is in the tree. -/
def evictFullFrom (numTokens : Nat) : Nat → EvictState → List RadixTreeNode → EvictState
  | 0, st, _ => st
  | fuel + 1, st, leaves =>
      if numTokens ≤ st.freed then st
      else
        match popOldest leaves with
        | none => st
        | some (node, leaves) =>
            if node.data.refCount ≠ 0 ∨ isLeaf st.cache.tier.nodes node.path = false then
              evictFullFrom numTokens fuel st leaves
            else
              let (st, parent, cascaded) := cascadeTombstoneLeaves st.cache.tier.nodes.length
                ((st.freeNodeMamba node).unlink node) node.parent 0
              let st := { st with freed := st.freed + node.length + cascaded }
              let leaves := match node? st.cache.tier.nodes parent with
                | some up =>
                    if isLeaf st.cache.tier.nodes parent ∧ up.data.refCount = 0 then up :: leaves
                    else leaves
                | none => leaves
              evictFullFrom numTokens fuel st leaves

def evictFull (numTokens : Nat) : HybridRadixCache × HybridEvictResult :=
  let leaves := cache.tier.nodes.filter fun node =>
    isLeaf cache.tier.nodes node.path ∧ node.data.refCount = 0
  let st := evictFullFrom numTokens (cache.tier.nodes.length + 1) ⟨cache, [], [], 0⟩ leaves
  (st.cache, ⟨st.kv, st.mamba⟩)

/-- The loop of `evict_mamba`. -/
def evictMambaFrom (num : Nat) : Nat → EvictState → List RadixTreeNode → EvictState
  | 0, st, _ => st
  | fuel + 1, st, cands =>
      if num ≤ st.freed then st
      else
        match popOldest cands with
        | none => st
        | some (node, cands) =>
            if node.data.mambaValue = none ∨ node.data.mambaRefCount ≠ 0 then
              evictMambaFrom num fuel st cands
            else if isLeaf st.cache.tier.nodes node.path ∧ node.data.refCount = 0 then
              let (st, _, _) := cascadeTombstoneLeaves st.cache.tier.nodes.length
                ((st.freeNodeMamba node).unlink node) node.parent 0
              evictMambaFrom num fuel { st with freed := st.freed + 1 } cands
            else
              let st := st.freeNodeMamba node
              evictMambaFrom num fuel { st with freed := st.freed + 1 } cands

/-- Evict snapshots over unlocked nodes that have one, oldest first; an inner or full-locked node
only loses its snapshot. -/
def evictMamba (num : Nat) : HybridRadixCache × HybridEvictResult :=
  let cands := cache.tier.nodes.filter fun node =>
    node.data.mambaValue.isSome ∧ node.data.mambaRefCount = 0
  let st := evictMambaFrom num (cache.tier.nodes.length + 1) ⟨cache, [], [], 0⟩ cands
  (st.cache, ⟨st.kv, st.mamba⟩)

end HybridRadixCache

end FreeToken
