/-
**The plain radix prefix cache and the naive one.**

`RadixPrefixCache` matches, inserts and evicts as the source does; `NaivePrefixCache` keeps nothing
and its functions are constants, so it needs no state here.

* `matchPrefix`, `insertPrefix`, `evict`, `lockHandle`, `unlockHandle`.
-/

import FreeToken.KVCache.RadixTreeNode

namespace FreeToken

open PageTree

/-- `time.monotonic_ns()` as the sequence of its readings and how many were taken. -/
structure Clock where
  readings : Nat → Int
  reads : Nat

def Clock.now (clock : Clock) : Int := clock.readings clock.reads

def Clock.tick (clock : Clock) : Clock := { clock with reads := clock.reads + 1 }

/-- What a cache hands out for a matched prefix: its length, the node to lock, the indices a hybrid
or sliding-window match carries along and the window boundary of a sliding-window lock. -/
structure CacheHandle where
  cachedLen : Nat
  node : List Token
  kvIndices : List Nat := []
  swaUuid : Option Nat := none
  deriving DecidableEq, Repr

/-- The loop of `_tree_walk`: read `rest` below `word`, stamping what is passed. Every round reads
at least one token, so as many rounds as tokens are enough. -/
def treeWalkFrom (ps : Nat) (tic : Int) :
    Nat → List RadixTreeNode → List Token → List Token → List RadixTreeNode × List Token
  | 0, tree, word, _ => (tree, word)
  | fuel + 1, tree, word, rest =>
      if rest = [] then (tree, word)
      else
        match child? ps tree word rest with
        | none => (tree, word)
        | some child =>
            let matchLen := alignDown (getMatchLen child.key rest) ps
            if matchLen ≠ child.length then
              let head := splitHead child matchLen
              (stampNode (splitNode tree child matchLen) head.path tic, head.path)
            else
              treeWalkFrom ps tic fuel (stampNode tree child.path tic) child.path
                (rest.drop matchLen)

/-- `_tree_walk`: the tree after the walk and the node it ends at. -/
def treeWalk (ps : Nat) (tic : Int) (tree : List RadixTreeNode) (inputIds : List Token) :
    List RadixTreeNode × List Token :=
  treeWalkFrom ps tic inputIds.length tree [] inputIds

structure RadixPrefixCache where
  pageSize : Nat
  tier : FullTier
  clock : Clock

def RadixPrefixCache.new (pageSize : Nat) (clock : Clock) : RadixPrefixCache :=
  ⟨pageSize, FullTier.empty, clock⟩

variable (cache : RadixPrefixCache) (inputIds : List Token)

namespace RadixPrefixCache

def lockHandle (handle : CacheHandle) : RadixPrefixCache :=
  { cache with tier := cache.tier.pin handle.node }

def unlockHandle (handle : CacheHandle) : Except Err RadixPrefixCache := do
  let tier ← cache.tier.unpin handle.node
  pure { cache with tier := tier }

def walk : RadixPrefixCache × List Token :=
  let walked := treeWalk cache.pageSize cache.clock.now cache.tier.nodes inputIds
  ({ cache with tier := { cache.tier with nodes := walked.1 }, clock := cache.clock.tick },
    walked.2)

def matchPrefix : RadixPrefixCache × CacheHandle :=
  let (cache, node) := cache.walk inputIds
  (cache, { cachedLen := node.length, node := node })

/-- The matched length, and a handle on the whole inserted prefix. -/
def insertPrefix (indices : List Nat) : RadixPrefixCache × Nat × CacheHandle :=
  let insertLen := alignDown inputIds.length cache.pageSize
  let inputIds := inputIds.take insertLen
  let indices := indices.take insertLen
  let (cache, node) := cache.walk inputIds
  let prefixLen := node.length
  if prefixLen ≠ insertLen then
    let key := inputIds.drop prefixLen
    let tier := { cache.tier with
      nodes := insertLeaf cache.tier.nodes node key
        (NodeData.fresh (indices.drop prefixLen) cache.clock.now)
      evictableSize := cache.tier.evictableSize + key.length }
    ({ cache with tier := tier, clock := cache.clock.tick },
      prefixLen, { cachedLen := insertLen, node := node ++ key })
  else (cache, prefixLen, { cachedLen := insertLen, node := node })

def collectLeaveNodesForEvict (tree : List RadixTreeNode) : List RadixTreeNode :=
  tree.filter fun node => isLeaf tree node.path ∧ node.data.refCount = 0

/-- The loop of `evict`. Every round unlinks a node, so as many rounds as nodes are enough. -/
def evictFrom (size : Nat) :
    Nat → FullTier → List RadixTreeNode → Nat → List Nat → Except Err (FullTier × List Nat)
  | 0, _, _, _, _ => .error (.assertion "Cannot evict enough cache")
  | fuel + 1, tier, leaveNodes, evictedSize, evicted =>
      if size ≤ evictedSize then .ok (tier, evicted)
      else
        match popOldest leaveNodes with
        | none => .error (.assertion "Cannot evict enough cache")
        | some (node, leaveNodes) => do
            ensure (node.data.refCount = 0 ∧ isLeaf tier.nodes node.path)
              "node.ref_count == 0 and node.is_leaf() and not node.is_root()"
            let nodes := remove tier.nodes node.path
            let tier := { tier with
              nodes := nodes
              evictableSize := tier.evictableSize - node.length }
            let leaveNodes := match node? nodes node.parent with
              | some up =>
                  if isLeaf nodes up.path ∧ up.data.refCount = 0 then up :: leaveNodes
                  else leaveNodes
              | none => leaveNodes
            evictFrom size fuel tier leaveNodes (evictedSize + node.length)
              (evicted ++ node.data.value)

def evict (cache : RadixPrefixCache) (size : Nat) : Except Err (RadixPrefixCache × List Nat) :=
  if size = 0 then .ok (cache, [])
  else do
    ensure ((size : Int) ≤ cache.tier.evictableSize)
      s!"Cannot evict {size}, only {cache.tier.evictableSize} is evictable"
    let (tier, evicted) ← evictFrom size (cache.tier.nodes.length + 1) cache.tier
      (collectLeaveNodesForEvict cache.tier.nodes) 0 []
    pure ({ cache with tier := tier }, evicted)

end RadixPrefixCache

def NaivePrefixCache.handle : CacheHandle := { cachedLen := 0, node := [] }

def NaivePrefixCache.evict (size : Nat) : Except Err (List Nat) :=
  if size = 0 then .ok []
  else .error (.notImplemented "NaiveCacheManager does not support eviction.")

end FreeToken
