/-
**The sliding-window radix cache.**

The second currency stores no slot of its own: a node's `value` is canonical and its window slots
are reached through the pool's mapping. `swaTombstone` says that they were freed while the full
slots survive, `swaRefCount` is the lock on the trailing window and `swaUuid` the node at which such
a lock ends.
-/

import FreeToken.KVCache.RadixCache

namespace FreeToken

open PageTree

structure SWARadixCache where
  pageSize : Nat
  slidingWindowSize : Nat
  tier : FullTier
  swaEvictable : Int
  swaProtected : Int
  clk : Nat
  uuid : Nat
  deriving DecidableEq

def eventStride : Nat := 2 ^ 24

variable (cache : SWARadixCache) (inputIds : List Token) (node : List Token)
variable (swaUuidForLock : Option Nat)

namespace SWARadixCache

def new (pageSize slidingWindowSize : Nat) : SWARadixCache where
  pageSize := pageSize
  slidingWindowSize := slidingWindowSize
  tier := FullTier.empty
  swaEvictable := 0
  swaProtected := 0
  clk := 0
  uuid := 0

def withNodes (nodes : List RadixTreeNode) : SWARadixCache :=
  { cache with tier := { cache.tier with nodes := nodes } }

def tick : SWARadixCache := { cache with clk := cache.clk + 1 }

def time : Int := cache.clk * eventStride

def stampFrom (base : Int) : List RadixTreeNode → Nat → List RadixTreeNode → List RadixTreeNode
  | [], _, tree => tree
  | cur :: rest, off, tree => stampFrom base rest (off + 1) (stampNode tree cur.path (base - off))

def stampPath : SWARadixCache :=
  let cache := cache.tick
  cache.withNodes (stampFrom cache.time (pathNodes cache.tier.nodes node) 0 cache.tier.nodes)

/-! ### Match -/

/-- The variables of the loop of `match_prefix`; `matchSinceTomb` is `none` for infinity. -/
structure MatchState where
  tree : List RadixTreeNode
  node : List Token
  value : List (List Nat)
  matchSinceTomb : Option Nat
  bestValueLen : Nat
  bestNode : List Token
  deriving DecidableEq

/-- `match_since_tomb >= sliding_window_size`. -/
def covers (window : Nat) : Option Nat → Bool
  | none => true
  | some run => window ≤ run

/-- Commit the windowed-safe boundary at the current node when the live run behind it covers the
window. -/
def MatchState.commit (window : Nat) (st : MatchState) : MatchState :=
  if covers window st.matchSinceTomb then
    { st with bestValueLen := st.value.length, bestNode := st.node }
  else st

def MatchState.enter (st : MatchState) (child : RadixTreeNode) : MatchState :=
  { st with
    node := child.path
    value := st.value ++ [child.data.value]
    matchSinceTomb :=
      if child.data.swaTombstone then st.matchSinceTomb
      else st.matchSinceTomb.map (· + child.length) }

def matchFrom (ps window : Nat) : Nat → MatchState → List Token → MatchState
  | 0, st, _ => st
  | fuel + 1, st, rest =>
      if rest = [] then st
      else
        match child? ps st.tree st.node rest with
        | none => st
        | some child =>
            let st := if child.data.swaTombstone then
              { st.commit window with matchSinceTomb := some 0 } else st
            let matchLen := alignDown (getMatchLen child.key rest) ps
            if matchLen = 0 then st
            else if matchLen < child.length then
              { st with tree := splitNode st.tree child matchLen }.enter (splitHead child matchLen)
            else matchFrom ps window fuel (st.enter child) (rest.drop matchLen)

structure SWAMatch where
  kvIndices : List Nat
  cachedLen : Nat
  node : List Token
  deriving DecidableEq

/-- Match for the full layers, cut to the deepest node with a live window behind it. -/
def matchPrefix : SWARadixCache × SWAMatch :=
  let start : MatchState := ⟨cache.tier.nodes, [], [], none, 0, []⟩
  let st := (matchFrom cache.pageSize cache.slidingWindowSize inputIds.length start inputIds).commit
    cache.slidingWindowSize
  let kv := (st.value.take st.bestValueLen).flatten
  ((cache.withNodes st.tree).stampPath st.bestNode, ⟨kv, kv.length, st.bestNode⟩)

/-! ### Insert -/

def revive (node : RadixTreeNode) (value : List Nat) : SWARadixCache :=
  let cache := cache.tick
  { cache.withNodes (modify cache.tier.nodes node.path fun old =>
      { old.data with value := value, swaTombstone := false, timestamp := cache.time }) with
    swaEvictable := cache.swaEvictable + node.length }

/-- What `insert` does with a matched node, `total` tokens deep, for the request's slots `segKv`
over its span: the cache and the slots to free. -/
def reconcile (child : RadixTreeNode) (segKv : List Nat)
    (total swaEvictedSeqlen updateKvAfterLen : Nat) : Except Err (SWARadixCache × List Nat) :=
  if updateKvAfterLen < total + child.length then
    if child.data.swaTombstone then do
      ensure (child.data.swaRefCount = 0) "a tombstoned node cannot hold a swa lock"
      if 0 < child.data.refCount then
        -- a full-locked reader still gathers the node's current slots through its own row
        pure (cache, segKv)
      else if swaEvictedSeqlen ≤ total then
        pure (cache.revive child segKv, child.data.value)
      else if swaEvictedSeqlen < total + child.length then
        -- the request's own frontier falls inside the node: the head stays a tombstone
        let start := swaEvictedSeqlen - total
        let cut := cache.withNodes (splitNode cache.tier.nodes child start)
        let tail := splitTail child start
        pure (cut.revive tail (segKv.drop start), tail.data.value ++ segKv.take start)
      else pure (cache, segKv)
    else pure (cache, segKv)
  else pure (cache, [])

/-- The matching loop of `insert`: the cache, the node reached and the slots to free. -/
def insertFrom (kvIndices : List Nat) (swaEvictedSeqlen updateKvAfterLen : Nat) :
    Nat → SWARadixCache → List Token → List Token → List Nat →
      Except Err (SWARadixCache × List Token × List Nat)
  | 0, cache, node, _, freed => .ok (cache, node, freed)
  | fuel + 1, cache, node, rest, freed =>
      if rest = [] then .ok (cache, node, freed)
      else
        match child? cache.pageSize cache.tier.nodes node rest with
        | none => .ok (cache, node, freed)
        | some child =>
            let matchLen := alignDown (getMatchLen child.key rest) cache.pageSize
            let total := node.length
            let segKv := slice kvIndices total (total + matchLen)
            if matchLen = 0 then .ok (cache, node, freed)
            else if matchLen < child.length then do
              let cut := cache.withNodes (splitNode cache.tier.nodes child matchLen)
              let head := splitHead child matchLen
              let (cache, more) ← cut.reconcile head segKv total swaEvictedSeqlen updateKvAfterLen
              pure (cache, head.path, freed ++ more)
            else do
              let (cache, more) ← cache.reconcile child segKv total swaEvictedSeqlen updateKvAfterLen
              insertFrom kvIndices swaEvictedSeqlen updateKvAfterLen fuel cache child.path
                (rest.drop matchLen) (freed ++ more)

def addChild (parent ids : List Token) (kv : List Nat) (tombstone : Bool) : SWARadixCache :=
  let cache := cache.tick
  { cache with
    tier := { cache.tier with
      nodes := insertLeaf cache.tier.nodes parent ids
        { NodeData.fresh kv cache.time with swaTombstone := tombstone }
      evictableSize := cache.tier.evictableSize + ids.length }
    swaEvictable := if tombstone then cache.swaEvictable else cache.swaEvictable + ids.length }

/-- The tokens not yet in the tree: a tombstone up to the request's own frontier, then a live leaf
of at least one page. -/
def addSuffix (node ids : List Token) (kv : List Nat)
    (insertLen swaEvictedSeqlen : Nat) : SWARadixCache :=
  let total := node.length
  if total < insertLen then
    let boundary := min (min swaEvictedSeqlen insertLen - total) (ids.length - cache.pageSize)
    if 0 < boundary then
      let cache := cache.addChild node (ids.take boundary) (kv.take boundary) true
      if ids.drop boundary ≠ [] then
        cache.addChild (node ++ ids.take boundary) (ids.drop boundary) (kv.drop boundary) false
      else cache
    else cache.addChild node ids kv false
  else cache

/-- The matched length and the full slots to return to both pools. -/
def insert (kvIndices : List Nat)
    (swaEvictedSeqlen updateKvAfterLen : Nat) : Except Err (SWARadixCache × Nat × List Nat) := do
  let insertLen := alignDown inputIds.length cache.pageSize
  let inputIds := inputIds.take insertLen
  let kvIndices := kvIndices.take insertLen
  let (cache, node, freed) ← insertFrom kvIndices swaEvictedSeqlen updateKvAfterLen
    inputIds.length cache [] inputIds []
  let total := node.length
  pure (cache.addSuffix node (inputIds.drop total) (kvIndices.drop total) insertLen
    swaEvictedSeqlen, total, freed)

/-! ### Locking -/

/-- The variables of the loop of `inc_lock`. -/
structure LockState where
  cache : SWARadixCache
  swaLocked : Nat
  swaUuidForLock : Option Nat
  deriving DecidableEq

/-- The window tier of one node of `inc_lock`. -/
def LockState.window (st : LockState) (cur : RadixTreeNode) : LockState :=
  if st.swaLocked < st.cache.slidingWindowSize ∧ cur.data.swaTombstone = false then
    let cache := if cur.data.swaRefCount = 0 then
      { st.cache with
        swaEvictable := st.cache.swaEvictable - cur.length
        swaProtected := st.cache.swaProtected + cur.length }
      else st.cache
    let cache := cache.withNodes (modify cache.tier.nodes cur.path fun node =>
      { node.data with swaRefCount := node.data.swaRefCount + 1 })
    let swaLocked := st.swaLocked + cur.length
    if cache.slidingWindowSize ≤ swaLocked then
      match cur.data.swaUuid with
      | some uuid => ⟨cache, swaLocked, some uuid⟩
      | none =>
          let uuid := cache.uuid + 1
          let cache := { cache.withNodes (modify cache.tier.nodes cur.path fun node =>
            { node.data with swaUuid := some uuid }) with uuid := uuid }
          ⟨cache, swaLocked, some uuid⟩
    else ⟨cache, swaLocked, st.swaUuidForLock⟩
  else st

def LockState.step (st : LockState) (cur : RadixTreeNode) : LockState :=
  LockState.window { st with cache := { st.cache with tier := st.cache.tier.pinNode cur } } cur

/-- The lock on a node's full path and on the trailing window of live tokens, and the boundary of
that window. -/
def incLock : SWARadixCache × Option Nat :=
  let st := (pathNodes cache.tier.nodes node).foldl LockState.step ⟨cache, 0, none⟩
  (st.cache, st.swaUuidForLock)

/-- The window tier of one node of `dec_lock`; the flag is `dec_swa`. -/
def unlockWindow (cache : SWARadixCache) (decSwa : Bool)
    (cur : RadixTreeNode) : SWARadixCache × Bool :=
  if decSwa ∧ cur.data.swaTombstone = false ∧ 0 < cur.data.swaRefCount then
    let cache := cache.withNodes (modify cache.tier.nodes cur.path fun node =>
      { node.data with swaRefCount := node.data.swaRefCount - 1 })
    let cache := if cur.data.swaRefCount - 1 = 0 then
      { cache with
        swaEvictable := cache.swaEvictable + cur.length
        swaProtected := cache.swaProtected - cur.length }
      else cache
    (cache, !(swaUuidForLock.isSome ∧ cur.data.swaUuid = swaUuidForLock))
  else (cache, decSwa)

def unlockStep (st : SWARadixCache × Bool) (cur : RadixTreeNode) :
    Except Err (SWARadixCache × Bool) := do
  let tier ← st.1.tier.unpinNode cur
  pure (unlockWindow swaUuidForLock { st.1 with tier := tier } st.2 cur)

def decLock (skipSwa : Bool := false) : Except Err SWARadixCache := do
  let st ← (pathNodes cache.tier.nodes node).foldlM (unlockStep swaUuidForLock) (cache, !skipSwa)
  pure st.1

/-! ### Eviction -/

/-- The full slots removed from the tree and those whose window slots are to be freed. -/
structure SWAEvictResult where
  kvIndices : List Nat
  swaIndices : List Nat
  deriving DecidableEq

/-- `_unlink` a leaf: the tree without it. -/
def unlink (node : RadixTreeNode) : SWARadixCache :=
  cache.withNodes (remove cache.tier.nodes node.path)

def spendFull (tokens : Nat) : SWARadixCache :=
  { cache with tier := { cache.tier with evictableSize := cache.tier.evictableSize - tokens } }

def spendSwa (tokens : Nat) : SWARadixCache :=
  { cache with swaEvictable := cache.swaEvictable - tokens }

/-- The variables of the eviction loops: the cache, what left the tree, what left the window tier
and how many tokens were freed. -/
structure EvictState where
  cache : SWARadixCache
  kv : List Nat
  swa : List Nat
  freed : Nat
  deriving DecidableEq

/-- Reclaim the unlocked tombstone leaves that an unlinked leaf exposes upward; returns the
surviving ancestor. Every round unlinks a node. -/
def cascadeSwaTombstoneLeaves : Nat → EvictState → List Token → EvictState × List Token
  | 0, st, word => (st, word)
  | fuel + 1, st, word =>
      match node? st.cache.tier.nodes word with
      | none => (st, word)
      | some parent =>
          if parent.data.swaTombstone ∧ isLeaf st.cache.tier.nodes word ∧
              parent.data.refCount = 0 then
            cascadeSwaTombstoneLeaves fuel
              { st with
                cache := (st.cache.spendFull parent.length).unlink parent
                kv := st.kv ++ parent.data.value
                freed := st.freed + parent.length } parent.parent
          else (st, word)

def EvictState.dropLeaf (st : EvictState) (node : RadixTreeNode) : EvictState where
  cache :=
    let cache := st.cache.spendFull node.length
    (if node.data.swaTombstone then cache else cache.spendSwa node.length).unlink node
  kv := st.kv ++ node.data.value
  swa := if node.data.swaTombstone then st.swa else st.swa ++ node.data.value
  freed := st.freed + node.length

def evictFullFrom (numTokens : Nat) : Nat → EvictState → List RadixTreeNode → EvictState
  | 0, st, _ => st
  | fuel + 1, st, leaves =>
      if numTokens ≤ st.freed then st
      else
        match popOldest leaves with
        | none => st
        | some (node, leaves) =>
            if node.data.refCount ≠ 0 ∨ isLeaf st.cache.tier.nodes node.path = false then
              evictFullFrom numTokens fuel st leaves
            else
              let (st, parent) := cascadeSwaTombstoneLeaves st.cache.tier.nodes.length
                (st.dropLeaf node) node.parent
              let leaves := match node? st.cache.tier.nodes parent with
                | some up =>
                    if isLeaf st.cache.tier.nodes parent ∧ up.data.refCount = 0 then up :: leaves
                    else leaves
                | none => leaves
              evictFullFrom numTokens fuel st leaves

def evictFull (numTokens : Nat) : SWARadixCache × SWAEvictResult :=
  let leaves := cache.tier.nodes.filter fun node =>
    isLeaf cache.tier.nodes node.path ∧ node.data.refCount = 0
  let st := evictFullFrom numTokens (cache.tier.nodes.length + 1) ⟨cache, [], [], 0⟩ leaves
  (st.cache, ⟨st.kv, st.swa⟩)

def EvictState.tombstone (st : EvictState) (node : RadixTreeNode) : EvictState where
  cache := (st.cache.spendSwa node.length).withNodes
    (modify st.cache.tier.nodes node.path fun old => { old.data with swaTombstone := true })
  kv := st.kv
  swa := st.swa ++ node.data.value
  freed := st.freed + node.length

def evictSwaFrom (numTokens : Nat) : Nat → EvictState → List RadixTreeNode → EvictState
  | 0, st, _ => st
  | fuel + 1, st, cands =>
      if numTokens ≤ st.freed then st
      else
        match popOldest cands with
        | none => st
        | some (node, cands) =>
            if node.data.swaTombstone ∨ node.data.swaRefCount ≠ 0 then
              evictSwaFrom numTokens fuel st cands
            else if isLeaf st.cache.tier.nodes node.path ∧ node.data.refCount = 0 then
              let dropped := st.dropLeaf node
              let (cascaded, _) :=
                cascadeSwaTombstoneLeaves st.cache.tier.nodes.length dropped node.parent
              evictSwaFrom numTokens fuel { cascaded with freed := dropped.freed } cands
            else evictSwaFrom numTokens fuel (st.tombstone node) cands

/-- Evict window slots over unlocked live nodes, oldest first; an internal or full-locked node
becomes a tombstone in place. -/
def evictSwa (numTokens : Nat) : SWARadixCache × SWAEvictResult :=
  let cands := cache.tier.nodes.filter fun node =>
    node.data.swaTombstone = false ∧ node.data.swaRefCount = 0
  let st := evictSwaFrom numTokens (cache.tier.nodes.length + 1) ⟨cache, [], [], 0⟩ cands
  (st.cache, ⟨st.kv, st.swa⟩)

/-- The loop of `trim_head_swa` from a node on. -/
def trimFrom (keepFrom : Nat) :
    Nat → SWARadixCache → List Token → List Token → List Nat → SWARadixCache × List Nat
  | 0, cache, _, _, freed => (cache, freed)
  | fuel + 1, cache, word, rest, freed =>
      if keepFrom ≤ word.length then (cache, freed)
      else
        match child? cache.pageSize cache.tier.nodes word rest with
        | none => (cache, freed)
        | some child =>
            if keepFrom < word.length + child.length then (cache, freed)
            else
              let rest := rest.drop child.length
              if child.data.swaTombstone = false ∧ child.data.swaRefCount = 0 ∧
                  isLeaf cache.tier.nodes child.path = false then
                let cache := (cache.spendSwa child.length).withNodes
                  (modify cache.tier.nodes child.path fun old =>
                    { old.data with swaTombstone := true })
                trimFrom keepFrom fuel cache child.path rest (freed ++ child.data.value)
              else trimFrom keepFrom fuel cache child.path rest freed

/-- Tombstone the path strictly below `keepFrom`: the slots whose window slots are freed. -/
def trimHeadSwa (keepFrom : Nat) : SWARadixCache × List Nat :=
  if keepFrom = 0 then (cache, [])
  else
    let (cache, _) := cache.matchPrefix (inputIds.take keepFrom)
    trimFrom keepFrom inputIds.length cache [] inputIds []

end SWARadixCache

end FreeToken
