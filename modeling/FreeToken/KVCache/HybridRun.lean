/-
**Sequences of operations on the hybrid radix cache.**
-/

import FreeToken.KVCache.HybridEvict

namespace FreeToken

open PageTree List

structure HybridRun where
  cache : HybridRadixCache
  locks : List (List Token)

inductive HybridOp where
  | matchPrefix (inputIds : List Token)
  | insert (inputIds : List Token) (kvIndices : List Nat) (mambaValue : Nat)
  | lock (found : HybridMatch)
  | unlock (node : List Token)
  | evictFull (numTokens : Nat)
  | evictMamba (num : Nat)

variable {ops : List HybridOp}

namespace HybridRun

def new (pageSize : Nat) (clock : Clock) : HybridRun := ⟨HybridRadixCache.new pageSize clock, []⟩

/-- The snapshot of a match is still there. -/
def holds (nodes : List RadixTreeNode) (found : HybridMatch) : Bool :=
  found.node.isEmpty || match node? nodes found.node with
    | some cur => cur.data.mambaValue.isSome && cur.data.mambaValue = found.mambaValue
    | none => false

/-- One call. A lock is on a node of the tree, and is given back by who took it. An insertion brings
an index for each token it stores, which `set_key_value` asserts. -/
def step (run : HybridRun) : HybridOp → Option HybridRun
  | .matchPrefix inputIds => some { run with cache := (run.cache.matchPrefix inputIds).1 }
  | .insert inputIds kvIndices mambaValue =>
      let res := run.cache.insert inputIds kvIndices mambaValue
      let insertLen := alignDown inputIds.length run.cache.pageSize
      if res.2.1 = insertLen ∨ insertLen ≤ kvIndices.length then
        some { run with cache := res.1 }
      else none
  | .lock found =>
      if found.node.isEmpty || (node? run.cache.tier.nodes found.node).isSome then
        some ⟨run.cache.incLock found.node, found.node :: run.locks⟩
      else none
  | .unlock node =>
      if node ∈ run.locks then
        match run.cache.decLock node with
        | .ok cache => some ⟨cache, run.locks.erase node⟩
        | .error _ => none
      else none
  | .evictFull numTokens => some { run with cache := (run.cache.evictFull numTokens).1 }
  | .evictMamba num => some { run with cache := (run.cache.evictMamba num).1 }

def exec : HybridRun → List HybridOp → Option HybridRun
  | run, [] => some run
  | run, op :: ops => (run.step op).bind fun next => next.exec ops

/-- Each lock of a sequence is on a match whose snapshot is still there. -/
def timely : HybridRun → List HybridOp → Bool
  | _, [] => true
  | run, op :: ops =>
      (match op with
        | .lock found => holds run.cache.tier.nodes found
        | _ => true) && (run.step op).all fun next => next.timely ops

/-- Every leaf has a snapshot. -/
def LeavesCarry (run : HybridRun) : Prop :=
  ∀ node ∈ run.cache.tier.nodes, isLeaf run.cache.tier.nodes node.path = true →
    node.data.mambaValue.isSome = true

/-- `0 ≤ mamba_ref ≤ ref`. -/
def RefsOrdered (run : HybridRun) : Prop :=
  ∀ node ∈ run.cache.tier.nodes,
    0 ≤ node.data.mambaRefCount ∧ node.data.mambaRefCount ≤ node.data.refCount

def AncestorsReferenced (run : HybridRun) : Prop :=
  ∀ node ∈ run.cache.tier.nodes, 0 < node.data.refCount →
    ∀ up ∈ run.cache.tier.nodes, up.path <+: node.path → 0 < up.data.refCount

def CountersExact (run : HybridRun) : Prop :=
  run.cache.tier.evictableSize = total idle run.cache.tier.nodes ∧
    run.cache.tier.protectedSize = total pinned run.cache.tier.nodes ∧
    run.cache.mambaEvictable = total spareState run.cache.tier.nodes ∧
    run.cache.mambaProtected = total keptState run.cache.tier.nodes

variable {ps : Nat} {run next : HybridRun}

theorem match_holds {locks : List (List Token)} {cache : HybridRadixCache}
    (inv : HybridInv ps locks cache) (inputIds : List Token) :
    holds (cache.matchPrefix inputIds).1.tier.nodes (cache.matchPrefix inputIds).2 = true := by
  obtain ⟨invNext, -, -, valid⟩ := inv.matchPrefix inputIds
  unfold holds
  rcases valid with root | ⟨cur, mem, path, same, has⟩
  · rw [root]
    rfl
  · rw [← path, invNext.wf.node?_eq mem]
    dsimp only
    rw [has, same, decide_eq_true rfl]
    exact Bool.or_true _

theorem target_of_holds {nodes : List RadixTreeNode} {found : HybridMatch}
    (still : holds nodes found = true) :
    found.node = [] ∨ ∃ cur ∈ nodes, cur.path = found.node ∧ cur.data.mambaValue.isSome = true := by
  rcases Bool.or_eq_true_iff.mp still with root | lt
  · exact .inl (List.isEmpty_iff.mp root)
  · split at lt
    · rename_i cur here
      exact .inr ⟨cur, node?_mem here, node?_path here, (Bool.and_eq_true_iff.mp lt).1⟩
    · cases lt

/-- The invariant over a call. -/
theorem step_inv (inv : HybridInv ps run.locks run.cache) {op : HybridOp}
    (intime : run.timely (op :: ops) = true) (stepped : run.step op = some next) :
    HybridInv ps next.locks next.cache ∧ next.timely ops = true := by
  obtain ⟨still, rest⟩ := Bool.and_eq_true_iff.mp intime
  rw [stepped] at rest
  refine ⟨?_, rest⟩
  cases op with
  | matchPrefix inputIds =>
    cases stepped
    exact (inv.matchPrefix inputIds).1
  | insert inputIds kvIndices mambaValue =>
    simp only [step] at stepped
    split at stepped
    · cases stepped
      exact (inv.insert inputIds kvIndices mambaValue).inv
    · cases stepped
  | lock found =>
    simp only [step] at stepped
    split at stepped
    · cases stepped
      exact (inv.incLock (target_of_holds still)).1
    · cases stepped
  | unlock node =>
    simp only [step] at stepped
    split at stepped
    · rename_i locked
      obtain ⟨cache, given, invNext, -⟩ := inv.decLock locked
      rw [given] at stepped
      cases stepped
      exact invNext
    · cases stepped
  | evictFull numTokens =>
    cases stepped
    exact (inv.evictFull numTokens).1
  | evictMamba num =>
    cases stepped
    exact (inv.evictMamba num).1

/-- The invariant over a sequence of calls. -/
theorem exec_inv : ∀ {run : HybridRun}, HybridInv ps run.locks run.cache → run.timely ops = true →
      run.exec ops = some next → HybridInv ps next.locks next.cache := by
  induction ops with
  | nil =>
    intro run inv _ ran
    cases ran
    exact inv
  | cons op ops ih =>
    intro run inv intime ran
    obtain ⟨between, stepped, rest⟩ := Option.bind_eq_some_iff.mp ran
    obtain ⟨kept, later⟩ := step_inv inv intime stepped
    exact ih kept later rest

theorem leavesCarry (inv : HybridInv ps run.locks run.cache) : run.LeavesCarry :=
  fun node mem leaf => inv.carried node mem leaf (inv.wf.path_ne_nil mem)

theorem refsOrdered (inv : HybridInv ps run.locks run.cache) : run.RefsOrdered := by
  intro node mem
  rw [inv.core.mambaRef node mem, inv.core.tier.counts.refCount node mem]
  refine ⟨Int.natCast_nonneg _, Int.ofNat_le.mpr ?_⟩
  refine countP_mono_left fun lock _ same => ?_
  rw [beq_iff_eq.mp same]
  exact decide_eq_true (prefix_refl _)

theorem ancestorsReferenced (inv : HybridInv ps run.locks run.cache) : run.AncestorsReferenced := by
  intro node mem referenced up upMem above
  rw [inv.core.tier.counts.refCount node mem] at referenced
  rw [inv.core.tier.counts.refCount up upMem]
  by_contra free
  have zero := le_antisymm (not_lt.mp free) (through_nonneg run.locks up.path)
  refine absurd referenced (not_lt.mpr (le_of_eq (through_eq_zero fun lock lt below => ?_)))
  have pos := through_pos lt (above.trans below)
  omega

theorem countersExact (inv : HybridInv ps run.locks run.cache) : run.CountersExact :=
  ⟨inv.core.tier.counts.evictable, inv.core.tier.counts.protect, inv.core.evictable,
    inv.core.protect⟩

/-- **The invariants of the hybrid tree**: after every sequence of calls whose locks are on matches
with their snapshots, every leaf carries a live snapshot, no snapshot is locked more often than its
path, what is above a referenced node is referenced, and the four counters are those of the tree. An
outstanding lock can always be given back, and a match has its snapshot when it is returned. -/
theorem hybridRadixCache_invariants {clock : Clock}
    (intime : (new ps clock).timely ops = true) (ran : (new ps clock).exec ops = some run) :
    run.LeavesCarry ∧ run.RefsOrdered ∧ run.AncestorsReferenced ∧ run.CountersExact ∧
      (∀ node ∈ run.locks, (run.step (.unlock node)).isSome = true) ∧
      ∀ inputIds, holds (run.cache.matchPrefix inputIds).1.tier.nodes
        (run.cache.matchPrefix inputIds).2 = true := by
  have inv := exec_inv (HybridInv.new ps clock) intime ran
  refine ⟨leavesCarry inv, refsOrdered inv, ancestorsReferenced inv, countersExact inv, ?_,
    match_holds inv⟩
  intro node locked
  obtain ⟨cache, given, -, -⟩ := inv.decLock locked
  simp only [step]
  rw [if_pos locked, given]
  rfl

/-- Two snapshots on one path: the deeper one is locked, both evictions run, and the locked one is
left. -/
theorem hybridRadixCache_invariants_shared : ∃ run,
    (new 1 ⟨fun _ => 0, 0⟩).exec [.insert [1, 2] [10, 11] 5, .insert [1, 2, 3] [10, 11, 12] 6,
      .insert [1, 4] [10, 13] 7, .matchPrefix [1, 2, 3, 9],
      .lock ⟨[10, 11, 12], 3, some 6, [1, 2, 3]⟩, .evictMamba 1, .evictFull 1] = some run ∧
    run.LeavesCarry ∧ run.RefsOrdered ∧ run.AncestorsReferenced ∧ run.CountersExact ∧
      (∀ node ∈ run.locks, (run.step (.unlock node)).isSome = true) ∧
      ∀ inputIds, holds (run.cache.matchPrefix inputIds).1.tier.nodes
        (run.cache.matchPrefix inputIds).2 = true := by
  obtain ⟨run, ran⟩ : ∃ run, (new 1 ⟨fun _ => 0, 0⟩).exec
      [.insert [1, 2] [10, 11] 5, .insert [1, 2, 3] [10, 11, 12] 6, .insert [1, 4] [10, 13] 7,
        .matchPrefix [1, 2, 3, 9], .lock ⟨[10, 11, 12], 3, some 6, [1, 2, 3]⟩, .evictMamba 1,
        .evictFull 1] = some run := ⟨_, rfl⟩
  exact ⟨run, ran, hybridRadixCache_invariants rfl ran⟩

/-- A match that is locked after its snapshot was evicted: a leaf without a snapshot is left. -/
theorem hybridRadixCache_late_lock : ∃ run,
    (new 1 ⟨Int.ofNat, 0⟩).exec [.insert [1, 2] [10, 11] 5, .matchPrefix [1, 2, 9],
      .insert [1, 2, 3] [10, 11, 12] 6, .evictMamba 1, .lock ⟨[10, 11], 2, some 5, [1, 2]⟩,
      .evictFull 1] = some run ∧
    ((new 1 ⟨Int.ofNat, 0⟩).exec [.insert [1, 2] [10, 11] 5]).map
      (fun run => (run.cache.matchPrefix [1, 2, 9]).2) = some ⟨[10, 11], 2, some 5, [1, 2]⟩ ∧
    ¬run.LeavesCarry := by
  refine ⟨_, rfl, rfl, ?_⟩
  unfold LeavesCarry
  decide

end HybridRun

end FreeToken
