/-
**Where every page of the plain manager is, over a run.**

A page is on the free list, on the list of an open `lazy_free_region`, in one node of the tree or in
the private span of one request: from the end of the prefix it matched to the last page it was
allocated. A row of the page table belongs to one request or is free.
-/

import FreeToken.KVCache.RadixHolding
import FreeToken.Scheduler.Seating
import FreeToken.Scheduler.TenancyRun

namespace FreeToken

open List PageTree

/-! ### Rows by pages -/

namespace CacheManager

/-- The bases of the pages `first` to `last` of a row. -/
def rowPages (cm : CacheManager) (ps tableIdx first last : Nat) : List Nat :=
  (range (last - first)).map fun k => cm.pageTable tableIdx ((first + k) * ps)

/-- What the ledger reads of a manager beside the rows. -/
def books (cm : CacheManager) : Nat × List Nat × Option (List Nat) × PrefixCache × Nat :=
  (cm.pageSize, cm.freeSlots, cm.lazyFree, cm.prefixCache, cm.numPages)

/-- How a commit frees pages. -/
def giveBack (cm : CacheManager) (indices : List Nat) : CacheManager :=
  (if cm.swaPaged then cm.freeSwa indices else cm).free indices

variable {cm : CacheManager} {ps tableIdx first mid last : Nat}

theorem free_frame (cm : CacheManager) (indices : List Nat) :
    (cm.free indices).pageTable = cm.pageTable ∧ (cm.free indices).pageSize = cm.pageSize ∧
      (cm.lazyFree = none → (cm.free indices).lazyFree = none) := by
  unfold free
  split
  · next pending open_ =>
    refine ⟨rfl, rfl, fun closed => ?_⟩
    rw [closed] at open_
    cases open_
  · exact ⟨rfl, rfl, id⟩

theorem giveBack_frame (cm : CacheManager) (indices : List Nat) :
    (cm.giveBack indices).pageTable = cm.pageTable ∧ (cm.giveBack indices).pageSize = cm.pageSize ∧
      (cm.lazyFree = none → (cm.giveBack indices).lazyFree = none) := by
  unfold giveBack
  split
  · exact free_frame (cm.freeSwa indices) indices
  · exact free_frame cm indices

theorem rowPages_append (low : first ≤ mid) (high : mid ≤ last) :
    cm.rowPages ps tableIdx first mid ++ cm.rowPages ps tableIdx mid last =
      cm.rowPages ps tableIdx first last := by
  unfold rowPages
  rw [show last - first = (mid - first) + (last - mid) by omega, range_add, map_append, map_map]
  refine congrArg _ (map_congr_left fun k _ => ?_)
  rw [Function.comp_apply, ← add_assoc, Nat.add_sub_cancel' low]

/-- The page bases of a span of a row that starts at a page. -/
theorem stride_row (pos : 0 < ps) (upto : Nat) : stride ps (cm.row tableIdx (first * ps) upto) =
      cm.rowPages ps tableIdx first (divCeil upto ps) := by
  unfold row rowPages
  have size : divCeil (upto - first * ps) ps = divCeil upto ps - first := by
    rcases Nat.le_total (first * ps) upto with below | above
    · obtain ⟨more, rfl⟩ := Nat.exists_eq_add_of_le below
      rw [divCeil_mul_add _ _ pos, Nat.add_sub_cancel_left, Nat.add_sub_cancel_left]
    · have short : divCeil upto ps ≤ first := by
        rw [← Nat.not_lt, lt_divCeil pos]
        omega
      rw [Nat.sub_eq_zero_of_le above, Nat.sub_eq_zero_of_le short]
      exact Nat.div_eq_of_lt (by omega)
  rw [stride_map_range pos, size]
  refine map_congr_left fun k _ => ?_
  rw [Nat.add_mul]

theorem slice_row {from_ upto whole : Nat} (within : upto ≤ whole) :
    slice (cm.row tableIdx 0 whole) from_ upto = cm.row tableIdx from_ upto := by
  unfold slice row
  rw [← map_take, ← map_drop, take_range, min_eq_left (by omega), range_eq_range', drop_range',
    range'_eq_map_range, map_map]
  refine map_congr_left fun k _ => ?_
  rw [Function.comp_apply, mul_one, zero_add, zero_add]

theorem row_getElem? {from_ upto k : Nat} (lt : from_ + k < upto) :
    (cm.row tableIdx from_ upto)[k]? = some (cm.pageTable tableIdx (from_ + k)) := by
  unfold row
  rw [getElem?_map, getElem?_range (by omega)]
  rfl

/-- A span, cut where an insertion cuts it: the pages that were there, the new ones and the tail. -/
theorem rowPages_cut (pos : 0 < ps) {old found whole upto : Nat} (oldPage : ps ∣ old)
    (foundPage : ps ∣ found) (wholePage : ps ∣ whole) (low : old ≤ found) (mid : found ≤ whole)
    (high : whole ≤ upto) :
    cm.rowPages ps tableIdx (old / ps) (divCeil upto ps) =
      stride ps (cm.row tableIdx old found) ++ (stride ps (cm.row tableIdx found whole) ++
        stride ps (cm.row tableIdx whole (divCeil upto ps * ps))) := by
  obtain ⟨first, rfl⟩ := oldPage
  obtain ⟨second, rfl⟩ := foundPage
  obtain ⟨third, rfl⟩ := wholePage
  have one := Nat.le_of_mul_le_mul_left low pos
  have two := Nat.le_of_mul_le_mul_left mid pos
  have three : third ≤ divCeil upto ps := by
    refine Nat.le_of_mul_le_mul_right ?_ pos
    rw [Nat.mul_comm third]
    exact high.trans (le_divCeil_mul upto pos)
  rw [Nat.mul_div_cancel_left _ pos]
  simp only [Nat.mul_comm ps]
  rw [stride_row pos, stride_row pos, stride_row pos, divCeil_mul _ pos,
    divCeil_mul _ pos, divCeil_mul _ pos, rowPages_append two three,
    rowPages_append one (two.trans three)]

/-- Entries that a write leaves. -/
theorem writeRow_pageTable {row start position : Nat} {values : List Nat}
    (outside : row = tableIdx → position < start ∨ start + values.length ≤ position) :
    (cm.writeRow tableIdx start values).pageTable row position = cm.pageTable row position := by
  unfold writeRow
  dsimp only
  split
  · next lt =>
    obtain ⟨same, above⟩ := lt
    rcases outside same with below | after
    · omega
    · rw [getElem?_eq_none (by omega)]
      rfl
  · rfl

/-- What a write puts at the front of a row. -/
theorem row_writeRow (values : List Nat) :
    (cm.writeRow tableIdx 0 values).row tableIdx 0 values.length = values := by
  refine ext_getElem? fun k => ?_
  rcases Nat.lt_or_ge k values.length with below | above
  · rw [row_getElem? (by omega)]
    unfold writeRow
    dsimp only
    rw [if_pos ⟨rfl, Nat.zero_le _⟩, Nat.zero_add, Nat.sub_zero, getElem?_eq_getElem below]
    rfl
  · rw [getElem?_eq_none above, getElem?_eq_none]
    unfold row
    rw [length_map, length_range]
    exact above

end CacheManager

/-! ### The calls of the manager -/

/-- What each lock holder remembers: its handle and the front of its row. -/
abbrev Entries := List (CacheHandle × List Nat)

/-- The tree has the locks and serves the entries, and the free pages, those of the tree and those
that requests hold are all pages. -/
def Paged (ps numPages : Nat) (locks : List (List Token)) (entries : Entries) (held : List Nat)
    (cm : CacheManager) : Prop :=
  cm.numPages = numPages ∧ ∃ cache, cm.prefixCache = .radix cache ∧ cm.pageSize = ps ∧
    RadixRun.Inv ps ⟨cache, locks, entries⟩ ∧
    (cm.freeSlots ++ cm.lazyFree.getD [] ++ (treePages ps cache.tier.nodes ++ held)).Perm
      ((range numPages).map (· * ps))

/-- Every entry is locked, so an eviction leaves what it reads. -/
def Guarded (locks : List (List Token)) (entries : Entries) : Prop :=
  ∀ entry ∈ entries, entry.1.node ∈ locks

namespace Paged

variable {ps numPages : Nat} {locks : List (List Token)} {entries : Entries} {held : List Nat}
  {cm next : CacheManager}

theorem weaken (paged : Paged ps numPages locks entries held cm) {otherLocks : List (List Token)}
    {fewer : Entries} {otherHeld : List Nat} (sameLocks : locks.Perm otherLocks)
    (sub : ∀ entry ∈ fewer, entry ∈ entries) (sameHeld : held.Perm otherHeld) :
    Paged ps numPages otherLocks fewer otherHeld cm := by
  obtain ⟨total, cache, kind, size, inv, pages⟩ := paged
  exact ⟨total, cache, kind, size, inv.weaken sameLocks sub,
    ((sameHeld.symm.append_left _).append_left _).trans pages⟩

theorem frame (paged : Paged ps numPages locks entries held cm)
    (same : next.books = cm.books) : Paged ps numPages locks entries held next := by
  obtain ⟨total, cache, kind, size, inv, pages⟩ := paged
  simp only [CacheManager.books, Prod.mk.injEq] at same
  obtain ⟨sameSize, free, pending, tree, count⟩ := same
  exact ⟨count.trans total, cache, tree.trans kind, sameSize.trans size, inv, by
    rwa [free, pending]⟩

/-- Another tree with the same pages, but for what leaves the requests for it. -/
theorem retree (paged : Paged ps numPages locks entries held cm) {cache after : RadixPrefixCache}
    {others : List (List Token)} {newEntries : Entries} {rest : List Nat}
    (kind : cm.prefixCache = .radix cache) (inv : RadixRun.Inv ps ⟨after, others, newEntries⟩)
    (pages : (treePages ps after.tier.nodes ++ rest).Perm (treePages ps cache.tier.nodes ++ held)) :
    Paged ps numPages others newEntries rest { cm with prefixCache := .radix after } := by
  obtain ⟨total, was, same, size, -, all⟩ := paged
  obtain rfl := PrefixCache.radix.inj (kind.symm.trans same)
  exact ⟨total, after, rfl, size, inv, (pages.append_left _).trans all⟩

/-- Pages that a request gives back. -/
theorem free {indices rest : List Nat} (paged : Paged ps numPages locks entries held cm)
    (split : held.Perm (stride ps indices ++ rest)) :
    Paged ps numPages locks entries rest (cm.free indices) := by
  obtain ⟨total, cache, kind, rfl, inv, all⟩ := paged
  have moved : ∀ front : List Nat, (front ++ stride cm.pageSize indices ++
      (treePages cm.pageSize cache.tier.nodes ++ rest)).Perm
      (front ++ (treePages cm.pageSize cache.tier.nodes ++ held)) := by
    intro front
    rw [append_assoc]
    refine Perm.append_left _ (Perm.trans ?_ (split.symm.append_left _))
    rw [← append_assoc, ← append_assoc]
    exact perm_append_comm.append_right _
  unfold CacheManager.free
  split
  · next pending open_ =>
    refine ⟨total, cache, kind, rfl, inv, Perm.trans ?_ all⟩
    rw [open_]
    dsimp only [Option.getD_some]
    rw [← append_assoc cm.freeSlots]
    exact moved _
  · next closed =>
    refine ⟨total, cache, kind, rfl, inv, Perm.trans ?_ all⟩
    rw [closed]
    dsimp only [Option.getD_none]
    rw [append_nil, append_nil]
    exact moved _

theorem matchReq (paged : Paged ps numPages locks entries held cm) (pending : PendingReq) :
    Outcome (cm.matchReq pending)
      (fun res => ∃ cache, res.1 = { cm with prefixCache := .radix cache } ∧
        res.2.cudaHandle.node <+: pending.inputIds ∧
        (pending.mmEmbeds = true → res.2.cudaHandle.node = []) ∧
        Paged ps numPages locks
          ((res.2.cudaHandle, res.1.getMatchedIndices res.2.cudaHandle) :: entries) held
          res.1)
      fun _ => True := by
  obtain ⟨total, cache, kind, size, inv, all⟩ := id paged
  unfold CacheManager.matchReq ensure
  split
  swap
  · trivial
  · have onInput : (if pending.mmEmbeds then [] else
        pending.inputIds.take (pending.inputLen - 1)) <+: pending.inputIds := by
      split
      · exact nil_prefix
      · exact take_prefix _ _
    have noImages : pending.mmEmbeds = true → (if pending.mmEmbeds then [] else
        pending.inputIds.take (pending.inputLen - 1)) = [] := fun images => if_pos images
    generalize (if pending.mmEmbeds then [] else
      pending.inputIds.take (pending.inputLen - 1)) = ids at onInput noImages ⊢
    obtain ⟨found, onIds, pages⟩ := RadixRun.matchPrefix_pages inv ids
    refine Outcome.bind (Q := fun _ => True) trivial fun _ _ => ?_
    rw [kind]
    refine Outcome.pure ⟨_, rfl, onIds.trans onInput, fun images => ?_,
      paged.retree kind found (pages.append_right _)⟩
    rw [noImages images] at onIds ⊢
    exact prefix_nil.mp onIds

theorem reads (paged : Paged ps numPages locks entries held cm) {handle : CacheHandle}
    {kv : List Nat} (mem : (handle, kv) ∈ entries) : cm.getMatchedIndices handle = kv := by
  obtain ⟨-, cache, kind, -, inv, -⟩ := paged
  unfold CacheManager.getMatchedIndices
  rw [kind]
  exact (inv.handles _ mem).2.2

/-- A handle ends with a page. -/
theorem whole (paged : Paged ps numPages locks entries held cm) {handle : CacheHandle}
    {kv : List Nat} (mem : (handle, kv) ∈ entries) :
    0 < ps ∧ handle.cachedLen = handle.node.length ∧ ps ∣ handle.cachedLen := by
  obtain ⟨-, cache, -, -, inv, -⟩ := paged
  obtain ⟨isHandle, stored, -⟩ := inv.handles _ mem
  have len : handle.cachedLen = handle.node.length := congrArg CacheHandle.cachedLen isHandle
  exact ⟨inv.positive, len, len ▸ stored.dvd inv.tier.wf⟩

theorem lock (paged : Paged ps numPages locks entries held cm) {handle : CacheHandle}
    (given : handle ∈ entries.map Prod.fst) :
    ∃ cache, cm.lock handle = ({ cm with prefixCache := .radix cache }, handle) ∧
      Paged ps numPages (handle.node :: locks) entries held
        { cm with prefixCache := .radix cache } := by
  obtain ⟨total, cache, kind, size, inv, all⟩ := id paged
  obtain ⟨locked, same⟩ := RadixRun.lock_pages inv given
  refine ⟨cache.lockHandle handle, ?_, paged.retree kind locked (same ▸ .refl _)⟩
  unfold CacheManager.lock
  rw [kind]

theorem unlock {handle : CacheHandle}
    (paged : Paged ps numPages (handle.node :: locks) entries held cm) :
    ∃ cache, cm.unlock handle = .ok { cm with prefixCache := .radix cache } ∧
      Paged ps numPages locks entries held { cm with prefixCache := .radix cache } := by
  obtain ⟨total, cache, kind, size, inv, all⟩ := id paged
  obtain ⟨after, ran, unlocked, same⟩ := RadixRun.unlock_pages inv mem_cons_self
  rw [erase_cons_head] at unlocked
  refine ⟨after, ?_, paged.retree kind unlocked (same ▸ .refl _)⟩
  unfold CacheManager.unlock
  rw [kind]
  dsimp only
  rw [ran]
  rfl

theorem cacheReq_plain (paged : Paged ps numPages locks entries held cm) (req : Req)
    (finished : Bool) : cm.cacheReq req finished = cm.cacheReqPlain req finished := by
  obtain ⟨-, cache, kind, -⟩ := paged
  unfold CacheManager.cacheReq
  rw [kind]

/-- A lock on the root touches no node. -/
theorem lockRoot (paged : Paged ps numPages locks entries held cm) (handle : CacheHandle)
    (given : handle ∈ entries.map Prod.fst) (root : handle.node = []) :
    Paged ps numPages ([] :: locks) entries held cm := by
  obtain ⟨total, cache, kind, size, inv, all⟩ := paged
  have locked := (RadixRun.lock_pages inv given).1
  have same : cache.lockHandle handle = cache := by
    unfold RadixPrefixCache.lockHandle
    rw [root]
    rfl
  rw [same, root] at locked
  exact ⟨total, cache, kind, size, locked, all⟩

/-- Pages that a commit gives back, with their window slots. -/
theorem giveBack {indices rest : List Nat} (paged : Paged ps numPages locks entries held cm)
    (split : held.Perm (stride ps indices ++ rest)) :
    Paged ps numPages locks entries rest (cm.giveBack indices) := by
  unfold CacheManager.giveBack
  split
  · have freed : Paged ps numPages locks entries held (cm.freeSwa indices) := paged.frame rfl
    exact freed.free split
  · exact paged.free split

theorem refill (paged : Paged ps numPages locks entries held cm) (guarded : Guarded locks entries)
    (neededPages : Nat) :
    Outcome (cm.refill neededPages) (fun next => ∃ cache free,
        next = { cm with prefixCache := .radix cache, freeSlots := free } ∧
        neededPages ≤ free.length ∧ Paged ps numPages locks entries held next)
      fun _ => True := by
  obtain ⟨total, cache, kind, rfl, inv, all⟩ := id paged
  unfold CacheManager.refill
  split
  swap
  · next enough => exact ⟨cache, cm.freeSlots, by rw [← kind], not_lt.mp enough, paged⟩
  · unfold CacheManager.evictPages
    rw [kind]
    dsimp only
    refine Outcome.bind (Q := fun res => ∃ after freed,
      cache.evict ((neededPages - cm.freeSlots.length) * cm.pageSize) = .ok (after, freed) ∧
      res = ({ cm with prefixCache := .radix after }, freed)) ?_ ?_
    · refine Outcome.bind_eq (Q := fun _ => True) ?_ ?_
      · exact Outcome.of_eq (fun _ _ => trivial) fun _ _ => trivial
      · exact fun res ran _ => Outcome.pure ⟨_, _, ran, rfl⟩
    · rintro - ⟨after, freed, ran, rfl⟩
      obtain ⟨kept, moved⟩ := RadixRun.evict_pages inv ran guarded
      unfold ensure
      split
      swap
      · trivial
      · next enough =>
        refine Outcome.pure ⟨after, _, rfl, enough, total, after, rfl, rfl, kept, Perm.trans ?_ all⟩
        rw [append_assoc cm.freeSlots, append_assoc, append_assoc, append_assoc]
        refine Perm.append_left _ ?_
        refine (perm_append_comm_assoc _ _ _).trans (Perm.append_left _ ?_)
        rw [← append_assoc]
        exact moved.symm.append_right _

theorem allocate (paged : Paged ps numPages locks entries held cm)
    (guarded : Guarded locks entries) (neededPages : Nat) :
    Outcome (cm.allocate neededPages) (fun res => ∃ cache free,
        res.1 = { cm with prefixCache := .radix cache, freeSlots := free } ∧
        res.2.length = neededPages ∧
        Paged ps numPages locks entries (res.2 ++ held) res.1)
      fun _ => True := by
  refine (paged.refill guarded neededPages).bind ?_
  rintro - ⟨cache, free, rfl, enough, total, was, kind, size, inv, all⟩
  refine Outcome.pure ⟨cache, _, rfl, ?_, total, was, kind, size, inv, Perm.trans ?_ all⟩
  · rw [length_take]
    exact min_eq_left enough
  · have cut := take_append_drop neededPages free
    generalize free.take neededPages = front at cut ⊢
    generalize free.drop neededPages = back at cut ⊢
    subst cut
    rw [append_assoc back, append_assoc (front ++ back), append_assoc front]
    refine Perm.trans (Perm.append_left _ ?_) (perm_append_comm_assoc _ _ _)
    exact ((perm_append_comm_assoc _ _ _).append_left _).trans (perm_append_comm_assoc _ _ _)

end Paged

/-! ### The ledger -/

def nodeOf (tenant : Tenant) : List Token := tenant.2.cacheHandle.node

def rowOf (tenant : Tenant) : Nat := tenant.2.tableIdx.getD 0

/-- How far a request's pages go: at rest to its cached length, in a launch to its device length. -/
def extent (tenant : Tenant) : Nat :=
  if tenant.1 = .resting then tenant.2.cachedLen else tenant.2.deviceLen

/-- The private pages of a request: from the end of its matched prefix on. -/
def spanOf (ps : Nat) (cm : CacheManager) (tenant : Tenant) : List Nat :=
  cm.rowPages ps (rowOf tenant) (tenant.2.cacheHandle.cachedLen / ps) (divCeil (extent tenant) ps)

/-- A request's handle with the front of its row. -/
def entryOf (cm : CacheManager) (tenant : Tenant) : CacheHandle × List Nat :=
  (tenant.2.cacheHandle, cm.row (rowOf tenant) 0 tenant.2.cacheHandle.cachedLen)

/-- A request has a row, and its handle is on its own ids. -/
structure Tied (tenant : Tenant) : Prop where
  seated : tenant.2.tableIdx.isSome = true
  onIds : nodeOf tenant <+: tenant.2.inputIds.take (extent tenant)
  images : tenant.2.mmEmbeds = true → nodeOf tenant = []

/-- **The ledger of pages and rows.** -/
structure PageInv (ps numPages maxRunningReqs : Nat) (draining : Bool) (cm : CacheManager)
    (tm : TableManager) (ts : List Tenant) : Prop where
  paged : Paged ps numPages (ts.map nodeOf) (ts.map (entryOf cm)) (ts.flatMap (spanOf ps cm)) cm
  closed : draining = false → cm.lazyFree = none
  rows : (ts.map rowOf ++ tm.freeSlots).Perm (range maxRunningReqs)
  tied : ∀ tenant ∈ ts, Tied tenant

/-- Requests whose rows are the same hold the same. -/
theorem holdings_congr {cm next : CacheManager} {ts : List Tenant} (ps : Nat)
    (same : ∀ tenant ∈ ts, next.pageTable (rowOf tenant) = cm.pageTable (rowOf tenant)) :
    ts.map (entryOf next) = ts.map (entryOf cm) ∧
      ts.flatMap (spanOf ps next) = ts.flatMap (spanOf ps cm) := by
  refine ⟨map_congr_left fun tenant mem => ?_, flatMap_congr fun tenant mem => ?_⟩
  · unfold entryOf CacheManager.row
    rw [same tenant mem]
  · unfold spanOf CacheManager.rowPages
    rw [same tenant mem]

namespace PageInv

variable {ps numPages maxRunningReqs : Nat} {draining : Bool} {cm next : CacheManager}
  {tm tmAfter : TableManager} {ts : List Tenant} {req after : Req} {stage stageAfter : Stage}

theorem perm {other : List Tenant} (same : ts.Perm other)
    (holds : PageInv ps numPages maxRunningReqs draining cm tm ts) :
    PageInv ps numPages maxRunningReqs draining cm tm other where
  paged := holds.paged.weaken (same.map _)
    (fun _ mem => (same.map _).mem_iff.mpr mem) (same.flatMap_right _)
  closed := holds.closed
  rows := ((same.map _).symm.append_right _).trans holds.rows
  tied := fun tenant mem => holds.tied tenant (same.mem_iff.mpr mem)

/-- A call that leaves the pages, the rows and what a request holds alone. -/
theorem change (holds : PageInv ps numPages maxRunningReqs draining cm tm ((stage, req) :: ts))
    (books : next.books = cm.books := by rfl) (table : next.pageTable = cm.pageTable := by rfl)
    (free : tmAfter.freeSlots = tm.freeSlots := by rfl)
    (seat : (after.tableIdx, after.cacheHandle, after.mmEmbeds) =
      (req.tableIdx, req.cacheHandle, req.mmEmbeds) := by rfl)
    (ids : req.inputIds <+: after.inputIds := by exact prefix_refl _)
    (upto : extent (stageAfter, after) = extent (stage, req) := by rfl) :
    PageInv ps numPages maxRunningReqs draining next tmAfter ((stageAfter, after) :: ts) := by
  obtain ⟨paged, closed, rows, tied⟩ := holds
  simp only [Prod.mk.injEq] at seat
  obtain ⟨row, handle, images⟩ := seat
  have others := @holdings_congr cm next ((stage, req) :: ts) ps fun tenant _ => by rw [table]
  have entry : entryOf next (stageAfter, after) = entryOf next (stage, req) := by
    unfold entryOf rowOf
    rw [row, handle]
  have span : spanOf ps next (stageAfter, after) = spanOf ps next (stage, req) := by
    unfold spanOf rowOf
    rw [row, handle, upto]
  have node : nodeOf (stageAfter, after) = nodeOf (stage, req) := by
    unfold nodeOf
    rw [handle]
  refine ⟨?_, fun out => ?_, ?_, forall_mem_cons.mpr ⟨⟨?_, ?_, fun here => ?_⟩,
    fun tenant mem => tied tenant (mem_cons_of_mem _ mem)⟩⟩
  · rw [map_cons, map_cons, flatMap_cons, node, entry, span]
    rw [← others.1, ← others.2] at paged
    exact paged.frame books
  · exact (congrArg (fun books => books.2.2.1) books).trans (closed out)
  · rw [free, map_cons]
    unfold rowOf
    rw [row]
    exact rows
  · exact row ▸ (tied _ mem_cons_self).seated
  · rw [node, upto]
    exact (tied _ mem_cons_self).onIds.trans (ids.take _)
  · rw [node]
    exact (tied _ mem_cons_self).images (images ▸ here)

/-- **The part of a commit before the tail**: insertion and unlock. The pages found in the tree are
to be given back, the new ones are in the tree. -/
theorem commit_front (holds : PageInv ps numPages maxRunningReqs draining cm tm ((stage, req) :: ts))
    (rest : stage = .resting) (covered : req.cachedLen ≤ req.inputIds.length) :
    let row := req.tableIdx.getD 0
    let whole := alignDown req.cachedLen ps
    let inserted := cm.insertPrefix (req.inputIds.take req.cachedLen) (cm.row row 0 req.cachedLen)
    ∃ cache, inserted.1.unlock req.cacheHandle = .ok { cm with prefixCache := .radix cache } ∧
      inserted.2.2 = ⟨whole, req.inputIds.take whole, [], none⟩ ∧ inserted.2.1 ≤ whole ∧
      req.cacheHandle.cachedLen ≤ inserted.2.1 ∧
      Paged ps numPages (ts.map nodeOf) ((inserted.2.2,
          collectKv cache.tier.nodes inserted.2.2.node) :: ((stage, req) :: ts).map (entryOf cm))
        (stride ps (cm.row row req.cacheHandle.cachedLen inserted.2.1) ++
          (stride ps (cm.row row whole (divCeil req.cachedLen ps * ps)) ++
            ts.flatMap (spanOf ps cm))) { cm with prefixCache := .radix cache } ∧
      (collectKv cache.tier.nodes inserted.2.2.node).drop inserted.2.1 =
        cm.row row inserted.2.1 whole := by
  obtain ⟨paged, -, -, tied⟩ := holds
  obtain ⟨total, cache, kind, size, inv, all⟩ := id paged
  have onIds := (tied _ mem_cons_self).onIds
  unfold extent at onIds
  rw [if_pos rest] at onIds
  have idsSize : (req.inputIds.take req.cachedLen).length = req.cachedLen := by
    rw [length_take, min_eq_left covered]
  have rowSize : (cm.row (req.tableIdx.getD 0) 0 req.cachedLen).length = req.cachedLen := by
    unfold CacheManager.row
    rw [length_map, length_range, Nat.sub_zero]
  have grown := RadixRun.insertPrefix_grown inv (req.inputIds.take req.cachedLen)
    (cm.row (req.tableIdx.getD 0) 0 req.cachedLen) (by rw [idsSize, rowSize])
  have same : cm.insertPrefix (req.inputIds.take req.cachedLen)
      (cm.row (req.tableIdx.getD 0) 0 req.cachedLen) =
      ({ cm with prefixCache := .radix (cache.insertPrefix (req.inputIds.take req.cachedLen)
        (cm.row (req.tableIdx.getD 0) 0 req.cachedLen)).1 },
        (cache.insertPrefix (req.inputIds.take req.cachedLen)
          (cm.row (req.tableIdx.getD 0) 0 req.cachedLen)).2) := by
    unfold CacheManager.insertPrefix
    rw [kind]
  dsimp only
  rw [same]
  generalize cache.insertPrefix (req.inputIds.take req.cachedLen)
    (cm.row (req.tableIdx.getD 0) 0 req.cachedLen) = res at grown ⊢
  obtain ⟨after, found, handle⟩ := res
  obtain ⟨isHandle, foundPage, mid, longest, invAfter, pages, reads⟩ := grown
  rw [idsSize] at isHandle mid pages reads
  have wholeLow := alignDown_le req.cachedLen ps
  rw [CacheManager.slice_row wholeLow] at pages reads
  rw [take_take, min_eq_left wholeLow] at isHandle
  have wholeSize : (req.inputIds.take (alignDown req.cachedLen ps)).length =
      alignDown req.cachedLen ps := by
    rw [length_take, min_eq_left (wholeLow.trans covered)]
  rw [← RadixRun.handle_eq wholeSize] at isHandle
  have stored := (inv.handles _ (mem_cons_self : entryOf cm (stage, req) ∈ _)).2.1
  obtain ⟨-, oldLen, oldPage⟩ := paged.whole mem_cons_self
  have low : req.cacheHandle.cachedLen ≤ found := oldLen ▸ longest _ stored onIds
  have cut := @CacheManager.rowPages_cut cm ps (req.tableIdx.getD 0) inv.positive _ _ _ _ oldPage foundPage
    (dvd_alignDown req.cachedLen ps) low mid wholeLow
  have grownPaged : Paged ps numPages _ _ (stride ps (cm.row (req.tableIdx.getD 0)
      req.cacheHandle.cachedLen found) ++ (stride ps (cm.row (req.tableIdx.getD 0)
        (alignDown req.cachedLen ps) (divCeil req.cachedLen ps * ps)) ++
          ts.flatMap (spanOf ps cm))) _ := paged.retree kind invAfter ?_
  · obtain ⟨last, ran, done⟩ := grownPaged.unlock
    obtain ⟨_, held, isLast, _, invLast, _⟩ := id done
    obtain rfl := PrefixCache.radix.inj isLast
    have new := (invLast.handles _ mem_cons_self).2.2
    refine ⟨last, ran, isHandle, mid, low, ?_, (congrArg (drop found) new).trans reads⟩
    rw [new]
    exact done
  · have head : spanOf ps cm (stage, req) = cm.rowPages ps (req.tableIdx.getD 0)
        (req.cacheHandle.cachedLen / ps) (divCeil req.cachedLen ps) := by
      unfold spanOf extent rowOf
      rw [if_pos rest]
    rw [flatMap_cons, head, cut]
    refine (pages.append_right _).trans ?_
    rw [append_assoc, append_assoc, append_assoc]
    exact (perm_append_comm_assoc _ _ _).append_left _

/-- A request that ends leaves its row, and the pages of the others. -/
theorem leave (holds : PageInv ps numPages maxRunningReqs draining cm tm ((stage, req) :: ts))
    {entries : Entries} {tableIdx : Nat} (here : req.tableIdx = some tableIdx)
    (paged : Paged ps numPages (ts.map nodeOf) entries (ts.flatMap (spanOf ps cm)) next)
    (sub : ∀ entry ∈ ts.map (entryOf cm), entry ∈ entries)
    (table : next.pageTable = cm.pageTable) (closed : cm.lazyFree = none → next.lazyFree = none) :
    PageInv ps numPages maxRunningReqs draining next (tm.free tableIdx) ts where
  paged := by
    have others := @holdings_congr cm next ts ps fun tenant _ => by rw [table]
    rw [others.1, others.2]
    exact paged.weaken (.refl _) sub (.refl _)
  closed := fun out => closed (holds.closed out)
  rows := by
    have rows := holds.rows
    rw [map_cons, show rowOf (stage, req) = tableIdx by unfold rowOf; rw [here]; rfl] at rows
    unfold TableManager.free
    rw [← append_assoc]
    exact perm_append_comm.trans rows
  tied := fun tenant mem => holds.tied tenant (mem_cons_of_mem _ mem)

/-- A request that keeps its row holds what the ledger then says. -/
theorem stay (holds : PageInv ps numPages maxRunningReqs draining cm tm ((stage, req) :: ts))
    (entries : Entries) (row : after.tableIdx = req.tableIdx) (tied : Tied (stageAfter, after))
    (paged : Paged ps numPages (nodeOf (stageAfter, after) :: ts.map nodeOf) entries
      (spanOf ps next (stageAfter, after) ++ ts.flatMap (spanOf ps cm)) next)
    (own : entryOf next (stageAfter, after) ∈ entries)
    (sub : ∀ entry ∈ ts.map (entryOf cm), entry ∈ entries)
    (table : ∀ other ≠ rowOf (stage, req), next.pageTable other = cm.pageTable other)
    (closed : cm.lazyFree = none → next.lazyFree = none) :
    PageInv ps numPages maxRunningReqs draining next tm ((stageAfter, after) :: ts) where
  paged := by
    have nodup := holds.rows.nodup_iff.mpr nodup_range
    rw [map_cons, cons_append, nodup_cons, mem_append, not_or] at nodup
    have others := @holdings_congr cm next ts ps fun tenant mem =>
      table _ fun same => nodup.1.1 (same ▸ mem_map_of_mem mem)
    rw [map_cons, map_cons, flatMap_cons, others.1, others.2]
    exact paged.weaken (.refl _) (forall_mem_cons.mpr ⟨own, sub⟩) (.refl _)
  closed := fun out => closed (holds.closed out)
  rows := by
    have rows := holds.rows
    rw [map_cons] at rows ⊢
    unfold rowOf at rows ⊢
    rw [row]
    exact rows
  tied := forall_mem_cons.mpr
    ⟨tied, fun tenant mem => holds.tied tenant (mem_cons_of_mem _ mem)⟩

/-- A request that ends gives back its pages from a place on. -/
theorem leaveTail (holds : PageInv ps numPages maxRunningReqs draining cm tm ((stage, req) :: ts))
    (entries : Entries) {tableIdx start : Nat} (here : req.tableIdx = some tableIdx)
    (table : next.pageTable = cm.pageTable) (pageSize : next.pageSize = cm.pageSize)
    (closed : cm.lazyFree = none → next.lazyFree = none)
    (paged : Paged ps numPages (ts.map nodeOf) entries (stride ps (cm.row (req.tableIdx.getD 0) start
      (divCeil req.cachedLen ps * ps)) ++ ts.flatMap (spanOf ps cm)) next)
    (sub : ∀ entry ∈ ts.map (entryOf cm), entry ∈ entries) :
    PageInv ps numPages maxRunningReqs draining (next.giveBack (next.paddedTail req start))
      (tm.free tableIdx) ts := by
  obtain ⟨-, cache, -, size, -⟩ := id holds.paged
  have tail : next.paddedTail req start =
      cm.row (req.tableIdx.getD 0) start (divCeil req.cachedLen ps * ps) := by
    unfold CacheManager.paddedTail CacheManager.row
    rw [table, pageSize, size]
  have frame := CacheManager.giveBack_frame next (next.paddedTail req start)
  exact holds.leave here (paged.giveBack (by rw [tail])) sub (frame.1.trans table) fun open_ =>
    frame.2.2 (closed open_)

/-- A finishing request gives every page back that the tree does not take. -/
theorem finish (holds : PageInv ps numPages maxRunningReqs draining cm tm ((.resting, req) :: ts))
    {tableIdx : Nat} (here : req.tableIdx = some tableIdx)
    (covered : req.cachedLen ≤ req.inputIds.length) :
    Outcome (cm.cacheReq req true)
      (fun res => PageInv ps numPages maxRunningReqs draining res.1 (tm.free tableIdx) ts)
      fun _ => True := by
  have tied := holds.tied _ mem_cons_self
  obtain ⟨-, cache, -, -, inv, -⟩ := id holds.paged
  rw [holds.paged.cacheReq_plain]
  unfold CacheManager.cacheReqPlain
  dsimp only
  split
  · next images =>
    have root := tied.images images
    obtain ⟨last, unlocked, paged⟩ := Paged.unlock holds.paged
    have start : req.cacheHandle.cachedLen = 0 := by
      have old := (inv.handles _ (mem_cons_self : entryOf cm (.resting, req) ∈ _)).1
      exact (congrArg CacheHandle.cachedLen old).trans (congrArg length root)
    unfold CacheManager.cacheReqMultimodal
    refine Outcome.bind (Q := fun given => given =
      CacheManager.giveBack { cm with prefixCache := .radix last }
        (CacheManager.paddedTail { cm with prefixCache := .radix last } req
          req.cacheHandle.cachedLen)) ?_ ?_
    · rw [unlocked]
      exact rfl
    rintro - rfl
    refine Outcome.pure (holds.leaveTail (((.resting, req) :: ts).map (entryOf cm)) here
      rfl rfl id ?_ fun entry mem => mem_cons_of_mem _ mem)
    rw [flatMap_cons] at paged
    refine paged.weaken (.refl _) (fun _ mem => mem) (Perm.append_right _ (Perm.of_eq ?_))
    have row := @CacheManager.stride_row cm ps (req.tableIdx.getD 0) 0 inv.positive
      (divCeil req.cachedLen ps * ps)
    rw [Nat.zero_mul, divCeil_mul _ inv.positive] at row
    rw [start, row]
    unfold spanOf extent
    rw [if_pos rfl, start, Nat.zero_div]
    rfl
  · obtain ⟨last, unlocked, handle, mid, low, paged, -⟩ := holds.commit_front rfl covered
    generalize cm.insertPrefix (req.inputIds.take req.cachedLen)
      (cm.row (req.tableIdx.getD 0) 0 req.cachedLen) = inserted at unlocked handle mid low paged ⊢
    obtain ⟨grown, found, newHandle⟩ := inserted
    subst handle
    refine Outcome.bind (Q := fun given => given = { cm with prefixCache := .radix last }) ?_ ?_
    · exact Outcome.of_ok unlocked rfl
    rintro - rfl
    rw [CacheManager.slice_row (mid.trans (alignDown_le _ _))]
    have frame := CacheManager.giveBack_frame { cm with prefixCache := .radix last }
      (cm.row (req.tableIdx.getD 0) req.cacheHandle.cachedLen found)
    exact Outcome.pure (holds.leaveTail _ here frame.1 frame.2.1 frame.2.2
      (paged.giveBack (.refl _)) fun entry mem => mem_cons_of_mem _ (mem_cons_of_mem _ mem))

/-- After a commit the front of the row reads what the tree has for the new handle: the old prefix
is kept, the pages that were found are written, and the new ones are those of the row. -/
theorem row_of_commit {old found whole row : Nat} {kv : List Nat} {given : CacheManager}
    (size : kv.length = whole) (mid : found ≤ whole)
    (front : cm.row row 0 old <+: kv) (back : kv.drop found = cm.row row found whole)
    (table : given.pageTable = cm.pageTable)
    (written : next = if old < found then given.writeRow row old (slice kv old found) else given) :
    next.row row 0 whole = kv ∧ next.books = given.books ∧
      ∀ other position, (other = row → whole ≤ position) →
        next.pageTable other position = cm.pageTable other position := by
  have length : (slice kv old found).length = found - old := by
    rw [slice_length, size, min_eq_left mid]
  have outside : ∀ other position, (other = row → position < old ∨ found ≤ position) →
      next.pageTable other position = cm.pageTable other position := by
    intro other position apart
    rw [written, ← table]
    split
    · refine CacheManager.writeRow_pageTable fun same => ?_
      rw [length]
      exact (apart same).imp_right fun above => by omega
    · rfl
  have cell : ∀ position < whole, kv[position]? = some (next.pageTable row position) := by
    intro position below
    rcases Nat.lt_or_ge position old with first | second
    · obtain ⟨more, rfl⟩ := front
      have lt : 0 + position < old := by omega
      have here := @CacheManager.row_getElem? cm row 0 old position lt
      rw [Nat.zero_add] at here
      rw [outside row position fun _ => .inl first, getElem?_append_left, here]
      exact (List.getElem?_eq_some_iff.mp here).1
    · rcases Nat.lt_or_ge position found with middle | last
      · rw [written, if_pos (second.trans_lt middle)]
        unfold CacheManager.writeRow
        dsimp only
        rw [if_pos ⟨rfl, second⟩]
        unfold slice
        rw [getElem?_drop, Nat.add_sub_cancel' second, getElem?_take_of_lt middle,
          getElem?_eq_getElem (size ▸ below)]
        rfl
      · obtain ⟨k, rfl⟩ := Nat.exists_eq_add_of_le last
        rw [outside row _ fun _ => .inr last, ← getElem?_drop, back,
          CacheManager.row_getElem? below]
  refine ⟨?_, ?_, fun other position apart => outside other position fun same =>
    .inr (mid.trans (apart same))⟩
  · refine ext_getElem? fun position => ?_
    rcases Nat.lt_or_ge position whole with below | above
    · have here := @CacheManager.row_getElem? next row 0 whole position (by omega)
      rw [here, cell position below, Nat.zero_add]
    · have short : (next.row row 0 whole).length = whole := by
        unfold CacheManager.row
        rw [length_map, length_range, Nat.sub_zero]
      rw [getElem?_eq_none (short.le.trans above), getElem?_eq_none (size.le.trans above)]
  · rw [written]
    split <;> rfl

/-- The end of an unfinished commit: the row is pointed at the tree and the new handle is locked. -/
theorem relock (holds : PageInv ps numPages maxRunningReqs draining cm tm ((.resting, req) :: ts))
    (text : req.mmEmbeds ≠ true) (covered : req.cachedLen ≤ req.inputIds.length)
    {given written : CacheManager} {entries : Entries} {handle : CacheHandle} {kv : List Nat}
    {found : Nat} (isHandle : handle = ⟨alignDown req.cachedLen ps,
      req.inputIds.take (alignDown req.cachedLen ps), [], none⟩)
    (mid : found ≤ alignDown req.cachedLen ps) (low : req.cacheHandle.cachedLen ≤ found)
    (paged : Paged ps numPages (ts.map nodeOf) ((handle, kv) :: entryOf cm (.resting, req) :: entries)
      (stride ps (cm.row (req.tableIdx.getD 0) (alignDown req.cachedLen ps)
        (divCeil req.cachedLen ps * ps)) ++ ts.flatMap (spanOf ps cm)) given)
    (sub : ∀ entry ∈ ts.map (entryOf cm), entry ∈ entries)
    (back : kv.drop found = cm.row (req.tableIdx.getD 0) found (alignDown req.cachedLen ps))
    (table : given.pageTable = cm.pageTable) (closed : cm.lazyFree = none → given.lazyFree = none)
    (isWritten : written = if req.cacheHandle.cachedLen < found then
      given.writeRow (req.tableIdx.getD 0) req.cacheHandle.cachedLen
        (slice kv req.cacheHandle.cachedLen found) else given) :
    PageInv ps numPages maxRunningReqs draining (written.lock handle).1 tm
      ((.resting, { req with cacheHandle := (written.lock handle).2 }) :: ts) := by
  obtain ⟨-, cache, -, -, inv, -⟩ := id paged
  have tied := holds.tied _ mem_cons_self
  have wholeLow := alignDown_le req.cachedLen ps
  obtain ⟨-, storedNew, readsNew⟩ := inv.handles _ mem_cons_self
  obtain ⟨isOld, storedOld, readsOld⟩ := inv.handles _ (mem_cons_of_mem _ mem_cons_self)
  dsimp only at storedNew readsNew readsOld
  have size : kv.length = alignDown req.cachedLen ps := by
    rw [← readsNew, collectKv_length inv.tier.wf inv.full storedNew, isHandle]
    exact (length_take_of_le (wholeLow.trans covered))
  have front : cm.row (req.tableIdx.getD 0) 0 req.cacheHandle.cachedLen <+: kv := by
    have below : req.cacheHandle.node <+: handle.node := by
      rw [isHandle]
      refine prefix_take_iff.mpr ⟨tied.onIds.trans ( take_prefix _ _), ?_⟩
      exact (congrArg CacheHandle.cachedLen isOld).symm.le.trans (low.trans mid)
    have longer := collectKv_prefix inv.tier.wf inv.full storedNew storedOld below
    rwa [readsNew, readsOld] at longer
  obtain ⟨row, books, others⟩ := row_of_commit size mid front back table isWritten
  obtain ⟨after, locked, done⟩ := (paged.frame books).lock (mem_map_of_mem mem_cons_self)
  rw [locked]
  have kept : spanOf ps { written with prefixCache := .radix after }
      (.resting, { req with cacheHandle := handle }) = stride ps (cm.row (req.tableIdx.getD 0)
        (alignDown req.cachedLen ps) (divCeil req.cachedLen ps * ps)) := by
    have start : alignDown req.cachedLen ps = req.cachedLen / ps * ps := rfl
    rw [start, CacheManager.stride_row inv.positive, divCeil_mul _ inv.positive]
    unfold spanOf extent rowOf CacheManager.rowPages
    rw [if_pos rfl, isHandle, start]
    rw [Nat.mul_div_cancel _ inv.positive]
    refine map_congr_left fun k _ => others _ _ fun _ => ?_
    rw [start]
    exact Nat.mul_le_mul_right ps (Nat.le_add_right _ k)
  refine holds.stay ((handle, kv) :: entryOf cm (.resting, req) :: entries) rfl
    ⟨tied.seated, ?_, fun images => absurd images text⟩ ?_ ?_ ?_ ?_ ?_
  · unfold nodeOf extent
    rw [if_pos rfl, isHandle]
    exact take_prefix_take_left wholeLow
  · rw [kept]
    exact done
  · refine mem_cons.mpr (.inl ?_)
    rw [isHandle]
    exact congrArg _ row
  · exact fun entry mem => mem_cons_of_mem _ (mem_cons_of_mem _ (sub entry mem))
  · exact fun other apart => funext fun position => others other position fun same => absurd same apart
  · intro open_
    exact (congrArg (fun books => books.2.2.1) books).trans (closed open_)

/-- **An unfinished commit**: the request's whole pages are the tree's and locked, its row reads them
there, and only its tail stays private. -/
theorem commit (holds : PageInv ps numPages maxRunningReqs draining cm tm ((.resting, req) :: ts))
    (covered : req.cachedLen ≤ req.inputIds.length) :
    Outcome (cm.cacheReq req false)
      (fun res => PageInv ps numPages maxRunningReqs draining res.1 tm
        ((.resting, res.2) :: ts))
      fun _ => True := by
  have tied := holds.tied _ mem_cons_self
  rw [holds.paged.cacheReq_plain]
  unfold CacheManager.cacheReqPlain
  dsimp only
  split
  · next images =>
    have root := tied.images images
    obtain ⟨last, unlocked, paged⟩ := Paged.unlock holds.paged
    unfold CacheManager.cacheReqMultimodal
    refine Outcome.bind (Q := fun given => given = { cm with prefixCache := .radix last }) ?_ ?_
    · rw [unlocked]
      exact rfl
    rintro - rfl
    rw [flatMap_cons] at paged
    have locked := paged.lockRoot req.cacheHandle
      (mem_map_of_mem (mem_cons_self : entryOf cm (.resting, req) ∈ _)) root
    rw [← root] at locked
    exact Outcome.pure (holds.stay _ rfl tied locked mem_cons_self
      (fun entry mem => mem_cons_of_mem _ mem) (fun _ _ => rfl) id)
  · next text =>
    obtain ⟨last, unlocked, handle, mid, low, paged, back⟩ := holds.commit_front rfl covered
    generalize cm.insertPrefix (req.inputIds.take req.cachedLen)
      (cm.row (req.tableIdx.getD 0) 0 req.cachedLen) = inserted
      at unlocked handle mid low paged back ⊢
    obtain ⟨grown, found, newHandle⟩ := inserted
    subst handle
    refine Outcome.bind (Q := fun given => given = { cm with prefixCache := .radix last }) ?_ ?_
    · exact Outcome.of_ok unlocked rfl
    rintro - rfl
    rw [CacheManager.slice_row (mid.trans (alignDown_le _ _))]
    have given := paged.giveBack (.refl _)
    have frame := CacheManager.giveBack_frame { cm with prefixCache := .radix last }
      (cm.row (req.tableIdx.getD 0) req.cacheHandle.cachedLen found)
    refine Outcome.pure (holds.relock text covered rfl mid low given
      (fun entry mem => mem) back frame.1 frame.2.2 ?_)
    rw [← given.reads mem_cons_self]
    rfl

end PageInv

/-! ### Allocation -/

section Allocation

variable {ps : Nat}

/-- The row of a request and the pages of its extend. -/
def extendPages (ps : Nat) (cm : CacheManager) (req : Req) : List Nat :=
  cm.rowPages ps (req.tableIdx.getD 0) (divCeil req.cachedLen ps) (divCeil req.deviceLen ps)

/-- `allocation_info` by the page size alone. -/
def allotments (ps : Nat) (reqs : List Req) : List (Nat × Nat × Nat) :=
  reqs.filterMap fun req =>
    if divCeil req.cachedLen ps < divCeil req.deviceLen ps then
      some (req.tableIdx.getD 0, divCeil req.cachedLen ps, divCeil req.deviceLen ps)
    else none

/-- **`_write_page_table` deals the allocated pages out**: each request gets its pages behind those
it had, and nothing else of the page table changes. -/
theorem writePageTable_spec (pos : 0 < ps) : ∀ (reqs : List Req) (pages : List Nat)
    (cm : CacheManager), cm.pageSize = ps → (reqs.map fun req => req.tableIdx.getD 0).Nodup →
    pages.length = ((allotments ps reqs).map fun entry => entry.2.2 - entry.2.1).sum →
    let next := cm.writePageTable (pageToToken ps pages) (allotments ps reqs)
    next.books = cm.books ∧ (∀ row position, (∀ req ∈ reqs, row = req.tableIdx.getD 0 →
        position < divCeil req.cachedLen ps * ps) →
        next.pageTable row position = cm.pageTable row position) ∧
      reqs.flatMap (extendPages ps next) = pages := by
  intro reqs
  induction reqs with
  | nil =>
    intro pages cm _ _ size
    exact ⟨rfl, fun _ _ _ => rfl, (length_eq_zero_iff.mp size).symm⟩
  | cons req reqs ih =>
    intro pages cm same nodup size
    rw [map_cons, nodup_cons] at nodup
    have apart : ∀ other ∈ reqs, req.tableIdx.getD 0 ≠ other.tableIdx.getD 0 := fun other mem eq =>
      nodup.1 (eq ▸ mem_map_of_mem (f := fun req : Req => req.tableIdx.getD 0) mem)
    by_cases more : divCeil req.cachedLen ps < divCeil req.deviceLen ps
    · have info : allotments ps (req :: reqs) = (req.tableIdx.getD 0, divCeil req.cachedLen ps,
          divCeil req.deviceLen ps) :: allotments ps reqs :=
        filterMap_cons_some (if_pos more)
      rw [info, map_cons, sum_cons] at size
      dsimp only at size
      obtain ⟨front, back, rfl, frontSize⟩ : ∃ front back, front ++ back = pages ∧
          front.length = divCeil req.deviceLen ps - divCeil req.cachedLen ps :=
        ⟨_, _, take_append_drop _ pages, length_take_of_le (by omega)⟩
      rw [length_append, frontSize] at size
      have tokens : pageToToken ps (front ++ back) = pageToToken ps front ++ pageToToken ps back :=
        flatMap_append
      have cut : (pageToToken ps front).length =
          (divCeil req.deviceLen ps - divCeil req.cachedLen ps) * ps := by
        rw [pageToToken_length, frontSize]
      rw [info, tokens, CacheManager.writePageTable]
      rw [same, take_left' cut, drop_left' cut]
      obtain ⟨books, outside, dealt⟩ := ih back
        (cm.writeRow (req.tableIdx.getD 0) (divCeil req.cachedLen ps * ps) (pageToToken ps front))
        same nodup.2 (Nat.add_left_cancel size)
      refine ⟨books, fun row position cond => ?_, ?_⟩
      · rw [outside row position fun other mem => cond other (mem_cons_of_mem _ mem)]
        exact CacheManager.writeRow_pageTable fun here => .inl (cond req mem_cons_self here)
      · rw [flatMap_cons, dealt]
        refine congrArg (· ++ back) ?_
        conv_rhs => rw [← stride_pageToToken pos front, stride_eq pos, cut, divCeil_mul _ pos]
        refine map_congr_left fun k lt => ?_
        rw [outside _ _ fun other mem here => absurd here (apart other mem)]
        unfold CacheManager.writeRow
        dsimp only
        have low := Nat.mul_le_mul_right ps (Nat.le_add_right (divCeil req.cachedLen ps) k)
        have below : k * ps < (pageToToken ps front).length := by
          rw [cut]
          exact Nat.mul_lt_mul_of_pos_right (mem_range.mp lt) pos
        rw [if_pos ⟨rfl, low⟩, Nat.add_mul, Nat.add_sub_cancel_left, getElem?_eq_getElem below]
        rfl
    · have info : allotments ps (req :: reqs) = allotments ps reqs :=
        filterMap_cons_none (if_neg more)
      rw [info] at size ⊢
      obtain ⟨books, outside, dealt⟩ := ih pages cm same nodup.2 size
      refine ⟨books, fun row position cond => outside row position fun other mem =>
        cond other (mem_cons_of_mem _ mem), ?_⟩
      rw [flatMap_cons, dealt]
      unfold extendPages CacheManager.rowPages
      rw [Nat.sub_eq_zero_of_le (not_lt.mp more)]
      rfl

/-- The window slots of an allocation are no business of the pages. -/
theorem allocSwa_frame {cm : CacheManager} {cache : RadixPrefixCache}
    (kind : cm.prefixCache = .radix cache) (allocated : List Nat) :
    Outcome (cm.allocSwa allocated) (fun next => ∃ pool, next = { cm with swaPool := pool })
      fun _ => True := by
  have unchanged : cm.ensureSwaSlots allocated.length = cm := by
    unfold CacheManager.ensureSwaSlots
    rw [kind]
  unfold CacheManager.allocSwa
  dsimp only
  rw [unchanged]
  split
  · split
    · exact ⟨cm.swaPool, rfl⟩
    · exact (Outcome.of_eq (Q := fun _ => True) (E := fun _ => True) (fun _ _ => trivial)
        fun _ _ => trivial).bind fun pool _ => Outcome.pure ⟨some pool, rfl⟩
  · exact ⟨cm.swaPool, rfl⟩

/-- What the ledger says once the pages of the extends are dealt out. -/
theorem PageInv.deal {numPages maxRunningReqs : Nat} {cm next : CacheManager} {tm : TableManager}
    {reqs : List Req} {ts : List Tenant}
    (holds : PageInv ps numPages maxRunningReqs false cm tm
      (reqs.map (Prod.mk Stage.resting) ++ ts))
    (pages : List Nat) (extends_ : ∀ req ∈ reqs, req.cachedLen < req.deviceLen)
    (paged : Paged ps numPages ((reqs.map (Prod.mk Stage.resting) ++ ts).map nodeOf)
      ((reqs.map (Prod.mk Stage.resting) ++ ts).map (entryOf cm))
      (pages ++ (reqs.map (Prod.mk Stage.resting) ++ ts).flatMap (spanOf ps cm)) next)
    (closed : next.lazyFree = none)
    (outside : ∀ row position, (∀ req ∈ reqs, row = req.tableIdx.getD 0 →
      position < divCeil req.cachedLen ps * ps) →
      next.pageTable row position = cm.pageTable row position)
    (dealt : reqs.flatMap (extendPages ps next) = pages) :
    PageInv ps numPages maxRunningReqs false next tm
      (reqs.map (Prod.mk Stage.allocated) ++ ts) := by
  obtain ⟨-, cache, -, -, inv, -⟩ := id holds.paged
  have nodup := holds.rows.nodup_iff.mpr nodup_range
  rw [map_append, map_map, append_assoc, nodup_append] at nodup
  obtain ⟨own, -, apart⟩ := nodup
  have mem : ∀ req ∈ reqs, (Stage.resting, req) ∈ reqs.map (Prod.mk Stage.resting) ++ ts :=
    fun req lt => mem_append_left _ (mem_map_of_mem lt)
  have low : ∀ req ∈ reqs, req.cacheHandle.cachedLen ≤ req.cachedLen := by
    intro req lt
    rw [(holds.paged.whole (mem_map_of_mem (f := entryOf cm) (mem req lt))).2.1]
    exact (holds.tied _ (mem req lt)).onIds.length_le.trans (length_take_le _ _)
  have front : ∀ req ∈ reqs, ∀ position < divCeil req.cachedLen ps * ps,
      next.pageTable (req.tableIdx.getD 0) position = cm.pageTable (req.tableIdx.getD 0) position :=
    fun req lt position below => outside _ _ fun other also same =>
      inj_on_of_nodup_map own lt also same ▸ below
  have others := @holdings_congr cm next ts ps fun tenant lt => funext fun position =>
    outside _ _ fun req also same => absurd same.symm (apart _ (mem_map_of_mem also) _
      (mem_append_left _ (mem_map_of_mem lt)))
  have nodes : (reqs.map (Prod.mk Stage.allocated) ++ ts).map nodeOf =
      (reqs.map (Prod.mk Stage.resting) ++ ts).map nodeOf := by
    rw [map_append, map_append, map_map, map_map]
    rfl
  have entries : (reqs.map (Prod.mk Stage.allocated) ++ ts).map (entryOf next) =
      (reqs.map (Prod.mk Stage.resting) ++ ts).map (entryOf cm) := by
    rw [map_append, map_append, map_map, map_map, others.1]
    refine congrArg (· ++ _) (map_congr_left fun req lt => congrArg (Prod.mk _) ?_)
    refine map_congr_left fun k below => front req lt _ ?_
    have := le_divCeil_mul req.cachedLen inv.positive
    have := low req lt
    have := mem_range.mp below
    dsimp only at this
    omega
  have span : ∀ req ∈ reqs, spanOf ps next (.allocated, req) =
      spanOf ps cm (.resting, req) ++ extendPages ps next req := by
    intro req lt
    have early : req.cacheHandle.cachedLen / ps ≤ divCeil req.cachedLen ps :=
      (Nat.div_le_div_right (low req lt)).trans
        (Nat.div_le_div_right (Nat.le_sub_one_of_lt (Nat.lt_add_of_pos_right inv.positive)))
    have later : divCeil req.cachedLen ps ≤ divCeil req.deviceLen ps := by
      have := extends_ req lt
      exact Nat.div_le_div_right (by omega)
    refine (CacheManager.rowPages_append early later).symm.trans (congrArg (· ++ _) ?_)
    refine map_congr_left fun k below => front req lt _ ?_
    refine Nat.mul_lt_mul_of_pos_right ?_ inv.positive
    have := mem_range.mp below
    omega
  refine ⟨?_, fun _ => closed, ?_, fun tenant lt => ?_⟩
  · rw [nodes, entries]
    refine paged.weaken (.refl _) (fun _ same => same) ?_
    rw [flatMap_append, flatMap_append, others.2, flatMap_map, flatMap_map, flatMap_congr span,
      ← append_assoc, ← dealt]
    exact (perm_append_comm.trans (flatMap_append_perm _ _ _)).append_right _
  · have rows := holds.rows
    rw [map_append, map_map] at rows ⊢
    exact rows
  · rcases mem_append.mp lt with new | old
    · obtain ⟨req, inReqs, rfl⟩ := mem_map.mp new
      have tied := holds.tied _ (mem req inReqs)
      exact ⟨tied.seated, tied.onIds.trans (take_prefix_take_left (extends_ req inReqs).le),
        tied.images⟩
    · exact holds.tied tenant (mem_append_right _ old)

/-- **An allocation extends the private spans.** -/
theorem PageInv.allocate {numPages maxRunningReqs : Nat} {cm : CacheManager} {tm : TableManager}
    {reqs : List Req} {ts : List Tenant} (extends_ : ∀ req ∈ reqs, req.cachedLen < req.deviceLen)
    (holds : PageInv ps numPages maxRunningReqs false cm tm
      (reqs.map (Prod.mk Stage.resting) ++ ts)) :
    Outcome (cm.allocatePaged reqs)
      (fun next => PageInv ps numPages maxRunningReqs false next tm
        (reqs.map (Prod.mk Stage.allocated) ++ ts))
      fun _ => True := by
  obtain ⟨-, cache, kind, rfl, inv, -⟩ := id holds.paged
  have nodup := (nodup_append.mp (holds.rows.nodup_iff.mpr nodup_range)).1
  rw [map_append, map_map, nodup_append] at nodup
  have info : cm.allocationInfo reqs = allotments cm.pageSize reqs := rfl
  unfold CacheManager.allocatePaged
  dsimp only
  rw [info]
  split
  · refine (holds.paged.allocate (fun entry mem => ?_) _).bind ?_
    · obtain ⟨tenant, lt, rfl⟩ := mem_map.mp mem
      exact mem_map_of_mem (f := nodeOf) lt
    rintro ⟨mid, pages⟩ ⟨after, free, isMid, count, paged⟩
    subst isMid
    refine (allocSwa_frame rfl _).bind ?_
    rintro - ⟨pool, rfl⟩
    obtain ⟨books, outside, given⟩ := writePageTable_spec inv.positive reqs pages
      { cm with prefixCache := .radix after, freeSlots := free, swaPool := pool } rfl nodup.1 count
    exact Outcome.pure (holds.deal _ extends_ (paged.frame books)
      ((congrArg (fun books => books.2.2.1) books).trans (holds.closed rfl)) outside given)
  · next nothing =>
    refine holds.deal [] extends_ holds.paged (holds.closed rfl) (fun _ _ _ => rfl)
      (flatMap_eq_nil_iff.mpr fun req mem => ?_)
    unfold extendPages CacheManager.rowPages
    rw [Nat.sub_eq_zero_of_le, range_zero, map_nil]
    by_contra more
    have lt : (req.tableIdx.getD 0, divCeil req.cachedLen cm.pageSize,
        divCeil req.deviceLen cm.pageSize) ∈
        allotments cm.pageSize reqs := mem_filterMap.mpr ⟨req, mem, if_pos (not_le.mp more)⟩
    have counted := single_le_sum (fun _ _ => Nat.zero_le _) _
      (mem_map_of_mem (f := fun entry : Nat × Nat × Nat => entry.2.2 - entry.2.1) lt)
    dsimp only at counted
    omega

end Allocation

/-! ### Admission -/

section Admission

variable {ps numPages maxRunningReqs : Nat} {cm : CacheManager} {tm : TableManager}
  {ts : List Tenant} {adder : PrefillAdder} {pending : PendingReq} {handle : CacheHandle}
  {locks : List (List Token)}

/-- A match for a pending request beside the requests that hold pages, with the locks on it. -/
structure Found (ps numPages maxRunningReqs : Nat) (pending : PendingReq) (ts : List Tenant)
    (tm : TableManager) (locks : List (List Token)) (cm : CacheManager) (handle : CacheHandle) :
    Prop where
  paged : Paged ps numPages (locks ++ ts.map nodeOf)
    ((handle, cm.getMatchedIndices handle) :: ts.map (entryOf cm)) (ts.flatMap (spanOf ps cm)) cm
  closed : cm.lazyFree = none
  rows : (ts.map rowOf ++ tm.freeSlots).Perm (range maxRunningReqs)
  tied : ∀ tenant ∈ ts, Tied tenant
  onIds : handle.node <+: pending.inputIds
  images : pending.mmEmbeds = true → handle.node = []

/-- What holds once a request has its row: whatever it is to compute, its pages are those of its
match. -/
def Entered (ps numPages maxRunningReqs : Nat) (pending : PendingReq) (ts : List Tenant)
    (adder : PrefillAdder) (resource : Resource) : Prop :=
  ∀ (req : Req), req.cacheHandle = resource.cacheHandle → req.tableIdx = some resource.tableIdx →
    req.mmEmbeds = pending.mmEmbeds → req.cachedLen = resource.cacheHandle.cachedLen →
    pending.inputIds.take req.cachedLen <+: req.inputIds.take req.cachedLen →
    PageInv ps numPages maxRunningReqs false adder.cacheManager adder.tableManager
      ((.resting, req) :: ts)

theorem Found.leave (found : Found ps numPages maxRunningReqs pending ts tm [] cm handle) :
    PageInv ps numPages maxRunningReqs false cm tm ts where
  paged := found.paged.weaken (.refl _) (fun _ => mem_cons_of_mem _) (.refl _)
  closed := fun _ => found.closed
  rows := found.rows
  tied := found.tied

theorem Found.lock (found : Found ps numPages maxRunningReqs pending ts tm [] cm handle) :
    (cm.lock handle).2 = handle ∧
      Found ps numPages maxRunningReqs pending ts tm [handle.node] (cm.lock handle).1 handle := by
  obtain ⟨cache, locked, paged⟩ := found.paged.lock (mem_map_of_mem mem_cons_self)
  rw [locked]
  refine ⟨rfl, ?_, found.closed, found.rows, found.tied, found.onIds, found.images⟩
  rw [paged.reads mem_cons_self]
  exact paged

theorem Found.unlock
    (found : Found ps numPages maxRunningReqs pending ts tm [handle.node] cm handle) :
    Outcome (cm.unlock handle)
      (fun next => PageInv ps numPages maxRunningReqs false next tm ts) fun _ => True := by
  obtain ⟨cache, unlocked, paged⟩ := Paged.unlock found.paged
  exact Outcome.of_ok unlocked ⟨paged.weaken (.refl _) (fun _ => mem_cons_of_mem _) (.refl _),
    fun _ => found.closed, found.rows, found.tied⟩

theorem PageInv.matchReq (holds : PageInv ps numPages maxRunningReqs false cm tm ts)
    (pending : PendingReq) :
    Outcome (cm.matchReq pending) (fun res =>
        Found ps numPages maxRunningReqs pending ts tm [] res.1 res.2.cudaHandle)
      fun _ => True := by
  refine (holds.paged.matchReq pending).imp ?_
  rintro ⟨next, res⟩ ⟨cache, same, onIds, images, paged⟩
  subst same
  exact ⟨paged, holds.closed rfl, holds.rows, holds.tied, onIds, images⟩

/-- A match that is all a request has computed is all it has: no private page. -/
theorem spanOf_match (pos : 0 < ps) (cm : CacheManager) {req : Req}
    (whole : ps ∣ req.cacheHandle.cachedLen) (all : req.cachedLen = req.cacheHandle.cachedLen) :
    spanOf ps cm (.resting, req) = [] := by
  obtain ⟨pages, isPages⟩ := whole
  unfold spanOf extent CacheManager.rowPages
  rw [if_pos rfl]
  rw [all, isPages, Nat.mul_div_cancel_left _ pos, Nat.mul_comm, divCeil_mul _ pos, Nat.sub_self]
  rfl

/-- **The row of a new request** is one that was free, and reads its match. -/
theorem seat_pages (adder : PrefillAdder)
    (found : Found ps numPages maxRunningReqs pending ts adder.tableManager [handle.node]
      adder.cacheManager handle) (row : adder.tableManager.freeSlots ≠ [])
    (mambaValue : Option Nat) :
    Outcome (adder.seat pending handle mambaValue)
      (fun res => ∃ resource, res.2 = some resource ∧
        Entered ps numPages maxRunningReqs pending ts res.1 resource)
      fun _ => True := by
  obtain ⟨-, cache, kind, -, inv, -⟩ := id found.paged
  obtain ⟨-, len, whole⟩ := found.paged.whole mem_cons_self
  obtain ⟨-, stored, reads⟩ := inv.handles _ mem_cons_self
  have size := collectKv_length inv.tier.wf inv.full stored
  rw [reads, ← len] at size
  unfold PrefillAdder.seat TableManager.allocate
  have last := getLast?_eq_some_getLast row
  have rows := found.rows
  rw [← dropLast_append_getLast row] at rows
  rw [last]
  generalize adder.tableManager.freeSlots.getLast row = tableIdx at last rows ⊢
  generalize adder.tableManager.freeSlots.dropLast = others at rows ⊢
  refine Outcome.bind (Q := fun res => res = (TableManager.mk others
    adder.tableManager.tokenPool, tableIdx)) (show _ = _ from rfl) ?_
  rintro - rfl
  dsimp only
  rw [size, Nat.sub_self]
  have written : ∃ (next : CacheManager) (tmNext : TableManager), (if 0 < handle.cachedLen then
        (adder.cacheManager.writeRow tableIdx 0 (adder.cacheManager.getMatchedIndices handle),
          ({ freeSlots := others, tokenPool := adder.tableManager.tokenPool } :
            TableManager).writeTokens tableIdx 0 (pending.inputIds.take handle.cachedLen))
      else (adder.cacheManager, { freeSlots := others, tokenPool := adder.tableManager.tokenPool }))
        = (next, tmNext) ∧ next.books = adder.cacheManager.books ∧ tmNext.freeSlots = others ∧
      (∀ other ≠ tableIdx, next.pageTable other = adder.cacheManager.pageTable other) ∧
      next.row tableIdx 0 handle.cachedLen = adder.cacheManager.getMatchedIndices handle := by
    split
    · refine ⟨_, _, rfl, rfl, rfl, fun other apart => funext fun position =>
        CacheManager.writeRow_pageTable fun here => absurd here apart, ?_⟩
      rw [← size, CacheManager.row_writeRow]
    · next empty =>
      have none_ := Nat.eq_zero_of_not_pos empty
      rw [none_] at size ⊢
      exact ⟨_, _, rfl, rfl, rfl, fun _ _ => rfl, (length_eq_zero_iff.mp size).symm⟩
  obtain ⟨next, tmNext, same, books, free, apart, reading⟩ := written
  rw [same]
  have plain : next.isHybrid = false := by
    have tree : next.prefixCache = _ := congrArg (fun books => books.2.2.2.1) books
    unfold CacheManager.isHybrid
    rw [tree]
    dsimp only [CacheManager.books]
    rw [kind]
  rw [plain]
  refine Outcome.pure ⟨_, rfl, fun req sameHandle isRow images all ids => ?_⟩
  have notHere : ∀ tenant ∈ ts, rowOf tenant ≠ tableIdx := by
    intro tenant mem here
    have nodup := rows.nodup_iff.mpr nodup_range
    rw [nodup_append] at nodup
    exact nodup.2.2 _ (mem_map_of_mem mem) _ (by simp) here
  have kept := @holdings_congr adder.cacheManager next ts ps fun tenant mem =>
    apart _ (notHere tenant mem)
  refine ⟨?_, fun _ => (congrArg (fun books => books.2.2.1) books).trans found.closed, ?_,
    forall_mem_cons.mpr ⟨⟨?_, ?_, fun here => ?_⟩, found.tied⟩⟩
  · rw [map_cons, map_cons, flatMap_cons, kept.1, kept.2,
      spanOf_match inv.positive next (sameHandle ▸ whole) (by rw [all, sameHandle]), nil_append]
    unfold nodeOf entryOf rowOf
    rw [sameHandle, isRow, Option.getD_some, reading]
    exact found.paged.frame books
  · rw [free, map_cons]
    unfold rowOf
    rw [isRow]
    refine Perm.trans ?_ rows
    rw [← append_assoc]
    exact @perm_append_comm _ [tableIdx] _
  · rw [isRow]
    rfl
  · unfold nodeOf extent
    rw [if_pos rfl, sameHandle]
    refine IsPrefix.trans ?_ ids
    rw [all, len]
    exact prefix_take_iff.mpr ⟨found.onIds, le_rfl⟩
  · unfold nodeOf
    rw [sameHandle]
    exact found.images (images ▸ here)

theorem undo_pages {resource : Resource}
    (entered : Entered ps numPages maxRunningReqs pending ts adder resource) :
    Outcome (adder.undo resource)
      (fun next => PageInv ps numPages maxRunningReqs false next.cacheManager next.tableManager ts)
      fun _ => True := by
  obtain ⟨req, handle, row, all, holds⟩ : ∃ req : Req, req.cacheHandle = resource.cacheHandle ∧
      req.tableIdx = some resource.tableIdx ∧ req.cachedLen = resource.cacheHandle.cachedLen ∧
      PageInv ps numPages maxRunningReqs false adder.cacheManager adder.tableManager
        ((.resting, req) :: ts) :=
    ⟨{ Req.unused with
        inputIds := pending.inputIds
        tableIdx := some resource.tableIdx
        cachedLen := resource.cacheHandle.cachedLen
        cacheHandle := resource.cacheHandle
        mmEmbeds := pending.mmEmbeds }, rfl, rfl, rfl,
      entered _ rfl rfl rfl rfl (prefix_refl _)⟩
  obtain ⟨pos, -, whole⟩ := holds.paged.whole mem_cons_self
  obtain ⟨after, unlocked, paged⟩ := Paged.unlock holds.paged
  rw [flatMap_cons, spanOf_match pos _ whole (by rw [all, handle]), nil_append] at paged
  refine Outcome.bind (Q := fun next => next = { adder.cacheManager with
    prefixCache := .radix after }) (Outcome.of_ok (handle ▸ unlocked) rfl) ?_
  rintro - rfl
  have left := holds.leave row paged (fun _ => mem_cons_of_mem _) rfl id
  refine Outcome.pure ?_
  split
  · exact ⟨left.paged.frame rfl, left.closed, left.rows, left.tied⟩
  · exact left

theorem admit_pages
    (holds : PageInv ps numPages maxRunningReqs false adder.cacheManager adder.tableManager ts) :
    Outcome (adder.tryAddOne pending none)
      (Scheduler.Placed (PageInv ps numPages maxRunningReqs) [] ts) fun _ => True := by
  refine PrefillAdder.tryAddOne_fresh (Entered ps numPages maxRunningReqs pending ts)
    (fun _ _ => trivial) ?_ holds undo_pages ?_
  · refine (PrefillAdder.tryAllocateOne_rule
      (fun cm => PageInv ps numPages maxRunningReqs false cm adder.tableManager ts)
      (fun cm handle _ =>
        Found ps numPages maxRunningReqs pending ts adder.tableManager [] cm handle)
      (fun cm handle _ =>
        Found ps numPages maxRunningReqs pending ts adder.tableManager [handle.node] cm handle)
      (Entered ps numPages maxRunningReqs pending ts) holds (holds.matchReq pending) Found.leave
      ?_ ?_ Found.unlock ?_).imp ?_
    · intro cm handle _ found
      obtain ⟨same, locked⟩ := found.lock
      rw [same]
      exact locked
    · intro cm handle _ locked
      obtain ⟨-, cache, kind, -⟩ := locked.paged
      have unchanged : cm.ensureMambaSlots 3 = cm := by
        unfold CacheManager.ensureMambaSlots
        rw [kind]
      rwa [unchanged]
    · exact fun {cm handle mamba} locked row _ =>
        seat_pages { adder with cacheManager := cm } locked row mamba
    · rintro ⟨next, resource⟩ found
      cases resource with
      | some resource => exact found
      | none =>
        obtain ⟨kept, same⟩ := found
        rw [same]
        exact kept
  · intro next resource size res entered added
    unfold Scheduler.Placed
    rw [added.req, added.cacheManager, added.tableManager]
    refine (entered (chunkReq pending resource resource.cacheHandle.cachedLen size false 0) rfl rfl
      rfl rfl ?_).change
    unfold chunkReq
    rw [take_take, min_eq_left (Nat.le_add_right _ _)]

end Admission

/-! ### The whole run -/

section Run

open Scheduler

variable {ps numPages maxRunningReqs : Nat} {cfg : SchedulerConfig}

/-- Window slots that are released are no business of the pages. -/
theorem PageInv.release {cm : CacheManager} {tm : TableManager} {ts : List Tenant} {req : Req}
    (newEvicted : Int)
    (holds : PageInv ps numPages maxRunningReqs false cm tm ((.resting, req) :: ts)) :
    PageInv ps numPages maxRunningReqs false (cm.releaseSwa req newEvicted).1 tm
      ((.resting, (cm.releaseSwa req newEvicted).2) :: ts) := by
  unfold CacheManager.releaseSwa
  dsimp only
  split
  · exact holds.change
  · exact holds

/-- **The pages of the plain manager meet the obligations.** -/
theorem pageInv_keeps : Keeps cfg (fun _ _ => True) (PageInv ps numPages maxRunningReqs)
    (fun _ => True) where
  perm := PageInv.perm
  admission := fun _ holds => admit_pages holds
  extend := by
    intro adder ts pending chunk of holds
    refine PrefillAdder.tryAddOne_continued (fun _ _ => trivial) holds ?_
    intro size res added
    obtain ⟨tableIdx, here⟩ := Option.isSome_iff_exists.mp of.seated
    unfold Placed
    rw [added.req, added.cacheManager, added.tableManager]
    refine holds.change rfl rfl rfl ?_ ?_ rfl
    · rw [here, of.mmEmbeds]
      rfl
    · rw [of.inputIds]
      exact take_prefix_take_left (Nat.le_add_right _ _)
  slideExtend := fun holds => holds.release _
  slideDecode := by
    intro cm tm req ts _ holds
    unfold CacheManager.freeSwaOfDecode
    split
    · exact holds
    · exact PageInv.release _ holds.change
  count := fun holds => holds.change
  allocate := fun extends_ holds => PageInv.allocate extends_ holds
  restore := by
    intro cm tm req ts holds
    unfold restoreLinearState
    split <;> exact holds.change
  freeze := by
    intro cm tm req ts holds
    unfold CacheManager.snapshotAnchor
    split
    · split <;> exact holds.change
    · exact holds.change
  pass := fun holds => holds.change
  feed := by
    intro cm tm req ts isPrefill _ holds
    unfold forwardState noteTrack
    split
    · split <;> exact holds.change
    · exact holds.change
  sample := fun _ holds => holds.change
  complete := fun holds => holds.change
  openRegion := by
    intro cm tm ts holds
    obtain ⟨total, cache, kind, size, inv, pages⟩ := holds.paged
    rw [holds.closed rfl] at pages
    exact ⟨⟨total, cache, kind, size, inv, pages⟩, (nomatch ·), holds.rows, holds.tied⟩
  closeRegion := by
    intro cm tm ts holds
    obtain ⟨total, cache, kind, size, inv, pages⟩ := holds.paged
    rw [← append_nil (cm.freeSlots ++ cm.lazyFree.getD [])] at pages
    exact ⟨⟨total, cache, kind, size, inv, pages⟩, fun _ => rfl, holds.rows, holds.tied⟩
  append := by
    intro cm tm req ts token finished _ holds
    refine Outcome.of_eq (fun given done => ?_) fun _ _ => trivial
    obtain ⟨-, -, rfl⟩ := appendHost_ok done
    unfold noteAnchor
    split <;> exact holds.change rfl rfl rfl rfl (prefix_append _ _) rfl
  commit := fun _ covered _ holds => holds.commit covered
  finish := by
    intro draining cm tm req ts tableIdx here covered holds
    exact holds.finish here covered
  mark := fun holds => holds.change

/-- A new manager of a plain radix cache. -/
def newRadix (numPages ps : Nat) (clock : Clock) (pool : LinearStatePool)
    (swaPool : Option HybridSWAPool) (slidingWindowSize : Nat) : CacheManager :=
  CacheManager.new numPages ps (.radix (RadixPrefixCache.new ps clock)) pool swaPool
    slidingWindowSize

theorem PageInv.new (pos : 0 < ps) (clock : Clock) (pool : LinearStatePool)
    (swaPool : Option HybridSWAPool) (slidingWindowSize : Nat) :
    PageInv ps numPages maxRunningReqs false
      (newRadix numPages ps clock pool swaPool slidingWindowSize)
      (TableManager.new maxRunningReqs) [] where
  paged := ⟨rfl, RadixPrefixCache.new ps clock, rfl, rfl, RadixRun.inv_new pos clock,
    Perm.of_eq ((append_nil _).trans (append_nil _))⟩
  closed := fun _ => rfl
  rows := .refl _
  tied := fun _ absurd => nomatch absurd

/-- The ledger holds in every state that is reached. -/
theorem pageInv_run {slidingWindowSize : Nat} {clock : Clock} {pool : LinearStatePool}
    {swaPool : Option HybridSWAPool} (pos : 0 < ps) {events : List Event} {s : Scheduler}
    (run : Run cfg (Scheduler.new
      (newRadix numPages ps clock pool swaPool slidingWindowSize) maxRunningReqs) events s) :
    Housed (PageInv ps numPages maxRunningReqs) s := by
  refine pageInv_keeps.run (PageInv.new pos clock pool swaPool slidingWindowSize) run ?_
  intro _ event _ state _ _
  cases event with
  | drain => exact fun _ _ => trivial
  | _ => trivial

/-- Where the pages and the rows are: in the tree `cache`, with the requests `names` or free. -/
structure Conserved (ps numPages maxRunningReqs : Nat) (s : Scheduler) (cache : RadixPrefixCache)
    (names : List Nat) : Prop where
  tree : s.cacheManager.prefixCache = .radix cache
  distinct : names.Nodup
  holders : ∀ name, name ∈ names ↔ s.Houses name
  pages : (s.cacheManager.freeSlots ++ s.cacheManager.lazyFree.getD [] ++
    (treePages ps cache.tier.nodes ++
      (atRest s.reqs names).flatMap (spanOf ps s.cacheManager))).Perm ((range numPages).map (· * ps))
  rows : ((atRest s.reqs names).map rowOf ++ s.tableManager.freeSlots).Perm (range maxRunningReqs)
  closed : s.todo = none → s.cacheManager.lazyFree = none
  reads : ∀ name ∈ names,
    s.cacheManager.row ((s.reqs name).tableIdx.getD 0) 0 (s.reqs name).cacheHandle.cachedLen =
      collectKv cache.tier.nodes (s.reqs name).cacheHandle.node
  locked : ∀ name ∈ names, ∀ node ∈ cache.tier.nodes,
    node.path <+: (s.reqs name).cacheHandle.node → 0 < node.data.refCount

/-- **Pages and rows over a run of the plain manager.** In every state that is reached, whatever is
shared, evicted, committed twice or aborted: each page is in exactly one place, a free list, one node
of the tree or the private span of one request, and each row belongs to one request or is free. Each
request reads its matched prefix in the tree, where its whole path is locked. -/
theorem pages_conserved {slidingWindowSize : Nat} {clock : Clock} {pool : LinearStatePool}
    {swaPool : Option HybridSWAPool} (pos : 0 < ps) {events : List Event} {s : Scheduler}
    (run : Run cfg (Scheduler.new
      (newRadix numPages ps clock pool swaPool slidingWindowSize) maxRunningReqs) events s) :
    ∃ cache names, Conserved ps numPages maxRunningReqs s cache names := by
  obtain ⟨names, nodup, who, holds⟩ := pageInv_run pos run
  obtain ⟨-, cache, kind, size, inv, pages⟩ := id holds.paged
  have tenant : ∀ name ∈ names, (Stage.resting, s.reqs name) ∈ atRest s.reqs names :=
    fun name mem => mem_map_of_mem (f := fun name => (Stage.resting, s.reqs name)) mem
  refine ⟨cache, names, kind, nodup, fun name => by simp [who], pages, holds.rows, fun receiving =>
    holds.closed (by rw [receiving]; rfl), fun name mem => ?_, fun name mem node lt below => ?_⟩
  · exact (inv.handles _ (mem_map_of_mem (f := entryOf s.cacheManager) (tenant name mem))).2.2.symm
  · rw [inv.tier.counts.refCount node lt]
    exact through_pos (mem_map_of_mem (f := nodeOf) (tenant name mem)) below

/-- Two prompts that share a page: the second is launched while the first is still drained. -/
theorem pages_conserved_shared : ∃ (cfg : SchedulerConfig) (s : Scheduler),
    Run cfg (Scheduler.new (newRadix 8 2 ⟨fun _ => 0, 0⟩ (LinearStatePool.new 1) none 0) 2)
      [.recv (.user ⟨0, [1, 2, 3], ⟨true, 4, []⟩, false⟩), .launch fun _ => 7,
        .recv (.user ⟨1, [1, 2, 4], ⟨true, 4, []⟩, false⟩), .launch fun _ => 8, .drain] s ∧
    ∃ cache names, Conserved 2 8 2 s cache names := by
  refine ⟨⟨64, 32, [], none, fun _ => [], 8⟩, ?_⟩
  obtain ⟨s, run⟩ : ∃ s, Run ⟨64, 32, [], none, fun _ => [], 8⟩
      (Scheduler.new (newRadix 8 2 ⟨fun _ => 0, 0⟩ (LinearStatePool.new 1) none 0) 2)
      [.recv (.user ⟨0, [1, 2, 3], ⟨true, 4, []⟩, false⟩), .launch fun _ => 7,
        .recv (.user ⟨1, [1, 2, 4], ⟨true, 4, []⟩, false⟩), .launch fun _ => 8, .drain] s :=
    ⟨_, Run.snoc (Run.snoc (Run.snoc (Run.snoc (Run.snoc Run.nil rfl rfl) rfl rfl) rfl rfl) rfl rfl)
      rfl rfl⟩
  exact ⟨s, run, pages_conserved (by decide) run⟩

end Run

end FreeToken
