/-
**The paths of the sparse attention list the same tokens.**
-/

import FreeToken.Attention.SparsePaths

namespace FreeToken

open List

variable {σ : Type} [LinearOrder σ]

structure SparseQuery (σ : Type) where
  row : List Int
  seqLen : Nat
  position : Nat
  score : Nat → σ

def SparseReq.queries (req : SparseReq σ) : List (SparseQuery σ) :=
  (List.range req.extendLen).map fun s =>
    { row := req.row, seqLen := req.deviceLen, position := req.cachedLen + s, score := req.score s }

def SparseQuery.toQsa (query : SparseQuery σ) : QsaQuery σ :=
  { position := query.position, seqLen := query.seqLen, score := query.score }

/-- The three selections, over a prefill batch and over a batch of decode steps. -/
inductive SparseBackend
  | dsa (indexer : DsaIndexer)
  | kpool (indexer : KpoolIndexer)
  | qsa (indexer : QsaIndexer)

namespace SparseBackend

def ratio : SparseBackend → Nat
  | dsa _ => 1
  | kpool indexer => indexer.kpool
  | qsa indexer => indexer.ratio

def groups : SparseBackend → Nat
  | dsa indexer => indexer.indexTopk
  | kpool indexer => indexer.selectK
  | qsa indexer => indexer.blockCount

def budget : SparseBackend → Nat
  | dsa indexer => indexer.indexTopk
  | kpool indexer => indexer.indexTopk
  | qsa indexer => indexer.tokenTopk

def entry : SparseBackend → List Int → Nat → Int
  | dsa _, row, token => row.getD token (-1)
  | kpool _, row, token => row.getD token (-1)
  | qsa _, _, token => token

variable (torch : TorchTopk σ) (blockTopk : BlockTopk σ)

/-- The lists of a prefill batch, query after query. `chunk` is the number of queries that are
scored at a time, `width` the width of the page table. -/
def prefill (chunk : Nat → Nat) (stale : Nat → Nat → WithBot σ) (width : Nat)
    (reqs : List (SparseReq σ)) : SparseBackend → Option (List RowSelection)
  | dsa indexer => do
      let sels ← prefillSelection (fun req => indexer.selectPrefill torch (chunk req.deviceLen)
        req.score req.rows req.positions req.cachedLen) indexer.indexTopk reqs
      pure sels.flatten
  | kpool indexer => do
      let sels ← prefillSelection (fun req => indexer.selectPrefill torch (chunk req.deviceLen)
        req.score req.rows req.positions req.cachedLen) indexer.indexTopk reqs
      pure sels.flatten
  | qsa indexer =>
      let indices := indexer.select blockTopk (chunk (indexer.columns width)) stale width
        ((reqs.flatMap SparseReq.queries).map SparseQuery.toQsa)
      some (indices.map fun sel => (sel, indexer.selectWidth))

/-- The lists of a decode step, request after request. -/
def decode (chunk : Nat → Nat) (stale : Nat → Nat → WithBot σ) (width : Nat)
    (reqs : List (SparseReq σ)) : SparseBackend → Option (List RowSelection)
  | dsa indexer => reqs.mapM fun req => indexer.decode torch req.row req.deviceLen (req.score 0)
  | kpool indexer => reqs.mapM fun req => indexer.decode torch req.row req.deviceLen (req.score 0)
  | qsa indexer =>
      let indices := indexer.select blockTopk (chunk (indexer.columns width)) stale width
        ((reqs.flatMap SparseReq.queries).map SparseQuery.toQsa)
      some (indices.map fun sel => (sel, indexer.selectWidth))

/-- A request that the scheduler hands over: its positions have rows. Scores are distinct. -/
structure Admits (backend : SparseBackend) (width : Nat) (req : SparseReq σ) : Prop where
  fits : req.deviceLen ≤ req.row.length
  ofTable : req.row.length = width
  mapped : ∀ token < req.deviceLen, 0 ≤ req.row.getD token (-1)
  distinct : ∀ s < req.extendLen,
    DistinctScores (req.score s) ((req.cachedLen + s + 1) / backend.ratio)

def named (sel : RowSelection) : List Int := (sel.1.take sel.2).filter fun row => 0 ≤ row

/-- **A query is handed its tokens**, each once, and nothing stands behind its count but the later
rows of a list that all queries of a request share. -/
structure Exact (backend : SparseBackend) (query : SparseQuery σ) (sel : RowSelection) : Prop where
  tokens : ∃ tokens : List Nat,
    tokens.Perm (selectedTokens query.score backend.ratio backend.groups query.position) ∧
      named sel = tokens.map (backend.entry query.row)
  beyond : (∀ row ∈ sel.1.drop sel.2, row = -1) ∨
    sel = (query.row.take query.seqLen, query.position + 1)

variable {backend : SparseBackend} {query : SparseQuery σ} {sel : RowSelection}

theorem Exact.of_names {rows : Nat → Int}
    (names : Names rows (selectedTokens query.score backend.ratio backend.groups query.position) sel)
    (same : ∀ token ≤ query.position, rows token = backend.entry query.row token) :
    backend.Exact query sel := by
  obtain ⟨⟨tokens, perm, listed⟩, beyond⟩ := names
  refine ⟨⟨tokens, perm, listed.trans (map_congr_left fun token mem => ?_)⟩, Or.inl beyond⟩
  exact same token (mem_selectedTokens.mp (perm.mem_iff.mp mem)).1

theorem ratio_pos (backend : SparseBackend) : 0 < backend.ratio := by
  cases backend with
  | dsa indexer => exact one_pos
  | kpool indexer =>
    have := indexer.pooled
    show 0 < indexer.kpool
    omega
  | qsa indexer =>
    have := indexer.grouped
    show 0 < indexer.ratio
    omega

theorem groups_of_budget (backend : SparseBackend) {position : Nat}
    (fits : position < backend.budget) : (position + 1) / backend.ratio ≤ backend.groups := by
  cases backend with
  | dsa indexer =>
    show (position + 1) / 1 ≤ _
    rw [Nat.div_one]
    exact fits
  | kpool indexer => exact Nat.div_le_div_right fits
  | qsa indexer => exact Nat.div_le_div_right fits

theorem Exact.all (exact : backend.Exact query sel) (fits : query.position < backend.budget) :
    (named sel).Perm ((List.range (query.position + 1)).map (backend.entry query.row)) := by
  obtain ⟨⟨tokens, perm, listed⟩, -⟩ := exact
  rw [selectedTokens_all backend.ratio_pos _ (backend.groups_of_budget fits)] at perm
  rw [listed]
  exact perm.map _

theorem Exact.agree {other : SparseQuery σ} {sel' : RowSelection}
    (exact : backend.Exact query sel) (exact' : backend.Exact other sel')
    (row : query.row = other.row) (position : query.position = other.position)
    (score : query.score = other.score) : (named sel).Perm (named sel') := by
  obtain ⟨⟨tokens, perm, listed⟩, -⟩ := exact
  obtain ⟨⟨tokens', perm', listed'⟩, -⟩ := exact'
  rw [row, position, score] at *
  rw [listed, listed']
  exact (perm.trans perm'.symm).map _

/-! ### Batches -/

variable {req : SparseReq σ} {width : Nat}

omit [LinearOrder σ] in
theorem Admits.live (admits : backend.Admits width req) {position : Nat}
    (lt : position < req.deviceLen) :
    LiveRows req.row position ∧ LiveRows req.rows position ∧
      ∀ token ≤ position, req.rows.getD token (-1) = req.row.getD token (-1) := by
  have fits := admits.fits
  have length : req.rows.length = req.deviceLen := by
    unfold SparseReq.rows
    rw [length_take]
    omega
  have same : ∀ token ≤ position, req.rows.getD token (-1) = req.row.getD token (-1) := by
    intro token pre
    rw [getD_eq_getElem _ _ (by omega), getD_eq_getElem _ _ (by omega)]
    exact getElem_take
  refine ⟨fun token pre => ⟨by omega, admits.mapped token (by omega)⟩, fun token pre => ?_, same⟩
  rw [same token pre]
  exact ⟨by omega, admits.mapped token (by omega)⟩

theorem exact_identity (admits : backend.Admits width req) (rowwise : ∀ token,
      backend.entry req.row token = req.row.getD token (-1))
    (fits : req.deviceLen ≤ backend.budget) :
    List.Forall₂ backend.Exact req.queries
      (req.positions.map fun position => (req.rows, position + 1)) := by
  unfold SparseReq.queries SparseReq.positions
  rw [range'_eq_map_range, map_map, forall₂_map_left_iff, forall₂_map_right_iff, forall₂_same]
  intro s lt
  rw [mem_range] at lt
  have pre : req.cachedLen + s < req.deviceLen := Nat.add_lt_add_left lt _
  obtain ⟨-, live, same⟩ := admits.live pre
  have all := selectedTokens_all backend.ratio_pos (req.score s)
    (backend.groups_of_budget (show req.cachedLen + s < backend.budget by omega))
  refine ⟨⟨range (req.cachedLen + s + 1), by rw [all], ?_⟩, Or.inr rfl⟩
  have listed : req.rows.take (req.cachedLen + s + 1) =
      (range (req.cachedLen + s + 1)).map (backend.entry req.row) := by
    have length := (live _ le_rfl).1
    apply ext_getElem
    · simp only [length_take, length_map, length_range]
      omega
    · intro token inTake _
      rw [length_take] at inTake
      rw [getElem_take, getElem_map, getElem_range, rowwise, ← same token (by omega),
        getD_eq_getElem _ _ (by omega)]
  show (req.rows.take (req.cachedLen + s + 1)).filter _ = _
  rw [listed, filter_eq_self]
  intro row mem
  obtain ⟨token, lt, rfl⟩ := mem_map.mp mem
  rw [mem_range] at lt
  rw [rowwise, decide_eq_true_iff]
  exact admits.mapped token (by omega)

theorem prefillSelection_exact {reqs : List (SparseReq σ)} {indexTopk : Nat}
    (budget : indexTopk = backend.budget)
    (rowwise : ∀ row token, backend.entry row token = row.getD token (-1))
    (admits : ∀ req ∈ reqs, backend.Admits width req)
    {select : SparseReq σ → Option (List RowSelection)}
    (each : ∀ req ∈ reqs, ∃ sels, select req = some sels ∧
      List.Forall₂ backend.Exact req.queries sels) :
    ∃ all, prefillSelection select indexTopk reqs = some all ∧
      List.Forall₂ backend.Exact (reqs.flatMap SparseReq.queries) all.flatten := by
  unfold prefillSelection
  split
  · exact mapM_flatten each
  · rename_i short
    refine ⟨_, rfl, ?_⟩
    have identity : ∀ req ∈ reqs, ∃ sels : List RowSelection,
        some (req.positions.map fun position => (req.rows, position + 1)) = some sels ∧
          Forall₂ backend.Exact req.queries sels := by
      intro req mem
      have longest := le_foldl_max (mem_map_of_mem (f := SparseReq.deviceLen) mem) 0
      exact ⟨_, rfl, exact_identity (admits req mem) (rowwise req.row) (by omega)⟩
    obtain ⟨all, ret, related⟩ := mapM_flatten identity
    rw [mapM_some fun req _ => rfl] at ret
    rwa [Option.some.inj ret]

theorem exact_of_selectPrefill (admits : backend.Admits width req)
    (rowwise : ∀ row token, backend.entry row token = row.getD token (-1))
    {sels : Nat → RowSelection}
    (names : ∀ s < req.extendLen, Names (fun token => req.rows.getD token (-1))
      (selectedTokens (req.score s) backend.ratio backend.groups (req.cachedLen + s)) (sels s)) :
    List.Forall₂ backend.Exact req.queries ((List.range req.extendLen).map sels) := by
  unfold SparseReq.queries
  rw [forall₂_map_left_iff, forall₂_map_right_iff, forall₂_same]
  intro s lt
  rw [mem_range] at lt
  obtain ⟨-, -, same⟩ := admits.live (show req.cachedLen + s < req.deviceLen from
    Nat.add_lt_add_left lt _)
  refine Exact.of_names (names s lt) fun token pre => ?_
  rw [same token pre, rowwise]

omit [LinearOrder σ] in
theorem Admits.bounds (admits : backend.Admits width req) {query : SparseQuery σ}
    (mem : query ∈ req.queries) :
    query.position < query.seqLen ∧ query.seqLen ≤ width ∧
      DistinctScores query.score ((query.position + 1) / backend.ratio) := by
  obtain ⟨s, lt, rfl⟩ := mem_map.mp mem
  rw [mem_range] at lt
  exact ⟨Nat.add_lt_add_left lt _, admits.ofTable ▸ admits.fits, admits.distinct s lt⟩

theorem qsa_exact (indexer : QsaIndexer) {chunk : Nat} (pos : 0 < chunk)
    (stale : Nat → Nat → WithBot σ) {queries : List (SparseQuery σ)}
    (each : ∀ query ∈ queries, query.position < query.seqLen ∧ query.seqLen ≤ width ∧
      DistinctScores query.score ((query.position + 1) / indexer.ratio)) :
    List.Forall₂ (qsa indexer).Exact queries
      ((indexer.select blockTopk chunk stale width (queries.map SparseQuery.toQsa)).map
        fun sel => (sel, indexer.selectWidth)) := by
  rw [indexer.select_eq blockTopk pos, forall₂_map_right_iff]
  refine forall₂_iff_get.mpr ⟨by simp, fun i lt _ => ?_⟩
  rw [get_eq_getElem, get_eq_getElem, getElem_mapIdx, getElem_map]
  obtain ⟨pre, fits, nodup⟩ := each _ (getElem_mem lt)
  exact Exact.of_names (@QsaIndexer.selectRow_names _ _ indexer blockTopk (stale i) width
    queries[i].toQsa pre fits nodup) fun token _ => rfl

theorem prefill_exact {chunk : Nat → Nat} (pos : ∀ size, 0 < chunk size)
    (stale : Nat → Nat → WithBot σ) {reqs : List (SparseReq σ)}
    (admits : ∀ req ∈ reqs, backend.Admits width req) :
    ∃ sels, backend.prefill torch blockTopk chunk stale width reqs = some sels ∧
      List.Forall₂ backend.Exact (reqs.flatMap SparseReq.queries) sels := by
  cases backend with
  | dsa indexer =>
    obtain ⟨all, ret, exact⟩ := @prefillSelection_exact _ _ (dsa indexer) width reqs indexer.indexTopk rfl
      (fun _ _ => rfl) admits (fun req => indexer.selectPrefill torch (chunk req.deviceLen)
        req.score req.rows req.positions req.cachedLen) (by
      intro req mem
      have admitted := admits req mem
      obtain ⟨sels, selected, names⟩ := indexer.selectPrefill_names torch
        (pos req.deviceLen)
        (fun s lt => (admitted.live (Nat.add_lt_add_left lt req.cachedLen)).2.1)
        (fun s lt => by
          have nodup := admitted.distinct s lt
          rwa [show (dsa indexer).ratio = 1 from rfl, Nat.div_one] at nodup)
      exact ⟨_, selected, exact_of_selectPrefill admitted (fun _ _ => rfl) names⟩)
    refine ⟨all.flatten, ?_, exact⟩
    unfold prefill
    dsimp only
    rw [ret]
    rfl
  | kpool indexer =>
    obtain ⟨all, ret, exact⟩ := @prefillSelection_exact _ _ (kpool indexer) width reqs indexer.indexTopk rfl
      (fun _ _ => rfl) admits (fun req => indexer.selectPrefill torch (chunk req.deviceLen)
        req.score req.rows req.positions req.cachedLen) (by
      intro req mem
      have admitted := admits req mem
      obtain ⟨sels, selected, names⟩ := indexer.selectPrefill_names torch
        (pos req.deviceLen)
        (fun s lt => (admitted.live (Nat.add_lt_add_left lt req.cachedLen)).2.1)
        admitted.distinct
      exact ⟨_, selected, exact_of_selectPrefill admitted (fun _ _ => rfl) names⟩)
    refine ⟨all.flatten, ?_, exact⟩
    unfold prefill
    dsimp only
    rw [ret]
    rfl
  | qsa indexer => exact ⟨_, rfl, qsa_exact blockTopk indexer (pos _) stale fun query mem => by
    obtain ⟨req, inBatch, ofReq⟩ := mem_flatMap.mp mem
    exact (admits req inBatch).bounds ofReq⟩

def stepQuery (req : SparseReq σ) : SparseQuery σ :=
  { row := req.row, seqLen := req.deviceLen, position := req.deviceLen - 1, score := req.score 0 }

omit [LinearOrder σ] in
theorem queries_step (step : req.extendLen = 1) : req.queries = [stepQuery req] := by
  have last : req.deviceLen - 1 = req.cachedLen + 0 := by
    unfold SparseReq.deviceLen
    omega
  unfold SparseReq.queries stepQuery
  rw [step, last]
  rfl

theorem decode_exact {chunk : Nat → Nat} (pos : ∀ size, 0 < chunk size)
    (stale : Nat → Nat → WithBot σ) {reqs : List (SparseReq σ)}
    (admits : ∀ req ∈ reqs, backend.Admits width req) (steps : ∀ req ∈ reqs, req.extendLen = 1) :
    ∃ sels, backend.decode torch blockTopk chunk stale width reqs = some sels ∧
      List.Forall₂ backend.Exact (reqs.flatMap SparseReq.queries) sels := by
  have queries : ∀ reqs : List (SparseReq σ), (∀ req ∈ reqs, req.extendLen = 1) →
      reqs.flatMap SparseReq.queries = reqs.map stepQuery := by
    intro reqs steps
    rw [map_eq_flatMap]
    exact flatMap_congr fun req mem => queries_step (steps req mem)
  -- what a step is handed, request by request
  have rowwise : ∀ run : SparseReq σ → Option RowSelection,
      (∀ req ∈ reqs, ∃ sel, run req = some sel ∧ backend.Exact (stepQuery req) sel) →
      ∃ sels, reqs.mapM run = some sels ∧
        Forall₂ backend.Exact (reqs.flatMap SparseReq.queries) sels := by
    intro run each
    choose! sel exact using each
    refine ⟨reqs.map sel, mapM_some fun req mem => (exact req mem).1, ?_⟩
    rw [queries reqs steps, forall₂_map_left_iff, forall₂_map_right_iff, forall₂_same]
    exact fun req mem => (exact req mem).2
  have started : ∀ req ∈ reqs, 0 < req.deviceLen := by
    intro req mem
    have step := steps req mem
    unfold SparseReq.deviceLen
    omega
  have nodup : ∀ req ∈ reqs,
      DistinctScores (req.score 0) ((req.deviceLen - 1 + 1) / backend.ratio) := by
    intro req mem
    have query : stepQuery req ∈ req.queries := by
      rw [queries_step (steps req mem)]
      exact mem_singleton_self _
    exact ((admits req mem).bounds query).2.2
  cases backend with
  | dsa indexer =>
    refine rowwise _ fun req mem => ?_
    have begun := started req mem
    have last : req.deviceLen - 1 + 1 = req.deviceLen := by omega
    have scores := nodup req mem
    rw [last, show (dsa indexer).ratio = 1 from rfl, Nat.div_one] at scores
    obtain ⟨sel, selected, names⟩ := indexer.decode_names torch begun
      ((admits req mem).live (show req.deviceLen - 1 < req.deviceLen by omega)).1 scores
    exact ⟨sel, selected, Exact.of_names names fun _ _ => rfl⟩
  | kpool indexer =>
    refine rowwise _ fun req mem => ?_
    have begun := started req mem
    have last : req.deviceLen - 1 + 1 = req.deviceLen := by omega
    have scores := nodup req mem
    rw [last] at scores
    obtain ⟨sel, selected, names⟩ := indexer.decode_names torch begun
      ((admits req mem).live (show req.deviceLen - 1 < req.deviceLen by omega)).1 scores
    exact ⟨sel, selected, Exact.of_names names fun _ _ => rfl⟩
  | qsa indexer => exact ⟨_, rfl, qsa_exact blockTopk indexer (pos _) stale fun query mem => by
    obtain ⟨req, inBatch, ofReq⟩ := mem_flatMap.mp mem
    exact (admits req inBatch).bounds ofReq⟩

end SparseBackend

open SparseBackend in
/-- **The sparse selection covers exactly the right tokens.** -/
theorem sparse_selection_exact (backend : SparseBackend) (torch : TorchTopk σ)
    (blockTopk : BlockTopk σ) {chunk : Nat → Nat} (pos : ∀ size, 0 < chunk size)
    (stale stale' : Nat → Nat → WithBot σ) (width : Nat) (prefills decodes : List (SparseReq σ))
    (prefillAdmits : ∀ req ∈ prefills, backend.Admits width req)
    (decodeAdmits : ∀ req ∈ decodes, backend.Admits width req)
    (steps : ∀ req ∈ decodes, req.extendLen = 1) :
    ∃ sels sels', backend.prefill torch blockTopk chunk stale width prefills = some sels ∧
      backend.decode torch blockTopk chunk stale' width decodes = some sels' ∧
      List.Forall₂ backend.Exact (prefills.flatMap SparseReq.queries) sels ∧
      List.Forall₂ backend.Exact (decodes.flatMap SparseReq.queries) sels' ∧
      -- the phases agree
      (∀ query sel query' sel', (query, sel) ∈ (prefills.flatMap SparseReq.queries).zip sels →
        (query', sel') ∈ (decodes.flatMap SparseReq.queries).zip sels' → query.row = query'.row →
        query.position = query'.position → query.score = query'.score →
          (named sel).Perm (named sel')) ∧
      -- a history within the budget
      ∀ query sel, (query, sel) ∈ (prefills.flatMap SparseReq.queries).zip sels ++
          (decodes.flatMap SparseReq.queries).zip sels' → query.position < backend.budget →
        (named sel).Perm ((List.range (query.position + 1)).map (backend.entry query.row)) := by
  obtain ⟨sels, prefilled, exact⟩ := backend.prefill_exact torch blockTopk pos stale
    prefillAdmits
  obtain ⟨sels', decoded, exact'⟩ := backend.decode_exact torch blockTopk pos stale'
    decodeAdmits steps
  refine ⟨sels, sels', prefilled, decoded, exact, exact', ?_, ?_⟩
  · intro query sel query' sel' mem member' row position score
    exact (forall₂_zip exact mem).agree (forall₂_zip exact' member') row position score
  · intro query sel mem fits
    rcases mem_append.mp mem with inPrefill | inDecode
    · exact (forall₂_zip exact inPrefill).all fits
    · exact (forall₂_zip exact' inDecode).all fits

def sortedTorch : TorchTopk σ where
  topk := sortedTopk
  isTopK scores _ fits := sortedTopk_isTopK scores fits

open SparseBackend in
theorem sparse_selection_exact_pooled : ∃ sels sels',
      (kpool ⟨2, 2, by decide, by decide⟩).prefill sortedTorch (BlockTopk.ofTorch sortedTorch)
        (fun _ => 1) (fun _ _ => ⊥) 4
        [⟨[8, 9, 4, 5], 0, 4, fun _ group => group⟩, ⟨[6, 7, 0, 0], 0, 1, fun _ group => group⟩] =
          some sels ∧
      (kpool ⟨2, 2, by decide, by decide⟩).decode sortedTorch (BlockTopk.ofTorch sortedTorch)
        (fun _ => 1) (fun _ _ => ⊥) 4 [⟨[8, 9, 4, 5], 3, 1, fun _ group => group⟩] = some sels' ∧
      sels.length = 5 ∧ sels'.length = 1 := by
  obtain ⟨sels, sels', prefilled, decoded, exact, exact', -⟩ :=
    @sparse_selection_exact Nat _ (kpool ⟨2, 2, by decide, by decide⟩) sortedTorch
      (BlockTopk.ofTorch sortedTorch) (fun _ => 1) (fun _ => one_pos) (fun _ _ => ⊥)
      (fun _ _ => ⊥) 4
      [⟨[8, 9, 4, 5], 0, 4, fun _ group => group⟩, ⟨[6, 7, 0, 0], 0, 1, fun _ group => group⟩]
      [⟨[8, 9, 4, 5], 3, 1, fun _ group => group⟩] (by
        intro req mem
        rcases mem_cons.mp mem with rfl | mem
        · exact ⟨by decide, rfl, by decide, fun _ _ _ _ _ _ same => same⟩
        · rcases mem_cons.mp mem with rfl | mem
          · exact ⟨by decide, rfl, by decide, fun _ _ _ _ _ _ same => same⟩
          · exact absurd mem not_mem_nil) (by
        intro req mem
        rw [mem_singleton] at mem
        subst mem
        exact ⟨by decide, rfl, by decide, fun _ _ _ _ _ _ same => same⟩) (by
        intro req mem
        rw [mem_singleton] at mem
        subst mem
        rfl)
  exact ⟨sels, sels', prefilled, decoded, exact.length_eq.symm, exact'.length_eq.symm⟩

end FreeToken
