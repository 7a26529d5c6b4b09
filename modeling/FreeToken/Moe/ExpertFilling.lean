/-
**Every row is written once, and a layer is handed over when it is whole.**
-/

import FreeToken.Lib.Traverse
import FreeToken.Moe.ExpertBanks
import Mathlib.Order.Interval.Finset.Nat

namespace FreeToken

open List Function

variable {H A V W Item : Type}

/-! ### Histories -/

def LayerWritten (numExperts : Nat) (seen : List (FillEvent H A W)) (layer : Nat) : Prop :=
  ∀ expert < numExperts, ∃ fill ∈ fills seen, fill.covers layer expert

/-- In a history, a layer goes to the sink once and after all of its rows. -/
def SunkOnce (numExperts : Nat) (seen : List (FillEvent H A W)) : Prop :=
  ∀ layer pre after, seen = pre ++ .sunk layer :: after →
    (.sunk layer : FillEvent H A W) ∉ pre ∧ LayerWritten numExperts pre layer

section Histories

variable {numExperts : Nat} {seen : List (FillEvent H A W)}

@[simp] theorem fills_append (more : List (FillEvent H A W)) :
    fills (seen ++ more) = fills seen ++ fills more := filterMap_append

@[simp] theorem fills_sunk (layer : Nat) : fills [(.sunk layer : FillEvent H A W)] = [] := rfl

@[simp] theorem fills_filled (fill : Fill H A W) : fills [.filled fill] = [fill] := rfl

theorem SunkOnce.nil : SunkOnce numExperts ([] : List (FillEvent H A W)) := by
  intro layer pre after same
  cases pre <;> cases same

theorem SunkOnce.append (once : SunkOnce numExperts seen) {event : FillEvent H A W}
    (whole : ∀ layer, event = .sunk layer →
      (.sunk layer : FillEvent H A W) ∉ seen ∧ LayerWritten numExperts seen layer) :
    SunkOnce numExperts (seen ++ [event]) := by
  intro layer pre after same
  rcases eq_nil_or_concat after with none | ⟨others, last, isLast⟩
  · rw [none] at same
    obtain ⟨rfl, isSunk⟩ := append_inj' same rfl
    exact whole layer (singleton_injective isSunk)
  · rw [isLast, concat_eq_append, ← cons_append, ← append_assoc] at same
    exact once layer pre others (append_inj' same rfl).1

theorem SunkOnce.raise (once : SunkOnce numExperts seen) (err : FillError) {α : Type}
    {post : List (FillEvent H A W) → α → Prop} :
    Generator.Meets seen (FreeToken.raise err) post (SunkOnce numExperts) :=
  once.append fun layer isSunk => by cases isSunk

end Histories

/-! ### The notes of a layer -/

section Notes

variable {numExperts layer : Nat} {sink : Nat → Option String}

structure Noted (numExperts layer rows : Nat) (seen : List (FillEvent H A W)) (counts : Nat → Nat)
    (seen' : List (FillEvent H A W)) (counts' : Nat → Nat) : Prop where
  counted : counts' = Function.update counts layer (counts layer + rows)
  fills : fills seen' = fills seen
  once : SunkOnce numExperts seen'
  sunk : ∀ other, (.sunk other : FillEvent H A W) ∈ seen' →
    (.sunk other : FillEvent H A W) ∈ seen ∨ (other = layer ∧ counts layer + rows = numExperts)

theorem note_meets {seen : List (FillEvent H A W)} {counts : Nat → Nat}
    (once : SunkOnce numExperts seen)
    (last : counts layer + 1 = numExperts →
      (.sunk layer : FillEvent H A W) ∉ seen ∧ LayerWritten numExperts seen layer) :
    Generator.Meets seen (note sink numExperts counts layer)
      (Noted numExperts layer 1 seen counts) (SunkOnce numExperts) := by
  unfold note
  by_cases full : counts layer + 1 = numExperts
  · rw [if_pos full]
    have handed : SunkOnce numExperts (seen ++ [.sunk layer]) := once.append fun other isSunk => by
      cases isSunk
      exact last full
    refine Generator.Meets.bind (Generator.Meets.emit (R := fun seen' _ =>
      seen' = seen ++ [.sunk layer]) rfl) fun seen' _ isSeen => ?_
    subst isSeen
    cases sink layer with
    | some msg => exact handed.raise _
    | none =>
      refine Generator.Meets.pure ⟨rfl, by simp, handed, fun other isSunk => ?_⟩
      rcases mem_append.mp isSunk with pre | here
      · exact Or.inl pre
      · rw [mem_singleton] at here
        cases here
        exact Or.inr ⟨rfl, full⟩
  · rw [if_neg full]
    exact Generator.Meets.pure ⟨rfl, rfl, once, fun _ => Or.inl⟩

/-- The notes of a piece; a layer is handed over at its last row. -/
theorem noteRows_meets (rows : Nat) {seen : List (FillEvent H A W)} {counts : Nat → Nat}
    (once : SunkOnce numExperts seen) (within : counts layer + rows ≤ numExperts)
    (last : 0 < rows → counts layer + rows = numExperts →
      (.sunk layer : FillEvent H A W) ∉ seen ∧ LayerWritten numExperts seen layer) :
    Generator.Meets seen (noteRows sink numExperts layer rows counts)
      (Noted numExperts layer rows seen counts) (SunkOnce numExperts) := by
  induction rows generalizing seen counts with
  | zero =>
    refine Generator.Meets.pure ⟨?_, rfl, once, fun _ => Or.inl⟩
    rw [add_zero, update_eq_self]
  | succ rows ih =>
    refine Generator.Meets.bind (note_meets once fun full => last (Nat.succ_pos _) (by omega))
      fun middle counts1 noted => ?_
    obtain ⟨rfl, sameFills, onceMiddle, sunkMiddle⟩ := noted
    have here : update counts layer (counts layer + 1) layer = counts layer + 1 := update_self ..
    refine (ih onceMiddle (by rw [here]; omega) fun some full => ?_).mono
      fun seen' counts' noted => ?_
    · rw [here] at full
      obtain ⟨unsunk, written⟩ := last (Nat.succ_pos _) (by omega)
      refine ⟨fun isSunk => ?_, ?_⟩
      · rcases sunkMiddle layer isSunk with pre | now
        · exact unsunk pre
        · omega
      · unfold LayerWritten
        rw [sameFills]
        exact written
    · refine ⟨?_, noted.fills.trans sameFills, noted.once, fun other isSunk => ?_⟩
      · rw [noted.counted, here, update_idem]
        congr 1
        omega
      · rcases noted.sunk other isSunk with pre | now
        · rcases sunkMiddle other pre with first | second
          · exact Or.inl first
          · exact Or.inr ⟨second.1, by rw [here] at *; omega⟩
        · exact Or.inr ⟨now.1, by rw [← now.2, here]; omega⟩

end Notes

/-! ### A piece -/

section Pieces

def OwnRow (kernel : ExpertKernel H A V W) (own : Int → Int → ExpertTensors V → Prop)
    (layer expert : Nat) (written : Option (PackedRow H A W)) : Prop :=
  ∃ tensors row, own layer expert tensors ∧ kernel.packRow tensors = .ok row ∧ written = some row

def markedRows (numExperts : Nat) (st : FillState) (layer : Nat) : Finset Nat :=
  (Finset.range numExperts).filter fun expert => st.written layer expert = true

/-- The marks, the notes and the history agree. -/
structure Filling (kernel : ExpertKernel H A V W) (own : Int → Int → ExpertTensors V → Prop)
    (numLayers numExperts : Nat) (tracked : Bool) (seen : List (FillEvent H A W)) (st : FillState) :
    Prop where
  inside : ∀ fill ∈ fills seen, fill.layer < numLayers ∧ fill.e1 ≤ numExperts
  marked : ∀ layer expert, ((fills seen).filter fun fill => fill.covers layer expert).length =
    if st.written layer expert then 1 else 0
  counted : tracked = true → ∀ layer, st.counts layer = (markedRows numExperts st layer).card
  sunk : ∀ layer, (.sunk layer : FillEvent H A W) ∈ seen →
    tracked = true ∧ (markedRows numExperts st layer).card = numExperts
  once : SunkOnce numExperts seen
  owned : ∀ fill ∈ fills seen, ∀ k, fill.e0 + k < fill.e1 →
    OwnRow kernel own fill.layer (fill.e0 + k) fill.rows[k]?

variable {kernel : ExpertKernel H A V W} {own : Int → Int → ExpertTensors V → Prop}
  {numLayers numExperts : Nat} {tracked : Bool} {seen : List (FillEvent H A W)} {st : FillState}

theorem filling_nil : Filling kernel own numLayers numExperts tracked [] .empty where
  inside fill mem := by cases mem
  marked layer expert := rfl
  counted _ layer := by
    unfold markedRows FillState.empty
    rw [Finset.filter_false_of_mem fun _ _ => Bool.false_ne_true, Finset.card_empty]
  sunk layer mem := by cases mem
  once := SunkOnce.nil
  owned fill mem := by cases mem

theorem Filling.written_of_marked (filling : Filling kernel own numLayers numExperts tracked seen st)
    {layer expert : Nat} (isMarked : st.written layer expert = true) :
    ∃ fill ∈ fills seen, fill.covers layer expert := by
  have count := filling.marked layer expert
  rw [if_pos isMarked] at count
  obtain ⟨fill, only⟩ := length_eq_one_iff.mp count
  have mem : fill ∈ (fills seen).filter fun fill => fill.covers layer expert := by
    rw [only]
    exact mem_singleton_self fill
  exact ⟨fill, mem_filter.mp mem⟩

section Mark

variable {layer e0 e1 : Nat}

theorem mark_other {other : Nat} (apart : other ≠ layer) (expert : Nat) :
    st.mark layer e0 e1 other expert = st.written other expert := by
  unfold FillState.mark
  rw [decide_eq_false fun same => apart same.1, Bool.false_or]

theorem mark_here (expert : Nat) : st.mark layer e0 e1 layer expert =
    (decide (e0 ≤ expert ∧ expert < e1) || st.written layer expert) := by
  unfold FillState.mark
  simp only [true_and]

theorem card_marked (within : e1 ≤ numExperts)
    (unmarked : ∀ expert, e0 ≤ expert → expert < e1 → st.written layer expert = false)
    (counts : Nat → Nat) :
    (markedRows numExperts { written := st.mark layer e0 e1, counts := counts } layer).card =
      (markedRows numExperts st layer).card + (e1 - e0) := by
  have union : markedRows numExperts { written := st.mark layer e0 e1, counts := counts } layer =
      markedRows numExperts st layer ∪ Finset.Ico e0 e1 := by
    ext expert
    unfold markedRows
    rw [Finset.mem_union, Finset.mem_filter, Finset.mem_filter, Finset.mem_Ico, Finset.mem_range]
    dsimp only
    rw [mark_here, Bool.or_eq_true, decide_eq_true_eq]
    constructor
    · rintro ⟨isExpert, new | old⟩
      · exact Or.inr new
      · exact Or.inl ⟨isExpert, old⟩
    · rintro (old | new)
      · exact ⟨old.1, Or.inr old.2⟩
      · exact ⟨by omega, Or.inl new⟩
  have apart : Disjoint (markedRows numExperts st layer) (Finset.Ico e0 e1) := by
    rw [Finset.disjoint_left]
    intro expert old new
    rw [Finset.mem_Ico] at new
    have isMarked := (Finset.mem_filter.mp old).2
    rw [unmarked expert new.1 new.2] at isMarked
    cases isMarked
  rw [union, Finset.card_union_of_disjoint apart, Nat.card_Ico]

theorem marked_other {other : Nat} (apart : other ≠ layer) (counts : Nat → Nat) :
    markedRows numExperts { written := st.mark layer e0 e1, counts := counts } other =
      markedRows numExperts st other := by
  unfold markedRows
  simp only [mark_other apart]

end Mark

theorem all_marked {layer : Nat} (full : (markedRows numExperts st layer).card = numExperts)
    {expert : Nat} (isExpert : expert < numExperts) : st.written layer expert = true := by
  have whole : (markedRows numExperts st layer).card = (Finset.range numExperts).card := by
    rw [full, Finset.card_range]
  exact Finset.card_filter_eq_iff.mp whole expert (Finset.mem_range.mpr isExpert)

theorem pack_rows {tensors : RoleDict V} {count : Nat} {rows : List (PackedRow H A W)}
    (packed : kernel.pack tensors count = .ok rows) {k : Nat} (lt : k < count) :
    ∃ row, kernel.packRow (tensors.slice k) = .ok row ∧ rows[k]? = some row := by
  have related := mapM_eq_ok packed
  have length := related.length_eq
  rw [length_range] at length
  have isRow : k < rows.length := by omega
  refine ⟨rows[k], ?_, getElem?_eq_getElem isRow⟩
  have each := (forall₂_iff_get.mp related).2 k (by rw [length_range]; exact lt) isRow
  simpa using each

theorem Filling.fill (filling : Filling kernel own numLayers numExperts tracked seen st)
    {fill : Fill H A W} (isLayer : fill.layer < numLayers) (within : fill.e1 ≤ numExperts)
    (unmarked : ∀ expert, fill.e0 ≤ expert → expert < fill.e1 →
      st.written fill.layer expert = false) (some : fill.e0 < fill.e1)
    (owned : ∀ k, fill.e0 + k < fill.e1 → OwnRow kernel own fill.layer (fill.e0 + k) fill.rows[k]?)
    {counts : Nat → Nat} {seen' : List (FillEvent H A W)}
    (isFills : fills seen' = fills seen ++ [fill]) (once : SunkOnce numExperts seen')
    (counted : tracked = true →
      counts = Function.update st.counts fill.layer (st.counts fill.layer + (fill.e1 - fill.e0)))
    (sunk : ∀ other, (.sunk other : FillEvent H A W) ∈ seen' →
      (.sunk other : FillEvent H A W) ∈ seen ∨ (tracked = true ∧ other = fill.layer ∧
        st.counts fill.layer + (fill.e1 - fill.e0) = numExperts)) :
    Filling kernel own numLayers numExperts tracked seen'
      { written := st.mark fill.layer fill.e0 fill.e1, counts := counts } where
  inside other mem := by
    rw [isFills] at mem
    rcases mem_append.mp mem with pre | here
    · exact filling.inside other pre
    · rw [mem_singleton.mp here]
      exact ⟨isLayer, within⟩
  marked layer expert := by
    rw [isFills, filter_append, length_append, filling.marked]
    by_cases isCovered : fill.covers layer expert = true
    · have last : ([fill].filter fun fill => fill.covers layer expert) = [fill] :=
        filter_cons_of_pos isCovered
      obtain ⟨rfl, lower, upper⟩ := of_decide_eq_true isCovered
      have isMarked : st.mark fill.layer fill.e0 fill.e1 fill.layer expert = true := by
        rw [mark_here, decide_eq_true ⟨lower, upper⟩, Bool.true_or]
      rw [last, unmarked expert lower upper]
      exact (if_pos isMarked).symm
    · have unchanged : st.mark fill.layer fill.e0 fill.e1 layer expert = st.written layer expert := by
        unfold FillState.mark
        rw [decide_eq_false, Bool.false_or]
        rintro ⟨rfl, lower, upper⟩
        exact isCovered (decide_eq_true ⟨rfl, lower, upper⟩)
      have last : ([fill].filter fun fill => fill.covers layer expert) = [] :=
        filter_cons_of_neg isCovered
      rw [last, ← unchanged]
      rfl
  counted isTracked layer := by
    rw [counted isTracked]
    show update st.counts fill.layer _ layer = _
    by_cases here : layer = fill.layer
    · subst here
      rw [update_self, card_marked within unmarked, filling.counted isTracked]
    · rw [update_of_ne here, marked_other here, filling.counted isTracked]
  sunk layer isSunk := by
    rcases sunk layer isSunk with pre | ⟨isTracked, rfl, full⟩
    · obtain ⟨isTracked, full⟩ := filling.sunk layer pre
      by_cases here : layer = fill.layer
      · subst here
        -- a whole layer has no row left for a piece
        have isMarked := all_marked full (show fill.e0 < numExperts by omega)
        rw [unmarked fill.e0 le_rfl some] at isMarked
        cases isMarked
      · rw [marked_other here]
        exact ⟨isTracked, full⟩
    · rw [card_marked within unmarked, ← filling.counted isTracked]
      exact ⟨isTracked, full⟩
  once := once
  owned other mem := by
    rw [isFills] at mem
    rcases mem_append.mp mem with pre | here
    · exact filling.owned other pre
    · rw [mem_singleton.mp here]
      exact owned

/-- **A piece keeps the bookkeeping**, for a row that is marked is refused. -/
theorem fillPiece_meets {sink : Option (Nat → Option String)}
    (filling : Filling kernel own numLayers numExperts sink.isSome seen st) {piece : Piece V}
    (isOwn : ∀ k : Nat, piece.e0 + k < piece.e1 →
      own piece.layer (piece.e0 + k) (piece.tensors.slice k)) :
    Generator.Meets seen (fillPiece kernel numLayers numExperts sink st piece)
      (Filling kernel own numLayers numExperts sink.isSome) (SunkOnce numExperts) := by
  unfold fillPiece
  by_cases inRange : (0 ≤ piece.layer ∧ piece.layer < numLayers) ∧
      (0 ≤ piece.e0 ∧ piece.e0 < piece.e1 ∧ piece.e1 ≤ numExperts)
  swap
  · rw [if_pos inRange]
    exact filling.once.raise _
  rw [if_neg (not_not.mpr inRange)]
  by_cases twice : ((range (piece.e1.toNat - piece.e0.toNat)).any fun k =>
      st.written piece.layer.toNat (piece.e0.toNat + k)) = true
  · rw [if_pos twice]
    exact filling.once.raise _
  rw [if_neg twice]
  cases packed : kernel.pack piece.tensors (piece.e1.toNat - piece.e0.toNat) with
  | error msg => exact filling.once.raise _
  | ok rows =>
    obtain ⟨⟨layerNonneg, isLayer⟩, lower, some, upper⟩ := inRange
    obtain ⟨fill, isFill⟩ : ∃ fill : Fill H A W, fill =
        ⟨piece.layer.toNat, piece.e0.toNat, piece.e1.toNat, rows⟩ := ⟨_, rfl⟩
    have unmarked : ∀ expert, fill.e0 ≤ expert → expert < fill.e1 →
        st.written fill.layer expert = false := by
      intro expert after pre
      by_contra isMarked
      refine twice (any_eq_true.mpr ⟨expert - fill.e0, mem_range.mpr ?_, ?_⟩)
      · subst isFill
        dsimp only at after pre ⊢
        omega
      · subst isFill
        rw [Nat.add_sub_cancel' after]
        exact eq_true_of_ne_false isMarked
    have owned : ∀ k, fill.e0 + k < fill.e1 →
        OwnRow kernel own fill.layer (fill.e0 + k) fill.rows[k]? := by
      intro k lt
      subst isFill
      dsimp only at lt ⊢
      obtain ⟨row, isPacked, isRow⟩ := pack_rows packed (show k < _ by omega)
      have mine := isOwn k (by omega)
      rw [← Int.toNat_of_nonneg layerNonneg, ← Int.toNat_of_nonneg lower] at mine
      exact ⟨_, row, mine, isPacked, isRow⟩
    have nonempty : fill.e0 < fill.e1 := by
      subst isFill
      dsimp only
      omega
    have within : fill.e1 ≤ numExperts := by
      subst isFill
      dsimp only
      omega
    have inLayers : fill.layer < numLayers := by
      subst isFill
      dsimp only
      omega
    have keeps := fun counts seen' => @Filling.fill H A V W kernel own numLayers numExperts
      sink.isSome seen st filling fill inLayers within unmarked nonempty owned counts seen'
    have written : SunkOnce numExperts (seen ++ [.filled fill]) :=
      filling.once.append fun layer isSunk => by cases isSunk
    subst isFill
    refine Generator.Meets.bind (Generator.Meets.emit (R := fun middle _ => middle = seen ++
      [.filled ⟨piece.layer.toNat, piece.e0.toNat, piece.e1.toNat, rows⟩]) rfl)
      fun middle _ isMiddle => ?_
    subst isMiddle
    cases sink with
    | none =>
      refine Generator.Meets.bind (Generator.Meets.pure (Q := fun seen' counts => seen' = seen ++
        [.filled ⟨piece.layer.toNat, piece.e0.toNat, piece.e1.toNat, rows⟩] ∧
          counts = st.counts) ⟨rfl, rfl⟩) fun seen' counts same => ?_
      obtain ⟨rfl, rfl⟩ := same
      refine Generator.Meets.pure (keeps st.counts _ (by simp) written
        (fun isTracked => by cases isTracked) fun other isSunk => Or.inl ?_)
      rcases mem_append.mp isSunk with pre | here
      · exact pre
      · rw [mem_singleton] at here
        cases here
    | some sink =>
      have counted := filling.counted rfl piece.layer.toNat
      have more := card_marked within unmarked st.counts
      have most : (markedRows numExperts
          { written := st.mark piece.layer.toNat piece.e0.toNat piece.e1.toNat,
            counts := st.counts } piece.layer.toNat).card ≤ numExperts :=
        (Finset.card_filter_le _ _).trans_eq (Finset.card_range _)
      dsimp only at more nonempty
      refine Generator.Meets.bind (noteRows_meets _ written (by omega) fun _ full => ⟨?_, ?_⟩)
        fun seen' counts noted => Generator.Meets.pure (keeps counts seen' ?_ noted.once
          (fun _ => noted.counted) fun other isSunk => ?_)
      · -- a layer that was handed over had no row left
        intro isSunk
        rcases mem_append.mp isSunk with pre | here
        · have whole := (filling.sunk _ pre).2
          omega
        · rw [mem_singleton] at here
          cases here
      · intro expert isExpert
        have whole : (markedRows numExperts
            { written := st.mark piece.layer.toNat piece.e0.toNat piece.e1.toNat,
              counts := st.counts } piece.layer.toNat).card = numExperts := by omega
        have isMarked := all_marked whole isExpert
        dsimp only at isMarked
        rw [mark_here, Bool.or_eq_true, decide_eq_true_eq] at isMarked
        rw [fills_append, fills_filled]
        rcases isMarked with new | old
        · exact ⟨_, mem_append_right _ (mem_singleton_self _), decide_eq_true ⟨rfl, new⟩⟩
        · obtain ⟨fill, mem, isCovered⟩ := filling.written_of_marked old
          exact ⟨fill, mem_append_left _ mem, isCovered⟩
      · rw [noted.fills, fills_append, fills_filled]
      · rcases noted.sunk other isSunk with pre | now
        · rcases mem_append.mp pre with first | here
          · exact Or.inl first
          · rw [mem_singleton] at here
            cases here
        · exact Or.inr ⟨rfl, now⟩

end Pieces

/-! ### A run -/

section Runs

variable {kernel : ExpertKernel H A V W} {own : Int → Int → ExpertTensors V → Prop}
  {numLayers numExperts : Nat} {sink : Option (Nat → Option String)}

theorem fillStream_meets {reader : Reader V Item} {stream : List Item} {invariant : reader.Pending → Prop}
    (owned : reader.Owned stream own invariant) (broken : Option String) (items : List Item)
    (fromStream : ∀ item ∈ items, item ∈ stream) {pending : reader.Pending}
    (holds : invariant pending) {seen : List (FillEvent H A W)} {st : FillState}
    (filling : Filling kernel own numLayers numExperts sink.isSome seen st) :
    Generator.Meets seen
      (fillStream kernel numLayers numExperts sink reader broken items pending st)
      (Filling kernel own numLayers numExperts sink.isSome) (SunkOnce numExperts) := by
  induction items generalizing pending seen st with
  | nil =>
    unfold fillStream
    split
    · exact filling.once.raise _
    · split
      · exact filling.once.raise _
      · exact Generator.Meets.pure filling
  | cons item items ih =>
    have later := fun other mem => fromStream other (mem_cons_of_mem item mem)
    have kept := owned.next pending holds item (fromStream item mem_cons_self)
    unfold fillStream
    split
    · exact filling.once.raise _
    · next pending' stepped => exact ih later (kept pending' none stepped).1 filling
    · next pending' piece stepped =>
        obtain ⟨holds', isOwn⟩ := kept pending' (some piece) stepped
        exact Generator.Meets.bind (fillPiece_meets filling (isOwn piece rfl))
          fun seen' st' filling' => ih later holds' filling'

def BanksFilled (kernel : ExpertKernel H A V W) (own : Int → Int → ExpertTensors V → Prop)
    (numLayers numExperts : Nat) (seen : List (FillEvent H A W)) : Prop :=
  ∀ layer < numLayers, ∀ expert < numExperts, ∃ tensors row, own layer expert tensors ∧
    kernel.packRow tensors = .ok row ∧
    (∀ role, bankWrites seen role layer expert = [some (row.host role)]) ∧
    ∀ role, alphaWrites numExperts seen role (layer * numExperts + expert) =
      [some (row.resident role)]

theorem coversAlpha_eq {fill : Fill H A W} (within : fill.e1 ≤ numExperts) {layer expert : Nat}
    (isExpert : expert < numExperts) :
    fill.coversAlpha numExperts (layer * numExperts + expert) = fill.covers layer expert := by
  unfold Fill.coversAlpha Fill.covers
  rw [decide_eq_decide]
  constructor
  · rintro ⟨lower, upper⟩
    rcases Nat.lt_trichotomy fill.layer layer with pre | same | after
    · have next : (fill.layer + 1) * numExperts ≤ layer * numExperts := Nat.mul_le_mul_right _ pre
      rw [Nat.succ_mul] at next
      omega
    · subst same
      exact ⟨rfl, by omega, by omega⟩
    · have next : (layer + 1) * numExperts ≤ fill.layer * numExperts := Nat.mul_le_mul_right _ after
      rw [Nat.succ_mul] at next
      omega
  · rintro ⟨rfl, lower, upper⟩
    omega

theorem Filling.banks {tracked : Bool} {seen : List (FillEvent H A W)} {st : FillState}
    (filling : Filling kernel own numLayers numExperts tracked seen st)
    (complete : st.missing numLayers numExperts = []) :
    BanksFilled kernel own numLayers numExperts seen := by
  intro layer isLayer expert isExpert
  have isMarked : st.written layer expert = true := by
    by_contra unmarked
    have isMissing : (layer, expert) ∈ st.missing numLayers numExperts := by
      refine mem_flatMap.mpr ⟨layer, mem_range.mpr isLayer, mem_map.mpr
        ⟨expert, mem_filter.mpr ⟨mem_range.mpr isExpert, ?_⟩, rfl⟩⟩
      rw [eq_false_of_ne_true unmarked]
      rfl
    rw [complete] at isMissing
    cases isMissing
  have count := filling.marked layer expert
  rw [if_pos isMarked] at count
  obtain ⟨fill, only⟩ := length_eq_one_iff.mp count
  have mem : fill ∈ (fills seen).filter fun fill => fill.covers layer expert := by
    rw [only]
    exact mem_singleton_self fill
  obtain ⟨isFill, isCovered⟩ := mem_filter.mp mem
  obtain ⟨rfl, lower, upper⟩ := of_decide_eq_true isCovered
  obtain ⟨tensors, row, mine, isPacked, isRow⟩ := filling.owned fill isFill (expert - fill.e0)
    (by omega)
  rw [Nat.add_sub_cancel' lower] at mine
  have onlyAlpha : ((fills seen).filter fun fill' =>
      fill'.coversAlpha numExperts (fill.layer * numExperts + expert)) = [fill] := by
    rw [← only]
    exact filter_congr fun other isOther => coversAlpha_eq (filling.inside other isOther).2 isExpert
  refine ⟨tensors, row, mine, isPacked, fun role => ?_, fun role => ?_⟩
  · unfold bankWrites
    rw [only, map_singleton, isRow]
    rfl
  · unfold alphaWrites
    rw [onlyAlpha, map_singleton, Nat.add_sub_add_left, isRow]
    rfl

theorem buildExpertBanks_meets {reader : Reader V Item} {stream : List Item}
    {invariant : reader.Pending → Prop} (owned : reader.Owned stream own invariant)
    (broken : Option String) :
    Generator.Meets [] (buildExpertBanks kernel numLayers numExperts sink reader stream broken)
      (fun seen _ => SunkOnce numExperts seen ∧ BanksFilled kernel own numLayers numExperts seen)
      (SunkOnce numExperts) := by
  unfold buildExpertBanks
  split
  · exact SunkOnce.nil.raise _
  · refine Generator.Meets.bind (fillStream_meets owned broken stream (fun _ => id) owned.start
      filling_nil) fun seen st filling => ?_
    split
    · next complete => exact Generator.Meets.pure ⟨filling.once, filling.banks complete⟩
    · exact filling.once.raise _

/-- A run raises or fills the banks; in either case a layer is handed over once, when it is whole. -/
structure FillsOrRaises (kernel : ExpertKernel H A V W) (own : Int → Int → ExpertTensors V → Prop)
    (numLayers numExperts : Nat) (run : Generator (FillEvent H A W) Unit) : Prop where
  filled : run.result ≠ none → BanksFilled kernel own numLayers numExperts run.events
  once : SunkOnce numExperts run.events

theorem fillsOrRaises {reader : Reader V Item} {stream : List Item}
    {invariant : reader.Pending → Prop} (owned : reader.Owned stream own invariant)
    (broken : Option String) :
    FillsOrRaises kernel own numLayers numExperts
      (buildExpertBanks kernel numLayers numExperts sink reader stream broken) := by
  have meets := @buildExpertBanks_meets H A V W Item kernel own numLayers numExperts sink reader
    stream invariant owned broken
  cases done : (buildExpertBanks kernel numLayers numExperts sink reader stream broken).result with
  | none => exact ⟨fun ret => absurd done ret, meets.raises done⟩
  | some value => exact ⟨fun _ => (meets.returns done).2, (meets.returns done).1⟩

end Runs

/-- **Expert banks**: whatever the stream brings, with either reader and any sink, a run raises or
ends with every row written once from a complete set of its own expert's tensors. -/
theorem expert_banks_filled (kernel : ExpertKernel H A V W) (numLayers numExperts : Nat)
    (sink : Option (Nat → Option String)) (broken : Option String) :
    (∀ (flatten : V → V) (locate : String → Except String (Option (Int × Int × String)))
      (tensorsPerExpert : Nat) (stream : List (String × V)),
      FillsOrRaises kernel (PerExpertOwn stream flatten locate tensorsPerExpert) numLayers numExperts
        (buildExpertBanks kernel numLayers numExperts sink
          (perExpertPieces flatten locate tensorsPerExpert) stream broken)) ∧
    ∀ (parseInt : String → Option Int) (cfg : ExpertConfig)
      (stream : List (String × RoleTensor V)),
      FillsOrRaises kernel (StackedOwn stream parseInt cfg) numLayers numExperts
        (buildExpertBanks kernel numLayers numExperts sink (stackedExpertPieces parseInt cfg)
          stream broken) :=
  ⟨fun flatten locate tensorsPerExpert stream =>
    fillsOrRaises (perExpert_owned stream flatten locate tensorsPerExpert) broken,
    fun parseInt cfg stream => fillsOrRaises (stacked_owned stream parseInt cfg) broken⟩

/-- Two experts of one layer, the tensors of the second around those of the first. -/
example : (buildExpertBanks (⟨fun tensors => .ok ⟨fun _ => tensors.length, fun _ => 0⟩⟩ :
    ExpertKernel Unit Unit Nat Nat) 1 2 (some fun _ => none)
    (perExpertPieces id (fun name => .ok (some (0, name.length / 2, name))) 2)
    [("abc", 5), ("", 6), ("a", 7), ("ab", 8)] none).result = some () := by
  decide

end FreeToken
