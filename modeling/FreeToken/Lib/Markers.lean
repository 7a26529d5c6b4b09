/-
**Markers in a text that arrives in chunks.**
-/

import Mathlib.Data.List.Infix
import Mathlib.Data.Nat.Find

namespace FreeToken.Markers

open List Option

variable {α : Type*} [DecidableEq α]

/-! ### The first occurrence -/

/-- The text before the first occurrence of a marker and the text after it. -/
def cut (marker text : List α) : Option (List α × List α) := text.dropInfix? marker

variable (markers : List (List α)) (text : List α)

/-- The first occurrence of any of the markers: the text before it, the marker, and the text after
it. Of two markers at one place the first of the list is taken. -/
def firstCut : Option (List α × List α × List α) :=
  markers.foldl (fun best marker =>
    match cut marker text, best with
    | none, _ => best
    | some (pre, after), none => some (pre, marker, after)
    | some (pre, after), some (first, _, _) =>
        if pre.length < first.length then some (pre, marker, after) else best) none

/-- No marker lies inside another. The first marker of a text then stays the first one when the text
grows (`firstCut_append`). -/
def Separate : Prop := ∀ inner ∈ markers, ∀ outer ∈ markers, inner <:+: outer → inner = outer

instance (markers : List (List α)) : Decidable (Separate markers) :=
  inferInstanceAs (Decidable (∀ inner ∈ markers, ∀ outer ∈ markers, inner <:+: outer → inner = outer))

section Cut

variable {marker text pre after more : List α} {markers : List (List α)}

theorem cut_eq_some : cut marker text = some (pre, after) ↔ text = pre ++ (marker ++ after) ∧
      ∀ prev, prev ++ marker <+: text → pre.length ≤ prev.length := by
  unfold cut
  rw [dropInfix?_eq_some_iff]
  constructor
  · rintro ⟨⟨found, rfl, isMarker⟩, first⟩
    obtain rfl := eq_of_beq isMarker
    refine ⟨append_assoc _ _ _, fun prev ⟨rest, occurs⟩ => ?_⟩
    exact first prev found rest occurs.symm isMarker
  · rintro ⟨rfl, first⟩
    refine ⟨⟨marker, (append_assoc _ _ _).symm, beq_self_eq_true marker⟩, ?_⟩
    rintro prev found rest occurs isMarker
    obtain rfl := eq_of_beq isMarker
    exact first prev ⟨rest, occurs.symm⟩

theorem cut_eq_none : cut marker text = none ↔ ¬marker <:+: text := by
  constructor
  · rintro none ⟨front, back, rfl⟩
    classical
    -- the shortest front is the first occurrence
    have occurs : ∃ size front', front'.length = size ∧ front' ++ marker <+: front ++ marker ++ back :=
      ⟨_, front, rfl, prefix_append _ _⟩
    obtain ⟨first, isFirst, rest, split⟩ := Nat.find_spec occurs
    have found : cut marker (front ++ marker ++ back) = some (first, rest) := by
      refine cut_eq_some.mpr ⟨by rw [← append_assoc, split], fun prev at' => ?_⟩
      rw [isFirst]
      exact Nat.find_min' occurs ⟨prev, rfl, at'⟩
    rw [none] at found
    cases found
  · intro absent
    cases found : cut marker text with
    | none => rfl
    | some parts =>
      obtain ⟨rfl, -⟩ := cut_eq_some.mp found
      exact absurd ⟨parts.1, parts.2, append_assoc _ _ _⟩ absent

theorem cut_of_prefix (marker after : List α) : cut marker (marker ++ after) = some ([], after) :=
  cut_eq_some.mpr ⟨rfl, fun _ _ => Nat.zero_le _⟩

theorem cut_isSome : (∃ parts, cut marker text = some parts) ↔ marker <:+: text := by
  rw [← isSome_iff_exists, ← not_iff_not, ← cut_eq_none, not_isSome_iff_eq_none]

omit [DecidableEq α] in
theorem infix_of_cover {inner outer front front' : List α} (within : front' ++ inner <+: text)
    (covers : front ++ outer <+: text) (starts : front.length ≤ front'.length)
    (ends : front'.length + inner.length ≤ front.length + outer.length) : inner <:+: outer := by
  have comparable : front' ++ inner <+: front ++ outer := by
    apply prefix_of_prefix_length_le within covers
    rwa [length_append, length_append]
  have isFront : front <+: front' := by
    apply prefix_of_prefix_length_le ((prefix_append _ _).trans covers)
      ((prefix_append _ _).trans within) starts
  obtain ⟨gap, rfl⟩ := isFront
  rw [append_assoc, prefix_append_right_inj] at comparable
  obtain ⟨rest, split⟩ := comparable
  exact ⟨gap, rest, split⟩

theorem firstCut_snoc (markers : List (List α)) (marker text : List α) :
    firstCut (markers ++ [marker]) text = match cut marker text, firstCut markers text with
      | none, best => best
      | some (pre, after), none => some (pre, marker, after)
      | some (pre, after), some (first, found) =>
        if pre.length < first.length then some (pre, marker, after)
        else some (first, found) := by
  unfold firstCut
  rw [foldl_append]
  generalize foldl _ none markers = best
  cases found : cut marker text with
  | none => simp [found]
  | some parts =>
    cases best with
    | none => simp [found]
    | some best => simp [found]

theorem firstCut_eq_none : firstCut markers text = none ↔ ∀ marker ∈ markers, ¬marker <:+: text := by
  induction markers using reverseRecOn with
  | nil => simp [firstCut]
  | append_singleton markers marker ih =>
    rw [firstCut_snoc]
    simp only [mem_append, mem_singleton]
    cases found : cut marker text with
    | none =>
      have absent := cut_eq_none.mp found
      refine ih.trans ⟨fun others other mem => ?_, fun all other mem => all other (.inl mem)⟩
      rcases mem with mem | rfl
      · exact others other mem
      · exact absent
    | some parts =>
      have present := cut_isSome.mp ⟨parts, found⟩
      constructor
      · cases firstCut markers text with
        | none => nofun
        | some best =>
          dsimp only
          split
          · exact nofun
          · exact nofun
      · exact fun all => absurd present (all marker (.inr rfl))

theorem firstCut_spec (found : firstCut markers text = some (pre, marker, after)) :
    marker ∈ markers ∧ text = pre ++ (marker ++ after) ∧
      ∀ other ∈ markers, ∀ prev, prev ++ other <+: text → pre.length ≤ prev.length := by
  induction markers using reverseRecOn generalizing pre marker after with
  | nil => cases found
  | append_singleton markers last ih =>
    rw [firstCut_snoc] at found
    simp only [mem_append, mem_singleton]
    cases here : cut last text with
    | none =>
      rw [here] at found
      obtain ⟨mem, split, first⟩ := ih found
      refine ⟨.inl mem, split, fun other isOther prev occurs => ?_⟩
      rcases isOther with isOther | rfl
      · exact first other isOther prev occurs
      · exact absurd ((suffix_append _ _).isInfix.trans occurs.isInfix) (cut_eq_none.mp here)
    | some parts =>
      obtain ⟨front, back⟩ := parts
      obtain ⟨split, first⟩ := cut_eq_some.mp here
      rw [here] at found
      cases others : firstCut markers text with
      | none =>
        rw [others] at found
        cases found
        refine ⟨.inr rfl, split, fun other isOther prev occurs => ?_⟩
        rcases isOther with isOther | rfl
        · exact absurd ((suffix_append _ _).isInfix.trans occurs.isInfix)
            (firstCut_eq_none.mp others other isOther)
        · exact first prev occurs
      | some best =>
        obtain ⟨front', marker', back'⟩ := best
        obtain ⟨member', split', first'⟩ := ih others
        rw [others] at found
        dsimp only at found
        split at found
        · next sooner =>
          cases found
          refine ⟨.inr rfl, split, fun other isOther prev occurs => ?_⟩
          rcases isOther with isOther | rfl
          · exact (le_of_lt sooner).trans (first' other isOther prev occurs)
          · exact first prev occurs
        · next later =>
          cases found
          refine ⟨.inl member', split', fun other isOther prev occurs => ?_⟩
          rcases isOther with isOther | rfl
          · exact first' other isOther prev occurs
          · exact (not_lt.mp later).trans (first prev occurs)

theorem firstCut_eq_some (apart : Separate markers) :
    firstCut markers text = some (pre, marker, after) ↔
      marker ∈ markers ∧ text = pre ++ (marker ++ after) ∧
        ∀ other ∈ markers, ∀ prev, prev ++ other <+: text → pre.length ≤ prev.length := by
  refine ⟨firstCut_spec, fun ⟨mem, split, first⟩ => ?_⟩
  have occurs : pre ++ marker <+: text := ⟨after, by rw [split, append_assoc]⟩
  cases found : firstCut markers text with
  | none =>
    exact absurd ((suffix_append _ _).isInfix.trans occurs.isInfix)
      (firstCut_eq_none.mp found marker mem)
  | some best =>
    obtain ⟨before', marker', after'⟩ := best
    obtain ⟨member', split', first'⟩ := firstCut_spec found
    have occurs' : before' ++ marker' <+: text := ⟨after', by rw [split', append_assoc]⟩
    have same : before'.length = pre.length :=
      (first' marker mem pre occurs).antisymm (first marker' member' before' occurs')
    obtain ⟨rfl, rest⟩ := append_inj (split'.symm.trans split) same
    have sameMarker : marker' = marker := by
      rcases le_total marker'.length marker.length with shorter | longer
      · exact apart _ member' _ mem (infix_of_cover occurs' occurs le_rfl (by omega))
      · exact (apart _ mem _ member' (infix_of_cover occurs occurs' le_rfl (by omega))).symm
    subst sameMarker
    rw [append_cancel_left rest]

theorem firstCut_append (apart : Separate markers) (more : List α)
    (found : firstCut markers text = some (pre, marker, after)) :
    firstCut markers (text ++ more) = some (pre, marker, after ++ more) := by
  obtain ⟨mem, rfl, first⟩ := firstCut_spec found
  refine (firstCut_eq_some apart).mpr ⟨mem, by simp only [append_assoc], ?_⟩
  intro other isOther prev occurs
  by_cases lt : (prev ++ other).length ≤ (pre ++ (marker ++ after)).length
  · exact first other isOther prev
      (prefix_of_prefix_length_le occurs (prefix_append _ _) lt)
  · -- it would end after the whole text, around the marker
    by_contra sooner
    have here : pre ++ marker <+: pre ++ (marker ++ after) ++ more :=
      ⟨after ++ more, by simp only [append_assoc]⟩
    simp only [length_append] at lt
    have same := apart _ mem _ isOther (infix_of_cover here occurs (by omega) (by omega))
    subst same
    omega

omit [DecidableEq α] in
theorem apart_singleton (marker : List α) : Separate [marker] := by
  intro inner isInner outer isOuter _
  rw [mem_singleton.mp isInner, mem_singleton.mp isOuter]

theorem cut_append (found : cut marker text = some (pre, after)) :
    cut marker (text ++ more) = some (pre, after ++ more) := by
  have alone : ∀ text : List α, firstCut [marker] text =
      (cut marker text).map fun (pre, after) => (pre, marker, after) := by
    intro text
    rw [← nil_append [marker], firstCut_snoc]
    cases cut marker text with
    | none => rfl
    | some parts => rfl
  have grown := firstCut_append (apart_singleton marker) more
    (show firstCut [marker] text = some (pre, marker, after) by rw [alone, found]; rfl)
  rw [alone] at grown
  cases here : cut marker (text ++ more) with
  | none =>
    rw [here] at grown
    cases grown
  | some parts =>
    rw [here] at grown
    obtain ⟨isBefore, -, isAfter⟩ := by simpa only [map_some, some.injEq, Prod.mk.injEq] using grown
    rw [← isBefore, ← isAfter]

theorem cut_of_append (more : List α)
    (found : cut marker (text ++ more) = some (pre, after ++ more)) :
    cut marker text = some (pre, after) := by
  obtain ⟨split, first⟩ := cut_eq_some.mp found
  refine cut_eq_some.mpr ⟨?_, fun prev occurs => ?_⟩
  · rw [← append_assoc, ← append_assoc] at split
    rw [← append_assoc]
    exact append_cancel_right split
  · exact first prev (occurs.trans (prefix_append _ _))

theorem firstCut_of_append (apart : Separate markers) (more : List α)
    (found : firstCut markers (text ++ more) = some (pre, marker, after ++ more)) :
    firstCut markers text = some (pre, marker, after) := by
  obtain ⟨mem, split, first⟩ := firstCut_spec found
  refine (firstCut_eq_some apart).mpr ⟨mem, ?_, fun other isOther prev occurs => ?_⟩
  · rw [← append_assoc, ← append_assoc] at split
    rw [← append_assoc]
    exact append_cancel_right split
  · exact first other isOther prev (occurs.trans (prefix_append _ _))

theorem cut_skip {front rest : List α}
    (late : ∀ prev, prev ++ marker <+: front ++ rest → front.length ≤ prev.length) :
    cut marker (front ++ rest) = (cut marker rest).map fun (pre, after) =>
      (front ++ pre, after) := by
  have lt : ∀ prev, prev ++ marker <+: front ++ rest →
      ∃ gap, prev = front ++ gap ∧ gap ++ marker <+: rest := by
    intro prev occurs
    obtain ⟨gap, rfl⟩ := prefix_of_prefix_length_le (prefix_append front rest)
      ((prefix_append _ _).trans occurs) (late prev occurs)
    rw [append_assoc, prefix_append_right_inj] at occurs
    exact ⟨gap, rfl, occurs⟩
  cases found : cut marker rest with
  | none =>
    refine cut_eq_none.mpr ?_
    rintro ⟨prev, back, split⟩
    obtain ⟨gap, -, occurs⟩ := lt prev ⟨back, split⟩
    exact cut_eq_none.mp found ((suffix_append _ _).isInfix.trans occurs.isInfix)
  | some parts =>
    obtain ⟨pre, after⟩ := parts
    obtain ⟨rfl, first⟩ := cut_eq_some.mp found
    refine cut_eq_some.mpr ⟨(append_assoc _ _ _).symm, fun prev occurs => ?_⟩
    obtain ⟨gap, rfl, occurs'⟩ := lt prev occurs
    have low := first gap occurs'
    rw [length_append, length_append]
    omega

theorem cut_behind {front gap rest after : List α}
    (found : cut marker (front ++ rest) = some (front ++ gap, after)) :
    cut marker rest = some (gap, after) := by
  have skipped := cut_skip fun prev occurs => by
    have low := (cut_eq_some.mp found).2 prev occurs
    rw [length_append] at low
    omega
  rw [found] at skipped
  obtain ⟨⟨pre, behind⟩, isCut, joined⟩ := map_eq_some_iff.mp skipped.symm
  obtain ⟨isFront, rfl⟩ := Prod.mk.inj joined
  rw [isCut, append_cancel_left isFront]

end Cut

/-! ### The end of a text that is still arriving -/

/-- The longest beginning of a marker with more than `best` and at most `size` elements at which the
text ends, or else `best`. -/
def longestBelow (marker text : List α) (best : Nat) : Nat → Nat
  | 0 => best
  | size + 1 =>
      if size < best then best
      else if marker.take (size + 1) <:+ text then size + 1
      else longestBelow marker text best size

/-- How much of the end of a text may be the beginning of a marker. What comes before it never
shrinks when the text grows (`safe_append`) and never reaches into a marker that the growing text
completes (`safe_le_cut`). -/
def longestPartial : Nat :=
  markers.foldl (fun best marker =>
    longestBelow marker text best (min (marker.length - 1) text.length)) 0

def safe : List α := text.take (text.length - longestPartial markers text)

def held : List α := text.drop (text.length - longestPartial markers text)

section Partial

variable {markers : List (List α)} {marker text more : List α} {best size : Nat}

theorem longestBelow_spec (marker text : List α) (best size : Nat) :
    best ≤ longestBelow marker text best size ∧
      (∀ kept ≤ size, marker.take kept <:+ text → kept ≤ longestBelow marker text best size) ∧
      (longestBelow marker text best size = best ∨ longestBelow marker text best size ≤ size ∧
        marker.take (longestBelow marker text best size) <:+ text) := by
  induction size with
  | zero => exact ⟨le_rfl, fun kept low _ => low.trans (Nat.zero_le _), .inl rfl⟩
  | succ size ih =>
    unfold longestBelow
    split
    · next small => exact ⟨le_rfl, fun kept low _ => low.trans small, .inl rfl⟩
    · next large =>
      split
      · next ends => exact ⟨by omega, fun kept low _ => low, .inr ⟨le_rfl, ends⟩⟩
      · next other =>
        obtain ⟨least, longest, attained⟩ := ih
        refine ⟨least, fun kept low ends => ?_, ?_⟩
        · rcases Nat.le_succ_iff.mp low with low | rfl
          · exact longest kept low ends
          · exact absurd ends other
        · rcases attained with same | ⟨low, ends⟩
          · exact .inl same
          · exact .inr ⟨Nat.le_succ_of_le low, ends⟩

theorem longestPartial_snoc (markers : List (List α)) (marker text : List α) :
    longestPartial (markers ++ [marker]) text =
      longestBelow marker text (longestPartial markers text)
        (min (marker.length - 1) text.length) := by
  unfold longestPartial
  rw [foldl_append]
  rfl

theorem longestPartial_attained (markers : List (List α)) (text : List α) :
    longestPartial markers text = 0 ∨ ∃ marker ∈ markers,
      longestPartial markers text < marker.length ∧ longestPartial markers text ≤ text.length ∧
        marker.take (longestPartial markers text) <:+ text := by
  induction markers using reverseRecOn with
  | nil => exact .inl rfl
  | append_singleton markers last ih =>
    rw [longestPartial_snoc]
    rcases (longestBelow_spec last text (longestPartial markers text)
      (min (last.length - 1) text.length)).2.2 with same | ⟨low, ends⟩
    · rw [same]
      rcases ih with zero | ⟨marker, mem, rest⟩
      · exact .inl zero
      · exact .inr ⟨marker, mem_append_left _ mem, rest⟩
    · rcases Nat.eq_zero_or_pos (longestBelow last text (longestPartial markers text)
        (min (last.length - 1) text.length)) with zero | pos
      · exact .inl zero
      · exact .inr ⟨last, mem_append_right _ (mem_singleton_self _), by omega, by omega, ends⟩

theorem longestPartial_le (markers : List (List α)) (text : List α) :
    longestPartial markers text ≤ text.length := by
  rcases longestPartial_attained markers text with zero | ⟨_, _, _, low, _⟩
  · rw [zero]
    exact Nat.zero_le _
  · exact low

theorem le_longestPartial (text : List α) (mem : marker ∈ markers) {part : List α} (starts : part <+: marker)
    (proper : part.length < marker.length) (ends : part <:+ text) :
    part.length ≤ longestPartial markers text := by
  induction markers using reverseRecOn with
  | nil => cases mem
  | append_singleton markers last ih =>
    rw [longestPartial_snoc]
    obtain ⟨least, longest, -⟩ := longestBelow_spec last text (longestPartial markers text)
      (min (last.length - 1) text.length)
    rcases mem_append.mp mem with prev | isLast
    · exact (ih prev).trans least
    · obtain rfl := mem_singleton.mp isLast
      have short := ends.length_le
      refine longest part.length (by omega) ?_
      rwa [← prefix_iff_eq_take.mp starts]

theorem safe_append_held (markers : List (List α)) (text : List α) :
    safe markers text ++ held markers text = text := take_append_drop _ _

theorem length_safe (markers : List (List α)) (text : List α) :
    (safe markers text).length = text.length - longestPartial markers text := by
  unfold safe
  rw [length_take]
  omega

theorem length_held (markers : List (List α)) (text : List α) :
    (held markers text).length = longestPartial markers text := by
  have low := longestPartial_le markers text
  unfold held
  rw [length_drop]
  omega

theorem held_prefix (markers : List (List α)) (text : List α) :
    held markers text = [] ∨ ∃ marker ∈ markers,
      held markers text <+: marker ∧ (held markers text).length < marker.length := by
  rcases longestPartial_attained markers text with zero | ⟨marker, mem, proper, low, ends⟩
  · refine .inl (eq_nil_of_length_eq_zero ?_)
    rw [length_held, zero]
  · refine .inr ⟨marker, mem, ?_, by rwa [length_held]⟩
    have same : held markers text = marker.take (longestPartial markers text) := by
      have suffix : held markers text <:+ text := drop_suffix _ _
      apply (suffix_of_suffix_length_le suffix ends ?_).eq_of_length
      · rw [length_held, length_take]
        omega
      · rw [length_held, length_take]
        omega
    rw [same]
    exact take_prefix _ _

theorem safe_append (markers : List (List α)) (text more : List α) :
    safe markers text <+: safe markers (text ++ more) := by
  have whole : safe markers text <+: text ++ more :=
    (List.take_prefix _ _).trans (prefix_append _ _)
  have grows : (safe markers text).length ≤ (safe markers (text ++ more)).length := by
    rw [length_safe, length_safe, length_append]
    by_contra shrinks
    -- the longer part that is held would have been held before
    rcases held_prefix markers (text ++ more) with none | ⟨marker, mem, starts, proper⟩
    · have zero := congrArg length none
      rw [length_held, length_nil] at zero
      omega
    · rw [length_held] at proper
      have long := longestPartial_le markers (text ++ more)
      rw [length_append] at long
      have split : held markers (text ++ more) =
          text.drop (text.length - (longestPartial markers (text ++ more) - more.length)) ++ more := by
        unfold held
        rw [length_append, drop_append_of_le_length (by omega)]
        congr 2
        omega
      rw [split] at starts
      have part := le_longestPartial text mem
        ((prefix_append _ _).trans starts) (by rw [length_drop]; omega) (drop_suffix _ _)
      rw [length_drop] at part
      omega
  exact prefix_of_prefix_length_le whole (List.take_prefix _ _) grows

theorem safe_le_cut {pre : List α} (mem : marker ∈ markers)
    (occurs : pre ++ marker <+: text ++ more) (absent : ¬marker <:+: text) :
    (safe markers text).length ≤ pre.length := by
  rw [length_safe]
  by_cases lt : (pre ++ marker).length ≤ text.length
  · have here := prefix_of_prefix_length_le occurs (prefix_append text more) lt
    exact absurd ((suffix_append _ _).isInfix.trans here.isInfix) absent
  · rw [length_append] at lt
    by_contra early
    have isFront : pre <+: text :=
      prefix_of_prefix_length_le ((prefix_append _ _).trans occurs)
        (prefix_append text more) (by omega)
    obtain ⟨rest, rfl⟩ := isFront
    rw [append_assoc, prefix_append_right_inj] at occurs
    rw [length_append] at lt early
    have part := le_longestPartial (pre ++ rest) mem
      (prefix_of_prefix_length_le (prefix_append rest more) occurs (by omega)) (by omega)
      (suffix_append _ _)
    omega

end Partial

end FreeToken.Markers
