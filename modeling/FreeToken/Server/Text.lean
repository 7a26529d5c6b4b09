/-
**Python's strings, as far as the parsers use them.**

A text is the list of its characters.

* `isSpace`, `lstrip`, `rstrip`, `strip`, `firstWord`.
-/

import Mathlib.Data.List.DropRight

namespace FreeToken

open List

/-- `str.isspace` of one character. -/
def isSpace (c : Char) : Bool :=
  (0x09 ≤ c.toNat && c.toNat ≤ 0x0d) || (0x1c ≤ c.toNat && c.toNat ≤ 0x20) || c.toNat == 0x85 ||
    c.toNat == 0xa0 || c.toNat == 0x1680 || (0x2000 ≤ c.toNat && c.toNat ≤ 0x200a) ||
    c.toNat == 0x2028 || c.toNat == 0x2029 || c.toNat == 0x202f || c.toNat == 0x205f ||
    c.toNat == 0x3000

variable (text : List Char)

def lstrip : List Char := text.dropWhile isSpace

def rstrip : List Char := text.rdropWhile isSpace

def strip : List Char := rstrip (lstrip text)

/-- `text.split()[0]`, or nothing. -/
def firstWord : List Char := (lstrip text).takeWhile (!isSpace ·)

/-- The characters that are no whitespace. Stripping keeps them (`solid_strip`), so texts that
differ only in outer whitespace have the same ones. -/
def solid : List Char := text.filter (!isSpace ·)

def Blank : Prop := ∀ c ∈ text, isSpace c

instance (text : List Char) : Decidable (Blank text) :=
  decidable_of_iff (text.all isSpace = true) List.all_eq_true

section Text

variable {text front back : List Char}

@[simp] theorem solid_append : solid (front ++ back) = solid front ++ solid back := filter_append ..

theorem solid_eq_nil : solid text = [] ↔ Blank text := by
  unfold solid Blank
  rw [filter_eq_nil_iff]
  simp

theorem lstrip_split (text : List Char) : ∃ blank, Blank blank ∧ text = blank ++ lstrip text := by
  refine ⟨text.takeWhile isSpace, fun c mem => ?_, (takeWhile_append_dropWhile).symm⟩
  exact mem_takeWhile_imp mem

theorem rstrip_split (text : List Char) : ∃ blank, Blank blank ∧ text = rstrip text ++ blank := by
  refine ⟨text.rtakeWhile isSpace, fun c mem => ?_, ?_⟩
  · exact mem_rtakeWhile_imp mem
  · exact (rdropWhile_append_rtakeWhile ..).symm

theorem solid_lstrip (text : List Char) : solid (lstrip text) = solid text := by
  obtain ⟨blank, isBlank, split⟩ := lstrip_split text
  conv_rhs => rw [split, solid_append, solid_eq_nil.mpr isBlank, nil_append]

theorem solid_rstrip (text : List Char) : solid (rstrip text) = solid text := by
  obtain ⟨blank, isBlank, split⟩ := rstrip_split text
  conv_rhs => rw [split, solid_append, solid_eq_nil.mpr isBlank, append_nil]

theorem solid_strip (text : List Char) : solid (strip text) = solid text :=
  (solid_rstrip _).trans (solid_lstrip text)

theorem lstrip_eq_nil : lstrip text = [] ↔ Blank text := dropWhile_eq_nil_iff

theorem lstrip_append_of_blank (blank : Blank front) : lstrip (front ++ back) = lstrip back := by
  unfold lstrip
  rw [dropWhile_append, if_pos]
  rw [List.isEmpty_iff]
  exact lstrip_eq_nil.mpr blank

theorem lstrip_append (solid : ¬Blank front) : lstrip (front ++ back) = lstrip front ++ back := by
  unfold lstrip
  rw [dropWhile_append, if_neg]
  rw [List.isEmpty_iff]
  exact fun nil => solid (lstrip_eq_nil.mp nil)

theorem rstrip_append_of_blank (blank : Blank back) : rstrip (front ++ back) = rstrip front := by
  unfold rstrip rdropWhile
  rw [reverse_append, dropWhile_append, if_pos]
  rw [List.isEmpty_iff, dropWhile_eq_nil_iff]
  exact fun c mem => blank c (mem_reverse.mp mem)

theorem rstrip_append (solid : ¬Blank back) : rstrip (front ++ back) = front ++ rstrip back := by
  unfold rstrip rdropWhile
  rw [reverse_append, dropWhile_append, if_neg]
  · rw [reverse_append, reverse_reverse]
  · rw [List.isEmpty_iff, dropWhile_eq_nil_iff]
    exact fun all => solid fun c mem => all c (mem_reverse.mpr mem)

theorem lstrip_of_prefix (starts : front <+: lstrip text) : lstrip front = front := by
  cases front with
  | nil => rfl
  | cons c front =>
    obtain ⟨back, split⟩ := starts
    have same := dropWhile_idempotent isSpace text
    by_cases blank : isSpace c
    · change dropWhile isSpace (lstrip text) = lstrip text at same
      rw [← split, cons_append, dropWhile_cons_of_pos blank] at same
      have short := (dropWhile_suffix isSpace (l := front ++ back)).length_le
      rw [same, length_cons] at short
      omega
    · exact dropWhile_cons_of_neg blank

theorem strip_strip (text : List Char) : strip (strip text) = strip text := by
  have left : lstrip (strip text) = strip text := lstrip_of_prefix (List.rdropWhile_prefix ..)
  show rstrip (lstrip (strip text)) = strip text
  rw [left]
  exact rdropWhile_idempotent ..

theorem strip_blank_append (blank : Blank front) : strip (front ++ back) = strip back := by
  unfold strip
  rw [lstrip_append_of_blank blank]

theorem strip_append_blank (blank : Blank back) : strip (front ++ back) = strip front := by
  unfold strip
  by_cases none : Blank front
  · have all : Blank (front ++ back) := fun c mem => (mem_append.mp mem).elim (none c) (blank c)
    rw [lstrip_eq_nil.mpr all, lstrip_eq_nil.mpr none]
  · rw [lstrip_append none, rstrip_append_of_blank blank]

theorem strip_split (text : List Char) : ∃ blank blank', Blank blank ∧ Blank blank' ∧
    text = blank ++ (strip text ++ blank') := by
  obtain ⟨blank, isBlank, split⟩ := lstrip_split text
  obtain ⟨blank', isBlank', split'⟩ := rstrip_split (lstrip text)
  refine ⟨blank, blank', isBlank, isBlank', ?_⟩
  conv_lhs => rw [split, split']
  rfl

theorem not_mem_of_blank (blank : Blank text) {c : Char} (solid : isSpace c = false) : c ∉ text :=
  fun mem => by
    rw [blank c mem] at solid
    cases solid

theorem count_rstrip {c : Char} (solid : isSpace c = false) (text : List Char) :
    (rstrip text).count c = text.count c := by
  obtain ⟨blank, isBlank, split⟩ := rstrip_split text
  conv_rhs => rw [split, count_append, count_eq_zero_of_not_mem (not_mem_of_blank isBlank solid)]
  rw [Nat.add_zero]

theorem le_of_blank {prev marker rest : List Char} (blank : Blank front)
    (starts : lstrip marker = marker) (solid : ¬Blank marker)
    (occurs : prev ++ marker <+: front ++ rest) : front.length ≤ prev.length := by
  by_contra sooner
  obtain ⟨gap, rfl⟩ := prefix_of_prefix_length_le ((prefix_append _ _).trans occurs)
    (prefix_append front rest) (by omega)
  rw [append_assoc, prefix_append_right_inj] at occurs
  obtain ⟨back, same⟩ := occurs
  have stripped := congrArg lstrip same
  rw [lstrip_append solid, starts, lstrip_append_of_blank fun c mem =>
    blank c (mem_append_right _ mem)] at stripped
  have short := (dropWhile_suffix isSpace (l := rest)).length_le
  have sizes := congrArg length (same.symm.trans stripped)
  rw [length_append] at sooner sizes
  change _ = (dropWhile isSpace rest).length at sizes
  omega

theorem infix_of_blank {marker : List Char} (blank : Blank back) (ends : rstrip marker = marker)
    (solid : ¬Blank marker) (within : marker <:+: front ++ back) : marker <:+: front := by
  obtain ⟨pre, after, split⟩ := within
  rcases append_eq_append_iff.mp split with ⟨gap, rfl, -⟩ | ⟨gap, same, rfl⟩
  · exact ⟨pre, gap, rfl⟩
  · have stripped := congrArg rstrip same
    rw [rstrip_append solid, ends, rstrip_append_of_blank fun c mem =>
      blank c (mem_append_left _ mem)] at stripped
    have short := (List.rdropWhile_prefix isSpace front).length_le
    have sizes := congrArg length (same.symm.trans stripped)
    rw [length_append] at sizes
    change _ = (rdropWhile isSpace front).length at sizes
    have none : gap = [] := eq_nil_of_length_eq_zero (by omega)
    exact ⟨pre, [], by rw [same, none]; simp⟩

theorem infix_lstrip {marker : List Char} (starts : lstrip marker = marker) (solid : ¬Blank marker)
    (within : marker <:+: text) : marker <:+: lstrip text := by
  obtain ⟨blank, isBlank, split⟩ := lstrip_split text
  obtain ⟨front, back, same⟩ := within
  have occurs : front ++ marker <+: blank ++ lstrip text := ⟨back, same.trans split⟩
  obtain ⟨gap, rfl⟩ := prefix_of_prefix_length_le (prefix_append blank (lstrip text))
    ((prefix_append _ _).trans occurs) (le_of_blank isBlank starts solid occurs)
  rw [append_assoc, prefix_append_right_inj] at occurs
  exact (suffix_append _ _).isInfix.trans occurs.isInfix

theorem lstrip_mono (isFront : front <+: text) : lstrip front <+: lstrip text := by
  obtain ⟨back, rfl⟩ := isFront
  by_cases blank : Blank front
  · rw [lstrip_eq_nil.mpr blank]
    exact nil_prefix
  · rw [lstrip_append blank]
    exact prefix_append _ _

end Text

end FreeToken
