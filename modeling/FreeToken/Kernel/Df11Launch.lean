/-
**A launch of lanes.**
-/

import FreeToken.Kernel.Df11Lanes

namespace FreeToken.Df11

open BitStream List Option

/-! ### The lanes -/

section Launch

variable {lane : Int → Option (List LaneStep)} {count block : Nat}

theorem lanes_bound {k : Nat} (few : count ≤ 2 ^ 31) (width : k ≤ 31) :
    (count + 2 ^ k - 1) / 2 ^ k * 2 ^ k ≤ 2 ^ 31 := by
  obtain ⟨more, split⟩ := Nat.exists_eq_add_of_le width
  have whole : (2 : Nat) ^ 31 = 2 ^ more * 2 ^ k := by rw [split, Nat.add_comm, pow_add]
  rw [whole] at few ⊢
  apply Nat.mul_le_mul_right
  have positive := Nat.two_pow_pos k
  rw [← Nat.lt_succ_iff, Nat.div_lt_iff_lt_mul positive, Nat.succ_mul]
  omega

theorem lane_number {pid k : Nat} (small : pid * block + k < 2 ^ 31) :
    wrap32 (wrap32 (pid * block) + k) = (pid * block + k : Nat) := by
  rw [← Nat.cast_mul, wrap32_of_lt (by omega), ← Nat.cast_add, wrap32_of_lt small]

/-- Lanes whose numbers fit 32 bits, one after another. -/
theorem launchLanes_eq
    (few : (count + block - 1) / block * block ≤ 2 ^ 31) {steps : Nat → List LaneStep}
    (each : ∀ p < (count + block - 1) / block * block, lane p = some (steps p)) :
    launchLanes count block lane =
      some ((List.range ((count + block - 1) / block * block)).map steps) := by
  obtain ⟨programs, isPrograms⟩ : ∃ programs, programs = (count + block - 1) / block := ⟨_, rfl⟩
  rw [← isPrograms] at few each
  have program : ∀ pid ∈ range programs, ((range block).mapM fun k : Nat =>
      lane (wrap32 (wrap32 (pid * block) + k))) =
        some ((range block).map fun k => steps (pid * block + k)) := by
    intro pid isProgram
    apply mapM_some
    intro k isLane
    rw [mem_range] at isProgram isLane
    have step : pid * block + block ≤ programs * block := by
      rw [← Nat.succ_mul]
      exact Nat.mul_le_mul_right _ isProgram
    rw [lane_number (by omega)]
    exact each _ (by omega)
  unfold launchLanes
  rw [← isPrograms, mapM_some program, bind_eq_bind, bind_some]
  congr 1
  rw [← flatMap_def]
  clear each program few isPrograms
  induction programs with
  | zero => rw [Nat.zero_mul]; rfl
  | succ programs ih =>
    rw [range_succ, flatMap_append, ih, flatMap_singleton, Nat.succ_mul,
      range_add, map_append, List.map_map]
    rfl

theorem launchLanes_some {lanes : List (List LaneStep)}
    (ended : launchLanes count block lane = some lanes) {pid k : Nat}
    (isProgram : pid < (count + block - 1) / block) (isLane : k < block) :
    (lane (wrap32 (wrap32 (pid * block) + k))).isSome = true := by
  unfold launchLanes at ended
  rw [bind_eq_bind, bind_eq_some_iff] at ended
  obtain ⟨programs, done, -⟩ := ended
  have program := mapM_isSome done pid (mem_range.mpr isProgram)
  obtain ⟨inProgram, isDone⟩ := isSome_iff_exists.mp program
  exact mapM_isSome isDone k (mem_range.mpr isLane)

/-- One more program has a lane of a negative number. -/
theorem launchLanes_wraps {lanes : List (List LaneStep)} (positive : 0 < block)
    (ended : launchLanes count block lane = some lanes) (many : 2 ^ 31 < count) {k : Nat}
    (width : k ≤ 31) (isBlock : block = 2 ^ k) : (lane (-2 ^ 31)).isSome = true := by
  have isProgram : 2 ^ (31 - k) < (count + block - 1) / block := by
    rw [Nat.lt_iff_add_one_le, Nat.le_div_iff_mul_le positive, Nat.succ_mul, isBlock, ← pow_add,
      Nat.sub_add_cancel width, ← isBlock]
    omega
  have reached := launchLanes_some ended isProgram positive
  have place : ((2 ^ (31 - k) : Nat) : Int) * block = (2 ^ 31 : Nat) := by
    rw [isBlock, ← Nat.cast_mul, ← pow_add, Nat.sub_add_cancel width]
  rw [place] at reached
  exact reached

end Launch

/-! ### The windows over the codes -/

section Windows

variable {tables : Tables} {lmax : Nat} {pre run after : List Nat}

theorem codeItems_within {start : Nat} (syms : List Nat) : ∀ item ∈ codeItems tables start syms,
      start ≤ item.offset ∧ item.offset + item.length ≤ start + bitsOf tables syms := by
  induction syms generalizing start with
  | nil => nofun
  | cons sym syms ih =>
    have bits : bitsOf tables (sym :: syms) = tables.lenArr sym + bitsOf tables syms := rfl
    intro item mem
    rcases mem_cons.mp mem with rfl | mem
    · dsimp only
      omega
    · have later := ih item mem
      omega

variable {syms : List Nat} {numWords count : Nat} {seen : List (Int × Int)} (narrow : lmax ≤ 32)
  (decodes : ∀ sym ∈ syms, Decodes tables lmax sym)
  (room : (bitsOf tables syms + 31) / 32 + 2 ≤ numWords)

include narrow decodes room

theorem wordAt_codes : wordAt (toStream (word 32 (codeItems tables 0 syms)) numWords) =
      word 32 (codeItems tables 0 syms) := by
  have laid := @codeItems_laid tables lmax 0 _ decodes narrow
  funext w
  unfold wordAt
  rw [getD_eq_getElem?_getD]
  rcases lt_or_ge w numWords with lt | beyond
  · have here := toStream_get lt (word_lt laid (by decide) w)
    rw [map_eq_some_iff] at here
    obtain ⟨held, isHeld, isWord⟩ := here
    rw [isHeld]
    exact isWord
  · rw [getElem?_eq_none (by rwa [toStream_length])]
    -- no code reaches that far
    have zero : ∀ item ∈ codeItems tables 0 syms, item.part 32 w = 0 := by
      intro item mem
      have within := codeItems_within syms item mem
      exact part_other (by omega) (by omega)
    unfold word
    rw [map_congr_left zero, map_const', sum_replicate_nat, Nat.mul_zero]
    rfl

theorem peek_past {pos : Nat} (past : bitsOf tables syms ≤ pos) :
    peek (toStream (word 32 (codeItems tables 0 syms)) numWords) lmax pos = some 0 := by
  have laid := @codeItems_laid tables lmax 0 _ decodes narrow
  have whole := Nat.div_add_mod pos 32
  have below := Nat.mod_lt pos (show 0 < 32 by decide)
  obtain ⟨w, isWords⟩ : ∃ w, w = pos / 32 + 3 := ⟨_, rfl⟩
  have total : value (word 32 (codeItems tables 0 syms)) 32 w = _ :=
    value_word laid (by decide) fun item mem => by
      have within := codeItems_within syms item mem
      have reach : item.offset / 32 ≤ pos / 32 := Nat.div_le_div_right (by omega)
      omega
  -- every code is a multiple of the place where they end
  have multiple : 2 ^ (32 * w - bitsOf tables syms) ∣ ((codeItems tables 0 syms).map fun item =>
        item.code * 2 ^ (32 * w - item.offset - item.length)).sum := by
    refine dvd_sum fun term mem => ?_
    obtain ⟨item, isItem, rfl⟩ := List.mem_map.mp mem
    have within := codeItems_within syms item isItem
    exact Dvd.dvd.mul_left (Nat.pow_dvd_pow 2 (by omega)) _
  rw [← total] at multiple
  have split : (2 : Nat) ^ (32 * w - pos) = 2 ^ (32 * w - pos - lmax) * 2 ^ lmax := by
    rw [← pow_add, Nat.sub_add_cancel (by omega)]
  obtain ⟨front, isFront⟩ := (Nat.pow_dvd_pow 2 (show 32 * w - pos ≤ _ by omega)).trans multiple
  rw [@peek_value _ lmax pos w narrow (by omega), wordAt_codes narrow decodes room, isFront, split,
    Nat.mul_assoc, Nat.mul_div_cancel_left _ (Nat.two_pow_pos _), Nat.mul_mod_right]

theorem windows_cons {sym : Nat} (parts : pre ++ sym :: after = syms)
    (looked : windowsFrom (toStream (word 32 (codeItems tables 0 syms)) numWords) tables.lut lmax
      (count + 1) (bitsOf tables pre : Nat) = some seen) :
    ∃ rest < 2 ^ (lmax - tables.lenArr sym), ∃ later,
      windowsFrom (toStream (word 32 (codeItems tables 0 syms)) numWords) tables.lut lmax count
        (bitsOf tables (pre ++ [sym]) : Nat) = some later ∧
      seen = (((bitsOf tables pre : Nat) : Int),
        ((tables.codeArr sym * 2 ^ (lmax - tables.lenArr sym) + rest : Nat) : Int)) :: later := by
  subst parts
  have here := decodes sym (by simp)
  obtain ⟨rest, restSmall, peeked⟩ := peek_run narrow decodes room
  have found := here.found rest restSmall
  obtain ⟨-, length⟩ := @entry_split sym (tables.lenArr sym) (by
    have short := here.short
    omega)
  have one : bitsOf tables (pre ++ [sym]) = bitsOf tables pre + tables.lenArr sym := by
    rw [bitsOf_append]
    rfl
  unfold windowsFrom at looked
  simp only [bind_eq_bind] at looked
  rw [peeked, bind_some, found, bind_some, length, ← Nat.cast_add, ← one,
    bind_eq_some_iff] at looked
  obtain ⟨later, laterLooked, res⟩ := looked
  exact ⟨rest, restSmall, later, laterLooked, (some.inj res).symm⟩

/-- The windows over the codes of a run begin with these codes. -/
theorem windows_run (parts : pre ++ (run ++ after) = syms) (reach : run.length ≤ count)
    (looked : windowsFrom (toStream (word 32 (codeItems tables 0 syms)) numWords) tables.lut lmax
      count (bitsOf tables pre : Nat) = some seen) (i : Nat) (within : i < run.length) : ∃ window ∈ seen, ∃ rest < 2 ^ (lmax - tables.lenArr run[i]),
      window.2 = (tables.codeArr run[i] * 2 ^ (lmax - tables.lenArr run[i]) + rest : Nat) := by
  induction run generalizing pre count seen i with
  | nil => exact absurd within (Nat.not_lt_zero _)
  | cons sym run ih =>
    cases count with
    | zero => exact absurd reach (Nat.not_succ_le_zero _)
    | succ count =>
      obtain ⟨rest, restSmall, later, laterLooked, rfl⟩ :=
        windows_cons narrow decodes room parts looked
      cases i with
      | zero => exact ⟨_, mem_cons_self, rest, restSmall, rfl⟩
      | succ i =>
        obtain ⟨window, mem, same⟩ := ih ((append_assoc _ _ _).trans parts)
          (Nat.le_of_succ_le_succ reach) laterLooked i (Nat.lt_of_succ_lt_succ within)
        exact ⟨window, mem_cons_of_mem _ mem, same⟩

theorem windows_past {pos : Nat} (past : bitsOf tables syms ≤ pos)
    (looked : windowsFrom (toStream (word 32 (codeItems tables 0 syms)) numWords)
      tables.lut lmax count pos = some seen) : ∀ window ∈ seen, window.2 = 0 := by
  induction count generalizing pos seen with
  | zero =>
    cases looked
    exact nofun
  | succ count ih =>
    unfold windowsFrom at looked
    simp only [bind_eq_bind] at looked
    rw [peek_past narrow decodes room past, bind_some, bind_eq_some_iff] at looked
    obtain ⟨entry, -, looked⟩ := looked
    rw [bind_eq_some_iff] at looked
    obtain ⟨later, laterLooked, res⟩ := looked
    rw [← Nat.cast_add] at laterLooked
    rw [← some.inj res]
    intro window mem
    rcases mem_cons.mp mem with rfl | mem
    · rfl
    · exact ih (past.trans (Nat.le_add_right _ _)) laterLooked window mem

/-- Where no code begins with a one, no window has its highest bit set. -/
theorem windows_low (parts : pre ++ (run ++ after) = syms)
    (reach : after = [] ∨ count ≤ run.length)
    (low : ∀ sym ∈ run, tables.codeArr sym < 2 ^ (tables.lenArr sym - 1))
    (looked : windowsFrom (toStream (word 32 (codeItems tables 0 syms)) numWords) tables.lut lmax
      count (bitsOf tables pre : Nat) = some seen) :
    ∀ window ∈ seen, window.2 < 2 ^ (lmax - 1) := by
  induction run generalizing pre count seen with
  | nil =>
    rcases reach with rfl | none
    · rw [append_nil, append_nil] at parts
      subst parts
      intro window mem
      rw [windows_past narrow decodes room le_rfl looked window mem]
      exact_mod_cast Nat.two_pow_pos (lmax - 1)
    · obtain rfl := Nat.le_zero.mp none
      cases looked
      exact nofun
  | cons sym run ih =>
    cases count with
    | zero =>
      cases looked
      exact nofun
    | succ count =>
      obtain ⟨rest, restSmall, later, laterLooked, rfl⟩ :=
        windows_cons narrow decodes room parts looked
      have here := decodes sym (parts ▸ mem_append_right _ mem_cons_self)
      intro window mem
      rcases mem_cons.mp mem with rfl | mem
      · have most : (tables.codeArr sym + 1) * 2 ^ (lmax - tables.lenArr sym) ≤
            2 ^ (tables.lenArr sym - 1) * 2 ^ (lmax - tables.lenArr sym) :=
          Nat.mul_le_mul_right _ (low sym mem_cons_self)
        have exponent : tables.lenArr sym - 1 + (lmax - tables.lenArr sym) = lmax - 1 := by
          have positive := here.positive
          have short := here.short
          omega
        rw [← pow_add, exponent, Nat.succ_mul] at most
        have small : tables.codeArr sym * 2 ^ (lmax - tables.lenArr sym) + rest <
            2 ^ (lmax - 1) := by omega
        dsimp only
        exact_mod_cast small
      · exact ih ((append_assoc _ _ _).trans parts) (reach.imp_right Nat.le_of_succ_le_succ)
          (fun other isOther => low other (mem_cons_of_mem _ isOther)) laterLooked window mem

end Windows

/-! ### The table -/

section Table

variable {hist : Nat → Nat} {lmax : Nat}

theorem limitLengths_kept {rounds floor : Nat} {f lengths : List (Nat × Nat)}
    (ret : limitLengths lmax rounds floor f = some lengths) :
    ∀ item ∈ lengths, item.2 ≤ lmax ∧ item.1 ∈ f.map Prod.fst := by
  induction rounds generalizing floor f with
  | zero => cases ret
  | succ rounds ih =>
    cases f with
    | nil =>
      cases ret
    | cons head f =>
      obtain ⟨first, computed, code, -⟩ := huffmanLengths_spec (cons_ne_nil head f)
      rw [limitLengths_round computed] at ret
      split at ret
      · rename_i within
        rw [← some.inj ret]
        intro item mem
        exact ⟨foldr_max_le.mp within item mem, code.symbols.mem_iff.mp (List.mem_map_of_mem mem)⟩
      · have later := ih ret
        rw [List.map_map] at later
        exact later

theorem lutOk_of_built (narrow : lmax ≤ 32) {tables : Tables}
    (built : huffmanTables hist lmax = some tables) : LutOk tables.lut lmax := by
  unfold huffmanTables at built
  rw [bind_eq_bind, bind_eq_some_iff] at built
  obtain ⟨lengths, ret, res⟩ := built
  have kept := limitLengths_kept ret
  have isLut : tables.lut = buildLut (canonicalCodes lengths) lmax := by rw [← some.inj res]
  have codes : ∀ code ∈ canonicalCodes lengths, code.length ≤ lmax ∧ code.symbol < 256 := by
    intro code mem
    have inLengths : (code.symbol, code.length) ∈ lengths :=
      (canonicalCodes_lengths lengths).mem_iff.mp (List.mem_map_of_mem mem)
    obtain ⟨short, isSymbol⟩ := kept _ inLengths
    rw [frequencies_symbols, mem_filter, mem_range] at isSymbol
    exact ⟨short, isSymbol.1⟩
  have entries : ∀ entry ∈ tables.lut, entry &&& 0xFF ≤ lmax ∧ entry >>> 8 < 256 := by
    intro entry mem
    rw [isLut] at mem
    obtain ⟨v, -, rfl⟩ := List.mem_map.mp mem
    rcases PrefixCode.fill_cases lmax (fun code : PrefixCode.Code Nat =>
      code.symbol <<< 8 ||| code.length) (canonicalCodes lengths) (fun _ => 0) v with
      blank | ⟨code, isCode, filled⟩
    · rw [blank]
      exact ⟨Nat.zero_le _, by decide⟩
    · obtain ⟨short, byte⟩ := codes code isCode
      obtain ⟨symbol, length⟩ := @entry_split code.symbol code.length (by omega)
      rw [filled, symbol, length]
      exact ⟨short, byte⟩
  refine ⟨?_, fun entry mem => (entries entry mem).1, fun entry mem => (entries entry mem).2⟩
  rw [isLut, buildLut, length_map, length_range, Nat.shiftLeft_eq, Nat.one_mul]

end Table

end FreeToken.Df11
