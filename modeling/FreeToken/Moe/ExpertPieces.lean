/-
**Expert pieces: the tensors of a checkpoint, grouped by expert.**
-/

import Mathlib.Data.List.AList

namespace FreeToken

open List

/-- A tensor with its rows; `size0` is `size(0)`. -/
structure RoleTensor (V : Type) where
  size0 : Nat
  row : Nat → V

/-- `unsqueeze(0)` -/
def RoleTensor.unsqueeze {V : Type} (tensor : V) : RoleTensor V := ⟨1, fun _ => tensor⟩

abbrev RoleDict (V : Type) : Type := AList fun _ : String => RoleTensor V

/-- `(bank_layer, e0, e1, {role: tensor})` -/
structure Piece (V : Type) where
  layer : Int
  e0 : Int
  e1 : Int
  tensors : RoleDict V

def RoleDict.slice {V : Type} (tensors : RoleDict V) (k : Nat) : List (String × V) :=
  tensors.entries.map fun entry => (entry.1, entry.2.row k)

inductive FillError where
  /-- `Unexpected expert weight key` -/
  | unexpectedKey (name : String)
  /-- `Unexpected MoE expert layer` -/
  | unexpectedLayer (layer : Int)
  /-- `Unexpected ... expert count` -/
  | unexpectedCount (packedName : String) (count expected : Nat)
  /-- `Missing MoE expert source layers` -/
  | missingLayers (layers : List Int)
  /-- `Incomplete expert tensors in checkpoint (layer, expert)` -/
  | incomplete (experts : List (Int × Int))
  /-- What `locate` or the stream itself raises. -/
  | reader (msg : String)
  /-- `expert piece out of range` -/
  | outOfRange (layer e0 e1 : Int)
  /-- `expert rows written more than once` -/
  | writtenTwice (layer e0 e1 : Int)
  /-- What a kernel raises. -/
  | pack (msg : String)
  /-- What the sink raises. -/
  | sink (msg : String)
  /-- `assert expected_per_layer > 0` -/
  | noExperts
  /-- `expert banks were not filled` -/
  | notFilled (missing : List (Nat × Nat))

/-- A generator of pieces: a step for each tensor, and what it raises for what is left at the end. -/
structure Reader (V Item : Type) where
  Pending : Type
  start : Pending
  next : Pending → Item → Except FillError (Pending × Option (Piece V))
  leftover : Pending → Option FillError

/-! ### One piece for each expert -/

section PerExpert

variable {V : Type}

/-- `tensor.reshape(1, -1) if role.endswith("_global") else tensor.unsqueeze(0)` -/
def roleTensor (flatten : V → V) (role : String) (tensor : V) : RoleTensor V :=
  RoleTensor.unsqueeze (if role.endsWith "_global" then flatten tensor else tensor)

abbrev PendingExperts (V : Type) : Type := AList fun _ : Int × Int => RoleDict V

/-- The body of the loop of `per_expert_pieces`. -/
def perExpertNext (flatten : V → V)
    (locate : String → Except String (Option (Int × Int × String))) (tensorsPerExpert : Nat)
    (pending : PendingExperts V) (item : String × V) :
    Except FillError (PendingExperts V × Option (Piece V)) :=
  match locate item.1 with
  | .error msg => .error (.reader msg)
  | .ok none => .ok (pending, none)
  | .ok (some (bankLayer, expert, role)) =>
      let piece := ((pending.lookup (bankLayer, expert)).getD ∅).insert role
        (roleTensor flatten role item.2)
      if piece.keys.length = tensorsPerExpert then
        .ok (pending.erase (bankLayer, expert), some
          { layer := bankLayer, e0 := expert, e1 := expert + 1, tensors := piece })
      else .ok (pending.insert (bankLayer, expert) piece, none)

def inOrder (left right : Int × Int) : Bool :=
  left.1 < right.1 || (left.1 == right.1 && left.2 ≤ right.2)

def perExpertPieces (flatten : V → V)
    (locate : String → Except String (Option (Int × Int × String))) (tensorsPerExpert : Nat) :
    Reader V (String × V) where
  Pending := PendingExperts V
  start := ∅
  next := perExpertNext flatten locate tensorsPerExpert
  leftover pending := if pending.keys = [] then none
    else some (.incomplete ((pending.keys.mergeSort inOrder).take 8))

end PerExpert

/-! ### One piece for each layer -/

section Stacked

variable {V : Type}

structure ExpertConfig where
  numExperts : Nat
  numMoeLayers : Int
  firstKDenseReplace : Int

def bankLayerOf (cfg : ExpertConfig) (layer : Int) : Option Int :=
  let bankLayer := layer - cfg.firstKDenseReplace
  if 0 ≤ bankLayer ∧ bankLayer < cfg.numMoeLayers then some bankLayer else none

/-- `model.layers.N....experts.{gate_up_proj,down_proj}`; `parseInt` is `int`. -/
def packedExpertSourceInfo (parseInt : String → Option Int) (key : String) :
    Option (Int × String) :=
  let parts := key.splitOn "."
  let leaf := parts.getLastD ""
  if parts.length < 5 ∨ parts[0]? ≠ some "model" ∨ parts[1]? ≠ some "layers" then none
  else if parts.dropLast.getLastD "" ≠ "experts" ∨ (leaf ≠ "gate_up_proj" ∧ leaf ≠ "down_proj") then
    none
  else (parseInt (parts.getD 2 "")).map fun layer => (layer, leaf)

abbrev PendingLayers (V : Type) : Type := AList fun _ : Int => RoleDict V

def packedRole (packedName : String) : String :=
  if packedName = "gate_up_proj" then "gate_up" else "down"

/-- The body of the loop of `stacked_expert_pieces`. -/
def stackedNext (parseInt : String → Option Int) (cfg : ExpertConfig) (pending : PendingLayers V)
    (item : String × RoleTensor V) : Except FillError (PendingLayers V × Option (Piece V)) :=
  match packedExpertSourceInfo parseInt item.1 with
  | none => .error (.unexpectedKey item.1)
  | some (layer, packedName) =>
      match bankLayerOf cfg layer with
      | none => .error (.unexpectedLayer layer)
      | some bankLayer =>
          if item.2.size0 ≠ cfg.numExperts then
            .error (.unexpectedCount packedName item.2.size0 cfg.numExperts)
          else
            let piece := ((pending.lookup bankLayer).getD ∅).insert (packedRole packedName) item.2
            if piece.keys.length = 2 then
              .ok (pending.erase bankLayer, some
                { layer := bankLayer, e0 := 0, e1 := cfg.numExperts, tensors := piece })
            else .ok (pending.insert bankLayer piece, none)

def stackedExpertPieces (parseInt : String → Option Int) (cfg : ExpertConfig) :
    Reader V (String × RoleTensor V) where
  Pending := PendingLayers V
  start := ∅
  next := stackedNext parseInt cfg
  leftover pending := if pending.keys = [] then none else some (.missingLayers pending.keys.mergeSort)

end Stacked

/-! ### What a piece holds -/

abbrev ExpertTensors (V : Type) : Type := List (String × V)

/-- **A reader keeps an invariant under which a completed piece holds its experts' own tensors.** -/
structure Reader.Owned {V Item : Type} (reader : Reader V Item) (stream : List Item)
    (own : Int → Int → ExpertTensors V → Prop) (invariant : reader.Pending → Prop) : Prop where
  start : invariant reader.start
  next : ∀ pending, invariant pending → ∀ item ∈ stream, ∀ pending' piece,
    reader.next pending item = .ok (pending', piece) → invariant pending' ∧
      ∀ done ∈ piece, ∀ k : Nat, done.e0 + k < done.e1 →
        own done.layer (done.e0 + k) (done.tensors.slice k)

section Groups

variable {V K : Type} [DecidableEq K] {from_ : K → String → RoleTensor V → Prop}

def Grouped (from_ : K → String → RoleTensor V → Prop) (pending : AList fun _ : K => RoleDict V) :
    Prop :=
  ∀ key tensors, pending.lookup key = some tensors → ∀ role tensor,
    tensors.lookup role = some tensor → from_ key role tensor

theorem Grouped.piece {pending : AList fun _ : K => RoleDict V} (grouped : Grouped from_ pending)
    {key : K} {role : String} {tensor : RoleTensor V} (brought : from_ key role tensor) :
    ∀ other value, (((pending.lookup key).getD ∅).insert role tensor).lookup other = some value →
      from_ key other value := by
  intro other value found
  by_cases same : other = role
  · rw [same, AList.lookup_insert] at found
    rw [same, ← Option.some.inj found]
    exact brought
  · rw [AList.lookup_insert_ne same] at found
    cases held : pending.lookup key with
    | none =>
      rw [held] at found
      exact absurd found (by simp)
    | some tensors =>
      rw [held] at found
      exact grouped key tensors held other value found

theorem Grouped.insert {pending : AList fun _ : K => RoleDict V} (grouped : Grouped from_ pending)
    {key : K} {tensors : RoleDict V}
    (brought : ∀ role tensor, tensors.lookup role = some tensor → from_ key role tensor) :
    Grouped from_ (pending.insert key tensors) := by
  intro other held found
  by_cases same : other = key
  · subst same
    rw [AList.lookup_insert] at found
    rw [← Option.some.inj found]
    exact brought
  · rw [AList.lookup_insert_ne same] at found
    exact grouped other held found

theorem Grouped.erase {pending : AList fun _ : K => RoleDict V} (grouped : Grouped from_ pending)
    (key : K) : Grouped from_ (pending.erase key) := by
  intro other held found
  by_cases same : other = key
  · rw [same, AList.lookup_erase] at found
    cases found
  · rw [AList.lookup_erase_ne same] at found
    exact grouped other held found

theorem mem_slice {tensors : RoleDict V} {k : Nat} {role : String} {value : V}
    (mem : (role, value) ∈ tensors.slice k) :
    ∃ tensor, tensors.lookup role = some tensor ∧ value = tensor.row k := by
  obtain ⟨entry, isEntry, same⟩ := mem_map.mp mem
  obtain ⟨rfl, rfl⟩ := Prod.mk.inj same
  exact ⟨entry.2, AList.mem_lookup_iff.mpr isEntry, rfl⟩

theorem slice_roles (tensors : RoleDict V) (k : Nat) :
    (tensors.slice k).map Prod.fst = tensors.keys := by
  unfold RoleDict.slice AList.keys keys
  rw [map_map]
  rfl

end Groups

section Complete

variable {V : Type}

/-- **A complete set of an expert's tensors**: as many roles as an expert has, each of them of a
tensor that the stream brought for that expert. -/
structure PerExpertOwn (stream : List (String × V)) (flatten : V → V)
    (locate : String → Except String (Option (Int × Int × String))) (tensorsPerExpert : Nat)
    (layer expert : Int) (tensors : ExpertTensors V) : Prop where
  roles : (tensors.map Prod.fst).Nodup
  complete : tensors.length = tensorsPerExpert
  brought : ∀ role value, (role, value) ∈ tensors → ∃ name tensor, (name, tensor) ∈ stream ∧
    locate name = .ok (some (layer, expert, role)) ∧ value = (roleTensor flatten role tensor).row 0

/-- **A complete set of an expert's tensors**: its rows of both tensors of its layer. -/
structure StackedOwn (stream : List (String × RoleTensor V)) (parseInt : String → Option Int)
    (cfg : ExpertConfig) (layer expert : Int) (tensors : ExpertTensors V) : Prop where
  roles : (tensors.map Prod.fst).Nodup
  complete : tensors.length = 2
  brought : ∀ role value, (role, value) ∈ tensors → ∃ name tensor checkpointLayer packedName,
    (name, tensor) ∈ stream ∧
    packedExpertSourceInfo parseInt name = some (checkpointLayer, packedName) ∧
    bankLayerOf cfg checkpointLayer = some layer ∧ role = packedRole packedName ∧
    tensor.size0 = cfg.numExperts ∧ value = tensor.row expert.toNat

theorem perExpert_owned (stream : List (String × V)) (flatten : V → V)
    (locate : String → Except String (Option (Int × Int × String))) (tensorsPerExpert : Nat) :
    (perExpertPieces flatten locate tensorsPerExpert).Owned stream
      (PerExpertOwn stream flatten locate tensorsPerExpert)
      (Grouped fun (key : Int × Int) role tensor => ∃ name value, (name, value) ∈ stream ∧
        locate name = .ok (some (key.1, key.2, role)) ∧ tensor = roleTensor flatten role value) where
  start key tensors found := by
    rw [show (perExpertPieces flatten locate tensorsPerExpert).start = (∅ : PendingExperts V)
      from rfl, AList.lookup_empty] at found
    cases found
  next pending grouped item mem pending' piece stepped := by
    have stepped : perExpertNext flatten locate tensorsPerExpert pending item =
      .ok (pending', piece) := stepped
    unfold perExpertNext at stepped
    split at stepped
    · cases stepped
    · cases stepped
      exact ⟨grouped, fun done isDone => by cases isDone⟩
    · next bankLayer expert role located =>
        have brought := @Grouped.piece _ _ _ _ pending grouped (bankLayer, expert) role
          (roleTensor flatten role item.2) ⟨item.1, item.2, mem, located, rfl⟩
        dsimp only at stepped
        split at stepped
        · next full =>
            cases stepped
            refine ⟨grouped.erase _, fun done isDone k lt => ?_⟩
            cases isDone
            have first : k = 0 := by
              dsimp only at lt
              omega
            subst first
            rw [Int.natCast_zero, Int.add_zero]
            refine ⟨?_, ?_, ?_⟩
            · rw [slice_roles]
              exact AList.keys_nodup _
            · rw [← full, ← slice_roles _ 0, length_map]
            · intro role' value isRole
              obtain ⟨tensor, held, isRow⟩ := mem_slice isRole
              obtain ⟨name, source, fromStream, isOwn, isTensor⟩ := brought role' tensor held
              exact ⟨name, source, fromStream, isOwn, by rw [isRow, isTensor]⟩
        · cases stepped
          exact ⟨grouped.insert brought, fun done isDone => by cases isDone⟩

theorem stacked_owned (stream : List (String × RoleTensor V)) (parseInt : String → Option Int)
    (cfg : ExpertConfig) :
    (stackedExpertPieces parseInt cfg).Owned stream (StackedOwn stream parseInt cfg)
      (Grouped fun (layer : Int) role tensor => ∃ name checkpointLayer packedName,
        (name, tensor) ∈ stream ∧
        packedExpertSourceInfo parseInt name = some (checkpointLayer, packedName) ∧
        bankLayerOf cfg checkpointLayer = some layer ∧ role = packedRole packedName ∧
        tensor.size0 = cfg.numExperts) where
  start key tensors found := by
    rw [show (stackedExpertPieces parseInt cfg).start = (∅ : PendingLayers V) from rfl,
      AList.lookup_empty] at found
    cases found
  next pending grouped item mem pending' piece stepped := by
    have stepped : stackedNext parseInt cfg pending item = .ok (pending', piece) := stepped
    unfold stackedNext at stepped
    split at stepped
    · cases stepped
    · next layer packedName isInfo =>
        split at stepped
        · cases stepped
        · next bankLayer isBank =>
            split at stepped
            · cases stepped
            · next counted =>
                have brought := grouped.piece ⟨item.1, layer, packedName, mem, isInfo, isBank, rfl,
                  not_not.mp counted⟩
                dsimp only at stepped
                split at stepped
                · next full =>
                    cases stepped
                    refine ⟨grouped.erase _, fun done isDone k lt => ?_⟩
                    cases isDone
                    rw [Int.zero_add]
                    refine ⟨?_, ?_, ?_⟩
                    · rw [slice_roles]
                      exact AList.keys_nodup _
                    · rw [← full, ← slice_roles _ k, length_map]
                    · intro role value isRole
                      obtain ⟨tensor, held, isRow⟩ := mem_slice isRole
                      obtain ⟨name, checkpointLayer, packed, fromStream, info, bank, isPacked,
                        sized⟩ := brought role tensor held
                      exact ⟨name, tensor, checkpointLayer, packed, fromStream, info, bank, isPacked,
                        sized, isRow⟩
                · cases stepped
                  exact ⟨grouped.insert brought, fun done isDone => by cases isDone⟩

end Complete

end FreeToken
