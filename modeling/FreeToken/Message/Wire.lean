/-
**The encoding of the messages between the processes.**

`serialize_type` turns a message into nested dictionaries, `deserialize_type` builds it again from
them. Classes and tensors are told from dictionaries by a tag, and a dictionary that holds the tag
itself, or the key of the wrapper, is wrapped:

A tensor is one-dimensional by its type, so that the assertion of the encoder holds. A float is its
64 bits.
-/

import Mathlib.Algebra.Group.Nat.Defs
import Mathlib.Data.List.Nodup

namespace FreeToken.Wire

open List

inductive DType where
  | bool | uint8 | uint16 | uint32 | uint64 | int8 | int16 | int32 | int64
  | float16 | float32 | float64 | complex64 | complex128
  deriving DecidableEq, Repr

namespace DType

def name : DType → List Char
  | bool => "bool".toList
  | uint8 => "uint8".toList
  | uint16 => "uint16".toList
  | uint32 => "uint32".toList
  | uint64 => "uint64".toList
  | int8 => "int8".toList
  | int16 => "int16".toList
  | int32 => "int32".toList
  | int64 => "int64".toList
  | float16 => "float16".toList
  | float32 => "float32".toList
  | float64 => "float64".toList
  | complex64 => "complex64".toList
  | complex128 => "complex128".toList

def itemsize : DType → Nat
  | bool | uint8 | int8 => 1
  | uint16 | int16 | float16 => 2
  | uint32 | int32 | float32 => 4
  | uint64 | int64 | float64 | complex64 => 8
  | complex128 => 16

def all : List DType :=
  [bool, uint8, uint16, uint32, uint64, int8, int16, int32, int64, float16, float32, float64,
    complex64, complex128]

/-- `str(dtype)`. -/
def str (dtype : DType) : List Char := "torch.".toList ++ dtype.name

def replaceTorch : List Char → List Char
  | 't' :: 'o' :: 'r' :: 'c' :: 'h' :: '.' :: rest => replaceTorch rest
  | c :: rest => c :: replaceTorch rest
  | [] => []

/-- `getattr(np, name)`. -/
def ofName (name : List Char) : Option DType := all.find? fun dtype => dtype.name = name

theorem ofName_str (dtype : DType) : ofName (replaceTorch dtype.str) = some dtype := by
  cases dtype <;> decide

end DType

structure Tensor where
  dtype : DType
  buffer : List UInt8
  whole : dtype.itemsize ∣ buffer.length

inductive Key (κ : Type) where
  | str (name : List Char)
  | other (key : κ)

/-- What a message holds. The attributes of an object and the items of a dictionary stand in the
order of their insertion. -/
inductive Value (κ : Type) where
  | none
  | bool (value : Bool)
  | int (value : Int)
  | float (bits : UInt64)
  | str (text : List Char)
  | bytes (data : List UInt8)
  | list (items : List (Value κ))
  | tuple (items : List (Value κ))
  | dict (items : List (Key κ × Value κ))
  | tensor (tensor : Tensor)
  | object (cls : List Char) (attrs : List (List Char × Value κ))

variable {κ : Type}

/-- `_TYPE_KEY` and `_RAW_DICT_KEY`. -/
def typeKey : List Char := "__type__".toList
def rawDictKey : List Char := "__raw_dict__".toList

namespace Key

def is (name : List Char) : Key κ → Bool
  | str own => own = name
  | other _ => false

end Key

/-- `name in items`. -/
def hasKey (name : List Char) (items : List (Key κ × Value κ)) : Bool :=
  items.any fun item => item.1.is name

/-- `items[name]`. -/
def getItem (name : List Char) (items : List (Key κ × Value κ)) : Option (Value κ) :=
  (items.find? fun item => item.1.is name).map Prod.snd

/-- `items[name] = value`. -/
def setItem (name : List Char) (value : Value κ) : List (Key κ × Value κ) → List (Key κ × Value κ)
  | [] => [(.str name, value)]
  | item :: items =>
      if item.1.is name then (item.1, value) :: items else item :: setItem name value items

/-! ### The encoder -/

/-- The tensor branch of `serialize_type`. -/
def serializeTensor (tensor : Tensor) : List (Key κ × Value κ) :=
  [(.str typeKey, .str "Tensor".toList), (.str "buffer".toList, .bytes tensor.buffer),
    (.str "dtype".toList, .str tensor.dtype.str)]

mutual

def serializeAny : Value κ → Value κ
  | .dict items =>
      let encoded := serializeItems items
      if hasKey typeKey encoded || hasKey rawDictKey encoded then
        .dict [(.str rawDictKey, .dict encoded)]
      else .dict encoded
  | .list items => .list (serializeList items)
  | .tuple items => .tuple (serializeList items)
  | .tensor tensor => .dict (serializeTensor tensor)
  | .object cls attrs => .dict (serializeAttrs [(.str typeKey, .str cls)] attrs)
  | .none => .none
  | .bool value => .bool value
  | .int value => .int value
  | .float bits => .float bits
  | .str text => .str text
  | .bytes data => .bytes data

def serializeList : List (Value κ) → List (Value κ)
  | [] => []
  | value :: values => serializeAny value :: serializeList values

def serializeItems : List (Key κ × Value κ) → List (Key κ × Value κ)
  | [] => []
  | (key, value) :: items => (key, serializeAny value) :: serializeItems items

/-- The loop of `serialize_type` over `self.__dict__`. -/
def serializeAttrs (serialized : List (Key κ × Value κ)) :
    List (List Char × Value κ) → List (Key κ × Value κ)
  | [] => serialized
  | (name, value) :: attrs => serializeAttrs (setItem name (serializeAny value) serialized) attrs

end

/-- `serialize_type` of an object of a class. -/
def serializeType (cls : List Char) (attrs : List (List Char × Value κ)) : List (Key κ × Value κ) :=
  serializeAttrs [(.str typeKey, .str cls)] attrs

/-! ### The decoder -/

inductive WireError where
  /-- `KeyError`: a class without its tag, a tensor without its buffer or its dtype. -/
  | missingKey
  /-- `ValueError`: no class of this name, or bytes that are no whole number of elements. -/
  | unknownType
  | partialElement
  /-- `AttributeError`: a wrapper around no dictionary, a dtype that numpy does not have. -/
  | attribute
  /-- `AssertionError`: the buffer of a tensor is no bytes. -/
  | noBytes
  /-- `TypeError`: a name that has no hash, arguments that the class does not take. -/
  | noHash
  | arguments
  /-- `ValueError` of `__post_init__`. -/
  | rejected
  /-- `ValueError`: a value that the encoder does not emit. -/
  | cannotDeserialize
  deriving DecidableEq, Repr

structure Field (κ : Type) where
  name : List Char
  default : Option (Value κ) := Option.none

/-- A dataclass: its fields, and what its `__post_init__` accepts. -/
structure DataClass (κ : Type) where
  name : List Char
  fields : List (Field κ)
  accepts : List (List Char × Value κ) → Bool := fun _ => true
  distinct : (fields.map Field.name).Nodup := by exact of_decide_eq_true rfl
  untagged : typeKey ∉ fields.map Field.name := by exact of_decide_eq_true rfl

/-- The classes among `globals()`. No one of them is called like the tag of the tensors. -/
structure ClassMap (κ : Type) where
  classes : List (DataClass κ)
  distinct : (classes.map DataClass.name).Nodup := by exact of_decide_eq_true rfl
  noTensor : "Tensor".toList ∉ classes.map DataClass.name := by exact of_decide_eq_true rfl

namespace ClassMap

open List

/-- `cls_map.get(name)`. -/
def get (clsMap : ClassMap κ) (name : List Char) : Option (DataClass κ) :=
  clsMap.classes.find? fun cls => cls.name = name

end ClassMap

namespace DataClass

open List

def bind (kwargs : List (Key κ × Value κ)) :
    List (Field κ) → Except WireError (List (List Char × Value κ))
  | [] => .ok []
  | field :: fields => do
      let value ← match getItem field.name kwargs with
        | some value => pure value
        | none => match field.default with
          | some value => pure value
          | none => throw .arguments
      return (field.name, value) :: (← bind kwargs fields)

/-- `cls(**kwargs)`. -/
def construct (cls : DataClass κ) (kwargs : List (Key κ × Value κ)) :
    Except WireError (Value κ) := do
  if kwargs.any fun item => !cls.fields.any fun field => item.1.is field.name then
    throw .arguments
  let attrs ← bind kwargs cls.fields
  if cls.accepts attrs then return .object cls.name attrs else throw .rejected

end DataClass

/-- The tensor branch of `deserialize_type`. -/
def deserializeTensor (data : List (Key κ × Value κ)) : Except WireError (Value κ) := do
  let some buffer := getItem "buffer".toList data | throw .missingKey
  let some dtype := getItem "dtype".toList data | throw .missingKey
  let .str dtypeStr := dtype | throw .attribute
  let some npDtype := DType.ofName (DType.replaceTorch dtypeStr) | throw .attribute
  let .bytes buffer := buffer | throw .noBytes
  if whole : npDtype.itemsize ∣ buffer.length then
    return .tensor ⟨npDtype, buffer, whole⟩
  else throw .partialElement

mutual

def hashable : Value κ → Bool
  | .list _ | .dict _ | .object .. => false
  | .tuple items => allHashable items
  | _ => true

def allHashable : List (Value κ) → Bool
  | [] => true
  | value :: values => hashable value && allHashable values

end

/-- The body of `deserialize_type`, given the arguments that its loop collects for a class. -/
def ofTag (clsMap : ClassMap κ) (data : List (Key κ × Value κ))
    (kwargs : Except WireError (List (Key κ × Value κ))) : Except WireError (Value κ) :=
  match getItem typeKey data with
  | none => .error .missingKey
  | some (.str typeName) =>
      if typeName = "Tensor".toList then deserializeTensor data
      else match clsMap.get typeName with
        | none => .error .unknownType
        | some cls => do cls.construct (← kwargs)
  | some other => .error (if hashable other then .unknownType else .noHash)

mutual

def deserializeAny (clsMap : ClassMap κ) : Value κ → Except WireError (Value κ)
  | .dict items =>
      if items.length = 1 ∧ hasKey rawDictKey items then deserializeRaw clsMap items
      else if hasKey typeKey items then ofTag clsMap items (deserializeKwargs clsMap items)
      else .dict <$> deserializeItems clsMap items
  | .list items => .list <$> deserializeList clsMap items
  | .tuple items => .tuple <$> deserializeList clsMap items
  | .none => .ok .none
  | .bool value => .ok (.bool value)
  | .int value => .ok (.int value)
  | .float bits => .ok (.float bits)
  | .str text => .ok (.str text)
  | .bytes data => .ok (.bytes data)
  | .tensor _ | .object .. => .error .cannotDeserialize

def deserializeList (clsMap : ClassMap κ) : List (Value κ) → Except WireError (List (Value κ))
  | [] => .ok []
  | value :: values => do
      return (← deserializeAny clsMap value) :: (← deserializeList clsMap values)

def deserializeItems (clsMap : ClassMap κ) :
    List (Key κ × Value κ) → Except WireError (List (Key κ × Value κ))
  | [] => .ok []
  | (key, value) :: items => do
      return (key, ← deserializeAny clsMap value) :: (← deserializeItems clsMap items)

def deserializeRaw (clsMap : ClassMap κ) : List (Key κ × Value κ) → Except WireError (Value κ)
  | (_, .dict inner) :: _ => .dict <$> deserializeItems clsMap inner
  | _ => .error .attribute

def deserializeKwargs (clsMap : ClassMap κ) :
    List (Key κ × Value κ) → Except WireError (List (Key κ × Value κ))
  | [] => .ok []
  | (key, value) :: items =>
      if key.is typeKey then deserializeKwargs clsMap items
      else do return (key, ← deserializeAny clsMap value) :: (← deserializeKwargs clsMap items)

end

def deserializeType (clsMap : ClassMap κ) (data : List (Key κ × Value κ)) :
    Except WireError (Value κ) :=
  ofTag clsMap data (deserializeKwargs clsMap data)

/-! ### The classes of the three modules -/

/-- `isfinite(value) and -2.0 <= value <= 2.0`. Without its sign a float compares as its bits do, and
what is not finite lies above. -/
def withinTwo : Value κ → Bool
  | .float bits => bits.toNat % 2 ^ 63 ≤ 0x4000000000000000
  | .int value => -2 ≤ value ∧ value ≤ 2
  | .bool _ => true
  | _ => false

/-- `SamplingParams.__post_init__`. -/
def acceptsPenalties (attrs : List (List Char × Value κ)) : Bool :=
  ["presence_penalty".toList, "frequency_penalty".toList].all fun name =>
    attrs.all fun attr => attr.1 ≠ name ∨ withinTwo attr.2

/-- The bits of the floats `0.0` and `1.0`. -/
def zeroBits : UInt64 := 0
def oneBits : UInt64 := 0x3ff0000000000000

def samplingParams : DataClass κ where
  name := "SamplingParams".toList
  fields := [⟨"temperature".toList, some (.float zeroBits)⟩, ⟨"top_k".toList, some (.int (-1))⟩,
    ⟨"top_p".toList, some (.float oneBits)⟩, ⟨"ignore_eos".toList, some (.bool false)⟩,
    ⟨"max_tokens".toList, some (.int 1024)⟩, ⟨"stop_strs".toList, some (.list [])⟩,
    ⟨"presence_penalty".toList, some (.float zeroBits)⟩,
    ⟨"frequency_penalty".toList, some (.float zeroBits)⟩]
  accepts := acceptsPenalties

def baseTokenizerMsg : DataClass κ where
  name := "BaseTokenizerMsg".toList
  fields := []

def batchTokenizerMsg : DataClass κ where
  name := "BatchTokenizerMsg".toList
  fields := [⟨"data".toList, none⟩]

def detokenizeMsg : DataClass κ where
  name := "DetokenizeMsg".toList
  fields := [⟨"uid".toList, none⟩, ⟨"next_token".toList, none⟩, ⟨"finished".toList, none⟩,
    ⟨"finish_reason".toList, some .none⟩, ⟨"matched_stop".toList, some .none⟩,
    ⟨"stop_strs".toList, some .none⟩, ⟨"kv_used_pages".toList, some (.int 0)⟩,
    ⟨"kv_total_pages".toList, some (.int 0)⟩, ⟨"mamba_used_slots".toList, some (.int 0)⟩,
    ⟨"mamba_total_slots".toList, some (.int 0)⟩, ⟨"swa_used_tokens".toList, some (.int 0)⟩,
    ⟨"swa_total_tokens".toList, some (.int 0)⟩, ⟨"gpu_mem_bytes".toList, some (.int 0)⟩]

def promptAdmittedMsg : DataClass κ where
  name := "PromptAdmittedMsg".toList
  fields := [⟨"uid".toList, none⟩, ⟨"prompt_tokens".toList, none⟩,
    ⟨"cached_tokens".toList, some (.int 0)⟩]

def tokenizeMsg : DataClass κ where
  name := "TokenizeMsg".toList
  fields := [⟨"uid".toList, none⟩, ⟨"text".toList, none⟩, ⟨"sampling_params".toList, none⟩,
    ⟨"chat_template_kwargs".toList, some .none⟩, ⟨"tools".toList, some .none⟩,
    ⟨"inline_system_policy".toList, some .none⟩]

def abortMsg : DataClass κ where
  name := "AbortMsg".toList
  fields := [⟨"uid".toList, none⟩]

def cacheRebuildMsg : DataClass κ where
  name := "CacheRebuildMsg".toList
  fields := [⟨"request_id".toList, none⟩, ⟨"moe_cache_size".toList, some .none⟩,
    ⟨"num_pages".toList, some .none⟩, ⟨"num_mamba_slots".toList, some .none⟩,
    ⟨"num_swa_pages".toList, some .none⟩, ⟨"mode".toList, some (.str "if_idle".toList)⟩]

def cacheRebuildResultMsg : DataClass κ where
  name := "CacheRebuildResultMsg".toList
  fields := [⟨"request_id".toList, none⟩, ⟨"status".toList, none⟩,
    ⟨"moe_cache_size".toList, some (.int 0)⟩, ⟨"num_pages".toList, some (.int 0)⟩,
    ⟨"mamba_slots".toList, some (.int 0)⟩, ⟨"num_swa_pages".toList, some (.int 0)⟩,
    ⟨"error".toList, some .none⟩]

def errorReplyMsg : DataClass κ where
  name := "ErrorReplyMsg".toList
  fields := [⟨"uid".toList, none⟩, ⟨"error".toList, none⟩, ⟨"code".toList, some .none⟩,
    ⟨"kv_used_pages".toList, some (.int 0)⟩, ⟨"kv_total_pages".toList, some (.int 0)⟩,
    ⟨"mamba_used_slots".toList, some (.int 0)⟩, ⟨"mamba_total_slots".toList, some (.int 0)⟩,
    ⟨"swa_used_tokens".toList, some (.int 0)⟩, ⟨"swa_total_tokens".toList, some (.int 0)⟩]

/-- `globals()` of `message/tokenizer.py`. -/
def tokenizerMap : ClassMap κ where
  classes := [samplingParams, baseTokenizerMsg, batchTokenizerMsg, detokenizeMsg, promptAdmittedMsg,
    tokenizeMsg, abortMsg, cacheRebuildMsg, cacheRebuildResultMsg, errorReplyMsg]

/-! ### What the processes send -/

/-- A value of a payload: its objects have the attributes of their classes, which accepted them. -/
inductive Built (clsMap : ClassMap κ) : Value κ → Prop
  | none : Built clsMap .none
  | bool (value : Bool) : Built clsMap (.bool value)
  | int (value : Int) : Built clsMap (.int value)
  | float (bits : UInt64) : Built clsMap (.float bits)
  | str (text : List Char) : Built clsMap (.str text)
  | bytes (data : List UInt8) : Built clsMap (.bytes data)
  | list {items : List (Value κ)} (all : ∀ item ∈ items, Built clsMap item) :
      Built clsMap (.list items)
  | tuple {items : List (Value κ)} (all : ∀ item ∈ items, Built clsMap item) :
      Built clsMap (.tuple items)
  | dict {items : List (Key κ × Value κ)} (all : ∀ item ∈ items, Built clsMap item.2) :
      Built clsMap (.dict items)
  | tensor (tensor : Tensor) : Built clsMap (.tensor tensor)
  | object {cls : DataClass κ} {attrs : List (List Char × Value κ)}
      (known : cls ∈ clsMap.classes) (names : attrs.map Prod.fst = cls.fields.map Field.name)
      (accepted : cls.accepts attrs = true) (all : ∀ attr ∈ attrs, Built clsMap attr.2) :
      Built clsMap (.object cls.name attrs)

inductive PartOf : Value κ → Value κ → Prop
  | self (value : Value κ) : PartOf value value
  | list {part item : Value κ} {items : List (Value κ)} (mem : item ∈ items)
      (lt : PartOf part item) : PartOf part (.list items)
  | tuple {part item : Value κ} {items : List (Value κ)} (mem : item ∈ items)
      (lt : PartOf part item) : PartOf part (.tuple items)
  | dict {part : Value κ} {item : Key κ × Value κ} {items : List (Key κ × Value κ)}
      (mem : item ∈ items) (lt : PartOf part item.2) : PartOf part (.dict items)
  | object {part : Value κ} {cls : List Char} {attr : List Char × Value κ}
      {attrs : List (List Char × Value κ)} (mem : attr ∈ attrs)
      (lt : PartOf part attr.2) : PartOf part (.object cls attrs)

/-- As what `_deserialize_any` reads a value. -/
inductive Reading where
  | dict | cls | tensor | other
  deriving DecidableEq, Repr

/-- The branch that `_deserialize_any` and `deserialize_type` take. -/
def reading : Value κ → Reading
  | .dict items =>
      if items.length = 1 ∧ hasKey rawDictKey items then .dict
      else if hasKey typeKey items then
        match getItem typeKey items with
        | some (.str name) => if name = "Tensor".toList then .tensor else .cls
        | _ => .cls
      else .dict
  | _ => .other

def kind : Value κ → Reading
  | .dict _ => .dict
  | .object .. => .cls
  | .tensor _ => .tensor
  | _ => .other

/-- The values on which the decoding of a value calls `_deserialize_any`, itself among them. -/
inductive Decodes : Value κ → Value κ → Prop
  | self (data : Value κ) : Decodes data data
  | list {data item : Value κ} {items : List (Value κ)} (mem : item ∈ items)
      (later : Decodes item data) : Decodes (.list items) data
  | tuple {data item : Value κ} {items : List (Value κ)} (mem : item ∈ items)
      (later : Decodes item data) : Decodes (.tuple items) data
  | raw {data : Value κ} {items inner : List (Key κ × Value κ)} {item : Key κ × Value κ}
      (alone : items.length = 1) (wrapped : getItem rawDictKey items = some (.dict inner))
      (mem : item ∈ inner) (later : Decodes item.2 data) : Decodes (.dict items) data
  | cls {data : Value κ} {items : List (Key κ × Value κ)} {item : Key κ × Value κ}
      (isClass : reading (.dict items) = .cls) (mem : item ∈ items)
      (untagged : item.1.is typeKey = false) (later : Decodes item.2 data) :
      Decodes (.dict items) data
  | dict {data : Value κ} {items : List (Key κ × Value κ)} {item : Key κ × Value κ}
      (unwrapped : ¬(items.length = 1 ∧ hasKey rawDictKey items))
      (untagged : hasKey typeKey items = false) (mem : item ∈ items)
      (later : Decodes item.2 data) : Decodes (.dict items) data

section Encoding

variable {items : List (Key κ × Value κ)} {name : List Char} {value : Value κ}

@[simp] theorem is_str (own name : List Char) : (Key.str own : Key κ).is name = decide (own = name) :=
  rfl

theorem mem_serializeItems {item : Key κ × Value κ} :
    item ∈ serializeItems items ↔ ∃ inner ∈ items, item = (inner.1, serializeAny inner.2) := by
  induction items with
  | nil => simp [serializeItems]
  | cons head items ih => simp [serializeItems, ih]

theorem mem_serializeList {values : List (Value κ)} :
    value ∈ serializeList values ↔ ∃ inner ∈ values, value = serializeAny inner := by
  induction values with
  | nil => simp [serializeList]
  | cons head values ih => simp [serializeList, ih]

theorem hasKey_of_getItem (found : getItem name items = some value) : hasKey name items = true := by
  obtain ⟨item, isFirst, -⟩ := Option.map_eq_some_iff.mp found
  have isKey := find?_some isFirst
  exact any_eq_true.mpr ⟨item, mem_of_find?_eq_some isFirst, isKey⟩

theorem setItem_of_absent (absent : hasKey name items = false) :
    setItem name value items = items ++ [(.str name, value)] := by
  induction items with
  | nil => rfl
  | cons item items ih =>
    simp only [hasKey, any_cons, Bool.or_eq_false_iff] at absent
    unfold setItem
    rw [if_neg (by simp [absent.1]), ih absent.2]
    rfl

theorem serializeAttrs_eq {attrs : List (List Char × Value κ)}
    (absent : ∀ attr ∈ attrs, hasKey attr.1 items = false)
    (nodup : (attrs.map Prod.fst).Nodup) :
    serializeAttrs items attrs =
      items ++ attrs.map fun attr => (.str attr.1, serializeAny attr.2) := by
  induction attrs generalizing items with
  | nil => rw [serializeAttrs, map_nil, append_nil]
  | cons attr attrs ih =>
    obtain ⟨new, nodup⟩ := nodup_cons.mp nodup
    rw [serializeAttrs, setItem_of_absent (absent attr mem_cons_self), ih ?_ nodup,
      map_cons, append_assoc, singleton_append]
    intro other mem
    have apart : attr.1 ≠ other.1 := fun same => new (same ▸ mem_map_of_mem mem)
    have pre := absent other (mem_cons_of_mem _ mem)
    simp only [hasKey, any_append, any_cons, any_nil, is_str,
      Bool.or_eq_false_iff, Bool.or_false] at pre ⊢
    exact ⟨pre, decide_eq_false apart⟩

end Encoding

section Decoding

variable {clsMap : ClassMap κ} {items : List (Key κ × Value κ)}

theorem deserializeList_serializeList {values : List (Value κ)}
    (each : ∀ value ∈ values, deserializeAny clsMap (serializeAny value) = .ok value) :
    deserializeList clsMap (serializeList values) = .ok values := by
  induction values with
  | nil => rfl
  | cons value values ih =>
    rw [serializeList, deserializeList, each value mem_cons_self,
      ih fun other mem => each other (mem_cons_of_mem _ mem)]
    rfl

theorem deserializeItems_serializeItems
    (each : ∀ item ∈ items, deserializeAny clsMap (serializeAny item.2) = .ok item.2) :
    deserializeItems clsMap (serializeItems items) = .ok items := by
  induction items with
  | nil => rfl
  | cons item items ih =>
    rw [serializeItems, deserializeItems, each item mem_cons_self,
      ih fun other mem => each other (mem_cons_of_mem _ mem)]
    rfl

theorem deserializeKwargs_attrs {attrs : List (List Char × Value κ)}
    (untagged : ∀ attr ∈ attrs, attr.1 ≠ typeKey)
    (each : ∀ attr ∈ attrs, deserializeAny clsMap (serializeAny attr.2) = .ok attr.2) :
    deserializeKwargs clsMap (attrs.map fun attr => (.str attr.1, serializeAny attr.2)) =
      .ok (attrs.map fun attr => (.str attr.1, attr.2)) := by
  induction attrs with
  | nil => rfl
  | cons attr attrs ih =>
    have other := untagged attr mem_cons_self
    rw [map_cons, deserializeKwargs, is_str, if_neg (by simpa using other), each attr mem_cons_self,
      ih (fun other mem => untagged other (mem_cons_of_mem _ mem))
        fun other mem => each other (mem_cons_of_mem _ mem)]
    rfl

theorem getItem_attrs {attrs : List (List Char × Value κ)} {attr : List Char × Value κ}
    (mem : attr ∈ attrs) (nodup : (attrs.map Prod.fst).Nodup) :
    getItem attr.1 (attrs.map fun attr => ((.str attr.1 : Key κ), attr.2)) = some attr.2 := by
  induction attrs with
  | nil => exact absurd mem not_mem_nil
  | cons head attrs ih =>
    obtain ⟨new, nodup⟩ := nodup_cons.mp nodup
    rcases mem_cons.mp mem with rfl | later
    · simp [getItem]
    · have apart : head.1 ≠ attr.1 := fun same => new (same ▸ mem_map_of_mem later)
      have found := ih later nodup
      simp only [getItem] at found ⊢
      rw [map_cons, find?_cons_of_neg (by simpa using apart), found]

theorem bind_eq {kwargs : List (Key κ × Value κ)} {fields : List (Field κ)}
    {attrs : List (List Char × Value κ)} (names : attrs.map Prod.fst = fields.map Field.name)
    (found : ∀ attr ∈ attrs, getItem attr.1 kwargs = some attr.2) :
    DataClass.bind kwargs fields = .ok attrs := by
  induction fields generalizing attrs with
  | nil =>
    rw [map_nil, map_eq_nil_iff] at names
    rw [names]
    rfl
  | cons field fields ih =>
    cases attrs with
    | nil => cases names
    | cons attr attrs =>
      obtain ⟨same, names⟩ := cons.inj names
      have here := found attr mem_cons_self
      rw [same] at here
      rw [DataClass.bind, here,
        ih names fun other mem => found other (mem_cons_of_mem _ mem), ← same]
      rfl

theorem construct_attrs {cls : DataClass κ} {attrs : List (List Char × Value κ)}
    (names : attrs.map Prod.fst = cls.fields.map Field.name) (accepted : cls.accepts attrs = true) :
    cls.construct (attrs.map fun attr => (.str attr.1, attr.2)) = .ok (.object cls.name attrs) := by
  have nodup : (attrs.map Prod.fst).Nodup := names ▸ cls.distinct
  have expected : ((attrs.map fun attr => ((.str attr.1 : Key κ), attr.2)).any fun item =>
      !cls.fields.any fun field => item.1.is field.name) = false := by
    rw [any_eq_false]
    intro item mem
    obtain ⟨attr, isAttr, rfl⟩ := mem_map.mp mem
    have isField : attr.1 ∈ cls.fields.map Field.name := names ▸ mem_map_of_mem isAttr
    obtain ⟨field, isField, same⟩ := mem_map.mp isField
    simp only [Bool.not_eq_true', Bool.not_eq_false, any_eq_true]
    exact ⟨field, isField, by simp [same]⟩
  unfold DataClass.construct
  rw [expected, bind_eq names fun attr mem => getItem_attrs mem nodup]
  change (if cls.accepts attrs then _ else _) = _
  rw [if_pos accepted]
  rfl

end Decoding

theorem get_name {clsMap : ClassMap κ} {cls : DataClass κ} (known : cls ∈ clsMap.classes) :
    clsMap.get cls.name = some cls := by
  have all : ∀ classes : List (DataClass κ), (classes.map DataClass.name).Nodup → cls ∈ classes →
      classes.find? (fun other => other.name = cls.name) = some cls := by
    intro classes
    induction classes with
    | nil => nofun
    | cons head classes ih =>
      intro nodup known
      obtain ⟨new, nodup⟩ := nodup_cons.mp nodup
      rcases mem_cons.mp known with rfl | later
      · exact find?_cons_of_pos (decide_eq_true rfl)
      · have apart : head.name ≠ cls.name := fun same => new (same ▸ mem_map_of_mem later)
        rw [find?_cons_of_neg (by simpa using apart)]
        exact ih nodup later
  exact all clsMap.classes clsMap.distinct known

section Tags

variable {clsMap : ClassMap κ} {cls : DataClass κ} {attrs : List (List Char × Value κ)}

theorem serializeType_eq (names : attrs.map Prod.fst = cls.fields.map Field.name) :
    serializeType cls.name attrs =
      (.str typeKey, .str cls.name) :: attrs.map fun attr => (.str attr.1, serializeAny attr.2) := by
  refine serializeAttrs_eq (fun attr mem => ?_) (names ▸ cls.distinct)
  have apart : typeKey ≠ attr.1 := fun same => cls.untagged (names ▸ same ▸ mem_map_of_mem mem)
  simp [hasKey, apart]

theorem serializeAny_dict (items : List (Key κ × Value κ)) : serializeAny (.dict items) =
        .dict [(.str rawDictKey, .dict (serializeItems items))] ∨
      serializeAny (.dict items) = .dict (serializeItems items) ∧
        hasKey typeKey (serializeItems items) = false ∧
        hasKey rawDictKey (serializeItems items) = false := by
  rw [serializeAny]
  split
  · exact .inl rfl
  · next plain =>
    simp only [Bool.not_eq_true, Bool.or_eq_false_iff] at plain
    exact .inr ⟨rfl, plain⟩

theorem reading_wrapper (inner : Value κ) : reading (.dict [(.str rawDictKey, inner)]) = .dict := by
  simp [reading, hasKey]

theorem reading_dict (items : List (Key κ × Value κ)) :
    reading (serializeAny (.dict items)) = .dict := by
  rcases serializeAny_dict items with wrapped | ⟨plain, untagged, unwrapped⟩
  · rw [wrapped, reading_wrapper]
  · rw [plain]
    refine (if_neg ?_).trans (if_neg ?_)
    · simp [unwrapped]
    · simp [untagged]

theorem reading_tensor (tensor : Tensor) :
    reading (.dict (serializeTensor tensor : List (Key κ × Value κ))) = .tensor := rfl

theorem reading_object (known : cls ∈ clsMap.classes)
    (names : attrs.map Prod.fst = cls.fields.map Field.name) :
    reading (.dict (serializeType cls.name attrs)) = .cls := by
  have noTensor : cls.name ≠ "Tensor".toList := fun same =>
    clsMap.noTensor (same ▸ mem_map_of_mem known)
  rw [serializeType_eq names]
  refine (if_neg ?_).trans ((if_pos ?_).trans ?_)
  · rintro ⟨alone, wrapped⟩
    rw [length_cons, Nat.add_eq_right, length_map, length_eq_zero_iff] at alone
    rw [alone] at wrapped
    cases wrapped
  · simp [hasKey]
  · simp only [getItem, is_str, decide_true, find?_cons_of_pos, Option.map_some]
    exact if_neg noTensor

end Tags

/-! ### The round trip -/

section RoundTrip

variable {clsMap : ClassMap κ}

theorem deserializeTensor_serializeTensor (tensor : Tensor) :
    deserializeTensor (serializeTensor tensor : List (Key κ × Value κ)) = .ok (.tensor tensor) := by
  have buffer : getItem "buffer".toList (serializeTensor tensor : List (Key κ × Value κ)) =
      some (.bytes tensor.buffer) := rfl
  have dtype : getItem "dtype".toList (serializeTensor tensor : List (Key κ × Value κ)) =
      some (.str tensor.dtype.str) := rfl
  unfold deserializeTensor
  simp only [buffer, dtype, DType.ofName_str, tensor.whole, dite_true]
  rfl

theorem deserializeAny_tagged {items : List (Key κ × Value κ)}
    (tagged : reading (.dict items) ≠ .dict) :
    deserializeAny clsMap (.dict items) = deserializeType clsMap items := by
  have unwrapped : ¬(items.length = 1 ∧ hasKey rawDictKey items) := fun wrapped =>
    tagged (if_pos wrapped)
  have isTagged : hasKey typeKey items := by
    by_contra untagged
    exact tagged ((if_neg unwrapped).trans (if_neg untagged))
  rw [deserializeAny, if_neg unwrapped, if_pos isTagged, deserializeType]

theorem deserializeType_serializeType {cls : DataClass κ} {attrs : List (List Char × Value κ)}
    (known : cls ∈ clsMap.classes) (names : attrs.map Prod.fst = cls.fields.map Field.name)
    (accepted : cls.accepts attrs = true)
    (each : ∀ attr ∈ attrs, deserializeAny clsMap (serializeAny attr.2) = .ok attr.2) :
    deserializeType clsMap (serializeType cls.name attrs) = .ok (.object cls.name attrs) := by
  have noTensor : cls.name ≠ "Tensor".toList := fun same =>
    clsMap.noTensor (same ▸ mem_map_of_mem known)
  have kwargs : deserializeKwargs clsMap (serializeType cls.name attrs) =
      .ok (attrs.map fun attr => (.str attr.1, attr.2)) := by
    rw [serializeType_eq names, deserializeKwargs, is_str, if_pos (decide_eq_true rfl)]
    refine deserializeKwargs_attrs (fun attr mem same => ?_) each
    exact cls.untagged (names ▸ same ▸ mem_map_of_mem mem)
  have tag : getItem typeKey (serializeType cls.name attrs) = some (.str cls.name) := by
    rw [serializeType_eq names]
    simp [getItem]
  rw [deserializeType, kwargs]
  unfold ofTag
  rw [tag]
  dsimp only
  rw [if_neg noTensor, get_name known]
  exact construct_attrs names accepted

theorem deserializeAny_serializeAny {value : Value κ} (built : Built clsMap value) :
    deserializeAny clsMap (serializeAny value) = .ok value := by
  induction built with
  | none | bool | int | float | str | bytes => rfl
  | list all each | tuple all each =>
    rw [serializeAny, deserializeAny, deserializeList_serializeList each]
    rfl
  | @dict items all each =>
    have inner := deserializeItems_serializeItems each
    rcases serializeAny_dict items with wrapped | ⟨plain, untagged, unwrapped⟩
    · rw [wrapped, deserializeAny, if_pos ⟨rfl, by simp [hasKey]⟩, deserializeRaw, inner]
      rfl
    · rw [plain, deserializeAny, if_neg (by simp [unwrapped]), if_neg (by simp [untagged]), inner]
      rfl
  | tensor tensor =>
    rw [serializeAny, deserializeAny_tagged (by rw [reading_tensor]; decide)]
    exact deserializeTensor_serializeTensor tensor
  | @object cls attrs known names accepted all each =>
    change deserializeAny clsMap (.dict (serializeType cls.name attrs)) = _
    rw [deserializeAny_tagged (by rw [reading_object known names]; decide)]
    exact deserializeType_serializeType known names accepted each

theorem reading_serializeAny {value : Value κ} (built : Built clsMap value) :
    reading (serializeAny value) = kind value := by
  cases built with
  | none | bool | int | float | str | bytes | list | tuple => rfl
  | @dict items _ => exact reading_dict items
  | tensor tensor => exact reading_tensor tensor
  | object known names _ _ => exact reading_object known names

theorem reading_of_wrapped {items : List (Key κ × Value κ)} {inner : Value κ}
    (alone : items.length = 1) (wrapped : getItem rawDictKey items = some inner) :
    reading (.dict items) = .dict := by
  exact if_pos ⟨alone, hasKey_of_getItem wrapped⟩

/-- **The decoder calls itself on the encodings of the parts alone.** -/
theorem decodes_part {value data : Value κ} (built : Built clsMap value)
    (decodes : Decodes (serializeAny value) data) :
    ∃ part, PartOf part value ∧ Built clsMap part ∧ data = serializeAny part := by
  induction built generalizing data with
  | none | bool | int | float | str | bytes =>
    cases decodes
    exact ⟨_, .self _, by constructor, rfl⟩
  | @list items all each =>
    rw [serializeAny] at decodes
    cases decodes with
    | self => exact ⟨.list items, .self _, .list all, rfl⟩
    | list mem later =>
      obtain ⟨inner, isItem, rfl⟩ := mem_serializeList.mp mem
      obtain ⟨part, lt, isBuilt, same⟩ := each inner isItem later
      exact ⟨part, .list isItem lt, isBuilt, same⟩
  | @tuple items all each =>
    rw [serializeAny] at decodes
    cases decodes with
    | self => exact ⟨.tuple items, .self _, .tuple all, rfl⟩
    | tuple mem later =>
      obtain ⟨inner, isItem, rfl⟩ := mem_serializeList.mp mem
      obtain ⟨part, lt, isBuilt, same⟩ := each inner isItem later
      exact ⟨part, .tuple isItem lt, isBuilt, same⟩
  | @dict items all each =>
    have isDict := reading_dict items
    have through : ∀ item ∈ serializeItems items, Decodes item.2 data →
        ∃ part, PartOf part (.dict items) ∧ Built clsMap part ∧ data = serializeAny part := by
      intro item mem later
      obtain ⟨inner, isItem, rfl⟩ := mem_serializeItems.mp mem
      obtain ⟨part, lt, isBuilt, same⟩ := each inner isItem later
      exact ⟨part, .dict isItem lt, isBuilt, same⟩
    have whole : data = serializeAny (.dict items) →
        ∃ part, PartOf part (.dict items) ∧ Built clsMap part ∧ data = serializeAny part :=
      fun same => ⟨.dict items, .self _, .dict all, same⟩
    rcases serializeAny_dict items with wrapped | ⟨plain, untagged, unwrapped⟩
    · rw [wrapped] at decodes isDict whole
      cases decodes with
      | self => exact whole rfl
      | raw alone found mem later =>
        obtain rfl : serializeItems items = _ := Value.dict.inj (Option.some.inj found)
        exact through _ mem later
      | cls isClass => rw [isDict] at isClass; cases isClass
      | dict notWrapped => exact absurd ⟨rfl, by simp [hasKey]⟩ notWrapped
    · rw [plain] at decodes isDict whole
      cases decodes with
      | self => exact whole rfl
      | raw alone found =>
        rw [hasKey_of_getItem found] at unwrapped
        cases unwrapped
      | cls isClass => rw [isDict] at isClass; cases isClass
      | dict _ _ mem later => exact through _ mem later
  | tensor tensor =>
    have isTensor := reading_tensor (κ := κ) tensor
    rw [serializeAny] at decodes
    cases decodes with
    | self => exact ⟨.tensor tensor, .self _, .tensor tensor, by rw [serializeAny]⟩
    | raw alone => cases alone
    | cls isClass => rw [isTensor] at isClass; cases isClass
    | dict _ untagged => cases untagged
  | @object cls attrs known names accepted all each =>
    have isClass := reading_object known names
    change Decodes (.dict (serializeType cls.name attrs)) data at decodes
    cases decodes with
    | self => exact ⟨.object cls.name attrs, .self _, .object known names accepted all, rfl⟩
    | raw alone found =>
      rw [reading_of_wrapped alone found] at isClass
      cases isClass
    | cls _ mem untagged later =>
      rw [serializeType_eq names] at mem
      rcases mem_cons.mp mem with rfl | mem
      · exact absurd untagged (by simp)
      · obtain ⟨attr, isAttr, rfl⟩ := mem_map.mp mem
        obtain ⟨part, lt, isBuilt, same⟩ := each attr isAttr later
        exact ⟨part, .object isAttr lt, isBuilt, same⟩
    | dict _ untagged =>
      rw [serializeType_eq names] at untagged
      exact absurd untagged (by simp [hasKey])

/-- **The round trip of a message.** Decoding builds the message again, and whatever the decoder
calls itself on is the encoding of a part of it, is read as what that part is, and gives it back. -/
theorem message_round_trip {cls : List Char} {attrs : List (List Char × Value κ)}
    (built : Built clsMap (.object cls attrs)) :
    deserializeType clsMap (serializeType cls attrs) = .ok (.object cls attrs) ∧
      ∀ data, Decodes (.dict (serializeType cls attrs)) data →
        ∃ part, PartOf part (.object cls attrs) ∧ data = serializeAny part ∧
          reading data = kind part ∧ deserializeAny clsMap data = .ok part := by
  refine ⟨?_, fun data decodes => ?_⟩
  · have isClass : reading (.dict (serializeType cls attrs)) = .cls := reading_serializeAny built
    have decoded := deserializeAny_serializeAny built
    change deserializeAny clsMap (.dict (serializeType cls attrs)) = _ at decoded
    rwa [deserializeAny_tagged (by rw [isClass]; decide)] at decoded
  · obtain ⟨part, lt, isBuilt, rfl⟩ := decodes_part built decodes
    exact ⟨part, lt, rfl, reading_serializeAny isBuilt, deserializeAny_serializeAny isBuilt⟩

def taggedTool : Value Nat :=
  .dict [(.str typeKey, .str "Tensor".toList),
    (.str rawDictKey, .dict [(.str rawDictKey, .tuple [.none, .float zeroBits])]), (.other 7, .bytes [1])]

/-- A request with such a tool. -/
def taggedAttrs : List (List Char × Value Nat) :=
  [("uid".toList, .int 3), ("text".toList, .str "hi".toList),
    ("sampling_params".toList, .object "SamplingParams".toList
      [("temperature".toList, .float zeroBits), ("top_k".toList, .int (-1)),
        ("top_p".toList, .float oneBits), ("ignore_eos".toList, .bool false),
        ("max_tokens".toList, .int 1024), ("stop_strs".toList, .list []),
        ("presence_penalty".toList, .float oneBits), ("frequency_penalty".toList, .int (-2))]),
    ("chat_template_kwargs".toList, .none), ("tools".toList, .list [taggedTool]),
    ("inline_system_policy".toList, .none)]

theorem taggedAttrs_built : Built tokenizerMap (.object "TokenizeMsg".toList taggedAttrs) := by
  have params : (samplingParams : DataClass Nat) ∈ tokenizerMap.classes := by simp [tokenizerMap]
  have msg : (tokenizeMsg : DataClass Nat) ∈ tokenizerMap.classes := by simp [tokenizerMap]
  have inner : Built tokenizerMap taggedTool := by
    refine .dict ?_
    simp only [forall_mem_cons]
    refine ⟨.str _, .dict ?_, .bytes _, nofun⟩
    simp only [forall_mem_cons]
    refine ⟨.tuple ?_, nofun⟩
    simp only [forall_mem_cons]
    exact ⟨.none, .float _, nofun⟩
  refine Built.object msg rfl rfl ?_
  simp only [taggedAttrs, forall_mem_cons]
  refine ⟨.int 3, .str _, Built.object params rfl rfl ?_, .none, .list ?_, .none, nofun⟩
  · simp only [forall_mem_cons]
    exact ⟨.float _, .int _, .float _, .bool _, .int _, .list nofun, .float _, .int _, nofun⟩
  · simp only [forall_mem_cons]
    exact ⟨inner, nofun⟩

theorem message_round_trip_tagged :
    deserializeType tokenizerMap (serializeType "TokenizeMsg".toList taggedAttrs) =
        .ok (.object "TokenizeMsg".toList taggedAttrs) ∧
      ∀ data, Decodes (.dict (serializeType "TokenizeMsg".toList taggedAttrs)) data →
        ∃ part, PartOf part (.object "TokenizeMsg".toList taggedAttrs) ∧
          data = serializeAny part ∧ reading data = kind part ∧
          deserializeAny tokenizerMap data = .ok part :=
  message_round_trip taggedAttrs_built

end RoundTrip

end FreeToken.Wire
