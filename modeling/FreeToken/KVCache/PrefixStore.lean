/-
**The prefix store: what the plain radix cache is for.**

A map from page-aligned words to their pages, with the words that are locked. It knows of no nodes
and no splits.
-/

import FreeToken.KVCache.RadixCache
import FreeToken.Lib.PageMap

namespace FreeToken

open PageTree

inductive RadixOp where
  | matchPrefix (inputIds : List Token)
  | insertPrefix (inputIds : List Token) (indices : List Nat)
  | lock (handle : CacheHandle)
  | unlock (handle : CacheHandle)
  | evict (size : Nat)
  deriving DecidableEq

/-- Their answers: a match comes with the indices its handle reads. -/
inductive RadixResult where
  | matched (handle : CacheHandle) (indices : List Nat)
  | inserted (cachedLen : Nat) (handle : CacheHandle)
  | done
  | evicted (indices : List Nat)
  deriving DecidableEq

def RadixOp.Keeps : RadixOp → Prop
  | .evict _ => False
  | _ => True

def handleOn (word : List Token) : CacheHandle := { cachedLen := word.length, node := word }

structure PrefixStore where
  pages : List Token → Option (List Nat)
  locks : List (List Token)

namespace PrefixStore

def empty : PrefixStore := ⟨fun _ => none, []⟩

/-- The longest page-aligned stored prefix of a query. -/
structure LongestStored (ps : Nat) (pages : List Token → Option (List Nat))
    (inputIds word : List Token) : Prop where
  onIds : word <+: inputIds
  aligned : ps ∣ word.length
  stored : word = [] ∨ (pages word).isSome = true
  longest : ∀ other, other <+: inputIds → (pages other).isSome = true → other.length ≤ word.length

/-- The map after an insertion: what is stored stays, and every other page-aligned prefix of the ids
gets its page of the indices. -/
def insertPages (ps : Nat) (pages : List Token → Option (List Nat)) (inputIds : List Token)
    (indices : List Nat) (word : List Token) : Option (List Nat) :=
  match pages word with
  | some page => some page
  | none =>
      if word ≠ [] ∧ ps ∣ word.length ∧ word <+: inputIds then
        some ((indices.drop (word.length - ps)).take ps)
      else none

/-- One operation on the store. An eviction may take any stored words that are below no lock, as
long as it frees enough. -/
inductive Step (ps : Nat) : PrefixStore → RadixOp → RadixResult → PrefixStore → Prop where
  | matchPrefix {store : PrefixStore} {inputIds word : List Token}
      (longest : LongestStored ps store.pages inputIds word) :
      Step ps store (.matchPrefix inputIds)
        (.matched (handleOn word) (pagesUpTo ps store.pages word)) store
  | insertPrefix {store : PrefixStore} {inputIds word : List Token} {indices : List Nat}
      (longest : LongestStored ps store.pages inputIds word) :
      Step ps store (.insertPrefix inputIds indices)
        (.inserted word.length (handleOn (inputIds.take (alignDown inputIds.length ps))))
        { store with pages := insertPages ps store.pages inputIds indices }
  | lock {store : PrefixStore} {handle : CacheHandle} :
      Step ps store (.lock handle) .done { store with locks := handle.node :: store.locks }
  | unlock {store : PrefixStore} {handle : CacheHandle} (locked : handle.node ∈ store.locks) :
      Step ps store (.unlock handle) .done { store with locks := store.locks.erase handle.node }
  | evict {store : PrefixStore} {size : Nat} {words : List (List Token)} {freed : List Nat}
      (nodup : words.Nodup)
      (stored : ∀ word ∈ words, (store.pages word).isSome = true)
      (unlocked : ∀ word ∈ words, ∀ lock ∈ store.locks, ¬word <+: lock)
      (pages : freed = words.flatMap fun word => (store.pages word).getD [])
      (enough : size ≤ freed.length) :
      Step ps store (.evict size) (.evicted freed)
        { store with pages := fun word => if word ∈ words then none else store.pages word }

/-- A sequence of operations. -/
inductive Run (ps : Nat) : PrefixStore → List RadixOp → List RadixResult → PrefixStore → Prop where
  | nil {store : PrefixStore} : Run ps store [] [] store
  | cons {store next last : PrefixStore} {op : RadixOp} {res : RadixResult}
      {ops : List RadixOp} {results : List RadixResult} (step : Step ps store op res next)
      (rest : Run ps next ops results last) : Run ps store (op :: ops) (res :: results) last

variable {ps : Nat} {pages : List Token → Option (List Nat)} {inputIds word : List Token}

theorem insertPages_of_stored {page : List Nat} (here : pages word = some page)
    (indices : List Nat) : insertPages ps pages inputIds indices word = some page := by
  unfold insertPages
  rw [here]

theorem LongestStored.unique {other : List Token} (left : LongestStored ps pages inputIds word)
    (right : LongestStored ps pages inputIds other) : word = other := by
  have bound : ∀ {first second : List Token}, LongestStored ps pages inputIds first →
      LongestStored ps pages inputIds second → first.length ≤ second.length := by
    intro first second one two
    rcases one.stored with rfl | here
    · exact Nat.zero_le _
    · exact two.longest first one.onIds here
  exact prefix_eq_of_length left.onIds right.onIds
    (Nat.le_antisymm (bound left right) (bound right left))

theorem Step.deterministic {store first second : PrefixStore} {op : RadixOp}
    {left right : RadixResult} (keeps : op.Keeps) (one : Step ps store op left first)
    (two : Step ps store op right second) : left = right ∧ first = second := by
  cases one with
  | matchPrefix longest =>
    cases two with
    | matchPrefix other =>
      rw [longest.unique other]
      exact ⟨rfl, rfl⟩
  | insertPrefix longest =>
    cases two with
    | insertPrefix other =>
      rw [longest.unique other]
      exact ⟨rfl, rfl⟩
  | lock =>
    cases two
    exact ⟨rfl, rfl⟩
  | unlock locked =>
    cases two
    exact ⟨rfl, rfl⟩
  | evict => exact absurd keeps id

/-- Without evictions the answers are a function of the store. -/
theorem Run.deterministic {store first : PrefixStore} {ops : List RadixOp}
    {left : List RadixResult} (one : Run ps store ops left first) :
    ∀ {second : PrefixStore} {right : List RadixResult}, (∀ op ∈ ops, op.Keeps) →
      Run ps store ops right second → left = right ∧ first = second := by
  induction one with
  | nil =>
    intro second right _ two
    cases two
    exact ⟨rfl, rfl⟩
  | cons step rest ih =>
    intro second right keeps two
    cases two with
    | cons otherStep otherRest =>
      obtain ⟨rfl, rfl⟩ := step.deterministic (keeps _ List.mem_cons_self) otherStep
      obtain ⟨rfl, rfl⟩ := ih (fun op mem => keeps op (List.mem_cons_of_mem _ mem)) otherRest
      exact ⟨rfl, rfl⟩

theorem Run.match_last {store last : PrefixStore} {op : RadixOp} {inputIds : List Token}
    {results : List RadixResult} {answer : RadixResult}
    (run : Run ps store [op, .matchPrefix inputIds] (answer :: results) last) :
    ∃ between, Run ps store [op] [answer] between ∧ last = between := by
  cases run with
  | cons step rest =>
    cases rest with
    | cons query done =>
      cases done
      cases query
      exact ⟨_, .cons step .nil, rfl⟩

end PrefixStore

end FreeToken
