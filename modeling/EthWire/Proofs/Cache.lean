/-
# A cache holds the keys that were used last

Since a cache was cleared last, some keys were stored in it, and each of them was used at some time for the last
time: stored, or found. The entries of the cache are those of the keys that were used last, as many as it has
room for, in this order and with the values that were stored last (`Cache.HoldsLatest`). A lookup that finds
its key and an insertion both bring the key to the front and let the others fall back
(`Cache.HoldsLatest.insert`); an entry behind the last place is forgotten, and since a key is found only where
it is held, it stays forgotten until it is stored again.

A lookup that computes a value where it finds none may have its computation do other things
(`Cache.lookupOrInsertM`), such as counting how often it runs.

Key definitions: `Cache.Event`, `Cache.latestKeys`, `Cache.lastValue?`, `Cache.HoldsLatest`, `Cache.Call`,
`Cache.run`.
Key theorems: `Cache.latestKeys_concat`, `Cache.HoldsLatest.insert`, `Cache.holdsLatest_run`,
`Cache.latest_used_keys_are_held`.
-/
import EthWire.Cache
import Mathlib.Data.List.Dedup
import Mathlib.Data.List.DropRight

namespace EthWire
namespace Cache

variable {κ υ : Type}

/-! ### Events -/

/-- What a call did to a cache. -/
inductive Event (κ υ : Type) where
  /-- A value was found under the key. -/
  | found (key : κ)
  /-- The value was stored under the key. -/
  | stored (key : κ) (value : υ)
  /-- All entries were forgotten. -/
  | cleared

namespace Event

/-- The key that was used. -/
def key? : Event κ υ → Option κ
  | found key => some key
  | stored key _ => some key
  | cleared => none

/-- The entry that was stored. -/
def entry? : Event κ υ → Option (κ × υ)
  | stored key value => some (key, value)
  | _ => none

def isCleared : Event κ υ → Bool
  | cleared => true
  | _ => false

theorem isCleared_of_key? {event : Event κ υ} {key : κ} (h : event.key? = some key) : event.isCleared = false := by
  cases event with
  | cleared => cases h
  | _ => rfl

end Event

/-- The events behind the last one that cleared the cache, in their order. -/
def sinceCleared (events : List (Event κ υ)) : List (Event κ υ) :=
  events.rtakeWhile fun event => !event.isCleared

/-- The entries that were stored since then. -/
def storedEntries (events : List (Event κ υ)) : List (κ × υ) :=
  (sinceCleared events).filterMap Event.entry?

/-- Their keys, as often as they were stored. -/
def storedKeys (events : List (Event κ υ)) : List κ :=
  (storedEntries events).map (·.1)

section

variable {events : List (Event κ υ)} {event : Event κ υ} {key : κ} {value : υ}

theorem sinceCleared_concat (h : event.isCleared = false) :
    sinceCleared (events ++ [event]) = sinceCleared events ++ [event] := by
  apply List.rtakeWhile_concat_pos
  rw [h]
  rfl

theorem sinceCleared_cleared : sinceCleared (events ++ [.cleared]) = [] := by
  unfold sinceCleared
  rw [List.rtakeWhile_concat]
  rfl

theorem storedEntries_stored :
    storedEntries (events ++ [.stored key value]) = storedEntries events ++ [(key, value)] := by
  unfold storedEntries
  rw [sinceCleared_concat rfl, List.filterMap_append]
  rfl

theorem storedEntries_found : storedEntries (events ++ [.found key]) = storedEntries events := by
  unfold storedEntries
  rw [sinceCleared_concat rfl, List.filterMap_append]
  exact List.append_nil _

end

variable [DecidableEq κ]

/-- The keys that were used since the cache was cleared, each once, the latest used first. -/
def latestKeys (events : List (Event κ υ)) : List κ :=
  ((sinceCleared events).filterMap Event.key?).dedup.reverse

/-- The value that was stored last under a key since then. -/
def lastValue? (events : List (Event κ υ)) (key : κ) : Option υ :=
  ((storedEntries events).reverse.find? fun entry => entry.1 = key).map (·.2)

/-- What occurs again moves to the end. -/
theorem dedup_concat (keys : List κ) (key : κ) : (keys ++ [key]).dedup = keys.dedup.erase key ++ [key] := by
  induction keys with
  | nil => rfl
  | cons first keys ih =>
    rw [List.cons_append]
    by_cases hmem : first ∈ keys
    · rw [List.dedup_cons_of_mem (List.mem_append_left _ hmem), List.dedup_cons_of_mem hmem, ih]
    · rw [List.dedup_cons_of_notMem hmem]
      by_cases hfirst : first = key
      · subst hfirst
        have herase : keys.dedup.erase first = keys.dedup := List.erase_of_not_mem (by rwa [List.mem_dedup])
        rw [List.dedup_cons_of_mem (List.mem_append_right _ List.mem_cons_self), ih, List.erase_cons_head, herase]
      · have hbeq : ¬ (first == key) = true := by simpa using hfirst
        rw [List.dedup_cons_of_notMem (by simp [hmem, hfirst]), ih, List.erase_cons_tail hbeq, List.cons_append]

section

variable {events : List (Event κ υ)} {event : Event κ υ} {key other : κ} {value : υ}

/-- The key of an event is the latest used one, and the others keep their order. -/
theorem latestKeys_concat (h : event.key? = some key) :
    latestKeys (events ++ [event]) = key :: (latestKeys events).erase key := by
  have hnodup : ((sinceCleared events).filterMap Event.key?).dedup.Nodup := List.nodup_dedup _
  unfold latestKeys
  rw [sinceCleared_concat (Event.isCleared_of_key? h), List.filterMap_append, List.filterMap_cons_some h,
    List.filterMap_nil, dedup_concat, List.reverse_append, List.reverse_singleton, List.singleton_append,
    hnodup.erase_eq_filter, (List.nodup_reverse.mpr hnodup).erase_eq_filter, List.filter_reverse]

theorem nodup_latestKeys : (latestKeys events).Nodup :=
  List.nodup_reverse.mpr (List.nodup_dedup _)

theorem mem_latestKeys_concat_iff (h : event.key? = some key) :
    other ∈ latestKeys (events ++ [event]) ↔ other = key ∨ other ∈ latestKeys events := by
  rw [latestKeys_concat h, List.mem_cons]
  by_cases hother : other = key
  · simp [hother]
  · rw [List.mem_erase_of_ne hother]

theorem lastValue?_stored_self : lastValue? (events ++ [.stored key value]) key = some value := by
  unfold lastValue?
  rw [storedEntries_stored]
  simp

theorem lastValue?_stored_of_ne (h : other ≠ key) :
    lastValue? (events ++ [.stored key value]) other = lastValue? events other := by
  unfold lastValue?
  rw [storedEntries_stored]
  simp [h.symm]

theorem lastValue?_found : lastValue? (events ++ [.found key]) other = lastValue? events other := by
  unfold lastValue?
  rw [storedEntries_found]

end

/-! ### Entries -/

/-- The keys in the order of their last use. -/
def keys (cache : Cache κ υ) : List κ :=
  cache.entries.map (·.1)

section

variable {cache : Cache κ υ} {key : κ} {value : υ}

theorem mem_entries_of_peek? (h : cache.peek? key = some value) : (key, value) ∈ cache.entries := by
  obtain ⟨entry, hfind, rfl⟩ := Option.map_eq_some_iff.mp h
  have hkey : entry.1 = key := by simpa using List.find?_some hfind
  rw [← hkey]
  exact List.mem_of_find?_eq_some hfind

theorem mem_keys_of_peek? (h : cache.peek? key = some value) : key ∈ cache.keys :=
  List.mem_map.mpr ⟨(key, value), mem_entries_of_peek? h, rfl⟩

theorem peek?_eq_none_iff : cache.peek? key = none ↔ key ∉ cache.keys := by
  unfold peek? keys
  rw [Option.map_eq_none_iff, List.find?_eq_none]
  constructor
  · intro h hmem
    obtain ⟨entry, hentry, rfl⟩ := List.mem_map.mp hmem
    exact h entry hentry (decide_eq_true rfl)
  · intro h entry hentry hkey
    apply h
    rw [← of_decide_eq_true hkey]
    exact List.mem_map_of_mem hentry

theorem keys_eraseP : (cache.entries.eraseP fun entry => entry.1 = key).map (·.1) = cache.keys.erase key := by
  have hsame : (fun entry : κ × υ => decide (entry.1 = key)) = (fun other => key == other) ∘ (·.1) := by
    funext entry
    rw [Function.comp_apply, Bool.eq_iff_iff, decide_eq_true_iff, beq_iff_eq]
    exact eq_comm
  rw [keys, List.erase_eq_eraseP, List.eraseP_map, hsame]

theorem keys_insert : (cache.insert key value).keys = (key :: cache.keys.erase key).take cache.capacity := by
  rw [keys, insert, List.map_take, List.map_cons, keys_eraseP]

theorem mem_entries_insert {entry : κ × υ} (h : entry ∈ (cache.insert key value).entries) :
    entry = (key, value) ∨ entry ∈ cache.entries ∧ entry.1 ∈ cache.keys.erase key := by
  rcases List.mem_cons.mp (List.mem_of_mem_take h) with hnew | hold
  · exact .inl hnew
  · refine .inr ⟨List.mem_of_mem_eraseP hold, ?_⟩
    rw [← keys_eraseP]
    exact List.mem_map_of_mem hold

end

/-- An entry behind the last place does not come back when another key is used. -/
theorem take_cons_erase (key : κ) (keys : List κ) (n : Nat) :
    (key :: (keys.take n).erase key).take n = (key :: keys.erase key).take n := by
  cases n with
  | zero => rfl
  | succ n =>
    rw [List.take_succ_cons, List.take_succ_cons]
    congr 1
    induction keys generalizing n with
    | nil => rfl
    | cons first keys ih =>
      rw [List.take_succ_cons]
      by_cases hfirst : first = key
      · rw [hfirst, List.erase_cons_head, List.erase_cons_head, List.take_take, Nat.min_self]
      · have hbeq : ¬ (first == key) = true := by simpa using hfirst
        rw [List.erase_cons_tail hbeq, List.erase_cons_tail hbeq]
        cases n with
        | zero => rfl
        | succ n => rw [List.take_succ_cons, List.take_succ_cons, ih]

/-- The entries are those of the keys that were used last, as many as there is room for, with the values that were
stored last; and it is the stored keys that were used. -/
structure HoldsLatest (events : List (Event κ υ)) (cache : Cache κ υ) : Prop where
  keys_eq : cache.keys = (latestKeys events).take cache.capacity
  value_eq : ∀ entry ∈ cache.entries, lastValue? events entry.1 = some entry.2
  mem_latest_iff : ∀ key, key ∈ latestKeys events ↔ key ∈ storedKeys events

namespace HoldsLatest

variable {events : List (Event κ υ)} {cache : Cache κ υ} {key : κ} {value : υ}

theorem empty (capacity : Nat) : HoldsLatest [] (Cache.empty capacity : Cache κ υ) where
  keys_eq := by simp [keys, Cache.empty, latestKeys, sinceCleared]
  value_eq := by simp [Cache.empty]
  mem_latest_iff := fun _ => Iff.rfl

/-- The key of an event comes to the front, with a value that is the one stored last from now on. -/
theorem insert {event : Event κ υ} (h : HoldsLatest events cache)
    (hkey : event.key? = some key) (hvalue : lastValue? (events ++ [event]) key = some value)
    (hothers : ∀ other, other ≠ key → lastValue? (events ++ [event]) other = lastValue? events other)
    (hstored : ∀ other, other ∈ storedKeys (events ++ [event]) ↔ other = key ∨ other ∈ storedKeys events) :
    HoldsLatest (events ++ [event]) (cache.insert key value) where
  keys_eq := by
    rw [keys_insert, h.keys_eq, take_cons_erase, latestKeys_concat hkey]
    rfl
  value_eq := by
    have hnodup : cache.keys.Nodup := by
      rw [h.keys_eq]
      exact nodup_latestKeys.sublist (List.take_sublist _ _)
    intro entry hentry
    rcases mem_entries_insert hentry with rfl | ⟨hold, hmem⟩
    · exact hvalue
    · have hne : entry.1 ≠ key := by
        rintro rfl
        exact hnodup.not_mem_erase hmem
      rw [hothers _ hne]
      exact h.value_eq entry hold
  mem_latest_iff := by
    intro other
    rw [mem_latestKeys_concat_iff hkey, hstored, h.mem_latest_iff]

theorem stored (h : HoldsLatest events cache) (key : κ) (value : υ) :
    HoldsLatest (events ++ [.stored key value]) (cache.insert key value) := by
  apply h.insert rfl lastValue?_stored_self
  · intro other hother
    exact lastValue?_stored_of_ne hother
  · intro other
    rw [storedKeys, storedEntries_stored, List.map_append, List.mem_append, List.map_singleton, List.mem_singleton,
      storedKeys, or_comm]

/-- A key that is found has been stored, so nothing but the order changes. -/
theorem found (h : HoldsLatest events cache) (hpeek : cache.peek? key = some value) :
    HoldsLatest (events ++ [.found key]) (cache.insert key value) := by
  have hentry := mem_entries_of_peek? hpeek
  have hstored : key ∈ storedKeys events := by
    have hheld := mem_keys_of_peek? hpeek
    rw [h.keys_eq] at hheld
    exact (h.mem_latest_iff key).mp (List.mem_of_mem_take hheld)
  apply h.insert rfl
  · rw [lastValue?_found]
    exact h.value_eq _ hentry
  · intro other _
    exact lastValue?_found
  · intro other
    rw [storedKeys, storedEntries_found]
    constructor
    · exact .inr
    · rintro (rfl | hother)
      · exact hstored
      · exact hother

theorem cleared (cache : Cache κ υ) : HoldsLatest (events ++ [.cleared]) cache.clear where
  keys_eq := by
    unfold latestKeys
    rw [sinceCleared_cleared]
    simp [keys, Cache.clear]
  value_eq := by simp [Cache.clear]
  mem_latest_iff := by
    intro key
    unfold latestKeys storedKeys storedEntries
    rw [sinceCleared_cleared]
    rfl

/-- It is the stored keys that were used. -/
theorem perm (h : HoldsLatest events cache) : (latestKeys events).Perm (storedKeys events).dedup := by
  rw [List.perm_ext_iff_of_nodup nodup_latestKeys (List.nodup_dedup _)]
  intro key
  rw [List.mem_dedup, h.mem_latest_iff]

theorem size_eq (h : HoldsLatest events cache) :
    cache.size = min cache.capacity (storedKeys events).dedup.length := by
  have hlength := congrArg List.length h.keys_eq
  rw [keys, List.length_map, List.length_take, h.perm.length_eq] at hlength
  exact hlength

theorem map_entries_eq (h : HoldsLatest events cache) :
    cache.entries.map (fun entry => (entry.1, some entry.2)) =
      ((latestKeys events).take cache.capacity).map fun key => (key, lastValue? events key) := by
  rw [← h.keys_eq, keys, List.map_map]
  apply List.map_congr_left
  intro entry hentry
  rw [Function.comp_apply, h.value_eq entry hentry]

/-- What is found under a key is the value stored last, if the key is among the held ones. -/
theorem peek?_eq (h : HoldsLatest events cache) (key : κ) :
    cache.peek? key =
      if key ∈ (latestKeys events).take cache.capacity then lastValue? events key else none := by
  rw [← h.keys_eq]
  cases hpeek : cache.peek? key with
  | none => rw [if_neg (peek?_eq_none_iff.mp hpeek)]
  | some value =>
    rw [if_pos (mem_keys_of_peek? hpeek)]
    exact (h.value_eq _ (mem_entries_of_peek? hpeek)).symm

end HoldsLatest

/-! ### Calls -/

/-- As `lookupOrInsert`, where the computation may do more than give a value, also to the cache. -/
def lookupOrInsertM {m : Type → Type} [Monad m] (key : κ) (compute : StateT (Cache κ υ) m υ) :
    StateT (Cache κ υ) m υ := fun cache =>
  match cache.lookup key with
  | (some value, cache) => pure (value, cache)
  | (none, cache) => do
    let computed ← compute cache
    return (computed.1, computed.2.insert key computed.1)

section

variable {cache : Cache κ υ} {key : κ} {value : υ}

theorem lookup_of_peek? (h : cache.peek? key = some value) :
    cache.lookup key = (some value, cache.insert key value) := by
  rw [lookup, h]

theorem lookup_of_not_mem (h : key ∉ cache.keys) : cache.lookup key = (none, cache) := by
  rw [lookup, peek?_eq_none_iff.mpr h]

theorem lookup_fst (cache : Cache κ υ) (key : κ) : (cache.lookup key).1 = cache.peek? key := by
  unfold lookup
  cases cache.peek? key <;> rfl

theorem lookupOrInsert_of_peek? (h : cache.peek? key = some value) (compute : Unit → υ) :
    cache.lookupOrInsert key compute = (value, cache.insert key value) := by
  rw [lookupOrInsert, lookup_of_peek? h]

theorem lookupOrInsert_of_not_mem (h : key ∉ cache.keys) (compute : Unit → υ) :
    cache.lookupOrInsert key compute = (compute (), cache.insert key (compute ())) := by
  rw [lookupOrInsert, lookup_of_not_mem h]

theorem lookupOrInsert_fst (cache : Cache κ υ) (key : κ) (compute : Unit → υ) :
    (cache.lookupOrInsert key compute).1 = (cache.peek? key).getD (compute ()) := by
  cases hpeek : cache.peek? key with
  | none => rw [lookupOrInsert_of_not_mem (peek?_eq_none_iff.mp hpeek), Option.getD_none]
  | some value => rw [lookupOrInsert_of_peek? hpeek, Option.getD_some]

variable {m : Type → Type} [Monad m] {compute : StateT (Cache κ υ) m υ}

/-- Where the key is held, the computation does not run. -/
theorem lookupOrInsertM_of_peek? (h : cache.peek? key = some value) :
    lookupOrInsertM key compute cache = pure (value, cache.insert key value) := by
  rw [lookupOrInsertM, lookup_of_peek? h]

/-- Where it is not, the computation runs once, on the cache as it is, and its value goes into the cache that it
leaves. -/
theorem lookupOrInsertM_of_not_mem (h : key ∉ cache.keys) :
    lookupOrInsertM key compute cache =
      compute cache >>= fun computed => pure (computed.1, computed.2.insert key computed.1) := by
  rw [lookupOrInsertM, lookup_of_not_mem h]

end

/-- A value whose computation is counted. -/
def counted (compute : Unit → υ) : StateT (Cache κ υ) (StateM Nat) υ := do
  modifyThe Nat (· + 1)
  return compute ()

/-- What is asked of a cache. A computation that uses the cache itself is no further kind of call: it is a lookup
that finds nothing, what the computation asks, and an insertion (`lookupOrInsertM_of_not_mem`). -/
inductive Call (κ υ : Type) where
  | lookup (key : κ)
  | insert (key : κ) (value : υ)
  | lookupOrInsert (key : κ) (compute : Unit → υ)
  | clear

/-- What a caller is told. -/
inductive Answer (υ : Type) where
  /-- The value that was found. -/
  | found (value : Option υ)
  /-- A value, and how often it was computed. -/
  | given (value : υ) (computations : Nat)
  | nothing

/-- One call. -/
def Call.run (cache : Cache κ υ) : Call κ υ → Answer υ × Cache κ υ
  | .lookup key =>
    let told := cache.lookup key
    (.found told.1, told.2)
  | .insert key value => (.nothing, cache.insert key value)
  | .lookupOrInsert key compute =>
    let told := Id.run ((lookupOrInsertM key (counted compute) cache).run 0)
    (.given told.1.1 told.2, told.1.2)
  | .clear => (.nothing, cache.clear)

/-- What a call did, by the answer to it. -/
def Call.event? : Call κ υ → Answer υ → Option (Event κ υ)
  | .lookup key, .found (some _) => some (.found key)
  | .insert key value, _ => some (.stored key value)
  | .lookupOrInsert key _, .given _ 0 => some (.found key)
  | .lookupOrInsert key _, .given value _ => some (.stored key value)
  | .clear, _ => some .cleared
  | _, _ => none

/-- Calls one after another: what they did, and the cache that they leave. -/
def run (cache : Cache κ υ) : List (Call κ υ) → List (Event κ υ) × Cache κ υ
  | [] => ([], cache)
  | call :: calls =>
    let told := call.run cache
    let others := run told.2 calls
    ((call.event? told.1).toList ++ others.1, others.2)

section

variable {events : List (Event κ υ)} {cache : Cache κ υ}

/-- A lookup that computes is the same whether the computation is counted or not. -/
theorem run_lookupOrInsert (cache : Cache κ υ) (key : κ) (compute : Unit → υ) :
    (Call.lookupOrInsert key compute).run cache =
      (.given (cache.lookupOrInsert key compute).1 (if key ∈ cache.keys then 0 else 1),
        (cache.lookupOrInsert key compute).2) := by
  cases hpeek : cache.peek? key with
  | none =>
    have hkey := peek?_eq_none_iff.mp hpeek
    rw [Call.run, lookupOrInsertM_of_not_mem hkey, lookupOrInsert_of_not_mem hkey, if_neg hkey]
    rfl
  | some value =>
    rw [Call.run, lookupOrInsertM_of_peek? hpeek, lookupOrInsert_of_peek? hpeek,
      if_pos (mem_keys_of_peek? hpeek)]
    rfl

theorem capacity_run_call (cache : Cache κ υ) (call : Call κ υ) : (call.run cache).2.capacity = cache.capacity := by
  have hlookup : ∀ key, (cache.lookup key).2.capacity = cache.capacity := by
    intro key
    unfold lookup
    split <;> rfl
  cases call with
  | lookup key => exact hlookup key
  | insert key value => rfl
  | lookupOrInsert key compute =>
    rw [run_lookupOrInsert]
    cases hpeek : cache.peek? key with
    | none => rw [lookupOrInsert_of_not_mem (peek?_eq_none_iff.mp hpeek)]; rfl
    | some value => rw [lookupOrInsert_of_peek? hpeek]; rfl
  | clear => rfl

/-- One call keeps the keys that were used last, and its answer tells what it did. -/
theorem HoldsLatest.run_call (h : HoldsLatest events cache) (call : Call κ υ) :
    HoldsLatest (events ++ (call.event? (call.run cache).1).toList) (call.run cache).2 := by
  cases call with
  | lookup key =>
    cases hpeek : cache.peek? key with
    | none =>
      rw [Call.run, lookup_of_not_mem (peek?_eq_none_iff.mp hpeek)]
      simpa [Call.event?] using h
    | some value =>
      rw [Call.run, lookup_of_peek? hpeek]
      exact h.found hpeek
  | insert key value => exact h.stored key value
  | lookupOrInsert key compute =>
    rw [run_lookupOrInsert]
    cases hpeek : cache.peek? key with
    | none =>
      have hkey := peek?_eq_none_iff.mp hpeek
      rw [lookupOrInsert_of_not_mem hkey, if_neg hkey]
      exact h.stored key _
    | some value =>
      rw [lookupOrInsert_of_peek? hpeek, if_pos (mem_keys_of_peek? hpeek)]
      exact h.found hpeek
  | clear => exact .cleared cache

theorem holdsLatest_run : ∀ (calls : List (Call κ υ)) {events : List (Event κ υ)} {cache : Cache κ υ},
    HoldsLatest events cache →
      HoldsLatest (events ++ (run cache calls).1) (run cache calls).2 ∧
        (run cache calls).2.capacity = cache.capacity
  | [], events, cache, h => by
    rw [run, List.append_nil]
    exact ⟨h, rfl⟩
  | call :: calls, events, cache, h => by
    obtain ⟨hlast, hcapacity⟩ := holdsLatest_run calls (h.run_call call)
    rw [run, ← List.append_assoc]
    exact ⟨hlast, hcapacity.trans (capacity_run_call cache call)⟩

end

/-- **Whatever is asked of it, a cache holds the keys that were used last**: of the keys stored since it was cleared,
as many as it has room for, in the order of their last use and each with the value stored last. These are also
what the next call finds, and a lookup computes a value exactly where the key is not among them. -/
theorem latest_used_keys_are_held (capacity : Nat) (calls : List (Call κ υ)) :
    let events := (run (empty capacity) calls).1
    let cache := (run (empty capacity) calls).2
    let held := (latestKeys events).take (max capacity 1)
    cache.entries.map (fun entry => (entry.1, some entry.2)) = held.map (fun key => (key, lastValue? events key)) ∧
    (latestKeys events).Perm (storedKeys events).dedup ∧
    cache.size = min (max capacity 1) (storedKeys events).dedup.length ∧
    cache.size ≤ max capacity 1 ∧
    ∀ (key : κ) (compute : Unit → υ),
      ((Call.lookup key).run cache).1 = .found (if key ∈ held then lastValue? events key else none) ∧
      ((Call.lookupOrInsert key compute).run cache).1 =
        .given ((if key ∈ held then lastValue? events key else none).getD (compute ()))
          (if key ∈ held then 0 else 1) := by
  intro events cache held
  obtain ⟨h, hcapacity⟩ : HoldsLatest events cache ∧ cache.capacity = max capacity 1 :=
    holdsLatest_run calls (HoldsLatest.empty capacity)
  have hkeys : cache.keys = held := by rw [h.keys_eq, hcapacity]
  have hpeek := fun key => h.peek?_eq key
  rw [hcapacity] at hpeek
  refine ⟨?_, h.perm, ?_, ?_, ?_⟩
  · rw [h.map_entries_eq, hcapacity]
  · rw [h.size_eq, hcapacity]
  · rw [h.size_eq, hcapacity]
    exact Nat.min_le_left _ _
  · intro key compute
    rw [run_lookupOrInsert, lookupOrInsert_fst, ← hpeek, hkeys]
    refine ⟨?_, rfl⟩
    rw [Call.run, lookup_fst]

-- The first key is found again, so it is the second that has to go.
example : (run (empty 2) [.insert 1 10, .insert 2 20, .lookup 1, .insert 3 30]).2.entries = [(3, 30), (1, 10)] := by
  decide

end Cache
end EthWire
