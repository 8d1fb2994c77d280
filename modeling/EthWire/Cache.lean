/-
# A bounded cache

A cache holds at most `capacity` entries, each a key with the value last stored under it, and gives up
the entry that was not used for the longest time when a new key needs its place. The entries are kept
in the order of their last use, the latest first, so eviction is forgetting the last one. A lookup
that finds its key counts as a use, one that does not changes nothing.

Key definitions: `Cache`, `Cache.lookup`, `Cache.insert`, `Cache.clear`, `Cache.lookupOrInsert`.
-/
namespace EthWire

/-- Entries in the order of their last use, the latest first, at most `capacity` of them. -/
structure Cache (κ υ : Type) where
  capacity : Nat
  entries : List (κ × υ)
  deriving Repr

namespace Cache

variable {κ υ : Type} [DecidableEq κ]

/-- The cache without entries; there is always room for one. -/
def empty (capacity : Nat) : Cache κ υ :=
  ⟨max capacity 1, []⟩

/-- The number of entries a cache holds when nothing else is asked for. -/
def defaultCapacity : Nat := 8192

/-- How many entries there are. -/
def size (cache : Cache κ υ) : Nat :=
  cache.entries.length

def isEmpty (cache : Cache κ υ) : Bool :=
  cache.entries.isEmpty

/-- The value stored under a key, without using it. -/
def peek? (cache : Cache κ υ) (key : κ) : Option υ :=
  (cache.entries.find? fun entry => entry.1 = key).map (·.2)

/-- Stores a value under a key, which becomes the latest used one; if there are too many entries now,
the one not used for the longest time goes. -/
def insert (cache : Cache κ υ) (key : κ) (value : υ) : Cache κ υ :=
  { cache with
    entries := ((key, value) :: cache.entries.eraseP fun entry => entry.1 = key).take
      cache.capacity }

/-- The value stored under a key, which becomes the latest used one. -/
def lookup (cache : Cache κ υ) (key : κ) : Option υ × Cache κ υ :=
  match cache.peek? key with
  | some value => (some value, cache.insert key value)
  | none => (none, cache)

/-- The value stored under a key, or the one computed for it, which is then stored. -/
def lookupOrInsert (cache : Cache κ υ) (key : κ) (compute : Unit → υ) : υ × Cache κ υ :=
  match cache.lookup key with
  | (some value, cache) => (value, cache)
  | (none, cache) =>
    let value := compute ()
    (value, cache.insert key value)

/-- Forgets all entries. -/
def clear (cache : Cache κ υ) : Cache κ υ :=
  { cache with entries := [] }

end Cache
end EthWire
