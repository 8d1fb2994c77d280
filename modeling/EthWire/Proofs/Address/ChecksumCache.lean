/-
# Remembered checksums are the computed ones

A cache that starts empty and is only given values of one function remembers that function, whichever entries
it gives up and whenever: each of its entries is a key with the function's value there
(`Cache.Remembers`). Every operation keeps this, because it stores nothing but what it found or computed,
and so a lookup is answered as the function would be.

Checksum texts are such a function of the address. So over any run of calls the cached functions answer what
the plain ones do, also when a text with a wrong checksum is refused after the right one has been stored.

Key definitions: `Cache.Remembers`, `ChecksumCache.Call`, `ChecksumCache.run`, `ChecksumCache.Call.Answered`.
Key theorems: `Cache.Remembers.lookupOrInsert`, `ChecksumCache.answered_run`,
`ChecksumCache.cached_answers_are_the_plain_ones`.
-/
import EthWire.Address.ChecksumCache
import EthWire.Proofs.Cache
import Mathlib.Data.List.Forall2

namespace EthWire

/-! ### Caches that remember a function -/

namespace Cache

variable {κ υ : Type}

/-- Every entry is a key with the value of the function there. -/
def Remembers (f : κ → υ) (cache : Cache κ υ) : Prop :=
  ∀ entry ∈ cache.entries, entry.2 = f entry.1

theorem Remembers.empty (f : κ → υ) (capacity : Nat) : (Cache.empty capacity).Remembers f := by
  simp [Remembers, Cache.empty]

theorem Remembers.of_subset {f : κ → υ} {cache cache' : Cache κ υ} (h : cache.Remembers f)
    (hsub : cache'.entries ⊆ cache.entries) : cache'.Remembers f :=
  fun entry hentry => h entry (hsub hentry)

variable [DecidableEq κ]

namespace Remembers

variable {f : κ → υ} {cache : Cache κ υ}

theorem insert (h : cache.Remembers f) (key : κ) : (cache.insert key (f key)).Remembers f := by
  intro entry hentry
  rcases List.mem_cons.mp (List.mem_of_mem_take hentry) with rfl | hold
  · rfl
  · exact h entry (List.mem_of_mem_eraseP hold)

theorem eq_of_peek? (h : cache.Remembers f) {key : κ} {value : υ} (hpeek : cache.peek? key = some value) :
    value = f key :=
  h _ (mem_entries_of_peek? hpeek)

theorem lookup (h : cache.Remembers f) (key : κ) :
    (∀ value ∈ (cache.lookup key).1, value = f key) ∧ (cache.lookup key).2.Remembers f := by
  rw [Cache.lookup]
  split
  · rename_i value hpeek
    obtain rfl := h.eq_of_peek? hpeek
    exact ⟨by simp, h.insert key⟩
  · exact ⟨by simp, h⟩

/-- A value that is computed where it is not found is the value of the function, found or not. -/
theorem lookupOrInsert (h : cache.Remembers f) (key : κ) :
    (cache.lookupOrInsert key fun _ => f key).1 = f key ∧
      (cache.lookupOrInsert key fun _ => f key).2.Remembers f := by
  obtain ⟨hvalue, hcache⟩ := h.lookup key
  rw [Cache.lookupOrInsert]
  split <;> rename_i hlookup <;> rw [hlookup] at hvalue hcache
  · exact ⟨hvalue _ rfl, hcache⟩
  · exact ⟨rfl, hcache.insert key⟩

end Remembers
end Cache

/-! ### Checksums -/

namespace Address

variable {cache : ChecksumCache}

theorem checksumCached_eq (h : cache.Remembers checksum) (address : Address) :
    (address.checksumCached cache).1 = address.checksum ∧
      (address.checksumCached cache).2.Remembers checksum :=
  h.lookupOrInsert address

theorem drop_checksum (address : Address) : address.checksum.toList.drop 2 = address.checksumDigits := by
  simp [checksum]

/-- An address is refused if its text has letters of both cases and these are not the checksum's. -/
theorem parse_of_parseAnyCase {text : String} {address : Address} {digits : List Char}
    (h : parseAnyCase text = .ok (address, digits)) :
    parse text =
      if isMixedCase digits ∧ address.checksumDigits ≠ digits then .error .checksumCase else .ok address := by
  rw [parse, h]
  simp only [bind, Except.bind]
  split <;> rfl

theorem parseCached_eq (h : cache.Remembers checksum) (text : String) :
    (parseCached text cache).1 = parse text ∧ (parseCached text cache).2.Remembers checksum := by
  rw [parseCached]
  cases hread : parseAnyCase text with
  | error cause =>
    rw [parse, hread]
    exact ⟨rfl, h⟩
  | ok read =>
    obtain ⟨address, digits⟩ := read
    obtain ⟨hknown, hcache⟩ := checksumCached_eq h address
    rw [parse_of_parseAnyCase hread]
    by_cases hmixed : isMixedCase digits
    · by_cases hdigits : address.checksumDigits = digits <;>
        simpa [hmixed, hknown, drop_checksum, hdigits] using hcache
    · simpa [hmixed] using h

end Address

namespace ChecksumCache

/-! ### Runs -/

/-- What can happen to a cache of checksums. -/
inductive Call where
  /-- The checksum text of an address is asked for. -/
  | checksum (address : Address)
  /-- An address is read. -/
  | parse (text : String)
  /-- The text that is remembered for an address is asked for. -/
  | lookup (address : Address)
  /-- All entries are forgotten. -/
  | clear
  /-- The entries of some addresses are lost, at nobody's call. -/
  | lose (lost : Address → Bool)

/-- What a caller is told. -/
inductive Answer where
  | text (text : String)
  | address (result : Except Error Address)
  | remembered (text : Option String)
  | nothing

/-- One call. -/
def Call.run (cache : ChecksumCache) : Call → Answer × ChecksumCache
  | .checksum address =>
    let told := address.checksumCached cache
    (.text told.1, told.2)
  | .parse text =>
    let told := Address.parseCached text cache
    (.address told.1, told.2)
  | .lookup address =>
    let told := cache.lookup address
    (.remembered told.1, told.2)
  | .clear => (.nothing, cache.clear)
  | .lose lost => (.nothing, { cache with entries := cache.entries.filter fun entry => !lost entry.1 })

/-- Calls one after another: the answers, and the cache that they leave. -/
def run (cache : ChecksumCache) : List Call → List Answer × ChecksumCache
  | [] => ([], cache)
  | call :: calls =>
    let told := call.run cache
    let others := run told.2 calls
    (told.1 :: others.1, others.2)

/-- Whether a call is answered as it would be without a cache; where a text is remembered, it is the checksum
of its address. -/
inductive Call.Answered : Call → Answer → Prop where
  | checksum (address : Address) : Answered (.checksum address) (.text address.checksum)
  | parse (text : String) : Answered (.parse text) (.address (Address.parse text))
  | lookup {address : Address} {found : Option String} (h : ∀ text ∈ found, text = address.checksum) :
    Answered (.lookup address) (.remembered found)
  | clear : Answered .clear .nothing
  | lose (lost : Address → Bool) : Answered (.lose lost) .nothing

/-- One call is answered rightly and leaves nothing wrong behind. -/
theorem answered_run {cache : ChecksumCache} (h : cache.Remembers Address.checksum) (call : Call) :
    call.Answered (call.run cache).1 ∧ (call.run cache).2.Remembers Address.checksum := by
  cases call with
  | checksum address =>
    obtain ⟨htext, hcache⟩ := Address.checksumCached_eq h address
    refine ⟨?_, hcache⟩
    rw [Call.run, htext]
    exact .checksum address
  | parse text =>
    obtain ⟨hresult, hcache⟩ := Address.parseCached_eq h text
    refine ⟨?_, hcache⟩
    rw [Call.run, hresult]
    exact .parse text
  | lookup address =>
    obtain ⟨hfound, hcache⟩ := h.lookup address
    exact ⟨.lookup hfound, hcache⟩
  | clear => exact ⟨.clear, h.of_subset (List.nil_subset _)⟩
  | lose lost => exact ⟨.lose lost, h.of_subset (List.filter_subset_self _)⟩

theorem forall₂_answered_run : ∀ (calls : List Call) {cache : ChecksumCache},
    cache.Remembers Address.checksum →
      List.Forall₂ Call.Answered calls (run cache calls).1 ∧ (run cache calls).2.Remembers Address.checksum
  | [], cache, h => ⟨.nil, h⟩
  | call :: calls, cache, h => by
    obtain ⟨hanswer, hnext⟩ := answered_run h call
    obtain ⟨hanswers, hlast⟩ := forall₂_answered_run calls hnext
    exact ⟨.cons hanswer hanswers, hlast⟩

/-- **Whatever was asked before, the cached functions answer what the plain ones do**, on a cache of any capacity
that starts empty, and each remembered text is the checksum of its address. Nothing hangs on which entries
are given up. -/
theorem cached_answers_are_the_plain_ones (capacity : Nat) (calls : List Call) :
    List.Forall₂ Call.Answered calls (run (Cache.empty capacity) calls).1 ∧
      ∀ entry ∈ (run (Cache.empty capacity) calls).2.entries, entry.2 = entry.1.checksum :=
  forall₂_answered_run calls (Cache.Remembers.empty _ capacity)

-- A text that is refused for its last letter leaves the right one behind.
example : (Address.parseCached "5aAeb6053F3E94C9b9A09f33669435E7Ef1BeAeD" (Cache.empty 1)).2.entries.map (·.2)
    = ["0x5aAeb6053F3E94C9b9A09f33669435E7Ef1BeAed"] := by
  decide +kernel

end ChecksumCache
end EthWire
