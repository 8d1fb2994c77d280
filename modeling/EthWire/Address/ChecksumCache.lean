/-
# Remembered checksums

Computing the checksum text of an address takes a digest, so a caller that sees the same addresses
again and again can keep a cache of them. The cached functions answer what the plain ones answer,
as long as the cache holds nothing but what they put there.

Key definitions: `ChecksumCache`, `Address.checksumCached`, `Address.parseCached`.
-/
import EthWire.Address.Basic
import EthWire.Cache

namespace EthWire

/-- Checksum texts by address. -/
abbrev ChecksumCache := Cache Address String

namespace Address

/-- The checksum text, from the cache if it is there. -/
def checksumCached (address : Address) (cache : ChecksumCache) : String × ChecksumCache :=
  cache.lookupOrInsert address fun _ => address.checksum

/-- Reads an address; mixed case is compared with the remembered text behind its `0x`. -/
def parseCached (text : String) (cache : ChecksumCache) : Except Error Address × ChecksumCache :=
  match parseAnyCase text with
  | .error e => (.error e, cache)
  | .ok (address, digits) =>
    if isMixedCase digits then
      let (known, cache) := address.checksumCached cache
      (if known.toList.drop 2 = digits then .ok address else .error .checksumCase, cache)
    else (.ok address, cache)

end Address
end EthWire
