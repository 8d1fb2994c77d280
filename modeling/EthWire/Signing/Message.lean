/-
# Personal messages

A message that a person signs is hashed behind a text that no transaction can start with, together
with the number of its octets in decimal.

Key definitions: `Message.preimage`, `Message.digest`, `Message.verify`.
-/
import EthWire.Signing.Signature

namespace EthWire
namespace Message

/-- The text in front of every personal message. -/
def salutation : Bytes :=
  Text.octets "\x19Ethereum Signed Message:\n"

/-- The octets that are hashed for a message. -/
def preimage (message : Bytes) : Bytes :=
  salutation ++ Text.octets (toString message.length) ++ message

/-- The digest that is signed for a message. -/
def digest (message : Bytes) : Word :=
  keccak256 (preimage message)

/-- Whether the address signed the message. -/
def verify (scheme : Scheme) (address : Address) (message : Bytes) (signature : Signature) : Bool :=
  EthWire.verify scheme address (digest message).toBytes signature

end Message
end EthWire
