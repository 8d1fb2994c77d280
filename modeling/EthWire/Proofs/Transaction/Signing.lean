/-
# Signing a transaction makes its key the sender

What is signed does not depend on the signature that is already there, so the digest from which the
sender is recovered is the one that the key signed, once the chain id of the network is in place. That
is the only other thing that signing changes, and only on a legacy transaction
(`Transaction.onNetwork`). A network whose id is zero or too large is refused for every transaction, and
another one for those that are for one chain (`Transaction.Admits`).

Key definitions: `Transaction.onNetwork`, `Transaction.Admits`.
Key theorems: `Transaction.forNetwork?_eq_ok_iff`, `Transaction.sign_eq_ok_iff`,
`Transaction.signer_becomes_sender`.
-/
import EthWire.Proofs.Signing.Recovery
import EthWire.Proofs.Transaction.SigningPayload
import EthWire.Transaction.Signing

namespace EthWire

/-- The envelope with the chain id of a network, which only a legacy transaction takes on. -/
def Envelope.onNetwork : Envelope → Option UInt64 → Envelope
  | legacy _ gasPrice recipient, some network =>
    legacy (some (BitVec.ofNat 256 network.toNat)) gasPrice recipient
  | envelope, _ => envelope

namespace Transaction

/-- The transaction with the chain id of a network, if it is a legacy one. -/
def onNetwork (tx : Transaction) (network : Option UInt64) : Transaction :=
  { tx with envelope := tx.envelope.onNetwork network }

/-- The transaction can be signed for the network: its id is in range, and any but a legacy transaction
is for it already. -/
def Admits (tx : Transaction) : Option UInt64 → Prop
  | some network => 0 < network.toNat ∧ network.toNat < maxChainId ∧
      (tx.kind = .legacy ∨ tx.chainId? = some (BitVec.ofNat 256 network.toNat))
  | none => True

variable {tx : Transaction}

theorem forNetwork_out_of_range {network : UInt64} (h : network.toNat = 0 ∨ maxChainId ≤ network.toNat) :
    tx.forNetwork network = .error .networkId :=
  if_pos (h.imp_left fun hzero => UInt64.toNat_inj.mp hzero)

theorem forNetwork_in_range {network : UInt64} (h0 : 0 < network.toNat)
    (h : network.toNat < maxChainId) :
    tx.forNetwork network =
      if tx.kind = .legacy then .ok (tx.onNetwork (some network))
      else tx.verifyChainId (BitVec.ofNat 256 network.toNat) >>= fun _ => .ok tx := by
  have hrange : ¬ (network = 0 ∨ maxChainId ≤ network.toNat) := by
    rintro (rfl | hle)
    · exact absurd h0 (by decide)
    · omega
  rw [forNetwork, if_neg hrange]
  obtain ⟨envelope, nonce, gasLimit, value, data, signature⟩ := tx
  cases envelope <;> rfl

theorem onNetwork_of_ne_legacy (hkind : tx.kind ≠ .legacy) (network : Option UInt64) :
    tx.onNetwork network = tx := by
  obtain ⟨envelope, nonce, gasLimit, value, data, signature⟩ := tx
  cases envelope <;> first | rfl | exact absurd rfl hkind

theorem exists_chainId_of_ne_legacy (hkind : tx.kind ≠ .legacy) : ∃ chainId, tx.chainId? = some chainId := by
  obtain ⟨envelope, nonce, gasLimit, value, data, signature⟩ := tx
  cases envelope <;> first | exact ⟨_, rfl⟩ | exact absurd rfl hkind

theorem verifyChainId_of_some {chainId expected : Word} (h : tx.chainId? = some chainId) :
    tx.verifyChainId expected =
      if chainId = expected then .ok () else .error (.chainMismatch expected chainId) := by
  rw [verifyChainId, h]
  by_cases heq : chainId = expected
  · rw [if_pos heq]
    exact if_neg (not_not_intro heq)
  · rw [if_neg heq]
    exact if_pos heq

/-- What a transaction becomes on a network, and when it can. -/
theorem forNetwork?_eq_ok_iff {network : Option UInt64} {tx' : Transaction} :
    tx.forNetwork? network = .ok tx' ↔ tx.Admits network ∧ tx.onNetwork network = tx' := by
  cases network with
  | none =>
    have hself : tx.onNetwork none = tx := by
      obtain ⟨envelope, nonce, gasLimit, value, data, signature⟩ := tx
      cases envelope <;> rfl
    simp [forNetwork?, Admits, hself]
  | some network =>
    rw [forNetwork?, Admits]
    by_cases hrange : 0 < network.toNat ∧ network.toNat < maxChainId
    · rw [forNetwork_in_range hrange.1 hrange.2]
      by_cases hkind : tx.kind = .legacy
      · simp [hkind, hrange]
      · obtain ⟨chainId, hchain⟩ := exists_chainId_of_ne_legacy hkind
        rw [if_neg hkind, verifyChainId_of_some hchain, onNetwork_of_ne_legacy hkind, hchain]
        simp only [check_bind_eq_ok_iff, ite_ok_eq_ok_iff, Except.ok.injEq, and_true, hkind, false_or,
          Option.some.injEq, hrange, true_and]
    · rw [forNetwork_out_of_range (by omega)]
      refine iff_of_false (by simp) ?_
      rintro ⟨⟨h0, h, -⟩, -⟩
      exact hrange ⟨h0, h⟩

theorem signingHash_withSignature (signature : Option Signature) :
    ({ tx with signature := signature } : Transaction).signingHash = tx.signingHash := rfl

/-- A transaction is signed exactly if it can be for the network and keeps its rules there. -/
theorem sign_eq_ok_iff {scheme : Scheme} {key : PrivateKey} {network : Option UInt64} {tx' : Transaction} :
    tx.sign scheme key network = .ok tx' ↔ tx.Admits network ∧
      ∃ digest, (tx.onNetwork network).signingHash = .ok digest ∧
        tx' = { tx.onNetwork network with signature := some (key.signWord scheme digest) } := by
  simp only [sign, bind_eq_ok_iff, forNetwork?_eq_ok_iff, pure_eq_ok_iff]
  constructor
  · rintro ⟨_, ⟨hadmits, rfl⟩, digest, hdigest, rfl⟩
    exact ⟨hadmits, digest, hdigest, rfl⟩
  · rintro ⟨hadmits, digest, hdigest, rfl⟩
    exact ⟨_, ⟨hadmits, rfl⟩, digest, hdigest, rfl⟩

theorem signingHash_isOk_iff : (∃ digest, tx.signingHash = .ok digest) ↔ tx.validate = .ok () := by
  rw [← signingPayload_isOk_iff]
  simp only [signingHash, map_eq_ok_iff]
  constructor
  · rintro ⟨_, octets, hoctets, -⟩
    exact ⟨octets, hoctets⟩
  · rintro ⟨octets, hoctets⟩
    exact ⟨_, octets, hoctets, rfl⟩

theorem sender_eq_ok {scheme : Scheme} {signature : Signature} {digest : Word} {address : Address}
    (hsig : tx.signature = some signature) (hcheck : signature.check = .ok ())
    (hdigest : tx.signingHash = .ok digest)
    (hrecover : signature.recoverWord scheme digest = .ok address) :
    tx.sender scheme = .ok address := by
  simp only [sender, hsig, hcheck, hdigest]
  exact hrecover

/-- **Who signs a transaction becomes its sender.** Under any lawful scheme, with any key that it has a
public key for, a signed transaction is the given one on the network, with a signature that passes the
check and from which the account of the key is recovered. This is what becomes of every transaction that
the network admits and that keeps its rules there; an id that is zero or too large is refused, and so is
one that a typed transaction is not for. -/
theorem signer_becomes_sender {scheme : Scheme} (hs : scheme.Lawful) {secret : Word} {key : PrivateKey}
    (hkey : PrivateKey.ofWord scheme secret = .ok key) (tx : Transaction) (network : Option UInt64) :
    (∀ signed, tx.sign scheme key network = .ok signed →
      (∃ signature, signed = { tx.onNetwork network with signature := some signature } ∧
        signature.check = .ok ()) ∧
      signed.sender scheme = .ok (key.address scheme)) ∧
    ((∃ signed, tx.sign scheme key network = .ok signed) ↔
      tx.Admits network ∧ (tx.onNetwork network).validate = .ok ()) ∧
    (∀ id, network = some id → id.toNat = 0 ∨ maxChainId ≤ id.toNat →
      tx.sign scheme key network = .error .networkId) ∧
    (∀ id chainId, network = some id → 0 < id.toNat → id.toNat < maxChainId → tx.kind ≠ .legacy →
      tx.chainId? = some chainId → chainId ≠ BitVec.ofNat 256 id.toNat →
      tx.sign scheme key network = .error (.chainMismatch (BitVec.ofNat 256 id.toNat) chainId)) := by
  refine ⟨fun signed h => ?_, ?_, ?_, ?_⟩
  · obtain ⟨-, digest, hdigest, rfl⟩ := sign_eq_ok_iff.mp h
    have hcheck : (key.signWord scheme digest).check = .ok () := PrivateKey.check_signWord hs digest
    have hhash := signingHash_withSignature (some (key.signWord scheme digest)) ▸ hdigest
    exact ⟨⟨_, rfl, hcheck⟩,
      sender_eq_ok rfl hcheck hhash (PrivateKey.recoverWord_signWord hs hkey digest)⟩
  · rw [← signingHash_isOk_iff]
    simp only [sign_eq_ok_iff]
    exact ⟨fun ⟨_, hadmits, digest, hdigest, _⟩ => ⟨hadmits, digest, hdigest⟩,
      fun ⟨hadmits, digest, hdigest⟩ => ⟨_, hadmits, digest, hdigest, rfl⟩⟩
  · rintro id rfl hrange
    rw [sign, forNetwork?, forNetwork_out_of_range hrange]
    rfl
  · rintro id chainId rfl h0 h hkind hchain hne
    rw [sign, forNetwork?, forNetwork_in_range h0 h, if_neg hkind, verifyChainId_of_some hchain,
      if_neg hne]
    rfl

/-! ### A signed transfer -/

/-- A transfer for no chain in particular. -/
def sampleTransfer : Transaction :=
  ⟨.legacy none 20000000000 (some ⟨0x3535353535353535353535353535353535353535⟩), 9, 21000,
    1000000000000000000, [], none⟩

/-- The key whose octets are all 0x46. -/
def sampleSecret : Word :=
  0x4646464646464646464646464646464646464646464646464646464646464646

/-- What is signed of the transfer on the first chain. -/
def sampleDigest : Word :=
  0xdaf5a779ae972f972197303d7b574746c7ef83eadac0f2791ad23db92e4c8e53

/-- The public key of that key on the curve. -/
def samplePublicKey : Bytes :=
  Word.toBytes 0x4bc2a31265153f07e70e0bab08724e6b85e217f8cd628ceb62974247bb493382 ++
    Word.toBytes 0xce28cab79ad7119ee1ad3ebcdb98a16805211530ecc6cfefa1b88e6dff99232a

/-- The signature of that key over that digest on the curve. -/
def sampleSignature : Signature :=
  ⟨false, 0x28ef61340bd939bc2195fe537567866003e1a15d3c71ff63e1590620aa636276,
    0x67cbe9d8997f761aecb703304b3800ccf555c9f3dc64214b297fb1966a3b6d83⟩

/-- A scheme that answers as the curve does for that key and that digest. Elsewhere the secret is the
first scalar of a signature, and one is the second. -/
def sampleScheme : Scheme where
  publicKey secret := if secret = sampleSecret then samplePublicKey else secret.toBytes ++ secret.toBytes
  sign digest secret :=
    if digest = sampleDigest ∧ secret = sampleSecret then sampleSignature else ⟨false, secret, 1⟩
  recover digest signature :=
    if (digest = sampleDigest ∧ (signature = sampleSignature ∨ signature = sampleSignature.negated)) ∨
        signature.r = sampleSecret then some samplePublicKey
    else some (signature.r.toBytes ++ signature.r.toBytes)

theorem recover_sampleScheme_of_ne {signature : Signature} (h : signature.s ≠ sampleSignature.s)
    (h' : signature.s ≠ sampleSignature.negated.s) (digest : Word) :
    sampleScheme.recover digest signature = some (sampleScheme.publicKey signature.r) := by
  have hsample : signature ≠ sampleSignature := fun heq => h (congrArg Signature.s heq)
  have hnegated : signature ≠ sampleSignature.negated := fun heq => h' (congrArg Signature.s heq)
  simp only [sampleScheme, hsample, hnegated, or_self, and_false, false_or]
  split <;> rfl

theorem lawful_sampleScheme : sampleScheme.Lawful where
  inRange digest secret h0 h := by
    simp only [sampleScheme]
    split
    · decide
    · exact ⟨h0, h, show (0 : Word) < 1 by decide, show (1 : Word) < groupOrder by decide⟩
  recover_sign digest secret _ _ := by
    by_cases h : digest = sampleDigest ∧ secret = sampleSecret
    · simp [sampleScheme, h]
    · have hsign : sampleScheme.sign digest secret = ⟨false, secret, 1⟩ := if_neg h
      rw [hsign]
      exact recover_sampleScheme_of_ne (show (1 : Word) ≠ _ by decide) (show (1 : Word) ≠ _ by decide) _
  recover_negated digest secret _ _ := by
    by_cases h : digest = sampleDigest ∧ secret = sampleSecret
    · simp [sampleScheme, h, Signature.negated]
    · have hsign : sampleScheme.sign digest secret = ⟨false, secret, 1⟩ := if_neg h
      rw [hsign]
      exact recover_sampleScheme_of_ne (show groupOrder - 1 ≠ _ by decide)
        (show groupOrder - 1 ≠ _ by decide) _

theorem signingHash_sampleTransfer :
    (sampleTransfer.onNetwork (some 1)).signingHash = .ok sampleDigest := by
  have hpayload : (sampleTransfer.onNetwork (some 1)).signingPayload = .ok _ := rfl
  rw [signingHash, hpayload]
  exact congrArg Except.ok (by decide +kernel)

theorem signWord_sampleDigest {key : PrivateKey} (h : key.secret = sampleSecret) :
    key.signWord sampleScheme sampleDigest = sampleSignature := by
  rw [PrivateKey.signWord, h]
  decide

theorem address_sampleSecret {key : PrivateKey} (h : key.secret = sampleSecret) :
    key.address sampleScheme = ⟨0x9d8a62f656a8d1615c1294fd71e9cfb3e4855a4f⟩ := by
  rw [PrivateKey.address, h]
  decide +kernel

/-- The transfer, signed for the first chain, has the signature that the curve gives, and the key's
account is its sender. No chain has the id zero, and a transfer of another type for the fifth chain is not
signed for the first. -/
theorem sampleTransfer_gets_sender :
    sampleScheme.Lawful ∧ ∃ key, PrivateKey.ofWord sampleScheme sampleSecret = .ok key ∧
      (∃ signed, sampleTransfer.sign sampleScheme key (some 1) = .ok signed ∧
        signed = { sampleTransfer.onNetwork (some 1) with signature := some sampleSignature } ∧
        signed.sender sampleScheme = .ok ⟨0x9d8a62f656a8d1615c1294fd71e9cfb3e4855a4f⟩) ∧
      sampleTransfer.sign sampleScheme key (some 0) = .error .networkId ∧
      sign sampleScheme { sampleTransfer with envelope := .eip2930 5 1 none [] } key (some 1)
        = .error (.chainMismatch 1 5) := by
  have hkey : PrivateKey.ofWord sampleScheme sampleSecret = .ok ⟨sampleSecret, by decide, by decide⟩ := rfl
  refine ⟨lawful_sampleScheme, _, hkey, ?_, ?_, ?_⟩
  · obtain ⟨hsigned, hexists, -⟩ :=
      signer_becomes_sender lawful_sampleScheme hkey sampleTransfer (some 1)
    obtain ⟨signed, h⟩ := hexists.mpr ⟨⟨by decide, by decide, .inl rfl⟩, rfl⟩
    obtain ⟨-, digest, hdigest, hform⟩ := sign_eq_ok_iff.mp h
    rw [signingHash_sampleTransfer, Except.ok.injEq] at hdigest
    rw [← hdigest, signWord_sampleDigest rfl] at hform
    have hsender := (hsigned signed h).2
    rw [address_sampleSecret rfl] at hsender
    exact ⟨signed, h, hform, hsender⟩
  · exact (signer_becomes_sender lawful_sampleScheme hkey sampleTransfer (some 0)).2.2.1 0 rfl (.inl rfl)
  · exact (signer_becomes_sender lawful_sampleScheme hkey _ (some 1)).2.2.2 1 5 rfl (by decide) (by decide)
      (by decide) rfl (by decide)

end Transaction
end EthWire
