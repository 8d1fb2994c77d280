/-
# What is signed says what it is for

A key signs digests, and a signature over one thing would serve for another whose digest is of the same
octets. There are four things that are signed: transactions, authorizations to set code, personal
messages and typed data. Their first two octets tell them apart (`Purpose.ofOctets`): a transaction
starts with the octet of its type or with a list, an authorization with 0x05, typed data with 0x1901,
and a personal message with 0x19 and a capital letter.

Within one kind the octets are read back. Of a transaction they give everything but the signature and
the blobs beside it, and of an authorization its three fields. A message stands behind the number of its
octets in decimal, without a mark between the two: a longer message has at least as many digits in front
of it, so the octets in all are more, and equally long ones are cut at the same place. Of typed data the
two digests are fixed.

Key definitions: `Signable`, `Signable.preimage`, `Signable.SaysSame`, `Purpose.ofOctets`.
Key theorems: `Message.preimage_inj`, `Authorization.preimage_inj`, `Signable.purpose_of_preimage`,
`Signable.preimages_are_separated`.
-/
import EthWire.Proofs.Text.Numeral
import EthWire.Proofs.Transaction.SigningPayload
import EthWire.TypedData.Payload

namespace EthWire

/-! ### Numbers in front of what they count -/

namespace Text

theorem length_octets_of_isDigit {chars : List Char} (h : ∀ c ∈ chars, c.isDigit = true) :
    (octets (String.ofList chars)).length = chars.length := by
  have hascii : ∀ c ∈ chars, c.toNat < 128 := fun c hc => by
    have hdigit := h c hc
    simp only [Char.isDigit, Bool.and_eq_true, decide_eq_true_eq] at hdigit
    exact Nat.lt_of_le_of_lt (UInt32.le_iff_toNat_le.mp hdigit.2) (by decide)
  rw [octets_of_ascii hascii, List.length_map]

theorem length_octets_toString (n : Nat) :
    (octets (toString n)).length = (Nat.toDigits 10 n).length := by
  rw [Nat.toString_eq_ofList_toDigits]
  exact length_octets_of_isDigit fun c hc => Nat.isDigit_of_mem_toDigits (by decide) (by decide) hc

theorem length_octets_toString_le {m n : Nat} (h : m ≤ n) :
    (octets (toString m)).length ≤ (octets (toString n)).length := by
  have hn : n < 10 ^ (Nat.toDigits 10 n).length :=
    (Nat.length_toDigits_le_iff (by decide) Nat.length_toDigits_pos).mp (Nat.le_refl _)
  rw [length_octets_toString, length_octets_toString,
    Nat.length_toDigits_le_iff (by decide) Nat.length_toDigits_pos]
  omega

end Text

/-- A personal message is read from its octets, since no two messages of different lengths are as long
with their length in front. -/
theorem Message.preimage_inj {m m' : Bytes} : preimage m = preimage m' ↔ m = m' := by
  refine ⟨fun h => ?_, fun h => by rw [h]⟩
  have hcounted : Text.octets (toString m.length) ++ m = Text.octets (toString m'.length) ++ m' := by
    rw [preimage, preimage, List.append_assoc, List.append_assoc] at h
    exact List.append_cancel_left h
  have htotal := congrArg List.length hcounted
  rw [List.length_append, List.length_append] at htotal
  have hlength : m.length = m'.length := by
    rcases Nat.le_total m.length m'.length with hle | hle
    · have := Text.length_octets_toString_le hle
      omega
    · have := Text.length_octets_toString_le hle
      omega
  rw [hlength] at hcounted
  exact List.append_cancel_left hcounted

/-! ### Authorizations -/

namespace Authorization

theorem depth_items_le (authorization : Authorization) : (Rlp.Item.list authorization.items).depth ≤ 1 := by
  rw [Rlp.Item.depth, Rlp.Item.depthBelow_le_iff]
  simp [items]

theorem items_inj {a b : Authorization} (h : a.items = b.items) : a = b := by
  obtain ⟨chainId, address, nonce⟩ := a
  obtain ⟨chainId', address', nonce'⟩ := b
  simp only [items, List.cons.injEq, and_true] at h
  obtain ⟨hchain, haddress, hnonce⟩ := h
  have hchain := Rlp.Item.toWord_eq_ok_iff.mpr hchain
  have haddress := Address.ofItem_eq_ok_iff.mpr haddress
  have hnonce := Rlp.Item.toUInt64_eq_ok_iff.mpr hnonce
  rw [Rlp.Item.toWord_eq_ok_iff.mpr rfl, Except.ok.injEq] at hchain
  rw [Address.ofItem_eq_ok_iff.mpr rfl, Except.ok.injEq] at haddress
  rw [Rlp.Item.toUInt64_eq_ok_iff.mpr rfl, Except.ok.injEq] at hnonce
  rw [hchain, haddress, hnonce]

/-- An authorization is read from its octets. -/
theorem preimage_inj {a b : Authorization} (hlen : a.preimage.length < 2 ^ 64) :
    a.preimage = b.preimage ↔ a = b := by
  refine ⟨fun h => ?_, fun h => by rw [h]⟩
  have hencode := (List.cons.inj h).2
  have ha := depth_items_le a
  have hb := depth_items_le b
  rw [preimage, List.length_cons] at hlen
  exact items_inj (Rlp.Item.list.inj (Rlp.encode_inj (by omega) (by omega) (by omega) hencode))

end Authorization

/-! ### The four things that are signed -/

/-- What is signed behind octets that say what it is. -/
inductive Signable where
  | transaction (tx : Transaction)
  | authorization (authorization : Authorization)
  | message (message : Bytes)
  | typedData (payload : TypedData.Payload)

/-- The kinds of what is signed. -/
inductive Purpose where
  | transaction
  | authorization
  | message
  | typedData
  deriving DecidableEq, Repr

/-- The kind of what is signed by these octets, from the first two of them. -/
def Purpose.ofOctets : Bytes → Purpose
  | 0x05 :: _ => .authorization
  | 0x19 :: 0x01 :: _ => .typedData
  | 0x19 :: _ => .message
  | _ => .transaction

namespace Signable

/-- The kind of what is signed. -/
def purpose : Signable → Purpose
  | transaction _ => .transaction
  | authorization _ => .authorization
  | message _ => .message
  | typedData _ => .typedData

/-- The octets whose digest is signed. -/
def preimage : Signable → Except Error Bytes
  | transaction tx => tx.signingPayload
  | authorization a => .ok a.preimage
  | message m => .ok (Message.preimage m)
  | typedData payload => payload.preimage

/-- Whether two things are of one kind and agree in all that a signature is about: transactions but for
their signatures and the blobs beside them, and typed data in its two digests. -/
def SaysSame : Signable → Signable → Prop
  | transaction tx, transaction tx' => tx.unsigned = tx'.unsigned
  | authorization a, authorization b => a = b
  | message m, message m' => m = m'
  | typedData payload, typedData payload' =>
    payload.domainDigest = payload'.domainDigest ∧ payload.messageDigest = payload'.messageDigest
  | _, _ => False

theorem purpose_eq_of_saysSame {a b : Signable} (h : a.SaysSame b) : a.purpose = b.purpose := by
  cases a <;> cases b <;> first | rfl | exact h.elim

/-- The first two octets tell what is signed. -/
theorem purpose_of_preimage {a : Signable} {octets : Bytes} (h : a.preimage = .ok octets) :
    Purpose.ofOctets octets = a.purpose := by
  cases a with
  | transaction tx =>
    obtain ⟨first, rest, rfl, hfirst⟩ := Transaction.exists_cons_of_signingPayload h
    unfold Purpose.ofOctets
    split <;> simp_all [purpose]
  | authorization a =>
    obtain rfl := Except.ok.inj h
    rfl
  | message m =>
    obtain rfl := Except.ok.inj h
    rfl
  | typedData payload =>
    simp only [preimage, TypedData.Payload.preimage, bind_eq_ok_iff, pure_eq_ok_iff] at h
    obtain ⟨domain, -, message, -, rfl⟩ := h
    rfl

/-- The digest of the domain takes 32 octets, so the two digests are told apart. -/
theorem typedData_preimage_inj {payload payload' : TypedData.Payload} {octets : Bytes}
    (h : payload.preimage = .ok octets) :
    payload'.preimage = .ok octets ↔
      payload.domainDigest = payload'.domainDigest ∧ payload.messageDigest = payload'.messageDigest := by
  refine ⟨fun h' => ?_, fun ⟨hd, hm⟩ => ?_⟩
  · simp only [TypedData.Payload.preimage, bind_eq_ok_iff, pure_eq_ok_iff] at h h'
    obtain ⟨domain, hd, message, hm, rfl⟩ := h
    obtain ⟨domain', hd', message', hm', heq⟩ := h'
    obtain ⟨hfront, hmessage⟩ := List.append_inj heq
      (by simp only [List.length_append, Word.length_toBytes])
    have hdomain := Word.toBytes_injective (List.append_cancel_left hfront)
    rw [hd, hm, hd', hm', hdomain, hmessage]
    exact ⟨rfl, rfl⟩
  · rw [← h, TypedData.Payload.preimage, TypedData.Payload.preimage, hd, hm]

/-- **What is signed is for one thing only.** The octets to be signed of a transaction exist exactly if it
keeps its rules, and octets below 2^64 that are signed for one thing are those of another exactly if the
two are of one kind and agree in all that a signature is about. -/
theorem preimages_are_separated :
    (∀ tx : Transaction,
      (∃ octets, (transaction tx).preimage = .ok octets) ↔ tx.validate = .ok ()) ∧
    ∀ (a b : Signable) (octets : Bytes), octets.length < 2 ^ 64 → a.preimage = .ok octets →
      (b.preimage = .ok octets ↔ a.SaysSame b) := by
  refine ⟨fun tx => Transaction.signingPayload_isOk_iff, fun a b octets hlen h => ?_⟩
  by_cases hpurpose : a.purpose = b.purpose
  · cases a <;> cases b <;> simp only [purpose, reduceCtorEq] at hpurpose
    case transaction.transaction tx tx' => exact Transaction.signingPayload_eq_iff hlen h
    case authorization.authorization a b =>
      obtain rfl := Except.ok.inj h
      rw [preimage, Except.ok.injEq, eq_comm]
      exact Authorization.preimage_inj hlen
    case message.message m m' =>
      obtain rfl := Except.ok.inj h
      rw [preimage, Except.ok.injEq, eq_comm]
      exact Message.preimage_inj
    case typedData.typedData payload payload' => exact typedData_preimage_inj h
  · refine iff_of_false (fun h' => hpurpose ?_) fun hsame => hpurpose (purpose_eq_of_saysSame hsame)
    rw [← purpose_of_preimage h, ← purpose_of_preimage h']

/-- What is signed of a signed transaction with a blob hash is what is signed before it has a signature
and with no list of blobs beside it, and neither what is signed for the next nonce nor a message. -/
theorem blob_transaction_is_separated :
    let tx : Transaction :=
      ⟨.eip4844 1 ⟨2, 1⟩ ⟨0x3535353535353535353535353535353535353535⟩ [] 3
        [BitVec.twoPow 256 248] (some []), 0, 21000, 0, [0x80], some ⟨true, 5, 0⟩⟩
    ∃ octets : Bytes, (transaction tx).preimage = .ok octets ∧ octets.length < 2 ^ 64 ∧
      (transaction tx.unsigned).preimage = .ok octets ∧
      (transaction { tx with nonce := 1 }).preimage ≠ .ok octets ∧
      (message octets).preimage ≠ .ok octets := by
  intro tx
  obtain ⟨octets, h, hlen⟩ : ∃ octets : Bytes, (transaction tx).preimage = .ok octets ∧
      octets.length < 2 ^ 64 := ⟨_, rfl, by decide +kernel⟩
  have hsep := fun b => preimages_are_separated.2 (transaction tx) b octets hlen h
  refine ⟨octets, h, hlen, (hsep _).mpr rfl, fun hnext => ?_, fun hmessage => (hsep _).mp hmessage⟩
  have hnonce := congrArg Transaction.nonce ((hsep _).mp hnext)
  exact absurd hnonce (by decide)

end Signable
end EthWire
