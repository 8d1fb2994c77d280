/-
# Wrapped signatures are unwrapped

A wrapper is taken off from its end: the mark says that there is one, and what stands in front of the mark
is cut off at its length. So nothing of the signature inside is ever looked at, and one that ends in a mark
itself, being wrapped already, comes back as it is.

For a contract that does not exist yet everything in front of the mark is one parameter list. For an account
that does not run its code yet the list stands behind the signature, and its own length, a word in front of
the mark, says where it begins (`PredelegatedSignature.unwrap_of_parts`).

Key theorems: `Wrapped.endsWith_append`, `PredelegatedSignature.authorizationOfValue_authorizationValue`,
`CounterfactualSignature.creation_is_unwrapped`, `PredelegatedSignature.delegation_is_unwrapped`.
-/
import EthWire.Proofs.Abi.Typing
import EthWire.WrappedSignature.Counterfactual
import EthWire.WrappedSignature.Predelegated

namespace EthWire

namespace Wrapped

theorem endsWith_iff {mark bytes : Bytes} : endsWith mark bytes = true ↔ mark <:+ bytes :=
  List.isSuffixOf_iff_suffix

theorem endsWith_append (body mark : Bytes) : endsWith mark (body ++ mark) = true :=
  endsWith_iff.mpr (List.suffix_append body mark)

theorem withoutLast_append {trailer : Bytes} {count : Nat} (h : trailer.length = count) (body : Bytes) :
    withoutLast count (body ++ trailer) = body := by
  rw [withoutLast, List.length_append, h, Nat.add_sub_cancel, List.take_left]

@[simp] theorem length_suffix (high low : UInt8) : (suffix high low).length = 32 := rfl

end Wrapped

/-! ### Contracts that do not exist yet -/

namespace CounterfactualSignature

theorem hasKind_parts (factory : Address) (data signature : Bytes) :
    (Abi.Value.tuple [.address factory, .bytes data, .bytes signature]).HasKind (.tuple kinds) := by
  refine .tuple rfl ?_
  simp only [kinds, List.zip_cons_cons, List.zip_nil_left, List.forall_mem_cons]
  exact ⟨.address factory, .bytes data, .bytes signature, by simp⟩

/-- The mark is cut off, and what stands in front of it is the parameter list. -/
theorem unwrap_of_parts {body : Bytes} {factory : Address} {data signature : Bytes}
    (hread : Abi.decode kinds body = .ok [.address factory, .bytes data, .bytes signature]) :
    unwrap (body ++ mark) = .ok ⟨some (factory, data), signature⟩ := by
  have hmark : isWrapped (body ++ mark) = true := Wrapped.endsWith_append body mark
  rw [unwrap, hmark, Wrapped.withoutLast_append rfl, hread]
  rfl

theorem isWrapped_eq_false {bytes : Bytes} (h : ¬ mark <:+ bytes) : isWrapped bytes = false := by
  rw [Bool.eq_false_iff]
  exact fun hmark => h (Wrapped.endsWith_iff.mp hmark)

theorem unwrap_of_not_suffix {bytes : Bytes} (h : ¬ mark <:+ bytes) : unwrap bytes = .ok ⟨none, bytes⟩ := by
  rw [unwrap, isWrapped_eq_false h]
  rfl

/-- **The call that creates a contract is taken off again**, and only octets that end in the mark have one.
The signature inside may be wrapped itself. Octet strings are shorter than 2^64. -/
theorem creation_is_unwrapped :
    (∀ (factory : Address) (data signature : Bytes), ∃ wrapped, wrap factory data signature = .ok wrapped ∧
      isWrapped wrapped = true ∧
      (wrapped.length < 2 ^ 64 → unwrap wrapped = .ok ⟨some (factory, data), signature⟩)) ∧
    ∀ bytes, ¬ mark <:+ bytes → isWrapped bytes = false ∧ unwrap bytes = .ok ⟨none, bytes⟩ := by
  constructor
  · intro factory data signature
    have hkind := hasKind_parts factory data signature
    obtain ⟨body, hbody⟩ := Abi.exists_encode_iff.mpr ⟨hkind, hkind.headsCounted (by decide)⟩
    refine ⟨body ++ mark, ?_, Wrapped.endsWith_append body mark, fun hlen => ?_⟩
    · rw [wrap, hbody]
      rfl
    · rw [List.length_append] at hlen
      exact unwrap_of_parts (Abi.decode_of_encode (by decide) (by decide) (by omega) hbody)
  · intro bytes hmark
    exact ⟨isWrapped_eq_false hmark, unwrap_of_not_suffix hmark⟩

/-- A wrapped signature is wrapped once more, and one wrapper is taken off at a time. The mark cut short is no
mark. -/
theorem nested_creations_are_unwrapped :
    ∃ inner outer, wrap .zero [] [] = .ok inner ∧ inner.length = 192 ∧
      wrap ⟨1⟩ [0xde, 0xad] inner = .ok outer ∧ outer.length = 416 ∧
      unwrap outer = .ok ⟨some (⟨1⟩, [0xde, 0xad]), inner⟩ ∧ unwrap inner = .ok ⟨some (.zero, []), []⟩ ∧
      unwrap mark.tail = .ok ⟨none, mark.tail⟩ := by
  obtain ⟨hwrapped, hplain⟩ := creation_is_unwrapped
  obtain ⟨inner, outer, hinner, hinnerSize, houter, houterSize⟩ : ∃ inner outer,
      wrap .zero [] [] = .ok inner ∧ inner.length = 192 ∧ wrap ⟨1⟩ [0xde, 0xad] inner = .ok outer ∧
        outer.length = 416 :=
    ⟨_, _, rfl, by decide +kernel, rfl, by decide +kernel⟩
  obtain ⟨octets, hoctets, -, houterRead⟩ := hwrapped ⟨1⟩ [0xde, 0xad] inner
  obtain rfl : outer = octets := Except.ok.inj (houter.symm.trans hoctets)
  obtain ⟨octets, hoctets, -, hinnerRead⟩ := hwrapped .zero [] []
  obtain rfl : inner = octets := Except.ok.inj (hinner.symm.trans hoctets)
  exact ⟨inner, outer, hinner, hinnerSize, houter, houterSize, houterRead (by omega), hinnerRead (by omega),
    (hplain mark.tail (by decide)).2⟩

end CounterfactualSignature

/-! ### Accounts that do not run their code yet -/

namespace PredelegatedSignature

theorem parityOfWord_ite (flag : Bool) : parityOfWord (if flag then 1 else 0) = .ok flag := by
  cases flag <;> rfl

theorem authorizationOfValue_authorizationValue (signed : SignedAuthorization) :
    authorizationOfValue (authorizationValue signed) = .ok signed := by
  have hlt : signed.authorization.nonce.toNat < 2 ^ 64 := signed.authorization.nonce.toNat_lt
  have hnonce : (BitVec.ofNat 256 signed.authorization.nonce.toNat).toNat = signed.authorization.nonce.toNat := by
    rw [BitVec.toNat_ofNat, Nat.mod_eq_of_lt (by omega)]
  rw [authorizationValue, authorizationOfValue, hnonce, if_pos hlt, parityOfWord_ite, UInt64.ofNat_toNat]
  rfl

theorem hasKind_parts (signed : SignedAuthorization) (recipient : Address) (data : Bytes) :
    (Abi.Value.tuple [authorizationValue signed, .address recipient, .bytes data]).HasKind (.tuple kinds) := by
  have hparity : Abi.fitsUint (if signed.signature.yParity then 1 else 0) 8 = true := by
    cases signed.signature.yParity <;> decide
  have hauthorization : (authorizationValue signed).HasKind
      (.tuple [.uint 256, .address, .uint 256, .uint 8, .uint 256, .uint 256]) := by
    refine .tuple rfl ?_
    simp only [List.zip_cons_cons, List.zip_nil_left, List.forall_mem_cons]
    exact ⟨.uint rfl, .address _, .uint rfl, .uint hparity, .uint rfl, .uint rfl, by simp⟩
  refine .tuple rfl ?_
  simp only [kinds, List.zip_cons_cons, List.zip_nil_left, List.forall_mem_cons]
  exact ⟨hauthorization, .address recipient, .bytes data, by simp⟩

section

variable {signature parts : Bytes}

theorem length_trailer (parts : Bytes) : (Bytes.toBigEndian 32 parts.length ++ mark).length = trailerLength := by
  rw [List.length_append, Bytes.length_toBigEndian]
  rfl

theorem isWrapped_append (signature parts : Bytes) :
    isWrapped (signature ++ parts ++ Bytes.toBigEndian 32 parts.length ++ mark) = true := by
  rw [isWrapped, Wrapped.endsWith_append, Bool.and_true, decide_eq_true_iff, List.append_assoc,
    List.length_append, length_trailer]
  exact Nat.le_add_left _ _

/-- The parts are found by their length, whatever the signature in front of them ends in. -/
theorem unwrap_of_parts {signed : SignedAuthorization} {authorization : Abi.Value} {recipient : Address}
    {data : Bytes} (hlen : parts.length < 2 ^ 64)
    (hread : Abi.decode kinds parts = .ok [authorization, .address recipient, .bytes data])
    (hsigned : authorizationOfValue authorization = .ok signed) :
    unwrap (signature ++ parts ++ Bytes.toBigEndian 32 parts.length ++ mark) = .ok {
      authorization := signed
      «to» := if recipient = .zero then none else some recipient
      data := if data.isEmpty then none else some data
      signature } := by
  have hcontent : Wrapped.withoutLast trailerLength
      (signature ++ parts ++ Bytes.toBigEndian 32 parts.length ++ mark) = signature ++ parts := by
    rw [List.append_assoc, Wrapped.withoutLast_append (length_trailer parts)]
  have hlength : Bytes.ofBigEndian
      (((signature ++ parts ++ Bytes.toBigEndian 32 parts.length ++ mark).drop (signature ++ parts).length).take 32)
      = parts.length := by
    rw [List.append_assoc, List.drop_left, List.take_left' (Bytes.length_toBigEndian 32 _),
      Bytes.ofBigEndian_toBigEndian, Nat.mod_eq_of_lt (by omega)]
  have hstart : (signature ++ parts).length - parts.length = signature.length := by
    rw [List.length_append, Nat.add_sub_cancel]
  have hle : ¬ parts.length > (signature ++ parts).length := by
    rw [List.length_append]
    omega
  rw [unwrap, isWrapped_append]
  simp only [hcontent, hlength, hstart, List.drop_left, List.take_left, hread]
  rw [if_neg hle]
  exact bind_eq_ok_iff.mpr ⟨_, rfl, bind_eq_ok_iff.mpr ⟨signed, hsigned, rfl⟩⟩

end

theorem ite_getD_eq_filter {α : Type} [DecidableEq α] (x : Option α) (nothing : α) :
    (if x.getD nothing = nothing then none else some (x.getD nothing)) = x.filter (· ≠ nothing) := by
  cases x with
  | none => simp
  | some a => by_cases h : a = nothing <;> simp [h, Option.filter]

/-- **An authorization and a call are taken off again**, the zero address and no data being no call at all. The
signature inside may end in any mark. Octet strings are shorter than 2^64. -/
theorem delegation_is_unwrapped (wrapped : PredelegatedSignature) :
    ∃ octets, wrap wrapped = .ok octets ∧ isWrapped octets = true ∧
      (octets.length < 2 ^ 64 → unwrap octets = .ok { wrapped with
        «to» := wrapped.to.filter (· ≠ .zero)
        data := wrapped.data.filter (· ≠ []) }) := by
  obtain ⟨signed, recipient, data, signature⟩ := wrapped
  have hkind := hasKind_parts signed (recipient.getD .zero) (data.getD [])
  obtain ⟨parts, hparts⟩ := Abi.exists_encode_iff.mpr ⟨hkind, hkind.headsCounted (by decide)⟩
  refine ⟨_, ?_, isWrapped_append signature parts, fun hlen => ?_⟩
  · rw [wrap, hparts]
    rfl
  · have hshort : parts.length < 2 ^ 64 := by
      simp only [List.length_append] at hlen
      omega
    have hread := Abi.decode_of_encode (by decide) (by decide) hshort hparts
    rw [unwrap_of_parts hshort hread (authorizationOfValue_authorizationValue signed)]
    simp only [List.isEmpty_iff, ite_getD_eq_filter]

/-- An authorization without a call, around octets that end in both marks, one after the other. -/
def sampleWrapped : PredelegatedSignature where
  authorization := ⟨⟨1, ⟨0x3535⟩, 3⟩, ⟨true, 7, 8⟩⟩
  «to» := some .zero
  data := some []
  signature := CounterfactualSignature.mark ++ mark

/-- The call that says nothing is read as none, and the marks inside stay. -/
theorem marked_delegation_is_unwrapped :
    ∃ octets, wrap sampleWrapped = .ok octets ∧ octets.length = 416 ∧
      unwrap octets = .ok { sampleWrapped with «to» := none, data := none } := by
  obtain ⟨octets, hoctets, hsize⟩ : ∃ octets, wrap sampleWrapped = .ok octets ∧ octets.length = 416 :=
    ⟨_, rfl, by decide +kernel⟩
  obtain ⟨written, hwritten, -, hread⟩ := delegation_is_unwrapped sampleWrapped
  obtain rfl : octets = written := Except.ok.inj (hoctets.symm.trans hwritten)
  exact ⟨octets, hoctets, hsize, hread (by omega)⟩

end PredelegatedSignature
end EthWire
