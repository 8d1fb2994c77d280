/-
# No field of a request is lost

A type of transaction carries some of the fields that a request can set, and a field that it does not
carry would be dropped when the transaction is built. So a request that sets such a field is refused
(`Request.foreignFields`), whether its type is named or follows from its fields: a type that is named is
checked directly, and one that follows from the fields carries all of them as soon as no two fields
contradict each other (`Request.foreignFields_suggestedKind`).

What is built therefore has every field that was set, with the value that was set. What was left out is
zero, empty or missing, except for the blob hashes, which those of the blobs stand in for.

Key definitions: `IsAsAsked`, `Request.namedHashes?`, `Request.IsAnsweredBy`.
Key theorems: `Request.conflicts_eq_nil_iff`, `Request.foreignFields_suggestedKind`,
`Request.isAnsweredBy_assemble`, `Request.built_transaction_has_what_was_asked`.
-/
import EthWire.Proofs.Transaction.Request

namespace EthWire

/-! ### The fields that a type carries -/

namespace Envelope

/-- The price of a unit of gas, where there is one price. -/
def price? : Envelope → Option Word
  | legacy _ gasPrice _ | eip2930 _ gasPrice .. => some gasPrice
  | _ => none

/-- The access list, where the type has one. -/
def accessList? : Envelope → Option (List AccessEntry)
  | legacy .. => none
  | eip2930 _ _ _ accessList | eip1559 _ _ _ accessList | eip4844 _ _ _ accessList ..
  | eip7702 _ _ _ accessList _ => some accessList

/-- The most that is paid for a unit of blob gas, where the type has blobs. -/
def maxFeePerBlobGas? : Envelope → Option Word
  | eip4844 _ _ _ _ maxFeePerBlobGas .. => some maxFeePerBlobGas
  | _ => none

/-- The hashes by which blobs are named, where the type has blobs. -/
def blobHashes? : Envelope → Option (List Word)
  | eip4844 _ _ _ _ _ hashes _ => some hashes
  | _ => none

/-- The authorizations, where the type has them. -/
def authorizations? : Envelope → Option (List SignedAuthorization)
  | eip7702 _ _ _ _ authorizations => some authorizations
  | _ => none

end Envelope

/-- A field has the value that was asked for. If none was asked for, it is missing or blank. -/
def IsAsAsked {α : Type} (blank : α) : (asked got : Option α) → Prop
  | some value, got => got = some value
  | none, got => got = none ∨ got = some blank

theorem isAsAsked_getD {α : Type} (blank : α) (asked : Option α) :
    IsAsAsked blank asked (some (asked.getD blank)) := by
  cases asked with
  | none => exact .inr rfl
  | some value => rfl

theorem isAsAsked_none {α : Type} {blank : α} {asked : Option α} (h : asked = none) :
    IsAsAsked blank asked none := by
  subst h
  exact .inl rfl

theorem isAsAsked_of_eq {α : Type} {blank : α} {asked got : Option α} (h : got = asked) :
    IsAsAsked blank asked got := by
  subst h
  cases got with
  | none => exact .inl rfl
  | some value => rfl

namespace Request

variable {request : Request} {kind : TxKind} {tx : Transaction}

/-- The blob hashes that are given, or else those of the blobs that are given. -/
def namedHashes? (request : Request) : Option (List Word) :=
  request.blobHashes.or (request.sidecars.map (·.map Sidecar.versionedHash))

/-- The transaction has each field that the request sets, with the value that it sets, and blanks
elsewhere. The chain, the receiver and the blobs are missing if they were left out. -/
structure IsAnsweredBy (request : Request) (tx : Transaction) : Prop where
  chainId : tx.chainId? = request.chainId
  nonce : IsAsAsked 0 request.nonce (some tx.nonce)
  gasPrice : IsAsAsked 0 request.gasPrice tx.envelope.price?
  maxFee : IsAsAsked 0 request.maxFee (tx.envelope.feeCaps?.map FeeCaps.maxFee)
  maxPriorityFee : IsAsAsked 0 request.maxPriorityFee (tx.envelope.feeCaps?.map FeeCaps.maxPriorityFee)
  gasLimit : IsAsAsked 0 request.gasLimit (some tx.gasLimit)
  recipient : tx.recipient? = request.to
  value : IsAsAsked 0 request.value (some tx.value)
  data : IsAsAsked [] request.data (some tx.data)
  accessList : IsAsAsked [] request.accessList tx.envelope.accessList?
  maxFeePerBlobGas : IsAsAsked 0 request.maxFeePerBlobGas tx.envelope.maxFeePerBlobGas?
  blobHashes : IsAsAsked [] request.namedHashes? tx.envelope.blobHashes?
  sidecars : tx.sidecars? = request.sidecars
  authorizations : IsAsAsked [] request.authorizations tx.envelope.authorizations?
  signature : tx.signature = none

/-! ### An accepted type carries all fields that are set -/

theorem named_eq_nil_iff {α : Type} {name : String} {field : Option α} :
    named name field = [] ↔ field = none := by
  cases field <;> simp [named]

theorem feeFields_eq_nil_iff :
    request.feeFields = [] ↔ request.maxFee = none ∧ request.maxPriorityFee = none := by
  rw [feeFields, List.append_eq_nil_iff, named_eq_nil_iff, named_eq_nil_iff]

theorem blobFields_eq_nil_iff :
    request.blobFields = [] ↔ request.maxFeePerBlobGas = none ∧ request.blobHashes = none ∧
      request.sidecars = none := by
  rw [blobFields, List.append_eq_nil_iff, List.append_eq_nil_iff, named_eq_nil_iff, named_eq_nil_iff,
    named_eq_nil_iff, and_assoc]

theorem authorizationFields_eq_nil_iff :
    request.authorizationFields = [] ↔ request.authorizations = none :=
  named_eq_nil_iff

/-- There is no contradiction if a gas price stands alone among the fields that hint at a type, and not
both blobs and authorizations are there. -/
theorem conflicts_eq_nil_iff :
    request.conflicts = [] ↔
      (request.gasPrice = none ∨
        request.feeFields = [] ∧ request.blobFields = [] ∧ request.authorizationFields = []) ∧
      (request.blobFields = [] ∨ request.authorizationFields = []) := by
  unfold conflicts
  cases hprice : request.gasPrice with
  | none =>
    rw [if_neg (by simp)]
    by_cases hblobs : request.blobFields = []
    · simp [hblobs]
    · by_cases hauthorizations : request.authorizationFields = []
      · simp [hauthorizations]
      · simp [hblobs, hauthorizations]
  | some gasPrice =>
    by_cases halone : request.feeFields = [] ∧ request.blobFields = [] ∧ request.authorizationFields = []
    · obtain ⟨hfees, hblobs, hauthorizations⟩ := halone
      simp [hfees, hblobs, hauthorizations]
    · have hname : request.priceFields = ["gasPrice"] := by simp [priceFields, named, hprice]
      rw [if_pos ⟨rfl, halone⟩, hname]
      simp [halone]

/-- The type that follows from the fields carries them all, unless two of them contradict each
other. -/
theorem foreignFields_suggestedKind (h : request.conflicts = []) :
    request.foreignFields request.suggestedKind = [] := by
  obtain ⟨hprice, hfamilies⟩ := conflicts_eq_nil_iff.mp h
  -- beside fields of a later type there is no gas price
  have hnone : ¬ (request.feeFields = [] ∧ request.blobFields = [] ∧ request.authorizationFields = []) →
      request.priceFields = [] := fun hother =>
    named_eq_nil_iff.mpr (hprice.resolve_right hother)
  unfold suggestedKind
  by_cases hauthorizations : request.authorizationFields = []
  · rw [if_neg (not_not_intro hauthorizations)]
    by_cases hblobs : request.blobFields = []
    · rw [if_neg (not_not_intro hblobs)]
      by_cases hfees : request.feeFields = []
      · rw [if_neg (not_not_intro hfees)]
        by_cases haccess : request.accessList.isSome
        · rw [if_pos haccess]
          simp [foreignFields, hfees, hblobs, hauthorizations]
        · rw [if_neg haccess]
          have hempty : request.accessFields = [] := if_neg haccess
          simp [foreignFields, hempty, hfees, hblobs, hauthorizations]
      · rw [if_pos hfees]
        simp [foreignFields, hnone fun hall => hfees hall.1, hblobs, hauthorizations]
    · rw [if_pos hblobs]
      simp [foreignFields, hnone fun hall => hblobs hall.2.1, hauthorizations]
  · rw [if_pos hauthorizations]
    have hblobs : request.blobFields = [] := hfamilies.resolve_right hauthorizations
    simp [foreignFields, hnone fun hall => hauthorizations hall.2.2, hblobs]

theorem inferKind_eq_ok_iff :
    request.inferKind = .ok kind ↔ request.conflicts = [] ∧ request.foreignFields kind = [] ∧
      (request.kind = some kind ∨ request.kind = none ∧ request.suggestedKind = kind) := by
  simp only [inferKind, ite_error_eq_ok_iff, ne_eq, Decidable.not_not]
  refine and_congr_right fun hconflicts => ?_
  cases hnamed : request.kind with
  | none =>
    have hcarried := foreignFields_suggestedKind hconflicts
    constructor
    · intro h
      obtain rfl : request.suggestedKind = kind := Except.ok.inj h
      exact ⟨hcarried, .inr ⟨rfl, rfl⟩⟩
    · rintro ⟨-, h | ⟨-, rfl⟩⟩
      · simp at h
      · rfl
  | some named =>
    simp only [ite_ok_eq_ok_iff, Except.ok.injEq, Option.some.injEq, reduceCtorEq, false_and, or_false]
    constructor
    · rintro ⟨hforeign, rfl⟩
      exact ⟨hforeign, rfl⟩
    · rintro ⟨hforeign, rfl⟩
      exact ⟨hforeign, rfl⟩

/-! ### What the other checks ask for -/

theorem chainId_of_checkChain (h : request.checkChain kind = .ok ()) (hkind : kind ≠ .legacy) :
    some (request.chainId.getD 0) = request.chainId := by
  cases hchain : request.chainId with
  | some chainId => rfl
  | none =>
    rw [checkChain, hchain] at h
    simp [hkind] at h

theorem recipient_of_checkSpecial (h : request.checkSpecial kind = .ok ())
    (hkind : kind = .eip4844 ∨ kind = .eip7702) : some (request.to.getD .zero) = request.to := by
  have hrecipient : ∃ recipient, request.to = some recipient := by
    rcases hkind with rfl | rfl
    all_goals
      simp only [checkSpecial, bind_eq_ok_iff, required_eq_ok_iff] at h
      obtain ⟨recipient, hto, -⟩ := h
      exact ⟨recipient, hto⟩
  obtain ⟨recipient, hto⟩ := hrecipient
  rw [hto]
  rfl

/-- The hashes that are taken are those that are named, where any are: given ones come first, and the
blobs must agree with them. -/
theorem namedHashes?_of_agreedHashes {hashes : List Word} (h : request.agreedHashes = .ok hashes) :
    request.namedHashes?.getD [] = hashes := by
  unfold agreedHashes at h
  unfold namedHashes?
  split at h
  · rename_i given derived hgiven hderived
    split at h
    · simp at h
    · rw [hgiven]
      exact Except.ok.inj h
  · rename_i given hgiven hderived
    rw [hgiven]
    exact Except.ok.inj h
  · rename_i derived hgiven hderived
    rw [hgiven, hderived]
    exact Except.ok.inj h
  · rename_i hgiven hderived
    rw [hgiven, hderived]
    exact Except.ok.inj h

/-- There are hashes in what is built, so they are named, in one way or the other. -/
theorem namedHashes?_of_hashes {hashes : List Word} (h : request.hashes = .ok hashes) :
    request.namedHashes? = some hashes := by
  simp only [Request.hashes, bind_eq_ok_iff, guard_eq_ok_iff, pure_eq_ok_iff] at h
  obtain ⟨agreed, hagreed, hne, ⟨⟩, -, rfl⟩ := h
  have hnamed := namedHashes?_of_agreedHashes hagreed
  cases hcase : request.namedHashes? with
  | some named =>
    rw [hcase] at hnamed
    exact congrArg some hnamed
  | none =>
    rw [hcase] at hnamed
    rw [← hnamed] at hne
    simp at hne

/-! ### The transaction that is built -/

/-- The request sets only fields that the type carries. -/
structure FitsKind (request : Request) (kind : TxKind) : Prop where
  gasPrice : kind ≠ .legacy → kind ≠ .eip2930 → request.gasPrice = none
  accessList : kind = .legacy → request.accessList = none
  fees : kind = .legacy ∨ kind = .eip2930 → request.maxFee = none ∧ request.maxPriorityFee = none
  blobs : kind ≠ .eip4844 →
    request.maxFeePerBlobGas = none ∧ request.blobHashes = none ∧ request.sidecars = none
  authorizations : kind ≠ .eip7702 → request.authorizations = none

theorem fitsKind_of_foreignFields (h : request.foreignFields kind = []) : request.FitsKind kind := by
  cases kind <;>
    simp only [foreignFields, priceFields, accessFields, List.append_eq_nil_iff, named_eq_nil_iff,
      feeFields_eq_nil_iff, blobFields_eq_nil_iff, authorizationFields_eq_nil_iff] at h <;>
    constructor <;> simp [h]

section

variable {hashes : List Word}

theorem price?_envelope (h : request.FitsKind kind) :
    IsAsAsked 0 request.gasPrice (request.envelope kind hashes).price? := by
  cases kind with
  | legacy => exact isAsAsked_getD 0 _
  | eip2930 => exact isAsAsked_getD 0 _
  | _ => exact isAsAsked_none (h.gasPrice (by decide) (by decide))

theorem feeCaps?_envelope (h : request.FitsKind kind) :
    IsAsAsked 0 request.maxFee ((request.envelope kind hashes).feeCaps?.map FeeCaps.maxFee) ∧
      IsAsAsked 0 request.maxPriorityFee
        ((request.envelope kind hashes).feeCaps?.map FeeCaps.maxPriorityFee) := by
  cases kind with
  | legacy =>
    obtain ⟨hmax, htip⟩ := h.fees (.inl rfl)
    exact ⟨isAsAsked_none hmax, isAsAsked_none htip⟩
  | eip2930 =>
    obtain ⟨hmax, htip⟩ := h.fees (.inr rfl)
    exact ⟨isAsAsked_none hmax, isAsAsked_none htip⟩
  | _ => exact ⟨isAsAsked_getD 0 _, isAsAsked_getD 0 _⟩

theorem accessList?_envelope (h : request.FitsKind kind) :
    IsAsAsked [] request.accessList (request.envelope kind hashes).accessList? := by
  cases kind with
  | legacy => exact isAsAsked_none (h.accessList rfl)
  | _ => exact isAsAsked_getD [] _

theorem maxFeePerBlobGas?_envelope (h : request.FitsKind kind) :
    IsAsAsked 0 request.maxFeePerBlobGas (request.envelope kind hashes).maxFeePerBlobGas? := by
  cases kind with
  | eip4844 => exact isAsAsked_getD 0 _
  | _ => exact isAsAsked_none (h.blobs (by decide)).1

theorem blobHashes?_envelope (h : request.FitsKind kind)
    (hhashes : if kind = .eip4844 then request.hashes = .ok hashes else hashes = []) :
    IsAsAsked [] request.namedHashes? (request.envelope kind hashes).blobHashes? := by
  by_cases hkind : kind = .eip4844
  · subst hkind
    exact isAsAsked_of_eq (namedHashes?_of_hashes hhashes).symm
  · obtain ⟨-, hgiven, hsidecars⟩ := h.blobs hkind
    have hnamed : request.namedHashes? = none := by
      rw [namedHashes?, hgiven, hsidecars]
      rfl
    cases kind with
    | eip4844 => exact absurd rfl hkind
    | _ => exact isAsAsked_none hnamed

theorem sidecars?_envelope (h : request.FitsKind kind) :
    (request.envelope kind hashes).sidecars? = request.sidecars := by
  cases kind with
  | eip4844 => rfl
  | _ => exact (h.blobs (by decide)).2.2.symm

theorem authorizations?_envelope (h : request.FitsKind kind) :
    IsAsAsked [] request.authorizations (request.envelope kind hashes).authorizations? := by
  cases kind with
  | eip7702 => exact isAsAsked_getD [] _
  | _ => exact isAsAsked_none (h.authorizations (by decide))

theorem chainId?_envelope (h : request.checkChain kind = .ok ()) :
    (request.envelope kind hashes).chainId? = request.chainId := by
  cases kind with
  | legacy => rfl
  | _ => exact chainId_of_checkChain h (by decide)

theorem recipient?_envelope (h : request.checkSpecial kind = .ok ()) :
    (request.envelope kind hashes).recipient? = request.to := by
  cases kind with
  | eip4844 => exact recipient_of_checkSpecial h (.inl rfl)
  | eip7702 => exact recipient_of_checkSpecial h (.inr rfl)
  | _ => rfl

/-- A transaction of a type that carries all fields that are set has them all. -/
theorem isAnsweredBy_assemble (hfits : request.FitsKind kind) (hchain : request.checkChain kind = .ok ())
    (hspecial : request.checkSpecial kind = .ok ())
    (hhashes : if kind = .eip4844 then request.hashes = .ok hashes else hashes = []) :
    request.IsAnsweredBy (request.assemble kind hashes) where
  chainId := chainId?_envelope hchain
  nonce := isAsAsked_getD 0 request.nonce
  gasPrice := price?_envelope hfits
  maxFee := (feeCaps?_envelope hfits).1
  maxPriorityFee := (feeCaps?_envelope hfits).2
  gasLimit := isAsAsked_getD 0 request.gasLimit
  recipient := recipient?_envelope hspecial
  value := isAsAsked_getD 0 request.value
  data := isAsAsked_getD [] request.data
  accessList := accessList?_envelope hfits
  maxFeePerBlobGas := maxFeePerBlobGas?_envelope hfits
  blobHashes := blobHashes?_envelope hfits hhashes
  sidecars := sidecars?_envelope hfits
  authorizations := authorizations?_envelope hfits
  signature := rfl

end

/-- **What is built has what was asked for**: the type that was named, or else the one that follows from
the fields, and every field that was set, with the value that was set. What was left out is zero, empty or
missing. -/
theorem built_transaction_has_what_was_asked (h : request.build = .ok tx) :
    request.inferKind = .ok tx.kind ∧ (∀ kind, request.kind = some kind → tx.kind = kind) ∧
      request.IsAnsweredBy tx := by
  obtain ⟨kind, hashes, hv, hhashes, rfl⟩ := build_eq_ok_iff.mp h
  obtain ⟨hkind, gasLimit, -, hchain, -, hspecial⟩ := validate_eq_ok_iff.mp hv
  obtain ⟨-, hforeign, hsource⟩ := inferKind_eq_ok_iff.mp hkind
  have hfits := fitsKind_of_foreignFields hforeign
  rw [kind_assemble]
  refine ⟨hkind, fun named hnamed => ?_, isAnsweredBy_assemble hfits hchain hspecial hhashes⟩
  rcases hsource with hsome | ⟨hnone, -⟩
  · exact Option.some.inj (hsome.symm.trans hnamed)
  · rw [hnone] at hnamed
    simp at hnamed

/-- A request for a type with a fee cap that also sets an access list, and leaves the nonce, the value
and the data out. -/
theorem listed_request_has_what_was_asked :
    let request : Request := { blank with
      kind := some .eip1559, chainId := some 1, maxFee := some 2, maxPriorityFee := some 1,
      gasLimit := some 21000, accessList := some [⟨⟨0x3535353535353535353535353535353535353535⟩, [7]⟩] }
    ∃ tx, request.build = .ok tx ∧ tx.kind = .eip1559 ∧ request.IsAnsweredBy tx := by
  intro request
  have h : request.build = .ok _ := rfl
  obtain ⟨-, hkind, hanswered⟩ := built_transaction_has_what_was_asked h
  exact ⟨_, h, hkind .eip1559 rfl, hanswered⟩

end Request
end EthWire
