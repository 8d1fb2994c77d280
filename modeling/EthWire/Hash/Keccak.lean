/-
# Keccak-256

The sponge over the permutation of 1600 bits, with a rate of 136 octets, a capacity of 64 octets and
the padding `0x01 … 0x80` that Ethereum kept from the submission to the standard.

The state is five rows of five lanes; lane `x` of row `y` is bit column `(x, y)` of the standard. A
round is the composition of its five steps, each a function on rows: `θ` adds column parities, `ρ`
and `π` rotate every lane and move it to its new row, `χ` is the one step that is not linear, and `ι`
adds the round constant to one lane.

Key definitions: `Keccak.Row`, `Keccak.State`, `Keccak.round`, `Keccak.permute`, `keccak256`.
-/
import EthWire.Word

namespace EthWire
namespace Keccak

/-- Five lanes of 64 bits with the same second coordinate. -/
structure Row where
  a : UInt64
  b : UInt64
  c : UInt64
  d : UInt64
  e : UInt64
  deriving DecidableEq

/-- Five rows. -/
structure State where
  p : Row
  q : Row
  r : Row
  s : Row
  t : Row
  deriving DecidableEq

namespace Row

def zero : Row := ⟨0, 0, 0, 0, 0⟩

/-- Lane by lane, the exclusive or. -/
def add (x y : Row) : Row :=
  ⟨x.a ^^^ y.a, x.b ^^^ y.b, x.c ^^^ y.c, x.d ^^^ y.d, x.e ^^^ y.e⟩

/-- The step that is not linear: a lane changes where the next one is clear and the one after set. -/
def chi (x : Row) : Row :=
  ⟨x.a ^^^ (~~~x.b &&& x.c), x.b ^^^ (~~~x.c &&& x.d), x.c ^^^ (~~~x.d &&& x.e),
    x.d ^^^ (~~~x.e &&& x.a), x.e ^^^ (~~~x.a &&& x.b)⟩

end Row

/-- The lane rotated towards its high bits, for amounts from 1 to 63. -/
@[inline] def rotate (lane : UInt64) (amount : UInt64) : UInt64 :=
  (lane <<< amount) ||| (lane >>> (64 - amount))

/-- What every lane of a column gains: the parities of the two columns beside it. -/
def columnParity (st : State) : Row :=
  let c := (((st.p.add st.q).add st.r).add st.s).add st.t
  ⟨c.e ^^^ rotate c.b 1, c.a ^^^ rotate c.c 1, c.b ^^^ rotate c.d 1, c.c ^^^ rotate c.e 1,
    c.d ^^^ rotate c.a 1⟩

/-- Adds the column parities to every row. -/
def theta (st : State) : State :=
  let d := columnParity st
  ⟨st.p.add d, st.q.add d, st.r.add d, st.s.add d, st.t.add d⟩

/-- Rotates every lane by its own amount and moves it to its new row. -/
def rhoPi (st : State) : State where
  p := ⟨st.p.a, rotate st.q.b 44, rotate st.r.c 43, rotate st.s.d 21, rotate st.t.e 14⟩
  q := ⟨rotate st.p.d 28, rotate st.q.e 20, rotate st.r.a 3, rotate st.s.b 45, rotate st.t.c 61⟩
  r := ⟨rotate st.p.b 1, rotate st.q.c 6, rotate st.r.d 25, rotate st.s.e 8, rotate st.t.a 18⟩
  s := ⟨rotate st.p.e 27, rotate st.q.a 36, rotate st.r.b 10, rotate st.s.c 15, rotate st.t.d 56⟩
  t := ⟨rotate st.p.c 62, rotate st.q.d 55, rotate st.r.e 39, rotate st.s.a 41, rotate st.t.b 2⟩

/-- The step `χ` on every row. -/
def chi (st : State) : State :=
  ⟨st.p.chi, st.q.chi, st.r.chi, st.s.chi, st.t.chi⟩

/-- Adds the constant of the round to the first lane. -/
def iota (constant : UInt64) (st : State) : State :=
  { st with p := { st.p with a := st.p.a ^^^ constant } }

/-- One round. -/
def round (st : State) (constant : UInt64) : State :=
  iota constant (chi (rhoPi (theta st)))

/-- The constants of the 24 rounds. -/
def roundConstants : List UInt64 :=
  [0x0000000000000001, 0x0000000000008082, 0x800000000000808a, 0x8000000080008000,
    0x000000000000808b, 0x0000000080000001, 0x8000000080008081, 0x8000000000008009,
    0x000000000000008a, 0x0000000000000088, 0x0000000080008009, 0x000000008000000a,
    0x000000008000808b, 0x800000000000008b, 0x8000000000008089, 0x8000000000008003,
    0x8000000000008002, 0x8000000000000080, 0x000000000000800a, 0x800000008000000a,
    0x8000000080008081, 0x8000000000008080, 0x0000000080000001, 0x8000000080008008]

/-- All 24 rounds. -/
def permute (st : State) : State :=
  roundConstants.foldl round st

/-! ### The sponge -/

/-- The octets of one input block. -/
def rate : Nat := 136

/-- The lane of up to eight octets, the least significant first. -/
def lane : Bytes → UInt64
  | [] => 0
  | b :: rest => b.toUInt64 ||| (lane rest <<< 8)

/-- The octets of a lane, the least significant first. -/
def laneOctets (x : UInt64) : Bytes :=
  [x.toUInt8, (x >>> 8).toUInt8, (x >>> 16).toUInt8, (x >>> 24).toUInt8,
    (x >>> 32).toUInt8, (x >>> 40).toUInt8, (x >>> 48).toUInt8, (x >>> 56).toUInt8]

/-- The state with the lanes of a block; lanes that the list lacks are zero. -/
def ofLanes (lanes : List UInt64) : State :=
  let row (ls : List UInt64) : Row :=
    match ls with
    | a :: b :: c :: d :: e :: _ => ⟨a, b, c, d, e⟩
    | [a, b, c, d] => ⟨a, b, c, d, 0⟩
    | [a, b, c] => ⟨a, b, c, 0, 0⟩
    | [a, b] => ⟨a, b, 0, 0, 0⟩
    | [a] => ⟨a, 0, 0, 0, 0⟩
    | [] => Row.zero
  ⟨row lanes, row (lanes.drop 5), row (lanes.drop 10), row (lanes.drop 15), row (lanes.drop 20)⟩

/-- Adds a block to the state and permutes. -/
def absorb (st : State) (block : Bytes) : State :=
  let input := ofLanes ((Bytes.blocks 7 block).map lane)
  permute ⟨st.p.add input.p, st.q.add input.q, st.r.add input.r, st.s.add input.s,
    st.t.add input.t⟩

/-- The padding behind a message: a one, zeros, and a one in the last bit of the block. -/
def padding (length : Nat) : Bytes :=
  match rate - length % rate with
  | 1 => [0x81]
  | missing => 0x01 :: (List.replicate (missing - 2) 0 ++ [0x80])

/-- The state after the whole message. -/
def sponge (message : Bytes) : State :=
  (Bytes.blocks (rate - 1) (message ++ padding message.length)).foldl absorb
    ⟨Row.zero, Row.zero, Row.zero, Row.zero, Row.zero⟩

/-- The first 32 octets of the state after the whole message. -/
def digest (message : Bytes) : Bytes :=
  let out := (sponge message).p
  laneOctets out.a ++ laneOctets out.b ++ laneOctets out.c ++ laneOctets out.d

end Keccak

/-- The Keccak-256 digest of an octet string. -/
def keccak256 (message : Bytes) : Word :=
  Word.ofBytes (Keccak.digest message)

end EthWire
