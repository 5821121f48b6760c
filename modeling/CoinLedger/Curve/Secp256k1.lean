import CoinLedger.Bytes

/-! # The curve secp256k1

The curve is `y² = x³ + 7` over the field of `fieldPrime` elements, and its points form a group of
`order` elements generated by `generator`.  Field elements are numbers below `fieldPrime`.

A `Projective` point `(x, y, z)` stands for `(x / z², y / z³)`, and for the neutral element if `z`
is zero, so that sums need no division.  `multiple k` is the affine point `k · generator`, and
`publicKey` writes it in 33 bytes. -/

namespace CoinLedger.Curve

/-- The number of elements of the field. -/
def fieldPrime : Nat := 0xFFFFFFFFFFFFFFFFFFFFFFFFFFFFFFFFFFFFFFFFFFFFFFFFFFFFFFFEFFFFFC2F

/-- The number of points of the curve. -/
def order : Nat := 0xfffffffffffffffffffffffffffffffebaaedce6af48a03bbfd25e8cd0364141

/-- `base ^ e` modulo `m`, for an exponent of at most `bits` binary digits. -/
def powMod (m base : Nat) : Nat → Nat → Nat
  | 0, _ => 1 % m
  | bits + 1, e =>
      let half := powMod m base bits (e / 2)
      let square := half * half % m
      if e % 2 = 1 then square * base % m else square

/-- The inverse modulo an odd prime of at most 256 binary digits. -/
def invMod (m a : Nat) : Nat := powMod m a 256 (m - 2)

/-! ### Arithmetic of the field -/

/-- Product of two field elements. -/
@[inline] def mul (a b : Nat) : Nat := a * b % fieldPrime

/-- Sum of two field elements. -/
@[inline] def add (a b : Nat) : Nat := (a + b) % fieldPrime

/-- Difference of two field elements. -/
@[inline] def sub (a b : Nat) : Nat := (a + fieldPrime - b) % fieldPrime

/-! ### Points -/

/-- A point in projective form; `z = 0` is the neutral element. -/
structure Projective where
  x : Nat
  y : Nat
  z : Nat

namespace Projective

/-- The neutral element. -/
def neutral : Projective := ⟨1, 1, 0⟩

/-- Twice a point. -/
def double (p : Projective) : Projective :=
  if p.z = 0 ∨ p.y = 0 then neutral
  else
    let yy := mul p.y p.y
    let s := mul 4 (mul p.x yy)
    let m := mul 3 (mul p.x p.x)
    let x := sub (mul m m) (mul 2 s)
    let y := sub (mul m (sub s x)) (mul 8 (mul yy yy))
    ⟨x, y, mul 2 (mul p.y p.z)⟩

/-- Sum of two points. -/
def plus (p q : Projective) : Projective :=
  if p.z = 0 then q
  else if q.z = 0 then p
  else
    let pzz := mul p.z p.z
    let qzz := mul q.z q.z
    let u₁ := mul p.x qzz
    let u₂ := mul q.x pzz
    let s₁ := mul p.y (mul qzz q.z)
    let s₂ := mul q.y (mul pzz p.z)
    if u₁ = u₂ then if s₁ = s₂ then double p else neutral
    else
      let h := sub u₂ u₁
      let r := sub s₂ s₁
      let hh := mul h h
      let hhh := mul hh h
      let v := mul u₁ hh
      let x := sub (sub (mul r r) hhh) (mul 2 v)
      ⟨x, sub (mul r (sub v x)) (mul s₁ hhh), mul h (mul p.z q.z)⟩

/-- `k` times a point, for a number of at most `bits` binary digits. -/
def times (p : Projective) : Nat → Nat → Projective
  | 0, _ => neutral
  | bits + 1, k =>
      let twice := (times p bits (k / 2)).double
      if k % 2 = 1 then twice.plus p else twice

/-- The affine coordinates; the neutral element has none and gives zeros. -/
def affine (p : Projective) : Nat × Nat :=
  let zi := invMod fieldPrime p.z
  let zzi := mul zi zi
  (mul p.x zzi, mul p.y (mul zzi zi))

end Projective

/-- The generator of the group. -/
def generator : Projective :=
  ⟨0x79be667ef9dcbbac55a06295ce870b07029bfcdb2dce28d959f2815b16f81798,
    0x483ada7726a3c4655da4fbfc0e1108a8fd17b448a68554199c47d08ffb10d4b8, 1⟩

/-- The affine coordinates of `k` times the generator. -/
def multiple (k : Nat) : Nat × Nat := (generator.times 256 k).affine

/-- The public key of a secret: the parity of `y` and the 32 bytes of `x`. -/
def publicKey (secret : Nat) : Bytes :=
  let (x, y) := multiple secret
  (if y % 2 = 0 then 2 else 3) :: Bytes.beBytes 32 x

@[simp] theorem length_publicKey (secret : Nat) : (publicKey secret).length = 33 := by
  simp [publicKey]

end CoinLedger.Curve
