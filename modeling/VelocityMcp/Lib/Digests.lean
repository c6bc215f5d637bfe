import VelocityMcp.Lib.BlockHash
import VelocityMcp.Lib.Expansion

/-!
# Lib.Digests — SHA-256 and SHA-1 (FIPS 180-4), MD5 (RFC 1321)

Each is given as the standard gives it: the constants by what they are the digits of, the message schedule by its
recurrence, the operations of MD5 by the list of the registers that they take turns with.
-/

namespace Lib

open BlockHash

/-- Words one after the other, the high end first. -/
def wordsBE (ws : List Word) : Bytes := ws.flatMap fun w => beBytes 4 w.toNat

theorem length_wordsBE (ws : List Word) : (wordsBE ws).length = 4 * ws.length := by
  induction ws with
  | nil => rfl
  | cons w ws ih =>
    show (beBytes 4 w.toNat ++ wordsBE ws).length = _
    rw [List.length_append, length_beBytes, ih, List.length_cons]
    omega

/-- Words one after the other, the low end first. -/
def wordsLE (ws : List Word) : Bytes := ws.flatMap fun w => leBytes 4 w.toNat

namespace Sha256

def ch (x y z : Word) : Word := (x &&& y) ^^^ (~~~x &&& z)

def maj (x y z : Word) : Word := (x &&& y) ^^^ (x &&& z) ^^^ (y &&& z)

/-- `Σ₀`. -/
def bigSigma0 (x : Word) : Word := x.rotateRight 2 ^^^ x.rotateRight 13 ^^^ x.rotateRight 22

/-- `Σ₁`. -/
def bigSigma1 (x : Word) : Word := x.rotateRight 6 ^^^ x.rotateRight 11 ^^^ x.rotateRight 25

/-- `σ₀`. -/
def sigma0 (x : Word) : Word := x.rotateRight 7 ^^^ x.rotateRight 18 ^^^ (x >>> 3)

/-- `σ₁`. -/
def sigma1 (x : Word) : Word := x.rotateRight 17 ^^^ x.rotateRight 19 ^^^ (x >>> 10)

/-- `K`: the first 32 bits of the fractional parts of the cube roots of the first 64 primes. -/
noncomputable def k (t : ℕ) : Word :=
  BitVec.ofNat 32 (fractionDigits ((Nat.nth Nat.Prime t : ℝ) ^ (1 / (3 : ℕ) : ℝ)))

/-- `H⁽⁰⁾`: those of the square roots of the first 8 primes. -/
noncomputable def initial (i : ℕ) : Word :=
  BitVec.ofNat 32 (fractionDigits ((Nat.nth Nat.Prime i : ℝ) ^ (1 / (2 : ℕ) : ℝ)))

structure State where
  a : Word
  b : Word
  c : Word
  d : Word
  e : Word
  f : Word
  g : Word
  h : Word
deriving DecidableEq

noncomputable def State.initial : State :=
  ⟨Sha256.initial 0, Sha256.initial 1, Sha256.initial 2, Sha256.initial 3, Sha256.initial 4, Sha256.initial 5,
    Sha256.initial 6, Sha256.initial 7⟩

/-- `W`. -/
def schedule (m : ℕ → Word) (t : ℕ) : Word :=
  if t < 16 then m t
  else sigma1 (schedule m (t - 2)) + schedule m (t - 7) + sigma0 (schedule m (t - 15)) + schedule m (t - 16)

def round (kt wt : Word) (s : State) : State :=
  let t1 := s.h + bigSigma1 s.e + ch s.e s.f s.g + kt + wt
  let t2 := bigSigma0 s.a + maj s.a s.b s.c
  { h := s.g, g := s.f, f := s.e, e := s.d + t1, d := s.c, c := s.b, b := s.a, a := t1 + t2 }

noncomputable def rounds (m : ℕ → Word) (s : State) : ℕ → State
  | 0 => s
  | t + 1 => round (k t) (schedule m t) (rounds m s t)

noncomputable def compress (s : State) (block : Bytes) : State :=
  let r := rounds (wordBE block) s 64
  ⟨s.a + r.a, s.b + r.b, s.c + r.c, s.d + r.d, s.e + r.e, s.f + r.f, s.g + r.g, s.h + r.h⟩

def State.words (s : State) : List Word := [s.a, s.b, s.c, s.d, s.e, s.f, s.g, s.h]

/-- SHA-256, as the standard defines it. -/
noncomputable def digest (msg : Bytes) : Bytes := wordsBE (process compress State.initial (beBytes 8) msg).words

theorem length_digest (msg : Bytes) : (digest msg).length = 32 := by
  rw [digest, length_wordsBE]
  rfl

end Sha256

namespace Sha1

structure State where
  a : Word
  b : Word
  c : Word
  d : Word
  e : Word
deriving DecidableEq

def State.initial : State := ⟨0x67452301, 0xefcdab89, 0x98badcfe, 0x10325476, 0xc3d2e1f0⟩

/-- `f`: `Ch`, `Parity`, `Maj` and `Parity` again. -/
def f (t : ℕ) (x y z : Word) : Word :=
  if t < 20 then Sha256.ch x y z else if 40 ≤ t ∧ t < 60 then Sha256.maj x y z else x ^^^ y ^^^ z

def k (t : ℕ) : Word :=
  if t < 20 then 0x5a827999 else if t < 40 then 0x6ed9eba1 else if t < 60 then 0x8f1bbcdc else 0xca62c1d6

/-- `W`. -/
def schedule (m : ℕ → Word) (t : ℕ) : Word :=
  if t < 16 then m t
  else (schedule m (t - 3) ^^^ schedule m (t - 8) ^^^ schedule m (t - 14) ^^^ schedule m (t - 16)).rotateLeft 1

def round (t : ℕ) (wt : Word) (s : State) : State :=
  let temp := s.a.rotateLeft 5 + f t s.b s.c s.d + s.e + k t + wt
  { e := s.d, d := s.c, c := s.b.rotateLeft 30, b := s.a, a := temp }

def rounds (m : ℕ → Word) (s : State) : ℕ → State
  | 0 => s
  | t + 1 => round t (schedule m t) (rounds m s t)

def compress (s : State) (block : Bytes) : State :=
  let r := rounds (wordBE block) s 80
  ⟨s.a + r.a, s.b + r.b, s.c + r.c, s.d + r.d, s.e + r.e⟩

def State.words (s : State) : List Word := [s.a, s.b, s.c, s.d, s.e]

/-- SHA-1, as the standard defines it. -/
def digest (msg : Bytes) : Bytes := wordsBE (process compress State.initial (beBytes 8) msg).words

end Sha1

namespace Md5

def f (x y z : Word) : Word := (x &&& y) ||| (~~~x &&& z)

def g (x y z : Word) : Word := (x &&& z) ||| (y &&& ~~~z)

def h (x y z : Word) : Word := x ^^^ y ^^^ z

def i (x y z : Word) : Word := y ^^^ (x ||| ~~~z)

/-- `T[n]`: the integer part of 4294967296 times `|sin n|`. -/
noncomputable def t (n : ℕ) : Word := BitVec.ofNat 32 (sineDigits n)

/-- The registers `A`, `B`, `C` and `D`. -/
abbrev State := Fin 4 → Word

/-- The bytes 01 23 45 67, 89 ab cd ef, fe dc ba 98 and 76 54 32 10, the low end first. -/
def State.initial : State := ![0x67452301, 0xefcdab89, 0x98badcfe, 0x10325476]

def function (n : ℕ) : Word → Word → Word → Word :=
  if n < 16 then f else if n < 32 then g else if n < 48 then h else i

/-- `k`: the words that the operations take, round by round. -/
def order : List ℕ :=
  [0, 1, 2, 3, 4, 5, 6, 7, 8, 9, 10, 11, 12, 13, 14, 15,
    1, 6, 11, 0, 5, 10, 15, 4, 9, 14, 3, 8, 13, 2, 7, 12,
    5, 8, 11, 14, 1, 4, 7, 10, 13, 0, 3, 6, 9, 12, 15, 2,
    0, 7, 14, 5, 12, 3, 10, 1, 8, 15, 6, 13, 4, 11, 2, 9]

/-- `s`: the shifts of a round, which come again after four operations. -/
def shifts : List (List ℕ) := [[7, 12, 17, 22], [5, 9, 14, 20], [4, 11, 16, 23], [6, 10, 15, 21]]

def shift (n : ℕ) : ℕ := (shifts.getD (n / 16) []).getD (n % 4) 0

/-- Which register an operation changes: `A`, `D`, `C`, `B`, and so on. -/
def target (n : ℕ) : Fin 4 := -Fin.ofNat 4 n

/-- `[abcd k s i]`: `a = b + ((a + F(b, c, d) + X[k] + T[i]) <<< s)`. -/
noncomputable def operation (x : ℕ → Word) (r : State) (n : ℕ) : State :=
  let a := target n
  Function.update r a (r (a + 1) +
    (r a + function n (r (a + 1)) (r (a + 2)) (r (a + 3)) + x (order.getD n 0) + t (n + 1)).rotateLeft (shift n))

noncomputable def operations (x : ℕ → Word) (r : State) : ℕ → State
  | 0 => r
  | n + 1 => operation x (operations x r n) n

noncomputable def compress (r : State) (block : Bytes) : State := r + operations (wordLE block) r 64

/-- MD5, as its definition has it. -/
noncomputable def digest (msg : Bytes) : Bytes :=
  wordsLE (List.ofFn (process compress State.initial (leBytes 8) msg))

end Md5

end Lib
