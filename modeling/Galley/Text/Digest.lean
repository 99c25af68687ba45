import Galley.Text.Quoted
/-!
# SHA-1

The digest that names a frame, over the UTF-8 bytes of a text.
-/

namespace Galley.Digest

/-- The five words that the blocks are folded into. -/
structure Words where
  a : UInt32
  b : UInt32
  c : UInt32
  d : UInt32
  e : UInt32

def start : Words := ⟨0x67452301, 0xEFCDAB89, 0x98BADCFE, 0x10325476, 0xC3D2E1F0⟩

def rotate (n x : UInt32) : UInt32 := (x <<< n) ||| (x >>> (32 - n))

/-- The mixing function and constant of a round. -/
def mix (round : Nat) (w : Words) : UInt32 × UInt32 :=
  if round < 20 then ((w.b &&& w.c) ||| (~~~w.b &&& w.d), 0x5A827999)
  else if round < 40 then (w.b ^^^ w.c ^^^ w.d, 0x6ED9EBA1)
  else if round < 60 then ((w.b &&& w.c) ||| (w.b &&& w.d) ||| (w.c &&& w.d), 0x8F1BBCDC)
  else (w.b ^^^ w.c ^^^ w.d, 0xCA62C1D6)

def step (round : Nat) (w : Words) (word : UInt32) : Words :=
  let (f, k) := mix round w
  ⟨rotate 5 w.a + f + w.e + k + word, w.a, rotate 30 w.b, w.c, w.d⟩

/-- Adds `n` words to a schedule whose last word comes first. -/
def schedule : (n : Nat) → List UInt32 → List UInt32
  | 0, ws => ws
  | n + 1, ws =>
    schedule n (rotate 1 (ws.getD 2 0 ^^^ ws.getD 7 0 ^^^ ws.getD 13 0 ^^^ ws.getD 15 0) :: ws)

/-- Takes in a block of sixteen words. -/
def block (w : Words) (words : List UInt32) : Words :=
  let rounds := (schedule 64 words.reverse).reverse
  let r := (rounds.foldl (fun (i, r) word => (i + 1, step i r word)) (0, w)).2
  ⟨w.a + r.a, w.b + r.b, w.c + r.c, w.d + r.d, w.e + r.e⟩

/-- The bytes with a one bit, zeros and the number of bits behind them, a multiple of 64 in all. -/
def pad (bytes : List UInt8) : List UInt8 :=
  let bits := 8 * bytes.length
  bytes ++ [0x80] ++ List.replicate ((119 - bytes.length % 64) % 64) 0 ++
    (List.range 8).map fun i => UInt8.ofNat (bits / Nat.pow 256 (7 - i))

/-- Four bytes as one number, the first byte highest. -/
def words : List UInt8 → List UInt32
  | p :: q :: r :: s :: more =>
    ((p.toUInt32 <<< 24) ||| (q.toUInt32 <<< 16) ||| (r.toUInt32 <<< 8) ||| s.toUInt32) :: words more
  | _ => []

def blocks : (n : Nat) → List UInt32 → Words → Words
  | 0, _, w => w
  | n + 1, ws, w => blocks n (ws.drop 16) (block w (ws.take 16))

/-- The digest of a text in forty hexadecimal digits. -/
def sha1 (s : Text) : Text :=
  let ws := words (pad (s.flatMap String.utf8EncodeChar))
  let w := blocks (ws.length / 16) ws start
  [w.a, w.b, w.c, w.d, w.e].flatMap fun x => Quoted.hex 8 x.toNat

end Galley.Digest
