/-
  CrossRef.Digest.Blake3

  The BLAKE3 hash of a row of bytes. The bytes are cut into chunks of 1024
  and these into blocks of 64; each chunk is compressed block by block, and
  the chunks are joined in a binary tree whose left part is always a full
  one. The digest is the first half of the root's output.
-/

namespace CrossRef.Digest.Blake3

/-! ## Compression -/

/-- The initial chaining value: the fractional parts of the square roots of
    the first eight primes. -/
def initial : Array UInt32 :=
  #[0x6A09E667, 0xBB67AE85, 0x3C6EF372, 0xA54FF53A,
    0x510E527F, 0x9B05688C, 0x1F83D9AB, 0x5BE0CD19]

/-- Where each word of the message goes between two rounds. -/
def permutation : List Nat := [2, 6, 3, 10, 7, 0, 4, 13, 1, 11, 12, 5, 9, 14, 15, 8]

/-- The word at an index; zero behind the end. -/
def word (ws : Array UInt32) (i : Nat) : UInt32 := ws[i]?.getD 0

def rotateRight (w : UInt32) (n : UInt32) : UInt32 := (w >>> n) ||| (w <<< (32 - n))

/-- Mixes two words of the message into four words of the state. -/
def mix (s : Array UInt32) (a b c d : Nat) (x y : UInt32) : Array UInt32 :=
  let va := word s a + word s b + x
  let vd := rotateRight (word s d ^^^ va) 16
  let vc := word s c + vd
  let vb := rotateRight (word s b ^^^ vc) 12
  let va := va + vb + y
  let vd := rotateRight (vd ^^^ va) 8
  let vc := vc + vd
  let vb := rotateRight (vb ^^^ vc) 7
  (((s.setIfInBounds a va).setIfInBounds b vb).setIfInBounds c vc).setIfInBounds d vd

/-- The state's columns and then its diagonals, as places in the state. -/
def quarters : List (Nat × Nat × Nat × Nat) :=
  [(0, 4, 8, 12), (1, 5, 9, 13), (2, 6, 10, 14), (3, 7, 11, 15),
   (0, 5, 10, 15), (1, 6, 11, 12), (2, 7, 8, 13), (3, 4, 9, 14)]

/-- One round: each quarter with its two words of the message. -/
def round (s m : Array UInt32) : Array UInt32 :=
  quarters.zipIdx.foldl
    (fun s ((a, b, c, d), i) => mix s a b c d (word m (2 * i)) (word m (2 * i + 1))) s

/-- A number of rounds with the message permuted between them. -/
def rounds : Nat → Array UInt32 → Array UInt32 → Array UInt32
  | 0, s, _ => s
  | n + 1, s, m => rounds n (round s m) (permutation.map (word m)).toArray

/-- What is left to compress: a chaining value, a block, the number of its
    chunk, the number of bytes in the block, and its flags. -/
structure Pending where
  chaining : Array UInt32
  block : Array UInt32
  counter : Nat
  length : Nat
  flags : UInt32

def chunkStart : UInt32 := 1
def chunkEnd : UInt32 := 2
def parentNode : UInt32 := 4
def rootNode : UInt32 := 8

/-- The first eight words of the compression's output, under further flags. -/
def Pending.compress (p : Pending) (further : UInt32) : Array UInt32 :=
  let start := p.chaining ++ initial.extract 0 4
    ++ #[p.counter.toUInt32, (p.counter / 4294967296).toUInt32, p.length.toUInt32,
         p.flags ||| further]
  let s := rounds 7 start p.block
  ((List.range 8).map fun i => word s i ^^^ word s (i + 8)).toArray

/-! ## Chunks -/

/-- A row cut into pieces of `n`, the last of which may be shorter. There is at
    least one piece. -/
def cut {α : Type} (n : Nat) (xs : List α) : List (List α) :=
  if _h : n = 0 ∨ xs.length ≤ n then [xs]
  else xs.take n :: cut n (xs.drop n)
termination_by xs.length
decreasing_by simp only [List.length_drop]; omega

/-- Four bytes as a word, the lowest first. -/
def littleEndian : List UInt8 → UInt32
  | [] => 0
  | b :: bs => b.toUInt32 ||| (littleEndian bs <<< 8)

/-- A block as sixteen words. What is missing at its end counts as zero. -/
def words (block : List UInt8) : Array UInt32 := ((cut 4 block).map littleEndian).toArray

/-- Compresses a chunk up to its last block. -/
def chunk (counter : Nat) (bytes : List UInt8) : Pending :=
  go initial chunkStart (cut 64 bytes)
where
  /-- The blocks of a chunk from some point on. -/
  go (chaining : Array UInt32) (flags : UInt32) : List (List UInt8) → Pending
    | [] => ⟨chaining, #[], counter, 0, flags ||| chunkEnd⟩
    | [block] => ⟨chaining, words block, counter, block.length, flags ||| chunkEnd⟩
    | block :: blocks =>
      go (Pending.compress ⟨chaining, words block, counter, block.length, flags⟩ 0) 0 blocks

/-! ## The tree -/

/-- The node over two finished parts. -/
def parent (left right : Pending) : Pending :=
  ⟨initial, left.compress 0 ++ right.compress 0, 0, 64, parentNode⟩

/-- The root over a row of chunks: the left part has the largest power of two
    of them that leaves some for the right. -/
def tree (default : Pending) (chunks : List Pending) : Pending :=
  match chunks with
  | [] => default
  | [c] => c
  | c :: d :: cs =>
    let n := Nat.pow 2 (cs.length + 1).log2
    parent (tree default ((c :: d :: cs).take n)) (tree default ((c :: d :: cs).drop n))
termination_by chunks.length
decreasing_by
  · have : Nat.pow 2 (cs.length + 1).log2 ≤ cs.length + 1 := Nat.log2_self_le (by omega)
    simp only [List.length_take, List.length_cons]; omega
  · have : 0 < Nat.pow 2 (cs.length + 1).log2 := Nat.two_pow_pos _
    simp only [List.length_drop, List.length_cons]; omega

/-! ## The digest -/

def hexDigit (n : Nat) : Char := if n < 10 then Char.ofNat (48 + n) else Char.ofNat (87 + n)

/-- A byte as two digits. -/
def hexByte (b : UInt8) : List Char := [hexDigit (b.toNat / 16), hexDigit (b.toNat % 16)]

/-- The bytes of a word, the lowest first. -/
def wordBytes (w : UInt32) : List UInt8 :=
  [w.toUInt8, (w >>> 8).toUInt8, (w >>> 16).toUInt8, (w >>> 24).toUInt8]

/-- The digest of a row of bytes, as 64 hexadecimal digits. -/
def hex (bytes : List UInt8) : String :=
  let chunks := (cut 1024 bytes).zipIdx.map fun (c, i) => chunk i c
  let digest := (tree (chunk 0 []) chunks).compress rootNode
  String.ofList ((digest.toList.flatMap wordBytes).flatMap hexByte)

end CrossRef.Digest.Blake3
