/-!
# The BLAKE3 hash

The input is cut into chunks of 1024 bytes and each chunk into blocks of 64 bytes. The blocks of a
chunk are compressed one after the other, the chunks are joined in a binary tree whose left
subtrees are full, and the compression at the root gives the digest of 32 bytes.
-/

namespace PolicyLogic.Digest

/-- The initial chaining value. -/
def initialWords : Array UInt32 :=
  #[0x6a09e667, 0xbb67ae85, 0x3c6ef372, 0xa54ff53a, 0x510e527f, 0x9b05688c, 0x1f83d9ab, 0x5be0cd19]

/-- Where the message words move between two rounds. -/
def messageOrder : List Nat := [2, 6, 3, 10, 7, 0, 4, 13, 1, 11, 12, 5, 9, 14, 15, 8]

/-- The flag of the first block of a chunk. -/
def chunkStart : UInt32 := 1

/-- The flag of the last block of a chunk. -/
def chunkEnd : UInt32 := 2

/-- The flag of a node that joins two subtrees. -/
def parentNode : UInt32 := 4

/-- The flag of the last compression. -/
def rootNode : UInt32 := 8

/-- A word rotated to the right. -/
def rotateRight (w : UInt32) (n : UInt32) : UInt32 := (w >>> n) ||| (w <<< (32 - n))

/-- Mixes two message words into a column or a diagonal of the state. -/
def mix (s : Array UInt32) (a b c d : Nat) (x y : UInt32) : Array UInt32 :=
  let va := s.getD a 0 + s.getD b 0 + x
  let vd := rotateRight (s.getD d 0 ^^^ va) 16
  let vc := s.getD c 0 + vd
  let vb := rotateRight (s.getD b 0 ^^^ vc) 12
  let va := va + vb + y
  let vd := rotateRight (vd ^^^ va) 8
  let vc := vc + vd
  let vb := rotateRight (vb ^^^ vc) 7
  (((s.setIfInBounds a va).setIfInBounds b vb).setIfInBounds c vc).setIfInBounds d vd

/-- One round: the four columns, then the four diagonals. -/
def mixRound (s m : Array UInt32) : Array UInt32 :=
  let w (i : Nat) : UInt32 := m.getD i 0
  let s := mix s 0 4 8 12 (w 0) (w 1)
  let s := mix s 1 5 9 13 (w 2) (w 3)
  let s := mix s 2 6 10 14 (w 4) (w 5)
  let s := mix s 3 7 11 15 (w 6) (w 7)
  let s := mix s 0 5 10 15 (w 8) (w 9)
  let s := mix s 1 6 11 12 (w 10) (w 11)
  let s := mix s 2 7 8 13 (w 12) (w 13)
  mix s 3 4 9 14 (w 14) (w 15)

/-- The message words in the order of the next round. -/
def reorder (m : Array UInt32) : Array UInt32 :=
  (messageOrder.map fun i => m.getD i 0).toArray

/-- Some rounds, with the message words reordered after each. -/
def mixRounds : Nat → Array UInt32 → Array UInt32 → Array UInt32
  | 0, s, _ => s
  | n + 1, s, m => mixRounds n (mixRound s m) (reorder m)

/-- What is compressed at one node: a chaining value, a block of sixteen words and its length, the
number of the chunk, and flags. -/
structure Node where
  chain : Array UInt32
  block : Array UInt32
  counter : Nat
  length : Nat
  flags : UInt32

/-- The chaining value that a node hands on, which for the root is the digest. -/
def Node.compress (node : Node) (extra : UInt32) : Array UInt32 :=
  let tail : Array UInt32 :=
    #[UInt32.ofNat node.counter, UInt32.ofNat (node.counter / Nat.pow 2 32), UInt32.ofNat node.length,
      node.flags ||| extra]
  let s := mixRounds 7 (node.chain ++ initialWords.take 4 ++ tail) node.block
  ((List.range 8).map fun i => s.getD i 0 ^^^ s.getD (i + 8) 0).toArray

/-- Four bytes as a word, the lowest first. -/
def wordOf (bytes : List UInt8) : UInt32 :=
  bytes.foldr (fun byte word => byte.toUInt32 ||| (word <<< 8)) 0

/-- A list in pieces of a given size; the last may be shorter. The first argument bounds their
number. -/
def pieces (size : Nat) : Nat → List UInt8 → List (List UInt8)
  | _, [] => []
  | 0, _ => []
  | n + 1, bytes => bytes.take size :: pieces size n (bytes.drop size)

/-- The sixteen words of a block, with zeros after its end. -/
def blockWords (bytes : List UInt8) : Array UInt32 :=
  let padded := bytes ++ List.replicate (64 - bytes.length) 0
  ((pieces 4 16 padded).map wordOf).toArray

/-- The node of the last block of a chunk, after compressing the blocks before it. -/
def blocksNode (counter : Nat) (start : UInt32) : Array UInt32 → List (List UInt8) → Node
  | chain, [] => ⟨chain, blockWords [], counter, 0, start ||| chunkEnd⟩
  | chain, [block] => ⟨chain, blockWords block, counter, block.length, start ||| chunkEnd⟩
  | chain, block :: blocks =>
    let node : Node := ⟨chain, blockWords block, counter, block.length, start⟩
    blocksNode counter 0 (node.compress 0) blocks

/-- The node of a chunk. -/
def chunkNode (counter : Nat) (bytes : List UInt8) : Node :=
  blocksNode counter chunkStart initialWords (pieces 64 16 bytes)

/-- The number of leaves on the left: the largest power of two below the number of all leaves. -/
def leftCount (count : Nat) : Nat := Nat.pow 2 (count - 1).log2

/-- The node that joins the leaves of a tree. The first argument bounds the height. -/
def joinNodes : Nat → List Node → Node
  | _, [] => chunkNode 0 []
  | _, [leaf] => leaf
  | 0, leaf :: _ => leaf
  | n + 1, leaves =>
    let left := joinNodes n (leaves.take (leftCount leaves.length))
    let right := joinNodes n (leaves.drop (leftCount leaves.length))
    ⟨initialWords, left.compress 0 ++ right.compress 0, 0, 64, parentNode⟩

/-- The words of the digest of a list of bytes. -/
def blake3Words (bytes : List UInt8) : Array UInt32 :=
  let chunks := pieces 1024 (bytes.length / 1024 + 1) bytes
  let leaves := chunks.zipIdx.map fun (chunk, counter) => chunkNode counter chunk
  (joinNodes leaves.length leaves).compress rootNode

/-- The low eight bits of a number in hexadecimal. -/
def hexByte (n : Nat) : List Char :=
  [Nat.digitChar (n / 16 % 16), Nat.digitChar (n % 16)]

/-- A word in hexadecimal, byte by byte from the lowest. -/
def hexWord (w : UInt32) : List Char :=
  (List.range 4).flatMap fun i => hexByte (w.toNat / Nat.pow 256 i)

/-- The digest of a list of bytes in hexadecimal. -/
def blake3 (bytes : List UInt8) : String :=
  String.ofList ((blake3Words bytes).toList.flatMap hexWord)

end PolicyLogic.Digest
