import AccessWidening.Bytes

/-!
The BLAKE3 hash function, without key, with its default output of 32 bytes.

Input is cut into chunks of 1024 bytes, and chunks into blocks of 64. The chunks are the leaves of a
binary tree whose left subtrees are complete and as large as they can be. Every block and every
inner node is one call of the compression function, and only the last call, at the root, gives
output.
-/

namespace AccessWidening.Blake3

/-- Eight words that stand for everything hashed below a node. -/
abbrev ChainingValue := Vector UInt32 8

/-- Sixteen words: a message block, or the inner state of a compression. -/
abbrev Block := Vector UInt32 16

def initial : ChainingValue :=
  #v[0x6A09E667, 0xBB67AE85, 0x3C6EF372, 0xA54FF53A, 0x510E527F, 0x9B05688C, 0x1F83D9AB, 0x5BE0CD19]

/-- The order in which a round takes the words of the round before. -/
def schedule : Vector (Fin 16) 16 := #v[2, 6, 3, 10, 7, 0, 4, 13, 1, 11, 12, 5, 9, 14, 15, 8]

/-- Rotates a word to the right, by more than 0 and less than 32 bits. -/
def rotate (w : UInt32) (count : UInt32) : UInt32 := (w >>> count) ||| (w <<< (32 - count))

def mix (state : Block) (a b c d : Fin 16) (x y : UInt32) : Block :=
  let va := state[a] + state[b] + x
  let vd := rotate (state[d] ^^^ va) 16
  let vc := state[c] + vd
  let vb := rotate (state[b] ^^^ vc) 12
  let va := va + vb + y
  let vd := rotate (vd ^^^ va) 8
  let vc := vc + vd
  let vb := rotate (vb ^^^ vc) 7
  (((state.set a va).set b vb).set c vc).set d vd

/-- One round: mixes all message words, first down the columns of the state, then along its
diagonals. -/
def round (state message : Block) : Block :=
  let state := mix state 0 4 8 12 message[0] message[1]
  let state := mix state 1 5 9 13 message[2] message[3]
  let state := mix state 2 6 10 14 message[4] message[5]
  let state := mix state 3 7 11 15 message[6] message[7]
  let state := mix state 0 5 10 15 message[8] message[9]
  let state := mix state 1 6 11 12 message[10] message[11]
  let state := mix state 2 7 8 13 message[12] message[13]
  mix state 3 4 9 14 message[14] message[15]

def rounds : Nat → Block → Block → Block
  | 0, state, _ => state
  | n + 1, state, message => rounds n (round state message) (schedule.map fun i => message[i])

/-- What a call of the compression function is told about its place in the tree. -/
structure Role where
  chunkStart : Bool
  chunkEnd : Bool
  parent : Bool

def Role.flags (role : Role) (root : Bool) : UInt32 :=
  (if role.chunkStart then 1 else 0) ||| (if role.chunkEnd then 2 else 0) |||
    (if role.parent then 4 else 0) ||| (if root then 8 else 0)

/-- A call of the compression function that was not made yet, because it may turn out to be the
last. -/
structure Node where
  chaining : ChainingValue
  message : Block
  counter : UInt64
  size : UInt32
  role : Role

/-- Makes a call of the compression function, keeping the first half of its output. -/
def Node.compress (node : Node) (root : Bool) : ChainingValue :=
  let start : Block := node.chaining ++
    #v[initial[0], initial[1], initial[2], initial[3],
      node.counter.toUInt32, (node.counter >>> 32).toUInt32, node.size, node.role.flags root]
  let final := rounds 7 start node.message
  Vector.ofFn fun (i : Fin 8) => final[i.val] ^^^ final[i.val + 8]

/-- The words of a block; a short block is filled up with zeros. -/
def blockOfBytes (bytes : Bytes) : Block :=
  Vector.ofFn fun (i : Fin 16) => UInt32.ofNat (Bytes.toNat ((bytes.drop (4 * i.val)).take 4))

/-- The last call of a chunk, after the calls for all blocks but the last. -/
def chunkNode (chaining : ChainingValue) (counter : UInt64) (chunkStart : Bool) (bytes : Bytes) :
    Node :=
  let node : Node :=
    { chaining, counter
      message := blockOfBytes (bytes.take 64)
      size := UInt32.ofNat (bytes.take 64).length
      role := ⟨chunkStart, bytes.length ≤ 64, false⟩ }
  if bytes.length ≤ 64 then node
  else chunkNode (node.compress false) counter false (bytes.drop 64)
termination_by bytes.length
decreasing_by rw [List.length_drop]; omega

def parentNode (left right : ChainingValue) : Node :=
  { chaining := initial
    message := left ++ right
    counter := 0
    size := 64
    role := ⟨false, false, true⟩ }

/-- The bytes in the left subtree of a tree over more than one chunk: the largest power of two of
chunks that leaves something for the right. -/
def leftSize (size : Nat) : Nat := 1024 <<< Nat.log2 ((size - 1) / 1024)

theorem leftSize_pos (size : Nat) : 0 < leftSize size := by
  rw [leftSize, Nat.shiftLeft_eq]
  exact Nat.mul_pos (by decide) (Nat.pow_pos (by decide))

theorem leftSize_lt {size : Nat} (h : 1024 < size) : leftSize size < size := by
  have nonzero : (size - 1) / 1024 ≠ 0 := by omega
  have := Nat.log2_self_le nonzero
  rw [leftSize, Nat.shiftLeft_eq]
  omega

/-- The last call of a subtree whose first chunk has the given number. -/
def treeNode (counter : Nat) (bytes : Bytes) : Node :=
  if h : bytes.length ≤ 1024 then chunkNode initial (UInt64.ofNat counter) true bytes
  else
    let left := leftSize bytes.length
    have : left < bytes.length := leftSize_lt (by omega)
    have : 0 < left := leftSize_pos bytes.length
    parentNode ((treeNode counter (bytes.take left)).compress false)
      ((treeNode (counter + left / 1024) (bytes.drop left)).compress false)
termination_by bytes.length
decreasing_by
  · rw [List.length_take]; omega
  · rw [List.length_drop]; omega

def hash (bytes : Bytes) : Bytes :=
  ((treeNode 0 bytes).compress true).toList.flatMap fun word => Bytes.littleEndian 4 word.toNat

@[simp]
theorem length_hash (bytes : Bytes) : (hash bytes).length = 32 := by
  simp [hash, List.length_flatMap, List.map_const']

end AccessWidening.Blake3
