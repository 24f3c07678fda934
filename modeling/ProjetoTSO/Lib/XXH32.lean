import Mathlib.Data.UInt
import ProjetoTSO.Lib.ByteStream
import ProjetoTSO.Lib.Chunks

/-!
# XXH32

The non-cryptographic hash function XXH32.  The input is cut into stripes of 16 bytes; four
accumulators take a lane of 4 bytes of each stripe.  What is left is taken by words of 4
bytes, then byte by byte, and the result is mixed once more.  Everything is modulo `2 ^ 32`
and words are little-endian.

The definition says where in the input each lane, word and byte lies; how an implementation
walks over the input is its own affair.
-/

namespace XXH32

open ByteStream Chunks

def prime1 : UInt32 := 0x9E3779B1
def prime2 : UInt32 := 0x85EBCA77
def prime3 : UInt32 := 0xC2B2AE3D
def prime4 : UInt32 := 0x27D4EB2F
def prime5 : UInt32 := 0x165667B1

/-- Rotation to the left. -/
def rotl (x r : UInt32) : UInt32 := (x <<< r) ||| (x >>> (32 - r))

/-- The word at a position of the input. -/
def word (input : Bytes) (pos : ℕ) : UInt32 := UInt32.ofNat (leValue (slice input pos 4))

/-! ## The accumulators -/

def round (acc lane : UInt32) : UInt32 := rotl (acc + lane * prime2) 13 * prime1

/-- An accumulator after the first stripes, of each of which it takes the lane at `pos`. -/
def accumulate (input : Bytes) (pos : ℕ) (acc : UInt32) (stripes : ℕ) : UInt32 :=
  (List.range stripes).foldl (fun acc k => round acc (word input (16 * k + pos))) acc

/-- The four accumulators come together; a short input has none. -/
def converge (seed : UInt32) (input : Bytes) : UInt32 :=
  if 16 ≤ input.length then
    rotl (accumulate input 0 (seed + prime1 + prime2) (input.length / 16)) 1 +
      rotl (accumulate input 4 (seed + prime2) (input.length / 16)) 7 +
      rotl (accumulate input 8 seed (input.length / 16)) 12 +
      rotl (accumulate input 12 (seed - prime1) (input.length / 16)) 18
  else seed + prime5

/-! ## The rest -/

/-- The words from a position on. -/
def takeWords (input : Bytes) (pos : ℕ) (acc : UInt32) (count : ℕ) : UInt32 :=
  (List.range count).foldl
    (fun acc k => rotl (acc + word input (pos + 4 * k) * prime3) 17 * prime4) acc

/-- The bytes from a position on. -/
def takeBytes (input : Bytes) (pos : ℕ) (acc : UInt32) (count : ℕ) : UInt32 :=
  (List.range count).foldl
    (fun acc k => rotl (acc + (input.getD (pos + k) 0).toUInt32 * prime5) 11 * prime1) acc

/-- The final mix. -/
def avalanche (acc : UInt32) : UInt32 :=
  let acc := (acc ^^^ (acc >>> 15)) * prime2
  let acc := (acc ^^^ (acc >>> 13)) * prime3
  acc ^^^ (acc >>> 16)

def hash (seed : UInt32) (input : Bytes) : UInt32 :=
  let acc := converge seed input + UInt32.ofNat input.length
  let acc := takeWords input (16 * (input.length / 16)) acc (input.length % 16 / 4)
  let acc := takeBytes input (4 * (input.length / 4)) acc (input.length % 4)
  avalanche acc

/-! ## One step more -/

section Steps

variable {input : Bytes} {pos : ℕ} {acc : UInt32}

theorem takeWords_zero : takeWords input pos acc 0 = acc := rfl

theorem takeBytes_zero : takeBytes input pos acc 0 = acc := rfl

theorem accumulate_succ (stripes : ℕ) : accumulate input pos acc (stripes + 1) =
    round (accumulate input pos acc stripes) (word input (16 * stripes + pos)) := by
  simp [accumulate, List.range_succ]

theorem takeWords_succ (count : ℕ) : takeWords input pos acc (count + 1) =
    rotl (takeWords input pos acc count + word input (pos + 4 * count) * prime3) 17 * prime4 := by
  simp [takeWords, List.range_succ]

theorem takeBytes_succ (count : ℕ) : takeBytes input pos acc (count + 1) =
    rotl (takeBytes input pos acc count +
      (input.getD (pos + count) 0).toUInt32 * prime5) 11 * prime1 := by
  simp [takeBytes, List.range_succ]

end Steps

/-- The hash of nothing. -/
example : hash 0 [] = 0x02CC5D05 := by decide

/-- The hash of `abc`. -/
example : hash 0 [0x61, 0x62, 0x63] = 0x32D153FF := by decide

end XXH32
