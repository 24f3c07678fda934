import ProjetoTSO.Lib.XXH32

/-!
# The hash of the traced buffers (`hash.h`)

`xxhash32` as it runs in the kernel: it may only look at the buffer through
`bpf_probe_read`, and the verifier wants every loop to end after a number of iterations it can
see, so that each carries a counter `j` with a bound of its own.

`xxhash32_eq` says that these bounds are never what ends a loop: on a buffer of at most
`MAX_BUF_SIZE` bytes the result is XXH32, and every byte of the buffer is read once, in order.

## Design notes

* `Probe` is a computation that reads a buffer; its state are the positions read so far.
  A read outside the buffer fails.
* `data` is a position in the buffer.  An `int` is unbounded: none of them leaves the range
  of 4096.
-/

namespace ProjetoTSO.Systracer

open ByteStream Chunks

/-! ## The program -/

def MAX_BUF_SIZE : ℕ := 4096

def prime32x1 : UInt32 := 2654435761
def prime32x2 : UInt32 := 2246822519
def prime32x3 : UInt32 := 3266489917
def prime32x4 : UInt32 := 668265263
def prime32x5 : UInt32 := 374761393

def rotl32_1 (x : UInt32) : UInt32 := (x <<< 1) ||| (x >>> (32 - 1))
def rotl32_7 (x : UInt32) : UInt32 := (x <<< 7) ||| (x >>> (32 - 7))
def rotl32_11 (x : UInt32) : UInt32 := (x <<< 11) ||| (x >>> (32 - 11))
def rotl32_12 (x : UInt32) : UInt32 := (x <<< 12) ||| (x >>> (32 - 12))
def rotl32_13 (x : UInt32) : UInt32 := (x <<< 13) ||| (x >>> (32 - 13))
def rotl32_17 (x : UInt32) : UInt32 := (x <<< 17) ||| (x >>> (32 - 17))
def rotl32_18 (x : UInt32) : UInt32 := (x <<< 18) ||| (x >>> (32 - 18))

abbrev Probe := StateT (List ℕ) Option

/-- `size` bytes from `data` on. -/
def bpf_probe_read (buf : Bytes) (size data : ℕ) : Probe Bytes := fun positions =>
  if data + size ≤ buf.length then
    some (slice buf data size, positions ++ List.range' data size)
  else none

/-- `bpf_probe_read(&k, sizeof(k), data)`. -/
def probe_word (buf : Bytes) (data : ℕ) : Probe UInt32 := do
  let k ← bpf_probe_read buf 4 data
  pure (UInt32.ofNat (leValue k))

/-- The accumulators. -/
structure Lanes where
  v1 : UInt32
  v2 : UInt32
  v3 : UInt32
  v4 : UInt32

/-- The body of the loop over the stripes. -/
def stripe (buf : Bytes) (data : ℕ) (v : Lanes) : Probe Lanes := do
  let k ← probe_word buf data
  let v1 := v.v1 + k * prime32x2
  let v1 := rotl32_13 v1 * prime32x1
  let k ← probe_word buf (data + 4)
  let v2 := v.v2 + k * prime32x2
  let v2 := rotl32_13 v2 * prime32x1
  let k ← probe_word buf (data + 8)
  let v3 := v.v3 + k * prime32x2
  let v3 := rotl32_13 v3 * prime32x1
  let k ← probe_word buf (data + 12)
  let v4 := v.v4 + k * prime32x2
  let v4 := rotl32_13 v4 * prime32x1
  pure ⟨v1, v2, v3, v4⟩

def stripe_loop (buf : Bytes) (len i : ℤ) (j data : ℕ) (v : Lanes) : Probe (ℤ × ℕ × Lanes) :=
  if i ≤ len - 16 ∧ j < MAX_BUF_SIZE / 16 then do
    let v ← stripe buf data v
    stripe_loop buf len (i + 16) (j + 1) (data + 16) v
  else pure (i, data, v)
termination_by MAX_BUF_SIZE / 16 - j

def word_loop (buf : Bytes) (len i : ℤ) (j data : ℕ) (h : UInt32) : Probe (ℤ × ℕ × UInt32) :=
  if i ≤ len - 4 ∧ j < 16 then do
    let k ← probe_word buf data
    let h := h + k * prime32x3
    let h := rotl32_17 h * prime32x4
    word_loop buf len (i + 4) (j + 1) (data + 4) h
  else pure (i, data, h)
termination_by 16 - j

def byte_loop (buf : Bytes) (len i : ℤ) (j data : ℕ) (h : UInt32) : Probe (ℤ × ℕ × UInt32) :=
  if i < len ∧ j < 4 then do
    let val ← bpf_probe_read buf 1 data
    let h := h + (val.getD 0 0).toUInt32 * prime32x5
    let h := rotl32_11 h * prime32x1
    byte_loop buf len (i + 1) (j + 1) (data + 1) h
  else pure (i, data, h)
termination_by 4 - j

/-- The two branches on the length: where in the buffer they stop, and the hash so far. -/
def stripes (buf : Bytes) (len : ℤ) (seed : UInt32) : Probe (ℤ × ℕ × UInt32) :=
  if 16 ≤ len then do
    let v1 := seed + prime32x1 + prime32x2
    let v2 := seed + prime32x2
    let v3 := seed + 0
    let v4 := seed - prime32x1
    let (i, data, v) ← stripe_loop buf len 0 0 0 ⟨v1, v2, v3, v4⟩
    pure (i, data, rotl32_1 v.v1 + rotl32_7 v.v2 + rotl32_12 v.v3 + rotl32_18 v.v4)
  else pure (0, 0, seed + prime32x5)

def xxhash32 (buf : Bytes) (len : ℤ) (seed : UInt32) : Probe UInt32 :=
  if MAX_BUF_SIZE < len then pure 0
  else do
    let (i, data, h) ← stripes buf len seed
    let h := h + UInt32.ofInt len
    let (i, data, h) ← word_loop buf len i 0 data h
    let (_, _, h) ← byte_loop buf len i 0 data h
    let h := h ^^^ (h >>> 15)
    let h := h * prime32x2
    let h := h ^^^ (h >>> 13)
    let h := h * prime32x3
    let h := h ^^^ (h >>> 16)
    pure h

/-! ## Reading -/

theorem range_append_range' (start count : ℕ) :
    List.range start ++ List.range' start count = List.range (start + count) := by
  rw [List.range_eq_range', List.range_eq_range', ← List.range'_append_1, Nat.zero_add]

section Reads

variable {buf : Bytes} {data : ℕ} {h : UInt32}

/-- A read inside the buffer, everything before it having been read. -/
theorem bpf_probe_read_run {size : ℕ} (inside : data + size ≤ buf.length) :
    (bpf_probe_read buf size data).run (List.range data) =
      some (slice buf data size, List.range (data + size)) := by
  show (if data + size ≤ buf.length then _ else _) = _
  rw [if_pos inside, range_append_range']

theorem probe_word_run (inside : data + 4 ≤ buf.length) :
    (probe_word buf data).run (List.range data) =
      some (XXH32.word buf data, List.range (data + 4)) := by
  rw [probe_word, StateT.run_bind, bpf_probe_read_run inside]
  rfl

end Reads

/-! ## The stripes -/

section Stripes

variable {buf : Bytes} {data : ℕ}

/-- One stripe takes one lane for each accumulator. -/
theorem stripe_run (v : Lanes) (inside : data + 16 ≤ buf.length) :
    (stripe buf data v).run (List.range data) =
      some (⟨XXH32.round v.v1 (XXH32.word buf data), XXH32.round v.v2 (XXH32.word buf (data + 4)),
        XXH32.round v.v3 (XXH32.word buf (data + 8)),
        XXH32.round v.v4 (XXH32.word buf (data + 12))⟩, List.range (data + 16)) := by
  have first := @probe_word_run buf data (by omega)
  have second := @probe_word_run buf (data + 4) (by omega)
  have third := @probe_word_run buf (data + 8) (by omega)
  have fourth := @probe_word_run buf (data + 12) (by omega)
  simp only [stripe, StateT.run_bind, first, second, third, fourth, Option.bind_eq_bind,
    Option.bind_some]
  rfl

/-- The accumulators after some stripes. -/
def lanesAt (buf : Bytes) (v : Lanes) (stripes : ℕ) : Lanes where
  v1 := XXH32.accumulate buf 0 v.v1 stripes
  v2 := XXH32.accumulate buf 4 v.v2 stripes
  v3 := XXH32.accumulate buf 8 v.v3 stripes
  v4 := XXH32.accumulate buf 12 v.v4 stripes

theorem lanesAt_zero (v : Lanes) : lanesAt buf v 0 = v := rfl

theorem lanesAt_succ (v : Lanes) (stripes : ℕ) : lanesAt buf v (stripes + 1) =
    ⟨XXH32.round (lanesAt buf v stripes).v1 (XXH32.word buf (16 * stripes)),
      XXH32.round (lanesAt buf v stripes).v2 (XXH32.word buf (16 * stripes + 4)),
      XXH32.round (lanesAt buf v stripes).v3 (XXH32.word buf (16 * stripes + 8)),
      XXH32.round (lanesAt buf v stripes).v4 (XXH32.word buf (16 * stripes + 12))⟩ := by
  simp only [lanesAt, XXH32.accumulate_succ, Nat.add_zero]

/-- **The first loop** goes on to the last whole stripe: 256 iterations are enough. -/
theorem stripe_loop_run (bounded : buf.length ≤ MAX_BUF_SIZE) (v : Lanes) {left done : ℕ}
    (stripes : done + left = buf.length / 16) :
    (stripe_loop buf buf.length ((16 * done : ℕ) : ℤ) done (16 * done) (lanesAt buf v done)).run
        (List.range (16 * done)) =
      some ((((16 * (buf.length / 16) : ℕ) : ℤ), 16 * (buf.length / 16),
        lanesAt buf v (buf.length / 16)), List.range (16 * (buf.length / 16))) := by
  have limit : MAX_BUF_SIZE = 4096 := rfl
  induction left generalizing done with
  | zero =>
      obtain rfl : done = buf.length / 16 := stripes
      have ended : ¬ (((16 * (buf.length / 16) : ℕ) : ℤ) ≤ (buf.length : ℤ) - 16 ∧
          buf.length / 16 < MAX_BUF_SIZE / 16) := by omega
      rw [stripe_loop, if_neg ended]
      rfl
  | succ left ih =>
      have more : ((16 * done : ℕ) : ℤ) ≤ (buf.length : ℤ) - 16 ∧ done < MAX_BUF_SIZE / 16 := by
        omega
      have next : ((16 * done : ℕ) : ℤ) + 16 = ((16 * (done + 1) : ℕ) : ℤ) := by
        push_cast
        ring
      have one := @stripe_run buf (16 * done) (lanesAt buf v done) (by omega)
      rw [stripe_loop, if_pos more, StateT.run_bind, one, next]
      have rest := @ih (done + 1) (by omega)
      rw [lanesAt_succ] at rest
      exact rest

end Stripes

/-! ## The rest -/

section Rest

variable {buf : Bytes} {pos : ℕ} {h : UInt32}

/-- **The second loop** takes the words that are left, at most three. -/
theorem word_loop_run (few : buf.length < pos + 16) {left done : ℕ}
    (words : pos + 4 * (done + left) ≤ buf.length ∧ buf.length < pos + 4 * (done + left) + 4) :
    (word_loop buf buf.length ((pos + 4 * done : ℕ) : ℤ) done (pos + 4 * done)
        (XXH32.takeWords buf pos h done)).run (List.range (pos + 4 * done)) =
      some ((((pos + 4 * (done + left) : ℕ) : ℤ), pos + 4 * (done + left),
        XXH32.takeWords buf pos h (done + left)), List.range (pos + 4 * (done + left))) := by
  induction left generalizing done with
  | zero =>
      have ended : ¬ (((pos + 4 * done : ℕ) : ℤ) ≤ (buf.length : ℤ) - 4 ∧ done < 16) := by omega
      rw [word_loop, if_neg ended]
      rfl
  | succ left ih =>
      have more : ((pos + 4 * done : ℕ) : ℤ) ≤ (buf.length : ℤ) - 4 ∧ done < 16 := by omega
      have next : ((pos + 4 * done : ℕ) : ℤ) + 4 = ((pos + 4 * (done + 1) : ℕ) : ℤ) := by
        push_cast
        ring
      have one := @probe_word_run buf (pos + 4 * done) (by omega)
      have rest := @ih (done + 1) (by omega)
      have count : done + 1 + left = done + (left + 1) := by omega
      rw [XXH32.takeWords_succ, count] at rest
      rw [word_loop, if_pos more, StateT.run_bind, one, next]
      exact rest

/-- **The third loop** takes the bytes that are left, at most three. -/
theorem byte_loop_run {left done : ℕ} (few : done + left < 4)
    (bytes : pos + (done + left) = buf.length) :
    (byte_loop buf buf.length ((pos + done : ℕ) : ℤ) done (pos + done)
        (XXH32.takeBytes buf pos h done)).run (List.range (pos + done)) =
      some ((((pos + (done + left) : ℕ) : ℤ), pos + (done + left),
        XXH32.takeBytes buf pos h (done + left)), List.range (pos + (done + left))) := by
  induction left generalizing done with
  | zero =>
      have ended : ¬ (((pos + done : ℕ) : ℤ) < (buf.length : ℤ) ∧ done < 4) := by omega
      rw [byte_loop, if_neg ended]
      rfl
  | succ left ih =>
      have more : ((pos + done : ℕ) : ℤ) < (buf.length : ℤ) ∧ done < 4 := by omega
      have next : ((pos + done : ℕ) : ℤ) + 1 = ((pos + (done + 1) : ℕ) : ℤ) := by
        push_cast
        ring
      have one := @bpf_probe_read_run buf (pos + done) 1 (by omega)
      have val : (slice buf (pos + done) 1).getD 0 0 = buf.getD (pos + done) 0 := by
        simp [slice]
      have rest := @ih (done + 1) (by omega) (by omega)
      have count : done + 1 + left = done + (left + 1) := by omega
      rw [XXH32.takeBytes_succ, count] at rest
      rw [byte_loop, if_pos more, StateT.run_bind, one, next]
      simp only [Option.bind_eq_bind, Option.bind_some, val]
      exact rest

end Rest

/-! ## The hash -/

/-- The accumulators come together, every whole stripe having been read. -/
theorem stripes_run (buf : Bytes) (bounded : buf.length ≤ MAX_BUF_SIZE) (seed : UInt32) :
    (stripes buf buf.length seed).run [] =
      some ((((16 * (buf.length / 16) : ℕ) : ℤ), 16 * (buf.length / 16), XXH32.converge seed buf),
        List.range (16 * (buf.length / 16))) := by
  have zero : seed + 0 = seed := UInt32.add_zero seed
  by_cases long : 16 ≤ buf.length
  · have taken : 16 ≤ (buf.length : ℤ) := by exact_mod_cast long
    have looped := @stripe_loop_run buf bounded
      ⟨seed + prime32x1 + prime32x2, seed + prime32x2, seed + 0, seed - prime32x1⟩
      (buf.length / 16) 0 (Nat.zero_add _)
    rw [Nat.mul_zero, lanesAt_zero] at looped
    have start : (stripe_loop buf buf.length 0 0 0
        ⟨seed + prime32x1 + prime32x2, seed + prime32x2, seed + 0, seed - prime32x1⟩).run [] = _ :=
      looped
    rw [stripes, if_pos taken, StateT.run_bind, start, XXH32.converge, if_pos long]
    simp only [Option.bind_eq_bind, Option.bind_some, lanesAt, zero]
    rfl
  · have skipped : ¬ 16 ≤ (buf.length : ℤ) := by exact_mod_cast long
    have none_ : buf.length / 16 = 0 := by omega
    rw [stripes, if_neg skipped, XXH32.converge, if_neg long, none_]
    rfl

/-- **`xxhash32` is XXH32** on every buffer that it does not refuse, and reads every byte of it
once, from the first to the last. -/
theorem xxhash32_eq (buf : Bytes) (bounded : buf.length ≤ MAX_BUF_SIZE) (seed : UInt32) :
    (xxhash32 buf buf.length seed).run [] = some (XXH32.hash seed buf, List.range buf.length) := by
  have accepted : ¬ (MAX_BUF_SIZE : ℤ) < (buf.length : ℤ) := by exact_mod_cast not_lt.mpr bounded
  have converged := stripes_run buf bounded seed
  have length : UInt32.ofInt (buf.length : ℤ) = UInt32.ofNat buf.length := by
    have small : ((buf.length : ℤ) % 2 ^ 32).toNat = buf.length % 2 ^ 32 := by omega
    rw [UInt32.ofInt, small, UInt32.ofNat_mod_size]
  have words := @word_loop_run buf (16 * (buf.length / 16))
    (XXH32.converge seed buf + UInt32.ofNat buf.length) (by omega) (buf.length % 16 / 4) 0 (by omega)
  have bytes := @byte_loop_run buf (4 * (buf.length / 4))
    (XXH32.takeWords buf (16 * (buf.length / 16))
      (XXH32.converge seed buf + UInt32.ofNat buf.length) (buf.length % 16 / 4))
    (buf.length % 4) 0 (by omega) (by omega)
  have reached : 16 * (buf.length / 16) + 4 * (0 + buf.length % 16 / 4) = 4 * (buf.length / 4) := by
    omega
  have all : 4 * (buf.length / 4) + (0 + buf.length % 4) = buf.length := by omega
  rw [reached, Nat.zero_add, Nat.mul_zero, Nat.add_zero, XXH32.takeWords_zero] at words
  rw [all, Nat.zero_add, Nat.add_zero, XXH32.takeBytes_zero] at bytes
  rw [xxhash32, if_neg accepted, StateT.run_bind, converged]
  simp only [Option.bind_eq_bind, Option.bind_some, length]
  rw [StateT.run_bind, words]
  simp only [Option.bind_eq_bind, Option.bind_some]
  rw [StateT.run_bind, bytes]
  rfl

theorem xxhash32_eq_abc :
    (xxhash32 [0x61, 0x62, 0x63] 3 0).run [] = some (XXH32.hash 0 [0x61, 0x62, 0x63], [0, 1, 2]) :=
  xxhash32_eq [0x61, 0x62, 0x63] (by decide) 0

end ProjetoTSO.Systracer
