import Mathlib.Tactic.Common

/-!
# RESP2 frames and their encoding

`SharedFrame` of `radixox-lib` with its encoder. A `SharedByte` is its bytes, a `String` its UTF-8
bytes. The digit buffer of `write_usize` has twenty places; a number that needs more is
the panic of an index below 0.
-/

namespace Radixox.Server
set_option autoImplicit false

abbrev SharedByte := List UInt8

inductive SharedFrame where
  /-- A RESP2 simple string. -/
  | simpleString (s : SharedByte)
  /-- A short string representing an error. -/
  | error (s : SharedByte)
  /-- A signed 64-bit integer. -/
  | integer (i : Int64)
  /-- A byte array. -/
  | bulkString (b : SharedByte)
  | array (frames : List SharedFrame)
  | null

/-- The loop of `write_usize`: `places` are left before the digits `buf`. -/
def digitLoop : Nat → Nat → SharedByte → Option SharedByte
  | _, 0, buf => some buf
  | 0, _ + 1, _ => none
  | places + 1, n + 1, buf => digitLoop places ((n + 1) / 10) (UInt8.ofNat (48 + (n + 1) % 10) :: buf)

def writeUsize (dst : SharedByte) (n : Nat) : Option SharedByte :=
  if n = 0 then some (dst ++ [48]) else (digitLoop 20 n []).map (dst ++ ·)

def writeI64 (dst : SharedByte) (n : Int64) : Option SharedByte :=
  if n.toInt < 0 then writeUsize (dst ++ [45]) n.toInt.natAbs else writeUsize dst n.toInt.natAbs

/-- Carriage return and line feed. -/
def crlf : SharedByte := [13, 10]

mutual

def encodeFrame (dst : SharedByte) : SharedFrame → Option SharedByte
  | .simpleString s => some (dst ++ [43] ++ s ++ crlf)
  | .error s => some (dst ++ [45] ++ s ++ crlf)
  | .integer i => do return (← writeI64 (dst ++ [58]) i) ++ crlf
  | .bulkString b => do return (← writeUsize (dst ++ [36]) b.length) ++ crlf ++ b ++ crlf
  | .array frames => do encodeFrames ((← writeUsize (dst ++ [42]) frames.length) ++ crlf) frames
  | .null => some (dst ++ [36, 45, 49] ++ crlf)

def encodeFrames (dst : SharedByte) : List SharedFrame → Option SharedByte
  | [] => some dst
  | f :: rest => do encodeFrames (← encodeFrame dst f) rest

end

/-- Encode `frame` into `dst`, extending it as needed. -/
def extendEncode (dst : SharedByte) (frame : SharedFrame) : Option SharedByte := encodeFrame dst frame

/-! ## Encoding appends -/

theorem writeUsize_append (dst more : SharedByte) (n : Nat) : writeUsize (dst ++ more) n = (writeUsize more n).map (dst ++ ·) := by
  unfold writeUsize
  split
  · simp
  · rw [Option.map_map]
    congr 1
    funext digits
    simp

theorem writeI64_append (dst more : SharedByte) (n : Int64) : writeI64 (dst ++ more) n = (writeI64 more n).map (dst ++ ·) := by
  unfold writeI64
  split
  · rw [List.append_assoc, writeUsize_append]
  · exact writeUsize_append dst more _

mutual

theorem encodeFrame_append (dst more : SharedByte) (frame : SharedFrame) :
    encodeFrame (dst ++ more) frame = (encodeFrame more frame).map (dst ++ ·) := by
  cases frame with
  | simpleString s => simp [encodeFrame]
  | error s => simp [encodeFrame]
  | integer i =>
    simp only [encodeFrame, List.append_assoc, writeI64_append dst]
    cases writeI64 (more ++ [58]) i <;> simp
  | bulkString b =>
    simp only [encodeFrame, List.append_assoc, writeUsize_append dst]
    cases writeUsize (more ++ [36]) b.length <;> simp
  | array frames =>
    simp only [encodeFrame, List.append_assoc, writeUsize_append dst]
    cases writeUsize (more ++ [42]) frames.length with
    | none => rfl
    | some head =>
      simp only [Option.map_some, Option.bind_eq_bind, Option.bind_some, List.append_assoc]
      exact encodeFrames_append dst _ frames
  | null => simp [encodeFrame]

theorem encodeFrames_append (dst more : SharedByte) (frames : List SharedFrame) :
    encodeFrames (dst ++ more) frames = (encodeFrames more frames).map (dst ++ ·) := by
  cases frames with
  | nil => rfl
  | cons f rest =>
    simp only [encodeFrames, encodeFrame_append dst more f]
    cases encodeFrame more f with
    | none => rfl
    | some bytes =>
      simp only [Option.map_some, Option.bind_eq_bind, Option.bind_some]
      exact encodeFrames_append dst bytes rest

end

/-- `extend_encode` appends the encoding of the frame. -/
theorem extendEncode_eq (dst : SharedByte) (frame : SharedFrame) : extendEncode dst frame = (extendEncode [] frame).map (dst ++ ·) := by
  have append := encodeFrame_append dst [] frame
  rwa [List.append_nil] at append

end Radixox.Server
