import Radixox.Server.Wire

/-!
# The length of a frame

`encode_len` counts the bytes that `encode_frame` is going to write, in a recursion of its own. How many digits a number
has and how long a null is comes from `redis_protocol` and is a parameter.
-/

namespace Radixox.Server
set_option autoImplicit false
open Radixox.Decimal

/-- What `encode_len` takes from `redis_protocol`. -/
structure RedisProtocol where
  digitsInUsize : Nat → Nat
  NULL : SharedByte

namespace RedisProtocol

/-- A `usize` has its number of decimal digits, 0 one, and a null is five bytes long. -/
structure Documented (lib : RedisProtocol) : Prop where
  digits : ∀ n, n < 2 ^ 64 → lib.digitsInUsize n = if n = 0 then 1 else (Nat.digits 10 n).length
  null : lib.NULL = [36, 45, 49, 13, 10]

end RedisProtocol

section EncodeLen

variable (lib : RedisProtocol)

def bulkstringEncodeLen (b : SharedByte) : Nat := 1 + lib.digitsInUsize b.length + 2 + b.length + 2

def simplestringEncodeLen (s : SharedByte) : Nat := 1 + s.length + 2

def errorEncodeLen (s : SharedByte) : Nat := 1 + s.length + 2

def integerEncodeLen (i : Int64) (intAsBulkstring : Bool) : Nat :=
  let sign := if i.toInt < 0 then 1 else 0
  let digits := lib.digitsInUsize i.toInt.natAbs
  if intAsBulkstring then 1 + lib.digitsInUsize (digits + sign) + 2 + sign + digits + 2
  else 1 + digits + 2 + sign

mutual

def SharedFrame.encodeLen (intAsBulkstring : Bool) : SharedFrame → Nat
  | .bulkString b => bulkstringEncodeLen lib b
  | .array frames => foldEncodeLen intAsBulkstring (1 + lib.digitsInUsize frames.length + 2) frames
  | .null => lib.NULL.length
  | .simpleString s => simplestringEncodeLen s
  | .error s => errorEncodeLen s
  | .integer i => integerEncodeLen lib i intAsBulkstring

/-- The fold over the frames of an array, from `m`. -/
def foldEncodeLen (intAsBulkstring : Bool) (m : Nat) : List SharedFrame → Nat
  | [] => m
  | f :: rest => foldEncodeLen intAsBulkstring (m + f.encodeLen intAsBulkstring) rest

end

variable {lib}

theorem RedisProtocol.Documented.digitsInUsize (documented : lib.Documented) {n : Nat} (usize : n < 2 ^ 64) :
    lib.digitsInUsize n = (text n).length := by
  rw [documented.digits n usize, text]
  split
  · rfl
  · rw [Decimal.digits, List.length_map, List.length_reverse]

theorem integerEncodeLen_eq (documented : lib.Documented) (i : Int64) :
    integerEncodeLen lib i false = (SharedFrame.integer i).wire.length := by
  have digits := documented.digitsInUsize (Nat.lt_of_le_of_lt (natAbs_int64_le i) (by decide))
  by_cases negative : i.toInt < 0 <;> simp [integerEncodeLen, digits, SharedFrame.wire, integerText, crlf, negative] <;> omega

mutual

theorem encodeLen_eq (documented : lib.Documented) (frame : SharedFrame) (sized : frame.Sized (2 ^ 64)) :
    frame.encodeLen lib false = frame.wire.length := by
  cases frame with
  | simpleString s | error s =>
    simp [SharedFrame.encodeLen, simplestringEncodeLen, errorEncodeLen, SharedFrame.wire, crlf]
    omega
  | integer i => exact integerEncodeLen_eq documented i
  | bulkString b =>
    have digits := documented.digitsInUsize sized
    simp [SharedFrame.encodeLen, bulkstringEncodeLen, digits, SharedFrame.wire, crlf]
    omega
  | array frames =>
    have digits := documented.digitsInUsize sized.1
    rw [SharedFrame.encodeLen, foldEncodeLen_eq documented frames sized.2, digits]
    simp [SharedFrame.wire, crlf]
    omega
  | null =>
    rw [SharedFrame.encodeLen, documented.null]
    rfl

theorem foldEncodeLen_eq (documented : lib.Documented) {m : Nat} (frames : List SharedFrame) (sized : AllSized (2 ^ 64) frames) :
    foldEncodeLen lib false m frames = m + (wireAll frames).length := by
  cases frames with
  | nil => rfl
  | cons f rest =>
    rw [foldEncodeLen, foldEncodeLen_eq documented rest sized.2, encodeLen_eq documented f sized.1, wireAll,
      List.length_append, Nat.add_assoc]

end

/-- `encode_len` counts what `encode_frame` appends. The digit buffer has room for every `usize`, and every integer is
written in decimal. -/
theorem encodeFrame_length (documented : lib.Documented) (dst : SharedByte) (frame : SharedFrame) (sized : frame.Sized (2 ^ 64)) :
    (∃ bytes, encodeFrame dst frame = some (dst ++ bytes) ∧ bytes.length = frame.encodeLen lib false) ∧
      (∀ n, n < 2 ^ 64 → writeUsize dst n = some (dst ++ text n)) ∧
      ∀ i, writeI64 dst i = some (dst ++ integerText i) := by
  refine ⟨⟨frame.wire, ?_, (encodeLen_eq documented frame sized).symm⟩, fun n usize => ?_, writeI64_eq dst⟩
  · exact encodeFrame_of_sized (by decide) dst frame sized
  · rw [writeUsize_eq, if_pos (Nat.lt_trans usize (by decide))]

end EncodeLen

/-- The library as documented. -/
def RedisProtocol.reference : RedisProtocol where
  digitsInUsize n := if n = 0 then 1 else (Nat.digits 10 n).length
  NULL := [36, 45, 49, 13, 10]

theorem encodeFrame_length_nested : ∃ bytes, encodeFrame [] (.array [.array [.integer Int64.minValue, .null], .bulkString []]) =
    some bytes ∧ bytes.length = 42 := by
  obtain ⟨⟨bytes, encoded, length⟩, -⟩ := encodeFrame_length (show RedisProtocol.reference.Documented from ⟨fun _ _ => rfl, rfl⟩) []
    (.array [.array [.integer Int64.minValue, .null], .bulkString []]) (by simp [SharedFrame.Sized, AllSized])
  exact ⟨bytes, encoded, length.trans (by decide +kernel)⟩

end Radixox.Server
